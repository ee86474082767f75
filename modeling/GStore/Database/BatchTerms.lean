import GStore.Database.Statistics

/-! The dictionaries of one kind of term in `batch_insert`. The ids of new terms are kept in a map
while the triples are read, and both dictionaries are filled from the map afterwards; inserting the
triples one by one fills them term by term. -/
namespace GStore
open List TermTable

structure TermBatch where
  table : TermTable
  map : List (String × Nat)

def TermBatch.resolve (b : TermBatch) (str : String) : Nat × TermBatch :=
  if b.table.getID str = invalidID then
    match b.map.lookup str with
    | some id => (id, b)
    | none => (b.table.alloc.1, ⟨b.table.alloc.2, (str, b.table.alloc.1) :: b.map⟩)
  else (b.table.getID str, b)

/-- `batchSetIDByEntity` and `batchSetEntityByID`, and the same for predicates and literals. The
terms of the map are different, so the order in which the map is walked does not matter. -/
def TermBatch.commit (b : TermBatch) : TermTable :=
  b.map.foldr (fun e tbl => (tbl.setStr e.2 e.1).2)
    (b.map.foldr (fun e tbl => (tbl.setID e.1 e.2).2) b.table)

def TermTable.idsLeft (tbl : TermTable) : Nat :=
  tbl.freelist.length + (literalFirstID - 1 - tbl.limit)

/-- Every unknown string in the list is not empty, and there are as many ids left as there are
unknown strings. -/
def TermTable.CanTake (tbl : TermTable) (strs : List String) : Prop :=
  (∀ str ∈ strs, tbl.getID str = invalidID → str ≠ "") ∧
    (strs.filter fun str => decide (tbl.getID str = invalidID)).toFinset.card ≤ tbl.idsLeft

variable (tbl : TermTable)

theorem setID_eq (str : String) (id : Nat) :
    (tbl.setID str id).2 = { tbl with ids := (tbl.setID str id).2.ids } := by
  unfold setID
  split <;> rfl

theorem setStr_eq (id : Nat) (str : String) :
    (tbl.setStr id str).2 = { tbl with strs := (tbl.setStr id str).2.strs } := by
  unfold setStr
  split <;> rfl

theorem setID_other {tbl : TermTable} {str other : String} {id : Nat}
    (apart : str = "" ∨ other ≠ str) :
    (tbl.setID str id).2.ids other = tbl.ids other := by
  unfold setID
  split
  · rfl
  · rename_i accepted
    exact Function.update_of_ne (apart.resolve_left fun empty => accepted (.inl empty)) _ _

variable {str : String}

theorem setID_self {tbl : TermTable} {id : Nat} (nonempty : str ≠ "")
    (absent : tbl.ids str = none) :
    (tbl.setID str id).2.ids str = some id := by
  rw [setID, if_neg (by simp [nonempty, absent])]
  exact Function.update_self _ _ _

theorem setStr_setID (a b : String) (i j : Nat) :
    ((tbl.setID a i).2.setStr j b).2 = ((tbl.setStr j b).2.setID a i).2 := by
  unfold setID setStr
  split <;> split <;> simp_all

theorem alloc_ids : tbl.alloc.2.ids = tbl.ids := by
  obtain ⟨base, top, ids, strs, limit, freelist, num⟩ := tbl
  cases freelist with
  | nil =>
    unfold alloc
    dsimp only
    split <;> rfl
  | cons t rest => rfl

theorem alloc_setID (str : String) (id : Nat) :
    (tbl.setID str id).2.alloc = (tbl.alloc.1, (tbl.alloc.2.setID str id).2) := by
  obtain ⟨base, top, ids, strs, limit, freelist, num⟩ := tbl
  by_cases taken : str = "" ∨ (ids str).isSome = true
  · cases freelist with
    | nil =>
      simp only [setID, alloc, taken, if_true]
      split <;> simp
    | cons t rest => simp [setID, alloc, taken]
  · cases freelist with
    | nil =>
      simp only [setID, alloc, taken, if_false]
      split <;> simp
    | cons t rest => simp [setID, alloc, taken]

theorem alloc_setStr (id : Nat) (str : String) :
    (tbl.setStr id str).2.alloc = (tbl.alloc.1, (tbl.alloc.2.setStr id str).2) := by
  obtain ⟨base, top, ids, strs, limit, freelist, num⟩ := tbl
  by_cases taken : (strs (id - base)).isSome = true ∨ maxKeyNum ≤ id - base
  · cases freelist with
    | nil =>
      simp only [setStr, alloc, taken, if_true]
      split <;> simp
    | cons t rest => simp [setStr, alloc, taken]
  · cases freelist with
    | nil =>
      simp only [setStr, alloc, taken, if_false]
      split <;> simp
    | cons t rest => simp [setStr, alloc, taken]

theorem commit_cons (str : String) (id : Nat) (map : List (String × Nat)) :
    TermBatch.commit ⟨tbl, (str, id) :: map⟩ =
      (((TermBatch.commit ⟨tbl, map⟩).setID str id).2.setStr id str).2 := by
  have pass : ∀ (m : List (String × Nat)) (t : TermTable),
      m.foldr (fun e tbl => (tbl.setStr e.2 e.1).2) (t.setID str id).2 =
        ((m.foldr (fun e tbl => (tbl.setStr e.2 e.1).2) t).setID str id).2 := by
    intro m t
    induction m with
    | nil => rfl
    | cons e m ih => rw [foldr_cons, foldr_cons, ih, setStr_setID]
  rw [TermBatch.commit, foldr_cons, foldr_cons, pass]
  rfl

theorem alloc_commit (b : TermBatch) :
    b.commit.alloc = (b.table.alloc.1, TermBatch.commit ⟨b.table.alloc.2, b.map⟩) := by
  obtain ⟨tbl, map⟩ := b
  induction map with
  | nil => rfl
  | cons e map ih => rw [commit_cons, alloc_setStr, alloc_setID, ih, commit_cons]

theorem alloc_valid_iff {tbl : TermTable} (sound : tbl.Sound) (spare : tbl.Spare 1) :
    tbl.alloc.1 ≠ invalidID ↔ 0 < tbl.idsLeft := by
  rw [alloc_eq sound spare]
  unfold idsLeft
  cases free : tbl.freelist with
  | nil =>
    have bound := sound.baseBelow
    simp only [length_nil]
    split_ifs with out
    · simp
      omega
    · have small : tbl.limit + 1 < literalFirstID := Nat.lt_of_not_le out
      exact iff_of_true (shifted_ne_invalid small bound) (by omega)
  | cons t rest =>
    have small := (sound.free t (by simp [free])).2
    exact iff_of_true (shifted_ne_invalid small sound.baseBelow) (by simp)

theorem alloc_idsLeft {tbl : TermTable} (sound : tbl.Sound) (spare : tbl.Spare 1) :
    tbl.alloc.2.idsLeft = tbl.idsLeft - 1 := by
  rw [alloc_eq sound spare]
  unfold idsLeft
  cases free : tbl.freelist with
  | nil =>
    simp only [length_nil]
    omega
  | cons t rest =>
    simp only [length_cons]
    omega

theorem create_idsLeft {tbl : TermTable} (sound : tbl.Sound) (spare : tbl.Spare 1) (str : String) :
    (tbl.create str).2.2.idsLeft = tbl.idsLeft - 1 := by
  rw [create_eq, ← alloc_idsLeft sound spare]
  split
  · rw [setID_eq]; rfl
  · rw [setStr_eq, setID_eq]; rfl

theorem create_id (str : String) : (tbl.create str).2.1 = tbl.alloc.1 := by
  rw [create_eq]
  split <;> rfl

theorem create_table {tbl : TermTable} (ok : (tbl.create str).1 = true) :
    (tbl.create str).2.2 = ((tbl.alloc.2.setID str tbl.alloc.1).2.setStr tbl.alloc.1 str).2 := by
  rw [create_eq] at ok ⊢
  split at ok
  · cases ok
  · rename_i entered
    rw [if_neg entered]

theorem TermTable.Intact.ids_none {tbl : TermTable} (whole : tbl.Intact)
    (unknown : tbl.getID str = invalidID) :
    tbl.ids str = none := by
  cases found : tbl.ids str with
  | none => rfl
  | some id =>
    rw [TermTable.getID, found, Option.getD_some] at unknown
    exact absurd (unknown ▸ found) (whole str)

section OneByOne

variable {tbl : TermTable} (sound : tbl.Sound) (whole : tbl.Intact) (spare : tbl.Spare 1)
    {str : String}
include sound whole spare

theorem resolve_new (unknown : tbl.getID str = invalidID) (ok : (tbl.resolve str).ok = true) :
    (tbl.resolve str).table.ids = Function.update tbl.ids str (some (tbl.resolve str).id) ∧
      (tbl.resolve str).id ≠ invalidID ∧ (tbl.resolve str).table.idsLeft = tbl.idsLeft - 1 ∧
      (tbl.resolve str).table.Intact := by
  have made := create_spec sound spare str
  unfold TermTable.resolve at ok ⊢
  rw [if_pos unknown] at ok ⊢
  obtain ⟨i, id, -, small, ids, -⟩ := made.accepted ok
  have valid : (tbl.create str).2.1 ≠ invalidID := id ▸ shifted_ne_invalid small sound.baseBelow
  refine ⟨ids, valid, create_idsLeft sound spare str, fun other found => ?_⟩
  rw [ids] at found
  obtain rfl | same := eq_or_ne other str
  · rw [Function.update_self] at found
    exact valid (Option.some.inj found)
  · rw [Function.update_of_ne same] at found
    exact whole other found

theorem TermTable.CanTake.resolve {strs : List String} (can : tbl.CanTake (str :: strs)) :
    (tbl.resolve str).ok = true ∧ (tbl.resolve str).table.CanTake strs ∧
    (tbl.resolve str).table.Sound ∧
      (tbl.resolve str).table.Intact := by
  obtain ⟨nonempty, left⟩ := can
  have extended := (resolve_spec sound spare str).sound
  by_cases unknown : tbl.getID str = invalidID
  · have absent := whole.ids_none unknown
    have member : str ∈ ((str :: strs).filter fun s =>
        decide (tbl.getID s = invalidID)).toFinset := by simp [unknown]
    have some_left : 0 < tbl.idsLeft := (Finset.card_pos.mpr ⟨str, member⟩).trans_le left
    have ok : (tbl.resolve str).ok = true := by
      unfold TermTable.resolve
      rw [if_pos unknown]
      exact create_accepts_valid sound spare (nonempty str (by simp) unknown) absent
        ((alloc_valid_iff sound spare).mpr some_left)
    obtain ⟨ids, valid, fewer, intact⟩ := resolve_new sound whole spare unknown ok
    have getID : ∀ s, (tbl.resolve str).table.getID s = invalidID ↔ tbl.getID s = invalidID ∧
        s ≠ str := by
      intro s
      by_cases same : s = str
      · simp [TermTable.getID, ids, same, valid]
      · simp [TermTable.getID, ids, same]
    refine ⟨ok, ⟨fun s hs h => nonempty s (mem_cons_of_mem str hs) ((getID s).mp h).1, ?_⟩,
        extended, intact⟩
    have rest : (strs.filter fun s => decide ((tbl.resolve str).table.getID s = invalidID)).toFinset
      ⊆
        ((str :: strs).filter fun s => decide (tbl.getID s = invalidID)).toFinset.erase str := by
      intro s hs
      simp only [mem_toFinset, mem_filter, decide_eq_true_iff, getID] at hs
      simp [hs.1, hs.2.1, hs.2.2]
    have fewer_unknown := Finset.card_le_card rest
    rw [Finset.card_erase_of_mem member] at fewer_unknown
    omega
  · have same : tbl.resolve str =
      ⟨true, false, tbl.getID str, tbl⟩ := by rw [TermTable.resolve, if_neg unknown]
    rw [same]
    refine ⟨rfl, ⟨fun s hs => nonempty s (mem_cons_of_mem str hs),
        le_trans (Finset.card_le_card ?_) left⟩, sound, whole⟩
    intro s hs
    simp only [mem_toFinset, mem_filter, mem_cons] at hs ⊢
    exact ⟨.inr hs.1, hs.2⟩

end OneByOne

structure TermBatch.Follows (b : TermBatch) (tbl : TermTable) : Prop where
  committed : b.commit = tbl
  ids : ∀ str, tbl.ids str = (b.table.ids str).or (b.map.lookup str)

theorem follows_start : TermBatch.Follows ⟨tbl, []⟩ tbl := ⟨rfl, by simp⟩

variable {b : TermBatch}

theorem TermBatch.Follows.resolve {tbl : TermTable} (follows : b.Follows tbl) (sound : tbl.Sound)
    (whole : tbl.Intact) (spare : tbl.Spare 1) (ok : (tbl.resolve str).ok = true) :
    (b.resolve str).1 = (tbl.resolve str).id ∧ (b.resolve str).2.Follows
    (tbl.resolve str).table := by
  have ids := follows.ids str
  have known : ∀ id, tbl.ids str = some id → tbl.resolve str = ⟨true, false, id, tbl⟩ := by
    intro id found
    have value : tbl.getID str = id := by rw [TermTable.getID, found, Option.getD_some]
    rw [TermTable.resolve, if_neg (fun h => whole str (by rw [found, ← h, value])), value]
  cases own : b.table.ids str with
  | some id =>
    have value : b.table.getID str = id := by rw [TermTable.getID, own, Option.getD_some]
    rw [own, Option.some_or] at ids
    have valid : ¬ b.table.getID str = invalidID := fun h => whole str (by rw [ids, ← h, value])
    rw [known id ids, TermBatch.resolve, if_neg valid]
    exact ⟨value, follows⟩
  | none =>
    have unknown : b.table.getID str = invalidID := by rw [TermTable.getID, own, Option.getD_none]
    rw [own, Option.none_or] at ids
    rw [TermBatch.resolve, if_pos unknown]
    cases found : b.map.lookup str with
    | some id =>
      rw [known id (ids.trans found)]
      exact ⟨rfl, follows⟩
    | none =>
      rw [found] at ids
      have missing : tbl.getID str = invalidID := by rw [TermTable.getID, ids, Option.getD_none]
      obtain ⟨entered, valid, -, -⟩ := resolve_new sound whole spare missing ok
      have alloc := alloc_commit b
      rw [follows.committed] at alloc
      have made : tbl.resolve str =
          ⟨(tbl.create str).1, true, (tbl.create str).2.1, (tbl.create str).2.2⟩ := by
        rw [TermTable.resolve, if_pos missing]
      rw [made] at ok entered ⊢
      rw [create_id, alloc] at entered ⊢
      refine ⟨rfl, ?_, fun other => ?_⟩
      · rw [commit_cons, create_table ok, alloc]
      · dsimp only at entered ⊢
        rw [entered, alloc_ids b.table]
        obtain rfl | same := eq_or_ne other str
        · rw [Function.update_self, own, Option.none_or, lookup_cons_self]
        · rw [Function.update_of_ne same, follows.ids other, lookup_cons, beq_false_of_ne same]

def TermBatch.resolveAll (b : TermBatch) (strs : List String) : TermBatch :=
  strs.foldl (fun b str => (b.resolve str).2) b

/-- The map after the terms in `seen`, whether or not the allocator had ids for all of them. -/
structure TermBatch.Reads (b : TermBatch) (tbl : TermTable) (seen : List String) : Prop where
  sound : b.table.Sound
  ids : b.table.ids = tbl.ids
  keys : (b.map.map Prod.fst).Nodup
  members : ∀ str, str ∈ b.map.map Prod.fst ↔ str ∈ seen ∧ tbl.getID str = invalidID
  left : (∀ e ∈ b.map, e.2 ≠ invalidID) → b.map.length + b.table.idsLeft = tbl.idsLeft

theorem lookup_none_iff {map : List (String × Nat)} :
    map.lookup str = none ↔ str ∉ map.map Prod.fst := by
  rw [lookup_eq_none_iff, mem_map]
  constructor
  · rintro none ⟨e, member, rfl⟩
    simpa using none e member
  · intro none e member
    exact bne_iff_ne.mpr fun same => none ⟨e, member, same.symm⟩

theorem TermBatch.Reads.resolve {tbl : TermTable} {seen : List String} (reads : b.Reads tbl seen)
    {n : Nat}
    (spare : b.table.Spare (n + 1)) (str : String) :
    (b.resolve str).2.Reads tbl (seen ++ [str]) ∧ (b.resolve str).2.table.Spare n := by
  have getID : b.table.getID str = tbl.getID str := by
    rw [TermTable.getID, TermTable.getID, reads.ids]
  -- A term that is known, or in the map already, adds nothing.
  have one := spare.mono (Nat.le_add_left 1 n)
  have stays : (tbl.getID str = invalidID → str ∈ seen) → b.Reads tbl (seen ++ [str]) ∧
      b.table.Spare n := fun old =>
    ⟨⟨reads.sound, reads.ids, reads.keys, fun other => by
      rw [reads.members, mem_append, mem_singleton]
      constructor
      · exact fun h => ⟨.inl h.1, h.2⟩
      · rintro ⟨here | rfl, unknown⟩
        · exact ⟨here, unknown⟩
        · exact ⟨old unknown, unknown⟩, reads.left⟩, spare.mono (Nat.le_succ n)⟩
  unfold TermBatch.resolve
  rw [getID]
  split
  · rename_i unknown
    cases found : b.map.lookup str with
    | some id =>
      refine stays fun _ => ((reads.members str).mp ?_).1
      by_contra absent
      rw [lookup_none_iff.mpr absent] at found
      cases found
    | none =>
      have absent := lookup_none_iff.mp found
      have alloc := alloc_spec reads.sound one
      refine ⟨⟨alloc.sound, alloc.ids.trans reads.ids, nodup_cons.mpr ⟨absent, reads.keys⟩,
          fun other => ?_, fun valid => ?_⟩,
        alloc.spare n spare⟩
      · rw [map_cons, mem_cons, reads.members, mem_append, mem_singleton]
        constructor
        · rintro (rfl | h)
          · exact ⟨.inr rfl, unknown⟩
          · exact ⟨.inl h.1, h.2⟩
        · rintro ⟨here | rfl, missing⟩
          · exact .inr ⟨here, missing⟩
          · exact .inl rfl
      · have before := reads.left fun e he => valid e (mem_cons_of_mem _ he)
        have some_left := (alloc_valid_iff reads.sound one).mp (valid _ mem_cons_self)
        rw [length_cons, alloc_idsLeft reads.sound one]
        omega
  · rename_i known
    exact stays fun unknown => absurd unknown known

theorem resolveAll_reads {tbl : TermTable} (sound : tbl.Sound) {strs : List String}
    (spare : tbl.Spare strs.length) :
    (TermBatch.resolveAll ⟨tbl, []⟩ strs).Reads tbl strs := by
  have all : ∀ (strs seen : List String) (b : TermBatch), b.Reads tbl seen →
    b.table.Spare strs.length →
      (b.resolveAll strs).Reads tbl (seen ++ strs) := by
    intro strs
    induction strs with
    | nil => exact fun seen b reads _ => by rwa [append_nil]
    | cons str strs ih =>
      intro seen b reads spare
      obtain ⟨next, left⟩ := reads.resolve spare str
      have rest := ih (seen ++ [str]) _ next left
      rwa [append_assoc] at rest
  exact all strs [] _ ⟨sound, rfl, nodup_nil, by simp, by simp⟩ spare

theorem commit_ids (b : TermBatch) (str : String) :
    b.commit.ids str = (b.map.foldr (fun e tbl => (tbl.setID e.1 e.2).2) b.table).ids str := by
  have kept : ∀ (m : List (String × Nat)) (t : TermTable),
      (m.foldr (fun e tbl => (tbl.setStr e.2 e.1).2) t).ids = t.ids := by
    intro m t
    induction m with
    | nil => rfl
    | cons e m ih => rw [foldr_cons, setStr_eq, ih]
  rw [TermBatch.commit, kept]

theorem commit_ids_of_not_mem (absent : str = "" ∨ str ∉ b.map.map Prod.fst) :
    b.commit.ids str = b.table.ids str := by
  obtain ⟨tbl, map⟩ := b
  rw [commit_ids]
  induction map with
  | nil => rfl
  | cons e map ih =>
    have before := ih (absent.imp_right fun h => fun member => h (mem_cons_of_mem _ member))
    rw [foldr_cons, setID_other, before]
    rcases absent with rfl | absent
    · exact (eq_or_ne e.1 "").imp_right Ne.symm
    · exact .inr fun same => absent (same ▸ mem_cons_self)

theorem commit_ids_of_mem (keys : (b.map.map Prod.fst).Nodup) {id : Nat}
    (member : (str, id) ∈ b.map)
    (nonempty : str ≠ "") (absent : b.table.ids str = none) : b.commit.ids str = some id := by
  obtain ⟨tbl, map⟩ := b
  rw [commit_ids]
  induction map with
  | nil => cases member
  | cons e map ih =>
    obtain ⟨fresh, keys⟩ := nodup_cons.mp keys
    rw [foldr_cons]
    rcases mem_cons.mp member with rfl | inside
    · have before : (map.foldr (fun e tbl => (tbl.setID e.1 e.2).2) tbl).ids str = none := by
        rw [← commit_ids ⟨tbl, map⟩, commit_ids_of_not_mem (.inr fresh), absent]
      exact setID_self nonempty before
    · have apart : str ≠ e.1 := fun same => fresh (same ▸ mem_map_of_mem inside)
      exact (setID_other (.inr apart)).trans (ih keys inside absent)

theorem canTake_of_named {tbl : TermTable} (sound : tbl.Sound) (whole : tbl.Intact)
    {strs : List String}
    (spare : tbl.Spare strs.length)
    (named : ∀ str ∈ strs, (TermBatch.resolveAll ⟨tbl, []⟩ strs).commit.getID str ≠ invalidID) :
    tbl.CanTake strs := by
  have reads := resolveAll_reads sound spare
  obtain ⟨b, batch⟩ : ∃ b, TermBatch.resolveAll ⟨tbl, []⟩ strs = b := ⟨_, rfl⟩
  rw [batch] at reads named
  have nonempty : ∀ str ∈ strs, tbl.getID str = invalidID → str ≠ "" := by
    intro str member unknown empty
    refine named str member ?_
    rwa [TermTable.getID, commit_ids_of_not_mem (.inl empty), reads.ids]
  have valid : ∀ e ∈ b.map, e.2 ≠ invalidID := by
    intro e member invalid
    obtain ⟨inside, unknown⟩ := (reads.members e.1).mp (mem_map_of_mem member)
    have entered : b.commit.ids e.1 = some e.2 :=
      commit_ids_of_mem reads.keys member (nonempty e.1 inside unknown)
        (by rw [reads.ids]; exact whole.ids_none unknown)
    exact named e.1 inside (by rw [TermTable.getID, entered, Option.getD_some, invalid])
  refine ⟨nonempty, ?_⟩
  have same : (strs.filter fun str => decide (tbl.getID str = invalidID)).toFinset =
      (b.map.map Prod.fst).toFinset := by
    ext str
    rw [mem_toFinset, mem_toFinset, mem_filter, decide_eq_true_iff, reads.members]
  rw [same, toFinset_card_of_nodup reads.keys, length_map]
  exact Nat.le_of_add_right_le (reads.left valid).le

end GStore
