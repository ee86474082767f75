import GStore.KVstore.Predicate

/-! The batch updates of a packed list: `Insert_s2values`, `Remove_s2values` and their siblings, which
reads and the vacuum use to apply the additions and deletions of a version chain. The pair vector
`_pidoidlist` is the list of its pairs. The source keeps offsets and lengths in `int`: the definitions are its
behaviour for lists below `2 ^ 31` words. -/
namespace GStore
open Lib List

variable (list : List (Nat ×ₗ Nat))

/-- `mp[_pidoidlist[i]].push_back(_pidoidlist[i+1])` for all pairs; `mp` is a `map` to vectors. -/
def collectVectors : List (Nat × List Nat) :=
  collect (fun x xs => xs ++ [x]) (list.map ofLex)

/-- `mp[_pidoidlist[i]].insert(_pidoidlist[i+1])` for all pairs; `mp` is a `map` to sets. -/
def collectSets : List (Nat × List Nat) :=
  collect insertSorted (list.map ofLex)

/-- `next_o_offset`: the batch updates use the length of the list as the end of its last sublist. -/
def sublistEnd (k : Side) (tmp : List Nat) (i : Nat) : Nat :=
  if word tmp 1 ≤ i + 1 then tmp.length else offAt k tmp (i + 1)

/-- The second pass of an insertion ("merge sid"), over the merged predicates, the rest of `mp` and the
old predicates from `i` on. `none` is a failed `assert` or the branch that only logs an error. -/
def mergeSublists (k : Side) (tmp : List Nat) :
    List Nat → List (Nat × List Nat) → Nat → Option (List (Nat × List Nat))
  | [], mp, i => if mp = [] ∧ word tmp 1 ≤ i then some [] else none
  | p :: ps, [], i =>
    if i < word tmp 1 ∧ p = preAt k tmp i then
      (mergeSublists k tmp ps [] (i + 1)).map
        ((p, copyWords tmp (offAt k tmp i) (sublistEnd k tmp i)) :: ·)
    else none
  | p :: ps, (q, xs) :: mp, i =>
    if i < word tmp 1 then
      let old := copyWords tmp (offAt k tmp i) (sublistEnd k tmp i)
      if p = q ∧ p = preAt k tmp i then (mergeSublists k tmp ps mp (i + 1)).map ((p, unionSorted xs old) :: ·)
      else if p = q then (mergeSublists k tmp ps mp i).map ((p, xs) :: ·)
      else if p = preAt k tmp i then (mergeSublists k tmp ps ((q, xs) :: mp) (i + 1)).map ((p, old) :: ·)
      else none
    else if p = q then (mergeSublists k tmp ps mp i).map ((p, xs) :: ·)
    else none

/-- `Insert_s2values` and `Insert_o2values`. The first pass merges the predicates; counters, header and
sublists are then written in the layout of the merged groups. The outer `none` is a failed `assert`. -/
def insertBatch (k : Side) (list : List (Nat ×ₗ Nat)) (value : Option (List Nat)) : Option (Option (List Nat)) :=
  if list = [] then some value
  else
    let mp := collectVectors list
    match value with
    | none => some (some (pack k mp))
    | some tmp =>
      let ps := unionSorted (mp.map Prod.fst) ((List.range' 0 (word tmp 1)).map (preAt k tmp))
      (mergeSublists k tmp ps mp 0).map fun gs => some (pack k gs)

/-- The pass of a removal over the old predicates `is`; `o` is the running position in the sublists. -/
def removeSublists (k : Side) (tmp : List Nat) : List Nat → Nat → List (Nat × List Nat) → List (Nat × List Nat)
  | [], _, _ => []
  | i :: is, o, mp =>
    let old := copyWords tmp o (sublistEnd k tmp i)
    let next := max o (sublistEnd k tmp i)
    match mp.dropWhile fun d => decide (d.1 < preAt k tmp i) with
    | [] => (preAt k tmp i, old) :: removeSublists k tmp is next []
    | d :: rest =>
      if d.1 = preAt k tmp i then
        if diffSorted old d.2 = [] then removeSublists k tmp is next rest
        else (preAt k tmp i, diffSorted old d.2) :: removeSublists k tmp is next rest
      else (preAt k tmp i, old) :: removeSublists k tmp is next (d :: rest)

/-- The list a removal leaves, `none` with a length of 0 when no pair is left. -/
def removePairs (k : Side) (list : List (Nat ×ₗ Nat)) (tmp : List Nat) : Option (List Nat) :=
  let gs := removeSublists k tmp (List.range' 0 (word tmp 1)) (k.base + 2 * word tmp 1) (collectSets list)
  if body gs = [] then none else some (pack k gs)

variable (value : Option (List Nat))

/-- `Remove_s2values`. The outer `none` is a return that leaves the output parameters as they were. -/
def removeS2values : Option (Option (List Nat)) :=
  if list = [] then some none
  else value.map (removePairs .sub list)

/-- `Remove_o2values` hands an empty list back and does not test for an empty pair vector. -/
def removeO2values : Option (Option (List Nat)) :=
  match value with
  | none => some none
  | some tmp => some (removePairs .obj list tmp)

/-- The merge of `Insert_p2values`: the old pairs below the subject, then its objects, old and new. -/
def mergeColumns : List (Nat × List Nat) → List (Nat ×ₗ Nat) → List (Nat ×ₗ Nat)
  | [], old => old
  | (s, xs) :: mp, old =>
    let later := old.dropWhile fun q => decide ((ofLex q).1 < s)
    old.takeWhile (fun q => decide ((ofLex q).1 < s)) ++
      (unionSorted xs (objects (later.takeWhile fun q => decide ((ofLex q).1 = s)))).map (fun o => toLex (s, o)) ++
      mergeColumns mp (later.dropWhile fun q => decide ((ofLex q).1 = s))

def insertP2values : Option (List Nat) :=
  if list = [] then value
  else
    let mp := collectVectors list
    match value with
    | none => some (columns ((pairs mp).map toLex))
    | some tmp => some (columns (mergeColumns mp (columnPairs tmp)))

def dropColumns : List (Nat × List Nat) → List (Nat ×ₗ Nat) → List (Nat ×ₗ Nat)
  | [], old => old
  | (s, xs) :: mp, old =>
    let later := old.dropWhile fun q => decide ((ofLex q).1 < s)
    old.takeWhile (fun q => decide ((ofLex q).1 < s)) ++
      (diffSorted (objects (later.takeWhile fun q => decide ((ofLex q).1 = s))) xs).map (fun o => toLex (s, o)) ++
      dropColumns mp (later.dropWhile fun q => decide ((ofLex q).1 = s))

/-- `Remove_p2values`. The outer `none` is a return that leaves the output parameters as they were. -/
def removeP2values : Option (Option (List Nat)) :=
  if list = [] then some value
  else
    value.map fun tmp =>
      let ps := dropColumns (collectSets list) (columnPairs tmp)
      if ps = [] then none else some (columns ps)

variable {list : List (Nat ×ₗ Nat)}

theorem collectVectors_spec (sorted : Increasing list) :
    Grouped (collectVectors list) ∧ pairs (collectVectors list) = list.map ofLex :=
  collect_spec (fun _ _ _ => rfl) sorted

theorem insertSorted_last {x : Nat} {l : List Nat} (below : ∀ y ∈ l, y < x) : insertSorted x l = l ++ [x] := by
  induction l with
  | nil => rfl
  | cons y l ih =>
    rw [insertSorted, if_pos (below y (by simp)), ih fun z hz => below z (by simp [hz])]
    rfl

theorem collectSets_spec (sorted : Increasing list) :
    Grouped (collectSets list) ∧ pairs (collectSets list) = list.map ofLex :=
  collect_spec (fun _ _ => insertSorted_last) sorted

theorem mem_map_ofLex {p x : Nat} : (p, x) ∈ list.map ofLex ↔ toLex (p, x) ∈ list := by
  constructor
  · intro h
    obtain ⟨q, hq, same⟩ := mem_map.mp h
    exact same ▸ hq
  · intro h
    exact mem_map.mpr ⟨_, h, rfl⟩

variable (k : Side) (lo hi : List (Nat × List Nat)) (g : Nat × List Nat)

theorem sublistEnd_pack : sublistEnd k (pack k (lo ++ g :: hi)) lo.length =
      k.base + 2 * (lo ++ g :: hi).length + (body lo).length + g.2.length := by
  rw [← nextOff_pack k lo hi g.1 g.2, nextOff, sublistEnd, word_pack_one, length_pack, endOf_pack]
  have inside : lo.length < (lo ++ g :: hi).length := by simp
  by_cases last : lo.length + 1 = (lo ++ g :: hi).length
  · rw [if_pos (by omega), if_pos last]
  · rw [if_neg (by omega), if_neg last]

theorem copy_sublist : copyWords (pack k (lo ++ g :: hi)) (k.base + 2 * (lo ++ g :: hi).length + (body lo).length)
      (sublistEnd k (pack k (lo ++ g :: hi)) lo.length) = g.2 :=
  copyWords_pack (body lo) g.2 (body hi) (body_middle lo hi g.1 g.2) rfl (sublistEnd_pack k lo hi g)

theorem copy_old_sublist : copyWords (pack k (lo ++ g :: hi)) (offAt k (pack k (lo ++ g :: hi)) lo.length)
      (sublistEnd k (pack k (lo ++ g :: hi)) lo.length) = g.2 := by
  have start := offAt_pack k lo hi g.1 g.2
  rw [Prod.eta] at start
  rw [start, copy_sublist]

theorem mergeSublists_pack (gs lo hs : List (Nat × List Nat)) :
    mergeSublists k (pack k (lo ++ hs)) (unionSorted (gs.map Prod.fst) (hs.map Prod.fst)) gs lo.length =
      some (unionGroups gs hs) := by
  have shift : ∀ (lo hs : List (Nat × List Nat)) h, lo ++ h :: hs = (lo ++ [h]) ++ hs := by simp
  have name : ∀ (lo hs : List (Nat × List Nat)) h, preAt k (pack k (lo ++ h :: hs)) lo.length = h.1 :=
    fun lo hs h => preAt_pack k lo hs h.1 h.2
  have inside : ∀ (lo hs : List (Nat × List Nat)) h, lo.length < word (pack k (lo ++ h :: hs)) 1 := by simp
  induction gs generalizing lo hs with
  | nil =>
    induction hs generalizing lo with
    | nil => simp [unionSorted, unionGroups, mergeSublists]
    | cons h hs ih =>
      have rest := ih (lo ++ [h])
      rw [← shift, length_append, length_singleton] at rest
      simp only [unionSorted, unionGroups, map_cons, map_nil] at rest ⊢
      rw [mergeSublists, if_pos ⟨inside lo hs h, (name lo hs h).symm⟩, rest, copy_old_sublist]
      rfl
  | cons g gs ih =>
    induction hs generalizing lo with
    | nil =>
      have rest := ih lo []
      simp only [unionSorted, unionInto, unionGroups, unionGroupsInto, map_cons, map_nil] at rest ⊢
      rw [mergeSublists, if_neg (by simp), if_pos rfl, rest]
      rfl
    | cons h hs ihh =>
      have restRight := ihh (lo ++ [h])
      have restLeft := ih lo (h :: hs)
      have restBoth := ih (lo ++ [h]) hs
      rw [← shift, length_append, length_singleton] at restRight restBoth
      simp only [unionSorted, unionInto, unionGroups, unionGroupsInto, map_cons] at restRight restLeft ⊢
      split
      · rename_i less
        rw [mergeSublists, if_pos (inside lo hs h), name, copy_old_sublist]
        simp only [less.ne, false_and, if_false, if_true, restRight, Option.map_some]
      · split
        · rename_i less
          rw [mergeSublists, if_pos (inside lo hs h), name, copy_old_sublist]
          simp only [less.ne, and_false, if_false, if_true, restLeft, Option.map_some]
        · rename_i notLess notMore
          have same : h.1 = g.1 := le_antisymm (not_lt.mp notMore) (not_lt.mp notLess)
          rw [mergeSublists, if_pos (inside lo hs h), name, copy_old_sublist]
          simp only [same, and_self, if_true]
          rw [restBoth]
          rfl

theorem removeSublists_pack (lo hs mp : List (Nat × List Nat)) :
    removeSublists k (pack k (lo ++ hs)) (List.range' lo.length hs.length)
      (k.base + 2 * (lo ++ hs).length + (body lo).length) mp = diffGroups hs mp := by
  induction hs generalizing lo mp with
  | nil => rfl
  | cons h hs ih =>
    have name := preAt_pack k lo hs h.1 h.2
    rw [Prod.eta] at name
    have rest := ih (lo ++ [h])
    rw [show (lo ++ [h]) ++ hs = lo ++ h :: hs by simp, show (lo ++ [h]).length = lo.length + 1 by simp,
      show (body (lo ++ [h])).length = (body lo).length + h.2.length by simp, ← Nat.add_assoc] at rest
    simp only [length_cons, range'_succ, removeSublists, diffGroups, name, copy_sublist]
    rw [sublistEnd_pack, Nat.max_eq_right (Nat.le_add_right _ _)]
    simp only [rest]
    cases mp.dropWhile fun d => decide (d.1 < h.1) with
    | nil => rfl
    | cons d es => by_cases same : d.1 = h.1 <;> simp only [same, if_true, if_false]

variable {gs : List (Nat × List Nat)}

theorem insertBatch_spec (whole : Grouped gs) (sorted : Increasing list) :
    ∃ hs, insertBatch k list (stored k gs) = some (stored k hs) ∧ Grouped hs ∧
      ∀ p x, (p, x) ∈ pairs hs ↔ toLex (p, x) ∈ list ∨ (p, x) ∈ pairs gs := by
  unfold insertBatch
  by_cases none : list = []
  · exact ⟨gs, if_pos none, whole, by simp [none]⟩
  obtain ⟨grouped, listed⟩ := collectVectors_spec sorted
  have members : ∀ p x, (p, x) ∈ pairs (collectVectors list) ↔ toLex (p, x) ∈ list := by
    intro p x
    rw [listed, mem_map_ofLex]
  have nonempty : collectVectors list ≠ [] := by
    intro empty
    rw [empty, pairs_nil] at listed
    exact none (map_eq_nil_iff.mp listed.symm)
  rw [if_neg none]
  obtain rfl | empty := eq_or_ne gs []
  · exact ⟨collectVectors list, by simp [stored, nonempty], grouped, by simp [members]⟩
  · have keys : (List.range' 0 (word (pack k gs) 1)).map (preAt k (pack k gs)) = gs.map Prod.fst := by
      apply ext_getElem
      · simp
      · intro i bound _
        have inside : i < gs.length := by simpa using bound
        simp [preAt_pack_get k inside]
    have merged := mergeSublists_pack k (collectVectors list) [] gs
    rw [nil_append, length_nil] at merged
    refine ⟨unionGroups (collectVectors list) gs, ?_, unionGroups_grouped grouped whole, ?_⟩
    · have union : unionGroups (collectVectors list) gs ≠ [] := by
        intro h
        have first := unionGroups_keys (collectVectors list) gs
        obtain ⟨g, hg⟩ := exists_mem_of_ne_nil gs empty
        have hit : g.1 ∈ (unionGroups (collectVectors list) gs).map Prod.fst := by
          rw [first, mem_unionSorted]
          exact .inr (mem_map_of_mem hg)
        simp [h] at hit
      simp only [stored, if_neg empty, if_neg union, keys, merged, Option.map_some]
    · intro p x
      rw [mem_pairs_unionGroups, members]

theorem removePairs_spec (whole : Grouped gs) (sorted : Increasing list) :
    ∃ hs, removePairs k list (pack k gs) = stored k hs ∧ Grouped hs ∧
      ∀ p x, (p, x) ∈ pairs hs ↔ (p, x) ∈ pairs gs ∧ toLex (p, x) ∉ list := by
  obtain ⟨grouped, listed⟩ := collectSets_spec sorted
  have removed := removeSublists_pack k [] gs (collectSets list)
  simp only [nil_append, length_nil, body_nil, Nat.add_zero] at removed
  have kept := diffGroups_grouped (collectSets list) whole
  refine ⟨diffGroups gs (collectSets list), ?_, kept, ?_⟩
  · simp only [removePairs, word_pack_one, removed, stored]
    by_cases empty : diffGroups gs (collectSets list) = []
    · rw [if_pos empty, if_pos (by rw [empty]; rfl)]
    · rw [if_neg empty, if_neg fun h => empty (body_eq_nil kept h)]
  · intro p x
    rw [mem_pairs_diffGroups whole grouped, listed, mem_map_ofLex]

structure Cut (old : List (Nat ×ₗ Nat)) (s : Nat) (low same high : List (Nat ×ₗ Nat)) : Prop where
  whole : old = low ++ (same ++ high)
  below : ∀ q ∈ low, (ofLex q).1 < s
  equal : ∀ q ∈ same, (ofLex q).1 = s
  above : ∀ q ∈ high, s < (ofLex q).1

variable {old : List (Nat ×ₗ Nat)}

theorem columns_cut_at (sorted : Increasing old) (s : Nat) :
    Cut old s (old.takeWhile fun q => decide ((ofLex q).1 < s))
      ((old.dropWhile fun q => decide ((ofLex q).1 < s)).takeWhile fun q => decide ((ofLex q).1 = s))
      ((old.dropWhile fun q => decide ((ofLex q).1 < s)).dropWhile fun q => decide ((ofLex q).1 = s)) := by
  have mono : old.Pairwise fun a b => (ofLex a).1 ≤ (ofLex b).1 :=
    sorted.imp fun less => (Prod.Lex.lt_iff.mp less).elim le_of_lt fun same => same.1.le
  have least : ∀ q ∈ old.dropWhile (fun q => decide ((ofLex q).1 < s)), s ≤ (ofLex q).1 := by
    intro q hq
    have stays := @false_of_mem_dropWhile _ (fun q => decide ((ofLex q).1 < s)) old
      (mono.imp fun h => by simpa using fun less => lt_of_le_of_lt h less) q hq
    simpa using stays
  refine ⟨?_, ?_, ?_, ?_⟩
  · rw [takeWhile_append_dropWhile, takeWhile_append_dropWhile]
  · exact fun q hq => by simpa using mem_takeWhile_imp hq
  · exact fun q hq => by simpa using mem_takeWhile_imp hq
  · intro q hq
    have tail := mono.sublist (dropWhile_sublist fun q => decide ((ofLex q).1 < s))
    have closed : (old.dropWhile fun q => decide ((ofLex q).1 < s)).Pairwise
        fun a b => decide ((ofLex b).1 = s) = true → decide ((ofLex a).1 = s) = true := by
      refine (pairwise_iff_forall_sublist.mpr ?_)
      intro a b sub same
      have order := pairwise_iff_forall_sublist.mp tail sub
      have bound := least a (sub.subset (by simp))
      simp only [decide_eq_true_eq] at same ⊢
      exact le_antisymm (same ▸ order) bound
    have stays := false_of_mem_dropWhile closed q hq
    exact lt_of_le_of_ne (least q ((dropWhile_sublist _).subset hq)) (Ne.symm (by simpa using stays))

variable {same : List (Nat ×ₗ Nat)} {s : Nat}

theorem map_objects (equal : ∀ q ∈ same, (ofLex q).1 = s) : (objects same).map (fun o => toLex (s, o)) = same := by
  rw [objects, map_map]
  conv => rhs; rw [← map_id same]
  apply map_congr_left
  intro q hq
  exact congrArg toLex (Prod.ext (equal q hq).symm rfl)

theorem Cut.sorted {low high : List (Nat ×ₗ Nat)} (cut : Cut old s low same high)
    (sorted : Increasing old) : Increasing low ∧ Increasing same ∧ Increasing high := by
  have parts := sorted
  rw [cut.whole] at parts
  obtain ⟨first, rest, -⟩ := pairwise_append.mp parts
  obtain ⟨second, third, -⟩ := pairwise_append.mp rest
  exact ⟨first, second, third⟩

theorem objects_increasing (sorted : Increasing same)
    (equal : ∀ q ∈ same, (ofLex q).1 = s) : Increasing (objects same) := increasing_second sorted equal

theorem mem_toLex_map {s : Nat} {xs : List Nat} {q : Nat ×ₗ Nat} :
    q ∈ xs.map (fun o => toLex (s, o)) ↔ (ofLex q).1 = s ∧ (ofLex q).2 ∈ xs := by
  rw [mem_map]
  constructor
  · rintro ⟨o, ho, rfl⟩
    exact ⟨rfl, ho⟩
  · rintro ⟨first, second⟩
    exact ⟨_, second, congrArg toLex (Prod.ext first.symm rfl)⟩

variable {mp : List (Nat × List Nat)} {q : Nat ×ₗ Nat}

theorem mem_pairs_group {xs : List Nat} :
    ofLex q ∈ pairs ((s, xs) :: mp) ↔ (ofLex q).1 = s ∧ (ofLex q).2 ∈ xs ∨ ofLex q ∈ pairs mp :=
  mem_pairs_cons (p := (ofLex q).1) (x := (ofLex q).2)

theorem mem_mergeColumns (sorted : Increasing old) : q ∈ mergeColumns mp old ↔ ofLex q ∈ pairs mp ∨ q ∈ old := by
  induction mp generalizing old with
  | nil => simp [mergeColumns]
  | cons g mp ih =>
    obtain ⟨s, xs⟩ := g
    have cut := columns_cut_at sorted s
    have parts := cut.sorted sorted
    have own := map_objects cut.equal
    rw [mergeColumns, append_assoc, mem_append, mem_append, ih parts.2.2, mem_toLex_map, mem_unionSorted,
      and_or_left, ← @mem_toLex_map _ (objects _), own, mem_pairs_group]
    conv => rhs; rw [cut.whole, mem_append, mem_append]
    tauto

theorem mergeColumns_increasing (whole : Grouped mp)
    (sorted : Increasing old) : Increasing (mergeColumns mp old) := by
  induction mp generalizing old with
  | nil => exact sorted
  | cons g mp ih =>
    obtain ⟨s, xs⟩ := g
    obtain ⟨below, ⟨-, increasing⟩, rest⟩ := grouped_cons.mp whole
    have cut := columns_cut_at sorted s
    obtain ⟨low, same, high⟩ := cut.sorted sorted
    have later : ∀ q ∈ mergeColumns mp (List.dropWhile (fun q => decide ((ofLex q).1 = s))
        (old.dropWhile fun q => decide ((ofLex q).1 < s))), s < (ofLex q).1 := by
      intro q hq
      rcases (mem_mergeColumns high).mp hq with h | h
      · exact lt_key_of_mem_pairs (x := (ofLex q).2) below h
      · exact cut.above q h
    have middle : Increasing ((unionSorted xs (objects (List.takeWhile (fun q => decide ((ofLex q).1 = s))
        (old.dropWhile fun q => decide ((ofLex q).1 < s))))).map fun o => toLex (s, o)) := by
      rw [Increasing, pairwise_map]
      refine (unionSorted_increasing increasing (objects_increasing same cut.equal)).imp fun less => ?_
      exact Prod.Lex.lt_iff.mpr (.inr ⟨rfl, less⟩)
    rw [mergeColumns, append_assoc]
    refine pairwise_append.mpr ⟨low, pairwise_append.mpr ⟨middle, ih rest high, ?_⟩, ?_⟩
    · intro a ha b hb
      exact Prod.Lex.lt_iff.mpr (.inl ((mem_toLex_map.mp ha).1 ▸ later b hb))
    · intro a ha b hb
      have first := cut.below a ha
      refine Prod.Lex.lt_iff.mpr (.inl (lt_of_lt_of_le first ?_))
      rcases mem_append.mp hb with hb | hb
      · exact (mem_toLex_map.mp hb).1.ge
      · exact (later b hb).le

theorem dropColumns_sublist (sorted : Increasing old) : (dropColumns mp old).Sublist old := by
  induction mp generalizing old with
  | nil => exact List.Sublist.refl old
  | cons g mp ih =>
    obtain ⟨s, xs⟩ := g
    have cut := columns_cut_at sorted s
    have own := (diffSorted_sublist (objects (List.takeWhile (fun q => decide ((ofLex q).1 = s))
      (old.dropWhile fun q => decide ((ofLex q).1 < s)))) xs).map fun o => toLex (s, o)
    rw [map_objects cut.equal] at own
    rw [dropColumns, append_assoc]
    conv => rhs; rw [cut.whole]
    exact (List.Sublist.refl _).append (own.append (ih (cut.sorted sorted).2.2))

theorem mem_dropColumns (whole : Grouped mp)
    (sorted : Increasing old) : q ∈ dropColumns mp old ↔ q ∈ old ∧ ofLex q ∉ pairs mp := by
  induction mp generalizing old with
  | nil => simp [dropColumns]
  | cons g mp ih =>
    obtain ⟨s, xs⟩ := g
    obtain ⟨below, ⟨-, increasing⟩, rest⟩ := grouped_cons.mp whole
    have cut := columns_cut_at sorted s
    obtain ⟨-, same, high⟩ := cut.sorted sorted
    have own := map_objects cut.equal
    have less := fun h => cut.below q h
    have more := fun h => cut.above q h
    have away : ofLex q ∈ pairs mp → s < (ofLex q).1 := fun h => lt_key_of_mem_pairs (x := (ofLex q).2) below h
    rw [dropColumns, append_assoc, mem_append, mem_append, ih rest high, mem_toLex_map,
      mem_diffSorted (objects_increasing same cut.equal) increasing, ← and_assoc, ← mem_toLex_map, own, mem_pairs_group]
    conv => rhs; rw [cut.whole, mem_append, mem_append]
    have equal := fun h => cut.equal q h
    constructor
    · rintro (h | ⟨h, outside⟩ | ⟨h, outside⟩)
      · exact ⟨.inl h, not_or.mpr ⟨fun hit => (less h).ne hit.1, fun hit => ((less h).trans (away hit)).false⟩⟩
      · exact ⟨.inr (.inl h), not_or.mpr ⟨fun hit => outside hit.2, fun hit => (away hit).ne' (equal h)⟩⟩
      · exact ⟨.inr (.inr h), not_or.mpr ⟨fun hit => (more h).ne' hit.1, outside⟩⟩
    · rintro ⟨h | h | h, outside⟩
      · exact .inl h
      · exact .inr (.inl ⟨h, fun hit => outside (.inl ⟨equal h, hit⟩)⟩)
      · exact .inr (.inr ⟨h, fun hit => outside (.inr hit)⟩)

variable {ps : List (Nat ×ₗ Nat)} (whole : Increasing ps) (sorted : Increasing list)
include whole sorted

theorem insertP2values_spec : ∃ qs, insertP2values list (storedColumns ps) = storedColumns qs ∧ Increasing qs ∧
      ∀ q, q ∈ qs ↔ q ∈ list ∨ q ∈ ps := by
  unfold insertP2values
  by_cases none : list = []
  · exact ⟨ps, if_pos none, whole, by simp [none]⟩
  obtain ⟨grouped, listed⟩ := collectVectors_spec sorted
  have members : ∀ q : Nat ×ₗ Nat, ofLex q ∈ pairs (collectVectors list) ↔ q ∈ list := by
    intro q
    rw [listed]
    exact mem_map_ofLex (p := (ofLex q).1) (x := (ofLex q).2)
  rw [if_neg none]
  obtain rfl | empty := eq_or_ne ps []
  · have same : (pairs (collectVectors list)).map toLex = list := by
      rw [listed, map_map]
      exact map_id list
    exact ⟨list, by simp [storedColumns, none, same], sorted, by simp⟩
  · have merged : ∀ q, q ∈ mergeColumns (collectVectors list) ps ↔ q ∈ list ∨ q ∈ ps := by
      intro q
      rw [mem_mergeColumns whole, members]
    refine ⟨_, ?_, mergeColumns_increasing grouped whole, merged⟩
    obtain ⟨q, hq⟩ := exists_mem_of_ne_nil ps empty
    have nonempty := ne_nil_of_mem ((merged q).mpr (.inr hq))
    simp [storedColumns, if_neg empty, if_neg nonempty, columnPairs_columns]

theorem removeP2values_spec (some_pairs : list ≠ []) (base : ps ≠ []) :
    ∃ qs, removeP2values list (storedColumns ps) = some (storedColumns qs) ∧ Increasing qs ∧
      ∀ q, q ∈ qs ↔ q ∈ ps ∧ q ∉ list := by
  obtain ⟨grouped, listed⟩ := collectSets_spec sorted
  refine ⟨dropColumns (collectSets list) ps, ?_, whole.sublist (dropColumns_sublist whole), ?_⟩
  · simp [removeP2values, if_neg some_pairs, storedColumns, if_neg base, Option.map_some, columnPairs_columns]
  · intro q
    rw [mem_dropColumns grouped whole, listed]
    exact and_congr Iff.rfl (not_congr (mem_map_ofLex (p := (ofLex q).1) (x := (ofLex q).2)))

end GStore
