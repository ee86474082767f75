import GStore.KVstore.Layout
import GStore.KVstore.IVArray

/-! The string dictionaries and id allocators of `Database`, one table per kind of term. Entities,
literals and predicates have the same functions; only literal ids are shifted by `LITERAL_FIRST_ID`.
-/
namespace GStore
open Function List

/-- `ids` is the `SITree` from strings to ids, `strs` the `ISArray` from unshifted ids to strings;
`num` is `entity_num`, `literal_num` or `pre_num`, an `unsigned`. The limit is a word:
`limitID_entity` and `limitID_literal` are `unsigned`, `limitID_predicate` is an `int`, negative
from `top` on. -/
structure TermTable where
  base : Nat
  top : Nat
  ids : String → Option Nat
  strs : Nat → Option String
  limit : Nat
  freelist : List Nat
  num : Nat

def TermTable.init (base top : Nat) : TermTable :=
  ⟨base, top, fun _ => none, fun _ => none, 0, [], 0⟩

variable (tbl : TermTable) (str : String)

def TermTable.getID : Nat := (tbl.ids str).getD invalidID

/-- `setIDByEntity` and siblings: `SITree::Insert` refuses the empty string and a known key. -/
def TermTable.setID (id : Nat) : Bool × TermTable :=
  if str = "" ∨ (tbl.ids str).isSome then (false, tbl)
  else (true, { tbl with ids := Function.update tbl.ids str (some id) })

/-- `setEntityByID` and siblings: `ISArray::insert` refuses a used or too large key. -/
def TermTable.setStr (id : Nat) (str : String) : Bool × TermTable :=
  if (tbl.strs (id - tbl.base)).isSome ∨ maxKeyNum ≤ id - tbl.base then (false, tbl)
  else (true, { tbl with strs := Function.update tbl.strs (id - tbl.base) (some str) })

/-- `allocEntityID` and siblings: the head of the free list, else the limit. The limit is
incremented even when it has run out, and wraps around; the number of terms is not. -/
def TermTable.alloc : Nat × TermTable :=
  match tbl.freelist with
  | [] =>
    let limit := (tbl.limit + 1) % 2 ^ 32
    if literalFirstID ≤ limit ∧ limit < tbl.top then (invalidID, { tbl with limit := limit })
    else (tbl.limit + tbl.base, { tbl with limit := limit, num := (tbl.num + 1) % 2 ^ 32 })
  | t :: rest => (t + tbl.base, { tbl with freelist := rest, num := (tbl.num + 1) % 2 ^ 32 })

def TermTable.freeID (id : Nat) : TermTable :=
  if id - tbl.base + 1 = tbl.limit then
    { tbl with limit := tbl.limit - 1, num := (tbl.num + (2 ^ 32 - 1)) % 2 ^ 32 }
  else { tbl with freelist := (id - tbl.base) :: tbl.freelist, num := (tbl.num + (2 ^ 32 - 1)) % 2 ^ 32 }

def TermTable.create : Bool × Nat × TermTable :=
  let (id, tbl) := tbl.alloc
  let (done, tbl) := tbl.setID str id
  if !done then (false, id, tbl)
  else
    let (done, tbl) := tbl.setStr id str
    (done, id, tbl)

theorem create_eq : tbl.create str = if !(tbl.alloc.2.setID str tbl.alloc.1).1 then
        (false, tbl.alloc.1, (tbl.alloc.2.setID str tbl.alloc.1).2) else
        (((tbl.alloc.2.setID str tbl.alloc.1).2.setStr tbl.alloc.1 str).1, tbl.alloc.1,
          ((tbl.alloc.2.setID str tbl.alloc.1).2.setStr tbl.alloc.1 str).2) := rfl

structure Resolved where
  ok : Bool
  isNew : Bool
  id : Nat
  table : TermTable

def TermTable.resolve : Resolved :=
  if tbl.getID str = invalidID then
    let (ok, id, table) := tbl.create str
    ⟨ok, true, id, table⟩
  else ⟨true, false, tbl.getID str, tbl⟩

def TermTable.drop (id : Nat) (str : String) : TermTable :=
  TermTable.freeID { tbl with
    strs := Function.update tbl.strs (id - tbl.base) none
    ids := Function.update tbl.ids str none } id

/-- The two dictionaries are inverse to each other on valid ids, and the ids that the allocator can
hand out are not live. This holds even after the allocator has run out, when a string can have the
id `INVALID`, which the lookups report as unknown. -/
structure TermTable.Sound (tbl : TermTable) : Prop where
  forward : ∀ str id, tbl.ids str = some id → id ≠ invalidID → ∃ i, id = i + tbl.base ∧
    tbl.strs i = some str
  backward : ∀ i str, tbl.strs i = some str → tbl.ids str = some (i + tbl.base)
  live : ∀ i str, tbl.strs i = some str → i < tbl.limit ∧ i ∉ tbl.freelist ∧ i + 1 < literalFirstID
  free : ∀ i ∈ tbl.freelist, i < tbl.limit ∧ i + 1 < literalFirstID
  freeOnce : tbl.freelist.Nodup
  baseBelow : tbl.base ≤ literalFirstID
  topAbove : 2 ^ 31 ≤ tbl.top

/-- No string has the id `INVALID`. -/
def TermTable.Intact : Prop := ∀ str, tbl.ids str ≠ some invalidID

def TermTable.Available (n : Nat) : Prop :=
  tbl.limit + n < literalFirstID + tbl.freelist.length

instance (tbl : TermTable) (n : Nat) : Decidable (tbl.Available n) :=
  inferInstanceAs (Decidable (tbl.limit + n < literalFirstID + tbl.freelist.length))

/-- `n` allocations leave the limit below `2 ^ 31`. -/
def TermTable.Spare (n : Nat) : Prop := tbl.limit + n < 2 ^ 31 + tbl.freelist.length

instance (tbl : TermTable) (n : Nat) : Decidable (tbl.Spare n) :=
  inferInstanceAs (Decidable (tbl.limit + n < 2 ^ 31 + tbl.freelist.length))

theorem init_sound {base top : Nat} (bound : base ≤ literalFirstID) (high : 2 ^ 31 ≤ top) :
    (TermTable.init base top).Sound where
  forward _ _ found := by cases found
  backward _ _ found := by cases found
  live _ _ found := by cases found
  free _ found := by cases found
  freeOnce := nodup_nil
  baseBelow := bound
  topAbove := high

theorem shifted_ne_invalid {i base : Nat} (small : i + 1 < literalFirstID)
    (bound : base ≤ literalFirstID) :
    i + base ≠ invalidID := by
  have far : literalFirstID + literalFirstID < invalidID := by decide
  omega

variable {tbl : TermTable} {str : String}

theorem TermTable.Available.spare {n : Nat} (left : tbl.Available n) : tbl.Spare 4 := by
  have far : literalFirstID + 4 ≤ 2 ^ 31 := by decide
  unfold TermTable.Available at left
  unfold TermTable.Spare
  omega

theorem TermTable.Spare.mono {m n : Nat} (spare : tbl.Spare n) (less : m ≤ n) : tbl.Spare m := by
  unfold TermTable.Spare at *
  omega

section

variable (sound : tbl.Sound)
include sound

theorem TermTable.Sound.getID (known : tbl.getID str ≠ invalidID) :
    ∃ i, tbl.getID str = i + tbl.base ∧ tbl.ids str = some (i + tbl.base) ∧ tbl.strs i = some str ∧
      i + 1 < literalFirstID := by
  unfold TermTable.getID at known ⊢
  cases found : tbl.ids str with
  | none => simp [found] at known
  | some id =>
    simp only [found, Option.getD_some] at known
    obtain ⟨i, rfl, back⟩ := sound.forward str id found known
    exact ⟨i, rfl, rfl, back, (sound.live i str back).2.2⟩

theorem TermTable.Sound.getID_live {i : Nat}
    (back : tbl.strs i = some str) : tbl.getID str = i + tbl.base ∧ tbl.getID str ≠ invalidID := by
  have found := sound.backward i str back
  have valid := shifted_ne_invalid (sound.live i str back).2.2 sound.baseBelow
  simp only [TermTable.getID, found, Option.getD_some]
  exact ⟨trivial, valid⟩

theorem TermTable.Sound.strs_iff {i : Nat} :
    tbl.strs i = some str ↔ tbl.getID str = i + tbl.base ∧ i + tbl.base ≠ invalidID := by
  constructor
  · intro back
    obtain ⟨id, valid⟩ := sound.getID_live back
    exact ⟨id, id ▸ valid⟩
  · rintro ⟨id, valid⟩
    obtain ⟨j, found, -, back, -⟩ := sound.getID (id ▸ valid)
    rwa [Nat.add_right_cancel (id.symm.trans found)]

/-- What an allocation does: it runs out, or returns an id that is neither live nor free. -/
structure Allocated (tbl : TermTable) (id : Nat) (next : TermTable) : Prop where
  sound : next.Sound
  base : next.base = tbl.base
  ids : next.ids = tbl.ids
  strs : next.strs = tbl.strs
  fresh : (id = invalidID ∧ ¬ tbl.Available 1) ∨
    ∃ i, id = i + tbl.base ∧ tbl.strs i = none ∧ i + 1 < literalFirstID ∧ i < next.limit ∧
      i ∉ next.freelist
  room : ∀ n, tbl.Available (n + 1) → next.Available n
  spare : ∀ n, tbl.Spare (n + 1) → next.Spare n

/-- The allocation when the limit does not wrap. -/
theorem alloc_eq (spare : tbl.Spare 1) : tbl.alloc =
    match tbl.freelist with
    | [] =>
      (if literalFirstID ≤ tbl.limit + 1 then invalidID else tbl.limit + tbl.base,
        { tbl with
          limit := tbl.limit + 1
          num := if literalFirstID ≤ tbl.limit + 1 then tbl.num else (tbl.num + 1) % 2 ^ 32 })
    | t :: rest =>
      (t + tbl.base, { tbl with freelist := rest, num := (tbl.num + 1) % 2 ^ 32 }) := by
  unfold TermTable.alloc
  cases free : tbl.freelist with
  | nil =>
    have high := sound.topAbove
    have below : tbl.limit + 1 < 2 ^ 31 := by simpa [TermTable.Spare, free] using spare
    have word : (tbl.limit + 1) % 2 ^ 32 = tbl.limit + 1 := Nat.mod_eq_of_lt (by omega)
    have unwrapped : tbl.limit + 1 < tbl.top := by omega
    by_cases out : literalFirstID ≤ tbl.limit + 1
    · simp only [word, unwrapped, out, and_self, if_true]
    · simp only [word, out, false_and, if_false]
  | cons t rest => rfl

theorem alloc_spec (spare : tbl.Spare 1) : Allocated tbl tbl.alloc.1 tbl.alloc.2 := by
  rw [alloc_eq sound spare]
  cases free : tbl.freelist with
  | nil =>
    refine ⟨?_, rfl, rfl, rfl, ?_, ?_, ?_⟩
    · exact { sound with
        live := fun i str found =>
          ⟨Nat.lt_succ_of_lt (sound.live i str found).1, not_mem_nil, (sound.live i str found).2.2⟩
        free := fun i found => absurd found not_mem_nil
        freeOnce := nodup_nil }
    · by_cases out : literalFirstID ≤ tbl.limit + 1
      · refine .inl ⟨if_pos out, ?_⟩
        simp only [TermTable.Available, free, length_nil]
        omega
      · have unused : tbl.strs tbl.limit = none := by
          cases used : tbl.strs tbl.limit with
          | none => rfl
          | some str => exact absurd (sound.live _ _ used).1 (Nat.lt_irrefl _)
        exact .inr ⟨tbl.limit, if_neg out, unused, Nat.lt_of_not_le out, Nat.lt_succ_self _,
            not_mem_nil⟩
    · intro n more
      simp only [TermTable.Available, free, length_nil] at more ⊢
      omega
    · intro n more
      simp only [TermTable.Spare, free, length_nil] at more ⊢
      omega
  | cons t rest =>
    have once := sound.freeOnce
    rw [free, nodup_cons] at once
    have unused : tbl.strs t = none := by
      cases used : tbl.strs t with
      | none => rfl
      | some str => exact absurd (by simp [free]) (sound.live t str used).2.1
    have head := sound.free t (by simp [free])
    refine ⟨?_, rfl, rfl, rfl, .inr ⟨t, rfl, unused, head.2, head.1, once.1⟩, ?_, ?_⟩
    · exact { sound with
        live := fun i str found => ⟨(sound.live i str found).1,
          fun h => (sound.live i str found).2.1 (by simp [free, h]), (sound.live i str found).2.2⟩
        free := fun i found => sound.free i (by simp [free, found])
        freeOnce := once.2 }
    · intro n more
      simp only [TermTable.Available, free, length_cons] at more ⊢
      omega
    · intro n more
      simp only [TermTable.Spare, free, length_cons] at more ⊢
      omega

theorem enter_sound {i : Nat} (absent : tbl.ids str = none)
    (unused : tbl.strs i = none) (below : i < tbl.limit) (outside : i ∉ tbl.freelist)
    (small : i + 1 < literalFirstID) :
    TermTable.Sound { tbl with
      ids := Function.update tbl.ids str (some (i + tbl.base))
      strs := Function.update tbl.strs i (some str) } where
  forward other id found valid := by
    obtain rfl | same := eq_or_ne other str
    · simp only [update_self, Option.some.injEq] at found
      exact ⟨i, found.symm, by simp⟩
    · simp only [update_of_ne same] at found
      obtain ⟨j, rfl, back⟩ := sound.forward other id found valid
      have apart : j ≠ i := by
        rintro rfl
        simp [unused] at back
      exact ⟨j, rfl, by simpa [update_of_ne apart] using back⟩
  backward j other found := by
    obtain rfl | same := eq_or_ne j i
    · simp only [update_self, Option.some.injEq] at found
      subst found
      simp
    · simp only [update_of_ne same] at found
      have back := sound.backward j other found
      have apart : other ≠ str := by
        rintro rfl
        simp [absent] at back
      simpa [update_of_ne apart] using back
  live j other found := by
    obtain rfl | same := eq_or_ne j i
    · exact ⟨below, outside, small⟩
    · simp only [update_of_ne same] at found
      exact sound.live j other found
  __ := sound

theorem enter_invalid_sound (absent : tbl.ids str = none) :
    TermTable.Sound { tbl with ids := Function.update tbl.ids str (some invalidID) } where
  forward other id found valid := by
    obtain rfl | same := eq_or_ne other str
    · simp only [update_self, Option.some.injEq] at found
      exact absurd found.symm valid
    · simp only [update_of_ne same] at found
      exact sound.forward other id found valid
  backward j other found := by
    have back := sound.backward j other found
    have apart : other ≠ str := by
      rintro rfl
      simp [absent] at back
    simpa [update_of_ne apart] using back
  __ := sound

structure Created (tbl : TermTable) (str : String) (ok : Bool) (id : Nat) (next : TermTable) :
    Prop where
  sound : next.Sound
  base : next.base = tbl.base
  accepted : ok = true → ∃ i, id = i + tbl.base ∧ tbl.strs i = none ∧ i + 1 < literalFirstID ∧
    next.ids = Function.update tbl.ids str (some id) ∧ next.strs = Function.update tbl.strs i
      (some str)
  refused : ok = false → next.strs = tbl.strs
  others : ∀ other, other ≠ str → next.ids other = tbl.ids other
  intact : tbl.Available 1 → tbl.Intact → next.Intact
  room : ∀ n, tbl.Available (n + 1) → next.Available n
  spare : ∀ n, tbl.Spare (n + 1) → next.Spare n

theorem create_spec (spare : tbl.Spare 1) (str : String) :
    Created tbl str (tbl.create str).1 (tbl.create str).2.1 (tbl.create str).2.2 := by
  have alloc := alloc_spec sound spare
  have base := alloc.base
  rw [create_eq]
  by_cases taken : str = "" ∨ (tbl.ids str).isSome
  · have refused : tbl.alloc.2.setID str tbl.alloc.1 = (false, tbl.alloc.2) := by
      rw [TermTable.setID, if_pos (by rwa [alloc.ids])]
    rw [refused]
    simp only [Bool.not_false, if_true]
    exact ⟨alloc.sound, base, fun h => (by cases h), fun _ => alloc.strs,
      fun other _ => by rw [alloc.ids], fun _ whole other => by rw [alloc.ids]; exact whole other, alloc.room, alloc.spare⟩
  · have absent : tbl.alloc.2.ids str = none := by
      rw [alloc.ids]
      simpa using fun h => taken (.inr h)
    have entered : tbl.alloc.2.setID str tbl.alloc.1 =
        (true, { tbl.alloc.2 with ids := Function.update tbl.alloc.2.ids str (some tbl.alloc.1) }) := by
      rw [TermTable.setID, if_neg (by rwa [alloc.ids])]
    rw [entered]
    simp only [Bool.not_true, Bool.false_eq_true, if_false, TermTable.setStr]
    rcases alloc.fresh with ⟨out, none⟩ | ⟨i, valid, unused, small, below, outside⟩
    · have large : maxKeyNum ≤ tbl.alloc.1 - tbl.alloc.2.base := by
        have bound := sound.baseBelow
        have far : maxKeyNum ≤ invalidID - literalFirstID := by decide
        omega
      rw [if_pos (.inr large)]
      refine ⟨?_, base, fun h =>
          (by cases h), fun _ => alloc.strs, ?_, fun left => absurd left none, alloc.room, alloc.spare⟩
      swap
      · intro other apart
        simp [update_of_ne apart, alloc.ids]
      have left := enter_invalid_sound alloc.sound absent
      rwa [← out] at left
    · have key : tbl.alloc.1 - tbl.alloc.2.base = i := by omega
      have fits : literalFirstID < maxKeyNum := by decide
      have inside : ¬ ((tbl.alloc.2.strs i).isSome = true ∨ maxKeyNum ≤ i) := by
        rw [alloc.strs, unused]
        simp
        omega
      rw [key, if_neg inside]
      have left := enter_sound alloc.sound absent (alloc.strs ▸ unused) below outside small
      rw [base, ← valid] at left
      refine ⟨?_, base, fun _ => ⟨i, valid, unused, small, ?_, ?_⟩,
          fun h => (by cases h), ?_, ?_, alloc.room, alloc.spare⟩
      · rwa [← base] at left
      · rw [alloc.ids]
      · rw [alloc.strs]
      · intro other apart
        simp [update_of_ne apart, alloc.ids]
      · intro _ whole other
        obtain rfl | same := eq_or_ne other str
        · simp only [update_self, ne_eq, Option.some.injEq]
          rw [valid]
          exact shifted_ne_invalid small sound.baseBelow
        · simp only [update_of_ne same]
          rw [alloc.ids]
          exact whole other

theorem create_accepts_valid (spare : tbl.Spare 1) (nonempty : str ≠ "")
    (absent : tbl.ids str = none) (valid : tbl.alloc.1 ≠ invalidID) :
        (tbl.create str).1 = true := by
  have alloc := alloc_spec sound spare
  have entered : tbl.alloc.2.setID str tbl.alloc.1 =
      (true, { tbl.alloc.2 with ids := Function.update tbl.alloc.2.ids str (some tbl.alloc.1) }) := by
    rw [TermTable.setID, if_neg]
    rw [alloc.ids, absent]
    simp [nonempty]
  rw [create_eq, entered]
  rcases alloc.fresh with ⟨out, -⟩ | ⟨i, id, unused, small, -, -⟩
  · exact absurd out valid
  · have key : tbl.alloc.1 - tbl.alloc.2.base = i := by rw [alloc.base]; omega
    have fits : literalFirstID < maxKeyNum := by decide
    have inside : ¬ ((tbl.alloc.2.strs i).isSome = true ∨ maxKeyNum ≤ i) := by
      rw [alloc.strs, unused]
      simp
      omega
    simp [Bool.not_true, Bool.false_eq_true, TermTable.setStr, key, if_neg inside]

theorem create_accepts (nonempty : str ≠ "")
    (absent : tbl.ids str = none) (left : tbl.Available 1) : (tbl.create str).1 = true := by
  have spare := left.spare.mono (Nat.le_add_left 1 3)
  refine create_accepts_valid sound spare nonempty absent ?_
  rcases (alloc_spec sound spare).fresh with ⟨-, none⟩ | ⟨i, id, -, small, -, -⟩
  · exact absurd left none
  · rw [id]
    exact shifted_ne_invalid small sound.baseBelow

/-- `next` is a sound table with all live terms of `tbl`. -/
structure TermTable.Extends (tbl next : TermTable) : Prop where
  sound : next.Sound
  base : next.base = tbl.base
  keeps : ∀ i str, tbl.strs i = some str → next.strs i = some str

theorem TermTable.Sound.extends_self : tbl.Extends tbl :=
  ⟨sound, rfl, fun _ _ found => found⟩

omit sound in
theorem TermTable.Extends.trans {a b c : TermTable} (left : a.Extends b) (right : b.Extends c) :
    a.Extends c :=
  ⟨right.sound, right.base.trans left.base,
      fun i str found => right.keeps i str (left.keeps i str found)⟩

structure ResolvedTerm (tbl : TermTable) (str : String) (r : Resolved) :
    Prop extends tbl.Extends r.table where
  found : r.ok = true → ∃ i, r.id = i + tbl.base ∧ r.table.strs i = some str ∧
    i + 1 < literalFirstID ∧
    (r.isNew = true → tbl.strs i = none)
  others : ∀ other, other ≠ str → r.table.ids other = tbl.ids other
  intact : (tbl.getID str = invalidID → tbl.Available 1) → tbl.Intact → r.table.Intact
  room : ∀ n, tbl.Available (n + if tbl.getID str = invalidID then 1 else 0) → r.table.Available n
  spare : ∀ n, tbl.Spare (n + 1) → r.table.Spare n

theorem resolve_spec (spare : tbl.Spare 1) (str : String) :
    ResolvedTerm tbl str (tbl.resolve str) := by
  unfold TermTable.resolve
  split_ifs with unknown
  · have made := create_spec sound spare str
    refine ⟨⟨made.sound, made.base, ?_⟩, ?_, made.others, fun left => made.intact (left unknown),
        ?_, made.spare⟩
    · intro i other back
      cases ok : (tbl.create str).1 with
      | false =>
        rw [made.refused ok]
        exact back
      | true =>
        obtain ⟨j, -, unused, -, -, strs⟩ := made.accepted ok
        have apart : i ≠ j := by
          rintro rfl
          simp [unused] at back
        simp only [strs, update_of_ne apart]
        exact back
    · intro ok
      obtain ⟨i, id, unused, small, -, strs⟩ := made.accepted ok
      exact ⟨i, id, by simp [strs], small, fun _ => unused⟩
    · intro n left
      rw [if_pos unknown] at left
      exact made.room n left
  · obtain ⟨i, id, -, back, small⟩ := sound.getID unknown
    refine ⟨sound.extends_self,
        fun _ => ⟨i, id, back, small, fun h => (by cases h)⟩, fun _ _ => rfl,
      fun _ whole => whole, ?_, fun n left => left.mono (Nat.le_succ n)⟩
    intro n left
    rwa [if_neg unknown] at left

theorem drop_spec {i : Nat} (back : tbl.strs i = some str) :
    (tbl.drop (i + tbl.base) str).Sound ∧ (tbl.drop (i + tbl.base) str).base = tbl.base ∧
      (tbl.drop (i + tbl.base) str).ids = Function.update tbl.ids str none ∧
      (tbl.drop (i + tbl.base) str).strs = Function.update tbl.strs i none := by
  obtain ⟨below, outside, small⟩ := sound.live i str back
  have found := sound.backward i str back
  have forward : ∀ other n, Function.update tbl.ids str none other = some n → n ≠ invalidID →
      ∃ j, n = j + tbl.base ∧ Function.update tbl.strs i none j = some other := by
    intro other n h valid
    obtain rfl | same := eq_or_ne other str
    · simp at h
    · rw [update_of_ne same] at h
      obtain ⟨j, rfl, hj⟩ := sound.forward other n h valid
      have apart : j ≠ i := by
        rintro rfl
        exact same (Option.some.inj (hj.symm.trans back))
      exact ⟨j, rfl, by rwa [update_of_ne apart]⟩
  have backward : ∀ j other, Function.update tbl.strs i none j = some other →
      j ≠ i ∧ tbl.strs j = some other ∧ Function.update tbl.ids str none other = some
          (j + tbl.base) := by
    intro j other h
    obtain rfl | same := eq_or_ne j i
    · simp at h
    · rw [update_of_ne same] at h
      have apart : other ≠ str := by
        rintro rfl
        have shifted := (sound.backward j other h).symm.trans found
        simp only [Option.some.injEq, Nat.add_right_cancel_iff] at shifted
        exact same shifted
      exact ⟨same, h, by rw [update_of_ne apart]; exact sound.backward j other h⟩
  simp only [TermTable.drop, TermTable.freeID, Nat.add_sub_cancel]
  split
  · refine ⟨⟨forward, fun j other h => (backward j other h).2.2, ?_, ?_, sound.freeOnce,
        sound.baseBelow,
      sound.topAbove⟩, rfl, rfl, rfl⟩
    · intro j other h
      obtain ⟨apart, used, -⟩ := backward j other h
      have lives := sound.live j other used
      exact ⟨by simp only; omega, lives.2⟩
    · intro j h
      have frees := sound.free j h
      have apart : j ≠ i := fun same => outside (same ▸ h)
      exact ⟨by simp only; omega, frees.2⟩
  · refine ⟨⟨forward, fun j other h => (backward j other h).2.2, ?_, ?_, ?_, sound.baseBelow,
        sound.topAbove⟩, rfl,
      rfl, rfl⟩
    · intro j other h
      obtain ⟨apart, used, -⟩ := backward j other h
      have lives := sound.live j other used
      exact ⟨lives.1, by simp [apart, lives.2.1], lives.2.2⟩
    · intro j h
      rcases mem_cons.mp h with rfl | h
      · exact ⟨below, small⟩
      · exact sound.free j h
    · exact nodup_cons.mpr ⟨outside, sound.freeOnce⟩

end

/-- `next` has no terms that `tbl` does not have. -/
structure TermTable.Shrinks (tbl next : TermTable) : Prop where
  ids : ∀ str id, next.ids str = some id → tbl.ids str = some id
  strs : ∀ i str, next.strs i = some str → tbl.strs i = some str
  spare : ∀ n, tbl.Spare n → next.Spare n

theorem TermTable.Shrinks.refl (tbl : TermTable) : tbl.Shrinks tbl :=
  ⟨fun _ _ h => h, fun _ _ h => h, fun _ h => h⟩

theorem TermTable.Shrinks.trans {a b c : TermTable} (left : a.Shrinks b) (right : b.Shrinks c) :
    a.Shrinks c :=
  ⟨fun str id h => left.ids str id (right.ids str id h),
      fun i str h => left.strs i str (right.strs i str h),
    fun n h => right.spare n (left.spare n h)⟩

theorem TermTable.Shrinks.intact {tbl next : TermTable} (shrinks : tbl.Shrinks next)
    (whole : tbl.Intact) :
    next.Intact := fun str found => whole str (shrinks.ids str _ found)

theorem update_none_some {α β : Type} [DecidableEq α] {f : α → Option β} {a x : α} {y : β}
    (found : Function.update f a none x = some y) : f x = some y := by
  obtain rfl | same := eq_or_ne x a
  · simp at found
  · rwa [update_of_ne same] at found

theorem drop_shrinks (tbl : TermTable) (id : Nat) (str : String) :
    tbl.Shrinks (tbl.drop id str) := by
  unfold TermTable.drop TermTable.freeID
  split
  · refine ⟨fun _ _ => update_none_some, fun _ _ => update_none_some, fun n spare => ?_⟩
    unfold TermTable.Spare at *
    simp only
    omega
  · refine ⟨fun _ _ => update_none_some, fun _ _ => update_none_some, fun n spare => ?_⟩
    unfold TermTable.Spare at *
    simp only [length_cons]
    omega

end GStore
