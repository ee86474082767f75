import GStore.KVstore.Single
import GStore.Lib.Buffer
import Mathlib.Data.Prod.Lex

/-! The lists of `preID2values`: the number of (subject, object) pairs, the subjects, then the
objects at the same positions, in lexicographic order of the pairs. -/
namespace GStore
open Lib List

variable (ps : List (Nat ×ₗ Nat))

def subjects : List Nat := ps.map fun q => (ofLex q).1
def objects : List Nat := ps.map fun q => (ofLex q).2

def columns : List Nat := ps.length :: (subjects ps ++ objects ps)

def columnPairs (tmp : List Nat) : List (Nat ×ₗ Nat) :=
  (List.range' 0 (word tmp 0)).map fun i => toLex (word tmp (1 + i), word tmp (1 + word tmp 0 + i))

/-- The first position whose pair is not below `(s, o)`. The positions are `unsigned`. -/
def scanColumns (tmp : List Nat) (s o : Nat) : Nat :=
  1 + ((List.range' 1 ((1 + word tmp 0) % 2 ^ 32 - 1)).takeWhile
      (fun i => decide (word tmp i < s) ||
    (decide (word tmp i = s) && decide (word tmp ((i + word tmp 0) % 2 ^ 32) < o)))).length

/-- A pair at position `j` of a list of `n` pairs: the assignments to `_values[j]` and `_values[j +
n]`. -/
def pairAt (n j s o : Nat) : List (Nat × Nat) := [(j % 2 ^ 32, s), ((j + n) % 2 ^ 32, o)]

/-- A pair of `_tmp` at its new position `j`, among `n` pairs. -/
def copyPair (tmp : List Nat) (n i j : Nat) : List (Nat × Nat) :=
  pairAt n j (word tmp i) (word tmp ((i + word tmp 0) % 2 ^ 32))

def updateInsertP2values (value : Option (List Nat)) (s o : Nat) : List Nat :=
  match value with
  | none => [1, s, o]
  | some tmp =>
    let n := word tmp 0
    let i := scanColumns tmp s o
    written (tmp.length + 2) ((0, (n + 1) % 2 ^ 32) ::
      ((List.range' 1 (i - 1)).flatMap (fun i => copyPair tmp (n + 1) i i) ++
        (pairAt (n + 1) i s o ++
        (List.range' i ((1 + n) % 2 ^ 32 - i)).flatMap fun i => copyPair tmp (n + 1) i (i + 1))))

/-- `some none` removes the key; a scan that reaches the end of the list leaves nothing out and
overruns the shorter buffer (`none`). -/
def updateRemoveP2values (tmp : List Nat) (s o : Nat) : Option (Option (List Nat)) :=
  let n := word tmp 0
  let i := scanColumns tmp s o
  if n = 1 then some none
  else if i = (1 + n) % 2 ^ 32 then none
  else
    some (some (written (tmp.length - 2) ((0, n - 1) ::
      ((List.range' 1 (i - 1)).flatMap (fun i => copyPair tmp (n - 1) i i) ++
        (List.range' (i + 1) ((1 + n) % 2 ^ 32 - (i + 1))).flatMap fun i => copyPair tmp (n - 1) i
        (i - 1)))))

@[simp] theorem length_subjects : (subjects ps).length = ps.length := length_map _
@[simp] theorem length_objects : (objects ps).length = ps.length := length_map _

@[simp] theorem subjects_append (ps qs : List (Nat ×ₗ Nat)) :
    subjects (ps ++ qs) = subjects ps ++ subjects qs := map_append
@[simp] theorem objects_append (ps qs : List (Nat ×ₗ Nat)) :
    objects (ps ++ qs) = objects ps ++ objects qs := map_append

@[simp] theorem word_columns_zero : word (columns ps) 0 = ps.length := rfl

variable {ps : List (Nat ×ₗ Nat)}

theorem word_columns_subject {i : Nat} (inside : i < ps.length) :
    word (columns ps) (1 + i) = (ofLex ps[i]).1 := by
  rw [Nat.add_comm, columns, word_cons_succ, word_left (by simpa), word,
    getD_eq_getElem _ _ (by simpa)]
  simp [subjects]

theorem word_columns_object {i : Nat} (inside : i < ps.length) :
    word (columns ps) (1 + ps.length + i) = (ofLex ps[i]).2 := by
  rw [show 1 + ps.length + i = (subjects ps).length + i + 1 by simp; omega, columns, word_cons_succ,
    word_right, word, getD_eq_getElem _ _ (by simpa)]
  simp [objects]

theorem columnPairs_columns (ps : List (Nat ×ₗ Nat)) : columnPairs (columns ps) = ps := by
  apply ext_getElem
  · simp [columnPairs]
  · intro i _ inside
    simp only [columnPairs, word_columns_zero, getElem_map, getElem_range', Nat.zero_add,
        Nat.one_mul]
    rw [word_columns_subject inside, word_columns_object inside]
    rfl

theorem scanColumns_columns {low high : List (Nat ×ₗ Nat)} {s o : Nat}
    (room : (low ++ high).length < 2 ^ 31)
    (below : ∀ q ∈ low, q < toLex (s, o)) (above : ∀ q ∈ high, toLex (s, o) ≤ q) :
    scanColumns (columns (low ++ high)) s o = 1 + low.length := by
  have test : ∀ i (h : i < (low ++ high).length),
      (decide (word (columns (low ++ high)) (1 + i) < s) ||
        (decide (word (columns (low ++ high)) (1 + i) = s) &&
          decide (word (columns (low ++ high)) ((1 + i + (low ++ high).length) % 2 ^ 32) < o))) =
      decide ((low ++ high)[i] < toLex (s, o)) := by
    intro i h
    rw [Nat.mod_eq_of_lt (by omega), word_columns_subject h, Nat.add_right_comm, word_columns_object h, Bool.eq_iff_iff]
    have order := Prod.Lex.toLex_lt_toLex (x := ofLex (low ++ high)[i]) (y := (s, o))
    simpa using order.symm
  rw [scanColumns, word_columns_zero, Nat.mod_eq_of_lt (by omega), Nat.add_sub_cancel_left]
  congr 1
  apply length_takeWhile_range' (by simp)
  · intro i less
    rw [test i (by simp; omega), getElem_append_left less]
    exact decide_eq_true (below _ (getElem_mem less))
  · intro more
    rw [test low.length more, getElem_append_right (Nat.le_refl _)]
    exact decide_eq_false (not_lt_of_ge (above _ (getElem_mem _)))

/-- The assignments that write the pairs from position `start` on, in a list of `n` pairs. -/
def pairsFrom (n start : Nat) (ps : List (Nat ×ₗ Nat)) : List (Nat × Nat) :=
  (ps.zipIdx start).flatMap fun q => pairAt n (1 + q.2) (ofLex q.1).1 (ofLex q.1).2

/-- Writing all pairs behind their number lays out their columns, as long as no position wraps. -/
theorem written_columns {qs : List (Nat ×ₗ Nat)} (room : qs.length < 2 ^ 31) :
    written (columns qs).length ((0, qs.length) :: pairsFrom qs.length 0 qs) = columns qs := by
  have size : (columns qs).length = 1 + 2 * qs.length := by simp [columns]; omega
  have member : ∀ j (h : j < qs.length), (qs[j], j) ∈ qs.zipIdx :=
    fun j h => mk_mem_zipIdx_iff_getElem?.mpr (by simp [h])
  apply written_eq
  · intro w there
    rcases mem_cons.mp there with rfl | there
    · rfl
    · obtain ⟨⟨q, j⟩, inside, there⟩ := mem_flatMap.mp there
      obtain ⟨h, rfl⟩ := List.getElem?_eq_some_iff.mp (mk_mem_zipIdx_iff_getElem?.mp inside)
      rcases mem_cons.mp there with rfl | there
      · rw [Nat.mod_eq_of_lt (by omega)]
        exact (word_columns_subject h).symm
      · rw [mem_singleton.mp there, Nat.mod_eq_of_lt (by omega), Nat.add_right_comm]
        exact (word_columns_object h).symm
  · intro p inside
    rw [size] at inside
    obtain rfl | ⟨j, h, rfl⟩ | ⟨j, h, rfl⟩ :
        p = 0 ∨ (∃ j < qs.length, p = 1 + j) ∨ ∃ j < qs.length, p = 1 + j + qs.length := by
      by_cases zero : p = 0
      · exact .inl zero
      · by_cases left : p ≤ qs.length
        · exact .inr (.inl ⟨p - 1, by omega, by omega⟩)
        · exact .inr (.inr ⟨p - 1 - qs.length, by omega, by omega⟩)
    · exact ⟨_, mem_cons_self, rfl⟩
    · exact ⟨_, mem_cons_of_mem _ (mem_flatMap.mpr ⟨_, member j h, mem_cons_self⟩),
          Nat.mod_eq_of_lt (by dsimp only; omega)⟩
    · exact ⟨_, mem_cons_of_mem _
          (mem_flatMap.mpr ⟨_, member j h, mem_cons_of_mem _ mem_cons_self⟩),
        Nat.mod_eq_of_lt (by dsimp only; omega)⟩

/-- A loop that copies the pairs `mid` to their new positions. -/
theorem copies_eq {before mid after : List (Nat ×ₗ Nat)}
    (room : (before ++ (mid ++ after)).length < 2 ^ 31) (n start : Nat)
    {position : Nat → Nat} (shift : ∀ i, position (1 + before.length + i) = 1 + start + i) :
    (List.range' (1 + before.length) mid.length).flatMap
      (fun i => copyPair (columns (before ++ (mid ++ after))) n i (position i)) =
      pairsFrom n start mid := by
  induction mid generalizing before start with
  | nil => rfl
  | cons q mid ih =>
    have regroup : before ++ (q :: mid ++ after) = (before ++ [q]) ++ (mid ++ after) := by simp
    have here : before.length < (before ++ (q :: mid ++ after)).length := by simp
    have rest := @ih (before ++ [q]) (by rwa [← regroup]) (start + 1) fun i => by
      rw [length_append, length_singleton, ← Nat.add_assoc, Nat.add_assoc _ 1 i, shift]
      omega
    have stored : (before ++ (q :: mid ++ after))[before.length] = q := by simp
    have copied : copyPair (columns (before ++ (q :: mid ++ after))) n (1 + before.length)
      (position (1 + before.length)) =
        pairAt n (1 + start) (ofLex q).1 (ofLex q).2 := by
      have place := shift 0
      rw [Nat.add_zero, Nat.add_zero] at place
      rw [copyPair, place, word_columns_zero,
          Nat.mod_eq_of_lt (by omega), word_columns_subject here, Nat.add_right_comm,
        word_columns_object here, stored]
    rw [length_cons, range'_succ, flatMap_cons, copied, pairsFrom, zipIdx_cons, flatMap_cons,
        ← pairsFrom, ← rest, regroup,
      length_append, length_singleton, Nat.add_assoc]

def storedColumns (ps : List (Nat ×ₗ Nat)) : Option (List Nat) :=
  if ps = [] then none else some (columns ps)

theorem updateInsertP2values_spec (sorted : Increasing ps) {s o : Nat} (absent : toLex (s, o) ∉ ps)
    (room : ps.length + 1 < 2 ^ 31) :
    ∃ qs, updateInsertP2values (storedColumns ps) s o = columns qs ∧ Increasing qs ∧
      ∀ q, q ∈ qs ↔ q = toLex (s, o) ∨ q ∈ ps := by
  obtain ⟨low, high, rfl, below, above⟩ := increasing_split sorted (toLex (s, o))
  have strict : ∀ q ∈ high, toLex (s, o) < q := fun q hq =>
    lt_of_le_of_ne (above q hq) (fun same => absent (by simp [same, hq]))
  refine ⟨low ++ toLex (s, o) :: high, ?_, ?_, ?_⟩
  · by_cases empty : low ++ high = []
    · obtain ⟨rfl, rfl⟩ := append_eq_nil_iff.mp empty
      rfl
    · have few : (low ++ high).length < 2 ^ 31 := by omega
      have size : (low ++ toLex (s, o) :: high).length = (low ++ high).length + 1 := by simp; omega
      have first := @copies_eq [] low high few ((low ++ high).length + 1) 0 id fun i => by simp
      have second := @copies_eq low high []
        (by rwa [append_nil]) ((low ++ high).length + 1) (low.length + 1) (· + 1)
        fun i => by omega
      have all : pairsFrom ((low ++ high).length + 1) 0 (low ++ toLex (s, o) :: high) =
          pairsFrom ((low ++ high).length + 1) 0 low ++
          (pairAt ((low ++ high).length + 1) (1 + low.length) s o ++
            pairsFrom ((low ++ high).length + 1) (low.length + 1) high) := by
        simp [pairsFrom, zipIdx_append, zipIdx_cons]
      simp only [length_nil, nil_append, Nat.add_zero, append_nil, id_eq] at first second
      have target := @written_columns (low ++ toLex (s, o) :: high) (by omega)
      rw [size, all, ← first, ← second] at target
      refine Eq.trans ?_ target
      have long : (columns (low ++ high)).length + 2 =
          (columns (low ++ toLex (s, o) :: high)).length := by
        simp [columns]
        omega
      have rest : (1 + (low ++ high).length) % 2 ^ 32 - (1 + low.length) = high.length := by
        rw [Nat.mod_eq_of_lt (by omega), length_append]
        omega
      rw [storedColumns, if_neg empty, updateInsertP2values]
      simp only [scanColumns_columns few below above, word_columns_zero, Nat.add_sub_cancel_left,
          rest, long]
      rw [Nat.mod_eq_of_lt (by omega)]
  · obtain ⟨left, right, across⟩ := pairwise_append.mp sorted
    refine pairwise_append.mpr ⟨left, pairwise_cons.mpr ⟨strict, right⟩, ?_⟩
    intro q hq r hr
    rcases mem_cons.mp hr with rfl | hr
    · exact below q hq
    · exact across q hq r hr
  · intro q
    simp only [mem_append, mem_cons]
    tauto

/-- Pair number `2 ^ 31` of a predicate, behind all others: its object is written at position `2 ^
32`, over the counter. -/
theorem updateInsertP2values_wraps {s o : Nat} (count : ps.length = 2 ^ 31 - 1)
    (below : ∀ q ∈ ps, q < toLex (s, o)) :
    word (updateInsertP2values (storedColumns ps) s o) 0 = o := by
  have filled : ps ≠ [] := length_pos_iff.mp (by omega)
  have scan := @scanColumns_columns ps [] s o (by rw [append_nil]; omega) below (by simp)
  rw [append_nil] at scan
  have ends : pairAt (ps.length + 1) (1 + ps.length) s o = [(2 ^ 31 % 2 ^ 32, s)] ++ [(0, o)] := by
    simp only [pairAt, count]
    rfl
  have nothing : (1 + ps.length) % 2 ^ 32 - (1 + ps.length) = 0 := by
    rw [Nat.mod_eq_of_lt (by omega), Nat.sub_self]
  rw [storedColumns, if_neg filled, updateInsertP2values]
  simp only [scan, word_columns_zero, nothing, List.range'_zero, flatMap_nil, append_nil, ends]
  refine (getD_written (show 0 < (columns ps).length + 2 by omega)).trans ?_
  rw [← append_assoc, ← cons_append, cells_concat]

theorem updateRemoveP2values_spec (sorted : Increasing ps) {s o : Nat} (present : toLex (s, o) ∈ ps)
    (room : ps.length < 2 ^ 31) :
    ∃ qs, updateRemoveP2values (columns ps) s o = some (storedColumns qs) ∧ Increasing qs ∧
      ∀ q, q ∈ qs ↔ q ≠ toLex (s, o) ∧ q ∈ ps := by
  obtain ⟨low, high, rfl⟩ := append_of_mem present
  obtain ⟨left, right, across⟩ := pairwise_append.mp sorted
  obtain ⟨above, upper⟩ := pairwise_cons.mp right
  have below : ∀ q ∈ low, q < toLex (s, o) := fun q hq => across q hq _ (by simp)
  have upward : ∀ q ∈ toLex (s, o) :: high, toLex (s, o) ≤ q := by
    intro q hq
    rcases mem_cons.mp hq with rfl | hq
    · exact le_rfl
    · exact (above q hq).le
  refine ⟨low ++ high, ?_, ?_, ?_⟩
  · have size : (low ++ toLex (s, o) :: high).length = (low ++ high).length + 1 := by simp; omega
    have first := @copies_eq [] low (toLex (s, o) :: high) room
      (low ++ high).length 0 id fun i => by simp
    have second := @copies_eq (low ++ [toLex (s, o)]) high []
      (by simpa using room) (low ++ high).length low.length (· - 1)
      fun i => by rw [length_append, length_singleton]; omega
    have all : pairsFrom (low ++ high).length 0 (low ++ high) =
        pairsFrom (low ++ high).length 0 low ++ pairsFrom (low ++ high).length low.length high := by
      simp [pairsFrom, zipIdx_append]
    have next : (low ++ [toLex (s, o)]).length = low.length + 1 := by simp
    rw [next, append_nil, append_assoc, singleton_append, ← Nat.add_assoc] at second
    simp only [length_nil, nil_append, Nat.add_zero, id_eq] at first
    simp only [updateRemoveP2values, scanColumns_columns room below upward, word_columns_zero,
        storedColumns]
    by_cases last : low ++ high = []
    · rw [if_pos last, if_pos (by rw [size, last]; rfl)]
    · have more : (low ++ high).length ≠ 0 := fun none => last (length_eq_zero_iff.mp none)
      have target := @written_columns (low ++ high) (by omega)
      rw [all, ← first, ← second] at target
      have long : (columns (low ++ toLex (s, o) :: high)).length - 2 =
          (columns (low ++ high)).length := by
        simp [columns]
        omega
      have rest : (1 + (low ++ toLex (s, o) :: high).length) % 2 ^ 32 -
          (1 + low.length + 1) = high.length := by
        rw [Nat.mod_eq_of_lt (by omega), size, length_append]
        omega
      rw [if_neg last, if_neg (by omega), if_neg (by rw [Nat.mod_eq_of_lt (by omega)]; simp), rest, long, size,
        Nat.add_sub_cancel, Nat.add_sub_cancel_left]
      exact congrArg (some ∘ some) target
  · exact pairwise_append.mpr ⟨left, upper, fun q hq r hr => across q hq r (mem_cons_of_mem _ hr)⟩
  · intro q
    simp only [mem_append, mem_cons]
    constructor
    · rintro (h | h)
      · exact ⟨(below q h).ne, .inl h⟩
      · exact ⟨(above q h).ne', .inr (.inr h)⟩
    · tauto

end GStore
