import GStore.Lib.Search
import Mathlib.Data.List.TakeWhile

/-! `IDList::intersectList` on two non-decreasing lists: one merge, or a binary search in the longer
list for each run of equal ids in the shorter one. -/
namespace GStore.IDList

open Lib List

def merge : List Nat → List Nat → List Nat
  | [], _ => []
  | canId :: mine, other =>
    match other.dropWhile (· < canId) with
    | [] => []
    | id :: rest => if canId = id then canId :: merge mine rest else merge mine (id :: rest)

def checkSizeInsert (large : List Nat) (target sameValueCounter : Nat) : List Nat :=
  List.replicate (min sameValueCounter (timesIn large target)) target

/-- `BSearchMerge` from an element of the small list on, with the counter as it is before it. -/
def bSearchMerge (large : List Nat) : List Nat → Nat → List Nat
  | [], _ => []
  | [x], counter => checkSizeInsert large x (counter + 1)
  | x :: y :: small, counter =>
    if x = y then bSearchMerge large (y :: small) (counter + 1)
    else checkSizeInsert large x (counter + 1) ++ bSearchMerge large (y :: small) 0

/-- The list left and the number of ids removed. `close` is the comparison of the ratio of the sizes
with the limit, both floating-point numbers. -/
def intersectList (close : Nat → Nat → Bool) (mine other : List Nat) : List Nat × Nat :=
  if other = [] then ([], mine.length)
  else
    let new := if max mine.length other.length ≤ 2 ∨
      close mine.length other.length then merge mine other
      else if mine.length < other.length then bSearchMerge other mine 0
      else bSearchMerge mine other 0
    (new, mine.length - new.length)

/-- The list is non-decreasing and has each id as often as the one of `mine` and `other` that has it
less often. -/
structure Intersection (mine other new : List Nat) : Prop where
  sorted : new.Pairwise (· ≤ ·)
  count : ∀ v, new.count v = min (mine.count v) (other.count v)

theorem Intersection.symm {mine other new : List Nat} (h : Intersection mine other new) :
    Intersection other mine new :=
  ⟨h.sorted, fun v => by rw [h.count v, Nat.min_comm]⟩

theorem count_eq_zero_of_lt {x v : Nat} {l : List Nat} (least : ∀ y ∈ l, x ≤ y) (less : v < x) :
    l.count v = 0 :=
  count_eq_zero.mpr fun inside => absurd (least v inside) (by omega)

theorem count_dropWhile {x v : Nat} (l : List Nat) (above : x ≤ v) :
    (l.dropWhile (· < x)).count v = l.count v := by
  conv_rhs => rw [← takeWhile_append_dropWhile (p := (· < x)) (l := l), count_append]
  have absent : v ∉ l.takeWhile (· < x) := fun inside => by
    have less := mem_takeWhile_imp inside
    simp only [decide_eq_true_eq] at less
    omega
  rw [count_eq_zero.mpr absent, Nat.zero_add]

theorem merge_sublist (mine other : List Nat) : (merge mine other).Sublist mine := by
  induction mine generalizing other with
  | nil => exact List.Sublist.refl _
  | cons x mine ih =>
    unfold merge
    split
    · exact nil_sublist _
    · split
      · exact (ih _).cons_cons x
      · exact (ih _).cons x

section

variable {mine other : List Nat} (sorted : mine.Pairwise (· ≤ ·)) (order : other.Pairwise (· ≤ ·))
include sorted order

theorem merge_count (v : Nat) :
    (merge mine other).count v = min (mine.count v) (other.count v) := by
  induction mine generalizing other with
  | nil => simp [merge]
  | cons x mine ih =>
    obtain ⟨least, sorted⟩ := pairwise_cons.mp sorted
    -- What is below the head is in neither the list read nor the result.
    by_cases below : v < x
    · have none : (x :: mine).count v = 0 :=
        count_eq_zero_of_lt (x := x) (by simpa using least) below
      rw [none, Nat.zero_min]
      exact Nat.le_zero.mp (none ▸ (merge_sublist _ _).count_le v)
    · rw [← count_dropWhile other (not_lt.mp below)]
      have ordered : (other.dropWhile (· < x)).Pairwise (· ≤ ·) :=
        order.sublist (dropWhile_sublist _)
      have first := head?_dropWhile_not (· < x) other
      unfold merge
      generalize other.dropWhile (· < x) = rest at *
      cases rest with
      | nil => simp
      | cons y rest =>
        have bound : x ≤ y := by simpa using first
        obtain rfl | same := eq_or_ne x y
        · simp only [if_true, count_cons, ih sorted ordered.of_cons]
          omega
        · simp only [if_neg same, ih sorted ordered]
          by_cases here : v = x
          · have more : ∀ z ∈ y :: rest, y ≤ z := by simpa using (pairwise_cons.mp ordered).1
            rw [count_eq_zero_of_lt more (show v < y by omega), Nat.min_zero, Nat.min_zero]
          · rw [count_cons_of_ne (Ne.symm here)]

theorem merge_spec : Intersection mine other (merge mine other) :=
  ⟨sorted.sublist (merge_sublist _ _), merge_count sorted order⟩

end

theorem count_checkSizeInsert {large : List Nat} (order : large.Pairwise (· ≤ ·)) (x n v : Nat) :
    (checkSizeInsert large x n).count v = if x = v then min n (large.count v) else 0 := by
  rw [checkSizeInsert, timesIn_eq_count order, count_replicate]
  by_cases same : x = v
  · simp [same]
  · simp [same]

variable {large small : List Nat}

theorem bSearchMerge_count (sorted : small.Pairwise (· ≤ ·)) (order : large.Pairwise (· ≤ ·))
    (counter v : Nat) :
    (bSearchMerge large small counter).count v =
      min (small.count v + if small.head? = some v then counter else 0) (large.count v) := by
  fun_induction bSearchMerge large small counter with
  | case1 => simp
  | case2 x counter =>
    rw [count_checkSizeInsert order]
    by_cases same : x = v
    · simp [same, Nat.add_comm]
    · simp [same]
  | case3 y small counter ih =>
    rw [ih sorted.of_cons]
    by_cases same : y = v
    · simp [same]
      omega
    · simp [same]
  | case4 x y small counter different ih =>
    obtain ⟨least, sorted⟩ := pairwise_cons.mp sorted
    rw [count_append, count_checkSizeInsert order, ih sorted]
    obtain rfl | same := eq_or_ne x v
    · have more : ∀ z ∈ y :: small, y ≤ z := by simpa using (pairwise_cons.mp sorted).1
      have less : x < y := lt_of_le_of_ne (least y mem_cons_self) different
      simp [count_eq_zero_of_lt more less, Nat.add_comm]
    · simp [same]

theorem mem_of_mem_bSearchMerge {counter v : Nat} (inside : v ∈ bSearchMerge large small counter) :
    v ∈ small := by
  fun_induction bSearchMerge large small counter with
  | case1 => exact inside
  | case2 x counter => simpa using (mem_replicate.mp inside).2
  | case3 y small counter ih => exact mem_cons_of_mem _ (ih inside)
  | case4 x y small counter different ih =>
    rcases mem_append.mp inside with here | later
    · exact (mem_replicate.mp here).2 ▸ mem_cons_self
    · exact mem_cons_of_mem _ (ih later)

theorem bSearchMerge_sorted (sorted : small.Pairwise (· ≤ ·)) (counter : Nat) :
    (bSearchMerge large small counter).Pairwise (· ≤ ·) := by
  fun_induction bSearchMerge large small counter with
  | case1 => exact List.Pairwise.nil
  | case2 x counter => exact pairwise_replicate.mpr (.inr (Nat.le_refl x))
  | case3 y small counter ih => exact ih sorted.of_cons
  | case4 x y small counter different ih =>
    refine pairwise_append.mpr
      ⟨pairwise_replicate.mpr (.inr (Nat.le_refl x)), ih sorted.of_cons, ?_⟩
    intro a here b later
    rw [(mem_replicate.mp here).2]
    exact (pairwise_cons.mp sorted).1 b (mem_of_mem_bSearchMerge later)

theorem bSearchMerge_spec (sorted : small.Pairwise (· ≤ ·)) (order : large.Pairwise (· ≤ ·)) :
    Intersection small large (bSearchMerge large small 0) :=
  ⟨bSearchMerge_sorted sorted 0,
      fun v => by rw [bSearchMerge_count sorted order, ite_self, Nat.add_zero]⟩

theorem intersectList_spec {close : Nat → Nat → Bool} {mine other : List Nat}
    (sorted : mine.Pairwise (· ≤ ·))
    (order : other.Pairwise (· ≤ ·)) :
    Intersection mine other (intersectList close mine other).1 := by
  unfold intersectList
  split
  · rename_i empty
    exact ⟨List.Pairwise.nil, fun v => by simp [empty]⟩
  · dsimp only
    split
    · exact merge_spec sorted order
    · split
      · exact bSearchMerge_spec sorted order
      · exact (bSearchMerge_spec order sorted).symm

/-- The returned number is the old size minus the new one. -/
theorem intersectList_multiset (close : Nat → Nat → Bool) {mine other : List Nat}
    (sorted : mine.Pairwise (· ≤ ·))
    (order : other.Pairwise (· ≤ ·)) : Intersection mine other (intersectList close mine other).1 ∧
      (intersectList close mine other).1.length + (intersectList close mine other).2 =
      mine.length := by
  have spec := @intersectList_spec close _ _ sorted order
  refine ⟨spec, ?_⟩
  have fewer : (intersectList close mine other).1.length ≤ mine.length := by
    refine (subperm_ext_iff.mpr fun v _ => ?_).length_le
    rw [spec.count v]
    exact Nat.min_le_left _ _
  have removed : (intersectList close mine other).2 = mine.length -
      (intersectList close mine other).1.length := by
    unfold intersectList
    split <;> rfl
  omega

theorem intersectList_multiset_two :
    Intersection [1, 1] [1, 2] (intersectList (fun _ _ => true) [1, 1] [1, 2]).1 ∧
      (intersectList (fun _ _ => true) [1, 1] [1, 2]).1.length +
      (intersectList (fun _ _ => true) [1, 1] [1, 2]).2 = 2 :=
  intersectList_multiset _ (by decide) (by decide)

end GStore.IDList
