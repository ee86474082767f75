import Mathlib.Tactic
import Mathlib.Logic.Equiv.Basic

/-! Quicksort in place, with the pivot kept at the left end while two indices run towards each
other. A vector is the function of its indices; the fuel of a loop is any bound on the number of its
turns. -/
namespace GStore.Lib
open Function List

variable {α : Type}

def swapAt (f : Nat → α) (i j : Nat) : Nat → α := f ∘ Equiv.swap i j

def scanUp (lt : α → α → Bool) (f : Nat → α) (pivot : α) (r : Nat) : Nat → Nat → Nat
  | 0, i => i
  | fuel + 1, i =>
    if lt (f (i + 1)) pivot then if i + 1 = r then i + 1 else scanUp lt f pivot r fuel
      (i + 1) else i + 1

def scanDown (lt : α → α → Bool) (f : Nat → α) (pivot : α) (l : Nat) : Nat → Nat → Nat
  | 0, j => j
  | fuel + 1, j =>
    if lt pivot (f (j - 1)) then if j - 1 = l then j - 1 else scanDown lt f pivot l fuel
      (j - 1) else j - 1

/-- The two indices of a turn are swapped until they meet; `j` is where the pivot goes. -/
def partitionLoop (lt : α → α → Bool) (l r : Nat) : Nat → (Nat → α) → Nat → Nat → (Nat → α) × Nat
  | 0, f, _, j => (f, j)
  | fuel + 1, f, i, j =>
    let i := scanUp lt f (f l) r (r - i) i
    let j := scanDown lt f (f l) l (j - l) j
    if j ≤ i then (f, j) else partitionLoop lt l r fuel (swapAt f i j) i j

def partition (lt : α → α → Bool) (f : Nat → α) (l r : Nat) : (Nat → α) × Nat :=
  let (g, j) := partitionLoop lt l r (r + 1 - l) (swapAt f l ((l + r) / 2)) l (r + 1)
  (swapAt g l j, j)

def quickSort (lt : α → α → Bool) : Nat → (Nat → α) → Nat → Nat → (Nat → α)
  | 0, f, _, _ => f
  | fuel + 1, f, l, r =>
    if r ≤ l then f
    else
      let (g, j) := partition lt f l r
      quickSort lt fuel (quickSort lt fuel g l (j - 1)) (j + 1) r

def Rearranged (f g : Nat → α) (l r : Nat) : Prop :=
  ∃ σ : Equiv.Perm Nat, g = f ∘ σ ∧ ∀ k, k < l ∨ r < k → σ k = k

namespace Rearranged

variable {f g h : Nat → α} {l r : Nat}

theorem refl (f : Nat → α) (l r : Nat) : Rearranged f f l r := ⟨Equiv.refl Nat, rfl, fun _ _ => rfl⟩

theorem trans (first : Rearranged f g l r) (second : Rearranged g h l r) : Rearranged f h l r := by
  obtain ⟨σ, rfl, fixed⟩ := first
  obtain ⟨τ, rfl, fixed'⟩ := second
  refine ⟨τ.trans σ, rfl, fun k outside => ?_⟩
  rw [Equiv.trans_apply, fixed' k outside, fixed k outside]

theorem mono {l' r' : Nat} (inner : Rearranged f g l' r') (left : l ≤ l') (right : r' ≤ r) :
    Rearranged f g l r := by
  obtain ⟨σ, rfl, fixed⟩ := inner
  exact ⟨σ, rfl, fun k outside => fixed k (by omega)⟩

theorem swapAt (f : Nat → α) {i j : Nat} (hi : l ≤ i ∧ i ≤ r) (hj : l ≤ j ∧ j ≤ r) :
    Rearranged f (swapAt f i j) l r :=
  ⟨Equiv.swap i j, rfl, fun k outside => Equiv.swap_apply_of_ne_of_ne (by omega) (by omega)⟩

theorem outside (changed : Rearranged f g l r) {k : Nat} (out : k < l ∨ r < k) : g k = f k := by
  obtain ⟨σ, rfl, fixed⟩ := changed
  rw [comp_apply, fixed k out]

theorem eq_of_le (changed : Rearranged f g l r) (short : r ≤ l) : g = f := by
  obtain ⟨σ, rfl, fixed⟩ := changed
  have identity : ∀ k, σ k = k := by
    intro k
    by_cases out : k < l ∨ r < k
    · exact fixed k out
    · by_contra moved
      have same := fixed (σ k) (by omega)
      exact moved (σ.injective same)
  funext k
  rw [comp_apply, identity k]

theorem forall_inside (changed : Rearranged f g l r) {P : α → Prop}
    (all : ∀ k, l ≤ k → k ≤ r → P (f k)) :
    ∀ k, l ≤ k → k ≤ r → P (g k) := by
  obtain ⟨σ, rfl, fixed⟩ := changed
  intro k left right
  refine all (σ k) ?_ ?_
  · by_contra small
    have same := fixed (σ k) (.inl (by omega))
    have := σ.injective same
    omega
  · by_contra large
    have same := fixed (σ k) (.inr (by omega))
    have := σ.injective same
    omega

theorem perm {n : Nat} (changed : Rearranged f g 0 (n - 1)) :
    ((List.range n).map g).Perm ((List.range n).map f) := by
  obtain ⟨σ, rfl, fixed⟩ := changed
  rw [← map_map]
  apply List.Perm.map
  refine (perm_ext_iff_of_nodup (nodup_range.map σ.injective) nodup_range).mpr fun k => ?_
  simp only [mem_map, mem_range]
  constructor
  · rintro ⟨i, inside, rfl⟩
    by_contra large
    have same := σ.injective (fixed (σ i) (.inr (by omega)))
    omega
  · intro inside
    refine ⟨σ.symm k, ?_, σ.apply_symm_apply k⟩
    by_contra large
    have same := fixed (σ.symm k) (.inr (by omega))
    rw [Equiv.apply_symm_apply] at same
    omega

end Rearranged

section Order

variable {lt : α → α → Bool} {f : Nat → α} {pivot : α} {l r : Nat}

theorem scanUp_spec {fuel i : Nat} (turns : r - i ≤ fuel) (inside : i < r) :
    i < scanUp lt f pivot r fuel i ∧ scanUp lt f pivot r fuel i ≤ r ∧
      (∀ k, i < k → k < scanUp lt f pivot r fuel i → lt (f k) pivot = true) ∧
      (scanUp lt f pivot r fuel i < r → lt (f (scanUp lt f pivot r fuel i)) pivot = false) := by
  induction fuel generalizing i with
  | zero => omega
  | succ fuel ih =>
    rw [scanUp]
    split
    · rename_i less
      split
      · exact ⟨by omega, by omega, fun k h h' => by omega, fun h => by omega⟩
      · obtain ⟨up, bound, below, stop⟩ := ih (i := i + 1) (by omega) (by omega)
        refine ⟨by omega, bound, fun k h h' => ?_, stop⟩
        by_cases next : k = i + 1
        · rw [next, less]
        · exact below k (by omega) h'
    · rename_i stop
      exact ⟨by omega, by omega, fun k h h' => by omega, fun _ => by simpa using stop⟩

theorem scanDown_spec {fuel j : Nat} (turns : j - l ≤ fuel) (inside : l < j) :
    scanDown lt f pivot l fuel j < j ∧ l ≤ scanDown lt f pivot l fuel j ∧
      (∀ k, scanDown lt f pivot l fuel j < k → k < j → lt pivot (f k) = true) ∧
      (l < scanDown lt f pivot l fuel j → lt pivot (f (scanDown lt f pivot l fuel j)) = false) := by
  induction fuel generalizing j with
  | zero => omega
  | succ fuel ih =>
    rw [scanDown]
    split
    · rename_i less
      split
      · exact ⟨by omega, by omega, fun k h h' => by omega, fun h => by omega⟩
      · obtain ⟨down, bound, above, stop⟩ := ih (j := j - 1) (by omega) (by omega)
        refine ⟨by omega, bound, fun k h h' => ?_, stop⟩
        by_cases next : k = j - 1
        · rw [next, less]
        · exact above k h (by omega)
    · rename_i stop
      exact ⟨by omega, by omega, fun k h h' => by omega, fun _ => by simpa using stop⟩

end Order

structure StrictWeak (lt : α → α → Bool) : Prop where
  asymm : ∀ a b, lt a b = true → lt b a = false
  trans : ∀ a b c, lt b a = false → lt c b = false → lt c a = false

namespace StrictWeak

variable {lt : α → α → Bool}

variable (order : StrictWeak lt)
include order

theorem irrefl (a : α) : lt a a = false := by
  by_contra self
  exact self (order.asymm a a (by simpa using self))

theorem partitionLoop_spec {l r : Nat} {fuel i j : Nat} {f : Nat → α} (turns : j - i ≤ fuel)
    (ends : l ≤ i ∧ i < j ∧ j ≤ r + 1 ∧ i < r) (small : ∀ k, l < k → k ≤ i → lt (f l) (f k) = false)
    (large : ∀ k, j ≤ k → k ≤ r → lt (f k) (f l) = false) :
    let (g, p) := partitionLoop lt l r fuel f i j
    Rearranged f g (l + 1) r ∧ l ≤ p ∧ p ≤ r ∧ (∀ k, l < k → k ≤ p → lt (f l) (g k) = false) ∧
      ∀ k, p < k → k ≤ r → lt (g k) (f l) = false := by
  induction fuel generalizing i j f with
  | zero => omega
  | succ fuel ih =>
    obtain ⟨up, upBound, below, upStop⟩ := @scanUp_spec α lt f (f l) r (r - i) i le_rfl ends.2.2.2
    obtain ⟨down, downBound, above, downStop⟩ :=
      @scanDown_spec α lt f (f l) l (j - l) j le_rfl (by omega)
    rw [partitionLoop]
    generalize scanUp lt f (f l) r (r - i) i = i' at *
    generalize scanDown lt f (f l) l (j - l) j = j' at *
    have left : ∀ k, l < k → k < i' → lt (f l) (f k) = false := fun k h h' => by
      by_cases old : k ≤ i
      · exact small k h old
      · exact order.asymm _ _ (below k (by omega) h')
    have right : ∀ k, j' < k → k ≤ r → lt (f k) (f l) = false := fun k h h' => by
      by_cases old : j ≤ k
      · exact large k old h'
      · exact order.asymm _ _ (above k h (by omega))
    dsimp only
    split_ifs with met
    · refine ⟨Rearranged.refl f (l + 1) r, downBound, by omega, fun k h h' => ?_, right⟩
      by_cases last : k = j'
      · rw [last] at h ⊢
        exact downStop h
      · exact left k h (by omega)
    · have pivot : swapAt f i' j' l = f l := by
        rw [swapAt, comp_apply, Equiv.swap_apply_of_ne_of_ne (by omega) (by omega)]
      have swapped := @Rearranged.swapAt α (l + 1) r f i' j' (by omega) (by omega)
      have step := @ih i' j' (swapAt f i' j')
        (by omega) (by omega) (fun k h h' => ?_) (fun k h h' => ?_)
      · rw [pivot] at step
        exact ⟨swapped.trans step.1, step.2⟩
      · rw [pivot]
        by_cases last : k = i'
        · rw [last, swapAt, comp_apply, Equiv.swap_apply_left]
          exact downStop (by omega)
        · rw [swapAt, comp_apply, Equiv.swap_apply_of_ne_of_ne last (by omega)]
          exact left k h (by omega)
      · rw [pivot]
        by_cases last : k = j'
        · rw [last, swapAt, comp_apply, Equiv.swap_apply_right]
          exact upStop (by omega)
        · rw [swapAt, comp_apply, Equiv.swap_apply_of_ne_of_ne (by omega) last]
          exact right k (by omega) h'

theorem partition_spec {f : Nat → α} {l r : Nat} (inside : l < r) :
    let (g, p) := partition lt f l r
    Rearranged f g l r ∧ l ≤ p ∧ p ≤ r ∧ (∀ k, l ≤ k → k ≤ p → lt (g p) (g k) = false) ∧
      ∀ k, p ≤ k → k ≤ r → lt (g k) (g p) = false := by
  have pivoted := @Rearranged.swapAt α l r f l ((l + r) / 2) (by omega) (by omega)
  have loop := @partitionLoop_spec α lt order l r (r + 1 - l) l (r + 1) (swapAt f l ((l + r) / 2))
    (by omega) (by omega)
    (fun k h h' => by omega) (fun k h h' => by omega)
  rw [partition]
  generalize swapAt f l ((l + r) / 2) = f' at *
  generalize partitionLoop lt l r (r + 1 - l) f' l (r + 1) = result at loop ⊢
  obtain ⟨g, p⟩ := result
  dsimp only at loop ⊢
  obtain ⟨changed, left, right, small, large⟩ := loop
  have first : g l = f' l := changed.outside (.inl (by omega))
  have atPivot : swapAt g l p p = f' l := by rw [swapAt, comp_apply, Equiv.swap_apply_right, first]
  refine ⟨pivoted.trans ((changed.mono
      (by omega) le_rfl).trans (Rearranged.swapAt g (by omega) (by omega))), left, right,
    fun k h h' => ?_, fun k h h' => ?_⟩
  · rw [atPivot]
    by_cases here : k = p
    · rw [here, atPivot]
      exact order.irrefl _
    · by_cases start : k = l
      · rw [start, swapAt, comp_apply, Equiv.swap_apply_left]
        exact small p (by omega) le_rfl
      · rw [swapAt, comp_apply, Equiv.swap_apply_of_ne_of_ne start here]
        exact small k (by omega) h'
  · rw [atPivot]
    by_cases here : k = p
    · rw [here, atPivot]
      exact order.irrefl _
    · rw [swapAt, comp_apply, Equiv.swap_apply_of_ne_of_ne (by omega) here]
      exact large k (by omega) h'

theorem quickSort_spec {fuel : Nat} {f : Nat → α} {l r : Nat} (turns : r + 1 - l ≤ fuel) :
    Rearranged f (quickSort lt fuel f l r) l r ∧
      ∀ a b, l ≤ a → a ≤ b → b ≤ r → lt (quickSort lt fuel f l r b) (quickSort lt fuel f l r a) =
      false := by
  induction fuel generalizing f l r with
  | zero => exact ⟨Rearranged.refl f l r, fun a b ha hab hb => by omega⟩
  | succ fuel ih =>
    rw [quickSort]
    split_ifs with short
    · refine ⟨Rearranged.refl f l r, fun a b ha hab hb => ?_⟩
      obtain rfl : a = b := by omega
      exact order.irrefl _
    · have parts := @partition_spec α lt order f l r (by omega)
      generalize partition lt f l r = result at parts ⊢
      obtain ⟨g, p⟩ := result
      dsimp only at parts ⊢
      obtain ⟨changed, left, right, small, large⟩ := parts
      obtain ⟨first, sortedFirst⟩ := @ih g l (p - 1) (by omega)
      generalize quickSort lt fuel g l (p - 1) = g₁ at *
      obtain ⟨second, sortedSecond⟩ := @ih g₁ (p + 1) r (by omega)
      generalize quickSort lt fuel g₁ (p + 1) r = g₂ at *
      have kept : ∀ k, p ≤ k → g₁ k = g k := fun k h => by
        by_cases start : p = 0
        · rw [first.eq_of_le (by omega)]
        · exact first.outside (.inr (by omega))
      have front : ∀ k, k ≤ p → g₂ k = g₁ k := fun k h => second.outside (.inl (by omega))
      have low : ∀ k, l ≤ k → k ≤ p → lt (g p) (g₂ k) = false := fun k h h' => by
        rw [front k h']
        by_cases here : k = p
        · rw [here, kept p le_rfl]
          exact order.irrefl _
        · exact first.forall_inside (P := fun x => lt (g p) x = false)
            (fun k h h' => small k h (by omega)) k h (by omega)
      have high : ∀ k, p ≤ k → k ≤ r → lt (g₂ k) (g p) = false := fun k h h' => by
        by_cases here : k = p
        · rw [here, front p le_rfl, kept p le_rfl]
          exact order.irrefl _
        · refine second.forall_inside (P := fun x => lt x (g p) = false) (fun k h h' => ?_) k
            (by omega) h'
          rw [kept k (by omega)]
          exact large k (by omega) h'
      refine ⟨changed.trans ((first.mono le_rfl
          (by omega)).trans (second.mono (by omega) le_rfl)), fun a b ha hab hb => ?_⟩
      by_cases before : b < p
      · rw [front a (by omega), front b (by omega)]
        exact sortedFirst a b ha hab (by omega)
      · by_cases behind : p < a
        · exact sortedSecond a b behind hab hb
        · exact order.trans _ _ _ (low a ha (by omega)) (high b (by omega) hb)

/-- Fuel for as many rows as are sorted is fuel for all. -/
theorem quickSort_fuel {fuel more : Nat} {f : Nat → α} {l r : Nat} (turns : r + 1 - l ≤ fuel)
    (le : fuel ≤ more) : quickSort lt more f l r = quickSort lt fuel f l r := by
  induction fuel generalizing more f l r with
  | zero =>
    cases more with
    | zero => rfl
    | succ more => rw [quickSort, quickSort, if_pos (by omega)]
  | succ fuel ih =>
    obtain ⟨more, rfl⟩ : ∃ k, more = k + 1 := ⟨more - 1, by omega⟩
    rw [quickSort, quickSort]
    split
    · rfl
    · have parts := @partition_spec α lt order f l r (by omega)
      generalize partition lt f l r = result at parts ⊢
      obtain ⟨g, p⟩ := result
      dsimp only at parts ⊢
      rw [@ih more g l (p - 1) (by omega) (by omega), ih (by omega) (by omega)]

end StrictWeak

def quickSortList [Inhabited α] (lt : α → α → Bool) (rows : List α) : List α :=
  (List.range rows.length).map
    (quickSort lt rows.length (fun i => rows.getD i default) 0 (rows.length - 1))

namespace StrictWeak

variable [Inhabited α] {lt : α → α → Bool}

theorem quickSortList_perm (order : StrictWeak lt) (rows : List α) :
    (quickSortList lt rows).Perm rows := by
  have same : (List.range rows.length).map (fun i => rows.getD i default) = rows := by
    apply ext_getElem (by simp)
    intro i _ inside
    simp [inside]
  rcases Nat.eq_zero_or_pos rows.length with none | some
  · rw [length_eq_zero_iff.mp none]
    exact List.Perm.nil
  · have sorted := @quickSort_spec α lt order rows.length (fun i => rows.getD i default) 0
      (rows.length - 1) (by omega)
    exact sorted.1.perm.trans (List.Perm.of_eq same)

theorem quickSortList_sorted (order : StrictWeak lt) (rows : List α) :
    (quickSortList lt rows).Pairwise fun a b => lt b a = false := by
  rw [pairwise_iff_getElem]
  intro i j hi hj less
  simp only [quickSortList, length_map, length_range] at hi hj
  have sorted := @quickSort_spec α lt order rows.length (fun i => rows.getD i default) 0
    (rows.length - 1) (by omega)
  simpa [quickSortList] using sorted.2 i j (Nat.zero_le i) less.le (by omega)

end StrictWeak

end GStore.Lib
