import Mathlib.Tactic
import Mathlib.Data.List.GetD

/-! Bisection on an indexed sequence. The half-open interval `[low, high)` is what a
loop on `left ≤ right` keeps as `[left, right + 1)`; the fuel is any bound on its length. -/
namespace GStore.Lib
open List

def bisect {α : Type} [LinearOrder α] (key : α) (list : Nat → α) : Nat → Nat → Nat → Option Nat
  | 0, _, _ => none
  | fuel + 1, low, high =>
    if low < high then
      let mid := (high - 1 - low) / 2 + low
      if key = list mid then some mid
      else if key < list mid then bisect key list fuel low mid
      else bisect key list fuel (mid + 1) high
    else none

variable {α : Type} {list : Nat → α} {key : α}

theorem bisect_some [LinearOrder α] {fuel low high i : Nat}
    (found : bisect key list fuel low high = some i) : low ≤ i ∧ i < high ∧ list i = key := by
  induction fuel generalizing low high with
  | zero => cases found
  | succ fuel ih =>
    simp only [bisect] at found
    split at found
    · rename_i inside
      have midLow : low ≤ (high - 1 - low) / 2 + low := by omega
      have midHigh : (high - 1 - low) / 2 + low < high := by omega
      split at found
      · rename_i hit
        cases Option.some.inj found
        exact ⟨midLow, midHigh, hit.symm⟩
      · split at found
        · have h := ih found
          exact ⟨h.1, by omega, h.2.2⟩
        · have h := ih found
          exact ⟨by omega, h.2.1, h.2.2⟩
    · cases found

theorem bisect_none [LinearOrder α] {fuel low high : Nat} (enough : high - low ≤ fuel)
    (increasing : ∀ i j, low ≤ i → i < j → j < high → list i < list j)
    (missed : bisect key list fuel low high = none) : ∀ i, low ≤ i → i < high → list i ≠ key := by
  induction fuel generalizing low high with
  | zero =>
    intro i hl hh
    omega
  | succ fuel ih =>
    intro i hl hh
    simp only [bisect] at missed
    have inside : low < high := by omega
    rw [if_pos inside] at missed
    generalize hm : (high - 1 - low) / 2 + low = mid at missed
    have midLow : low ≤ mid := by omega
    have midHigh : mid < high := by omega
    split at missed
    · cases missed
    · rename_i differs
      rcases Nat.lt_trichotomy i mid with before | same | after
      · split at missed
        · exact ih (by omega) (fun a b ha hab hb => increasing a b ha hab (by omega)) missed i hl before
        · rename_i above
          have smaller : list i < list mid := increasing i mid hl before midHigh
          exact fun hit => above (hit ▸ smaller)
      · exact fun hit => differs (same ▸ hit.symm)
      · split_ifs at missed with below
        · have larger : list mid < list i := increasing mid i midLow after hh
          exact fun hit => absurd (hit ▸ larger) (not_lt_of_gt below)
        · exact ih (by omega) (fun a b ha hab hb => increasing a b (by omega) hab hb) missed i
            (by omega) hh

theorem bisect_eq_some_iff [LinearOrder α] {n : Nat}
    (increasing : ∀ i j, i < j → j < n → list i < list j) (i : Nat) :
    bisect key list n 0 n = some i ↔ i < n ∧ list i = key := by
  constructor
  · intro found
    exact (bisect_some found).2
  · rintro ⟨inside, hit⟩
    cases result : bisect key list n 0 n with
    | none =>
      exact absurd hit (bisect_none (by omega) (fun a b _ hab hb => increasing a b hab hb) result i
        (Nat.zero_le i) inside)
    | some j =>
      obtain ⟨-, hj, same⟩ := bisect_some result
      rcases Nat.lt_trichotomy i j with h | h | h
      · exact absurd (hit.trans same.symm) (ne_of_lt (increasing i j h hj))
      · rw [h]
      · exact absurd (same.trans hit.symm) (ne_of_lt (increasing j i h inside))

theorem bisect_eq_none_iff [LinearOrder α] {n : Nat}
    (increasing : ∀ i j, i < j → j < n → list i < list j) :
    bisect key list n 0 n = none ↔ ∀ i, i < n → list i ≠ key := by
  constructor
  · intro missed i inside
    exact bisect_none (by omega) (fun a b _ hab hb => increasing a b hab hb) missed i
      (Nat.zero_le i) inside
  · intro absent
    cases result : bisect key list n 0 n with
    | none => rfl
    | some j =>
      obtain ⟨-, hj, same⟩ := bisect_some result
      exact absurd same (absent j hj)

/-- The loop of `std::lower_bound` on the range of `len` elements from `first` on. -/
def lowerBound {α : Type} [LinearOrder α] (key : α) (list : Nat → α) : Nat → Nat → Nat → Nat
  | 0, first, _ => first
  | fuel + 1, first, len =>
    if len = 0 then first
    else if list (first + len / 2) < key then lowerBound key list fuel (first + len / 2 + 1)
      (len - len / 2 - 1)
    else lowerBound key list fuel first (len / 2)

theorem lowerBound_spec {α : Type} [LinearOrder α] {key : α} {list : Nat → α} {n : Nat}
    (sorted : ∀ i j, i ≤ j → j < n → list i ≤ list j) {fuel first len : Nat} (turns : len ≤ fuel)
    (inside : first + len ≤ n) (less : ∀ i, i < first → list i < key)
    (more : ∀ i, first + len ≤ i → i < n → key ≤ list i) :
    lowerBound key list fuel first len ≤ n ∧
    (∀ i, i < lowerBound key list fuel first len → list i < key) ∧
      ∀ i, lowerBound key list fuel first len ≤ i → i < n → key ≤ list i := by
  induction fuel generalizing first len with
  | zero =>
    exact ⟨by unfold lowerBound; omega, less, fun i h => more i (by unfold lowerBound at h; omega)⟩
  | succ fuel ih =>
    unfold lowerBound
    by_cases empty : len = 0
    · rw [if_pos empty]
      exact ⟨by omega, less, fun i h => more i (by omega)⟩
    · rw [if_neg empty]
      by_cases low : list (first + len / 2) < key
      · rw [if_pos low]
        refine ih (by omega) (by omega) (fun i before => ?_) fun i after => more i (by omega)
        exact (sorted i (first + len / 2) (by omega) (by omega)).trans_lt low
      · rw [if_neg low]
        refine ih (by omega) (by omega) less fun i after bound => ?_
        exact (not_lt.mp low).trans (sorted _ i (by omega) bound)

variable {list : List Nat}

variable (sorted : list.Pairwise (· ≤ ·))
include sorted

theorem getD_mono : ∀ i j, i ≤ j → j < list.length → list.getD i 0 ≤ list.getD j 0 := by
  intro i j before bound
  rw [getD_eq_getElem _ _ (Nat.lt_of_le_of_lt before bound), getD_eq_getElem _ _ bound]
  rcases Nat.eq_or_lt_of_le before with rfl | less
  · exact Nat.le_refl _
  · exact pairwise_iff_getElem.mp sorted i j (by omega) bound less

def binarySearchIn (list : List Nat) (key : Nat) : Bool :=
  let i := lowerBound key (list.getD · 0) list.length 0 list.length
  decide (i < list.length) && decide (list.getD i 0 ≤ key)

theorem binarySearchIn_iff {key : Nat} : binarySearchIn list key = true ↔ key ∈ list := by
  have value : ∀ i (bound : i < list.length), list.getD i 0 = list.get ⟨i, bound⟩ :=
      fun i bound => by
    simp [getD_eq_getElem?_getD, bound]
  have mono := getD_mono sorted
  obtain ⟨-, less, more⟩ :=
    @lowerBound_spec Nat _ key (list.getD · 0) list.length mono list.length 0 list.length le_rfl
    (by omega) (fun i h => absurd h (by omega)) fun i h bound => absurd bound (by omega)
  simp only [binarySearchIn, Bool.and_eq_true, decide_eq_true_eq]
  constructor
  · rintro ⟨bound, most⟩
    rw [← Nat.le_antisymm most (more _ le_rfl bound), value _ bound]
    exact get_mem _ _
  · intro member
    obtain ⟨i, bound, found⟩ := mem_iff_getElem.mp member
    have here : list.getD i 0 = key := (value i bound).trans found
    have after : lowerBound key (list.getD · 0) list.length 0 list.length ≤ i := by
      by_contra before
      exact absurd (less i (by omega)) (by rw [here]; exact lt_irrefl key)
    exact ⟨by omega, (mono _ i after bound).trans_eq here⟩

def upperBound (key : Nat) (list : Nat → Nat) : Nat → Nat → Nat → Nat
  | 0, first, _ => first
  | fuel + 1, first, len =>
    if len = 0 then first
    else if key < list (first + len / 2) then upperBound key list fuel first (len / 2)
    else upperBound key list fuel (first + len / 2 + 1) (len - len / 2 - 1)

omit sorted in
theorem upperBound_eq (key : Nat) (list : Nat → Nat) (fuel first len : Nat) :
    upperBound key list fuel first len = lowerBound (key + 1) list fuel first len := by
  induction fuel generalizing first len with
  | zero => rfl
  | succ fuel ih =>
    simp only [upperBound, lowerBound, ih]
    by_cases above : key < list (first + len / 2)
    · rw [if_pos above, if_neg (show ¬ list (first + len / 2) < key + 1 by omega)]
    · rw [if_neg above, if_pos (show list (first + len / 2) < key + 1 by omega)]

def timesIn (list : List Nat) (key : Nat) : Nat :=
  upperBound key (list.getD · 0) list.length 0 list.length - lowerBound key
    (list.getD · 0) list.length 0 list.length

theorem lowerBound_eq_countP (key : Nat) :
    lowerBound key (list.getD · 0) list.length 0 list.length = list.countP (· < key) := by
  obtain ⟨within, less, more⟩ :=
    @lowerBound_spec Nat _ key (list.getD · 0) list.length (getD_mono sorted) list.length 0
    list.length le_rfl (by omega) (fun i h => absurd h (by omega)) fun i h bound => absurd bound (by omega)
  generalize lowerBound key (list.getD · 0) list.length 0 list.length = i at *
  have low : (list.take i).countP (· < key) = (list.take i).length := by
    refine countP_eq_length.mpr fun x inside => ?_
    obtain ⟨j, bound, rfl⟩ := mem_iff_getElem.mp inside
    rw [length_take] at bound
    have here := less j (by omega)
    rw [getD_eq_getElem _ _ (by omega)] at here
    simpa using here
  have high : (list.drop i).countP (· < key) = 0 := by
    refine countP_eq_zero.mpr fun x inside => ?_
    obtain ⟨j, bound, rfl⟩ := mem_iff_getElem.mp inside
    rw [length_drop] at bound
    have here := more (i + j) (by omega) (by omega)
    rw [getD_eq_getElem _ _ (by omega)] at here
    simpa using here
  rw [← take_append_drop i list, countP_append, low, high, length_take]
  omega

theorem timesIn_eq_count (key : Nat) : timesIn list key = list.count key := by
  have split : list.countP (· < key + 1) = list.countP (· < key) + list.count key := by
    clear sorted
    induction list with
    | nil => rfl
    | cons x list ih =>
      simp only [countP_cons, count_cons, ih, decide_eq_true_eq, beq_iff_eq]
      split_ifs <;> omega
  rw [timesIn, upperBound_eq, lowerBound_eq_countP sorted, lowerBound_eq_countP sorted, split]
  omega

end GStore.Lib
