import Mathlib.Tactic

/-! The first and the last index of a run of equal elements, found by bisection. The comparison of
an element with what is looked for goes from `lt` through `eq` to `gt` along the indexes. -/
namespace GStore.Lib

/-- `while (l < r)` with `r = m` on `>=` and `l = m + 1` otherwise. -/
def leftBound (c : Nat → Ordering) : Nat → Nat → Nat → Nat
  | 0, l, _ => l
  | fuel + 1, l, r =>
    if l < r then
      if c ((l + r) / 2) ≠ .lt then leftBound c fuel l ((l + r) / 2) else leftBound c fuel
        ((l + r) / 2 + 1) r
    else l

/-- `while (l < r)` with `l = m` on `<=` and `r = m - 1` otherwise. -/
def rightBound (c : Nat → Ordering) : Nat → Nat → Nat → Nat
  | 0, l, _ => l
  | fuel + 1, l, r =>
    if l < r then
      if c ((l + r) / 2 + 1) ≠ .gt then rightBound c fuel
        ((l + r) / 2 + 1) r else rightBound c fuel l ((l + r) / 2)
    else l

/-- What is looked for, or that there is none. -/
def First (P : Nat → Prop) : Option Nat → Prop
  | none => ∀ i, ¬ P i
  | some i => P i ∧ ∀ j, P j → i ≤ j

def Last (P : Nat → Prop) : Option Nat → Prop
  | none => ∀ i, ¬ P i
  | some i => P i ∧ ∀ j, P j → j ≤ i

variable {c : Nat → Ordering} {n fuel l r : Nat}

structure Ascends (c : Nat → Ordering) (n : Nat) : Prop where
  falls : ∀ i j, i ≤ j → j < n → c j = .lt → c i = .lt
  rises : ∀ i j, i ≤ j → j < n → c i = .gt → c j = .gt

variable (ascends : Ascends c n)
include ascends

theorem leftBound_spec (turns : r - l ≤ fuel) (inside : l ≤ r ∧ r < n) (below : ∀ i < l, c i = .lt)
    (above : r + 1 < n → c r ≠ .lt) :
    leftBound c fuel l r < n ∧ (∀ i < leftBound c fuel l r, c i = .lt) ∧
      (leftBound c fuel l r + 1 < n → c (leftBound c fuel l r) ≠ .lt) := by
  induction fuel generalizing l r with
  | zero =>
    obtain rfl : l = r := by omega
    exact ⟨inside.2, below, above⟩
  | succ fuel ih =>
    rw [leftBound]
    split
    · split_ifs with stop
      · exact ih (by omega) (by omega) below fun _ => stop
      · refine ih (by omega) (by omega) (fun i h => ?_) above
        exact ascends.falls i ((l + r) / 2) (by omega) (by omega) (not_not.mp stop)
    · obtain rfl : l = r := by omega
      exact ⟨inside.2, below, above⟩

theorem rightBound_spec (turns : r - l ≤ fuel) (inside : l ≤ r ∧ r < n) (below : 0 < l → c l ≠ .gt)
    (above : ∀ i, r < i → i < n → c i = .gt) : rightBound c fuel l r < n ∧
      (∀ i, rightBound c fuel l r < i → i < n → c i = .gt) ∧
      (0 < rightBound c fuel l r → c (rightBound c fuel l r) ≠ .gt) := by
  induction fuel generalizing l r with
  | zero =>
    obtain rfl : l = r := by omega
    exact ⟨inside.2, above, below⟩
  | succ fuel ih =>
    rw [rightBound]
    split
    · split_ifs with stop
      · exact ih (by omega) (by omega) (fun _ => stop) above
      · refine ih (by omega) (by omega) below fun i h bound => ?_
        exact ascends.rises ((l + r) / 2 + 1) i (by omega) bound (not_not.mp stop)
    · obtain rfl : l = r := by omega
      exact ⟨inside.2, above, below⟩

/-- The search, then the test whether what was found is equal; `none` is the return value `-1`. -/
def bounder (bound : (Nat → Ordering) → Nat → Nat → Nat → Nat) (c : Nat → Ordering) (n : Nat) :
    Option Nat :=
  if n = 0 then none else if c (bound c n 0 (n - 1)) = .eq then some (bound c n 0 (n - 1)) else none

theorem bounder_leftBound : First (fun i => i < n ∧ c i = .eq) (bounder leftBound c n) := by
  unfold bounder
  split
  · exact fun i h => by omega
  · obtain ⟨inside, before, after⟩ :=
      @leftBound_spec c n n 0 (n - 1) ascends (by omega) (by omega) (by omega) (by omega)
    generalize leftBound c n 0 (n - 1) = l at *
    split_ifs with found
    · refine ⟨⟨inside, found⟩, fun j ⟨_, same⟩ => ?_⟩
      by_contra less
      rw [before j (by omega)] at same
      cases same
    · rintro i ⟨bound, same⟩
      rcases Nat.lt_trichotomy i l with less | rfl | more
      · rw [before i less] at same
        cases same
      · contradiction
      · cases found : c l with
        | lt => exact after (by omega) found
        | eq => contradiction
        | gt =>
          rw [ascends.rises l i more.le bound found] at same
          cases same

theorem bounder_rightBound : Last (fun i => i < n ∧ c i = .eq) (bounder rightBound c n) := by
  unfold bounder
  split
  · exact fun i h => by omega
  · obtain ⟨inside, after, before⟩ :=
      @rightBound_spec c n n 0 (n - 1) ascends (by omega) (by omega) (by omega) (by omega)
    generalize rightBound c n 0 (n - 1) = l at *
    split_ifs with found
    · refine ⟨⟨inside, found⟩, fun j ⟨bound, same⟩ => ?_⟩
      by_contra more
      rw [after j (by omega) bound] at same
      cases same
    · rintro i ⟨bound, same⟩
      rcases Nat.lt_trichotomy l i with more | rfl | less
      · rw [after i more bound] at same
        cases same
      · contradiction
      · cases found : c l with
        | gt => exact before (by omega) found
        | eq => contradiction
        | lt =>
          rw [ascends.falls i l less.le inside found] at same
          cases same

end GStore.Lib
