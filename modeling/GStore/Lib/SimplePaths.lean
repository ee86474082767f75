import Mathlib.Tactic

/-! Depth-first enumeration of the simple paths to a goal, with a bound on their length, and a
budget for the paths taken. -/
namespace GStore.Lib
open List

section Paths

variable {α β : Type}

inductive Chained (steps : α → List (α × β)) : α → List (α × β) → α → Prop where
  | nil {x : α} : Chained steps x [] x
  | cons {x z : α} {step : α × β} {rest : List (α × β)} :
    step ∈ steps x → Chained steps step.1 rest z → Chained steps x (step :: rest) z

/-- The stacks with `goal` on top that continue a stack with `x` on top, by at most `turns` steps.
-/
def completions [DecidableEq α] (steps : α → List (α × β)) (goal : α) (k : Nat) :
    Nat → α → List (α × β) → List (List (α × β))
  | 0, _, _ => []
  | turns + 1, x, stack =>
    if x = goal then [stack]
    else if stack.length ≤ k then
      (steps x).flatMap fun step =>
        if step.1 ∈ stack.map Prod.fst then [] else completions steps goal k turns step.1
          (stack ++ [step])
    else []

variable {steps : α → List (α × β)} {x y z goal : α} {rest stack found : List (α × β)}
    {k turns : Nat}

theorem Chained.snoc {step : α × β} (chained : Chained steps x rest y) (last : step ∈ steps y) :
    Chained steps x (rest ++ [step]) step.1 := by
  induction chained with
  | nil => exact .cons last .nil
  | cons first _ ih => exact .cons first (ih last)

theorem Chained.end_mem (chained : Chained steps x rest z) (ne : rest ≠ []) :
    z ∈ rest.map Prod.fst := by
  induction chained with
  | nil => exact absurd rfl ne
  | @cons x z step rest _ later ih =>
    obtain rfl | empty := eq_or_ne rest []
    · cases later
      exact mem_cons_self
    · exact mem_cons_of_mem _ (ih empty)

structure OnStack (x : α) (stack : List (α × β)) : Prop where
  top : x ∈ stack.map Prod.fst
  once : (stack.map Prod.fst).Nodup

theorem OnStack.push {step : α × β} (on : OnStack x stack) (new : step.1 ∉ stack.map Prod.fst) :
    OnStack step.1 (stack ++ [step]) := by
  constructor
  · simp
  · rw [map_append, nodup_append]
    refine ⟨on.once, nodup_singleton _, ?_⟩
    rintro a old b single rfl
    exact new (mem_singleton.mp single ▸ old)

variable [DecidableEq α]

theorem completions_sound (on : OnStack x stack) (short : stack.length ≤ k + 1)
    (member : found ∈ completions steps goal k turns x stack) :
    ∃ rest, found = stack ++ rest ∧ Chained steps x rest goal ∧ (found.map Prod.fst).Nodup ∧
    found.length ≤ k + 1 := by
  induction turns generalizing x stack with
  | zero => cases member
  | succ turns ih =>
    rw [completions] at member
    split at member
    · rename_i arrived
      rw [mem_singleton.mp member, arrived]
      exact ⟨[], by simp, .nil, on.once, short⟩
    · split at member
      · rename_i room
        obtain ⟨step, listed, deeper⟩ := mem_flatMap.mp member
        split at deeper
        · cases deeper
        · rename_i new
          obtain ⟨rest, rfl, chained, once, bounded⟩ :=
            ih (on.push new) (by simpa using room) deeper
          exact ⟨step :: rest, by simp, .cons listed chained, once, bounded⟩
      · cases member

theorem completions_complete (on : OnStack x stack) (chained : Chained steps x rest goal)
    (once : ((stack ++ rest).map Prod.fst).Nodup) (bounded : (stack ++ rest).length ≤ k + 1)
    (enough : rest.length < turns) :
    stack ++ rest ∈ completions steps goal k turns x stack := by
  induction turns generalizing x stack rest with
  | zero => omega
  | succ turns ih =>
    rw [completions]
    cases chained with
    | nil => simp
    | @cons _ _ step rest listed later =>
      have apart := (nodup_append.mp (map_append ▸ once)).2.2
      have away : x ≠ goal := by
        rintro rfl
        exact apart x on.top x ((Chained.cons listed later).end_mem (by simp)) rfl
      have new : step.1 ∉ stack.map Prod.fst := fun old => apart step.1 old step.1 (by simp) rfl
      rw [length_append, length_cons] at bounded
      rw [if_neg away, if_pos (by omega)]
      refine mem_flatMap.mpr ⟨step, listed, ?_⟩
      rw [length_cons] at enough
      have deeper := ih (on.push new) later (by rwa [← append_cons]) (by simp; omega) (by omega)
      rw [← append_cons] at deeper
      rwa [if_neg new]

theorem completions_nodup {P : α → Prop} (distinct : ∀ x, P x → (steps x).Nodup)
    (closed : ∀ x, P x → ∀ step ∈ steps x, P step.1)
    (start : P x) (on : OnStack x stack) (short : stack.length ≤ k + 1) :
    (completions steps goal k turns x stack).Nodup := by
  induction turns generalizing x stack with
  | zero => exact nodup_nil
  | succ turns ih =>
    rw [completions]
    split
    · exact nodup_singleton _
    split_ifs with room
    · -- what continues two different steps differs behind the stack
      have next : ∀ step found, found ∈ (if step.1 ∈ stack.map Prod.fst then [] else
          completions steps goal k turns step.1 (stack ++ [step])) →
          ∃ rest, found = stack ++ step :: rest := by
        intro step found member
        split at member
        · cases member
        · rename_i new
          obtain ⟨rest, rfl, -⟩ := completions_sound (on.push new) (by simpa using room) member
          exact ⟨rest, by simp⟩
      refine nodup_flatMap.mpr ⟨fun step listed => ?_, (distinct x start).imp ?_⟩
      · split
        · exact nodup_nil
        · rename_i new
          exact ih (closed x start step listed) (on.push new) (by simpa using room)
      · intro a b ne found left right
        obtain ⟨one, rfl⟩ := next a found left
        obtain ⟨two, same⟩ := next b _ right
        exact ne (List.cons.inj (append_cancel_left same)).1
    · exact nodup_nil

end Paths

section Budget

variable {α : Type} (budget : Int)

def takeBudget (l : List α) : List α := if budget < 0 then l else l.take budget.toNat

def spend (count : Nat) : Int := if budget < 0 then budget else (budget.toNat - count : Nat)

theorem takeBudget_append (l rest : List α) :
    takeBudget budget (l ++ rest) = takeBudget budget l ++ takeBudget
    (spend budget l.length) rest := by
  unfold takeBudget spend
  split
  · rfl
  · rw [if_neg (by omega), take_append, Int.toNat_natCast]

theorem spend_add (i j : Nat) : spend budget (i + j) = spend (spend budget i) j := by
  unfold spend
  split
  · rfl
  · rw [if_neg (by omega), Int.toNat_natCast, Nat.sub_add_eq]

@[simp] theorem takeBudget_nil : takeBudget budget ([] : List α) = [] := by
  simp [takeBudget]

@[simp] theorem takeBudget_zero (l : List α) : takeBudget 0 l = [] := by
  simp [takeBudget]

theorem spend_none : spend budget 0 = budget := by
  unfold spend
  split
  · rfl
  · omega

@[simp] theorem spend_zero (count : Nat) : spend 0 count = 0 := by
  simp [spend]

end Budget

end GStore.Lib
