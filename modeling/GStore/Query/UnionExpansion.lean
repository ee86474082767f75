import Mathlib.Tactic

/-! The expansion queue of `GeneralEvaluation::queryEvaluation`: a group with `UNION`s at its top
level becomes one group without them for every choice of branches. -/
namespace GStore
open List

/-- `other` is any sub-group-pattern but a `UNION`. -/
inductive SubGroupPattern (α : Type) where
  | other (sub : α)
  | union (unions : List (List (SubGroupPattern α)))

abbrev GroupPattern (α : Type) := List (SubGroupPattern α)

namespace GroupPattern

variable {α : Type}

def isUnion : SubGroupPattern α → Bool
  | .other _ => false
  | .union _ => true

/-- `none` where the source returns false. -/
def expanseFirstOuterUnionGroupPattern (g : GroupPattern α) : Option (List (GroupPattern α)) :=
  match g.dropWhile (!isUnion ·) with
  | .union unions :: rest =>
    some (unions.map fun branch => g.takeWhile (!isUnion ·) ++ (branch ++ rest))
  | _ => none

/-- The `while` over the queue; `none` when the fuel is gone first. -/
def expansionQueue : Nat → List (GroupPattern α) → List (GroupPattern α) →
    Option (List (GroupPattern α))
  | 0, _, _ => none
  | _ + 1, [], found => some found
  | fuel + 1, g :: queue, found =>
    match expanseFirstOuterUnionGroupPattern g with
    | some groups => expansionQueue fuel (queue ++ groups) found
    | none => expansionQueue fuel queue (found ++ [g])

mutual

/-- One group for every choice of a branch in each `UNION`, and then in the chosen branch. -/
def choices : GroupPattern α → List (GroupPattern α)
  | [] => [[]]
  | .other sub :: rest => (choices rest).map (.other sub :: ·)
  | .union unions :: rest =>
    (branchChoices unions).flatMap fun chosen => (choices rest).map (chosen ++ ·)

def branchChoices : List (GroupPattern α) → List (GroupPattern α)
  | [] => []
  | branch :: unions => choices branch ++ branchChoices unions

end

def UnionFree (g : GroupPattern α) : Prop := ∀ sub ∈ g, isUnion sub = false

variable {g : GroupPattern α} {groups : List (GroupPattern α)}

theorem branchChoices_eq (unions : List (GroupPattern α)) :
    branchChoices unions = unions.flatMap choices := by
  induction unions with
  | nil => rw [branchChoices, flatMap_nil]
  | cons branch unions ih => rw [branchChoices, ih, flatMap_cons]

theorem choices_append (a b : GroupPattern α) :
    choices (a ++ b) = (choices a).flatMap fun chosen => (choices b).map (chosen ++ ·) := by
  induction a with
  | nil => simp [choices]
  | cons sub a ih =>
    cases sub with
    | other sub => simp [choices, ih, flatMap_map, map_flatMap, Function.comp_def]
    | union unions => simp [choices, ih, flatMap_assoc, flatMap_map, map_flatMap, Function.comp_def]

theorem choices_unionFree (free : UnionFree g) : choices g = [g] := by
  induction g with
  | nil => rw [choices]
  | cons sub g ih =>
    cases sub with
    | other sub => rw [choices, ih fun x h => free x (mem_cons_of_mem _ h), map_singleton]
    | union unions => cases free _ mem_cons_self

theorem sizeOf_append (a b : GroupPattern α) : sizeOf (a ++ b) + 1 = sizeOf a + sizeOf b := by
  induction a with
  | nil => simp; omega
  | cons sub a ih => simp only [cons_append, cons.sizeOf_spec]; omega

theorem expanse_union (unions : List (GroupPattern α)) :
    expanseFirstOuterUnionGroupPattern (.union unions :: g) = some (unions.map (· ++ g)) := by
  simp [expanseFirstOuterUnionGroupPattern, isUnion]

theorem expanse_other (sub : α) : expanseFirstOuterUnionGroupPattern (.other sub :: g) =
    (expanseFirstOuterUnionGroupPattern g).map (·.map (.other sub :: ·)) := by
  simp only [expanseFirstOuterUnionGroupPattern, isUnion, dropWhile_cons, takeWhile_cons,
      Bool.not_false, if_true]
  split <;> simp

theorem unionFree_of_none (last : expanseFirstOuterUnionGroupPattern g = none) : UnionFree g := by
  induction g with
  | nil => exact fun _ h => absurd h not_mem_nil
  | cons sub g ih =>
    cases sub with
    | other sub =>
      rw [expanse_other, Option.map_eq_none_iff] at last
      exact forall_mem_cons.mpr ⟨rfl, ih last⟩
    | union unions =>
      rw [expanse_union] at last
      cases last

theorem expanse_some (more : expanseFirstOuterUnionGroupPattern g = some groups) :
    choices g = groups.flatMap choices ∧ ∀ h ∈ groups, sizeOf h < sizeOf g := by
  induction g generalizing groups with
  | nil => cases more
  | cons sub g ih =>
    cases sub with
    | other sub =>
      rw [expanse_other] at more
      obtain ⟨groups, found, rfl⟩ := Option.map_eq_some_iff.mp more
      obtain ⟨same, smaller⟩ := ih found
      refine ⟨by simp [choices, same, flatMap_map, map_flatMap], fun h inside => ?_⟩
      obtain ⟨shorter, there, rfl⟩ := mem_map.mp inside
      simpa using smaller shorter there
    | union unions =>
      rw [expanse_union] at more
      cases more
      refine ⟨by simp [choices, branchChoices_eq, flatMap_map, flatMap_assoc, choices_append], fun h inside => ?_⟩
      obtain ⟨branch, there, rfl⟩ := mem_map.mp inside
      have smaller := sizeOf_lt_of_mem there
      have joined := sizeOf_append branch g
      simp only [cons.sizeOf_spec, SubGroupPattern.union.sizeOf_spec]
      omega

def children (g : GroupPattern α) : List (GroupPattern α) :=
  (expanseFirstOuterUnionGroupPattern g).getD []

def finished (q : List (GroupPattern α)) : List (GroupPattern α) :=
  q.filter fun g => (expanseFirstOuterUnionGroupPattern g).isNone

/-- All that is in the queue now is taken out of it. -/
theorem expansionQueue_round (fuel : Nat) (q tail found : List (GroupPattern α)) :
    expansionQueue (fuel + q.length) (q ++ tail) found =
      expansionQueue fuel (tail ++ q.flatMap children) (found ++ finished q) := by
  induction q generalizing tail found with
  | nil => simp [finished]
  | cons g q ih =>
    rw [length_cons, ← Nat.add_assoc, cons_append, expansionQueue]
    cases expanded : expanseFirstOuterUnionGroupPattern g with
    | some groups => simp [append_assoc, ih, children, finished, expanded]
    | none => simp [ih, children, finished, expanded]

theorem choices_round (q : List (GroupPattern α)) :
    (finished q ++ (q.flatMap children).flatMap choices).Perm (q.flatMap choices) := by
  induction q with
  | nil => simp [finished]
  | cons g q ih =>
    cases expanded : expanseFirstOuterUnionGroupPattern g with
    | some groups =>
      simp only [finished, filter_cons, expanded, flatMap_cons, children, flatMap_append,
          (expanse_some expanded).1]
      exact perm_append_comm_assoc .. |>.trans (ih.append_left _)
    | none =>
      simp only [finished, filter_cons, expanded, flatMap_cons, children,
          choices_unionFree (unionFree_of_none expanded)]
      exact ih.cons g

theorem expansionQueue_spec {n : Nat} (q : List (GroupPattern α)) (small : ∀ g ∈ q, sizeOf g < n) :
    ∃ turns result, (∀ fuel > turns, ∀ found, expansionQueue fuel q found = some (found ++ result))
    ∧
      result.Perm (q.flatMap choices) ∧ ∀ g ∈ result, UnionFree g := by
  induction n generalizing q with
  | zero =>
    obtain rfl : q = [] := eq_nil_iff_forall_not_mem.mpr fun g h => by simpa using small g h
    refine ⟨0, [], fun fuel positive found => ?_, by simp, by simp⟩
    obtain ⟨k, rfl⟩ : ∃ k, fuel = k + 1 := ⟨fuel - 1, by omega⟩
    rw [expansionQueue, append_nil]
  | succ n ih =>
    obtain ⟨turns, result, ends, same, free⟩ := ih (q.flatMap children) fun g h => by
      obtain ⟨parent, inside, h⟩ := mem_flatMap.mp h
      rw [children] at h
      cases expanded : expanseFirstOuterUnionGroupPattern parent with
      | none => simp [expanded] at h
      | some groups =>
        rw [expanded, Option.getD_some] at h
        exact ((expanse_some expanded).2 g h).trans_le (Nat.le_of_lt_succ (small parent inside))
    refine ⟨turns + q.length, finished q ++ result, fun fuel enough found => ?_, ?_, fun g h => ?_⟩
    · obtain ⟨k, rfl⟩ : ∃ k, fuel = k + q.length := ⟨fuel - q.length, by omega⟩
      have round := expansionQueue_round k q [] found
      rw [append_nil] at round
      rw [round, nil_append, ends k (by omega), append_assoc]
    · exact (same.append_left _).trans (choices_round q)
    · rcases mem_append.mp h with h | h
      · exact unionFree_of_none (Option.isNone_iff_eq_none.mp (mem_filter.mp h).2)
      · exact free g h

/-- The choices of a group, each once, after finitely many turns of the queue. -/
theorem expansion_exact (g : GroupPattern α) :
    ∃ turns result, (∀ fuel > turns, expansionQueue fuel [g] [] = some result) ∧
    result.Perm (choices g) ∧
      ∀ h ∈ result, UnionFree h := by
  obtain ⟨turns, result, ends, same, free⟩ := @expansionQueue_spec α (sizeOf g + 1) [g] (by simp)
  exact ⟨turns, result, fun fuel enough => ends fuel enough [], by simpa using same, free⟩

end GroupPattern

end GStore
