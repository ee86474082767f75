import Mathlib.Data.List.GetD
import Mathlib.Data.List.Induction
import Mathlib.Logic.Function.Basic

/-! A buffer filled by writes at positions: a later write goes over an earlier one at the same
position. -/
namespace GStore.Lib
open List

variable {α : Type} [Inhabited α]

def cells (writes : List (Nat × α)) : Nat → α :=
  writes.foldl (fun cells w => Function.update cells w.1 w.2) fun _ => default

/-- The buffer of `len` cells after the writes. A cell that none of them reaches is not initialised
and holds the default. -/
def written (len : Nat) (writes : List (Nat × α)) : List α := (List.range len).map (cells writes)

variable {writes : List (Nat × α)} {l : List α} {len p : Nat} {v : α}

theorem cells_concat : cells (writes ++ [(p, v)]) p = v := by
  simp [cells]

theorem cells_eq {f : Nat → α} (agree : ∀ w ∈ writes, w.2 = f w.1)
    (reached : ∃ w ∈ writes, w.1 = p) :
    cells writes p = f p := by
  induction writes using List.reverseRecOn with
  | nil => simp at reached
  | append_singleton writes w ih =>
    obtain ⟨q, x⟩ := w
    obtain rfl | other := eq_or_ne p q
    · rw [cells_concat]
      exact agree (p, x) (by simp)
    · have earlier : cells (writes ++ [(q, x)]) p = cells writes p := by
        simp [cells, Function.update_of_ne other]
      rw [earlier]
      refine ih (fun w member => agree w (mem_append_left _ member)) ?_
      obtain ⟨w, member, here⟩ := reached
      rcases mem_append.mp member with before | last
      · exact ⟨w, before, here⟩
      · rw [mem_singleton.mp last] at here
        exact absurd here.symm other

/-- Writes that agree with a list and reach all its positions fill the buffer with it. -/
theorem written_eq (agree : ∀ w ∈ writes, w.2 = l.getD w.1 default)
    (reached : ∀ p < l.length, ∃ w ∈ writes, w.1 = p) : written l.length writes = l := by
  apply ext_getElem
  · simp [written]
  · intro i _ inside
    have cell := @cells_eq α _ writes i (fun p => l.getD p default) agree (reached i inside)
    rw [getD_eq_getElem _ _ inside] at cell
    simpa [written] using cell

theorem length_written : (written len writes).length = len := by
  simp [written]

theorem getD_written (inside : p < len) : (written len writes).getD p default = cells writes p := by
  rw [getD_eq_getElem _ _ (by simpa [written] using inside)]
  simp [written]

end GStore.Lib
