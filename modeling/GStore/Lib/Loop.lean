import Mathlib.Tactic

/-! A `while` loop with a bound on its turns, and the rule that it ends with its invariant. -/
namespace GStore.Lib

variable {σ : Type}

/-- `body` is `none` when the condition of the loop does not hold. The result is `none` if the turns
do not suffice. -/
def loop (body : σ → Option σ) : Nat → σ → Option σ
  | 0, _ => none
  | turns + 1, s =>
    match body s with
    | none => some s
    | some t => loop body turns t

theorem loop_ends {body : σ → Option σ} {Inv : σ → Prop} {left : σ → Nat}
    (turn : ∀ s t, Inv s → body s = some t → Inv t ∧ left t < left s) {s : σ} (start : Inv s)
    {turns : Nat}
    (enough : left s < turns) : ∃ t, loop body turns s = some t ∧ Inv t ∧ body t = none := by
  induction turns generalizing s with
  | zero => omega
  | succ turns ih =>
    rw [loop]
    cases next : body s with
    | none => exact ⟨s, rfl, start, next⟩
    | some t =>
      obtain ⟨kept, less⟩ := turn s t start next
      exact ih kept (by omega)

theorem loop_counts {body : σ → Option σ} {Inv : Nat → σ → Prop} {bound : Nat}
    (turn : ∀ i s t, Inv i s → body s = some t → Inv (i + 1) t ∧ i < bound) {s : σ}
    (start : Inv 0 s) {turns : Nat}
    (enough : bound < turns) : ∃ i t, loop body turns s = some t ∧ Inv i t ∧ body t = none := by
  have general : ∀ turns i s, Inv i s → i ≤ bound → bound < turns + i →
      ∃ i t, loop body turns s = some t ∧ Inv i t ∧ body t = none := by
    intro turns
    induction turns with
    | zero =>
      intro i s kept below more
      omega
    | succ turns ih =>
      intro i s kept below more
      rw [loop]
      cases next : body s with
      | none => exact ⟨i, s, rfl, kept, next⟩
      | some t =>
        obtain ⟨after, less⟩ := turn i s t kept next
        exact ih (i + 1) t after less (by omega)
  exact general turns 0 s start (Nat.zero_le _) enough

end GStore.Lib
