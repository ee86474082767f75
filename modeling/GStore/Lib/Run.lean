import Mathlib.Tactic

/-! Runs of a partial step function, and the induction rules used for them: an invariant of every
run, and for runs whose steps meet a guard an invariant, a refinement and a simulation of one step
function by another. -/
namespace GStore.Lib
open List

variable {σ τ α : Type}

def run (step : σ → α → Option σ) : σ → List α → Option σ
  | s, [] => some s
  | s, a :: as => (step s a).bind fun t => run step t as

variable {step : σ → α → Option σ} {as : List α}

theorem run_cons {s t : σ} {a : α} :
    run step s (a :: as) = some t ↔ ∃ r, step s a = some r ∧ run step r as = some t := by
  simp [run, Option.bind_eq_some_iff]

theorem run_append {s t : σ} {as bs : List α} :
    run step s (as ++ bs) = some t ↔ ∃ r, run step s as = some r ∧ run step r bs = some t := by
  induction as generalizing s with
  | nil => simp [run]
  | cons a as ih =>
    rw [cons_append, run_cons]
    constructor
    · rintro ⟨r, first, rest⟩
      obtain ⟨q, middle, last⟩ := ih.mp rest
      exact ⟨q, run_cons.mpr ⟨r, first, middle⟩, last⟩
    · rintro ⟨q, left, last⟩
      obtain ⟨r, first, middle⟩ := run_cons.mp left
      exact ⟨r, first, ih.mpr ⟨q, middle, last⟩⟩

theorem run_invariant {step : σ → α → Option σ} {Inv : σ → Prop}
    (keeps : ∀ s a t, Inv s → step s a = some t → Inv t) {s t : σ} {as : List α}
    (start : Inv s) (done : run step s as = some t) : Inv t := by
  induction as generalizing s with
  | nil => exact Option.some.inj done ▸ start
  | cons a as ih =>
    obtain ⟨r, first, rest⟩ := run_cons.mp done
    exact ih (keeps s a r start first) rest

variable {s : σ}

def Guarded (step : σ → α → Option σ) (guard : σ → α → Prop) : σ → List α → Prop
  | _, [] => True
  | s, a :: as => guard s a ∧ ∀ t, step s a = some t → Guarded step guard t as

instance Guarded.decidable {step : σ → α → Option σ} {guard : σ → α → Prop}
    [∀ s a, Decidable (guard s a)] :
    ∀ (s : σ) (as : List α), Decidable (Guarded step guard s as)
  | _, [] => isTrue trivial
  | s, a :: as =>
    match taken : step s a with
    | none =>
      decidable_of_iff (guard s a)
      ⟨fun met => ⟨met, fun t same => by simp [taken] at same⟩, And.left⟩
    | some t =>
      have := @Guarded.decidable step guard _ t as
      decidable_of_iff (guard s a ∧ Guarded step guard t as)
        ⟨fun met => ⟨met.1, fun r same => Option.some.inj (taken.symm.trans same) ▸ met.2⟩,
          fun met => ⟨met.1, met.2 t taken⟩⟩

variable {guard : σ → α → Prop}

theorem Guarded.take (met : Guarded step guard s as) (n : Nat) :
    Guarded step guard s (as.take n) := by
  induction as generalizing s n with
  | nil => simpa using met
  | cons a as ih =>
    cases n with
    | zero => trivial
    | succ n => exact ⟨met.1, fun t first => ih (met.2 t first) n⟩

theorem Guarded.next {s t : σ} {n : Nat} {a : α}
    (met : Guarded step guard s as) (reached : run step s (as.take n) = some t)
    (next : as[n]? = some a) : guard t a := by
  induction as generalizing s n with
  | nil => simp at next
  | cons b as ih =>
    cases n with
    | zero =>
      cases Option.some.inj reached
      cases Option.some.inj next
      exact met.1
    | succ n =>
      obtain ⟨r, first, rest⟩ := run_cons.mp reached
      exact ih (met.2 r first) rest next

theorem Guarded.invariant {Inv : σ → Prop}
    (keeps : ∀ s a t, Inv s → guard s a → step s a = some t → Inv t) {s t : σ}
    (met : Guarded step guard s as) (start : Inv s) (done : run step s as = some t) : Inv t := by
  induction as generalizing s with
  | nil => exact Option.some.inj done ▸ start
  | cons a as ih =>
    obtain ⟨r, first, rest⟩ := run_cons.mp done
    exact ih (met.2 r first) (keeps s a r start met.1 first) rest

theorem run_guarded {Inv : σ → Prop}
    (keeps : ∀ s a, Inv s → guard s a → ∃ t, step s a = some t ∧ Inv t)
    (start : Inv s) (met : Guarded step guard s as) : ∃ t, run step s as = some t ∧ Inv t := by
  induction as generalizing s with
  | nil => exact ⟨s, rfl, start⟩
  | cons a as ih =>
    obtain ⟨r, first, kept⟩ := keeps s a start met.1
    obtain ⟨t, rest, final⟩ := ih kept (met.2 r first)
    exact ⟨t, run_cons.mpr ⟨r, first, rest⟩, final⟩

theorem Guarded.simulation {abstract : τ → α → Option τ} {Rel : σ → τ → Prop}
    (matched : ∀ s t a t', Rel s t → guard s a → abstract t a = some t' → ∃ s', step s a = some s' ∧
      Rel s' t')
    {t t' : τ} (met : Guarded step guard s as) (start : Rel s t)
    (done : run abstract t as = some t') :
    ∃ s', run step s as = some s' ∧ Rel s' t' := by
  induction as generalizing s t with
  | nil => exact ⟨s, rfl, Option.some.inj done ▸ start⟩
  | cons a as ih =>
    obtain ⟨r, first, rest⟩ := run_cons.mp done
    obtain ⟨q, taken, related⟩ := matched s t a r start met.1 first
    obtain ⟨s', last, final⟩ := ih (met.2 q taken) related rest
    exact ⟨s', run_cons.mpr ⟨q, taken, last⟩, final⟩

theorem Guarded.and_mem {P : α → Prop}
    (met : Guarded step guard s as) (all : ∀ a ∈ as, P a) :
    Guarded step (fun s a => guard s a ∧ P a) s as := by
  induction as generalizing s with
  | nil => trivial
  | cons a as ih =>
    exact ⟨⟨met.1, all a mem_cons_self⟩, fun t first => ih (met.2 t first) fun b there =>
        all b (mem_cons_of_mem a there)⟩

theorem run_refines {effect : τ → α → τ} {Rel : σ → τ → Prop}
    (matched : ∀ s t a, Rel s t → guard s a → ∃ s', step s a = some s' ∧ Rel s' (effect t a))
    {t : τ}
    (start : Rel s t) (met : Guarded step guard s as) :
    ∃ s', run step s as = some s' ∧ Rel s' (as.foldl effect t) := by
  induction as generalizing s t with
  | nil => exact ⟨s, rfl, start⟩
  | cons a as ih =>
    obtain ⟨r, first, related⟩ := matched s t a start met.1
    obtain ⟨s', rest, final⟩ := ih related (met.2 r first)
    exact ⟨s', run_cons.mpr ⟨r, first, rest⟩, final⟩

theorem mapM_eq_map {β : Type} {f : α → Option β} {g : α → β} (all : ∀ a ∈ as, f a = some (g a)) :
    as.mapM f = some (as.map g) := by
  induction as with
  | nil => rfl
  | cons a as ih =>
    rw [mapM_cons, all a mem_cons_self, ih fun b later => all b (mem_cons_of_mem a later)]
    rfl

theorem mapM_eq_some_iff {β : Type} {f : α → Option β} :
    (∃ bs, as.mapM f = some bs) ↔ ∀ a ∈ as, f a ≠ none := by
  induction as with
  | nil => simp
  | cons a as ih =>
    rw [mapM_cons, forall_mem_cons, ← ih]
    cases f a with
    | none => simp
    | some b =>
      cases as.mapM f with
      | none => simp
      | some bs => simp

end GStore.Lib
