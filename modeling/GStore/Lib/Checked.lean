import Mathlib.Tactic

/-! Loops over arrays with accesses that may be out of bounds, or that may run out of turns.
`InBounds x P` says that `x` makes no access out of bounds and that a result of it meets `P`; there
is one rule for each way to compose such computations. -/
namespace GStore.Lib
open List

inductive Fault where
  | outOfBounds
  | outOfTurns
  deriving DecidableEq, Repr

/-- `xs[i]` of a vector, with an index of type `int`. -/
def readAt {α : Type} (xs : List α) (i : Int) : Except Fault α :=
  if h : 0 ≤ i ∧ i.toNat < xs.length then .ok (xs.get ⟨i.toNat, h.2⟩) else .error .outOfBounds

def writeAt {α : Type} (xs : List α) (i : Int) (a : α) : Except Fault (List α) :=
  if 0 ≤ i ∧ i.toNat < xs.length then .ok (xs.set i.toNat a) else .error .outOfBounds

variable {α β : Type}

def InBounds (x : Except Fault α) (P : α → Prop) : Prop :=
  match x with
  | .ok a => P a
  | .error e => e ≠ .outOfBounds

variable {P : α → Prop}

theorem inBounds_ok {a : α} (met : P a) : InBounds (.ok a) P := met

theorem inBounds_outOfTurns : InBounds (.error .outOfTurns) P := fun same => by cases same

variable {x : Except Fault α}

theorem InBounds.bind {f : α → Except Fault β} {Q : β → Prop} (first : InBounds x P)
    (second : ∀ a, P a → InBounds (f a) Q) : InBounds (x >>= f) Q := by
  cases x with
  | ok a => exact second a first
  | error e => exact first

theorem InBounds.ne_outOfBounds (safe : InBounds x P) : x ≠ .error .outOfBounds := by
  rintro rfl
  exact safe rfl

theorem inBounds_foldlM {f : β → α → Except Fault β} {P : β → Prop} {as : List α} {b : β}
    (start : P b)
    (turn : ∀ b, ∀ a ∈ as, P b → InBounds (f b a) P) : InBounds (as.foldlM f b) P := by
  induction as generalizing b with
  | nil => exact inBounds_ok start
  | cons a as ih =>
    rw [foldlM_cons]
    refine (turn b a mem_cons_self start).bind fun b kept => ih kept fun b c later => ?_
    exact turn b c (mem_cons_of_mem a later)

variable {xs : List α} {i : Int}

theorem inBounds_readAt (nonneg : 0 ≤ i) (below : i < xs.length) :
    InBounds (readAt xs i) fun a => a ∈ xs := by
  have inside : 0 ≤ i ∧ i.toNat < xs.length := ⟨nonneg, by omega⟩
  rw [readAt, dif_pos inside]
  exact inBounds_ok (get_mem _ _)

theorem inBounds_writeAt {a : α} (nonneg : 0 ≤ i) (below : i < xs.length) :
    InBounds (writeAt xs i a) fun ys => ys.length = xs.length := by
  rw [writeAt, if_pos ⟨nonneg, by omega⟩]
  exact inBounds_ok (length_set ..)

/-- A vector of length `n` with the values of `f`. -/
structure Tabulates (xs : List α) (n : Nat) (f : Int → α) : Prop where
  length : xs.length = n
  read : ∀ i : Int, 0 ≤ i → i < n → readAt xs i = .ok (f i)

theorem tabulates_replicate (n : Nat) (a : α) : Tabulates (List.replicate n a) n fun _ => a where
  length := length_replicate
  read i nonneg below := by
    rw [readAt, dif_pos ⟨nonneg, by rw [length_replicate]; omega⟩]
    simp

theorem Tabulates.write {n : Nat} {f : Int → α} (table : Tabulates xs n f) (nonneg : 0 ≤ i)
    (below : i < n) (a : α) :
    ∃ ys, writeAt xs i a = .ok ys ∧ Tabulates ys n (Function.update f i a) := by
  have length := table.length
  refine ⟨xs.set i.toNat a, by rw [writeAt, if_pos ⟨nonneg, by omega⟩], (length_set ..).trans length, ?_⟩
  intro j positive less
  have inside : 0 ≤ j ∧ j.toNat < (xs.set i.toNat a).length := ⟨positive, by rw [length_set]; omega⟩
  rw [readAt, dif_pos inside]
  have old := table.read j positive less
  rw [readAt, dif_pos ⟨positive, by omega⟩] at old
  obtain rfl | same := eq_or_ne j i
  · simp
  · have apart : i.toNat ≠ j.toNat := by omega
    rw [Function.update_of_ne same, ← old]
    simp [getElem_set_of_ne apart]

end GStore.Lib
