import Mathlib.Tactic

/-! Conjunctive queries: lists of atoms over variables and constants, their solutions in an
instance, and when every solution of one query gives a solution of another. -/
namespace GStore.Lib
open List

inductive Arg (V C : Type) where
  | var (x : V)
  | const (c : C)
  deriving DecidableEq

variable {V W C : Type}

namespace Arg

def eval (σ : V → C) : Arg V C → C
  | .var x => σ x
  | .const c => c

def subst (h : V → Arg W C) : Arg V C → Arg W C
  | .var x => h x
  | .const c => .const c

theorem eval_subst (h : V → Arg W C) (σ : W → C) (i : Arg V C) :
    (i.subst h).eval σ = i.eval fun x => (h x).eval σ := by
  cases i <;> rfl

end Arg

def Solves (σ : V → C) (atoms : List (List (Arg V C))) (instance' : Set (List C)) : Prop :=
  ∀ atom ∈ atoms, atom.map (Arg.eval σ) ∈ instance'

def MapsInto (h : V → Arg W C) (as : List (List (Arg V C))) (bs : List (List (Arg W C))) : Prop :=
  ∀ atom ∈ as, atom.map (Arg.subst h) ∈ bs

variable {as : List (List (Arg V C))} {bs : List (List (Arg W C))}

theorem MapsInto.solves {h : V → Arg W C} (maps : MapsInto h as bs) {τ : W → C}
    {instance' : Set (List C)}
    (solves : Solves τ bs instance') : Solves (fun x => (h x).eval τ) as instance' := by
  intro atom there
  have mapped := solves _ (maps atom there)
  rw [map_map] at mapped
  have same : Arg.eval τ ∘ Arg.subst h = Arg.eval fun x => (h x).eval τ :=
    funext fun i => Arg.eval_subst h τ i
  rwa [same] at mapped

section Frozen

variable [DecidableEq C] {ws : List W} {freeze : W → C}

def thaw (ws : List W) (freeze : W → C) (c : C) : Arg W C :=
  match ws.find? fun w => decide (freeze w = c) with
  | some w => .var w
  | none => .const c

/-- `freeze` gives the variables `ws` different values, none of which is a constant of the query. -/
structure Freezes (ws : List W) (freeze : W → C) (constants : Set C) : Prop where
  inj : ∀ w ∈ ws, ∀ w' ∈ ws, freeze w = freeze w' → w = w'
  fresh : ∀ w ∈ ws, freeze w ∉ constants

variable {constants : Set C}

variable (freezes : Freezes ws freeze constants)
include freezes

theorem thaw_freeze {w : W} (there : w ∈ ws) : thaw ws freeze (freeze w) = .var w := by
  unfold thaw
  cases found : ws.find? fun w' => decide (freeze w' = freeze w) with
  | none =>
    have no := find?_eq_none.mp found w there
    simp at no
  | some w' =>
    have same : freeze w' = freeze w := by simpa using find?_some found
    rw [freezes.inj w' (mem_of_find?_eq_some found) w there same]

theorem thaw_const {c : C} (constant : c ∈ constants) : thaw ws freeze c = .const c := by
  unfold thaw
  cases found : ws.find? fun w' => decide (freeze w' = c) with
  | none => rfl
  | some w' =>
    have same : freeze w' = c := by simpa using find?_some found
    exact absurd (same ▸ constant) (freezes.fresh w' (mem_of_find?_eq_some found))

/-- The variables of the atoms are among `ws` and the constants among `constants`. -/
def ArgsWithin (ws : List W) (constants : Set C) (atoms : List (List (Arg W C))) : Prop :=
  ∀ atom ∈ atoms, ∀ i ∈ atom, match i with
    | .var w => w ∈ ws
    | .const c => c ∈ constants

theorem mapsInto_of_solves (within : ArgsWithin ws constants bs)
    (known : ∀ atom ∈ as, ∀ c, Arg.const c ∈ atom → c ∈ constants) {σ : V → C}
    (solves : Solves σ as { tuple | ∃ atom ∈ bs, tuple = atom.map (Arg.eval freeze) }) :
    MapsInto (fun x => thaw ws freeze (σ x)) as bs := by
  intro a inA
  obtain ⟨b, inB, same⟩ := solves a inA
  have equal : a.map (Arg.subst fun x => thaw ws freeze (σ x)) = b := by
    have lengths : a.length = b.length := by simpa using congrArg List.length same
    refine ext_getElem (by simpa using lengths) fun n insideA insideB => ?_
    rw [getElem_map]
    have here : (a.map (Arg.eval σ))[n]? = (b.map (Arg.eval freeze))[n]? := by rw [same]
    rw [length_map] at insideA
    rw [getElem?_map, getElem?_map, getElem?_eq_getElem insideA,
        getElem?_eq_getElem insideB] at here
    have values : (a[n]).eval σ = (b[n]).eval freeze := Option.some.inj here
    have inside := within b inB _ (getElem_mem insideB)
    have constant := known a inA
    have memberA := getElem_mem insideA
    cases left : a[n] with
    | var x =>
      rw [left] at values
      cases right : b[n] with
      | var w =>
        rw [right] at values inside
        have value : σ x = freeze w := values
        rw [Arg.subst, value, thaw_freeze freezes inside]
      | const c =>
        rw [right] at values inside
        have value : σ x = c := values
        rw [Arg.subst, value, thaw_const freezes inside]
    | const c =>
      rw [left] at values memberA
      cases right : b[n] with
      | var w =>
        rw [right] at values inside
        have value : c = freeze w := values
        exact absurd (value ▸ constant c memberA) (freezes.fresh w inside)
      | const c' =>
        rw [right] at values
        have value : c = c' := values
        rw [Arg.subst, value]
  rw [equal]
  exact inB

end Frozen

end GStore.Lib
