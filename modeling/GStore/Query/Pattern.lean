import GStore.Lib.Conjunctive

/-! Triple patterns over a store of id triples: their solutions, found by matching one triple after
the other, and the join of two results on their common variables. A row assigns ids to variables;
the columns that the code keeps rows in, and `doJoin` on them, are those of `Results.TempResult`. -/
namespace GStore

open Lib List

/-- A constant carries its id; it has none when the dictionaries do not hold the term. -/
structure TriplePattern (V : Type) where
  subject : Arg V (Option Nat)
  predicate : Arg V (Option Nat)
  object : Arg V (Option Nat)
  deriving DecidableEq

abbrev Binding (V : Type) := V → Option Nat

namespace Lib.Arg

variable {V C : Type}

def vars : Arg V C → List V
  | .var x => [x]
  | .const _ => []

theorem eval_congr {i : Arg V C} {σ τ : V → C} (same : ∀ x ∈ i.vars, σ x = τ x) :
    i.eval σ = i.eval τ := by
  cases i with
  | var x => exact same x mem_cons_self
  | const c => rfl

end Lib.Arg

variable {V : Type}

namespace TriplePattern

variable (p : TriplePattern V)

def atom : List (Arg V (Option Nat)) := [p.subject, p.predicate, p.object]

def subjectObjectVars : List V := p.subject.vars ++ p.object.vars

def vars : List V := p.atom.flatMap Arg.vars

def rename {W : Type} (f : V → W) (p : TriplePattern V) : TriplePattern W :=
  ⟨p.subject.subst fun x => .var (f x), p.predicate.subst fun x => .var (f x),
      p.object.subst fun x => .var (f x)⟩

def Unknown : Prop := Arg.const none ∈ p.atom

instance [DecidableEq V] (p : TriplePattern V) : Decidable p.Unknown :=
  inferInstanceAs (Decidable (_ ∈ _))

end TriplePattern

def patternVars (ps : List (TriplePattern V)) : List V := ps.flatMap TriplePattern.vars

def atoms (ps : List (TriplePattern V)) : List (List (Arg V (Option Nat))) :=
  ps.map TriplePattern.atom

def tuples (store : List (Nat × Nat × Nat)) : Set (List (Option Nat)) :=
  { tuple | ∃ t ∈ store, tuple = [some t.1, some t.2.1, some t.2.2] }

section Matching

variable [DecidableEq V]

def bindArg (row : Binding V) (i : Arg V (Option Nat)) (id : Nat) : Option (Binding V) :=
  match i with
  | .const c => if c = some id then some row else none
  | .var x =>
    match row x with
    | none => some (Function.update row x (some id))
    | some bound => if bound = id then some row else none

def bindArgs (row : Binding V) : List (Arg V (Option Nat) × Nat) → Option (Binding V)
  | [] => some row
  | (i, id) :: rest => (bindArg row i id).bind fun row => bindArgs row rest

def matchTriple (row : Binding V) (p : TriplePattern V) (t : Nat × Nat × Nat) :
    Option (Binding V) :=
  bindArgs row [(p.subject, t.1), (p.predicate, t.2.1), (p.object, t.2.2)]

def solutionsFrom (store : List (Nat × Nat × Nat)) :
    Binding V → List (TriplePattern V) → List (Binding V)
  | row, [] => [row]
  | row, p :: ps =>
    (store.filterMap (matchTriple row p)).flatMap fun row => solutionsFrom store row ps

def solutions (store : List (Nat × Nat × Nat)) (ps : List (TriplePattern V)) : List (Binding V) :=
  solutionsFrom store (fun _ => none) ps

end Matching

/-- `new` keeps what `row` binds and binds only variables of `xs` besides. -/
def Binds (row new : Binding V) (xs : List V) : Prop := ∀ x, new x = row x ∨ (row x = none ∧ x ∈ xs)

variable {row new : Binding V}

theorem Binds.nil_iff : Binds row new [] ↔ new = row := by
  constructor
  · intro binds
    funext x
    exact (binds x).resolve_right (by simp)
  · rintro rfl x
    exact Or.inl rfl

variable {xs : List V} {i : Arg V (Option Nat)}

theorem Binds.eval_eq (binds : Binds row new xs) {id : Nat}
    (value : i.eval row = some id) : i.eval new = some id := by
  cases i with
  | const c => exact value
  | var x =>
    rcases binds x with same | ⟨unbound, _⟩
    · exact same.trans value
    · rw [Arg.eval, unbound] at value
      cases value

variable [DecidableEq V]

theorem bindArg_iff {id : Nat} : bindArg row i id = some new ↔ i.eval new = some id ∧
    Binds row new i.vars := by
  cases i with
  | const c =>
    simp only [bindArg, Option.ite_none_right_eq_some, Option.some.injEq, Arg.eval, Arg.vars,
        Binds.nil_iff]
    exact and_congr_right fun _ => eq_comm
  | var x =>
    simp only [bindArg, Arg.eval, Arg.vars]
    cases bound : row x with
    | none =>
      simp only [Option.some.injEq]
      constructor
      · rintro rfl
        refine ⟨Function.update_self .., fun y => ?_⟩
        by_cases same : y = x
        · exact Or.inr ⟨same ▸ bound, by simp [same]⟩
        · exact Or.inl (Function.update_of_ne same ..)
      · rintro ⟨value, binds⟩
        funext y
        by_cases same : y = x
        · rw [same, Function.update_self, value]
        · rw [Function.update_of_ne same]
          exact ((binds y).resolve_right fun right => same (by simpa using right.2)).symm
    | some old =>
      simp only [Option.ite_none_right_eq_some, Option.some.injEq]
      constructor
      · rintro ⟨rfl, rfl⟩
        exact ⟨bound, fun y => Or.inl rfl⟩
      · rintro ⟨value, binds⟩
        have unchanged : new = row := by
          funext y
          refine (binds y).resolve_right fun right => ?_
          have same : y = x := by simpa using right.2
          rw [same, bound] at right
          cases right.1
        rw [unchanged, bound] at value
        exact ⟨Option.some.inj value, unchanged.symm⟩

theorem bind_steps (row new : Binding V) (xs ys : List V) (P Q : Binding V → Prop)
    (stays : ∀ {mid new zs}, Binds mid new zs → P mid → P new)
    (local' : ∀ {mid new}, (∀ x ∈ xs, mid x = new x) → P new → P mid) :
    (∃ mid, (P mid ∧ Binds row mid xs) ∧ Q new ∧ Binds mid new ys) ↔ (P new ∧ Q new) ∧
    Binds row new (xs ++ ys) := by
  constructor
  · rintro ⟨mid, ⟨left, first⟩, right, second⟩
    refine ⟨⟨stays second left, right⟩, fun x => ?_⟩
    rcases second x with same | ⟨unbound, inside⟩
    · rw [same]
      exact (first x).imp_right fun right => ⟨right.1, mem_append_left _ right.2⟩
    · rcases first x with same | ⟨none, _⟩
      · exact Or.inr ⟨same ▸ unbound, mem_append_right _ inside⟩
      · exact Or.inr ⟨none, mem_append_right _ inside⟩
  · rintro ⟨⟨left, right⟩, binds⟩
    let mid : Binding V := fun x => if x ∈ xs then new x else row x
    refine ⟨mid, ⟨local' (fun x inside => if_pos inside) left, fun x => ?_⟩, right, fun x => ?_⟩
    · by_cases inside : x ∈ xs
      · rw [show mid x = new x from if_pos inside]
        exact (binds x).imp_right fun right => ⟨right.1, inside⟩
      · exact Or.inl (if_neg inside)
    · by_cases inside : x ∈ xs
      · exact Or.inl (if_pos inside).symm
      · rw [show mid x = row x from if_neg inside]
        exact (binds x).imp_right fun right =>
          ⟨right.1, (mem_append.mp right.2).resolve_left inside⟩

theorem bindArgs_iff {pairs : List (Arg V (Option Nat) × Nat)} : bindArgs row pairs = some new ↔
      (∀ pair ∈ pairs, pair.1.eval new = some pair.2) ∧
      Binds row new (pairs.flatMap fun pair => pair.1.vars) := by
  induction pairs generalizing row with
  | nil =>
    rw [bindArgs, Option.some.injEq, flatMap_nil, Binds.nil_iff]
    simp [eq_comm]
  | cons pair pairs ih =>
    obtain ⟨i, id⟩ := pair
    have steps := bind_steps row new i.vars (pairs.flatMap fun pair => pair.1.vars)
      (fun row => i.eval row = some id)
      (fun row => ∀ pair ∈ pairs, pair.1.eval row = some pair.2)
      (fun binds value => binds.eval_eq value)
      fun same value => (Arg.eval_congr same).trans value
    rw [bindArgs, Option.bind_eq_some_iff, flatMap_cons, forall_mem_cons, ← steps]
    simp [bindArg_iff, ih]

variable {p : TriplePattern V}

theorem matchTriple_iff {t : Nat × Nat × Nat} : matchTriple row p t = some new ↔
      p.atom.map (Arg.eval new) = [some t.1, some t.2.1, some t.2.2] ∧ Binds row new p.vars := by
  rw [matchTriple, bindArgs_iff]
  simp [TriplePattern.atom, TriplePattern.vars]

variable {ps : List (TriplePattern V)} {store : List (Nat × Nat × Nat)}

theorem solutionsFrom_iff :
    new ∈ solutionsFrom store row ps ↔ Solves new (atoms ps) (tuples store) ∧
    Binds row new (patternVars ps) := by
  induction ps generalizing row with
  | nil =>
    rw [solutionsFrom, mem_singleton, patternVars, flatMap_nil, Binds.nil_iff]
    simp [Solves, atoms]
  | cons p ps ih =>
    have steps := bind_steps row new p.vars (patternVars ps)
      (fun row => p.atom.map (Arg.eval row) ∈ tuples store)
      (fun row => Solves row (atoms ps) (tuples store)) ?_ ?_
    · have here : ∀ mid, (∃ t ∈ store, matchTriple row p t = some mid) ↔
          p.atom.map (Arg.eval mid) ∈ tuples store ∧ Binds row mid p.vars := by
        intro mid
        simp [matchTriple_iff, tuples, ← and_assoc, exists_and_right]
      have both : Solves new (atoms (p :: ps)) (tuples store) ↔
          p.atom.map (Arg.eval new) ∈ tuples store ∧ Solves new (atoms ps) (tuples store) :=
          forall_mem_cons
      have vars : patternVars (p :: ps) = p.vars ++ patternVars ps := flatMap_cons
      rw [solutionsFrom, mem_flatMap, both, vars, ← steps]
      simp [mem_filterMap, here, ih]
    · -- a matched atom keeps its ids when more is bound
      rintro mid new zs binds ⟨t, there, same⟩
      refine ⟨t, there, ?_⟩
      simp only [TriplePattern.atom, map_cons, map_nil, List.cons.injEq, and_true] at same ⊢
      exact ⟨binds.eval_eq same.1, binds.eval_eq same.2.1, binds.eval_eq same.2.2⟩
    · intro mid new same there
      have values : p.atom.map (Arg.eval mid) = p.atom.map (Arg.eval new) := by
        refine map_congr_left fun i inside => Arg.eval_congr fun x occurs => same x ?_
        exact mem_flatMap.mpr ⟨i, inside, occurs⟩
      rwa [values]

theorem mem_solutions :
    row ∈ solutions store ps ↔ Solves row (atoms ps) (tuples store) ∧ ∀ x, x ∉ patternVars ps →
    row x = none := by
  rw [solutions, solutionsFrom_iff]
  refine and_congr_right fun _ => forall_congr' fun x => ?_
  simp only [true_and]
  tauto

variable {instance' : Set (List (Option Nat))}

omit [DecidableEq V] in
theorem solves_congr {σ τ : Binding V}
    (same : ∀ x ∈ patternVars ps, σ x = τ x) (solves : Solves σ (atoms ps) instance') :
    Solves τ (atoms ps) instance' := by
  intro atom there
  obtain ⟨p, inPs, rfl⟩ := mem_map.mp there
  have values : p.atom.map (Arg.eval σ) = p.atom.map (Arg.eval τ) := by
    refine map_congr_left fun i inside => Arg.eval_congr fun x occurs => same x ?_
    exact mem_flatMap.mpr ⟨p, inPs, mem_flatMap.mpr ⟨i, inside, occurs⟩⟩
  exact values ▸ solves _ there

omit [DecidableEq V] in
theorem solves_rename {W : Type} {f : V → W} {τ : Binding W} :
    Solves τ (atoms (ps.map (TriplePattern.rename f))) instance' ↔ Solves (fun x => τ (f x))
    (atoms ps) instance' := by
  have values : ∀ p : TriplePattern V, (p.rename f).atom.map (Arg.eval τ) = p.atom.map
      (Arg.eval fun x => τ (f x)) := by
    intro p
    simp only [TriplePattern.rename, TriplePattern.atom, map_cons, map_nil, Arg.eval_subst]
    rfl
  simp [Solves, atoms, mem_map, forall_exists_index, and_imp, forall_apply_eq_imp_iff₂, values]

omit [DecidableEq V] in
theorem known_of_solves {σ : Binding V}
    (solves : Solves σ (atoms ps) (tuples store)) (there : p ∈ ps) : ¬p.Unknown := by
  intro unknown
  obtain ⟨t, _, same⟩ := solves p.atom (mem_map_of_mem there)
  have value : none ∈ p.atom.map (Arg.eval σ) := mem_map.mpr ⟨.const none, unknown, rfl⟩
  rw [same] at value
  simp at value

def restrict (xs : List V) (row : Binding V) : Binding V := fun x => if x ∈ xs then row x else none

theorem restrict_of_mem {x : V} (inside : x ∈ xs) (row : Binding V) : restrict xs row x = row x :=
  if_pos inside

theorem restrict_of_not_mem {x : V} (outside : x ∉ xs) (row : Binding V) :
    restrict xs row x = none :=
  if_neg outside

theorem restrict_eq_iff : restrict xs row = restrict xs new ↔ ∀ x ∈ xs, row x = new x := by
  constructor
  · intro same x inside
    rw [← restrict_of_mem inside row, same, restrict_of_mem inside]
  · intro same
    funext x
    by_cases inside : x ∈ xs
    · rw [restrict_of_mem inside, restrict_of_mem inside, same x inside]
    · rw [restrict_of_not_mem inside, restrict_of_not_mem inside]

theorem restrict_restrict {ys : List V} (part : xs ⊆ ys) (row : Binding V) :
    restrict xs (restrict ys row) = restrict xs row :=
  restrict_eq_iff.mpr fun _ inside => restrict_of_mem (part inside) row

structure TempResult (V : Type) where
  varset : List V
  rows : List (Binding V)

namespace TempResult

def joinRows (common mine : List V) (left right : Binding V) : Option (Binding V) :=
  if ∀ x ∈ common, left x = right x then some fun x =>
    if x ∈ mine then left x else right x else none

def doJoin (a b : TempResult V) : TempResult V where
  varset := a.varset ++ b.varset
  rows := a.rows.flatMap fun left => b.rows.filterMap
    (joinRows (a.varset.filter (· ∈ b.varset)) a.varset left)

def Typed (a : TempResult V) : Prop := ∀ row ∈ a.rows, ∀ x, x ∉ a.varset → row x = none

theorem mem_doJoin {a b : TempResult V} (typedA : a.Typed) (typedB : b.Typed) :
    row ∈ (a.doJoin b).rows ↔ (restrict a.varset row ∈ a.rows ∧ restrict b.varset row ∈ b.rows) ∧
      ∀ x, x ∉ a.varset ++ b.varset → row x = none := by
  simp only [doJoin, mem_flatMap, mem_filterMap, joinRows, Option.ite_none_right_eq_some,
      Option.some.injEq]
  constructor
  · rintro ⟨left, inA, right, inB, agree, rfl⟩
    have isLeft : restrict a.varset (fun x => if x ∈ a.varset then left x else right x) = left := by
      funext x
      by_cases inside : x ∈ a.varset
      · rw [restrict_of_mem inside, if_pos inside]
      · rw [restrict_of_not_mem inside, typedA left inA x inside]
    have isRight : restrict b.varset (fun x => if x ∈ a.varset then left x else right x) =
        right := by
      funext x
      by_cases inside : x ∈ b.varset
      · rw [restrict_of_mem inside]
        by_cases both : x ∈ a.varset
        · rw [if_pos both, agree x (mem_filter.mpr ⟨both, decide_eq_true inside⟩)]
        · rw [if_neg both]
      · rw [restrict_of_not_mem inside, typedB right inB x inside]
    rw [isLeft, isRight]
    refine ⟨⟨inA, inB⟩, fun x outside => ?_⟩
    rw [mem_append, not_or] at outside
    exact (if_neg outside.1).trans (typedB right inB x outside.2)
  · rintro ⟨⟨inA, inB⟩, outside⟩
    refine ⟨_, inA, _, inB, ?_, ?_⟩
    · intro x both
      obtain ⟨left, right⟩ := mem_filter.mp both
      rw [restrict_of_mem left, restrict_of_mem (of_decide_eq_true right)]
    · funext x
      by_cases left : x ∈ a.varset
      · rw [if_pos left, restrict_of_mem left]
      · rw [if_neg left]
        by_cases right : x ∈ b.varset
        · rw [restrict_of_mem right]
        · rw [restrict_of_not_mem right, outside x (by simp [left, right])]

theorem typed_doJoin {a b : TempResult V} (typedA : a.Typed) (typedB : b.Typed) :
    (a.doJoin b).Typed :=
  fun _ there => ((mem_doJoin typedA typedB).mp there).2

def joinAll (a : TempResult V) (rest : List (TempResult V)) : TempResult V := rest.foldl doJoin a

theorem mem_joinAll {a : TempResult V} {rest : List (TempResult V)} (typed : a.Typed)
    (all : ∀ b ∈ rest, b.Typed)
    : row ∈ (joinAll a rest).rows ↔ (∀ b ∈ a :: rest, restrict b.varset row ∈ b.rows) ∧
      ∀ x, (∀ b ∈ a :: rest, x ∉ b.varset) → row x = none := by
  induction rest generalizing a with
  | nil =>
    have self : (∀ x, x ∉ a.varset → row x = none) → restrict a.varset row = row := by
      intro outside
      funext x
      by_cases inside : x ∈ a.varset
      · exact restrict_of_mem inside row
      · rw [restrict_of_not_mem inside, outside x inside]
    simp only [joinAll, foldl_nil, mem_singleton, forall_eq]
    constructor
    · intro there
      exact ⟨(self (typed row there)).symm ▸ there, typed row there⟩
    · rintro ⟨there, outside⟩
      rwa [self outside] at there
  | cons b rest ih =>
    have typedB := all b mem_cons_self
    have next := ih (typed_doJoin typed typedB) fun c later => all c (mem_cons_of_mem _ later)
    have joined : restrict (a.doJoin b).varset row ∈ (a.doJoin b).rows ↔
        restrict a.varset row ∈ a.rows ∧ restrict b.varset row ∈ b.rows := by
      rw [mem_doJoin typed typedB, show (a.doJoin b).varset = a.varset ++ b.varset from rfl,
        restrict_restrict (subset_append_left ..), restrict_restrict (subset_append_right ..)]
      exact and_iff_left fun x outside => restrict_of_not_mem outside row
    have columns : ∀ x, x ∉ (a.doJoin b).varset ↔ x ∉ a.varset ∧ x ∉ b.varset := by
      intro x
      simp [doJoin]
    rw [show joinAll a (b :: rest) = joinAll (a.doJoin b) rest from rfl, next]
    simp [joined, columns, and_assoc]

end TempResult

end GStore
