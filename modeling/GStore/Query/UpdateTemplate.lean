import GStore.Database.Database
import GStore.Query.Pattern
import GStore.Query.Solutions

/-! `GeneralEvaluation::prepareUpdateTriple`: the triples of an update template for the rows of a
result. -/
namespace GStore.Results

open Lib List

structure TemplatePattern (V : Type) where
  subject : Arg V String
  predicate : Arg V String
  object : Arg V String

def updateTriple (subject predicate object : String) : TripleWithObjType :=
  ⟨subject, predicate, object, object.toList.head? = some '<'⟩

variable {V : Type} [DecidableEq V]

def TemplatePattern.vars (p : TemplatePattern V) : List V :=
  p.subject.vars ++ p.predicate.vars ++ p.object.vars

/-- One of the strings `subject`, `predicate` and `object` for a row. Where `randomAccess` does not
know the id, the string stays what it was. -/
def fill (access : Nat → Option String) (a : TempResult V) (arg : Arg V String) (row : ResultPair)
    (before : String) :
    String :=
  match arg with
  | .const text => text
  | .var v =>
    match a.cellAt row v with
    | .id n => (access n).getD before
    | .str s => s

/-- `access` is `StringIndex::randomAccess`, whose flag asks for an entity or literal. -/
def fillRows (access : Bool → Nat → Option String) (a : TempResult V) (p : TemplatePattern V) :
    String → String → String → List ResultPair → List TripleWithObjType
  | _, _, _, [] => []
  | subject, predicate, object, row :: rows =>
    let subject := fill (access true) a p.subject row subject
    let predicate := fill (access false) a p.predicate row predicate
    let object := fill (access true) a p.object row object
    updateTriple subject predicate object :: fillRows access a p subject predicate object rows

def prepareUpdateTriple (access : Bool → Nat → Option String) (results : List (TempResult V))
    (template : List (TemplatePattern V)) : List TripleWithObjType :=
  template.flatMap fun p => results.flatMap fun a =>
    if ∀ v ∈ p.vars, v ∈ a.getAllVarset then fillRows access a p "" "" "" a.result else []

section Terms

variable (access : Bool → Nat → Option String) (entity : V → Bool) (a : TempResult V)

/-- The term of a variable in a row, where `entity` tells the subject and object variables from the
predicate variables. An unbound variable has an id that is not in the string index, or the empty
string. -/
def termIn (row : ResultPair) (v : V) : Option String :=
  if v ∈ a.getAllVarset then
    match a.cellAt row v with
    | .id n => access (entity v) n
    | .str s => if s = "" then none else some s
  else none

def argIn (arg : Arg V String) (row : ResultPair) : String :=
  match arg with
  | .const text => text
  | .var v => (termIn access entity a row v).getD ""

def BindsAll (p : TemplatePattern V) (row : ResultPair) : Prop :=
  ∀ v ∈ p.vars, (termIn access entity a row v).isSome = true

instance (a : TempResult V) (p : TemplatePattern V) (row : ResultPair) :
    Decidable (BindsAll access entity a p row) :=
  inferInstanceAs (Decidable (∀ v ∈ p.vars, _))

def instantiate (p : TemplatePattern V) (row : ResultPair) : TripleWithObjType :=
  updateTriple (argIn access entity a p.subject row) (argIn access entity a p.predicate row)
    (argIn access entity a p.object row)

def templateTriples (results : List (TempResult V)) (template : List (TemplatePattern V)) :
    List TripleWithObjType :=
  template.flatMap fun p => results.flatMap fun a =>
    (a.result.filter fun row => BindsAll access entity a p row).map (instantiate access entity a p)

/-- The dictionary has the term under the id of the row, or it does not know the id and the term is
the one before. -/
def Tells (find : Nat → Option String) (a : TempResult V) (arg : Arg V String) (row : ResultPair)
    (before term : String) :
    Prop :=
  ∀ v, arg = .var v → ∀ n, a.cellAt row v = .id n → find n = some term ∨ find n = none ∧
    before = term

/-- Row by row, the dictionary of the position tells the term of the argument. -/
def Carries (find : Nat → Option String) (a : TempResult V) (arg : Arg V String) :
    String → List ResultPair → Prop
  | _, [] => True
  | before, row :: rows => Tells find a arg row before (argIn access entity a arg row) ∧
      Carries find a arg (argIn access entity a arg row) rows

structure FillsRight (a : TempResult V) (p : TemplatePattern V) : Prop where
  bound : ∀ row ∈ a.result, BindsAll access entity a p row
  subject : Carries access entity (access true) a p.subject "" a.result
  predicate : Carries access entity (access false) a p.predicate "" a.result
  object : Carries access entity (access true) a p.object "" a.result

end Terms

variable {access : Bool → Nat → Option String} {entity : V → Bool} {a : TempResult V}
    {p : TemplatePattern V}

theorem updateTriple_inj {s q o s' q' o' : String} :
    updateTriple s q o = updateTriple s' q' o' ↔ s = s' ∧ q = q' ∧ o = o' := by
  constructor
  · intro same
    simp only [updateTriple, TripleWithObjType.mk.injEq] at same
    exact ⟨same.1, same.2.1, same.2.2.1⟩
  · rintro ⟨rfl, rfl, rfl⟩
    rfl

theorem fillRows_length (s q o : String) (rows : List ResultPair) :
    (fillRows access a p s q o rows).length = rows.length := by
  induction rows generalizing s q o with
  | nil => rfl
  | cons row rows ih => simp [fillRows, ih]

theorem fill_eq_iff {find : Nat → Option String} {arg : Arg V String}
    (column : ∀ v ∈ arg.vars, v ∈ a.getAllVarset)
    (row : ResultPair) (before : String) :
    fill find a arg row before = argIn access entity a arg row ↔
      Tells find a arg row before (argIn access entity a arg row) := by
  cases arg with
  | const text => simp [fill, argIn, Tells]
  | var v =>
    have inside : v ∈ a.getAllVarset := column v (by simp [Arg.vars])
    cases cell : a.cellAt row v with
    | id n =>
      generalize argIn access entity a (.var v) row = term
      cases known : find n <;> simp [fill, Tells, cell, known]
    | str s =>
      by_cases empty : s = "" <;> simp [fill, argIn, termIn, Tells, cell, inside, empty]

theorem fillRows_eq_iff (covers : ∀ v ∈ p.vars, v ∈ a.getAllVarset) (s q o : String)
    (rows : List ResultPair) :
    fillRows access a p s q o rows = rows.map (instantiate access entity a p) ↔
      Carries access entity (access true) a p.subject s rows ∧
      Carries access entity (access false) a p.predicate q rows ∧
        Carries access entity (access true) a p.object o rows := by
  simp only [TemplatePattern.vars, mem_append, or_assoc] at covers
  induction rows generalizing s q o with
  | nil => simp [fillRows, Carries]
  | cons row rows ih =>
    simp only [fillRows, map_cons, List.cons.injEq, instantiate, updateTriple_inj, Carries,
      ← fill_eq_iff fun v h => covers v (.inl h), ← fill_eq_iff fun v h => covers v (.inr (.inl h)),
      ← fill_eq_iff fun v h => covers v (.inr (.inr h))]
    constructor
    · rintro ⟨⟨subject, predicate, object⟩, rest⟩
      rw [subject, predicate, object] at rest
      obtain ⟨restS, restQ, restO⟩ := (ih _ _ _).mp rest
      exact ⟨⟨subject, restS⟩, ⟨predicate, restQ⟩, object, restO⟩
    · rintro ⟨⟨subject, restS⟩, ⟨predicate, restQ⟩, object, restO⟩
      rw [subject, predicate, object]
      exact ⟨⟨rfl, rfl, rfl⟩, (ih _ _ _).mpr ⟨restS, restQ, restO⟩⟩

theorem fillRows_eq_filter_iff (covers : ∀ v ∈ p.vars, v ∈ a.getAllVarset) :
    fillRows access a p "" "" "" a.result =
    (a.result.filter fun row => BindsAll access entity a p row).map
    (instantiate access entity a p) ↔
      FillsRight access entity a p := by
  constructor
  · intro same
    have lengths := congrArg List.length same
    rw [fillRows_length, length_map] at lengths
    have bound : ∀ row ∈ a.result, BindsAll access entity a p row := by
      simpa using length_filter_eq_length_iff.mp lengths.symm
    rw [filter_eq_self.mpr (by simpa using bound), fillRows_eq_iff covers] at same
    exact ⟨bound, same.1, same.2.1, same.2.2⟩
  · intro right
    rw [filter_eq_self.mpr (by simpa using right.bound), fillRows_eq_iff covers]
    exact ⟨right.subject, right.predicate, right.object⟩

theorem flatMap_eq_iff {ι α : Type} {l : List ι} {f g : ι → List α}
    (shorter : ∀ i ∈ l, (g i).length ≤ (f i).length) :
    l.flatMap f = l.flatMap g ↔ ∀ i ∈ l, f i = g i := by
  have total : ∀ l : List ι, (∀ i ∈ l, (g i).length ≤ (f i).length) →
      (l.flatMap g).length ≤ (l.flatMap f).length := by
    intro l shorter
    simp only [length_flatMap]
    exact sum_le_sum shorter
  induction l with
  | nil => simp
  | cons i l ih =>
    obtain ⟨here, later⟩ := forall_mem_cons.mp shorter
    rw [flatMap_cons, flatMap_cons, forall_mem_cons]
    constructor
    · intro same
      have lengths := congrArg List.length same
      have rest := total l later
      simp only [length_append] at lengths
      obtain ⟨one, others⟩ := append_inj same (by omega)
      exact ⟨one, (ih later).mp others⟩
    · rintro ⟨one, others⟩
      rw [one, (ih later).mpr others]

theorem template_instantiated_iff (access : Bool → Nat → Option String) (entity : V → Bool)
    (results : List (TempResult V))
    (template : List (TemplatePattern V)) :
    prepareUpdateTriple access results template = templateTriples access entity results template ↔
      ∀ p ∈ template, ∀ a ∈ results, (∀ v ∈ p.vars, v ∈ a.getAllVarset) →
      FillsRight access entity a p := by
  -- A part without a column for one of the variables has no row that binds it.
  have unbound : ∀ (p : TemplatePattern V) (a : TempResult V),
    ¬ (∀ v ∈ p.vars, v ∈ a.getAllVarset) →
      (a.result.filter fun row => BindsAll access entity a p row) = [] := by
    intro p a missing
    refine filter_eq_nil_iff.mpr fun row _ binds => missing fun v inside => ?_
    by_contra absent
    have some := of_decide_eq_true binds v inside
    simp [termIn, absent] at some
  have block : ∀ (p : TemplatePattern V) (a : TempResult V),
      ((a.result.filter fun row => BindsAll access entity a p row).map
        (instantiate access entity a p)).length ≤
        (if ∀ v ∈ p.vars, v ∈ a.getAllVarset then fillRows access a p "" "" "" a.result else
          []).length := by
    intro p a
    split
    · rw [length_map, fillRows_length]
      exact length_filter_le _ _
    · rename_i missing
      rw [unbound p a missing]
      rfl
  unfold prepareUpdateTriple templateTriples
  rw [flatMap_eq_iff fun p _ => by
    simp only [length_flatMap]
    exact sum_le_sum fun a _ => block p a]
  refine forall₂_congr fun p _ => (flatMap_eq_iff fun a _ => block p a).trans
    (forall₂_congr fun a _ => ?_)
  split_ifs with covers
  · rw [fillRows_eq_filter_iff covers, imp_iff_right covers]
  · rw [unbound p a covers]
    simp [covers]

/-- Where every variable stands at a position of its own kind, it is enough that the rows bind the
variables. -/
theorem fillsRight_of_kinds (subject : ∀ v ∈ p.subject.vars, entity v = true)
    (predicate : ∀ v ∈ p.predicate.vars, entity v = false)
    (object : ∀ v ∈ p.object.vars, entity v = true)
    (bound : ∀ row ∈ a.result, BindsAll access entity a p row) : FillsRight access entity a p := by
  have carries : ∀ (kind : Bool) (arg : Arg V String),
    (∀ v ∈ arg.vars, entity v = kind ∧ v ∈ p.vars) →
      ∀ (rows : List ResultPair) (before : String), (∀ row ∈ rows, BindsAll access entity a p row) →
        Carries access entity (access kind) a arg before rows := by
    intro kind arg own rows
    induction rows with
    | nil => exact fun _ _ => trivial
    | cons row rows ih =>
      intro before binds
      refine ⟨?_, ih _ fun r later => binds r (mem_cons_of_mem row later)⟩
      rintro v rfl n cell
      obtain ⟨same, listed⟩ := own v (by simp [Arg.vars])
      have some := binds row mem_cons_self v listed
      have inside : v ∈ a.getAllVarset := by
        by_contra absent
        simp [termIn, absent] at some
      simp only [termIn, inside, if_true, cell, same] at some
      obtain ⟨term, found⟩ := Option.isSome_iff_exists.mp some
      exact .inl (by simp [argIn, termIn, inside, cell, same, found])
  refine ⟨bound, ?_, ?_, ?_⟩
  · exact carries true p.subject
      (fun v h => ⟨subject v h, by simp [TemplatePattern.vars, h]⟩) _ _ bound
  · exact carries false p.predicate
      (fun v h => ⟨predicate v h, by simp [TemplatePattern.vars, h]⟩) _ _ bound
  · exact carries true p.object
      (fun v h => ⟨object v h, by simp [TemplatePattern.vars, h]⟩) _ _ bound

/-- `INSERT { ?s <p> <o> }` over two rows of which the second does not bind `?s`. -/
def secondUnbound : TempResult Bool :=
  ⟨⟨[true], nodup_singleton true⟩, ∅, [⟨[0], []⟩, ⟨[invalidID], []⟩]⟩

def knownZero (_ : Bool) (n : Nat) : Option String := if n = 0 then some "<a>" else none

def aboutS : TemplatePattern Bool := ⟨.var true, .const "<p>", .const "<o>"⟩

/-- The second row gives the subject of the first one once more. -/
theorem unbound_row_instantiated :
    prepareUpdateTriple knownZero [secondUnbound]
    [aboutS] = [⟨"<a>", "<p>", "<o>", true⟩, ⟨"<a>", "<p>", "<o>", true⟩] ∧
      templateTriples knownZero (fun _ => true) [secondUnbound]
      [aboutS] = [⟨"<a>", "<p>", "<o>", true⟩] := by
  decide +kernel

end GStore.Results
