import GStore.Lib.Run
import GStore.Lib.SwapFilter
import GStore.Query.Expression
import GStore.Query.Solutions

/-! `TempResult::doFilter` and `TempResultSet::doFilter`. The rows are filtered in place, and one
flag, taken from the first variable of the filter, decides with which dictionary every id is
decoded. -/
namespace GStore
open List

variable {V F D : Type} [DecidableEq V]

mutual

def CompTree.getVarset : CompTree V → Varset V
  | .variable v => (∅ : Varset V).addVar v
  | .literal _ => ∅
  | .now => ∅
  | .unary _ child => child.getVarset
  | .binary _ left right => left.getVarset + right.getVarset
  | .call _ children => CompTree.addVarsets ∅ children

def CompTree.addVarsets (ret : Varset V) : List (CompTree V) → Varset V
  | [] => ret
  | child :: children => CompTree.addVarsets (ret + child.getVarset) children

end

namespace Results
open Lib

/-- What filters are evaluated with besides the row; a built-in function may ask for the variables
of the row. -/
structure FilterContext (V F D : Type) where
  num : Numbers F D
  now : EvalMultitypeValue F D
  builtin : (V → Option Text) → String → List (CompTree V × Evaluation F D) →
    Except Failure (EvalMultitypeValue F D)
  getStringByID : Nat → String
  getPredicateByID : Nat → String

namespace FilterContext

variable (ctx : FilterContext V F D)

/-- The term of a leaf of `doComp`; `isel` tells whether ids are decoded as those of entities and
literals. -/
def termOf (isel : V → Bool) (a : TempResult V) (row : ResultPair) (v : V) : Option Text :=
  if v ∈ a.getAllVarset then
    some (match a.cellAt row v with
      | .id n => (if isel v then ctx.getStringByID n else ctx.getPredicateByID n).toList
      | .str s => s.toList)
  else none

def verdict (isel : V → Bool) (filter : CompTree V) (a : TempResult V) (row : ResultPair) :
    Except Failure Bool :=
  let term := ctx.termOf isel a row
  (doComp ⟨ctx.num, term, ctx.now, ctx.builtin term⟩ filter [',']).map fun v =>
    v.datatype = .xsdBoolean ∧ v.boolValue = .trueValue

variable (filter : CompTree V) (entityLiteralVarset : Varset V)

def firstKind : Bool :=
  match filter.getVarset.vars with
  | [] => true
  | v :: _ => v ∈ entityLiteralVarset

def filterPart (limitNumber : Nat) (a : TempResult V) :
    Except Failure (TempResult V) :=
  (swapLoop (ctx.verdict (fun _ => firstKind filter entityLiteralVarset) filter a) limitNumber
      a.result.length []
    a.result).map fun rows => { a with result := rows }

/-- `TempResultSet::doFilter`; `none` is an exception, or the reading of `results[0]` where there is
no part. -/
def doFilter (limitNum : Nat) (results : List (TempResult V)) :
    Option (List (TempResult V)) :=
  if results = [] then none
  else results.mapM fun a => (ctx.filterPart filter entityLiteralVarset limitNum a).toOption

def keptRows (limitNumber : Nat) (a : TempResult V) :
    Except Failure (List (ResultPair × Nat)) :=
  swapLoop (fun r => ctx.verdict (fun _ => firstKind filter entityLiteralVarset) filter a r.1)
    limitNumber
    a.result.length [] a.result.zipIdx

/-- The expression is true of the row, with each id decoded by the kind of its variable. -/
def IsTrue (a : TempResult V) (row : ResultPair) : Bool :=
  accepted (ctx.verdict (fun v => v ∈ entityLiteralVarset) filter a row)

/-- The filter returns, and keeps of every part exactly the rows on which it is true, in their
order. -/
def FiltersExactly (limitNum : Nat) (results : List (TempResult V)) :
    Prop :=
  ctx.doFilter filter entityLiteralVarset limitNum results =
      some (results.map fun a =>
        { a with result := a.result.filter (ctx.IsTrue filter entityLiteralVarset a) }) ∧
    ∀ a ∈ results, ctx.keptRows filter entityLiteralVarset limitNum a =
      .ok (a.result.zipIdx.filter fun r => ctx.IsTrue filter entityLiteralVarset a r.1)

/-- There is a part; no row raises an exception; decoding all ids by the kind of the first variable
does not change the verdict on a row; and at most one row is kept behind one that is dropped. -/
structure FilterSafe (filter : CompTree V) (entityLiteralVarset : Varset V)
    (results : List (TempResult V)) : Prop where
  filled : results ≠ []
  evaluates : ∀ a ∈ results, ∀ row ∈ a.result, ∃ b,
    ctx.verdict (fun _ => firstKind filter entityLiteralVarset) filter a row = .ok b
  oneKind : ∀ a ∈ results, ∀ row ∈ a.result,
    accepted (ctx.verdict (fun _ => firstKind filter entityLiteralVarset) filter a row) =
      accepted (ctx.verdict (fun v => v ∈ entityLiteralVarset) filter a row)
  oneBehind : ∀ a ∈ results, OneBehind (ctx.IsTrue filter entityLiteralVarset a) a.result

variable {filter : CompTree V} {entityLiteralVarset : Varset V} {limit : Nat}
    {results : List (TempResult V)}
  {ctx}

theorem filterPart_eq (a : TempResult V) : ctx.filterPart filter entityLiteralVarset limit a =
    (ctx.keptRows filter entityLiteralVarset limit a).map fun kept =>
    { a with result := kept.map Prod.fst } := by
  have rows := swapLoop_map Prod.fst
    (ctx.verdict (fun _ => firstKind filter entityLiteralVarset) filter a) limit
    a.result.length [] a.result.zipIdx
  rw [map_nil, zipIdx_map_fst] at rows
  rw [filterPart, keptRows, rows]
  cases swapLoop _ limit a.result.length [] a.result.zipIdx <;> rfl

theorem keptRows_ok_iff {a : TempResult V} (unlimited : a.result.length ≤ limit) :
    ctx.keptRows filter entityLiteralVarset limit a =
        .ok (a.result.zipIdx.filter fun r => ctx.IsTrue filter entityLiteralVarset a r.1) ↔
      (∀ row ∈ a.result, ∃ b, ctx.verdict (fun _ => firstKind filter entityLiteralVarset) filter a
        row = .ok b) ∧
      (∀ row ∈ a.result, accepted
        (ctx.verdict (fun _ => firstKind filter entityLiteralVarset) filter a row) =
        ctx.IsTrue filter entityLiteralVarset a row) ∧
      OneBehind (ctx.IsTrue filter entityLiteralVarset a) a.result := by
  have nodup : a.result.zipIdx.Nodup := by
    refine List.Nodup.of_map Prod.snd ?_
    rw [zipIdx_map_snd]
    exact nodup_range'
  have rows : a.result.zipIdx.map Prod.fst = a.result := zipIdx_map_fst 0 a.result
  have overRows : ∀ P : ResultPair → Prop, (∀ r ∈ a.result.zipIdx, P r.1) ↔
      ∀ row ∈ a.result, P row := by
    intro P
    conv_rhs => rw [← rows, forall_mem_map]
  rw [keptRows, swapLoop_eq_ok_iff (by rw [length_zipIdx]) (by simpa using unlimited), nil_append,
    swapFilter_eq_iff nodup (by rw [length_zipIdx])]
  obtain ⟨answer, answer_eq⟩ :
      ∃ answer, ctx.verdict (fun _ => firstKind filter entityLiteralVarset) filter a = answer :=
    ⟨_, rfl⟩
  rw [answer_eq]
  refine and_congr (overRows fun row => ∃ b, answer row = .ok b) (and_congr (overRows fun row =>
    accepted (answer row) = ctx.IsTrue filter entityLiteralVarset a row) ?_)
  conv_rhs => rw [← rows]
  exact oneBehind_map.symm

/-- Without a limit the filter is exact if and only if it is safe. -/
theorem filtersExactly_iff (ctx : FilterContext V F D) (filter : CompTree V)
    (entityLiteralVarset : Varset V)
    (results : List (TempResult V)) {limit : Nat}
    (unlimited : ∀ a ∈ results, a.result.length ≤ limit) :
    ctx.FiltersExactly filter entityLiteralVarset limit results ↔
    ctx.FilterSafe filter entityLiteralVarset results := by
  constructor
  · rintro ⟨returns, kept⟩
    have parts := fun a inside => (keptRows_ok_iff (unlimited a inside)).mp (kept a inside)
    refine ⟨?_, fun a inside => (parts a inside).1, fun a inside => (parts a inside).2.1,
      fun a inside => (parts a inside).2.2⟩
    rintro rfl
    simp [doFilter] at returns
  · intro safe
    have kept := fun a inside => (keptRows_ok_iff (unlimited a inside)).mpr
      ⟨safe.evaluates a inside, safe.oneKind a inside, safe.oneBehind a inside⟩
    refine ⟨?_, kept⟩
    rw [doFilter, if_neg safe.filled]
    refine mapM_eq_map fun a inside => ?_
    rw [filterPart_eq, kept a inside]
    have rows : (a.result.zipIdx.filter fun r => ctx.IsTrue filter entityLiteralVarset a r.1).map
      Prod.fst =
        a.result.filter (ctx.IsTrue filter entityLiteralVarset a) := by
      have moved := filter_map (p := ctx.IsTrue filter entityLiteralVarset a) (f := Prod.fst)
        (l := a.result.zipIdx)
      rw [zipIdx_map_fst] at moved
      exact moved.symm
    exact congrArg (fun rows => some { a with result := rows }) rows

end FilterContext

section Cases

open FilterContext

def filterContext : FilterContext (Fin 2) Int Int where
  num := wholeNumbers
  now := EvalMultitypeValue.error wholeNumbers
  builtin _ _ _ := .error .invalidArgument
  getStringByID n := if n = 0 then "<a>" else if n = 1 then "<b>" else "<c>"
  getPredicateByID _ := "<p>"

def notA : CompTree (Fin 2) := .binary .notEqual (.variable 0) (.literal "<a>".toList)

def column (ids : List Nat) : TempResult (Fin 2) :=
  ⟨⟨[0], by decide⟩, ∅, ids.map fun n => ⟨[n], []⟩⟩

theorem one_row_behind : filterContext.FiltersExactly notA
    ⟨[0], by decide⟩ 10 [column [1, 0, 2]] := by
  have rows : ∀ {P : ResultPair → Prop}, (∀ row ∈ (column [1, 0, 2]).result, P row) ↔
      P ⟨[1], []⟩ ∧ P ⟨[0], []⟩ ∧ P ⟨[2], []⟩ := by simp [column]
  refine (filtersExactly_iff _ _ _ _ (by decide)).mpr ⟨by simp, ?_, ?_, ?_⟩
  · rw [forall_mem_singleton, rows]
    exact ⟨⟨_, rfl⟩, ⟨_, rfl⟩, ⟨_, rfl⟩⟩
  · rw [forall_mem_singleton, rows]
    exact ⟨rfl, rfl, rfl⟩
  · rw [forall_mem_singleton]
    refine oneBehind_cons.mpr ⟨fun dropped => ?_, oneBehind_of_length ?_⟩
    · exact absurd dropped (by decide +kernel)
    · decide +kernel

def notAWithP : CompTree (Fin 2) :=
  .binary .and notA (.binary .equal (.variable 1) (.literal "<p>".toList))

/-- Behind a dropped row two rows are kept in the other order; and a predicate is looked up among
the entities, so that the only row is dropped although the filter is true of it. -/
theorem rows_exchanged_and_predicate_as_entity :
    ((filterContext.doFilter notA
      ⟨[0], by decide⟩ 10 [column [0, 1, 2]]).map fun parts => parts.map TempResult.result) =
        some [[⟨[2], []⟩, ⟨[1], []⟩]] ∧
      ¬filterContext.FiltersExactly notA ⟨[0], by decide⟩ 10 [column [0, 1, 2]] ∧
      ((filterContext.doFilter notAWithP
        ⟨[0], by decide⟩ 10 [⟨⟨[0, 1], by decide⟩, ∅, [⟨[1, 0], []⟩]⟩]).map fun parts =>
        parts.map TempResult.result) = some [[]] ∧
      filterContext.IsTrue notAWithP
      ⟨[0], by decide⟩ ⟨⟨[0, 1], by decide⟩, ∅, [⟨[1, 0], []⟩]⟩ ⟨[1, 0], []⟩ = true := by
  have exchanged : ((filterContext.doFilter notA
        ⟨[0], by decide⟩ 10 [column [0, 1, 2]]).map fun parts =>
      parts.map TempResult.result) = some [[⟨[2], []⟩, ⟨[1], []⟩]] := by decide +kernel
  refine ⟨exchanged, fun exactly => ?_, by decide +kernel, by decide +kernel⟩
  rw [exactly.1] at exchanged
  exact absurd exchanged (by decide +kernel)

end Cases

end Results

end GStore
