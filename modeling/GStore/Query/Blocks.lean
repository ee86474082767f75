import GStore.Lib.Run
import GStore.Lib.UnionFind
import GStore.Query.Pattern

/-! The triple patterns of a group in `queryEvaluation`: they are split into blocks connected by
subject and object variables, each block is evaluated and projected to its useful variables, and the
results are joined. -/
namespace GStore

open Lib List TriplePattern

/-- A group of triple patterns; `elsewhere` are the variables of the `OPTIONAL`s and `FILTER`s of
the group and of the patterns and `FILTER`s of the groups around it. -/
structure GroupQuery (V : Type) where
  patterns : List (TriplePattern V)
  asterisk : Bool
  projection : List V
  groupBy : List V
  orderBy : List V
  elsewhere : List V

namespace GroupQuery

variable {V : Type} [DecidableEq V] (ps : List (TriplePattern V))

/-- The pairs of patterns in the order in which `mergePatternBlockID` is called for them. -/
def mergePairs : List (Nat × Nat) :=
  (List.range ps.length).flatMap fun l =>
    ((List.range l).filter fun k =>
      match ps[l]?, ps[k]? with
      | some p, some p' => p.subjectObjectVars.any (· ∈ p'.subjectObjectVars)
      | _, _ => false).map fun k => (l, k)

def blockIds : Option (List Nat) :=
  (unionAll ps.length (List.range ps.length) (mergePairs ps)).bind fun parents =>
    (List.range ps.length).mapM fun k => (findRoot ps.length parents k).map Prod.fst

def blockOf (ids : List Nat) (l : Nat) : List (TriplePattern V) :=
  ((ps.zip ids).filter fun (_, id) => id = l).map Prod.fst

def blockRoots (ids : List Nat) : List Nat :=
  (List.range ids.length).filter fun l => ids[l]? = some l

variable (q : GroupQuery V)

def useful : List V := q.projection ++ q.groupBy ++ q.orderBy ++ if q.asterisk then
    [] else q.elsewhere

def localUseful (occur : List V) : List V :=
  if !q.asterisk && q.useful.any (· ∈ occur) then q.useful.filter (· ∈ occur) else occur

variable (store : List (Nat × Nat × Nat)) (block : List (TriplePattern V))

def blockResult : TempResult V where
  varset := q.localUseful (patternVars block)
  rows := if ∃ p ∈ block, p.Unknown then []
    else (solutions store block).map (restrict (q.localUseful (patternVars block)))

/-- A block for which `GetJoinStrategy` throws: it is searched and has no variable. -/
def Ground : Prop := patternVars block = [] ∧ ∀ p ∈ block, ¬p.Unknown

instance (block : List (TriplePattern V)) : Decidable (Ground block) :=
  inferInstanceAs (Decidable (_ ∧ _))

def evaluateBlock : Option (TempResult V) :=
  if Ground block then none else some (q.blockResult store block)

def queryEvaluation : Option (List (Binding V)) :=
  (blockIds q.patterns).bind fun ids =>
    ((blockRoots ids).mapM fun l => q.evaluateBlock store (blockOf q.patterns ids l)).map
    fun results =>
      match results with
      | [] => []
      | result :: results => (result.joinAll results).rows

def selected : List V := if q.asterisk then patternVars q.patterns else q.projection

def SplitExact : Prop :=
  ∀ store, ∃ rows, q.queryEvaluation store = some rows ∧
    ∀ row, row ∈ rows.map (restrict q.selected) ↔ row ∈ (solutions store q.patterns).map
    (restrict q.selected)

/-- The variable `x` as a column that the join sees, or as a variable of its block only. -/
inductive Scoped (V : Type) where
  | kept (x : V)
  | own (l : Nat) (x : V)
  deriving DecidableEq

def Scoped.binding (row : Binding V) (sol : Nat → Binding V) : Binding (Scoped V)
  | .kept x => row x
  | .own l x => sol l x

def scope (l : Nat) (block : List (TriplePattern V)) (x : V) : Scoped V :=
  if x ∈ q.localUseful (patternVars block) then .kept x else .own l x

def scopedPatterns (ids : List Nat) : List (TriplePattern (Scoped V)) :=
  (blockRoots ids).flatMap fun l =>
    (blockOf q.patterns ids l).map (rename (q.scope l (blockOf q.patterns ids l)))

def separated : Option (List (TriplePattern (Scoped V))) :=
  (blockIds q.patterns).map q.scopedPatterns

/-- There is a pattern; a pattern without variables has an unknown constant; and some constant is
unknown, or the variables can be mapped so that every pattern becomes one of the separated patterns
and every selected variable stays. -/
structure Separable (q : GroupQuery V) : Prop where
  some_pattern : q.patterns ≠ []
  no_ground : ∀ p ∈ q.patterns, p.vars = [] → p.Unknown
  mapped : (∃ p ∈ q.patterns, p.Unknown) ∨ ∃ ps, q.separated = some ps ∧ ∃ h :
    V → Arg (Scoped V) (Option Nat),
    MapsInto h (atoms q.patterns) (atoms ps) ∧ ∀ x ∈ q.selected, x ∈ patternVars q.patterns →
    h x = .var (.kept x)

structure BlockIds (ps : List (TriplePattern V)) (ids : List Nat) : Prop where
  length : ids.length = ps.length
  root : ∀ k l : Nat, ids[k]? = some l → ids[l]? = some l
  joined : ∀ j k l : Nat, ids[j]? = some l → ids[k]? = some l → Joined (mergePairs ps) j k

theorem mem_mergePairs {ps : List (TriplePattern V)} {l k : Nat} :
    (l, k) ∈ mergePairs ps ↔ k < l ∧ ∃ p p', ps[l]? = some p ∧ ps[k]? = some p' ∧
      ∃ x ∈ p.subjectObjectVars, x ∈ p'.subjectObjectVars := by
  simp only [mergePairs, mem_flatMap, mem_range, mem_map, mem_filter, Prod.mk.injEq]
  constructor
  · rintro ⟨l', _, k', ⟨below, common⟩, rfl, rfl⟩
    refine ⟨below, ?_⟩
    split at common
    · rename_i p p' atL atK
      exact ⟨p, p', atL, atK, by simpa using common⟩
    · cases common
  · rintro ⟨below, p, p', atL, atK, x, inP, inP'⟩
    have inside : l < ps.length := (List.getElem?_eq_some_iff.mp atL).1
    refine ⟨l, inside, k, ⟨below, ?_⟩, rfl, rfl⟩
    rw [atL, atK]
    exact any_eq_true.mpr ⟨x, inP, decide_eq_true inP'⟩

theorem blockIds_spec : ∃ ids, blockIds ps = some ids ∧ BlockIds ps ids := by
  have inside : ∀ pair ∈ mergePairs ps, pair.1 < ps.length ∧ pair.2 < ps.length := by
    rintro ⟨l, k⟩ there
    obtain ⟨_, _, _, atL, atK, _⟩ := mem_mergePairs.mp there
    exact ⟨(List.getElem?_eq_some_iff.mp atL).1, (List.getElem?_eq_some_iff.mp atK).1⟩
  obtain ⟨parents, root, depth, merged, forest, classes⟩ := unionAll_range inside
  have at' : ∀ k l, ((List.range ps.length).map root)[k]? = some l ↔ k < ps.length ∧
      root k = l := by
    intro k l
    rw [getElem?_map]
    by_cases below : k < ps.length
    · simp [below]
    · simp [below]
  refine ⟨(List.range ps.length).map root, ?_, by simp, fun k l => ?_, fun j k l => ?_⟩
  · rw [blockIds, merged, Option.bind_some, mapM_eq_map fun k there =>
        forest.findRoot_fst (mem_range.mp there)]
  · rw [at', at']
    rintro ⟨below, rfl⟩
    exact ⟨forest.root_inside k below, forest.root_self _ (forest.root_isRoot k)⟩
  · rw [at', at']
    rintro ⟨_, first⟩ ⟨_, second⟩
    exact (classes j k).mp (first.trans second.symm)

section Ids

variable {ps : List (TriplePattern V)} {ids : List Nat} {p : TriplePattern V}

omit [DecidableEq V] in
theorem mem_blockOf {l : Nat} : p ∈ blockOf ps ids l ↔ ∃ k :
    Nat, ps[k]? = some p ∧ ids[k]? = some l := by
  simp only [blockOf, mem_map, mem_filter, Prod.exists, exists_and_right, exists_eq_right,
      decide_eq_true_eq]
  rw [mem_iff_getElem?]
  simp [getElem?_zip_eq_some]

theorem mem_blockRoots {l : Nat} : l ∈ blockRoots ids ↔ ids[l]? = some l := by
  simp only [blockRoots, mem_filter, mem_range, decide_eq_true_eq, and_iff_right_iff_imp]
  exact fun here => (List.getElem?_eq_some_iff.mp here).1

theorem exists_block (blocks : BlockIds ps ids) (there : p ∈ ps) :
    ∃ l ∈ blockRoots ids, p ∈ blockOf ps ids l := by
  obtain ⟨k, here⟩ := mem_iff_getElem?.mp there
  have below : k < ids.length := blocks.length ▸ (List.getElem?_eq_some_iff.mp here).1
  have id := List.getElem?_eq_getElem below
  exact ⟨ids[k], mem_blockRoots.mpr (blocks.root k _ id), mem_blockOf.mpr ⟨k, here, id⟩⟩

omit [DecidableEq V] in
theorem blockOf_subset (l : Nat) : blockOf ps ids l ⊆ ps := by
  intro p there
  obtain ⟨k, here, _⟩ := mem_blockOf.mp there
  exact mem_of_getElem? here

theorem joined_ground {j k : Nat} (here : ps[k]? = some p) (ground : p.vars = [])
    (joined : Joined (mergePairs ps) j k) : j = k := by
  have none' : ∀ x, x ∉ p.subjectObjectVars := by
    intro x inside
    have occurs : x ∈ p.vars := by
      simp only [subjectObjectVars, vars, atom, flatMap_cons, mem_append]
        at inside ⊢
      tauto
    rw [ground] at occurs
    cases occurs
  have alone : ∀ a b, (a, b) ∈ mergePairs ps → (a = k) = (b = k) := by
    intro a b pair
    obtain ⟨_, pa, pb, atA, atB, x, inA, inB⟩ := mem_mergePairs.mp pair
    refine propext ⟨?_, ?_⟩
    · rintro rfl
      exact absurd inA (Option.some.inj (here.symm.trans atA) ▸ none' x)
    · rintro rfl
      exact absurd inB (Option.some.inj (here.symm.trans atB) ▸ none' x)
  exact (eqvGen_agree (· = k) alone joined).mpr rfl

end Ids

theorem localUseful_subset (occur : List V) : q.localUseful occur ⊆ occur := by
  unfold localUseful
  split
  · intro x there
    exact of_decide_eq_true (mem_filter.mp there).2
  · exact List.Subset.refl _

variable {q : GroupQuery V}

theorem mem_localUseful {x : V} (isSelected : x ∈ q.selected) {occur : List V}
    (occurs : x ∈ occur) :
    x ∈ q.localUseful occur := by
  unfold localUseful
  split_ifs with found
  · have named : q.asterisk = false := by simpa using (Bool.and_eq_true_iff.mp found).1
    rw [selected, named, if_neg Bool.false_ne_true] at isSelected
    exact mem_filter.mpr ⟨by simp [useful, isSelected], decide_eq_true occurs⟩
  · exact occurs

theorem mem_blockResult {store : List (Nat × Nat × Nat)} {block : List (TriplePattern V)}
    {row : Binding V} :
    row ∈ (q.blockResult store block).rows ↔
      ∃ sol ∈ solutions store block, restrict (q.localUseful (patternVars block)) sol = row := by
  unfold blockResult
  split_ifs with unknown
  · obtain ⟨p, there, unknown⟩ := unknown
    constructor
    · intro no
      cases no
    · rintro ⟨sol, found, _⟩
      exact absurd unknown (known_of_solves (mem_solutions.mp found).1 there)
  · exact mem_map

theorem typed_blockResult (q : GroupQuery V) (store : List (Nat × Nat × Nat))
    (block : List (TriplePattern V)) :
    (q.blockResult store block).Typed := by
  intro row there x outside
  obtain ⟨sol, _, rfl⟩ := mem_blockResult.mp there
  exact restrict_of_not_mem outside sol

section Rows

variable {q : GroupQuery V} {ids : List Nat} {store : List (Nat × Nat × Nat)}

def keptIn (q : GroupQuery V) (ids : List Nat) (l : Nat) : List V :=
  q.localUseful (patternVars (blockOf q.patterns ids l))

def columns (q : GroupQuery V) (ids : List Nat) (τ : Binding (Scoped V)) : Binding V :=
  fun x => if ∃ l ∈ blockRoots ids, x ∈ q.keptIn ids l then τ (.kept x) else none

variable {τ : Binding (Scoped V)}

theorem solves_scopedPatterns {instance' : Set (List (Option Nat))} :
    Solves τ (atoms (q.scopedPatterns ids)) instance' ↔ ∀ l ∈ blockRoots ids,
      Solves (fun x => τ (q.scope l (blockOf q.patterns ids l) x))
      (atoms (blockOf q.patterns ids l)) instance' := by
  have parts : ∀ l, Solves (fun x => τ (q.scope l (blockOf q.patterns ids l) x))
    (atoms (blockOf q.patterns ids l)) instance' ↔
      Solves τ (atoms ((blockOf q.patterns ids l).map
        (rename (q.scope l (blockOf q.patterns ids l))))) instance' :=
    fun l => solves_rename.symm
  simp only [parts]
  simp only [Solves, scopedPatterns, atoms, mem_map, mem_flatMap]
  constructor
  · rintro solves l root _ ⟨p, there, rfl⟩
    exact solves _ ⟨p, ⟨l, root, there⟩, rfl⟩
  · rintro solves _ ⟨p, ⟨l, root, there⟩, rfl⟩
    exact solves l root _ ⟨p, there, rfl⟩

variable {x : V}

theorem scope_of_mem {l : Nat} {block : List (TriplePattern V)}
    (kept : x ∈ q.localUseful (patternVars block)) :
    q.scope l block x = .kept x := if_pos kept

theorem rows_iff {row : Binding V} :
    ((∀ l ∈ blockRoots ids, restrict (q.keptIn ids l) row ∈
      (q.blockResult store (blockOf q.patterns ids l)).rows) ∧
      ∀ x, (∀ l ∈ blockRoots ids, x ∉ q.keptIn ids l) → row x = none) ↔
      ∃ τ, Solves τ (atoms (q.scopedPatterns ids)) (tuples store) ∧ q.columns ids τ = row := by
  simp only [mem_blockResult, mem_solutions, solves_scopedPatterns]
  constructor
  · rintro ⟨accepted, outside⟩
    choose! sol solves agree using accepted
    refine ⟨Scoped.binding row sol, fun l root => solves_congr (fun x _ => ?_) (solves l root).1,
        ?_⟩
    · by_cases kept : x ∈ q.keptIn ids l
      · rw [scope_of_mem kept]
        exact restrict_eq_iff.mp (agree l root) x kept
      · rw [show q.scope l (blockOf q.patterns ids l) x = .own l x from if_neg kept]
        rfl
    · funext x
      by_cases kept : ∃ l ∈ blockRoots ids, x ∈ q.keptIn ids l
      · exact if_pos kept
      · rw [columns, if_neg kept]
        exact (outside x fun l root inside => kept ⟨l, root, inside⟩).symm
  · rintro ⟨τ, solves, rfl⟩
    refine ⟨fun l root => ?_, fun x never => if_neg ?_⟩
    swap
    · rintro ⟨l, root, inside⟩
      exact never l root inside
    let block := blockOf q.patterns ids l
    refine ⟨restrict (patternVars block) fun x => τ (q.scope l block x),
        ⟨?_, fun x no => restrict_of_not_mem no _⟩, ?_⟩
    · exact solves_congr (fun x inside => (restrict_of_mem inside _).symm) (solves l root)
    · refine restrict_eq_iff.mpr fun x kept => ?_
      rw [restrict_of_mem (localUseful_subset _ _ kept), scope_of_mem kept]
      exact (if_pos ⟨l, root, kept⟩).symm

theorem queryEvaluation_rows (blocks : blockIds q.patterns = some ids)
    (searched : ∀ l ∈ blockRoots ids, ¬Ground (blockOf q.patterns ids l))
    (someRoot : blockRoots ids ≠ []) :
    ∃ rows, q.queryEvaluation store = some rows ∧
      ∀ row, row ∈ rows ↔ ∃ τ, Solves τ (atoms (q.scopedPatterns ids)) (tuples store) ∧
      q.columns ids τ = row := by
  have results : ((blockRoots ids).mapM fun l => q.evaluateBlock store (blockOf q.patterns ids l)) =
      some ((blockRoots ids).map fun l => q.blockResult store (blockOf q.patterns ids l)) :=
    mapM_eq_map fun l root => if_neg (searched l root)
  rw [queryEvaluation, blocks, Option.bind_some, results, Option.map_some]
  simp only [← rows_iff]
  cases roots : blockRoots ids with
  | nil => exact absurd roots someRoot
  | cons l ls =>
    refine ⟨_, rfl, fun row => ?_⟩
    rw [map_cons, TempResult.mem_joinAll (typed_blockResult q store _)]
    · simp only [forall_mem_cons, forall_mem_map]
      rfl
    · intro b there
      obtain ⟨l', _, rfl⟩ := mem_map.mp there
      exact typed_blockResult q store _

variable (inBlocks : BlockIds q.patterns ids)
include inBlocks

theorem ground_iff :
    (∃ l ∈ blockRoots ids, Ground (blockOf q.patterns ids l)) ↔ ∃ p ∈ q.patterns, p.vars = [] ∧
    ¬p.Unknown := by
  constructor
  · rintro ⟨l, root, noVars, known⟩
    have here := mem_blockRoots.mp root
    have below : l < q.patterns.length := inBlocks.length ▸ (List.getElem?_eq_some_iff.mp here).1
    have inBlock := mem_blockOf.mpr ⟨l, List.getElem?_eq_getElem below, here⟩
    exact ⟨q.patterns[l], getElem_mem below, flatMap_eq_nil_iff.mp noVars _ inBlock,
        known _ inBlock⟩
  · rintro ⟨p, there, noVars, known⟩
    obtain ⟨l, root, inBlock⟩ := exists_block inBlocks there
    obtain ⟨k, here, id⟩ := mem_blockOf.mp inBlock
    have alone : ∀ p' ∈ blockOf q.patterns ids l, p' = p := by
      intro p' inBlock'
      obtain ⟨j, here', id'⟩ := mem_blockOf.mp inBlock'
      have same := joined_ground here noVars (inBlocks.joined j k l id' id)
      rw [same, here] at here'
      exact (Option.some.inj here').symm
    refine ⟨l, root, flatMap_eq_nil_iff.mpr fun p' inBlock' => ?_, fun p' inBlock' => ?_⟩
    · rw [alone p' inBlock', noVars]
    · rw [alone p' inBlock']
      exact known

theorem blockRoots_ne_nil (somePattern : q.patterns ≠ []) : blockRoots ids ≠ [] := by
  obtain ⟨p, there⟩ := exists_mem_of_ne_nil _ somePattern
  obtain ⟨l, root, _⟩ := exists_block inBlocks there
  exact ne_nil_of_mem root

omit inBlocks in
theorem mem_patternVars_of_keptIn {l : Nat} (kept : x ∈ q.keptIn ids l) :
    x ∈ patternVars q.patterns := by
  obtain ⟨p, inBlock, occurs⟩ := mem_flatMap.mp (localUseful_subset _ _ kept)
  exact mem_flatMap.mpr ⟨p, blockOf_subset l inBlock, occurs⟩

theorem columns_of_selected (τ : Binding (Scoped V)) (isSelected : x ∈ q.selected)
    (occurs : x ∈ patternVars q.patterns) : q.columns ids τ x = τ (.kept x) := by
  obtain ⟨p, there, inP⟩ := mem_flatMap.mp occurs
  obtain ⟨l, root, inBlock⟩ := exists_block inBlocks there
  exact if_pos ⟨l, root, mem_localUseful isSelected (mem_flatMap.mpr ⟨p, inBlock, inP⟩)⟩

omit inBlocks in
theorem columns_of_not_mem (τ : Binding (Scoped V)) (never : x ∉ patternVars q.patterns) :
    q.columns ids τ x = none :=
  if_neg fun ⟨_, _, kept⟩ => never (mem_patternVars_of_keptIn kept)

theorem joint_subset_split {sol : Binding V} (found : sol ∈ solutions store q.patterns) :
    ∃ τ, Solves τ (atoms (q.scopedPatterns ids)) (tuples store) ∧
      restrict q.selected (q.columns ids τ) = restrict q.selected sol := by
  obtain ⟨solves, outside⟩ := mem_solutions.mp found
  let τ : Binding (Scoped V)
    | .kept x => sol x
    | .own _ x => sol x
  have forget : ∀ l block x, τ (q.scope l block x) = sol x := by
    intro l block x
    unfold scope
    split <;> rfl
  refine ⟨τ, solves_scopedPatterns.mpr fun l root => ?_, restrict_eq_iff.mpr fun x isSelected => ?_⟩
  · simp only [forget]
    intro atom there
    obtain ⟨p, inBlock, rfl⟩ := mem_map.mp there
    exact solves _ (mem_map_of_mem (blockOf_subset l inBlock))
  · by_cases occurs : x ∈ patternVars q.patterns
    · exact columns_of_selected inBlocks τ isSelected occurs
    · rw [columns_of_not_mem τ occurs, outside x occurs]

theorem split_subset_joint {h : V → Arg (Scoped V) (Option Nat)}
    (maps : MapsInto h (atoms q.patterns) (atoms (q.scopedPatterns ids)))
    (stays : ∀ x ∈ q.selected, x ∈ patternVars q.patterns → h x = .var (.kept x))
    (solves : Solves τ (atoms (q.scopedPatterns ids)) (tuples store)) :
    ∃ sol ∈ solutions store q.patterns, restrict q.selected sol = restrict q.selected
    (q.columns ids τ) := by
  refine ⟨restrict (patternVars q.patterns) fun x => (h x).eval τ,
      mem_solutions.mpr ⟨?_, fun x no => restrict_of_not_mem no _⟩, ?_⟩
  · exact solves_congr (fun x inside => (restrict_of_mem inside _).symm) (maps.solves solves)
  · refine restrict_eq_iff.mpr fun x isSelected => ?_
    by_cases occurs : x ∈ patternVars q.patterns
    · rw [restrict_of_mem occurs, stays x isSelected occurs,
          columns_of_selected inBlocks τ isSelected occurs]
      rfl
    · rw [restrict_of_not_mem occurs, columns_of_not_mem τ occurs]

end Rows

section Canonical

variable {W : Type} [DecidableEq W] (ps : List (TriplePattern W))

def constantIds : List Nat :=
  ps.flatMap fun p => p.atom.filterMap fun i =>
    match i with
    | .const c => c
    | .var _ => none

/-- The ids that the variables of the patterns get in the canonical store: all different, above
those of the constants. -/
def freeze (w : W) : Option Nat := some ((constantIds ps).sum + 1 + (patternVars ps).idxOf w)

def canonicalStore : List (Nat × Nat × Nat) :=
  ps.map fun p => (((p.subject.eval (freeze ps)).getD 0), ((p.predicate.eval (freeze ps)).getD 0),
      (p.object.eval (freeze ps)).getD 0)

variable {ps : List (TriplePattern W)} {p : TriplePattern W}

omit [DecidableEq W] in
theorem mem_constantIds (there : p ∈ ps) {n : Nat} (inP : Arg.const (some n) ∈ p.atom) :
    n ∈ constantIds ps :=
  mem_flatMap.mpr ⟨p, there, mem_filterMap.mpr ⟨_, inP, rfl⟩⟩

theorem freezes (ps : List (TriplePattern W)) :
    Freezes (patternVars ps) (freeze ps) { c | ∃ n ∈ constantIds ps, c = some n } where
  inj w inside w' _ same := by
    have equal : (patternVars ps).idxOf w = (patternVars ps).idxOf w' := by
      simpa [freeze] using same
    exact (idxOf_inj inside).mp equal
  fresh w _ := by
    rintro ⟨n, there, same⟩
    have bound := single_le_sum (fun _ _ => Nat.zero_le _) n there
    have equal : (constantIds ps).sum + 1 + (patternVars ps).idxOf w = n := Option.some.inj same
    omega

theorem eval_freeze (known : ¬p.Unknown) {i : Arg W (Option Nat)} (inP : i ∈ p.atom) :
    some ((i.eval (freeze ps)).getD 0) = i.eval (freeze ps) := by
  cases i with
  | var w => rfl
  | const c =>
    cases c with
    | none => exact absurd inP known
    | some n => rfl

theorem tuples_canonicalStore (known : ∀ p ∈ ps, ¬p.Unknown) :
    tuples (canonicalStore ps) =
    { tuple | ∃ atom ∈ atoms ps, tuple = atom.map (Arg.eval (freeze ps)) } := by
  have frozen : ∀ p ∈ ps, ∀ tuple, tuple = p.atom.map (Arg.eval (freeze ps)) ↔ tuple =
      [some ((p.subject.eval (freeze ps)).getD 0), some ((p.predicate.eval (freeze ps)).getD 0),
        some ((p.object.eval (freeze ps)).getD 0)] := by
    intro p there tuple
    rw [eval_freeze (known p there) (by simp [atom]), eval_freeze (known p there) (by simp [atom]),
      eval_freeze (known p there) (by simp [atom])]
    rfl
  ext tuple
  simp only [tuples, canonicalStore, atoms, Set.mem_ofPred_eq, mem_map]
  constructor
  · rintro ⟨_, ⟨p, there, rfl⟩, same⟩
    exact ⟨_, ⟨p, there, rfl⟩, (frozen p there tuple).mpr same⟩
  · rintro ⟨_, ⟨p, there, rfl⟩, same⟩
    exact ⟨_, ⟨p, there, rfl⟩, (frozen p there tuple).mp same⟩

omit [DecidableEq W] in
theorem argsWithin (known : ∀ p ∈ ps, ¬p.Unknown) :
    ArgsWithin (patternVars ps) { c | ∃ n ∈ constantIds ps, c = some n } (atoms ps) := by
  intro atom there i inside
  obtain ⟨p, inPs, rfl⟩ := mem_map.mp there
  cases i with
  | var w => exact mem_flatMap.mpr ⟨p, inPs, mem_flatMap.mpr ⟨_, inside, mem_singleton_self w⟩⟩
  | const c =>
    cases c with
    | none => exact absurd inside (known p inPs)
    | some n => exact ⟨n, mem_constantIds inPs inside, rfl⟩

end Canonical

section Exact

variable {q : GroupQuery V} {ids : List Nat}

omit [DecidableEq V] in
theorem const_mem_rename {W : Type} {f : V → W} {p : TriplePattern V} {c : Option Nat} :
    Arg.const c ∈ (p.rename f).atom ↔ Arg.const c ∈ p.atom := by
  have same : ∀ i : Arg V (Option Nat), Arg.const c = i.subst (fun x => Arg.var (f x)) ↔
      Arg.const c = i := by
    intro i
    cases i <;> simp [Arg.subst]
  simp [atom, rename, mem_cons, not_mem_nil, or_false, same]

section

variable (inBlocks : BlockIds q.patterns ids)
include inBlocks

theorem const_mem_scoped {c : Option Nat} :
    (∃ p ∈ q.scopedPatterns ids, Arg.const c ∈ p.atom) ↔
    ∃ p ∈ q.patterns, Arg.const c ∈ p.atom := by
  simp only [scopedPatterns, mem_flatMap, mem_map]
  constructor
  · rintro ⟨_, ⟨l, _, p, inBlock, rfl⟩, inside⟩
    exact ⟨p, blockOf_subset l inBlock, const_mem_rename.mp inside⟩
  · rintro ⟨p, there, inside⟩
    obtain ⟨l, root, inBlock⟩ := exists_block inBlocks there
    exact ⟨_, ⟨l, root, p, inBlock, rfl⟩, const_mem_rename.mpr inside⟩

theorem mem_patternVars_scoped {x : V} (isSelected : x ∈ q.selected)
    (occurs : x ∈ patternVars q.patterns) : Scoped.kept x ∈ patternVars (q.scopedPatterns ids) := by
  obtain ⟨p, there, inP⟩ := mem_flatMap.mp occurs
  obtain ⟨l, root, inBlock⟩ := exists_block inBlocks there
  obtain ⟨i, inAtom, inI⟩ := mem_flatMap.mp inP
  have kept := mem_localUseful isSelected (mem_flatMap.mpr ⟨p, inBlock, inP⟩)
  refine mem_flatMap.mpr ⟨_, mem_flatMap.mpr ⟨l, root, mem_map_of_mem inBlock⟩, ?_⟩
  have renamed : ∀ p : TriplePattern V, (p.rename (q.scope l (blockOf q.patterns ids l))).atom =
      p.atom.map (Arg.subst fun x => .var (q.scope l (blockOf q.patterns ids l) x)) := fun _ => rfl
  refine mem_flatMap.mpr ⟨_, by rw [renamed]; exact mem_map_of_mem inAtom, ?_⟩
  cases i with
  | var y =>
    have same : x = y := by simpa [Arg.vars] using inI
    rw [← same, Arg.subst, scope_of_mem kept]
    exact mem_singleton_self _
  | const c => cases inI

theorem exists_map (known : ∀ p ∈ q.patterns, ¬p.Unknown) {sol : Binding V}
    (found : sol ∈ solutions (canonicalStore (q.scopedPatterns ids)) q.patterns)
    (same : restrict q.selected sol =
      restrict q.selected (q.columns ids (freeze (q.scopedPatterns ids)))) :
    ∃ h : V → Arg (Scoped V) (Option Nat), MapsInto h (atoms q.patterns)
    (atoms (q.scopedPatterns ids)) ∧
      ∀ x ∈ q.selected, x ∈ patternVars q.patterns → h x = .var (.kept x) := by
  have knownScoped : ∀ p ∈ q.scopedPatterns ids, ¬p.Unknown := by
    intro p there unknown
    obtain ⟨p', there', unknown'⟩ := (const_mem_scoped inBlocks).mp ⟨p, there, unknown⟩
    exact known p' there' unknown'
  have solves := (mem_solutions.mp found).1
  rw [tuples_canonicalStore knownScoped] at solves
  refine ⟨_, mapsInto_of_solves (freezes _) (argsWithin knownScoped) ?_ solves,
      fun x isSelected occurs => ?_⟩
  · intro atom there c inside
    obtain ⟨p, inPs, rfl⟩ := mem_map.mp there
    obtain ⟨p', inScoped, inside'⟩ := (const_mem_scoped inBlocks).mpr ⟨p, inPs, inside⟩
    exact argsWithin knownScoped _ (mem_map_of_mem inScoped) _ inside'
  · rw [restrict_eq_iff.mp same x isSelected, columns_of_selected inBlocks _ isSelected occurs]
    exact thaw_freeze (freezes _) (mem_patternVars_scoped inBlocks isSelected occurs)

end

theorem solves_freeze (known : ∀ p ∈ q.scopedPatterns ids, ¬p.Unknown) :
    Solves (freeze (q.scopedPatterns ids)) (atoms (q.scopedPatterns ids))
    (tuples (canonicalStore (q.scopedPatterns ids))) := by
  rw [tuples_canonicalStore known]
  exact fun atom there => ⟨atom, there, rfl⟩

section

variable (blocks : blockIds q.patterns = some ids) (inBlocks : BlockIds q.patterns ids)
include blocks inBlocks

theorem separable_of_splitExact (exact' : q.SplitExact) : q.Separable := by
  have searched : ∀ l ∈ blockRoots ids, ¬Ground (blockOf q.patterns ids l) := by
    obtain ⟨rows, done, _⟩ := exact' []
    intro l root ground
    rw [queryEvaluation, blocks, Option.bind_some, Option.map_eq_some_iff] at done
    obtain ⟨results, all, _⟩ := done
    exact mapM_eq_some_iff.mp ⟨results, all⟩ l root (if_pos ground)
  have somePattern : q.patterns ≠ [] := by
    intro empty
    obtain ⟨rows, done, same⟩ := exact' []
    have noIds : ids = [] := length_eq_zero_iff.mp (by rw [inBlocks.length, empty]; rfl)
    rw [queryEvaluation, blocks, noIds] at done
    have noRows : rows = [] := (Option.some.inj done).symm
    have one : restrict q.selected (fun _ => none) ∈ (solutions [] q.patterns).map
        (restrict q.selected) := by
      rw [empty]
      exact mem_singleton_self _
    rw [← same, noRows] at one
    cases one
  refine ⟨somePattern, fun p there noVars => ?_, ?_⟩
  · by_contra known
    obtain ⟨l, root, ground⟩ := (ground_iff inBlocks).mpr ⟨p, there, noVars, known⟩
    exact searched l root ground
  · by_cases unknown : ∃ p ∈ q.patterns, p.Unknown
    · exact Or.inl unknown
    · have known : ∀ p ∈ q.patterns, ¬p.Unknown := fun p there bad => unknown ⟨p, there, bad⟩
      have knownScoped : ∀ p ∈ q.scopedPatterns ids, ¬p.Unknown := fun p there bad =>
        unknown ((const_mem_scoped inBlocks).mp ⟨p, there, bad⟩)
      obtain ⟨rows, done, same⟩ := exact' (canonicalStore (q.scopedPatterns ids))
      obtain ⟨rows', done', joined⟩ :=
        queryEvaluation_rows blocks searched (blockRoots_ne_nil inBlocks somePattern)
      rw [done, Option.some.injEq] at done'
      subst done'
      have there := (joined _).mpr ⟨_, solves_freeze knownScoped, rfl⟩
      obtain ⟨sol, found, equal⟩ := mem_map.mp ((same _).mp (mem_map_of_mem there))
      obtain ⟨h, maps, stays⟩ := exists_map inBlocks known found equal
      exact Or.inr ⟨_, by rw [separated, blocks]; rfl, h, maps, stays⟩

theorem splitExact_of_separable (separable : q.Separable) : q.SplitExact := by
  have searched : ∀ l ∈ blockRoots ids, ¬Ground (blockOf q.patterns ids l) := by
    intro l root ground
    obtain ⟨p, there, noVars, known⟩ := (ground_iff inBlocks).mp ⟨l, root, ground⟩
    exact known (separable.no_ground p there noVars)
  intro store
  obtain ⟨rows, done, joined⟩ :=
    queryEvaluation_rows blocks searched (blockRoots_ne_nil inBlocks separable.some_pattern)
  refine ⟨rows, done, fun row => ?_⟩
  simp only [mem_map, joined]
  constructor
  · rintro ⟨_, ⟨τ, solves, rfl⟩, rfl⟩
    rcases separable.mapped with ⟨p, there, unknown⟩ | ⟨ps, isSeparated, h, maps, stays⟩
    · obtain ⟨p', there', unknown'⟩ := (const_mem_scoped inBlocks).mpr ⟨p, there, unknown⟩
      exact absurd unknown' (known_of_solves solves there')
    · rw [separated, blocks, Option.map_some, Option.some.injEq] at isSeparated
      exact split_subset_joint inBlocks (isSeparated ▸ maps) stays solves
  · rintro ⟨sol, found, rfl⟩
    obtain ⟨τ, solves, same⟩ := joint_subset_split inBlocks found
    exact ⟨_, ⟨τ, solves, rfl⟩, same⟩

end

/-- The blocks give the same rows in every store exactly when the patterns map into the separated
ones. -/
theorem splitExact_iff_separable (q : GroupQuery V) : q.SplitExact ↔ q.Separable := by
  obtain ⟨ids, blocks, inBlocks⟩ := blockIds_spec q.patterns
  exact ⟨separable_of_splitExact blocks inBlocks, splitExact_of_separable blocks inBlocks⟩

def twoEdges : GroupQuery Char where
  patterns := [⟨.var 'x', .var 'p', .var 'y'⟩, ⟨.var 'a', .var 'p', .var 'b'⟩]
  asterisk := false
  projection := ['x', 'a']
  groupBy := []
  orderBy := []
  elsewhere := []

/-- Two triples with different predicates: both blocks drop `?p`, and the join pairs every `?x` with
every `?a`. -/
theorem twoEdges_not_joined :
    (twoEdges.queryEvaluation [(1, 1, 2), (3, 2, 4)]).map (List.map fun row => (row 'x', row 'a')) =
        some [(some 1, some 1), (some 1, some 3), (some 3, some 1), (some 3, some 3)] ∧
      (solutions [(1, 1, 2), (3, 2, 4)] twoEdges.patterns).map (fun row => (row 'x', row 'a')) =
        [(some 1, some 1), (some 3, some 3)] ∧
      ¬twoEdges.SplitExact := by
  have split : (twoEdges.queryEvaluation [(1, 1, 2), (3, 2, 4)]).map
    (List.map fun row => (row 'x', row 'a')) =
      some [(some 1, some 1), (some 1, some 3), (some 3, some 1), (some 3, some 3)] := by
        decide +kernel
  have joint : (solutions [(1, 1, 2), (3, 2, 4)] twoEdges.patterns).map
    (fun row => (row 'x', row 'a')) =
      [(some 1, some 1), (some 3, some 3)] := by decide +kernel
  refine ⟨split, joint, fun exact' => ?_⟩
  obtain ⟨rows, done, same⟩ := exact' [(1, 1, 2), (3, 2, 4)]
  rw [done, Option.map_some, Option.some.injEq] at split
  have there : (some 1, some 3) ∈ rows.map fun row => (row 'x', row 'a') := by
    rw [split]
    decide
  obtain ⟨row, inRows, values⟩ := mem_map.mp there
  obtain ⟨sol, found, equal⟩ := mem_map.mp ((same _).mp (mem_map_of_mem inRows))
  have agree := restrict_eq_iff.mp equal
  have isSol : (some 1, some 3) ∈ (solutions [(1, 1, 2), (3, 2, 4)] twoEdges.patterns).map
      fun row => (row 'x', row 'a') := by
    refine mem_map.mpr ⟨sol, found, ?_⟩
    rw [agree 'x' (by decide), agree 'a' (by decide)]
    exact values
  rw [joint] at isSol
  revert isSol
  decide

end Exact

end GroupQuery

end GStore
