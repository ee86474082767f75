import GStore.Query.Solutions
import GStore.Query.Pattern

/-! `GeneralEvaluation::fillCandList`: the values that the previous result has under the variables
of a basic graph pattern become candidate lists, which the executor uses as filters. -/
namespace GStore.Results

open Lib List

variable {V : Type} [DecidableEq V] (getIDByString : String → Nat)

def TempResult.valuesAt (v : V) (a : TempResult V) : List Nat :=
  if v ∈ a.idVarset then a.result.map fun row => row.id.getD (a.idVarset.vars.idxOf v) 0
  else if v ∈ a.strVarset then a.result.map fun row => getIDByString
    (row.str.getD (a.strVarset.vars.idxOf v) "")
  else []

def resultSet (last : List (TempResult V)) (v : V) : Finset Nat :=
  (last.flatMap (TempResult.valuesAt getIDByString v)).toFinset

/-- The candidate lists; a variable without one is not restricted. `top` is `dep == 0`. -/
def fillCandList (top : Bool) (last : List (TempResult V)) (v : V) : Option (Finset Nat) :=
  if last = [] ∨ top ∧ 1000000 < last.length then none
  else if resultSet getIDByString last v = ∅ then none
  else some (resultSet getIDByString last v)

def Passes (cand : V → Option (Finset Nat)) (vars : List V) (σ : Binding V) : Prop :=
  ∀ v ∈ vars, ∀ C, cand v = some C → ∃ n ∈ C, σ v = some n

def Joins (term : V → Nat → String) (a : TempResult V) (row : ResultPair) (σ : Binding V) : Prop :=
  ∀ v n, σ v = some n → (∀ i, a.idVarset.column row.id v = some i → i = n) ∧
    ∀ s, a.strVarset.column row.str v = some s → s = term v n

open Classical in
noncomputable def joinMatches (term : V → Nat → String) (last : List (TempResult V))
  (matched : List (Binding V)) :
    List (Solution V) :=
  last.flatMap fun a => a.result.flatMap fun row =>
    (matched.filter fun σ => Joins term a row σ).map fun σ =>
      merge (a.reading term row).solution fun v => (σ v).map (term v)

/-- A triple that a store can hold, where `live` are the ids of entities and literals in use. -/
structure Storable (live : Nat → Prop) (t : Nat × Nat × Nat) : Prop where
  sub : live t.1
  entity : t.1 < literalFirstID
  obj : live t.2.2

variable (live : Nat → Prop)

open Classical in
/-- In every store the join with the restricted matches is the join with all of them, as a bag. -/
def PrunesSoundly (term : V → Nat → String) (getIDByString : String → Nat) (top : Bool)
    (last : List (TempResult V)) (ps : List (TriplePattern V)) (vars : List V) : Prop :=
  ∀ store : List (Nat × Nat × Nat), (∀ t ∈ store, Storable live t) →
    (joinMatches term last ((solutions store ps).filter fun σ =>
      Passes (fillCandList getIDByString top last) vars σ) :
      Multiset (Solution V)) = joinMatches term last (solutions store ps)

def TripleUnder (σ : V → Nat) (p : TriplePattern V) (t : Nat × Nat × Nat) : Prop :=
  p.atom.map (Arg.eval fun v => some (σ v)) = [some t.1, some t.2.1, some t.2.2]

/-- Some ids for the variables of the pattern agree with the row, make triples that a store can
hold, and have a value outside `C` under `v`. -/
def EscapesFrom (term : V → Nat → String) (ps : List (TriplePattern V)) (a : TempResult V)
    (row : ResultPair) (v : V) (C : Finset Nat) : Prop :=
  ∃ σ : V → Nat, (∀ p ∈ ps, ∃ t, TripleUnder σ p t ∧ Storable live t) ∧
    Joins term a row (restrict (patternVars ps) fun w => some (σ w)) ∧ σ v ∉ C

/-- Every row that can be joined has a value under each restricted variable: an id, or the string of
a subject or an object. -/
def RowsBind (term : V → Nat → String) (getIDByString : String → Nat) (top : Bool)
    (last : List (TempResult V)) (ps : List (TriplePattern V)) (vars : List V) : Prop :=
  ∀ a ∈ last, ∀ row ∈ a.result, ∀ v ∈ vars, ∀ C, fillCandList getIDByString top last v = some C →
    v ∈ a.idVarset ∨ (v ∈ a.strVarset ∧ ∃ p ∈ ps, v ∈ p.subjectObjectVars) ∨
    ¬ EscapesFrom live term ps a row v C

section Lengths

variable {α β : Type}

theorem length_eq_of_flatMap {f g : α → List β} {l : List α}
    (shorter : ∀ x ∈ l, (f x).length ≤ (g x).length)
    (same : (l.flatMap f).length = (l.flatMap g).length) :
    ∀ x ∈ l, (f x).length = (g x).length := by
  have total : ∀ l : List α, (∀ x ∈ l, (f x).length ≤ (g x).length) →
      (l.flatMap f).length ≤ (l.flatMap g).length := by
    intro l
    induction l with
    | nil => simp
    | cons x l ih =>
      intro shorter
      rw [forall_mem_cons] at shorter
      have rest := ih shorter.2
      rw [flatMap_cons, flatMap_cons, length_append, length_append]
      omega
  induction l with
  | nil => simp
  | cons x l ih =>
    rw [forall_mem_cons] at shorter ⊢
    have rest := total l shorter.2
    rw [flatMap_cons, flatMap_cons, length_append, length_append] at same
    exact ⟨by omega, ih shorter.2 (by omega)⟩

end Lengths

section Pruning

variable {live : Nat → Prop} {term : V → Nat → String} {getIDByString : String → Nat} {top : Bool}
  {last : List (TempResult V)} {ps : List (TriplePattern V)} {vars : List V}

open Classical in
theorem joinMatches_filter_iff (keep : Binding V → Prop) (matched : List (Binding V)) :
    (joinMatches term last (matched.filter fun σ => keep σ) : Multiset (Solution V)) =
    joinMatches term last matched ↔
      ∀ a ∈ last, ∀ row ∈ a.result, ∀ σ ∈ matched, Joins term a row σ → keep σ := by
  have pieces : ∀ (a : TempResult V) (row : ResultPair),
      ((matched.filter fun σ => keep σ).filter fun σ => Joins term a row σ) =
        (matched.filter fun σ => Joins term a row σ).filter fun σ => keep σ :=
        fun a row => filter_comm _ _ _
  constructor
  · intro same a inLast row inA σ inMatched joins
    have lengths := congrArg Multiset.card same
    rw [Multiset.coe_card, Multiset.coe_card] at lengths
    have shorter : ∀ (a : TempResult V) (row : ResultPair),
        (((matched.filter fun σ => keep σ).filter fun σ => Joins term a row σ).map fun σ =>
          merge (a.reading term row).solution fun v => (σ v).map (term v)).length ≤
          ((matched.filter fun σ => Joins term a row σ).map fun σ =>
            merge (a.reading term row).solution fun v => (σ v).map (term v)).length := by
      intro a row
      rw [pieces, length_map, length_map]
      exact length_filter_le _ _
    have parts := length_eq_of_flatMap (fun a _ => by
      rw [length_flatMap, length_flatMap]
      exact sum_le_sum fun row _ => shorter a row) lengths a inLast
    have rows := length_eq_of_flatMap (fun row _ => shorter a row) parts row inA
    rw [pieces, length_map, length_map] at rows
    have all := length_filter_eq_length_iff.mp rows σ
      (mem_filter.mpr ⟨inMatched, decide_eq_true joins⟩)
    exact of_decide_eq_true all
  · intro kept
    refine congrArg _ (flatMap_congr fun a inLast => flatMap_congr fun row inA => congrArg _ ?_)
    rw [pieces]
    refine filter_eq_self.mpr fun σ member => ?_
    obtain ⟨inMatched, joins⟩ := mem_filter.mp member
    exact decide_eq_true (kept a inLast row inA σ inMatched (of_decide_eq_true joins))

variable {v : V}

theorem fillCandList_eq_some {C : Finset Nat}
    (filled : fillCandList getIDByString top last v = some C) :
    C = resultSet getIDByString last v := by
  unfold fillCandList at filled
  split at filled
  · cases filled
  · split at filled
    · cases filled
    · exact (Option.some.inj filled).symm

variable {a : TempResult V}

theorem mem_resultSet {n : Nat} (inLast : a ∈ last) (found : n ∈ a.valuesAt getIDByString v) :
    n ∈ resultSet getIDByString last v :=
  mem_toFinset.mpr (mem_flatMap.mpr ⟨a, inLast, found⟩)

theorem mem_resultSet_id {i : Nat} {row : ResultPair} (inLast : a ∈ last) (inA : row ∈ a.result)
    (there : v ∈ a.idVarset) (found : a.idVarset.column row.id v = some i) :
    i ∈ resultSet getIDByString last v := by
  refine mem_resultSet inLast ?_
  rw [TempResult.valuesAt, if_pos there]
  refine mem_map.mpr ⟨row, inA, ?_⟩
  rw [getD_eq_getElem?_getD, ← Varset.column, found, Option.getD_some]

theorem mem_resultSet_str {s : String} {row : ResultPair} (inLast : a ∈ last)
    (inA : row ∈ a.result) (out : v ∉ a.idVarset) (there : v ∈ a.strVarset)
    (found : a.strVarset.column row.str v = some s) :
    getIDByString s ∈ resultSet getIDByString last v := by
  refine mem_resultSet inLast ?_
  rw [TempResult.valuesAt, if_neg out, if_pos there]
  refine mem_map.mpr ⟨row, inA, ?_⟩
  rw [getD_eq_getElem?_getD, ← Varset.column, found, Option.getD_some]

variable {store : List (Nat × Nat × Nat)} {σ : Binding V}

theorem triple_of_solution (solution : σ ∈ solutions store ps)
    {p : TriplePattern V} (inPs : p ∈ ps) :
    ∃ t ∈ store, p.atom.map (Arg.eval σ) = [some t.1, some t.2.1, some t.2.2] :=
  (mem_solutions.mp solution).1 p.atom (mem_map_of_mem inPs)

omit [DecidableEq V] in
theorem mem_patternVars_iff : v ∈ patternVars ps ↔ ∃ p ∈ ps, Arg.var v ∈ p.atom := by
  have inArg : ∀ i : Arg V (Option Nat), v ∈ i.vars ↔ i = .var v := by
    intro i
    cases i <;> simp [Arg.vars, eq_comm]
  simp [patternVars, TriplePattern.vars, mem_flatMap, inArg]

theorem bound_of_solution (solution : σ ∈ solutions store ps)
    (occurs : v ∈ patternVars ps) : ∃ n, σ v = some n := by
  obtain ⟨p, inPs, inAtom⟩ := mem_patternVars_iff.mp occurs
  obtain ⟨t, -, same⟩ := triple_of_solution solution inPs
  have value : Arg.eval σ (.var v) ∈ p.atom.map (Arg.eval σ) := mem_map_of_mem inAtom
  rw [same] at value
  simp only [Arg.eval, mem_cons, not_mem_nil, or_false] at value
  rcases value with value | value | value
  · exact ⟨_, value⟩
  · exact ⟨_, value⟩
  · exact ⟨_, value⟩

theorem live_of_solution (storable : ∀ t ∈ store, Storable live t)
    (solution : σ ∈ solutions store ps) {p : TriplePattern V} (inPs : p ∈ ps)
    (occurs : v ∈ p.subjectObjectVars)
    {n : Nat} (value : σ v = some n) : live n := by
  obtain ⟨t, inStore, same⟩ := triple_of_solution solution inPs
  simp only [TriplePattern.atom, map_cons, map_nil, List.cons.injEq, and_true] at same
  rcases mem_append.mp occurs with subject | object
  · cases isSubject : p.subject with
    | const c => simp [isSubject, Arg.vars] at subject
    | var w =>
      rw [isSubject, Arg.vars, mem_singleton] at subject
      rw [isSubject, Arg.eval, ← subject, value, Option.some.injEq] at same
      exact same.1 ▸ (storable t inStore).sub
  · cases isObject : p.object with
    | const c => simp [isObject, Arg.vars] at object
    | var w =>
      rw [isObject, Arg.vars, mem_singleton] at object
      rw [isObject, Arg.eval, ← object, value, Option.some.injEq] at same
      exact same.2.2 ▸ (storable t inStore).obj

theorem mem_solutions_of_triples {σ : V → Nat} {store : List (Nat × Nat × Nat)}
    (triples : ∀ p ∈ ps, ∃ t ∈ store, TripleUnder σ p t) :
    (restrict (patternVars ps) fun w => some (σ w)) ∈ solutions store ps := by
  refine mem_solutions.mpr ⟨?_, fun x outside => restrict_of_not_mem outside _⟩
  refine solves_congr (fun x inside => (restrict_of_mem inside _).symm) fun atom inAtoms => ?_
  obtain ⟨p, inPs, rfl⟩ := mem_map.mp inAtoms
  obtain ⟨t, inStore, same⟩ := triples p inPs
  exact ⟨t, inStore, same⟩

theorem rowsBind_of_prunesSoundly (encoded : ∀ v ∈ vars, v ∈ patternVars ps)
    (sound : PrunesSoundly live term getIDByString top last ps vars) :
    RowsBind live term getIDByString top last ps vars := by
  intro a inLast row inA v inVars C filled
  refine .inr (.inr ?_)
  rintro ⟨σ, triples, joins, outside⟩
  choose! triple under storable using triples
  have solution := @mem_solutions_of_triples V _ ps σ (ps.map triple) fun p inPs =>
    ⟨triple p, mem_map_of_mem inPs, under p inPs⟩
  have all := sound (ps.map triple) fun t inStore => by
    obtain ⟨p, inPs, rfl⟩ := mem_map.mp inStore
    exact storable p inPs
  have passes := (joinMatches_filter_iff _ _).mp all a inLast row inA _ solution joins
  obtain ⟨n, inC, value⟩ := passes v inVars C filled
  rw [restrict_of_mem (encoded v inVars), Option.some.injEq] at value
  exact outside (value ▸ inC)

theorem prunesSoundly_of_rowsBind (encoded : ∀ v ∈ vars, v ∈ patternVars ps)
    (valid : ∀ a ∈ last, a.Valid)
    (inverse : ∀ p ∈ ps, ∀ v ∈ p.subjectObjectVars, ∀ n, live n → getIDByString (term v n) = n)
    (binds : RowsBind live term getIDByString top last ps vars) :
    PrunesSoundly live term getIDByString top last ps vars := by
  intro store storable
  refine (joinMatches_filter_iff _ _).mpr fun a inLast row inA σ solution joins v inVars C filled =>
    ?_
  obtain ⟨n, value⟩ := bound_of_solution solution (encoded v inVars)
  have fits := (valid a inLast).rows row inA
  refine ⟨n, ?_, value⟩
  have isSet := fillCandList_eq_some filled
  by_cases there : v ∈ a.idVarset
  · obtain ⟨i, found⟩ := Option.isSome_iff_exists.mp ((Varset.column_isSome fits.ids).mpr there)
    rw [isSet, ← (joins v n value).1 i found]
    exact mem_resultSet_id inLast inA there found
  · rcases binds a inLast row inA v inVars C filled with isId | ⟨isStr, p, inPs, occurs⟩ | stays
    · exact absurd isId there
    · obtain ⟨s, found⟩ := Option.isSome_iff_exists.mp ((Varset.column_isSome fits.strs).mpr isStr)
      have term_eq := (joins v n value).2 s found
      rw [isSet, ← inverse p inPs v occurs n (live_of_solution storable solution inPs occurs value),
          ← term_eq]
      exact mem_resultSet_str inLast inA there isStr found
    · -- the match itself would be an escape
      by_contra outside
      have same : ∀ w ∈ patternVars ps, some ((σ w).getD 0) = σ w := by
        intro w occurs
        obtain ⟨m, bound⟩ := bound_of_solution solution occurs
        rw [bound, Option.getD_some]
      have whole : (restrict (patternVars ps) fun w => some ((σ w).getD 0)) = σ := by
        funext w
        by_cases occurs : w ∈ patternVars ps
        · rw [restrict_of_mem occurs, same w occurs]
        · rw [restrict_of_not_mem occurs, (mem_solutions.mp solution).2 w occurs]
      refine stays ⟨fun w => (σ w).getD 0,
          fun p inPs => ?_, by rwa [whole], by simpa [value] using outside⟩
      obtain ⟨t, inStore, under⟩ := triple_of_solution solution inPs
      refine ⟨t, ?_, storable t inStore⟩
      rw [TripleUnder, ← under]
      refine map_congr_left fun i inAtom => Arg.eval_congr fun w occurs => same w ?_
      exact mem_flatMap.mpr ⟨p, inPs, mem_flatMap.mpr ⟨i, inAtom, occurs⟩⟩

theorem prunesSoundly_iff (encoded : ∀ v ∈ vars, v ∈ patternVars ps) (valid : ∀ a ∈ last, a.Valid)
    (inverse : ∀ p ∈ ps, ∀ v ∈ p.subjectObjectVars, ∀ n, live n → getIDByString (term v n) = n) :
    PrunesSoundly live term getIDByString top last ps vars ↔
    RowsBind live term getIDByString top last ps vars :=
  ⟨rowsBind_of_prunesSoundly encoded, prunesSoundly_of_rowsBind encoded valid inverse⟩

end Pruning

def edgeXY : TriplePattern Char := ⟨.var 'x', .const (some 0), .var 'y'⟩

def partOf (v : Char) (n : Nat) : TempResult Char := ⟨⟨[v], nodup_singleton v⟩, ∅, [⟨[n], []⟩]⟩

def unary (n : Nat) : String := String.ofList (List.replicate n 'a')

theorem partOf_valid (v : Char) (n : Nat) : (partOf v n).Valid := by
  refine ⟨fun _ _ => Varset.not_mem_empty _, fun row member => ?_⟩
  obtain rfl := mem_singleton.mp member
  exact ⟨rfl, rfl⟩

theorem edgeXY_vars : ∀ v ∈ ['x', 'y'], v ∈ patternVars [edgeXY] := by
  simp [edgeXY, patternVars, TriplePattern.vars, TriplePattern.atom, Arg.vars]

theorem one_part_sound : PrunesSoundly (fun _ => True) (fun _ => unary) String.length true
    [partOf 'x' 3] [edgeXY] ['x', 'y'] :=
  (prunesSoundly_iff edgeXY_vars (by simpa using partOf_valid 'x' 3) (by simp [unary])).mpr (by
    intro a inLast row inA v inVars C filled
    obtain rfl := mem_singleton.mp inLast
    rcases mem_pair.mp inVars with rfl | rfl
    · exact .inl (mem_singleton_self 'x')
    · cases filled)

/-- The rows of the part without `?x` could have any match of the pattern, and get none but those of
the other part. -/
theorem union_parts_pruned : ¬ PrunesSoundly (fun _ => True) (fun _ => unary) String.length true
    [partOf 'x' 3, partOf 'z' 5] [edgeXY] ['x', 'y'] := by
  intro sound
  have binds := rowsBind_of_prunesSoundly edgeXY_vars sound (partOf 'z' 5)
    (by simp) ⟨[5], []⟩ (by simp [partOf]) 'x'
    (by simp) {3} rfl
  rcases binds with isId | ⟨isStr, -⟩ | stays
  · exact absurd isId (by decide)
  · exact absurd isStr (by decide)
  · refine stays ⟨fun _ => 4, fun p inPs => ?_, ?_, by decide⟩
    · obtain rfl := mem_singleton.mp inPs
      exact ⟨(4, 0, 4), rfl, trivial, by decide, trivial⟩
    · intro v n value
      have occurs : v = 'x' ∨ v = 'y' := by
        by_contra neither
        rw [restrict_of_not_mem (by simpa [edgeXY, patternVars, TriplePattern.vars, TriplePattern.atom, Arg.vars] using neither)]
          at value
        cases value
      rcases occurs with rfl | rfl
      · exact ⟨fun i found => (by cases found), fun s found => (by cases found)⟩
      · exact ⟨fun i found => (by cases found), fun s found => (by cases found)⟩

end GStore.Results
