import GStore.Query.Solutions
import GStore.KVstore.Layout

/-! `TempResultSet::doProjection1` and `doDistinct1`: the parts of a result in one table with the
projected columns, and that table without repeated rows. -/
namespace GStore.Results

open Lib List

variable {V : Type} [DecidableEq V]

def alignProjected (term : V → Nat → String) (proj strs : Varset V) (a : TempResult V) :
    TempResult V :=
  if a.idVarset.hasCommonVar (strs * proj) then a.convertId2Str term
    (a.idVarset * strs * proj) else a

def projectedStrs (proj : Varset V) (as : List (TempResult V)) : Varset V :=
  as.foldl (fun s a => s + a.strVarset * proj) ∅

/-- A row of the table. A variable that the part does not have is marked by `INVALID` or the empty
string. -/
def projectRow (a : TempResult V) (ids strs : Varset V) (row : ResultPair) : ResultPair :=
  ⟨(ids.mapTo a.idVarset).map fun p => row.id.getD p invalidID,
    (strs.mapTo a.strVarset).map fun p => row.str.getD p ""⟩

def doProjection1 (term : V → Nat → String) (proj : Varset V) (as : List (TempResult V)) :
    TempResult V :=
  let aligned := as.map (alignProjected term proj (strVarsets as))
  let strs := projectedStrs proj aligned
  let ids := proj - strs
  ⟨ids, strs, aligned.flatMap fun a =>
    if a.idVarset.hasCommonVar ids || a.strVarset.hasCommonVar strs then a.result.map
      (projectRow a ids strs) else []⟩

def changedRows (same : ResultPair → ResultPair → Bool) :
    ResultPair → List ResultPair → List ResultPair
  | _, [] => []
  | before, row :: rows =>
    if same row before then changedRows same row rows else row :: changedRows same row rows

def doDistinct1 (a : TempResult V) : TempResult V :=
  let pos := a.getAllVarset.mapTo a.getAllVarset
  let same := fun row before => compareRow row a.idCols pos before a.idCols pos == .eq
  let rows := match (a.sort pos).result with
    | [] => []
    | first :: rows => first :: changedRows same first rows
  ⟨a.idVarset, a.strVarset, rows.map (a.placeRow a)⟩

namespace Solution

def project (proj : Varset V) (β : Solution V) : Solution V := fun v =>
  if v ∈ proj then (β v).filter (· ≠ "") else none

end Solution

/-- One row of the table for each row of the parts, in their order, and each different row of the
table once. -/
structure ProjectsExactly (term : V → Nat → String) (proj : Varset V) (as : List (TempResult V)) :
    Prop where
  rows : (doProjection1 term proj as).result.map (fun row =>
      ((doProjection1 term proj as).reading term row).solution.project proj) =
    as.flatMap fun a => a.result.map fun row => (a.reading term row).solution.project proj
  nodup : (doDistinct1 (doProjection1 term proj as)).result.Nodup
  members : ∀ row, row ∈ (doDistinct1 (doProjection1 term proj as)).result ↔
    row ∈ (doProjection1 term proj as).result

section Projection

variable {term : V → Nat → String} {proj strs : Varset V} {a : TempResult V}
    {as : List (TempResult V)} {v : V}

theorem mul_mul_assoc (s t u : Varset V) : s * t * u = s * (t * u) := by
  have vars : (s * t * u).vars = (s * (t * u)).vars := by
    change (s.vars.filter _).filter _ = s.vars.filter _
    rw [filter_filter]
    refine filter_congr fun v _ => ?_
    rw [Bool.eq_iff_iff, Bool.and_eq_true, decide_eq_true_eq, decide_eq_true_eq, decide_eq_true_eq,
        Varset.mem_mul,
      and_comm]
  cases hs : s * t * u
  cases ht : s * (t * u)
  rw [hs, ht] at vars
  congr

theorem alignProjected_eq : alignProjected term proj strs a =
    if a.idVarset.hasCommonVar (strs * proj) then a.convertId2Str term
        (a.idVarset * (strs * proj)) else a := by
  rw [alignProjected, mul_mul_assoc]

theorem alignProjected_valid (valid : a.Valid) : (alignProjected term proj strs a).Valid := by
  rw [alignProjected_eq]
  split
  · exact TempResult.convertId2Str_valid valid
  · exact valid

theorem alignProjected_solutions (valid : a.Valid) : (alignProjected term proj strs a).result.map
    (fun row => ((alignProjected term proj strs a).reading term row).solution) =
      a.result.map fun row => (a.reading term row).solution := by
  rw [alignProjected_eq]
  split
  · have rows := congrArg (List.map Reading.solution)
      (@TempResult.convertId2Str_rows V _ term a (strs * proj) valid)
    simpa only [map_map, Function.comp_def, Reading.solution_convert] using rows
  · rfl

theorem mem_alignProjected_id :
    v ∈ (alignProjected term proj strs a).idVarset ↔ v ∈ a.idVarset ∧ ¬ (v ∈ strs ∧ v ∈ proj) := by
  rw [alignProjected_eq]
  split
  · exact TempResult.mem_unconverted.trans (by rw [Varset.mem_mul])
  · rename_i apart
    rw [Varset.hasCommonVar_iff, not_exists] at apart
    exact ⟨fun there => ⟨there, fun both => apart v ⟨there, Varset.mem_mul.mpr both⟩⟩, And.left⟩

theorem mem_alignProjected_str : v ∈ (alignProjected term proj strs a).strVarset ↔
    v ∈ a.strVarset ∨ v ∈ a.idVarset ∧ v ∈ strs ∧ v ∈ proj := by
  rw [alignProjected_eq]
  split
  · change v ∈ a.strVarset + a.idVarset * (strs * proj) ↔ _
    rw [Varset.mem_add, Varset.mem_mul, Varset.mem_mul]
  · rename_i apart
    rw [Varset.hasCommonVar_iff, not_exists] at apart
    exact ⟨.inl, fun h => h.resolve_right fun there =>
        apart v ⟨there.1, Varset.mem_mul.mpr there.2⟩⟩

theorem mem_foldl_add (f : TempResult V → Varset V) (s : Varset V) :
    v ∈ as.foldl (fun s a => s + f a) s ↔ v ∈ s ∨ ∃ a ∈ as, v ∈ f a := by
  induction as generalizing s with
  | nil => simp
  | cons a as ih => simp [ih, or_assoc]

theorem mem_strVarsets : v ∈ strVarsets as ↔ ∃ a ∈ as, v ∈ a.strVarset := by
  simp [strVarsets, mem_foldl_add]

theorem mem_projectedStrs :
    v ∈ projectedStrs proj (as.map (alignProjected term proj (strVarsets as))) ↔
    v ∈ strVarsets as ∧ v ∈ proj := by
  rw [projectedStrs, mem_foldl_add]
  simp only [Varset.not_mem_empty, false_or, mem_map, exists_exists_and_eq_and, Varset.mem_mul,
    mem_alignProjected_str]
  constructor
  · rintro ⟨a, member, old | ⟨-, strs, -⟩, there⟩
    · exact ⟨mem_strVarsets.mpr ⟨a, member, old⟩, there⟩
    · exact ⟨strs, there⟩
  · rintro ⟨strs, there⟩
    obtain ⟨a, member, old⟩ := mem_strVarsets.mp strs
    exact ⟨a, member, .inl old, there⟩

theorem column_vars_map {α : Type} (s : Varset V) (f : V → α) :
    s.column (s.vars.map f) v = if v ∈ s then some (f v) else none := by
  split_ifs with there
  · have position : s.vars.idxOf v < s.vars.length := idxOf_lt_length_iff.mpr there
    simp [Varset.column, position]
  · exact Varset.column_none (length_map f) there

structure Suits (proj ids strs : Varset V) (a : TempResult V) : Prop where
  ids_iff : ∀ v, v ∈ ids ↔ v ∈ proj ∧ v ∉ strs
  strs_proj : ∀ v ∈ strs, v ∈ proj
  id_columns : ∀ v ∈ proj, v ∈ a.idVarset → v ∉ strs
  str_columns : ∀ v ∈ proj, v ∈ a.strVarset → v ∈ strs

variable {ids : Varset V} {row : ResultPair} {r : TempResult V}

theorem Suits.solution_projectRow (suits : Suits proj ids strs a)
    (unbound : ∀ v, term v invalidID = "") (fits : a.Fits row) (idCols : r.idVarset = ids)
    (strCols : r.strVarset = strs) :
    (r.reading term (projectRow a ids strs row)).solution.project proj =
    (a.reading term row).solution.project proj := by
  funext v
  unfold Solution.project
  split_ifs with there
  · simp only [Reading.solution, TempResult.reading, projectRow, idCols, strCols, Varset.mapTo,
        map_map,
      column_vars_map, Function.comp_def, getD_eq_getElem?_getD]
    by_cases inStrs : v ∈ strs
    · have notId : v ∉ ids := fun inside => ((suits.ids_iff v).mp inside).2 inStrs
      have noColumn : v ∉ a.idVarset := fun inside => suits.id_columns v there inside inStrs
      rw [if_neg notId, if_pos inStrs, Varset.column_none fits.ids noColumn]
      simp only [Option.map_none, Option.none_or, Varset.column]
      cases row.str[a.strVarset.vars.idxOf v]? <;> simp
    · have inIds : v ∈ ids := (suits.ids_iff v).mpr ⟨there, inStrs⟩
      have noColumn : v ∉ a.strVarset := fun inside => inStrs (suits.str_columns v there inside)
      rw [if_pos inIds, if_neg inStrs, Varset.column_none fits.strs noColumn]
      simp only [Option.map_some, Option.or_none, Varset.column]
      cases row.id[a.idVarset.vars.idxOf v]? <;> simp [unbound]
  · rfl

theorem Suits.hasCommonVar_iff (suits : Suits proj ids strs a) :
    (a.idVarset.hasCommonVar ids || a.strVarset.hasCommonVar strs) = true ↔
    ∃ v ∈ proj, v ∈ a.getAllVarset := by
  simp only [Bool.or_eq_true, Varset.hasCommonVar_iff, TempResult.getAllVarset, Varset.mem_add]
  constructor
  · rintro (⟨v, there, inside⟩ | ⟨v, there, inside⟩)
    · exact ⟨v, ((suits.ids_iff v).mp inside).1, .inl there⟩
    · exact ⟨v, suits.strs_proj v inside, .inr there⟩
  · rintro ⟨v, inside, there | there⟩
    · exact .inl ⟨v, there, (suits.ids_iff v).mpr ⟨inside, suits.id_columns v inside there⟩⟩
    · exact .inr ⟨v, there, suits.str_columns v inside there⟩

theorem suits_alignProjected (member : a ∈ as) :
    Suits proj (doProjection1 term proj as).idVarset (doProjection1 term proj as).strVarset
      (alignProjected term proj (strVarsets as) a) where
  ids_iff v := Varset.mem_sub
  strs_proj v inside := (mem_projectedStrs.mp inside).2
  id_columns v there inside str := (mem_alignProjected_id.mp inside).2 (mem_projectedStrs.mp str)
  str_columns v there inside := by
    refine mem_projectedStrs.mpr ⟨?_, there⟩
    rcases mem_alignProjected_str.mp inside with old | ⟨-, strs, -⟩
    · exact mem_strVarsets.mpr ⟨a, member, old⟩
    · exact strs

theorem mem_getAllVarset_alignProjected :
    v ∈ (alignProjected term proj strs a).getAllVarset ↔ v ∈ a.getAllVarset := by
  simp only [TempResult.getAllVarset, Varset.mem_add, mem_alignProjected_id, mem_alignProjected_str]
  by_cases converted : v ∈ strs ∧ v ∈ proj <;> simp [converted, or_comm]

theorem doProjection1_rows (unbound : ∀ v, term v invalidID = "") (valid : ∀ a ∈ as, a.Valid) :
    (doProjection1 term proj as).result.map (fun row =>
        ((doProjection1 term proj as).reading term row).solution.project proj) =
      as.flatMap fun a => if ∃ v ∈ proj, v ∈ a.getAllVarset then
        a.result.map fun row => (a.reading term row).solution.project proj else [] := by
  obtain ⟨r, eq⟩ : ∃ r, doProjection1 term proj as = r := ⟨_, rfl⟩
  have result : r.result = (as.map (alignProjected term proj (strVarsets as))).flatMap fun a =>
      if a.idVarset.hasCommonVar r.idVarset || a.strVarset.hasCommonVar r.strVarset
        then a.result.map (projectRow a r.idVarset r.strVarset) else [] := by rw [← eq]; rfl
  rw [eq, result, flatMap_map, map_flatMap]
  refine flatMap_congr fun a member => ?_
  have suits : Suits proj r.idVarset r.strVarset (alignProjected term proj (strVarsets as) a) := by
    rw [← eq]
    exact suits_alignProjected member
  have taken := suits.hasCommonVar_iff
  simp only [mem_getAllVarset_alignProjected] at taken
  by_cases some' : ∃ v ∈ proj, v ∈ a.getAllVarset
  · rw [if_pos (taken.mpr some'), if_pos some', map_map]
    have same := congrArg (List.map (Solution.project proj))
      (@alignProjected_solutions V _ term proj (strVarsets as) a (valid a member))
    rw [map_map, map_map] at same
    refine Eq.trans (map_congr_left fun row there => ?_) same
    exact suits.solution_projectRow unbound
      ((alignProjected_valid (valid a member)).rows row there) rfl rfl
  · rw [if_neg (mt taken.mp some'), if_neg some']
    rfl

theorem flatMap_ite_eq_iff {α β : Type} (chosen : α → Prop) [DecidablePred chosen] (f : α → List β)
    (l : List α) :
    (l.flatMap fun x => if chosen x then f x else []) = l.flatMap f ↔ ∀ x ∈ l, f x ≠ [] →
    chosen x := by
  have shorter : ∀ l : List α, (l.flatMap fun x => if chosen x then f x else []).length ≤
      (l.flatMap f).length := by
    intro l
    induction l with
    | nil => exact Nat.le_refl 0
    | cons x l ih =>
      rw [flatMap_cons, flatMap_cons, length_append, length_append]
      split
      · omega
      · rw [length_nil]
        omega
  induction l with
  | nil => simp
  | cons x l ih =>
    rw [flatMap_cons, flatMap_cons, forall_mem_cons]
    by_cases here : chosen x
    · rw [if_pos here, append_cancel_left_eq]
      exact ih.trans ⟨fun rest => ⟨fun _ => here, rest⟩, And.right⟩
    · rw [if_neg here, nil_append]
      constructor
      · intro equal
        have empty : f x = [] := by
          have lengths := congrArg List.length equal
          rw [length_append] at lengths
          have := shorter l
          exact length_eq_zero_iff.mp (by omega)
        rw [empty, nil_append] at equal
        exact ⟨fun row => absurd empty row, ih.mp equal⟩
      · rintro ⟨first, rest⟩
        have empty : f x = [] := not_not.mp fun row => here (first row)
        rw [empty, nil_append]
        exact ih.mpr rest

theorem projectRow_fits (idCols : r.idVarset = ids)
    (strCols : r.strVarset = strs) : r.Fits (projectRow a ids strs row) :=
  ⟨by simp [projectRow, Varset.mapTo, idCols, Varset.size], by simp [projectRow, Varset.mapTo, strCols, Varset.size]⟩

theorem doProjection1_valid : (doProjection1 term proj as).Valid := by
  refine ⟨fun v inside => (Varset.mem_sub.mp inside).2, fun row member => ?_⟩
  obtain ⟨a, -, there⟩ := mem_flatMap.mp member
  split at there
  · obtain ⟨old, -, rfl⟩ := mem_map.mp there
    exact projectRow_fits rfl rfl
  · cases there

end Projection

section Distinct

variable {a : TempResult V} {row other : ResultPair}

theorem TempResult.row_eq_of_key (disjoint : a.Disjoint) (fits : a.Fits row) (fits' : a.Fits other)
    (same : a.key a.getAllVarset row = a.key a.getAllVarset other) : row = other := by
  have cells : ∀ v, v ∈ a.idVarset ∨ v ∈ a.strVarset → a.cellAt row v = a.cellAt other v :=
    fun v there => map_inj_left.mp same v (Varset.mem_add.mpr there)
  have ids : row.id = other.id := by
    refine Varset.row_ext fits.ids fits'.ids fun v there => ?_
    obtain ⟨m, found, cell⟩ := cellAt_id disjoint fits there
    obtain ⟨n, found', cell'⟩ := cellAt_id disjoint fits' there
    rw [found, found', Cell.id.inj (cell.symm.trans ((cells v (.inl there)).trans cell'))]
  have strs : row.str = other.str := by
    refine Varset.row_ext fits.strs fits'.strs fun v there => ?_
    obtain ⟨s, found, cell⟩ := cellAt_str disjoint fits there
    obtain ⟨t, found', cell'⟩ := cellAt_str disjoint fits' there
    rw [found, found', Cell.str.inj (cell.symm.trans ((cells v (.inr there)).trans cell'))]
  cases row
  cases other
  exact congr (congrArg ResultPair.mk ids) strs

theorem TempResult.placeRow_self (fits : a.Fits row) : a.placeRow a row = row := by
  have ids : (a.placeRow a row).id = row.id :=
      Varset.row_ext (placeRow_fits a a row).ids fits.ids fun v _ =>
    congrFun (Varset.column_place fits.ids fun _ => Iff.rfl) v
  have strs : (a.placeRow a row).str = row.str :=
      Varset.row_ext (placeRow_fits a a row).strs fits.strs fun v _ =>
    congrFun (Varset.column_place fits.strs fun _ => Iff.rfl) v
  cases row
  exact congr (congrArg ResultPair.mk ids) strs

theorem changedRows_eq_destutter {same : ResultPair → ResultPair → Bool} {before : ResultPair}
    {rows : List ResultPair}
    (exact : ∀ x ∈ before :: rows, ∀ y ∈ before :: rows, same x y = true ↔ x = y) :
    before :: changedRows same before rows = (before :: rows).destutter (· ≠ ·) := by
  rw [destutter_cons']
  induction rows generalizing before with
  | nil => rfl
  | cons row rows ih =>
    have rest := ih fun x hx y hy => exact x (mem_cons_of_mem before hx) y
      (mem_cons_of_mem before hy)
    have here := exact row (by simp) before (by simp)
    rw [changedRows, destutter'_cons]
    obtain rfl | equal := eq_or_ne row before
    · rw [if_pos (here.mpr rfl), if_neg (not_not.mpr rfl), rest]
    · rw [if_neg (mt here.mp equal), if_pos (Ne.symm equal), rest]

theorem sort_perm (a : TempResult V) :
    (a.sort (a.getAllVarset.mapTo a.getAllVarset)).result.Perm a.result :=
  (a.strictWeak a.getAllVarset).quickSortList_perm a.result

theorem doDistinct1_result (valid : a.Valid) : (doDistinct1 a).result =
    (a.sort (a.getAllVarset.mapTo a.getAllVarset)).result.destutter (· ≠ ·) := by
  have decides : ∀ x ∈ a.result, ∀ y ∈ a.result,
    (compareRow x a.idCols (a.getAllVarset.mapTo a.getAllVarset) y a.idCols
      (a.getAllVarset.mapTo a.getAllVarset) == .eq) = true ↔ x = y := by
    intro x hx y hy
    rw [TempResult.compareRow_eq (a.alikeOn_self a.getAllVarset), beq_iff_eq,
        Std.LawfulEqCmp.compare_eq_iff_eq]
    exact ⟨TempResult.row_eq_of_key valid.disjoint (valid.rows x hx) (valid.rows y hy),
        fun same => by rw [same]⟩
  have placed : ∀ l : List ResultPair, (∀ x ∈ l, x ∈ a.result) → l.map (a.placeRow a) = l :=
      fun l members =>
    (map_congr_left fun x member => TempResult.placeRow_self
      (valid.rows x (members x member))).trans (map_id l)
  have inside : ∀ x ∈ (a.sort (a.getAllVarset.mapTo a.getAllVarset)).result, x ∈ a.result :=
      fun x =>
    (sort_perm a).mem_iff.mp
  simp only [doDistinct1]
  generalize (a.sort (a.getAllVarset.mapTo a.getAllVarset)).result = rows at inside
  cases rows with
  | nil => rfl
  | cons first rows =>
    dsimp only
    rw [changedRows_eq_destutter fun x hx y hy => decides x (inside x hx) y (inside y hy)]
    exact placed _ fun x member => inside x ((destutter_sublist _ _).mem member)

theorem mem_doDistinct1 (valid : a.Valid) : row ∈ (doDistinct1 a).result ↔ row ∈ a.result := by
  rw [doDistinct1_result valid, mem_destutter_ne, (sort_perm a).mem_iff]

theorem doDistinct1_nodup (valid : a.Valid) : (doDistinct1 a).result.Nodup := by
  rw [doDistinct1_result valid]
  have fits : ∀ x ∈ (a.sort (a.getAllVarset.mapTo a.getAllVarset)).result, a.Fits x :=
      fun x there =>
    valid.rows x ((sort_perm a).mem_iff.mp there)
  have sorted : (a.sort (a.getAllVarset.mapTo a.getAllVarset)).result.Pairwise fun x y =>
      (Ord.compare (a.key a.getAllVarset x) (a.key a.getAllVarset y)).isLE = true := by
    refine ((a.strictWeak a.getAllVarset).quickSortList_sorted a.result).imp fun {x y} before => ?_
    rw [beq_eq_false_iff_ne, TempResult.compareRow_eq (a.alikeOn_self a.getAllVarset)] at before
    exact (isLE_iff_not_lt _ _).mpr before
  refine destutter_nodup sorted fun x hx y hy up down => ?_
  exact TempResult.row_eq_of_key valid.disjoint (fits x hx) (fits y hy)
    (Std.LawfulEqCmp.eq_of_compare (Std.OrientedCmp.isLE_antisymm up down))

end Distinct

section Result

variable {term : V → Nat → String} {proj : Varset V} {as : List (TempResult V)}

/-- The rows of a part are kept if and only if the part has a projected variable. -/
theorem projectsExactly_iff (unbound : ∀ v, term v invalidID = "") (valid : ∀ a ∈ as, a.Valid) :
    ProjectsExactly term proj as ↔ ∀ a ∈ as, a.result ≠ [] → ∃ v ∈ proj, v ∈ a.getAllVarset := by
  have rows := flatMap_ite_eq_iff (fun a : TempResult V => ∃ v ∈ proj, v ∈ a.getAllVarset)
    (fun a => a.result.map fun row => (a.reading term row).solution.project proj) as
  rw [← doProjection1_rows unbound valid] at rows
  simp only [ne_eq, map_eq_nil_iff] at rows
  exact ⟨fun exactly => rows.mp exactly.rows,
    fun shown => ⟨rows.mpr shown, doDistinct1_nodup doProjection1_valid,
        fun _ => mem_doDistinct1 doProjection1_valid⟩⟩

end Result

def oneValue (v : Bool) (n : Nat) : TempResult Bool := ⟨⟨[v], nodup_singleton v⟩, ∅, [⟨[n], []⟩]⟩

def oneTerm (n : Nat) : String := if n = invalidID then "" else "<a>"

theorem oneValue_valid (v : Bool) (n : Nat) : (oneValue v n).Valid := by
  refine ⟨fun _ _ => Varset.not_mem_empty _, fun row member => ?_⟩
  obtain rfl := mem_singleton.mp member
  exact ⟨rfl, rfl⟩

theorem two_values_projected :
    ProjectsExactly (fun _ => oneTerm) ⟨[true], by decide⟩ [oneValue true 3, oneValue true 4] :=
  (projectsExactly_iff (fun _ => rfl)
    (by simp only [forall_mem_cons, oneValue_valid, not_mem_nil, false_imp_iff, implies_true, and_self])).mpr
    (by
      intro a member _
      refine ⟨true, mem_singleton_self true, ?_⟩
      rcases mem_pair.mp member with rfl | rfl <;> decide)

/-- The row of the second part binds none of the projected variables. -/
theorem other_branch_dropped :
    ¬ ProjectsExactly (fun _ => oneTerm)
    ⟨[true], by decide⟩ [oneValue true 3, oneValue false 4] := by
  intro exactly
  exact absurd (congrArg List.length exactly.rows) (by decide)

end GStore.Results
