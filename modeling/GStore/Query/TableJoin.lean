import GStore.Query.EdgeFilter
import GStore.Query.Varset
import Mathlib.Data.Multiset.Bind

/-! The join of two tables: `Executor::JoinTable`, which hashes the larger table by the public
variables that the constructor of `PlanTree` records for two plans. -/
namespace GStore.Executor
open List

/-- `pos_id_map` and the records. `id_pos_map` is its inverse. -/
structure IntermediateResult where
  cols : List Nat
  values : TableContent

def keyOf (cols publicVars record : List Nat) : List Nat :=
  publicVars.map fun v => record.getD (positionOf cols v) 0

def indexRecords (key : List Nat → List Nat) (records : List (List Nat)) :
    List Nat → Option (List (List Nat)) :=
  records.foldl (fun index record => Function.update index (key record)
      (some ((index (key record)).getD [] ++ [record])))
    fun _ => none

def insertedOf (cols publicVars record : List Nat) : List Nat :=
  (cols.zip record).filterMap fun p => if p.1 ∈ publicVars then none else some p.2

/-- The position map of the result. An unknown public variable is put into `big_id_pos` by the
lookup, and the size of that map is read behind it. -/
def joinedCols (big small publicVars : List Nat) : List Nat :=
  (List.range (big.length + (publicVars.filter (· ∉ big)).dedup.length)).map (big.getD · 0) ++
    small.filter (· ∉ publicVars)

def joinBigSmall (publicVars : List Nat) (big small : IntermediateResult) : IntermediateResult :=
  let index := indexRecords (keyOf big.cols publicVars) big.values.rows
  let rows := small.values.rows.flatMap fun record =>
    match index (keyOf small.cols publicVars record) with
    | none => []
    | some matched => matched.map (· ++ insertedOf small.cols publicVars record)
  ⟨joinedCols big.cols small.cols publicVars, rows, BitVec.ofNat 64 rows.length⟩

def joinTable (publicVars : List Nat) (a b : IntermediateResult) : IntermediateResult :=
  if b.values.size < a.values.size then joinBigSmall publicVars a b else joinBigSmall publicVars b a

def binding (cols record : List Nat) (v : Nat) : Option Nat := record[cols.idxOf v]?

variable (a b : IntermediateResult)

def Agree (ra rb : List Nat) : Prop :=
  ∀ v ∈ a.cols, v ∈ b.cols → binding a.cols ra v = binding b.cols rb v

instance (a b : IntermediateResult) (ra rb : List Nat) : Decidable (Agree a b ra rb) :=
  inferInstanceAs (Decidable (∀ v ∈ a.cols, _))

def combine (ra rb : List Nat) : Option (Nat → Option Nat) :=
  if Agree a b ra rb then some fun v => (binding a.cols ra v).or (binding b.cols rb v) else none

def naturalJoin : Multiset (Nat → Option Nat) :=
  (a.values.rows : Multiset (List Nat)).bind fun ra =>
    (b.values.rows : Multiset (List Nat)).filterMap (combine a b ra)

structure IntermediateResult.Of (p : PlanVars) (t : IntermediateResult) : Prop where
  distinct : t.cols.Nodup
  columns : ∀ v, v ∈ t.cols ↔ v ∈ p.bound
  fits : ∀ record ∈ t.values.rows, record.length = t.cols.length

/-- The step joins on the common variables, and gives the natural join of any two tables of its
plans. -/
structure JoinsNaturally (left right : PlanVars) (joinNodes : List Nat) : Prop where
  common : ∀ v, v ∈ publicVariables left right joinNodes ↔ v ∈ left.bound ∧ v ∈ right.bound
  table : ∀ a b : IntermediateResult, a.Of left → b.Of right →
    (joinTable (publicVariables left right joinNodes) a b).Of (left.join right)
  rows : ∀ a b : IntermediateResult, a.Of left → b.Of right →
    ((joinTable (publicVariables left right joinNodes) a b).values.rows : Multiset (List Nat)).map
      (binding (joinTable (publicVariables left right joinNodes) a b).cols) = naturalJoin a b

section Index

theorem indexRecords_eq (key : List Nat → List Nat) (records : List (List Nat)) (k : List Nat) :
    (indexRecords key records k).getD [] = records.filter fun record => key record = k := by
  have fold : ∀ (records : List (List Nat)) (index : List Nat → Option (List (List Nat))),
      ((records.foldl (fun index record =>
        Function.update index (key record) (some ((index (key record)).getD [] ++ [record]))) index)
        k).getD [] =
        (index k).getD [] ++ records.filter fun record => key record = k := by
    intro records
    induction records with
    | nil => simp
    | cons record records ih =>
      intro index
      rw [foldl_cons, ih]
      obtain rfl | same := eq_or_ne (key record) k
      · simp
      · simp [Function.update_of_ne (Ne.symm same), same]
  exact (fold records fun _ => none).trans (nil_append _)

theorem joinBigSmall_rows (publicVars : List Nat) (big small : IntermediateResult) :
    (joinBigSmall publicVars big small).values.rows = small.values.rows.flatMap fun record =>
      (big.values.rows.filter fun other => keyOf big.cols publicVars other =
        keyOf small.cols publicVars record).map
        (· ++ insertedOf small.cols publicVars record) := by
  refine flatMap_congr fun record _ => ?_
  rw [← indexRecords_eq]
  cases indexRecords (keyOf big.cols publicVars) big.values.rows
    (keyOf small.cols publicVars record) <;> rfl

end Index

section Join

variable {publicVars : List Nat} {big small : IntermediateResult} {other record : List Nat}

theorem keyOf_value {cols : List Nat} {v : Nat} (fits : record.length = cols.length)
    (inside : v ∈ cols) :
    binding cols record v = some (record.getD (positionOf cols v) 0) := by
  have position : cols.idxOf v < record.length := fits ▸ idxOf_lt_length_iff.mpr inside
  simp [binding, positionOf_eq inside, getD_eq_getElem?_getD, position]

variable (common : ∀ v, v ∈ publicVars ↔ v ∈ big.cols ∧ v ∈ small.cols)
include common

theorem keyOf_eq_iff (fitsBig : other.length = big.cols.length)
    (fitsSmall : record.length = small.cols.length) :
    keyOf big.cols publicVars other = keyOf small.cols publicVars record ↔
    Agree big small other record := by
  unfold keyOf Agree
  rw [map_inj_left]
  constructor
  · intro same v inBig inSmall
    rw [keyOf_value fitsBig inBig, keyOf_value fitsSmall inSmall,
        same v ((common v).mpr ⟨inBig, inSmall⟩)]
  · intro agree v inside
    obtain ⟨inBig, inSmall⟩ := (common v).mp inside
    have same := agree v inBig inSmall
    rw [keyOf_value fitsBig inBig, keyOf_value fitsSmall inSmall] at same
    exact Option.some.inj same

theorem joinedCols_eq :
    joinedCols big.cols small.cols publicVars = big.cols ++ small.cols.filter (· ∉ publicVars) := by
  have known : publicVars.filter (· ∉ big.cols) = [] := by
    rw [filter_eq_nil_iff]
    intro v inside
    simpa using ((common v).mp inside).1
  rw [joinedCols, known, dedup_nil, length_nil, Nat.add_zero]
  congr 1
  refine ext_getElem (by simp) fun i lower upper => ?_
  simp [getD_eq_getElem?_getD, getElem?_eq_getElem upper]

omit common in
theorem insertedOf_length (publicVars : List Nat) {cols : List Nat}
    (fits : record.length = cols.length) :
    (insertedOf cols publicVars record).length = (cols.filter (· ∉ publicVars)).length :=
  Varset.filterMap_zip_length (· ∈ publicVars) (fun _ x => x) fits

theorem binding_combined
    (fitsBig : other.length = big.cols.length) (fitsSmall : record.length = small.cols.length)
    (v : Nat) :
    binding (joinedCols big.cols small.cols publicVars)
    (other ++ insertedOf small.cols publicVars record) v =
      (binding big.cols other v).or (binding small.cols record v) := by
  rw [joinedCols_eq common]
  unfold binding
  by_cases inBig : v ∈ big.cols
  · have position : big.cols.idxOf v < other.length := fitsBig ▸ idxOf_lt_length_iff.mpr inBig
    rw [idxOf_append_of_mem inBig, getElem?_append_left position, getElem?_eq_getElem position]
    rfl
  · have notPublic : v ∉ publicVars := fun inside => inBig ((common v).mp inside).1
    have absent : other[big.cols.idxOf v]? = none := by
      rw [getElem?_eq_none_iff, fitsBig, idxOf_eq_length_iff.mpr inBig]
    rw [absent, Option.none_or, idxOf_append_of_notMem inBig, ← fitsBig,
        getElem?_append_right (by omega),
      Nat.add_sub_cancel_left]
    have found := Varset.filterMap_zip_getElem? (· ∈ publicVars) (fun _ x => x) fitsSmall notPublic
    rw [Option.map_id'] at found
    exact found

omit common in
theorem combine_comm (ra rb : List Nat) (fitsA : ra.length = big.cols.length)
    (fitsB : rb.length = small.cols.length) :
    combine big small ra rb = combine small big rb ra := by
  have symm : Agree big small ra rb ↔ Agree small big rb ra :=
    ⟨fun agree v inSmall inBig => (agree v inBig inSmall).symm, fun agree v inBig inSmall =>
      (agree v inSmall inBig).symm⟩
  unfold combine
  by_cases agree : Agree big small ra rb
  · rw [if_pos agree, if_pos (symm.mp agree), Option.some.injEq]
    funext v
    by_cases inBig : v ∈ big.cols
    · by_cases inSmall : v ∈ small.cols
      · rw [agree v inBig inSmall]
      · have absent : binding small.cols rb v = none := by
          rw [binding, getElem?_eq_none_iff, fitsB, idxOf_eq_length_iff.mpr inSmall]
        rw [absent, Option.or_none, Option.none_or]
    · have absent : binding big.cols ra v = none := by
        rw [binding, getElem?_eq_none_iff, fitsA, idxOf_eq_length_iff.mpr inBig]
      rw [absent, Option.or_none, Option.none_or]
  · rw [if_neg agree, if_neg (mt symm.mpr agree)]

theorem joinBigSmall_bindings (fitsBig : ∀ other ∈ big.values.rows, other.length = big.cols.length)
    (fitsSmall : ∀ record ∈ small.values.rows, record.length = small.cols.length) :
    (joinBigSmall publicVars big small).values.rows.map
    (binding (joinBigSmall publicVars big small).cols) =
      small.values.rows.flatMap fun record => big.values.rows.filterMap fun other =>
      combine big small other record := by
  rw [joinBigSmall_rows, map_flatMap]
  refine flatMap_congr fun record inSmall => ?_
  rw [map_map, ← filterMap_eq_map, filterMap_filter]
  refine filterMap_congr fun other inBig => ?_
  have fits := fitsBig other inBig
  have fits' := fitsSmall record inSmall
  simp only [decide_eq_true_eq, keyOf_eq_iff common fits fits', combine, Function.comp_def]
  congr 2
  funext v
  exact binding_combined common fits fits' v

omit common in
theorem joinTable_bindings {a b : IntermediateResult}
    (common : ∀ v, v ∈ publicVars ↔ v ∈ a.cols ∧ v ∈ b.cols)
    (fitsA : ∀ ra ∈ a.values.rows, ra.length = a.cols.length)
    (fitsB : ∀ rb ∈ b.values.rows, rb.length = b.cols.length) :
    ((joinTable publicVars a b).values.rows : Multiset (List Nat)).map
    (binding (joinTable publicVars a b).cols) =
      naturalJoin a b := by
  rw [Multiset.map_coe, joinTable]
  split
  · rw [joinBigSmall_bindings common fitsA fitsB, ← Multiset.coe_bind]
    unfold naturalJoin
    simp only [← Multiset.filterMap_coe, Multiset.filterMap_eq_bind]
    exact Multiset.bind_bind _ _
  · have swapped : ∀ v, v ∈ publicVars ↔ v ∈ b.cols ∧ v ∈ a.cols :=
      fun v => (common v).trans and_comm
    rw [joinBigSmall_bindings swapped fitsB fitsA, ← Multiset.coe_bind]
    refine Multiset.bind_congr fun ra inA => ?_
    rw [Multiset.filterMap_coe]
    refine congrArg _ (filterMap_congr fun rb inB => ?_)
    exact (combine_comm ra rb (fitsA ra inA) (fitsB rb inB)).symm

theorem joinBigSmall_table {p : PlanVars} (distinctBig : big.cols.Nodup)
    (distinctSmall : small.cols.Nodup)
    (fitsBig : ∀ other ∈ big.values.rows, other.length = big.cols.length)
    (fitsSmall : ∀ record ∈ small.values.rows, record.length = small.cols.length)
    (columns : ∀ v, v ∈ p.bound ↔ v ∈ big.cols ∨ v ∈ small.cols) :
    (joinBigSmall publicVars big small).Of p := by
  have cols : (joinBigSmall publicVars big small).cols = big.cols ++ small.cols.filter
      (· ∉ publicVars) :=
    joinedCols_eq common
  refine ⟨?_, fun v => ?_, fun row member => ?_⟩
  · rw [cols, nodup_append]
    refine ⟨distinctBig, distinctSmall.filter _, fun v inBig w inSmall same => ?_⟩
    obtain ⟨there, notPublic⟩ := mem_filter.mp inSmall
    exact absurd ((common w).mpr ⟨same ▸ inBig, there⟩) (by simpa using notPublic)
  · rw [cols, mem_append, mem_filter, columns, decide_eq_true_eq, common]
    by_cases inBig : v ∈ big.cols <;> simp [inBig]
  · rw [joinBigSmall_rows] at member
    obtain ⟨record, inSmall, made⟩ := mem_flatMap.mp member
    obtain ⟨other, inBig, rfl⟩ := mem_map.mp made
    rw [cols, length_append, length_append, fitsBig other (mem_of_mem_filter inBig),
      insertedOf_length publicVars (fitsSmall record inSmall)]

end Join

section Step

variable {left right : PlanVars} {joinNodes : List Nat}

theorem mem_join_bound (v : Nat) :
    v ∈ (left.join right).bound ↔ v ∈ left.bound ∨ v ∈ right.bound := by
  simp only [PlanVars.bound, PlanVars.join, mem_append, mem_filter, decide_eq_true_eq]
  by_cases inSo : v ∈ left.soVar <;> by_cases inPre : v ∈ left.preVar <;> simp [inSo, inPre]

theorem mem_publicVariables (v : Nat) : v ∈ publicVariables left right joinNodes ↔
    v ∈ joinNodes ∨ v ∈ left.preVar ∧ (v ∈ right.preVar ∨ right.bound ≠ []) := by
  rw [publicVariables, mem_append, mem_filter]
  simp only [Bool.or_eq_true, decide_eq_true_eq, Bool.not_eq_true', Bool.and_eq_false_iff,
      isEmpty_eq_false_iff,
    PlanVars.bound, ne_eq, append_eq_nil_iff, not_and_or]
  rw [or_comm (a := right.preVar ≠ [])]

/-- Nothing is bound on the right, or each predicate variable of the left plan is bound there too,
and a variable that the left plan has as a subject or object and the right plan as a predicate is
also in the other role on one side. -/
def PublicExact (left right : PlanVars) : Prop :=
  right.bound = [] ∨ (∀ v ∈ left.preVar, v ∈ right.bound) ∧
    ∀ v ∈ left.soVar, v ∈ right.preVar → v ∈ right.soVar ∨ v ∈ left.preVar

theorem publicVariables_common_iff (nodes : ∀ v, v ∈ joinNodes ↔ v ∈ left.soVar ∧ v ∈ right.soVar) :
    (∀ v, v ∈ publicVariables left right joinNodes ↔ v ∈ left.bound ∧ v ∈ right.bound) ↔
    PublicExact left right := by
  simp only [mem_publicVariables, nodes, PublicExact]
  obtain none | some := eq_or_ne right.bound []
  · obtain ⟨noNode, noPredicate⟩ := append_eq_nil_iff.mp none
    simp [none, noNode, noPredicate]
  · simp only [ne_eq, some, not_false_eq_true, or_true, and_true, false_or]
    simp only [PlanVars.bound, mem_append]
    constructor
    · intro same
      exact ⟨fun v inLeft => ((same v).mp (.inr inLeft)).2, fun v node predicate =>
        ((same v).mpr ⟨.inl node, .inr predicate⟩).imp And.right id⟩
    · rintro ⟨within, roles⟩ v
      have inside := within v
      have role := roles v
      tauto

/-- The step records the common variables and computes the natural join exactly under `PublicExact`,
where `join_nodes` are the common subject and object variables, as the caller makes them. -/
theorem joinsNaturally_iff (nodes : ∀ v, v ∈ joinNodes ↔ v ∈ left.soVar ∧ v ∈ right.soVar) :
    JoinsNaturally left right joinNodes ↔ PublicExact left right := by
  have common_iff := publicVariables_common_iff nodes
  refine ⟨fun joins => common_iff.mp joins.common, fun condition => ?_⟩
  have common := common_iff.mpr condition
  have columns : ∀ a b : IntermediateResult, a.Of left → b.Of right → ∀ v,
      v ∈ publicVariables left right joinNodes ↔ v ∈ a.cols ∧ v ∈ b.cols := fun a b ofA ofB v => by
    rw [common, ofA.columns, ofB.columns]
  refine ⟨common, fun a b ofA ofB => ?_,
      fun a b ofA ofB => joinTable_bindings (columns a b ofA ofB) ofA.fits ofB.fits⟩
  have both : ∀ v, v ∈ (left.join right).bound ↔ v ∈ a.cols ∨ v ∈ b.cols := fun v => by
    rw [mem_join_bound, ofA.columns, ofB.columns]
  unfold joinTable
  split
  · exact joinBigSmall_table (columns a b ofA ofB) ofA.distinct ofB.distinct ofA.fits ofB.fits both
  · exact joinBigSmall_table
      (fun v => (columns a b ofA ofB v).trans and_comm) ofB.distinct ofA.distinct ofB.fits ofA.fits
      fun v => (both v).trans or_comm

end Step

/-- Two plans with a common node and a common predicate variable. -/
theorem common_predicate_joins : JoinsNaturally ⟨[1, 2], [7]⟩ ⟨[2, 3], [7]⟩ [2] :=
  (joinsNaturally_iff (by simp; omega)).mpr (.inr (by simp [PlanVars.bound]))

/-- The predicate variable of the left plan alone is taken for a common one. -/
theorem left_predicate_is_public : ¬ JoinsNaturally ⟨[1, 2], [7]⟩ ⟨[2, 3], []⟩ [2] := by
  intro joins
  exact absurd ((joins.common 7).mp (by decide)) (by decide)

end GStore.Executor
