import GStore.KVstore.Reads
import GStore.Query.PlanTree
import GStore.Lib.Search
import Mathlib.Data.BitVec

/-! `Executor::ANodeEdgesConstraintFilter` with `OneEdgeConstraintFilter` and
`FilterAVariableOnIDList`: the rows of a table that have the edges of a check. A table is a
`std::list`, which keeps its size in a field of its own. -/
namespace GStore.Executor

open Lib List

/-- `join_method_`: the methods that find one id and those that find two. -/
inductive EdgeMethod where
  | one (m : JoinMethod)
  | two (m : PairMethod)
  deriving DecidableEq

/-- `EdgeInfo` with its `EdgeConstantInfo`: at each position the id of a variable or a constant. -/
structure EdgeInfo where
  id : Position → Nat
  constant : Position → Bool
  method : EdgeMethod

/-- A `TableContent`: the rows in the chain of nodes, and the field that `size()` reads. -/
structure TableContent where
  rows : List (List Nat)
  size : BitVec 64
  deriving DecidableEq

namespace TableContent

def empty : TableContent := ⟨[], 0⟩

def pushBack (t : TableContent) (row : List Nat) : TableContent := ⟨t.rows ++ [row], t.size + 1⟩

end TableContent

/-- `id_pos_map[v]`, where `cols` are the variables of the columns. What is unknown gets the
position 0. -/
def positionOf (cols : List Nat) (v : Nat) : Nat := if v ∈ cols then cols.idxOf v else 0

variable (values : Key → Option (List Nat))

/-- The list that the `switch` over the join methods reads, with duplicates unless `distinct`. -/
def candidatesOfEdge (distinct : Bool) (m : JoinMethod) (id : Position → Nat) :
    List Nat :=
  (match m with
  | .s2p => getpreIDlistBysubID values (id .subject) distinct
  | .s2o => getobjIDlistBysubID values (id .subject) distinct
  | .p2s => getsubIDlistBypreID values (id .predicate) distinct
  | .p2o => getobjIDlistBypreID values (id .predicate) distinct
  | .o2s => getsubIDlistByobjID values (id .object) distinct
  | .o2p => getpreIDlistByobjID values (id .object) distinct
  | .so2p => getpreIDlistBysubIDobjID values (id .subject) (id .object) distinct
  | .sp2o => getobjIDlistBysubIDpreID values (id .subject) (id .predicate) distinct
  | .po2s => getsubIDlistByobjIDpreID values (id .object) (id .predicate) distinct).getD []

def edgeCandidateList (m : JoinMethod) (id : Position → Nat) : List Nat :=
  candidatesOfEdge values true m id

namespace EdgeInfo

def constantToVar (e : EdgeInfo) (m : JoinMethod) : Bool := m.given.all e.constant

def idInRecord (cols : List Nat) (e : EdgeInfo) (record : List Nat) (q : Position) : Nat :=
  if e.constant q then e.id q else record.getD (positionOf cols (e.id q)) 0

end EdgeInfo

/-- Both results are those of the table read and the table made. With `remain_old` unset each row is
erased. -/
def filterAVariableOnIDList (candidates : List Nat) (position : Nat) (table : TableContent)
    (remainOld : Bool) :
    TableContent × TableContent :=
  (if remainOld then table else ⟨[], table.size - BitVec.ofNat 64 table.rows.length⟩,
    table.rows.foldl (fun new record => if binarySearchIn candidates
      (record.getD position 0) then new.pushBack record
      else new) TableContent.empty)

/-- One turn of the loop over the records. The row is erased with
`result_table->erase(record_iterator)`: the node goes from the chain of the table read, and the size
that falls is that of the table made. -/
def checkRecord (cols : List Nat) (remainOld : Bool) (e : EdgeInfo) (m : JoinMethod)
    (new : TableContent) (record : List Nat) : TableContent :=
  let new := if binarySearchIn (edgeCandidateList values m (e.idInRecord cols record))
    (e.idInRecord cols record m.found)
    then new.pushBack record else new
  if remainOld then new else { new with size := new.size - 1 }

def oneEdgeConstraintFilter (cols : List Nat) (remainOld : Bool) (e : EdgeInfo)
    (table : TableContent) : Except String (TableContent × TableContent) :=
  match e.method with
  | .two _ => .error "EdgeInfo::getVarToFilter err"
  | .one m =>
    if e.constantToVar m then
      .ok (filterAVariableOnIDList (edgeCandidateList values m e.id)
        (positionOf cols (e.id m.found)) table remainOld)
    else
      .ok (if remainOld then table else { table with rows := [] },
        table.rows.foldl (checkRecord values cols remainOld e m) TableContent.empty)

def filterEdges (cols : List Nat) (remainOld : Bool) (edges : List EdgeInfo)
    (table : TableContent) : Except String TableContent :=
  edges.foldlM (fun table e => (oneEdgeConstraintFilter values cols remainOld e table).map Prod.snd)
    table

/-- The results are those of `old_table` and the new table, which without an edge are one. -/
def aNodeEdgesConstraintFilter (cols : List Nat) (remainOld : Bool) :
    List EdgeInfo → TableContent → Except String (TableContent × TableContent)
  | [], table => .ok (table, table)
  | e :: edges, table => (oneEdgeConstraintFilter values cols remainOld e table).bind fun (left, new) =>
      (filterEdges values cols remainOld edges new).map fun result => (left, result)

def idAt : Position → Triple → Nat
  | .subject, t => t.sub
  | .predicate, t => t.pre
  | .object, t => t.obj

namespace EdgeInfo

def positions (e : EdgeInfo) : List Position :=
  match e.method with
  | .one m => m.found :: m.given
  | .two _ => [.subject, .predicate, .object]

/-- The store has a triple with the constants of the edge and the values of the row. -/
def Satisfied (S : Finset Triple) (cols : List Nat) (e : EdgeInfo) (row : List Nat) : Prop :=
  ∃ t ∈ S, ∀ q ∈ e.positions, idAt q t = if e.constant q then e.id q else row.getD
    (cols.idxOf (e.id q)) 0

instance (S : Finset Triple) (cols : List Nat) (e : EdgeInfo) (row : List Nat) :
    Decidable (e.Satisfied S cols row) :=
  inferInstanceAs (Decidable (∃ t ∈ S, _))

structure Between (cols : List Nat) (e : EdgeInfo) : Prop where
  bound : ∀ q ∈ e.positions, e.constant q = false → e.id q ∈ cols
  column : ∃ q ∈ e.positions, e.constant q = false

def FindsOne (e : EdgeInfo) : Prop := ∃ m, e.method = .one m

end EdgeInfo

/-- The rows that have all edges, in their order, under their number, and the old table as it was if
it is to remain. -/
def FiltersExactly (S : Finset Triple) (cols : List Nat) (remainOld : Bool)
    (edges : List EdgeInfo) (table : TableContent) : Prop :=
  ∃ old new, aNodeEdgesConstraintFilter values cols remainOld edges table = .ok (old, new) ∧
    new.rows = table.rows.filter (fun row => ∀ e ∈ edges, e.Satisfied S cols row) ∧
      new.size.toNat = new.rows.length ∧ (remainOld = true → old = table)

section Lists

variable {values : Key → Option (List Nat)} {S : Finset Triple}

theorem idsOf_getD {M : Finset Triple} {f : Triple → Nat} {read : Option (List Nat)}
    (answer : read = idsOf M f true) :
    (read.getD []).Pairwise (· ≤ ·) ∧ ∀ x, x ∈ read.getD [] ↔ ∃ t ∈ M, f t = x := by
  rw [answer, idsOf]
  split
  · rename_i none
    simp [none]
  · simp only [if_true, Option.getD_some, Finset.mem_sort, Finset.mem_image, implies_true, and_true]
    exact (M.image f).pairwise_sort (· ≤ ·)

theorem candidatesOfEdge_read (reads : ReadsExactly values S) (distinct : Bool) (m : JoinMethod)
    (id : Position → Nat) :
    ∃ M : Finset Triple, (∀ t, t ∈ M ↔ t ∈ S ∧ ∀ q ∈ m.given, idAt q t = id q) ∧
      ∃ read, candidatesOfEdge values distinct m id = read.getD [] ∧
        read = idsOf M (idAt m.found) (if m.listsOnce then true else distinct) := by
  cases m with
  | s2p => exact ⟨_, by simp [JoinMethod.given, idAt], _, rfl, reads.preIDlistBysubID _ _⟩
  | o2p => exact ⟨_, by simp [JoinMethod.given, idAt], _, rfl, reads.preIDlistByobjID _ _⟩
  | s2o => exact ⟨_, by simp [JoinMethod.given, idAt], _, rfl, reads.objIDlistBysubID _ _⟩
  | p2s => exact ⟨_, by simp [JoinMethod.given, idAt], _, rfl, reads.subIDlistBypreID _ _⟩
  | p2o => exact ⟨_, by simp [JoinMethod.given, idAt], _, rfl, reads.objIDlistBypreID _ _⟩
  | o2s => exact ⟨_, by simp [JoinMethod.given, idAt], _, rfl, reads.subIDlistByobjID _ _⟩
  | so2p => exact ⟨_, by simp [JoinMethod.given, idAt], _, rfl, reads.preIDlistBysubIDobjID _ _ _⟩
  | sp2o => exact ⟨_, by simp [JoinMethod.given, idAt], _, rfl, reads.objIDlistBysubIDpreID _ _ _⟩
  | po2s =>
    exact ⟨_, by simp [JoinMethod.given, idAt, and_comm], _, rfl, reads.subIDlistByobjIDpreID _ _ _⟩

theorem edgeCandidateList_spec (reads : ReadsExactly values S) (m : JoinMethod)
    (id : Position → Nat) :
    (edgeCandidateList values m id).Pairwise (· ≤ ·) ∧ ∀ x, x ∈ edgeCandidateList values m id ↔
      ∃ t ∈ S, idAt m.found t = x ∧ ∀ q ∈ m.given, idAt q t = id q := by
  obtain ⟨M, members, read, eq, answer⟩ := candidatesOfEdge_read reads true m id
  rw [ite_self] at answer
  obtain ⟨sorted, elements⟩ := idsOf_getD answer
  rw [edgeCandidateList, eq]
  refine ⟨sorted, fun x => (elements x).trans ⟨?_, ?_⟩⟩
  · rintro ⟨t, inside, found⟩
    exact ⟨t, ((members t).mp inside).1, found, ((members t).mp inside).2⟩
  · rintro ⟨t, inside, found, given⟩
    exact ⟨t, (members t).mpr ⟨inside, given⟩, found⟩

end Lists

section Edge

variable {values : Key → Option (List Nat)} {S : Finset Triple} {cols : List Nat} {remainOld : Bool}
    {e : EdgeInfo}
  {m : JoinMethod} {table : TableContent}

theorem search_iff (reads : ReadsExactly values S) (method : e.method = .one m)
    {id : Position → Nat} {x : Nat}
    {row : List Nat}
    (given : ∀ q ∈ m.given, id q = if e.constant q then e.id q else row.getD
      (cols.idxOf (e.id q)) 0)
    (found : x = if e.constant m.found then e.id m.found else row.getD
      (cols.idxOf (e.id m.found)) 0) :
    binarySearchIn (edgeCandidateList values m id) x = true ↔ e.Satisfied S cols row := by
  obtain ⟨sorted, members⟩ := edgeCandidateList_spec reads m id
  rw [binarySearchIn_iff sorted, members]
  simp only [EdgeInfo.Satisfied, EdgeInfo.positions, method, forall_mem_cons, ← found]
  refine exists_congr fun t => and_congr_right fun _ => and_congr_right fun _ =>
    forall₂_congr fun q inside => ?_
  rw [given q inside]

theorem positionOf_eq {v : Nat} (inside : v ∈ cols) : positionOf cols v = cols.idxOf v :=
  if_pos inside

theorem idInRecord_eq (between : e.Between cols) {q : Position} (inside : q ∈ e.positions)
    (row : List Nat) :
    e.idInRecord cols row q = if e.constant q then e.id q else row.getD
    (cols.idxOf (e.id q)) 0 := by
  unfold EdgeInfo.idInRecord
  cases constant : e.constant q with
  | true => rfl
  | false => rw [positionOf_eq (between.bound q inside constant)]

theorem foldl_rows {keep : List Nat → Prop} [DecidablePred keep]
    {step : TableContent → List Nat → TableContent}
    {less : BitVec 64} (rows : ∀ new row, (step new row).rows = new.rows ++
      if keep row then [row] else [])
    (size : ∀ new row, (step new row).size = new.size + (if keep row then 1 else 0) - less)
    (l : List (List Nat))
    (new : TableContent) : (l.foldl step new).rows = new.rows ++ l.filter keep ∧
      (l.foldl step new).size = new.size + BitVec.ofNat 64
      (l.filter keep).length - BitVec.ofNat 64 l.length * less := by
  have succ : ∀ n, BitVec.ofNat 64 (n + 1) = BitVec.ofNat 64 n + 1 := fun n => BitVec.ofNat_add n 1
  induction l generalizing new with
  | nil => simp
  | cons row l ih =>
    obtain ⟨restRows, restSize⟩ := ih (step new row)
    rw [foldl_cons, restRows, restSize, rows, size, length_cons, succ]
    by_cases kept : keep row
    · rw [if_pos kept, if_pos kept, filter_cons_of_pos (by simpa using kept), length_cons, succ]
      refine ⟨by simp, by ring⟩
    · rw [if_neg kept, if_neg kept, filter_cons_of_neg (by simpa using kept)]
      exact ⟨by simp, by ring⟩

theorem oneEdgeConstraintFilter_spec (reads : ReadsExactly values S) (between : e.Between cols)
    (method : e.method = .one m) (table : TableContent) : ∃ old new,
    oneEdgeConstraintFilter values cols remainOld e table = .ok (old, new) ∧
      new.rows = table.rows.filter (fun row => e.Satisfied S cols row) ∧
      (remainOld = true → old = table) ∧
        new.size = BitVec.ofNat 64 new.rows.length -
          if remainOld || e.constantToVar m then 0 else BitVec.ofNat 64 table.rows.length := by
  have positions : e.positions = m.found :: m.given := by rw [EdgeInfo.positions, method]
  unfold oneEdgeConstraintFilter
  rw [method]
  dsimp only
  by_cases constant : e.constantToVar m
  · have givens : ∀ q ∈ m.given, e.constant q = true := all_eq_true.mp constant
    have column : e.constant m.found = false := by
      obtain ⟨q, inside, isColumn⟩ := between.column
      rw [positions] at inside
      rcases mem_cons.mp inside with rfl | given
      · exact isColumn
      · rw [givens q given] at isColumn
        cases isColumn
    have search : ∀ row : List Nat, binarySearchIn (edgeCandidateList values m e.id)
        (row.getD (positionOf cols (e.id m.found)) 0) = true ↔ e.Satisfied S cols row := by
      intro row
      refine search_iff reads method (fun q given => by rw [if_pos (givens q given)]) ?_
      rw [column, if_neg Bool.false_ne_true,
          positionOf_eq (between.bound _ (by simp [positions]) column)]
    rw [if_pos constant]
    refine ⟨_, _, rfl, ?_⟩
    obtain ⟨rows, size⟩ := @foldl_rows (fun row => e.Satisfied S cols row) _ (fun new record =>
      if binarySearchIn (edgeCandidateList values m e.id)
        (record.getD (positionOf cols (e.id m.found)) 0)
        then new.pushBack record else new) 0
      (fun new row => by simp only [search]; split <;> simp [TableContent.pushBack])
      (fun new row => by simp only [search]; split <;> simp [TableContent.pushBack]) table.rows TableContent.empty
    have kept := rows.trans (nil_append _)
    refine ⟨kept, fun remains => by rw [if_pos remains], size.trans ?_⟩
    rw [constant, Bool.or_true, if_pos rfl, kept]
    simp [TableContent.empty]
  · have search : ∀ row : List Nat, binarySearchIn
      (edgeCandidateList values m (e.idInRecord cols row))
        (e.idInRecord cols row m.found) = true ↔ e.Satisfied S cols row := by
      intro row
      exact search_iff reads method
        (fun q given => idInRecord_eq between
          (by rw [positions]; exact mem_cons_of_mem _ given) row)
        (idInRecord_eq between (by rw [positions]; exact mem_cons_self) row)
    rw [if_neg constant]
    refine ⟨_, _, rfl, ?_⟩
    obtain ⟨rows, size⟩ := @foldl_rows (fun row => e.Satisfied S cols row) _
      (checkRecord values cols remainOld e m)
      (if remainOld then 0 else 1)
      (fun new row => by
        simp only [checkRecord, search]
        cases remainOld <;> by_cases kept :
          e.Satisfied S cols row <;> simp [kept, TableContent.pushBack])
      (fun new row => by
        simp only [checkRecord, search]
        cases remainOld <;> by_cases kept :
          e.Satisfied S cols row <;> simp [kept, TableContent.pushBack])
      table.rows TableContent.empty
    have kept := rows.trans (nil_append _)
    refine ⟨kept, fun remains => by rw [if_pos remains], size.trans ?_⟩
    rw [Bool.eq_false_iff.mpr constant, Bool.or_false, kept]
    cases remainOld <;> simp [TableContent.empty]

end Edge

section Edges

variable {values : Key → Option (List Nat)} {S : Finset Triple} {cols : List Nat} {remainOld : Bool}
  {edges : List EdgeInfo} {table new : TableContent}

theorem filterEdges_findsOne (done : filterEdges values cols remainOld edges table = .ok new) :
    ∀ e ∈ edges, e.FindsOne := by
  induction edges generalizing table with
  | nil => simp
  | cons e edges ih =>
    unfold filterEdges at done
    rw [foldlM_cons] at done
    cases method : e.method with
    | two m =>
      simp only [oneEdgeConstraintFilter, method] at done
      cases done
    | one m =>
      rw [forall_mem_cons]
      refine ⟨⟨m, method⟩, ?_⟩
      cases step : oneEdgeConstraintFilter values cols remainOld e table with
      | error text =>
        rw [step] at done
        cases done
      | ok tables =>
        rw [step] at done
        exact ih done

theorem filterEdges_rows (reads : ReadsExactly values S) (between : ∀ e ∈ edges, e.Between cols)
    (one : ∀ e ∈ edges, e.FindsOne) (table : TableContent) : ∃ new,
    filterEdges values cols remainOld edges table = .ok new ∧
      new.rows = table.rows.filter (fun row => ∀ e ∈ edges, e.Satisfied S cols row) := by
  induction edges generalizing table with
  | nil => exact ⟨table, rfl, by simp⟩
  | cons e edges ih =>
    rw [forall_mem_cons] at between one
    obtain ⟨m, method⟩ := one.1
    obtain ⟨old, next, step, kept, -⟩ :=
      @oneEdgeConstraintFilter_spec _ _ _ remainOld _ _ reads between.1 method table
    obtain ⟨new, rest, rows⟩ := ih between.2 one.2 next
    refine ⟨new, ?_, ?_⟩
    · unfold filterEdges at rest ⊢
      rw [foldlM_cons, step]
      exact rest
    · rw [rows, kept, filter_filter]
      refine filter_congr fun row _ => ?_
      simp [Bool.and_comm]

theorem filterEdges_append (edges : List EdgeInfo) (last : EdgeInfo) (table : TableContent) :
    filterEdges values cols remainOld (edges ++ [last]) table =
      (filterEdges values cols remainOld edges table).bind fun next =>
        (oneEdgeConstraintFilter values cols remainOld last next).map Prod.snd := by
  unfold filterEdges
  rw [foldlM_append]
  congr 1
  funext next
  rw [foldlM_cons]
  cases oneEdgeConstraintFilter values cols remainOld last next <;> rfl

theorem aNodeEdgesConstraintFilter_new (edges : List EdgeInfo) (table : TableContent) :
    (aNodeEdgesConstraintFilter values cols remainOld edges table).map Prod.snd =
      filterEdges values cols remainOld edges table := by
  cases edges with
  | nil => rfl
  | cons e edges =>
    rw [aNodeEdgesConstraintFilter, filterEdges, foldlM_cons]
    cases oneEdgeConstraintFilter values cols remainOld e table with
    | error text => rfl
    | ok tables =>
      change Except.map _ (Except.map _ (filterEdges values cols remainOld edges tables.2)) =
        filterEdges values cols remainOld edges tables.2
      cases filterEdges values cols remainOld edges tables.2 <;> rfl

theorem aNodeEdgesConstraintFilter_old (reads : ReadsExactly values S)
    (between : ∀ e ∈ edges, e.Between cols)
    {old : TableContent} (done : aNodeEdgesConstraintFilter values cols true edges table =
      .ok (old, new)) :
    old = table := by
  cases edges with
  | nil => cases done; rfl
  | cons e edges =>
    rw [aNodeEdgesConstraintFilter] at done
    cases method : e.method with
    | two m =>
      simp only [oneEdgeConstraintFilter, method] at done
      cases done
    | one m =>
      obtain ⟨left, next, step, -, same, -⟩ := @oneEdgeConstraintFilter_spec _ _ _ true _ _ reads
        (between e mem_cons_self) method table
      rw [step] at done
      change Except.map _ (filterEdges values cols true edges next) = _ at done
      cases rest : filterEdges values cols true edges next with
      | error text =>
        rw [rest] at done
        cases done
      | ok result =>
        rw [rest] at done
        cases done
        exact same rfl

theorem filterEdges_size (reads : ReadsExactly values S) {init : List EdgeInfo} {last : EdgeInfo}
    {m : JoinMethod}
    (between : ∀ e ∈ init ++ [last], e.Between cols) (one : ∀ e ∈ init, e.FindsOne)
    (method : last.method = .one m)
    (done : filterEdges values cols remainOld (init ++ [last]) table = .ok new) :
    new.size = BitVec.ofNat 64 new.rows.length - if remainOld || last.constantToVar m then 0
      else BitVec.ofNat 64 (table.rows.filter fun row => ∀ e ∈ init,
            e.Satisfied S cols row).length := by
  obtain ⟨next, first, rows⟩ := @filterEdges_rows _ _ _ remainOld _ reads
    (fun e member => between e (mem_append_left _ member)) one table
  obtain ⟨old, result, step, -, -, size⟩ := @oneEdgeConstraintFilter_spec _ _ _ remainOld _ _ reads
    (between last (by simp)) method next
  rw [filterEdges_append, first] at done
  change Except.map _ (oneEdgeConstraintFilter values cols remainOld last next) = _ at done
  rw [step] at done
  cases done
  rw [← rows]
  exact size

end Edges

/-- The size is wrong when the last edge takes rows from a table that does not remain, one by one.
-/
def CountedRight (S : Finset Triple) (cols : List Nat) (remainOld : Bool) (edges : List EdgeInfo)
    (table : TableContent) :
    Prop :=
  remainOld = true ∨ ∀ last ∈ edges.getLast?,
    (∀ m, last.method = .one m → last.constantToVar m = true) ∨
    ∀ row ∈ table.rows, ∃ e ∈ edges.dropLast, ¬ e.Satisfied S cols row

theorem edge_checks_exact_iff (kv : KVstore) (S : Finset Triple) (consistent : kv.Consistent S)
    (cols : List Nat)
    (remainOld : Bool) (edges : List EdgeInfo) (between : ∀ e ∈ edges, e.Between cols)
    (table : TableContent)
    (counted : table.size.toNat = table.rows.length) :
    FiltersExactly kv.getValueByKey S cols remainOld edges table ↔
      (∀ e ∈ edges, e.FindsOne) ∧ CountedRight S cols remainOld edges table := by
  have reads := consistent.reads
  have short : ∀ keep : List Nat → Bool, (table.rows.filter keep).length < 2 ^ 64 := fun keep =>
    (length_filter_le keep table.rows).trans_lt (counted ▸ table.size.isLt)
  constructor
  · rintro ⟨old, new, done, rows, size, -⟩
    have chain : filterEdges kv.getValueByKey cols remainOld edges table = .ok new := by
      rw [← aNodeEdgesConstraintFilter_new, done]
      rfl
    have one := filterEdges_findsOne chain
    refine ⟨one, ?_⟩
    cases remainOld with
    | true => exact .inl rfl
    | false =>
      refine .inr fun last isLast => ?_
      obtain ⟨init, rfl⟩ := getLast?_eq_some_iff.mp isLast
      obtain ⟨m, method⟩ := one last (by simp)
      by_cases constant : last.constantToVar m = true
      · refine .inl fun m' method' => ?_
        rw [method, EdgeMethod.one.injEq] at method'
        exact method' ▸ constant
      · -- the size has the rows read taken off, so there are none
        have taken := filterEdges_size reads between
          (fun e member => one e (mem_append_left _ member)) method chain
        rw [Bool.false_or, if_neg constant, ← size, BitVec.ofNat_toNat, BitVec.setWidth_eq, eq_comm,
            sub_eq_self] at taken
        have none := congrArg BitVec.toNat taken
        rw [BitVec.toNat_ofNat, Nat.mod_eq_of_lt (short _)] at none
        refine .inr fun row member => ?_
        have empty := filter_eq_nil_iff.mp (length_eq_zero_iff.mp none) row member
        simpa using empty
  · rintro ⟨one, right⟩
    obtain ⟨new, chain, rows⟩ := @filterEdges_rows _ _ _ remainOld _ reads between one table
    obtain ⟨old, done⟩ : ∃ old,
        aNodeEdgesConstraintFilter kv.getValueByKey cols remainOld edges table = .ok
        (old, new) := by
      have same := @aNodeEdgesConstraintFilter_new kv.getValueByKey cols remainOld edges table
      rw [chain] at same
      cases result : aNodeEdgesConstraintFilter kv.getValueByKey cols remainOld edges table with
      | error text =>
        rw [result] at same
        cases same
      | ok tables =>
        rw [result] at same
        cases same
        exact ⟨tables.1, rfl⟩
    refine ⟨old, new, done, rows, ?_, fun remains => ?_⟩
    · rcases eq_nil_or_concat edges with rfl | ⟨init, last, rfl⟩
      · cases chain
        exact counted
      · rw [concat_eq_append] at *
        obtain ⟨m, method⟩ := one last (by simp)
        have nothing : (if (remainOld || last.constantToVar m) = true then 0 else BitVec.ofNat 64
            (table.rows.filter fun row => ∀ e ∈ init, e.Satisfied S cols row).length) = 0 := by
          split
          · rfl
          · rename_i both
            rw [Bool.or_eq_true, not_or] at both
            rcases (right.resolve_left both.1) last (by simp) with constant | empty
            · exact absurd (constant m method) both.2
            · rw [dropLast_concat] at empty
              rw [filter_eq_nil_iff.mpr fun row member => by simpa using empty row member]
              rfl
        have size := filterEdges_size reads between
          (fun e member => one e (mem_append_left _ member)) method chain
        rw [size, nothing, sub_zero, BitVec.toNat_ofNat, rows, Nat.mod_eq_of_lt (short _)]
    · subst remains
      exact aNodeEdgesConstraintFilter_old reads between done

def toConstant : EdgeInfo where
  id q := match q with
    | .subject => 7
    | .predicate => 0
    | .object => 1
  constant q := decide (q ≠ .subject)
  method := .one .po2s

def betweenColumns : EdgeInfo where
  id q := match q with
    | .subject => 7
    | .predicate => 0
    | .object => 8
  constant q := decide (q = .predicate)
  method := .one .sp2o

theorem constant_edge_exact :
    FiltersExactly twoObjects.getValueByKey {⟨0, 0, 1⟩, ⟨0, 0, 2⟩} [7] false
    [toConstant] ⟨[[0], [3]], 2⟩ :=
  (edge_checks_exact_iff twoObjects _ twoObjects_consistent [7] false [toConstant]
    (by
      rw [forall_mem_singleton]
      exact ⟨by decide, .subject, by decide, rfl⟩) ⟨[[0], [3]], 2⟩ rfl).mpr
    ⟨by
      rw [forall_mem_singleton]
      exact ⟨_, rfl⟩, .inr (by
      intro last isLast
      cases isLast
      refine .inl fun m method => ?_
      cases method
      rfl)⟩

/-- One row is kept, and the table says that it has none. -/
theorem kept_row_not_counted : twoObjects.Consistent {⟨0, 0, 1⟩, ⟨0, 0, 2⟩} ∧
    ¬ FiltersExactly twoObjects.getValueByKey {⟨0, 0, 1⟩, ⟨0, 0, 2⟩} [7, 8] false
    [betweenColumns] ⟨[[0, 1]], 1⟩ := by
  refine ⟨twoObjects_consistent, ?_⟩
  have computed : aNodeEdgesConstraintFilter twoObjects.getValueByKey [7, 8] false
    [betweenColumns] ⟨[[0, 1]], 1⟩ =
      .ok (⟨[], 1⟩, ⟨[[0, 1]], 0⟩) := by decide +kernel
  rintro ⟨old, new, done, -, size, -⟩
  rw [computed] at done
  cases done
  cases size

end GStore.Executor
