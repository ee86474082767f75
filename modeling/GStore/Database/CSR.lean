import GStore.Database.Invariant

/-! `Database::loadCSR`: for every predicate the entities that it joins, as rows of neighbour lists
laid end to end. `csr[0]` has the objects of each subject, `csr[1]` the subjects of each object. The
readers keep the offsets in an `int`: a predicate is taken to have fewer than `2 ^ 31` edges. -/
namespace GStore
open Lib List

variable (kv : KVstore)

def KVstore.getsubIDlistByobjIDpreID (o p : Nat) : List Nat :=
  if o = invalidID then [] else sublistIn .obj (kv.getValueByKey ⟨.object, o⟩) p

def KVstore.getsubIDlistBypreID (p : Nat) : List Nat :=
  match kv.getValueByKey ⟨.predicate, p⟩ with
  | none => []
  | some tmp => removeDuplicate (copyWords tmp 1 (1 + word tmp 0))

/-- `getobjIDlistBypreID` with `_no_duplicate`; the column of the objects is sorted first. -/
def KVstore.getobjIDlistBypreID (p : Nat) : List Nat :=
  match kv.getValueByKey ⟨.predicate, p⟩ with
  | none => []
  | some tmp =>
    removeDuplicate ((copyWords tmp (1 + word tmp 0) (1 + 2 * word tmp 0)).mergeSort (· ≤ ·))

/-- The four arrays of one predicate, with the loop variables `index` and `offset`. -/
structure CSRRow where
  id2vid : List Nat
  vid2id : Nat → Option Nat
  offsetList : List Nat
  adjacencyList : List Nat
  index : Nat
  offset : Nat

def CSRRow.empty : CSRRow := ⟨[], fun _ => none, [], [], 0, 0⟩

variable (row : CSRRow)

/-- One turn of the loop: the neighbours of `v` are appended, and `v` is a vertex if it has any. An
id that is in the map already keeps its index. -/
def CSRRow.append (v : Nat) (neighbours : List Nat) : CSRRow :=
  let row := { row with adjacencyList := row.adjacencyList ++ neighbours }
  if 0 < neighbours.length then
    { row with
      id2vid := row.id2vid ++ [v]
      vid2id := if (row.vid2id v).isSome then row.vid2id else Function.update row.vid2id v
        (some row.index)
      offsetList := row.offsetList ++ [row.offset]
      index := row.index + 1
      offset := row.offset + neighbours.length }
  else row

structure CSR where
  preNum : Nat
  n : Nat
  m : Nat
  rows : Nat → CSRRow

def KVstore.outRow (p : Nat) : CSRRow :=
  (kv.getsubIDlistBypreID p).foldl
    (fun row s => row.append s
        ((kv.getobjIDlistBysubIDpreID s p).filter fun o => decide (o < literalFirstID))) .empty

def KVstore.inRow (p : Nat) : CSRRow :=
  (kv.getobjIDlistBypreID p).foldl
    (fun row o => if literalFirstID ≤ o then row else row.append o
        (kv.getsubIDlistByobjIDpreID o p)) .empty

def rowsBelow (preNum : Nat) (row : Nat → CSRRow) (p : Nat) : CSRRow :=
  if p < preNum then row p else .empty

/-- `preNum` is the number of predicates of the string index. Only `csr[1]` gets the numbers of
vertices and edges. -/
def Database.loadCSR (db : Database) (preNum : Nat) : CSR × CSR :=
  let rows := rowsBelow preNum db.kvstore.inRow
  (⟨preNum, 0, 0, rowsBelow preNum db.kvstore.outRow⟩,
    ⟨preNum, db.entities.num, ((List.range preNum).map fun p => (rows p).adjacencyList.length).sum,
        rows⟩)

def CSRRow.Occurs (v : Nat) : Prop :=
  v ∈ row.id2vid ∨ (row.vid2id v).isSome = true ∨ v ∈ row.adjacencyList

structure CSRRow.Shaped (row : CSRRow) : Prop where
  index : row.index = row.offsetList.length
  offset : row.offset = row.adjacencyList.length
  sorted : (row.offsetList ++ [row.adjacencyList.length]).Pairwise (· ≤ ·)
  known : ∀ v i, row.vid2id v = some i → i < row.offsetList.length

theorem empty_shaped : CSRRow.empty.Shaped where
  index := rfl
  offset := rfl
  sorted := pairwise_singleton _ _
  known _ _ found := by cases found

theorem row_append_nil (v : Nat) : row.append v [] = row := by
  simp [CSRRow.append]

theorem row_append_cons (v x : Nat) (rest : List Nat) :
    row.append v (x :: rest) = {
      id2vid := row.id2vid ++ [v]
      vid2id := if (row.vid2id v).isSome then row.vid2id else Function.update row.vid2id v
        (some row.index)
      offsetList := row.offsetList ++ [row.offset]
      adjacencyList := row.adjacencyList ++ x :: rest
      index := row.index + 1
      offset := row.offset + (x :: rest).length } := rfl

theorem append_shaped {row : CSRRow} (shaped : row.Shaped) (v : Nat) (neighbours : List Nat) :
    (row.append v neighbours).Shaped := by
  cases neighbours with
  | nil => rwa [row_append_nil]
  | cons x rest =>
    rw [row_append_cons]
    refine ⟨?_, ?_, ?_, ?_⟩
    · simp [shaped.index]
    · simp [shaped.offset]
    · simp only [shaped.offset, length_append]
      refine pairwise_append.mpr ⟨shaped.sorted, pairwise_singleton _ _, fun a before b last => ?_⟩
      obtain ⟨-, -, below⟩ := pairwise_append.mp shaped.sorted
      rw [mem_singleton.mp last]
      rcases mem_append.mp before with inside | same
      · exact (below a inside _ (mem_singleton_self _)).trans (Nat.le_add_right _ _)
      · rw [mem_singleton.mp same]
        exact Nat.le_add_right _ _
    · intro w i found
      simp only [length_append, length_singleton] at found ⊢
      split at found
      · exact Nat.lt_succ_of_lt (shaped.known w i found)
      · obtain rfl | same := eq_or_ne w v
        · rw [Function.update_self] at found
          have := Option.some.inj found
          have := shaped.index
          omega
        · rw [Function.update_of_ne same] at found
          exact Nat.lt_succ_of_lt (shaped.known w i found)

theorem occurs_append {row : CSRRow} {v : Nat} {neighbours : List Nat} {w : Nat}
    (occurs : (row.append v neighbours).Occurs w) :
        row.Occurs w ∨ (w = v ∧ neighbours ≠ []) ∨ w ∈ neighbours := by
  cases neighbours with
  | nil => exact .inl (row_append_nil row v ▸ occurs)
  | cons x rest =>
    rw [row_append_cons] at occurs
    rcases occurs with listed | mapped | adjacent
    · rcases mem_append.mp listed with before | new
      · exact .inl (.inl before)
      · exact .inr (.inl ⟨mem_singleton.mp new, by simp⟩)
    · by_cases same : w = v
      · exact .inr (.inl ⟨same, by simp⟩)
      · refine .inl (.inr (.inl ?_))
        simp only at mapped
        split at mapped
        · exact mapped
        · rwa [Function.update_of_ne same] at mapped
    · rcases mem_append.mp adjacent with before | new
      · exact .inl (.inr (.inr before))
      · exact .inr (.inr new)

theorem foldl_rows {vs : List Nat} {next : CSRRow → Nat → CSRRow} {P : Nat → Prop} {row : CSRRow}
    (turn : ∀ row, ∀ v ∈ vs, next row v = row ∨
      ∃ neighbours, next row v = row.append v neighbours ∧ (neighbours ≠ [] → P v) ∧
        ∀ w ∈ neighbours, P w)
    (shaped : row.Shaped) (all : ∀ w, row.Occurs w → P w) :
    (vs.foldl next row).Shaped ∧ ∀ w, (vs.foldl next row).Occurs w → P w := by
  induction vs generalizing row with
  | nil => exact ⟨shaped, all⟩
  | cons v vs ih =>
    have later : ∀ row, ∀ u ∈ vs, _ := fun row u there => turn row u (mem_cons_of_mem v there)
    rcases turn row v mem_cons_self with skipped | ⟨neighbours, taken, vertex, adjacent⟩
    · rw [foldl_cons, skipped]
      exact ih later shaped all
    · rw [foldl_cons, taken]
      refine ih later (append_shaped shaped v neighbours) fun w occurs => ?_
      rcases occurs_append occurs with before | ⟨rfl, some⟩ | new
      · exact all w before
      · exact vertex some
      · exact adjacent w new

theorem empty_occurs {v : Nat} : ¬ CSRRow.empty.Occurs v := by
  simp [CSRRow.Occurs, CSRRow.empty]

section Load
variable {kv : KVstore} {T : Triple → Prop} (holds : kv.Holds T)
include holds

theorem mem_getsubIDlistByobjIDpreID {o p s : Nat} (listed : s ∈ kv.getsubIDlistByobjIDpreID o p) :
    T ⟨s, p, o⟩ := by
  unfold KVstore.getsubIDlistByobjIDpreID at listed
  split at listed
  · cases listed
  · exact ((sublistIn_spec (holds.objects o) p).2 s).mp listed

theorem mem_getobjIDlistBysubIDpreID {s p o : Nat} (listed : o ∈ kv.getobjIDlistBysubIDpreID s p) :
    T ⟨s, p, o⟩ := by
  unfold KVstore.getobjIDlistBysubIDpreID at listed
  split at listed
  · cases listed
  · exact ((sublistIn_spec (holds.subjects s) p).2 o).mp listed

theorem outRow_spec (p : Nat) : (kv.outRow p).Shaped ∧
      ∀ w, (kv.outRow p).Occurs w → ∃ t, T t ∧ (t.sub = w ∨ t.obj = w ∧ w < literalFirstID) := by
  refine foldl_rows (fun row s _ => .inr ⟨_, rfl, fun some => ?_, fun o listed => ?_⟩) empty_shaped
    fun w occurs => absurd occurs empty_occurs
  · obtain ⟨o, listed⟩ := exists_mem_of_ne_nil _ some
    exact ⟨_, mem_getobjIDlistBysubIDpreID holds (mem_of_mem_filter listed), .inl rfl⟩
  · obtain ⟨inside, entity⟩ := mem_filter.mp listed
    exact ⟨_, mem_getobjIDlistBysubIDpreID holds inside, .inr ⟨rfl, of_decide_eq_true entity⟩⟩

theorem inRow_spec (p : Nat) : (kv.inRow p).Shaped ∧
      ∀ w, (kv.inRow p).Occurs w → ∃ t, T t ∧ (t.sub = w ∨ t.obj = w ∧ w < literalFirstID) := by
  refine foldl_rows (fun row o _ => ?_) empty_shaped fun w occurs => absurd occurs empty_occurs
  by_cases literal : literalFirstID ≤ o
  · exact .inl (if_pos literal)
  · refine .inr ⟨_, if_neg literal, fun some => ?_, fun s listed => ?_⟩
    · obtain ⟨s, listed⟩ := exists_mem_of_ne_nil _ some
      exact ⟨_, mem_getsubIDlistByobjIDpreID holds listed, .inr ⟨rfl, Nat.lt_of_not_le literal⟩⟩
    · exact ⟨_, mem_getsubIDlistByobjIDpreID holds listed, .inl rfl⟩

end Load
end GStore
