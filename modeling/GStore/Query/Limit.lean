import GStore.Lib.Run
import GStore.Lib.Sorted
import GStore.Query.DepthRows

/-! The limit of a query that is a single basic graph pattern. `queryEvaluation` hands `LIMIT k` to
the search of each block of the pattern; aggregation, `DISTINCT`, `OFFSET` and `LIMIT` follow in
`getFinalResult`. -/
namespace GStore
open Lib List Rows

inductive BasicQueryStrategy where
  | normal
  | limitK
  deriving DecidableEq

def chooseStrategy (limit : Option Nat) : BasicQueryStrategy :=
  if limit.isNone then .normal else .limitK

/-- A block of the pattern: its plan, and the projection of `CopyToResult` to the useful variables,
which reads the columns of a row. -/
structure PatternBlock (Sol : Type) where
  plan : Plan
  copyToResult : Rows.Row → Sol

/-- The rows made of solutions: one for each solution, or those of `GROUP BY` and the aggregate
functions. -/
inductive Projection (Sol Row : Type) where
  | plain (row : Sol → Row)
  | aggregate (rows : List Sol → List Row)

/-- `join` gives the common extension of two compatible solutions. -/
structure SelectQuery (Sol Row : Type) where
  blocks : List (PatternBlock Sol)
  join : Sol → Sol → Option Sol
  projection : Projection Sol Row
  distinct : Bool
  offset : Nat
  limit : Option Nat

variable {Sol Row : Type}

namespace PatternBlock

def solutions (b : PatternBlock Sol) : List Sol := b.plan.executionBreathFirst.map b.copyToResult

def doQuery (limit : Option Nat) (b : PatternBlock Sol) : Option (List Sol) :=
  match chooseStrategy limit with
  | .normal => some b.solutions
  | .limitK => (b.plan.executionDepthFirst (limit.getD 0)).map fun rows =>
      rows.map fun row => b.copyToResult (row.take b.plan.columns)

/-- The offset skips no row that the limit has cut off: there are not more solutions than the limit
or the offset, or as many rows escape the limit as are skipped, or all do. -/
def OffsetHarmless (b : PatternBlock Sol) (k o : Nat) : Prop :=
  b.solutions.length ≤ k ∨ b.solutions.length ≤ o ∨ o ≤ (b.plan.escaping k).length ∨
    b.solutions.length = k + (b.plan.escaping k).length

variable (b : PatternBlock Sol) {k : Nat}

theorem doQuery_none : b.doQuery none = some b.solutions := rfl

/-- The solutions that the search with a limit finds. -/
def kept (k : Nat) : List Sol :=
  (b.plan.executionBreathFirst.take k ++ b.plan.escaping k).map b.copyToResult

theorem doQuery_some (positive : 0 < k) : b.doQuery (some k) = some (b.kept k) := by
  obtain ⟨rows, found, columns⟩ := executionDepthFirst_eq positive b.plan
  have searched : b.doQuery (some k) = (b.plan.executionDepthFirst k).map fun rows =>
      rows.map fun row => b.copyToResult (row.take b.plan.columns) := rfl
  rw [searched, found, Option.map_some, kept, ← columns, map_map]
  rfl

theorem kept_sublist (k : Nat) : (b.kept k).Sublist b.solutions :=
  (taken_and_escaping_sublist k b.plan).map _

theorem kept_length (k : Nat) :
    (b.kept k).length = min k b.solutions.length + (b.plan.escaping k).length := by
  simp [kept, solutions]

theorem kept_eq_solutions (few : b.solutions.length ≤ k) : b.kept k = b.solutions := by
  refine (b.kept_sublist k).eq_of_length_le ?_
  rw [kept_length, Nat.min_eq_right few]
  exact Nat.le_add_right _ _

end PatternBlock

/-- `doDistinct1` on rows: sorted, with each row that equals the one before it left out. -/
def doDistinct [LinearOrder Row] (rows : List Row) : List Row :=
  (rows.mergeSort fun a b => decide (a ≤ b)).destutter (· ≠ ·)

@[simp] theorem mem_doDistinct [LinearOrder Row] {row : Row} {rows : List Row} :
    row ∈ doDistinct rows ↔ row ∈ rows := by
  rw [doDistinct, mem_destutter_ne, mem_mergeSort]

theorem doDistinct_length [LinearOrder Row] {rows : List Row} (nodup : rows.Nodup) :
    (doDistinct rows).length = rows.length := by
  have sorted : (rows.mergeSort fun a b => decide (a ≤ b)).Nodup :=
    (mergeSort_perm rows _).nodup_iff.mpr nodup
  rw [doDistinct, destutter_of_isChain _ _ sorted.isChain, length_mergeSort]

namespace SelectQuery

variable (q : SelectQuery Sol Row)

def doJoin (xs ys : List Sol) : List Sol := xs.flatMap fun x => ys.filterMap (q.join x)

def joinBlocks : List (List Sol) → List Sol
  | [] => []
  | result :: results => results.foldl q.doJoin result

def evaluate : Option (List Sol) := (q.blocks.mapM (PatternBlock.doQuery q.limit)).map q.joinBlocks

def solutions : List Sol := q.joinBlocks (q.blocks.map PatternBlock.solutions)

def rows [LinearOrder Row] (q : SelectQuery Sol Row) (solutions : List Sol) : List Row :=
  let made := match q.projection with
    | .plain row => solutions.map row
    | .aggregate rows => rows solutions
  if q.distinct then doDistinct made else made

def output (rows : List Row) : List Row :=
  match q.limit with
  | none => rows.drop q.offset
  | some k => (rows.drop q.offset).take k

/-- The query outputs as many rows as when `LIMIT` is applied last, each of them a row of all the
solutions. -/
def LimitInvisible [LinearOrder Row] (q : SelectQuery Sol Row) : Prop :=
  ∃ found, q.evaluate = some found ∧
    (q.output (q.rows found)).length = (q.output (q.rows q.solutions)).length ∧
    ∀ row ∈ q.output (q.rows found), row ∈ q.rows q.solutions

/-- The query has one block and a row for each of its solutions, which `DISTINCT` does not take
away. -/
structure RowPerSolution (q : SelectQuery Sol Row) (b : PatternBlock Sol) (row : Sol → Row) :
    Prop where
  block : q.blocks = [b]
  plain : q.projection = .plain row
  different : q.distinct = true → (b.solutions.map row).Nodup

/-- No limit; or `LIMIT 0`, and no row comes to a last step that adds columns; or no block has more
solutions than the limit; or the query has a row for each solution of its one block, and the offset
is harmless. -/
def LimitHarmless (q : SelectQuery Sol Row) : Prop :=
  match q.limit with
  | none => True
  | some 0 => ∀ b ∈ q.blocks, Idle b.plan.ops (b.plan.first.initial none)
  | some k => (∀ b ∈ q.blocks, b.solutions.length ≤ k) ∨
      ∃ b row, q.RowPerSolution b row ∧ b.OffsetHarmless k q.offset

variable {q : SelectQuery Sol Row}

theorem evaluate_none (unlimited : q.limit = none) : q.evaluate = some q.solutions := by
  rw [evaluate, unlimited, mapM_eq_map fun b _ => PatternBlock.doQuery_none b]
  rfl

theorem evaluate_some {k : Nat} (limited : q.limit = some k) (positive : 0 < k) :
    q.evaluate = some (q.joinBlocks (q.blocks.map (PatternBlock.kept · k))) := by
  rw [evaluate, limited, mapM_eq_map fun b _ => b.doQuery_some positive]
  rfl

theorem evaluate_zero (limited : q.limit = some 0)
    (idle : ∀ b ∈ q.blocks, Idle b.plan.ops (b.plan.first.initial none)) :
    ∃ found, q.evaluate = some found := by
  have searched : ∀ b ∈ q.blocks, ∃ sols, b.doQuery (some 0) = some sols := by
    intro b inside
    obtain ⟨rows, found⟩ := executionDepthFirst_defined 0 (idle b inside)
    exact ⟨_, by rw [PatternBlock.doQuery]; dsimp only [chooseStrategy, Option.getD_some]; rw [found]; rfl⟩
  obtain ⟨results, done⟩ : ∃ results, q.blocks.mapM (PatternBlock.doQuery (some 0)) =
      some results := by
    rw [mapM_eq_some_iff]
    intro b inside
    obtain ⟨sols, found⟩ := searched b inside
    simp [found]
  exact ⟨_, by rw [evaluate, limited, done, Option.map_some]⟩

theorem output_subset (q : SelectQuery Sol Row) (rows : List Row) : q.output rows ⊆ rows := by
  unfold output
  split
  · exact drop_subset _ _
  · exact List.Subset.trans (take_subset _ _) (drop_subset _ _)

variable [LinearOrder Row]

theorem limitInvisible_zero (limited : q.limit = some 0)
    (idle : ∀ b ∈ q.blocks, Idle b.plan.ops (b.plan.first.initial none)) : q.LimitInvisible := by
  have empty : ∀ rows, q.output rows = [] := fun rows => by simp [output, limited]
  obtain ⟨found, evaluated⟩ := evaluate_zero limited idle
  exact ⟨found, evaluated, by simp [empty], by simp [empty]⟩

theorem limitInvisible_of_few {k : Nat} (limited : q.limit = some k) (positive : 0 < k)
    (few : ∀ b ∈ q.blocks, b.solutions.length ≤ k) : q.LimitInvisible := by
  have same : q.blocks.map (PatternBlock.kept · k) = q.blocks.map PatternBlock.solutions :=
    map_congr_left fun b inside => b.kept_eq_solutions (few b inside)
  refine ⟨q.solutions, ?_, rfl, output_subset q _⟩
  rw [evaluate_some limited positive, same]
  rfl

section OneBlock

variable {b : PatternBlock Sol} {row : Sol → Row} {k : Nat}

theorem RowPerSolution.rows_length (per : q.RowPerSolution b row) {sols : List Sol}
    (sub : sols.Sublist b.solutions) :
    (q.rows sols).length = sols.length := by
  simp only [rows, per.plain]
  split
  · rename_i distinct
    rw [doDistinct_length ((per.different distinct).sublist (sub.map row)), length_map]
  · exact length_map _

theorem RowPerSolution.rows_subset (per : q.RowPerSolution b row) {sols : List Sol}
    (sub : sols.Sublist b.solutions) :
    q.rows sols ⊆ q.rows b.solutions := by
  simp only [rows, per.plain]
  split
  · intro r there
    exact mem_doDistinct.mpr (map_subset row sub.subset (mem_doDistinct.mp there))
  · exact map_subset row sub.subset

theorem RowPerSolution.limitInvisible_iff_offset (per : q.RowPerSolution b row)
    (limited : q.limit = some k)
    (positive : 0 < k) : q.LimitInvisible ↔ b.OffsetHarmless k q.offset := by
  have evaluated : q.evaluate = some (b.kept k) := by
    rw [evaluate_some limited positive, per.block]
    rfl
  have all : q.solutions = b.solutions := by
    rw [solutions, per.block]
    rfl
  have fewRows := per.rows_length (b.kept_sublist k)
  have allRows := per.rows_length (List.Sublist.refl b.solutions)
  have within := (b.kept_sublist k).length_le
  rw [PatternBlock.kept_length] at fewRows within
  have counts : (q.output (q.rows (b.kept k))).length = (q.output (q.rows b.solutions)).length ↔
      b.OffsetHarmless k q.offset := by
    simp only [output, limited, length_take, length_drop, fewRows, allRows,
        PatternBlock.OffsetHarmless]
    omega
  rw [← counts]
  unfold LimitInvisible
  rw [all, evaluated]
  constructor
  · rintro ⟨found, here, same, -⟩
    cases here
    exact same
  · intro same
    exact ⟨_, rfl, same, List.Subset.trans (output_subset q _) (per.rows_subset (b.kept_sublist k))⟩

end OneBlock

end SelectQuery

end GStore
