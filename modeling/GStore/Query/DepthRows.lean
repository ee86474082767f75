import GStore.Query.DepthFirst
import GStore.Query.EdgeFilter

/-! `Optimizer::ExecutionDepthFirst` on rows of ids, with `AffectANode`, `JoinTwoNode`,
`CheckedInsert` and the table of the first step as they treat the limit, and with the size that a
check reports. -/
namespace GStore.Rows
open List Option

abbrev Row := List Nat

/-- The table of a first step of one node: a list of candidates, or all predicates, or all entities
and, if the variable may be a literal, all literals. -/
inductive FirstOp where
  | listed (ids : List Nat)
  | predicates (ids : List Nat)
  | nodes (entities literals : List Nat) (needLiteral : Bool)

/-- A step behind the first, by what it finds for one record. `counted` says whether the size of the
table that a check makes of one record is right. -/
inductive RowOp where
  | extendOne (candidates : Row → List Nat)
  | extendTwo (pairs : Row → List (Nat × Nat))
  | satellite (distinct : Bool) (candidates : Row → List Nat)
  | check (holds : Row → Bool) (counted : Bool)

structure Plan where
  first : FirstOp
  ops : List RowOp

/-- `max_output`; `none` is `NO_LIMIT_OUTPUT`, which is also what `--` makes of 0. -/
abbrev MaxOutput := Option Nat

def MaxOutput.decrement : MaxOutput → MaxOutput
  | none => none
  | some 0 => none
  | some (m + 1) => some m

def checkedInsert (max : MaxOutput) (rows : List Row) (row : Row) : MaxOutput × List Row :=
  match max with
  | some 0 => (some 0, rows)
  | max => (max.decrement, rows ++ [row])

def pushLast (rows : List Row) (ids : List Nat) : Option (List Row) :=
  rows.getLast?.map fun last => rows.dropLast ++ [last ++ ids]

/-- The loop of `AffectANode` over the candidates of a record. It goes on when nothing more is
inserted. -/
def affectLoop (record : Row) : MaxOutput → List Nat → List Row → Option (List Row)
  | _, [], rows => some rows
  | max, c :: candidates, rows =>
    let (max, rows) := checkedInsert max rows record
    (pushLast rows [c]).bind (affectLoop record max candidates)

def joinLoop (record : Row) : MaxOutput → List (Nat × Nat) → List Row → Option (List Row)
  | _, [], rows => some rows
  | max, (c, d) :: pairs, rows =>
    let (max, rows) := checkedInsert max rows record
    (pushLast rows [c, d]).bind fun rows => if max =
    some 0 then some rows else joinLoop record max pairs rows

/-- `AffectANode` without a new column: the record once or once for each candidate. -/
def satelliteLoop (record : Row) : MaxOutput → Nat → List Row → List Row
  | _, 0, rows => rows
  | max, n + 1, rows =>
    let (max, rows) := checkedInsert max rows record
    satelliteLoop record max n rows

def copies (distinct : Bool) (candidates : List Nat) : Nat :=
  if distinct then min 1 candidates.length else candidates.length

namespace RowOp

def on (max : MaxOutput) (record : Row) : RowOp → Option (List Row)
  | .extendOne candidates => affectLoop record max (candidates record) []
  | .extendTwo pairs => joinLoop record max (pairs record) []
  | .satellite distinct candidates =>
    some (satelliteLoop record max (copies distinct (candidates record)) [])
  | .check holds _ => some (if holds record then [record] else [])

def reported (rows : List Row) : RowOp → Nat
  | .check _ false => 0
  | _ => rows.length

def run : RowOp → Row → List Row
  | .extendOne candidates, r => (candidates r).map fun c => r ++ [c]
  | .extendTwo pairs, r => (pairs r).map fun p => r ++ [p.1, p.2]
  | .satellite distinct candidates, r => List.replicate (copies distinct (candidates r)) r
  | .check holds _, r => if holds r then [r] else []

def columns : RowOp → Nat
  | .extendOne _ => 1
  | .extendTwo _ => 2
  | _ => 0

end RowOp

def scan : MaxOutput → List Nat → List Nat × MaxOutput
  | max, [] => ([], max)
  | none, i :: ids => ((i :: ids), none)
  | some m, i :: ids =>
    if MaxOutput.decrement (some m) = some 0 then ([i], some 0)
    else let (found, max) := scan (MaxOutput.decrement (some m)) ids; (i :: found, max)

def FirstOp.initial (max : MaxOutput) : FirstOp → List Row
  | .listed ids => ((max.elim ids ids.take).map ([·]))
  | .predicates ids => (scan max ids).1.map ([·])
  | .nodes entities literals needLiteral =>
    let (found, max) := scan max entities
    (found ++ if needLiteral then (scan max literals).1 else []).map ([·])

def depthSearchOneLayer (limit : Nat) :
    RowOp → List RowOp → Row → Nat → Option (Bool × List Row × Nat)
  | op, [], r, till =>
    (op.on (some (limit - till)) r).map fun table =>
      if table.isEmpty then (false, [], till) else (true, table, till + op.reported table)
  | op, next :: ops, r, till =>
    (op.on none r).bind fun table =>
      if table.isEmpty then some (false, [], till)
      else (searchRecords limit (depthSearchOneLayer limit next ops) table till).map
        fun (rows, now) => (true, rows, now)

namespace Plan

def executionDepthFirst (limit : Nat) (plan : Plan) : Option (List Row) :=
  match plan.ops with
  | [] => some (plan.first.initial (some limit))
  | op :: ops =>
    (searchCandidates limit (depthSearchOneLayer limit op ops) (plan.first.initial none) 0).map
    (mergeResults limit 0)

def tableAfter (plan : Plan) (ops : List RowOp) : List Row :=
  ops.foldl (fun table op => table.flatMap op.run) (plan.first.initial none)

def executionBreathFirst (plan : Plan) : List Row := plan.tableAfter plan.ops

def columns (plan : Plan) : Nat := 1 + (plan.ops.map RowOp.columns).sum

end Plan

/-- As many rows as the limit allows, each with a value per column and among all rows. -/
def LimitExact (limit : Nat) (plan : Plan) : Prop :=
  ∃ rows, plan.executionDepthFirst limit = some rows ∧
    rows.length = min limit plan.executionBreathFirst.length ∧
      ∀ row ∈ rows, row.length = plan.columns ∧ row ∈ plan.executionBreathFirst

/-- The rows of one record when `m` are wanted and the loop over the candidates goes on behind them.
-/
def glued (record : Row) : Nat → List Nat → List Row
  | _, [] => []
  | 0, _ => []
  | 1, candidates => [record ++ candidates]
  | m + 2, c :: candidates => (record ++ [c]) :: glued record (m + 1) candidates

section Loops

variable {record : Row}

theorem pushLast_concat (rows : List Row) (last : Row) (ids : List Nat) :
    pushLast (rows ++ [last]) ids = some (rows ++ [last ++ ids]) := by
  simp [pushLast]

theorem affectLoop_zero (candidates : List Nat) (rows : List Row) (last : Row) :
    affectLoop record (some 0) candidates (rows ++ [last]) = some
    (rows ++ [last ++ candidates]) := by
  induction candidates generalizing last with
  | nil => simp [affectLoop]
  | cons c candidates ih =>
    simp [affectLoop, checkedInsert, pushLast_concat, bind_some, ih, append_assoc]

theorem affectLoop_some {m : Nat} (wanted : 0 < m) (candidates : List Nat) (rows : List Row) :
    affectLoop record (some m) candidates rows = some (rows ++ glued record m candidates) := by
  induction candidates generalizing m rows with
  | nil => simp [affectLoop, glued]
  | cons c candidates ih =>
    obtain ⟨m, rfl⟩ := Nat.exists_eq_succ_of_ne_zero wanted.ne'
    simp only [affectLoop, checkedInsert, MaxOutput.decrement, pushLast_concat, bind_some]
    cases m with
    | zero => simp [affectLoop_zero, glued]
    | succ m => rw [ih (Nat.succ_pos m), glued]; simp

theorem affectLoop_none (candidates : List Nat) (rows : List Row) :
    affectLoop record none candidates rows = some
    (rows ++ candidates.map fun c => record ++ [c]) := by
  induction candidates generalizing rows with
  | nil => simp [affectLoop]
  | cons c candidates ih =>
    simp only [affectLoop, checkedInsert, MaxOutput.decrement, pushLast_concat, bind_some, ih]
    simp

theorem joinLoop_some {m : Nat} (wanted : 0 < m) (pairs : List (Nat × Nat)) (rows : List Row) :
    joinLoop record (some m) pairs rows = some
    (rows ++ (pairs.map fun p => record ++ [p.1, p.2]).take m) := by
  induction pairs generalizing m rows with
  | nil => simp [joinLoop]
  | cons p pairs ih =>
    obtain ⟨m, rfl⟩ := Nat.exists_eq_succ_of_ne_zero wanted.ne'
    simp only [joinLoop, checkedInsert, MaxOutput.decrement, pushLast_concat, bind_some]
    cases m with
    | zero => simp
    | succ m =>
      rw [if_neg (by simp), ih (Nat.succ_pos m)]
      simp

theorem joinLoop_none (pairs : List (Nat × Nat)) (rows : List Row) :
    joinLoop record none pairs rows = some (rows ++ pairs.map fun p => record ++ [p.1, p.2]) := by
  induction pairs generalizing rows with
  | nil => simp [joinLoop]
  | cons p pairs ih =>
    simp only [joinLoop, checkedInsert, MaxOutput.decrement, pushLast_concat, bind_some]
    exact (ih _).trans (by simp)

theorem satelliteLoop_some (m n : Nat) (rows : List Row) :
    satelliteLoop record (some m) n rows = rows ++ (List.replicate n record).take m := by
  induction n generalizing m rows with
  | zero => simp [satelliteLoop]
  | succ n ih =>
    cases m with
    | zero => simp [satelliteLoop, checkedInsert, ih]
    | succ m =>
      simp only [satelliteLoop, checkedInsert, MaxOutput.decrement, ih]
      simp [replicate_succ]

theorem satelliteLoop_none (n : Nat) (rows : List Row) :
    satelliteLoop record none n rows = rows ++ List.replicate n record := by
  induction n generalizing rows with
  | zero => simp [satelliteLoop]
  | succ n ih =>
    simp only [satelliteLoop, checkedInsert, MaxOutput.decrement, ih]
    simp [replicate_succ]

theorem RowOp.on_none (op : RowOp) (record : Row) : op.on none record = some (op.run record) := by
  cases op with
  | extendOne candidates => exact affectLoop_none _ _
  | extendTwo pairs => exact joinLoop_none _ _
  | satellite distinct candidates => exact congrArg some (satelliteLoop_none _ _)
  | check holds counted => rfl

theorem scan_none (ids : List Nat) : scan none ids = (ids, none) := by
  cases ids <;> rfl

theorem scan_some {m : Nat} (wanted : 0 < m) (ids : List Nat) :
    scan (some m) ids = (ids.take m, some (m - ids.length)) := by
  induction ids generalizing m with
  | nil => simp [scan]
  | cons i ids ih =>
    obtain ⟨m, rfl⟩ := Nat.exists_eq_succ_of_ne_zero wanted.ne'
    cases m with
    | zero => simp [scan, MaxOutput.decrement]
    | succ m =>
      change (i :: (scan (some (m + 1)) ids).1, (scan (some (m + 1)) ids).2) = _
      rw [ih (Nat.succ_pos m)]
      simp

theorem scan_zero (ids : List Nat) :
    scan (some 0) ids = if ids = [] then ([], some 0) else (ids, none) := by
  cases ids with
  | nil => rfl
  | cons i ids => simp [scan, MaxOutput.decrement, scan_none]

end Loops

section Glued

variable (record : Row)

theorem glued_length (m : Nat) (candidates : List Nat) :
    (glued record m candidates).length = min m candidates.length := by
  fun_induction glued record m candidates with
  | case1 m => simp
  | case2 candidates => simp
  | case3 candidates some' => exact (Nat.min_eq_left (length_pos_iff.mpr some')).symm
  | case4 m c candidates ih => simp [ih, Nat.succ_min_succ]

theorem glued_eq {m : Nat} {candidates : List Nat} (enough : candidates.length ≤ m) :
    glued record m candidates = candidates.map fun c => record ++ [c] := by
  fun_induction glued record m candidates with
  | case1 m => rfl
  | case2 candidates some' => exact absurd (length_eq_zero_iff.mp (Nat.le_zero.mp enough)) some'
  | case3 candidates some' =>
    obtain ⟨c, rfl⟩ := length_eq_one_iff.mp (Nat.le_antisymm enough (length_pos_iff.mpr some'))
    rfl
  | case4 m c candidates ih => rw [ih (by simpa using enough), map_cons]

theorem glued_long {m : Nat} {candidates : List Nat} (wanted : 0 < m)
    (more : m < candidates.length) :
    ∃ row ∈ glued record m candidates, record.length + 1 < row.length := by
  fun_induction glued record m candidates with
  | case1 m => simp at more
  | case2 candidates => omega
  | case3 candidates some' => exact ⟨_, mem_singleton_self _, by rw [length_append]; omega⟩
  | case4 m c candidates ih =>
    obtain ⟨row, member, long⟩ := ih (Nat.succ_pos m) (by simpa using more)
    exact ⟨row, mem_cons_of_mem _ member, long⟩

end Glued

namespace RowOp

def lastRows (op : RowOp) (m : Nat) (r : Row) : List Row :=
  match op with
  | .extendOne candidates => glued r m (candidates r)
  | op => (op.run r).take m

def Counts : RowOp → Prop
  | .check _ counted => counted = true
  | _ => True

theorem lastRows_length_le (op : RowOp) (m : Nat) (r : Row) : (op.lastRows m r).length ≤ m := by
  cases op with
  | extendOne candidates => exact (glued_length r m (candidates r)).trans_le (Nat.min_le_left _ _)
  | extendTwo pairs => exact length_take_le _ _
  | satellite distinct candidates => exact length_take_le _ _
  | check holds counted => exact length_take_le _ _

theorem on_some (op : RowOp) (r : Row) {m : Nat} (wanted : 0 < m) :
    op.on (some m) r = some (op.lastRows m r) := by
  cases op with
  | extendOne candidates => exact affectLoop_some wanted _ _
  | extendTwo pairs => exact joinLoop_some wanted _ _
  | satellite distinct candidates => exact congrArg some (satelliteLoop_some m _ _)
  | check holds counted =>
    refine congrArg some (take_of_length_le ?_).symm
    split
    · exact wanted
    · exact Nat.zero_le m

theorem reported_eq {op : RowOp} (counts : op.Counts) (rows : List Row) :
    op.reported rows = rows.length := by
  cases op with
  | check holds counted => cases counts; rfl
  | _ => rfl

theorem run_length {op : RowOp} {r row : Row} (member : row ∈ op.run r) :
    row.length = r.length + op.columns := by
  cases op with
  | extendOne candidates =>
    obtain ⟨c, -, rfl⟩ := mem_map.mp member
    simp [columns]
  | extendTwo pairs =>
    obtain ⟨p, -, rfl⟩ := mem_map.mp member
    simp [columns]
  | satellite distinct candidates =>
    rw [eq_of_mem_replicate member]
    rfl
  | check holds counted =>
    rw [run] at member
    split at member
    · rw [mem_singleton.mp member]
      rfl
    · cases member

end RowOp

section Search

variable {limit : Nat} {last : RowOp}

theorem chain_length_le {g : Nat → Row → List Row} (few : ∀ m r, (g m r).length ≤ m) (m : Nat)
    (table : List Row) :
    (chain g m table).length ≤ m := by
  induction table generalizing m with
  | nil => exact Nat.zero_le m
  | cons r table ih =>
    have one := few m r
    rw [chain, length_append]
    split
    · simpa using one
    · have rest := ih (m - (g m r).length)
      omega

theorem finds_last (limit : Nat) (counts : last.Counts) :
    Finds limit (depthSearchOneLayer limit last []) last.lastRows := by
  intro r till below
  rw [depthSearchOneLayer, last.on_some r (by omega), map_some]
  by_cases empty : last.lastRows (limit - till) r = []
  · exact ⟨false, by simp [empty], fun _ => empty⟩
  · exact ⟨true, by rw [if_neg (by simpa using empty), RowOp.reported_eq counts], fun no => by cases no⟩

theorem finds_layers (counts : last.Counts) (op : RowOp) (ops init : List RowOp)
    (steps : op :: ops = init ++ [last]) :
    ∃ g, Finds limit (depthSearchOneLayer limit op ops) g ∧ ∀ m, 0 < m → ∀ table,
      chain g m table = chain last.lastRows m
      (init.foldl (fun table op => table.flatMap op.run) table) := by
  induction ops generalizing op init with
  | nil =>
    cases init with
    | nil =>
      cases steps
      exact ⟨_, finds_last limit counts, fun m _ table => rfl⟩
    | cons first init => simp at steps
  | cons next ops ih =>
    cases init with
    | nil => simp at steps
    | cons first init =>
      rw [cons_append, List.cons.injEq] at steps
      obtain ⟨g, found, chained⟩ := ih next init steps.2
      refine ⟨_, found.layer fun r till => by rw [depthSearchOneLayer, op.on_none, bind_some], ?_⟩
      intro m wanted table
      rw [chain_flatMap op.run wanted, chained m wanted, foldl_cons, steps.1]

theorem executionDepthFirst_eq_chain {plan : Plan} {init : List RowOp} (positive : 0 < limit)
    (steps : plan.ops = init ++ [last]) (counts : last.Counts) :
    plan.executionDepthFirst limit = some (chain last.lastRows limit (plan.tableAfter init)) := by
  cases ops : plan.ops with
  | nil => simp [ops] at steps
  | cons op ops' =>
    obtain ⟨g, found, chained⟩ := @finds_layers limit last counts op ops' init (ops ▸ steps)
    have few : ∀ m r, 0 < m → (g m r).length ≤ m := by
      intro m r wanted
      have le := chain_length_le last.lastRows_length_le m
        (init.foldl (fun table op => table.flatMap op.run) [r])
      rw [← chained m wanted [r], chain, length_append] at le
      omega
    obtain ⟨results, searched, merged⟩ :=
      found.searchCandidates few (plan.first.initial none) positive
    rw [Plan.executionDepthFirst, ops]
    dsimp only
    rw [searched, map_some, merged, Nat.sub_zero, chained limit positive, Plan.tableAfter]

end Search

section Uncounted

variable {limit : Nat} {f : Row → List Row} {search : Row → Nat → Option (Bool × List Row × Nat)}

/-- `search` finds all rows and counts none. -/
def FindsAll (limit : Nat) (search : Row → Nat → Option (Bool × List Row × Nat))
    (f : Row → List Row) : Prop :=
  ∀ r till, till < limit → ∃ success, search r till = some (success, f r, till) ∧
    (success = false → f r = [])

theorem FindsAll.searchRecords (finds : FindsAll limit search f) (table : List Row) {till : Nat}
    (below : till < limit) :
    GStore.searchRecords limit search table till = some (table.flatMap f, till) := by
  induction table with
  | nil => rfl
  | cons r table ih =>
    obtain ⟨success, found, failed⟩ := finds r till below
    rw [GStore.searchRecords, found, bind_some, flatMap_cons]
    dsimp only
    by_cases none' : f r = []
    · rw [none', isEmpty_nil, Bool.or_true, if_pos rfl, ih, nil_append]
    · have ok : success = true := by
        cases success with
        | true => rfl
        | false => exact absurd (failed rfl) none'
      rw [ok, isEmpty_eq_false_iff.mpr none', Bool.not_true, Bool.or_self,
          if_neg Bool.false_ne_true,
        if_neg (by omega), ih, map_some]

theorem FindsAll.searchCandidates (finds : FindsAll limit search f) (candidates : List Row)
    {till : Nat}
    (below : till < limit) : searchCandidates limit search candidates till = some
    (candidates.map f) := by
  induction candidates with
  | nil => rfl
  | cons r candidates ih =>
    obtain ⟨success, found, failed⟩ := finds r till below
    rw [GStore.searchCandidates, if_neg (by omega), found, bind_some]
    dsimp only
    rw [if_neg (by simp; omega), ih]
    rfl

theorem findsAll_layers (holds : Row → Bool) (op : RowOp) (ops init : List RowOp)
    (steps : op :: ops = init ++ [.check holds false]) :
    ∃ f, FindsAll limit (depthSearchOneLayer limit op ops) f ∧ ∀ table : List Row,
      table.flatMap f = (op :: ops).foldl (fun table op => table.flatMap op.run) table := by
  induction ops generalizing op init with
  | nil =>
    cases init with
    | nil =>
      cases steps
      refine ⟨(RowOp.check holds false).run, fun r till below => ?_, fun table => rfl⟩
      simp only [depthSearchOneLayer, RowOp.on, RowOp.run, map_some, RowOp.reported]
      cases holds r
      · exact ⟨false, rfl, fun _ => rfl⟩
      · exact ⟨true, rfl, fun no => by cases no⟩
    | cons first init => simp at steps
  | cons next ops ih =>
    cases init with
    | nil => simp at steps
    | cons first init =>
      rw [cons_append, List.cons.injEq] at steps
      obtain ⟨f, found, all⟩ := ih next init steps.2
      refine ⟨fun r => (op.run r).flatMap f, fun r till below => ?_, fun table => ?_⟩
      · rw [depthSearchOneLayer, op.on_none, bind_some]
        by_cases empty : op.run r = []
        · exact ⟨false, by simp [empty], fun _ => by simp [empty]⟩
        · refine ⟨true, ?_, fun no => by cases no⟩
          rw [if_neg (by simpa using empty), found.searchRecords _ below]
          rfl
      · rw [← flatMap_assoc, all]
        rfl

theorem mergeResults_full {counter : Nat} (full : limit ≤ counter) (results : List (List Row)) :
    mergeResults limit counter results = results.flatten := by
  induction results generalizing counter with
  | nil => rfl
  | cons rows results ih =>
    rw [mergeResults, if_neg (by omega), ih (by omega), flatten_cons]

theorem mergeResults_sublist (counter : Nat) (results : List (List Row)) :
    (mergeResults limit counter results).Sublist results.flatten := by
  induction results generalizing counter with
  | nil => exact List.Sublist.slnil
  | cons rows results ih =>
    rw [mergeResults, flatten_cons]
    refine List.Sublist.append ?_ (ih _)
    split
    · exact take_sublist _ _
    · exact List.Sublist.refl rows

theorem mergeResults_length_iff {counter : Nat} (below : counter < limit)
    (results : List (List Row)) :
    (mergeResults limit counter results).length = min (limit - counter) results.flatten.length ↔
      ∀ before rows behind, results = before ++ rows :: behind →
        limit ≤ counter + (before.flatten ++ rows).length → behind.flatten = [] := by
  induction results generalizing counter with
  | nil => simp [mergeResults]
  | cons rows results ih =>
    have split : ∀ P : List (List Row) → List Row → List (List Row) → Prop,
        (∀ before l behind, rows :: results = before ++ l :: behind → P before l behind) ↔
          P [] rows results ∧ ∀ before l behind, results = before ++ l :: behind →
          P (rows :: before) l behind := by
      intro P
      constructor
      · intro all
        refine ⟨all [] rows results rfl, fun before l behind eq => all (rows :: before) l behind ?_⟩
        rw [eq, cons_append]
      · rintro ⟨first, rest⟩ before l behind eq
        cases before with
        | nil => cases eq; exact first
        | cons head before =>
          rw [cons_append, List.cons.injEq] at eq
          exact eq.1 ▸ rest before l behind eq.2
    rw [split, mergeResults, if_pos below, flatten_cons, length_append, length_append, length_take]
    simp only [flatten_nil, nil_append, flatten_cons, append_assoc, length_append]
    by_cases reached : limit ≤ counter + rows.length
    · rw [Nat.min_eq_left (by omega), Nat.add_sub_cancel' below.le, mergeResults_full le_rfl, Nat.min_eq_left (by omega)]
      constructor
      · intro none
        have empty : results.flatten = [] := length_eq_zero_iff.mp (by omega)
        refine ⟨fun _ => empty, fun before l behind eq _ => ?_⟩
        rw [eq, flatten_append, flatten_cons, append_eq_nil_iff, append_eq_nil_iff] at empty
        exact empty.2.2
      · intro both
        rw [both.1 reached, length_nil, Nat.add_zero]
    · have rest := @ih (counter + rows.length) (by omega)
      rw [Nat.min_eq_right (show rows.length ≤ limit - counter by omega)]
      have shift : rows.length + (mergeResults limit (counter + rows.length) results).length =
          min (limit - counter) (rows.length + results.flatten.length) ↔
          (mergeResults limit (counter + rows.length) results).length =
            min (limit - (counter + rows.length)) results.flatten.length := by omega
      rw [shift, rest]
      simp only [length_append, Nat.add_assoc]
      exact ⟨fun all => ⟨fun no => absurd no reached, all⟩, And.right⟩

end Uncounted

section Strikes

variable {candidates : Row → List Nat}

def Strikes (candidates : Row → List Nat) (m : Nat) (table : List Row) : Prop :=
  ∃ before record behind, table = before ++ record :: behind ∧
    (before.flatMap (RowOp.run (.extendOne candidates))).length < m ∧
      m < (before.flatMap (RowOp.run (.extendOne candidates))).length + (candidates record).length

theorem strikes_cons {m : Nat} (wanted : 0 < m) (r : Row) (table : List Row) :
    Strikes candidates m (r :: table) ↔
    m < (candidates r).length ∨ (candidates r).length < m ∧
    Strikes candidates (m - (candidates r).length) table := by
  constructor
  · rintro ⟨before, record, behind, eq, less, more⟩
    cases before with
    | nil =>
      cases eq
      exact .inl (by simpa using more)
    | cons head before =>
      rw [cons_append, List.cons.injEq] at eq
      obtain ⟨rfl, rfl⟩ := eq
      rw [flatMap_cons, length_append, RowOp.run, length_map] at less more
      exact .inr ⟨by omega, before, record, behind, rfl, by omega, by omega⟩
  · rintro (inside | ⟨less, before, record, behind, rfl, below, above⟩)
    · exact ⟨[], r, table, rfl, wanted, by simpa using inside⟩
    · refine ⟨r :: before, record, behind, rfl, ?_, ?_⟩ <;>
        rw [flatMap_cons, length_append, RowOp.run, length_map] <;> omega

theorem chain_eq_of_not_strikes {m : Nat} (wanted : 0 < m) (table : List Row)
    (whole : ¬ Strikes candidates m table) :
    chain (RowOp.lastRows (.extendOne candidates)) m table =
      (table.flatMap (RowOp.run (.extendOne candidates))).take m := by
  induction table generalizing m with
  | nil => simp [chain]
  | cons r table ih =>
    rw [strikes_cons wanted, not_or, not_and] at whole
    have here : RowOp.lastRows (.extendOne candidates) m r = RowOp.run (.extendOne candidates) r :=
      glued_eq r (by omega)
    have length : (RowOp.run (.extendOne candidates) r).length = (candidates r).length :=
      length_map _
    rw [chain, here, flatMap_cons, take_append, take_of_length_le (by omega), length]
    congr 1
    split
    · rw [Nat.sub_eq_zero_of_le (by omega), take_zero]
    · exact ih (by omega) (whole.2 (by omega))

theorem chain_long_of_strikes {m : Nat} (wanted : 0 < m) (table : List Row)
    (strikes : Strikes candidates m table) :
    ∃ row ∈ chain (RowOp.lastRows (.extendOne candidates)) m table, ∃ r ∈ table,
    r.length + 1 < row.length := by
  induction table generalizing m with
  | nil =>
    obtain ⟨before, record, behind, eq, -⟩ := strikes
    simp at eq
  | cons r table ih =>
    rcases (strikes_cons wanted r table).mp strikes with inside | ⟨less, later⟩
    · obtain ⟨row, member, long⟩ := glued_long r wanted inside
      exact ⟨row, mem_append_left _ member, r, mem_cons_self, long⟩
    · have length : (RowOp.lastRows (.extendOne candidates) m r).length = (candidates r).length :=
        (glued_length r m _).trans (Nat.min_eq_right less.le)
      obtain ⟨row, member, one, inside, long⟩ := ih (by omega) later
      refine ⟨row, ?_, one, mem_cons_of_mem r inside, long⟩
      rw [chain, length, if_neg (by omega)]
      exact mem_append_right _ member

end Strikes

def FirstOp.Stops (limit : Nat) : FirstOp → Prop
  | .nodes entities literals true => literals = [] ∨ entities.length < limit
  | _ => True

def rowsFrom (plan : Plan) (candidates : List Row) : List Row :=
  plan.ops.foldl (fun table op => table.flatMap op.run) candidates

/-- The only step does not scan literals behind as many entities as are wanted; a last extension is
not cut inside the candidates of a record; behind the first candidate with which a check that is not
counted has found enough rows, there is no other with a row. -/
def LimitKept (limit : Nat) (plan : Plan) : Prop :=
  match plan.ops.getLast? with
  | none => plan.first.Stops limit
  | some (.extendOne candidates) => ¬ Strikes candidates limit (plan.tableAfter plan.ops.dropLast)
  | some (.check _ false) => ∀ before row behind, plan.first.initial none = before ++ row :: behind →
      limit ≤ (rowsFrom plan (before ++ [row])).length → rowsFrom plan behind = []
  | some _ => True

section Result

variable {limit : Nat} {plan : Plan}

theorem foldl_run_length {n : Nat} (ops : List RowOp) (table : List Row)
    (lengths : ∀ row ∈ table, row.length = n) :
    ∀ row ∈ ops.foldl (fun table op => table.flatMap op.run) table, row.length = n +
    (ops.map RowOp.columns).sum := by
  induction ops generalizing table n with
  | nil => simpa using lengths
  | cons op ops ih =>
    intro row member
    rw [map_cons, sum_cons, ← Nat.add_assoc]
    refine ih (table.flatMap op.run) (fun next inside => ?_) row member
    obtain ⟨r, there, made⟩ := mem_flatMap.mp inside
    rw [RowOp.run_length made, lengths r there]

theorem initial_length {max : MaxOutput} {first : FirstOp} :
    ∀ row ∈ first.initial max, row.length = 1 := by
  intro row member
  cases first with
  | listed ids =>
    obtain ⟨i, -, rfl⟩ := mem_map.mp member
    rfl
  | predicates ids =>
    obtain ⟨i, -, rfl⟩ := mem_map.mp member
    rfl
  | nodes entities literals needLiteral =>
    obtain ⟨i, -, rfl⟩ := mem_map.mp member
    rfl

theorem executionBreathFirst_columns :
    ∀ row ∈ plan.executionBreathFirst, row.length = plan.columns :=
  foldl_run_length plan.ops _ initial_length

theorem limitExact_of_take
    (found : plan.executionDepthFirst limit = some (plan.executionBreathFirst.take limit)) :
    LimitExact limit plan :=
  ⟨_, found, length_take, fun row member =>
    ⟨executionBreathFirst_columns row (mem_of_mem_take member), mem_of_mem_take member⟩⟩

theorem initial_nodes (positive : 0 < limit) (entities literals : List Nat) :
    FirstOp.initial (some limit) (.nodes entities literals true) =
      (if literals = [] ∨ entities.length < limit then (entities ++ literals).take limit
        else entities.take limit ++ literals).map ([·]) := by
  rw [FirstOp.initial, scan_some positive]
  dsimp only
  rw [if_pos rfl]
  congr 1
  by_cases few : entities.length < limit
  · rw [if_pos (.inr few), scan_some (by omega), take_append]
  · rw [Nat.sub_eq_zero_of_le (by omega), scan_zero]
    by_cases none' : literals = []
    · rw [if_pos none', if_pos (.inl none'), none', append_nil, append_nil]
    · rw [if_neg none', if_neg (not_or.mpr ⟨none', few⟩)]

theorem limitExact_first (positive : 0 < limit) (none' : plan.ops = []) :
    LimitExact limit plan ↔ plan.first.Stops limit := by
  have found : plan.executionDepthFirst limit = some (plan.first.initial (some limit)) := by
    rw [Plan.executionDepthFirst, none']
  have all : plan.executionBreathFirst = plan.first.initial none := by
    rw [Plan.executionBreathFirst, Plan.tableAfter, none']
    rfl
  have taken : plan.first.initial (some limit) = (plan.first.initial none).take limit →
      LimitExact limit plan := fun same =>
    limitExact_of_take (by rw [found, all, same])
  cases first : plan.first with
  | listed ids => exact ⟨fun _ => trivial, fun _ => taken (by rw [first]; exact map_take)⟩
  | predicates ids =>
    refine ⟨fun _ => trivial, fun _ => taken ?_⟩
    rw [first, FirstOp.initial, FirstOp.initial, scan_some positive, scan_none, map_take]
  | nodes entities literals needLiteral =>
    cases needLiteral with
    | false =>
      refine ⟨fun _ => trivial, fun _ => taken ?_⟩
      simp [first, FirstOp.initial, scan_some positive, scan_none, Bool.false_eq_true, append_nil,
        map_take]
    | true =>
      have whole : plan.first.initial none = (entities ++ literals).map ([·]) := by
        simp [first, FirstOp.initial, scan_none]
      have limited := initial_nodes positive entities literals
      rw [← first] at limited
      by_cases stops : literals = [] ∨ entities.length < limit
      · refine ⟨fun _ => stops, fun _ => taken ?_⟩
        rw [limited, whole, if_pos stops, map_take]
      · refine ⟨?_, fun yes => absurd yes stops⟩
        rintro ⟨rows, done, length, -⟩
        rw [found, limited, if_neg stops, Option.some.injEq] at done
        have filled : 0 < literals.length := length_pos_iff.mpr (not_or.mp stops).1
        rw [← done, all, whole] at length
        simp only [length_map, length_append, length_take] at length
        omega

theorem limitExact_uncounted (positive : 0 < limit) {init : List RowOp} {holds : Row → Bool}
    (steps : plan.ops = init ++ [.check holds false]) : LimitExact limit plan ↔
      ∀ before row behind, plan.first.initial none = before ++ row :: behind →
        limit ≤ (rowsFrom plan (before ++ [row])).length → rowsFrom plan behind = [] := by
  cases ops : plan.ops with
  | nil => simp [ops] at steps
  | cons op ops' =>
    obtain ⟨f, finds, stem⟩ := @findsAll_layers limit holds op ops' init (ops ▸ steps)
    have from_eq : ∀ table : List Row, rowsFrom plan table = table.flatMap f :=
      fun table => by rw [rowsFrom, ops, stem]
    have all : plan.executionBreathFirst = ((plan.first.initial none).map f).flatten := by
      rw [← flatMap_def, ← from_eq]
      rfl
    have done : plan.executionDepthFirst limit = some
        (mergeResults limit 0 ((plan.first.initial none).map f)) := by
      rw [Plan.executionDepthFirst, ops]
      dsimp only
      rw [finds.searchCandidates _ positive, map_some]
    have exact_iff : LimitExact limit plan ↔
      (mergeResults limit 0 ((plan.first.initial none).map f)).length =
        min (limit - 0) ((plan.first.initial none).map f).flatten.length := by
      constructor
      · rintro ⟨rows, found, length, -⟩
        rw [done, Option.some.injEq] at found
        rw [found, length, all, Nat.sub_zero]
      · intro length
        refine ⟨_, done, by rw [length, all, Nat.sub_zero], fun row member => ?_⟩
        have inside : row ∈ plan.executionBreathFirst := all ▸ (mergeResults_sublist 0 _).mem member
        exact ⟨executionBreathFirst_columns row inside, inside⟩
    rw [exact_iff, mergeResults_length_iff positive]
    simp only [from_eq, Nat.zero_add, flatMap_append, flatMap_singleton]
    constructor
    · intro results before row behind eq enough
      rw [flatMap_def]
      refine results (before.map f) (f row) (behind.map f) (by rw [eq, map_append, map_cons]) ?_
      rwa [← flatMap_def]
    · intro candidates before rows behind eq enough
      obtain ⟨first, rest, split, rfl, tail⟩ := map_eq_append_iff.mp eq
      obtain ⟨row, last, rfl, rfl, rfl⟩ := map_eq_cons_iff.mp tail
      rw [← flatMap_def] at enough ⊢
      exact candidates first row last split enough

/-- The limit is exact if and only if it is kept. -/
theorem limitExact_iff (positive : 0 < limit) (plan : Plan) :
    LimitExact limit plan ↔ LimitKept limit plan := by
  rcases eq_nil_or_concat plan.ops with none' | ⟨init, last, steps⟩
  · rw [limitExact_first positive none', LimitKept, none']
    rfl
  · rw [concat_eq_append] at steps
    have isLast : plan.ops.getLast? = some last := by rw [steps, getLast?_concat]
    have isInit : plan.ops.dropLast = init := by rw [steps, dropLast_concat]
    have all : plan.executionBreathFirst = (plan.tableAfter init).flatMap last.run := by
      rw [Plan.executionBreathFirst, Plan.tableAfter, steps, foldl_append]
      rfl
    have taken : ∀ counts : last.Counts, (∀ m r, last.lastRows m r = (last.run r).take m) →
        LimitExact limit plan := by
      intro counts same
      refine limitExact_of_take ?_
      rw [executionDepthFirst_eq_chain positive steps counts, all, ← chain_take]
      congr 2
      funext m r
      exact same m r
    unfold LimitKept
    rw [isLast, isInit]
    cases last with
    | extendTwo pairs => exact ⟨fun _ => trivial, fun _ => taken trivial fun _ _ => rfl⟩
    | satellite distinct candidates =>
      exact ⟨fun _ => trivial, fun _ => taken trivial fun _ _ => rfl⟩
    | extendOne candidates =>
      have chained := executionDepthFirst_eq_chain positive steps trivial
      constructor
      · rintro ⟨rows, done, -, shaped⟩ strikes
        rw [chained, Option.some.injEq] at done
        obtain ⟨row, member, r, there, long⟩ := chain_long_of_strikes positive _ strikes
        have short := (shaped row (done ▸ member)).1
        rw [Plan.columns, steps, map_append, sum_append, ← Nat.add_assoc,
          ← foldl_run_length init _ initial_length r there] at short
        simp only [map_cons, map_nil, sum_singleton, RowOp.columns] at short
        omega
      · intro whole
        refine limitExact_of_take ?_
        rw [chained, all, chain_eq_of_not_strikes positive _ whole]
    | check holds counted =>
      cases counted with
      | true => exact ⟨fun _ => trivial, fun _ => taken rfl fun _ _ => rfl⟩
      | false => exact limitExact_uncounted positive steps

end Result

section Escaping

variable {limit : Nat} {plan : Plan}

/-- The results behind the one that fills the limit. -/
def behindLimit : Nat → List (List Row) → List Row
  | _, [] => []
  | limit, rows :: results =>
    if limit ≤ rows.length then results.flatten else behindLimit (limit - rows.length) results

/-- The rows that the limit does not hold back: all literals behind enough entities, and what a
check that is not counted keeps for the first candidates behind the one that fills the limit. -/
def Plan.escaping (limit : Nat) (plan : Plan) : List Row :=
  match plan.ops.getLast?, plan.first with
  | none, .nodes entities literals true =>
    if entities.length < limit then [] else literals.map ([·])
  | some (.check _ false), first =>
    behindLimit limit ((first.initial none).map fun row => rowsFrom plan [row])
  | _, _ => []

theorem behindLimit_sublist (limit : Nat) (results : List (List Row)) :
    (behindLimit limit results).Sublist (results.flatten.drop limit) := by
  induction results generalizing limit with
  | nil => simp [behindLimit]
  | cons rows results ih =>
    rw [behindLimit, flatten_cons, drop_append]
    split
    · rename_i full
      rw [Nat.sub_eq_zero_of_le full, drop_zero]
      exact sublist_append_right _ _
    · rename_i short
      rw [drop_eq_nil_of_le (by omega), nil_append]
      exact ih _

theorem mergeResults_eq {counter : Nat} (below : counter < limit) (results : List (List Row)) :
    mergeResults limit counter results =
      results.flatten.take (limit - counter) ++ behindLimit (limit - counter) results := by
  induction results generalizing counter with
  | nil => simp [mergeResults, behindLimit]
  | cons rows results ih =>
    rw [mergeResults, if_pos below, behindLimit, flatten_cons, take_append, length_take]
    by_cases full : limit - counter ≤ rows.length
    · rw [if_pos full, Nat.min_eq_left full,
          mergeResults_full (by omega), Nat.sub_eq_zero_of_le full, take_zero, append_nil]
    · rw [if_neg full, Nat.min_eq_right (by omega), ih (by omega), append_assoc, Nat.sub_add_eq]

theorem glued_take (record : Row) (m : Nat) (candidates : List Nat) :
    (glued record m candidates).map (take (record.length + 1)) =
    (candidates.map fun c => record ++ [c]).take m := by
  fun_induction glued record m candidates with
  | case1 m => simp
  | case2 candidates => simp
  | case3 candidates some' =>
    obtain ⟨c, rest, rfl⟩ := exists_cons_of_ne_nil some'
    simp [take_append]
  | case4 m c candidates ih => simp [ih]

theorem chain_map {g g' : Nat → Row → List Row} {h : Row → Row} (m : Nat) (table : List Row)
    (same : ∀ m, ∀ r ∈ table, (g m r).map h = g' m r) :
    (chain g m table).map h = chain g' m table := by
  induction table generalizing m with
  | nil => rfl
  | cons r table ih =>
    have rest := fun m => ih m fun m r inside => same m r (mem_cons_of_mem _ inside)
    have here := same m r mem_cons_self
    have length : (g' m r).length = (g m r).length := by rw [← here, length_map]
    rw [chain, chain, map_append, here, length]
    congr 1
    split
    · rfl
    · exact rest _

theorem executionDepthFirst_first (positive : 0 < limit) (none' : plan.ops = []) :
    plan.executionDepthFirst limit = some
    (plan.executionBreathFirst.take limit ++ plan.escaping limit) := by
  have found : plan.executionDepthFirst limit = some (plan.first.initial (some limit)) := by
    rw [Plan.executionDepthFirst, none']
  have all : plan.executionBreathFirst = plan.first.initial none := by
    rw [Plan.executionBreathFirst, Plan.tableAfter, none']
    rfl
  rw [found, all, Plan.escaping, none']
  cases first : plan.first with
  | listed ids => simp [FirstOp.initial, map_take]
  | predicates ids => simp [FirstOp.initial, scan_some positive, scan_none, map_take]
  | nodes entities literals needLiteral =>
    cases needLiteral with
    | false => simp [FirstOp.initial, scan_some positive, scan_none, map_take]
    | true =>
      have whole : FirstOp.initial none (.nodes entities literals true) = (entities ++ literals).map
          ([·]) := by
        simp [FirstOp.initial, scan_none]
      rw [initial_nodes positive, whole, getLast?_nil]
      dsimp only
      by_cases few : entities.length < limit
      · rw [if_pos (.inr few), if_pos few, append_nil, map_take]
      · rw [if_neg few, ← map_take, take_append,
            Nat.sub_eq_zero_of_le (by omega), take_zero, append_nil, ← map_append]
        by_cases no : literals = []
        · simp [no]
        · rw [if_neg (not_or.mpr ⟨no, few⟩)]

theorem executionDepthFirst_uncounted (positive : 0 < limit) {init : List RowOp}
    {holds : Row → Bool}
    (steps : plan.ops = init ++ [.check holds false]) :
    plan.executionDepthFirst limit = some
    (plan.executionBreathFirst.take limit ++ plan.escaping limit) := by
  cases ops : plan.ops with
  | nil => simp [ops] at steps
  | cons op ops' =>
    obtain ⟨f, finds, stem⟩ := @findsAll_layers limit holds op ops' init (ops ▸ steps)
    have rows : ∀ table : List Row, rowsFrom plan table = table.flatMap f :=
      fun table => by rw [rowsFrom, ops, stem]
    have all : plan.executionBreathFirst = ((plan.first.initial none).map f).flatten := by
      rw [← flatMap_def, ← rows]
      rfl
    have behind : plan.escaping limit = behindLimit limit ((plan.first.initial none).map f) := by
      rw [Plan.escaping, steps, getLast?_concat]
      simp [rows]
    rw [Plan.executionDepthFirst, ops]
    dsimp only
    rw [finds.searchCandidates _ positive, map_some, mergeResults_eq positive, Nat.sub_zero, all,
        behind]

theorem rowsFrom_eq (plan : Plan) (table : List Row) :
    rowsFrom plan table = table.flatMap fun row => rowsFrom plan [row] := by
  unfold rowsFrom
  induction plan.ops generalizing table with
  | nil => exact (flatMap_singleton' table).symm
  | cons op ops ih =>
    rw [foldl_cons, ih, flatMap_assoc]
    congr 1
    funext row
    rw [foldl_cons, flatMap_singleton, ← ih]

theorem escaping_sublist (limit : Nat) (plan : Plan) :
    (plan.escaping limit).Sublist (plan.executionBreathFirst.drop limit) := by
  unfold Plan.escaping
  split
  · rename_i entities literals noStep first
    split
    · exact nil_sublist _
    · rename_i many
      have all : plan.executionBreathFirst = (entities ++ literals).map ([·]) := by
        rw [Plan.executionBreathFirst, Plan.tableAfter, getLast?_eq_none_iff.mp noStep, first]
        simp [FirstOp.initial, scan_none]
      rw [all, ← map_drop, drop_append, Nat.sub_eq_zero_of_le (by omega), drop_zero, map_append]
      exact sublist_append_right _ _
  · have all : plan.executionBreathFirst =
      ((plan.first.initial none).map fun row => rowsFrom plan [row]).flatten := by
      rw [← flatMap_def, ← rowsFrom_eq]
      rfl
    rw [all]
    exact behindLimit_sublist _ _
  · exact nil_sublist _

theorem taken_and_escaping_sublist (limit : Nat) (plan : Plan) :
    (plan.executionBreathFirst.take limit ++ plan.escaping limit).Sublist
    plan.executionBreathFirst := by
  have parts := (List.Sublist.refl (plan.executionBreathFirst.take limit)).append
    (escaping_sublist limit plan)
  rwa [take_append_drop] at parts

/-- What the columns hold: the first rows of the breadth-first execution, and those that escape the
limit. -/
theorem executionDepthFirst_eq (positive : 0 < limit) (plan : Plan) :
    ∃ rows, plan.executionDepthFirst limit = some rows ∧
    rows.map (take plan.columns) = plan.executionBreathFirst.take limit ++ plan.escaping limit := by
  have columns : ∀ rows : List Row, rows.Sublist plan.executionBreathFirst →
      rows.map (take plan.columns) = rows := by
    intro rows sub
    refine (map_congr_left fun row member => ?_).trans (map_id rows)
    exact take_of_length_le (executionBreathFirst_columns row (sub.mem member)).le
  have both := columns _ (taken_and_escaping_sublist limit plan)
  rcases eq_nil_or_concat plan.ops with none' | ⟨init, last, steps⟩
  · exact ⟨_, executionDepthFirst_first positive none', both⟩
  rw [concat_eq_append] at steps
  have all : plan.executionBreathFirst = (plan.tableAfter init).flatMap last.run := by
    rw [Plan.executionBreathFirst, Plan.tableAfter, steps, foldl_append]
    rfl
  by_cases counts : last.Counts
  · have nothing : plan.escaping limit = [] := by
      unfold Plan.escaping
      rw [steps, getLast?_concat]
      split
      · simp_all
      · rename_i isLast
        cases isLast
        cases counts
      · rfl
    refine ⟨_, executionDepthFirst_eq_chain positive steps counts, ?_⟩
    rw [nothing, append_nil, all, ← chain_take]
    refine chain_map limit _ fun m r inside => ?_
    have width : plan.columns = r.length + last.columns := by
      rw [Plan.columns, steps, map_append, sum_append, ← Nat.add_assoc,
        ← foldl_run_length init _ initial_length r inside]
      simp
    -- only an extension of one node fills the last row beyond the columns
    cases last with
    | extendOne candidates => rw [width]; exact glued_take r m (candidates r)
    | _ =>
      refine (map_congr_left fun row member => ?_).trans (map_id _)
      exact take_of_length_le ((RowOp.run_length (mem_of_mem_take member)).trans width.symm).le
  · cases last with
    | check holds counted =>
      cases counted with
      | true => exact absurd rfl counts
      | false => exact ⟨_, executionDepthFirst_uncounted positive steps, both⟩
    | _ => exact absurd trivial counts

end Escaping

section Defined

variable {limit till : Nat} {search : Row → Nat → Option (Bool × List Row × Nat)} {table : List Row}

theorem RowOp.on_defined {op : RowOp} {r : Row} (m : Nat) (safe : op.run r = [] ∨ op.columns = 0) :
    ∃ rows, op.on (some m) r = some rows := by
  cases op with
  | extendOne candidates =>
    have none : candidates r = [] := map_eq_nil_iff.mp (safe.resolve_right (by simp [columns]))
    exact ⟨[], by simp [on, none, affectLoop]⟩
  | extendTwo pairs =>
    have none : pairs r = [] := map_eq_nil_iff.mp (safe.resolve_right (by simp [columns]))
    exact ⟨[], by simp [on, none, joinLoop]⟩
  | satellite distinct candidates => exact ⟨_, rfl⟩
  | check holds counted => exact ⟨_, rfl⟩

theorem searchRecords_defined (all : ∀ r ∈ table, ∀ till, ∃ found, search r till = some found)
    (till : Nat) :
    ∃ found, searchRecords limit search table till = some found := by
  induction table generalizing till with
  | nil => exact ⟨_, rfl⟩
  | cons r table ih =>
    obtain ⟨⟨success, rows, now⟩, here⟩ := all r mem_cons_self till
    obtain ⟨rest, later⟩ := ih (fun r inside => all r (mem_cons_of_mem _ inside)) now
    rw [searchRecords, here, bind_some]
    dsimp only
    split_ifs
    · exact ⟨_, later⟩
    · exact ⟨_, rfl⟩
    · exact ⟨_, by rw [later, map_some]⟩

theorem searchCandidates_defined (all : ∀ r ∈ table, ∀ till, ∃ found, search r till = some found)
    (till : Nat) :
    ∃ results, searchCandidates limit search table till = some results := by
  induction table generalizing till with
  | nil => exact ⟨_, rfl⟩
  | cons r table ih =>
    obtain ⟨⟨success, rows, now⟩, here⟩ := all r mem_cons_self till
    obtain ⟨rest, later⟩ := ih (fun r inside => all r (mem_cons_of_mem _ inside)) now
    rw [searchCandidates, here, bind_some]
    dsimp only
    split_ifs
    · exact ⟨_, rfl⟩
    · exact ⟨_, rfl⟩
    · exact ⟨_, by rw [later, map_some]⟩

/-- No row comes to the last step, or the step has no column to add. -/
def Idle (ops : List RowOp) (table : List Row) : Prop :=
  ops.foldl (fun table op => table.flatMap op.run) table = [] ∨
    ∀ last ∈ ops.getLast?, last.columns = 0

theorem foldl_run_eq_nil {ops : List RowOp}
    (none : ops.foldl (fun table op => table.flatMap op.run) table = []) :
    ∀ r ∈ table, ops.foldl (fun table op => table.flatMap op.run) [r] = [] := by
  have split := rowsFrom_eq ⟨.listed [], ops⟩ table
  unfold rowsFrom at split
  rw [none, eq_comm, flatMap_eq_nil_iff] at split
  exact split

theorem depthSearchOneLayer_defined (limit : Nat) {op : RowOp} {ops : List RowOp} {r : Row}
    (idle : Idle (op :: ops) [r])
    (till : Nat) : ∃ found, depthSearchOneLayer limit op ops r till = some found := by
  induction ops generalizing op r till with
  | nil =>
    obtain ⟨rows, done⟩ := RowOp.on_defined (limit - till)
      (idle.imp (fun none => by simpa using none) fun width => width op rfl)
    rw [depthSearchOneLayer, done, map_some]
    exact ⟨_, rfl⟩
  | cons next ops ih =>
    have later : ∀ r' ∈ op.run r, Idle (next :: ops) [r'] := by
      intro r' inside
      refine idle.imp (fun none => ?_) fun width last isLast => width last (by simpa using isLast)
      rw [foldl_cons, flatMap_singleton] at none
      exact foldl_run_eq_nil none r' inside
    rw [depthSearchOneLayer, op.on_none, bind_some]
    split
    · exact ⟨_, rfl⟩
    · obtain ⟨found, done⟩ :=
        @searchRecords_defined limit _ _ (fun r' inside till => ih (later r' inside) till) till
      rw [done, map_some]
      exact ⟨_, rfl⟩

theorem executionDepthFirst_defined (limit : Nat) {plan : Plan}
    (idle : Idle plan.ops (plan.first.initial none)) :
    ∃ rows, plan.executionDepthFirst limit = some rows := by
  unfold Plan.executionDepthFirst
  cases ops : plan.ops with
  | nil => exact ⟨_, rfl⟩
  | cons op ops' =>
    have each : ∀ r ∈ plan.first.initial none, Idle (op :: ops') [r] := by
      rw [ops] at idle
      exact fun r inside => idle.imp_left fun none => foldl_run_eq_nil none r inside
    obtain ⟨results, done⟩ := @searchCandidates_defined limit _ _
      (fun r inside till => depthSearchOneLayer_defined limit (each r inside) till) 0
    dsimp only
    rw [done, map_some]
    exact ⟨_, rfl⟩

end Defined

/-- Each candidate of the first step with both ids of the second, and the satellite that keeps it.
-/
def twoByTwo : Plan := ⟨.listed [1, 2], [.extendOne fun _ => [5, 6], .satellite true fun _ => [7]]⟩

theorem twoByTwo_three : LimitExact 3 twoByTwo := (limitExact_iff (by decide) twoByTwo).mpr trivial

/-- The ids behind the limit are put into the row. -/
theorem row_with_rest_of_candidates :
    ¬ LimitExact 1 ⟨.listed [1], [.extendOne fun _ => [5, 6]]⟩ := by
  rintro ⟨rows, done, -, shaped⟩
  have found : rows = [[1, 5, 6]] := (Option.some.inj done).symm
  have short := (shaped [1, 5, 6] (by simp [found])).1
  cases short

section Check

open Executor

variable {S : Finset Triple} {cols : List Nat} {edges : List Executor.EdgeInfo}
    {values : Key → Option (List Nat)}

/-- A check step: `ANodeEdgesConstraintFilter` with `remain_old` unset. Its size is right if the
last edge goes from constants or there is none. -/
def RowOp.ofEdges (S : Finset Triple) (cols : List Nat) (edges : List Executor.EdgeInfo) : RowOp :=
  .check (fun row => decide (∀ e ∈ edges, e.Satisfied S cols row)) (edges.getLast?.all fun last =>
    match last.method with
    | .one m => last.constantToVar m
    | .two _ => true)

/-- `ANodeEdgesConstraintFilter` on the table of one record gives the table of the step, with the
size it reports. -/
theorem RowOp.ofEdges_table (reads : ReadsExactly values S) (between : ∀ e ∈ edges, e.Between cols)
    (one : ∀ e ∈ edges, e.FindsOne) (record : Row) : ∃ new,
    (aNodeEdgesConstraintFilter values cols false edges ⟨[record], 1⟩).map Prod.snd = .ok new ∧
      new.rows = (RowOp.ofEdges S cols edges).run record ∧
        (new.rows ≠ [] → new.size.toNat = (RowOp.ofEdges S cols edges).reported new.rows) := by
  obtain ⟨new, done, rows⟩ :=
    @filterEdges_rows values S cols false edges reads between one ⟨[record], 1⟩
  have kept : new.rows = (RowOp.ofEdges S cols edges).run record := by
    rw [rows, RowOp.ofEdges, RowOp.run, filter_cons, filter_nil]
  refine ⟨new, aNodeEdgesConstraintFilter_new edges _ ▸ done, kept, fun some' => ?_⟩
  rcases eq_nil_or_concat edges with rfl | ⟨init, last, rfl⟩
  · cases done
    rfl
  · rw [concat_eq_append] at *
    obtain ⟨m, method⟩ := one last (by simp)
    have holds : ∀ e ∈ init ++ [last], e.Satisfied S cols record := by
      by_contra fails
      exact some' (rows.trans (filter_eq_nil_iff.mpr (by simpa using fails)))
    have only : new.rows = [record] := rows.trans (filter_eq_self.mpr (by simpa using holds))
    have before : ([record].filter fun row => ∀ e ∈ init, e.Satisfied S cols row) = [record] :=
      filter_eq_self.mpr (by simpa using fun e member => holds e (mem_append_left _ member))
    have size := filterEdges_size reads between
      (fun e member => one e (mem_append_left _ member)) method done
    rw [only, before] at size
    rw [size, only, RowOp.ofEdges, getLast?_concat]
    cases constant : last.constantToVar m <;> simp [method, constant, RowOp.reported]

end Check

end GStore.Rows
