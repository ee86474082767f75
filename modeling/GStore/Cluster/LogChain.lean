import Mathlib.Data.List.Basic
import Mathlib.Logic.Function.Basic
import Mathlib.Tactic

/-! The update log of one database of a cluster: `ClusterDbNameLogInfo`, as `ClusterEntity` reads it
from its file and writes it back, and the chain of the next pointers. A log without a file has no
entry. -/
namespace GStore.Cluster
open Function List

inductive ClusterOperation where
  | none | heartBeat | compare | prepare | handle | append | commit | cancel | fail | build | drop | recover | init
  | check | replly | undefine
  deriving DecidableEq

inductive ClusterUpdateType where
  | defaut | none | insert | delete | build | init
  deriving DecidableEq

structure LogInfo where
  nextIndex : Nat
  operation : ClusterOperation
  fileName : String

abbrev Logs := Nat → Option LogInfo

def addLog (logs : Logs) (index : Nat) (operation : ClusterOperation) (last : Nat)
    (fileName : String) : Logs :=
  if (logs index).isSome then logs
  else
    let logs := update logs index (some ⟨0, operation, fileName⟩)
    if last = 0 then logs
    else
      match logs last with
      | some e =>
        if e.operation = .commit ∨ e.operation = .build then update logs last
          (some { e with nextIndex := index }) else logs
      | none => logs

def updateLogOperation (logs : Logs) (index : Nat) (operation : ClusterOperation)
    (fileName : String) : Logs :=
  match logs index with
  | some e =>
    update logs index (some ⟨e.nextIndex, operation,
      if fileName = "" then e.fileName else fileName⟩)
  | none => logs

/-- `none` when the fuel is gone before the end. An index comes with the file of the entry before
it. -/
def getNextIndexL (logs : Logs) : Nat → Nat → Option (List (Nat × String))
  | 0, _ => none
  | fuel + 1, index =>
    match logs index with
    | some e =>
      if e.nextIndex = 0 ∨ e.fileName = "" ∨ e.operation ≠ .commit then some []
      else (getNextIndexL logs fuel e.nextIndex).map ((e.nextIndex, e.fileName) :: ·)
    | none => some []

/-- `index` is the one in the term file, the last that was committed. -/
structure Entity where
  logs : Logs := fun _ => none
  index : Nat := 0

namespace Entity

def addLog (s : Entity) (index : Nat) (operation : ClusterOperation)
    (updateType : ClusterUpdateType) : Entity :=
  -- dropDb and addClusterDb
  let s := if updateType = .build then {} else s
  { s with logs := Cluster.addLog s.logs index operation s.index "" }

def addCommitLog (s : Entity) (index : Nat) (fileName : String) : Entity :=
  ⟨Cluster.addLog s.logs index .commit s.index fileName, index⟩

def updateLogOperation (s : Entity) (index : Nat) (operation : ClusterOperation)
    (fileName : String) : Entity :=
  ⟨Cluster.updateLogOperation s.logs index operation fileName,
      if operation = .commit then index else s.index⟩

end Entity

/-- An update that is prepared, goes through some operations and may then be committed, or
`addCommitLog`. -/
inductive Round where
  | prepared (index : Nat) (updateType : ClusterUpdateType) (steps : List (ClusterOperation × String))
    (commit : Option String)
  | committed (index : Nat) (fileName : String)

namespace Round

def index : Round → Nat
  | prepared i _ _ _ => i
  | committed i _ => i

def commits : Round → Bool
  | prepared _ _ _ commit => commit.isSome
  | committed _ _ => true

def Valid : Round → Prop
  | prepared i _ steps commit => i ≠ 0 ∧ (∀ step ∈ steps, step.1 ≠ .commit) ∧ commit ≠ some ""
  | committed i file => i ≠ 0 ∧ file ≠ ""

def run (s : Entity) : Round → Entity
  | prepared i updateType steps commit =>
    let s := steps.foldl (fun s step => s.updateLogOperation i step.1 step.2)
      (s.addLog i .prepare updateType)
    match commit with
    | some file => s.updateLogOperation i .commit file
    | none => s
  | committed i file => s.addCommitLog i file

/-- A build drops the database. -/
def resets : Round → Bool
  | prepared _ updateType _ _ => updateType = .build
  | committed _ _ => false

/-- What is committed of the database, in order. -/
def list (cs : List Nat) (r : Round) : List Nat :=
  (if r.resets then [] else cs) ++ if r.commits then [r.index] else []

/-- What the last entry of the chain points to after the round. -/
def pending (r : Round) : Nat := if r.commits then 0 else r.index

end Round

def run (rounds : List Round) : Entity := rounds.foldl Round.run {}

def committed (rounds : List Round) : List Nat := rounds.foldl Round.list []

/-- From each committed index the walk ends, with what was committed after it. -/
def ListsCommitted (rounds : List Round) : Prop :=
  ∀ before c after, committed rounds = before ++ c :: after →
    ∀ fuel > (committed rounds).length + 1,
    (getNextIndexL (run rounds).logs fuel c).map (·.map Prod.fst) = some after

def Linked (logs : Logs) (d : Nat) : List Nat → Prop
  | [] => True
  | c :: rest =>
    (∃ file, file ≠ "" ∧ logs c = some ⟨rest.headD d, .commit, file⟩) ∧ Linked logs d rest

section Logs

variable {logs after : Logs} {d i : Nat} {cs : List Nat} {op : ClusterOperation} {file : String}

theorem Linked.congr (linked : Linked logs d cs) (same : ∀ c ∈ cs, after c = logs c) :
    Linked after d cs := by
  induction cs with
  | nil => trivial
  | cons c rest ih =>
    obtain ⟨⟨file, named, entry⟩, linked⟩ := linked
    exact ⟨⟨file, named, (same c mem_cons_self).trans entry⟩,
        ih linked fun x h => same x (mem_cons_of_mem c h)⟩

theorem linked_concat {last : Nat} :
    Linked logs d (cs ++ [last]) ↔ Linked logs last cs ∧ ∃ file, file ≠ "" ∧
    logs last = some ⟨d, .commit, file⟩ := by
  induction cs with
  | nil => simp [Linked]
  | cons c rest ih =>
    have head : (rest ++ [last]).headD d = rest.headD last := by cases rest <;> rfl
    rw [cons_append, Linked, Linked, ih, head, and_assoc]

theorem Linked.exists_entry (linked : Linked logs d cs) {c : Nat} (mem : c ∈ cs) :
    (logs c).isSome := by
  induction cs with
  | nil => cases mem
  | cons x rest ih =>
    rcases mem_cons.mp mem with rfl | mem
    · obtain ⟨file, -, entry⟩ := linked.1
      rw [entry, Option.isSome_some]
    · exact ih linked.2 mem

theorem Linked.suffix {before : List Nat} (linked : Linked logs d (before ++ cs)) :
    Linked logs d cs := by
  induction before with
  | nil => exact linked
  | cons x before ih => exact ih linked.2

theorem Linked.walk {c : Nat} (linked : Linked logs d (c :: cs)) (zero : logs 0 = none)
    (stops : ∀ e, logs d = some e → e.operation ≠ .commit) {fuel : Nat}
    (turns : cs.length + 1 < fuel) :
    (getNextIndexL logs fuel c).map (·.map Prod.fst) = some (cs ++ if d = 0 then [] else [d]) := by
  induction cs generalizing c fuel with
  | nil =>
    obtain ⟨⟨file, named, entry⟩, -⟩ := linked
    obtain ⟨fuel, rfl⟩ : ∃ k, fuel = k + 2 := ⟨fuel - 2, by simp at turns; omega⟩
    rw [getNextIndexL, entry]
    by_cases ends : d = 0
    · simp [ends]
    · have nothing : getNextIndexL logs (fuel + 1) d = some [] := by
        rw [getNextIndexL]
        split
        · rename_i e found
          rw [if_pos (.inr (.inr (stops e found)))]
        · rfl
      simp [ends, named, nothing]
  | cons next rest ih =>
    obtain ⟨⟨file, named, entry⟩, linked⟩ := linked
    obtain ⟨fuel, rfl⟩ : ∃ k, fuel = k + 1 := ⟨fuel - 1, by omega⟩
    have used : next ≠ 0 := by
      rintro rfl
      simpa [zero] using linked.exists_entry mem_cons_self
    have rest := @ih next linked fuel (by simp at turns ⊢; omega)
    obtain ⟨pairs, found, indexes⟩ := Option.map_eq_some_iff.mp rest
    rw [getNextIndexL, entry]
    simp [used, named, found, indexes]

theorem addLog_eq {last : Nat} {e : LogInfo} (fresh : logs i = none) (zero : logs 0 = none)
    (entry : logs last = some e)
    (done : e.operation = .commit) : addLog logs i op last file =
      update (update logs i (some ⟨0, op, file⟩)) last (some { e with nextIndex := i }) := by
  have ne : last ≠ i := fun h => by simp [← h, entry] at fresh
  have used : last ≠ 0 := fun h => by simp [h, zero] at entry
  simp [addLog, fresh, used, update_of_ne ne, entry, done]

/-- The new entry, and the pointer of the last committed one to it. -/
theorem Linked.addLog (linked : Linked logs d cs) (distinct : cs.Nodup) (fresh : logs i = none)
    (zero : logs 0 = none) :
    Linked (addLog logs i op (cs.getLastD 0) file) i cs ∧
    addLog logs i op (cs.getLastD 0) file i = some ⟨0, op, file⟩ ∧
      ∀ j, j ≠ i → logs j = none → addLog logs i op (cs.getLastD 0) file j = none := by
  rcases eq_nil_or_concat cs with rfl | ⟨front, last, rfl⟩
  · refine ⟨trivial, ?_, fun j ne absent => ?_⟩
    · simp [Cluster.addLog, fresh]
    · simp [Cluster.addLog, fresh, update_of_ne ne, absent]
  · rw [concat_eq_append] at *
    obtain ⟨linked, old, named, entry⟩ := linked_concat.mp linked
    have ne : i ≠ last := fun h => by simp [← h, fresh] at entry
    rw [getLastD_concat, addLog_eq fresh zero entry rfl]
    refine ⟨linked_concat.mpr ⟨linked.congr fun c mem => ?_, old, named, update_self ..⟩, ?_,
        fun j ne absent => ?_⟩
    · have here : c ≠ last := fun h => (nodup_append.mp distinct).2.2 c mem last mem_cons_self h
      have there : c ≠ i := fun h => by simpa [h, fresh] using linked.exists_entry mem
      rw [update_of_ne here, update_of_ne there]
    · rw [update_of_ne ne, update_self]
    · have here : j ≠ last := fun h => by simp [← h, absent] at entry
      rw [update_of_ne here, update_of_ne ne, absent]

/-- What is written to an entry just added could have been added at once. -/
theorem updateLogOperation_addLog {last n : Nat} (fresh : logs i = none) (ne : last ≠ i)
    (new : ClusterOperation)
    (given : String) : Entity.updateLogOperation ⟨addLog logs i op last file, n⟩ i new given =
      ⟨addLog logs i new last (if given = "" then file else given),
        if new = .commit then i else n⟩ := by
  simp only [Entity.updateLogOperation, addLog, fresh, Option.isSome_none, Bool.false_eq_true,
      if_false, update_of_ne ne]
  congr 1
  split
  · simp [updateLogOperation]
  · split
    · split
      · simp [updateLogOperation, update_of_ne ne.symm, update_comm ne]
      · simp [updateLogOperation]
    · simp [updateLogOperation]

theorem steps_addLog {last n : Nat} (fresh : logs i = none) (ne : last ≠ i)
    {steps : List (ClusterOperation × String)}
    (undone : op ≠ .commit) (others : ∀ step ∈ steps, step.1 ≠ .commit) :
    ∃ new given, new ≠ ClusterOperation.commit ∧
      steps.foldl (fun s step => s.updateLogOperation i step.1 step.2)
      (Entity.mk (addLog logs i op last file) n) =
        ⟨addLog logs i new last given, n⟩ := by
  induction steps generalizing op file with
  | nil => exact ⟨op, file, undone, rfl⟩
  | cons step rest ih =>
    have here := others step mem_cons_self
    rw [foldl_cons, updateLogOperation_addLog fresh ne, if_neg here]
    exact ih here fun x h => others x (mem_cons_of_mem step h)

end Logs

/-- All of a round is one `addLog`, of what its last call says. -/
theorem Round.run_eq {s : Entity} {r : Round} (valid : r.Valid) (ne : s.index ≠ r.index)
    (fresh : s.logs r.index = none) :
    let t := if r.resets then {} else s
    ∃ op file, (op = .commit ↔ r.commits) ∧ (r.commits → file ≠ "") ∧
      r.run s = ⟨addLog t.logs r.index op t.index file,
        if r.commits then r.index else t.index⟩ := by
  cases r with
  | committed i file => exact ⟨.commit, file, by simp [commits], fun _ => valid.2, rfl⟩
  | prepared i updateType steps commit =>
    intro t
    have start : t.logs i = none ∧ t.index ≠ i := by
      by_cases new : updateType = .build
      · simp [t, resets, new, valid.1.symm]
      · simpa [t, resets, new] using ⟨fresh, ne⟩
    obtain ⟨op, file, undone, after⟩ :=
      @steps_addLog t.logs i .prepare "" _ t.index start.1 start.2 steps (by decide) valid.2.1
    have same : (s.addLog i .prepare updateType) =
        ⟨addLog t.logs i .prepare t.index "", t.index⟩ := by
      by_cases new : updateType = .build <;> simp [Entity.addLog, t, resets, new]
    simp only [run, same, after]
    cases commit with
    | none => exact ⟨op, file, by simp [commits, undone], fun h => (by cases h), rfl⟩
    | some given =>
      have named : given ≠ "" := fun h => valid.2.2 (congrArg some h)
      exact ⟨.commit, given, by simp [commits], fun _ => named, by
        simp [updateLogOperation_addLog start.1 start.2, named, commits, index]⟩

structure Chain (used : List Nat) (s : Entity) (cs : List Nat) (d : Nat) : Prop where
  linked : Linked s.logs d cs
  last : s.index = cs.getLastD 0
  distinct : cs.Nodup
  entries : ∀ i, i ∉ used → s.logs i = none
  stops : ∀ e, s.logs d = some e → e.operation ≠ .commit

theorem chain_empty (used : List Nat) : Chain used {} [] 0 :=
  ⟨trivial, rfl, nodup_nil, fun _ _ => rfl, fun e found => by cases found⟩

theorem Round.Valid.index_ne {r : Round} (valid : r.Valid) : r.index ≠ 0 := by
  cases r with
  | prepared => exact valid.1
  | committed => exact valid.1

theorem Chain.round {used cs : List Nat} {s : Entity} {d : Nat} (chain : Chain used s cs d)
    (positive : 0 ∉ used) {r : Round}
    (valid : r.Valid) (fresh : r.index ∉ used) :
    Chain (used ++ [r.index]) (r.run s) (r.list cs) r.pending := by
  have known : ∀ c ∈ cs, c ∈ used := by
    intro c mem
    by_contra out
    simpa [chain.entries c out] using chain.linked.exists_entry mem
  have ne : s.index ≠ r.index := by
    rw [chain.last]
    rcases eq_nil_or_concat cs with rfl | ⟨front, last, rfl⟩
    · exact valid.index_ne.symm
    · rw [concat_eq_append, getLastD_concat]
      exact fun h => fresh (h ▸ known last (by simp))
  obtain ⟨op, file, done, named, after⟩ := Round.run_eq valid ne (chain.entries _ fresh)
  rw [after, Round.list, Round.pending]
  have start : Chain used (if r.resets then {} else s) (if r.resets then [] else cs)
      (if r.resets then 0 else d) := by
    split
    · exact chain_empty used
    · exact chain
  have out : r.index ∉ if r.resets then [] else cs := by
    split
    · exact not_mem_nil
    · exact fun mem => fresh (known _ mem)
  generalize (if r.resets then ({} : Entity) else s) = t at *
  generalize (if r.resets then [] else cs) = ds at *
  obtain ⟨linked, entry, others⟩ :=
    @Linked.addLog t.logs _ r.index ds op file start.linked start.distinct
    (start.entries _ fresh) (start.entries 0 positive)
  rw [← start.last] at linked entry others
  have entries : ∀ i, i ∉ used ++ [r.index] → addLog t.logs r.index op t.index file i = none := by
    intro i absent
    rw [mem_append, mem_singleton, not_or] at absent
    exact others i absent.2 (start.entries i absent.1)
  cases commits : r.commits with
  | true =>
    obtain rfl := done.mpr commits
    refine ⟨linked_concat.mpr ⟨linked, file, named commits, entry⟩, ?_, ?_, entries,
        fun e found => ?_⟩
    · exact (getLastD_concat ..).symm
    · simpa using start.distinct.concat out
    · cases (others 0 valid.index_ne.symm (start.entries 0 positive)).symm.trans found
  | false =>
    have undone : op ≠ .commit := fun h => by simp [done.mp h] at commits
    refine ⟨?_, ?_, ?_, entries, fun e found => ?_⟩
    · simpa using linked
    · simpa using start.last
    · simpa using start.distinct
    · cases entry.symm.trans found
      exact undone

theorem zero_unused {rounds : List Round} (valid : ∀ r ∈ rounds, r.Valid) :
    0 ∉ rounds.map Round.index := by
  intro mem
  obtain ⟨r, mem, zero⟩ := mem_map.mp mem
  exact (valid r mem).index_ne zero

theorem chain_run {rounds : List Round} (valid : ∀ r ∈ rounds, r.Valid)
    (fresh : (rounds.map Round.index).Nodup) :
    Chain (rounds.map Round.index) (run rounds) (committed rounds)
    (rounds.getLast?.elim 0 Round.pending) := by
  induction rounds using reverseRecOn with
  | nil => exact chain_empty []
  | append_singleton rounds r ih =>
    rw [map_append, nodup_append] at fresh
    have earlier : ∀ x ∈ rounds, x.Valid := fun x h => valid x (mem_append_left _ h)
    have chain := (ih earlier fresh.1).round (zero_unused earlier) (valid r (by simp))
      fun mem => fresh.2.2 r.index mem r.index (by simp) rfl
    simpa [run, committed] using chain

theorem listsCommitted_iff {rounds : List Round} (valid : ∀ r ∈ rounds, r.Valid)
    (fresh : (rounds.map Round.index).Nodup) :
    ListsCommitted rounds ↔ committed rounds = [] ∨ ∃ r, rounds.getLast? = some r ∧ r.commits := by
  have chain := chain_run valid fresh
  have zero : (run rounds).logs 0 = none := chain.entries 0 (zero_unused valid)
  have walk : ∀ before c after, committed rounds = before ++ c :: after →
    ∀ fuel > (committed rounds).length + 1,
      (getNextIndexL (run rounds).logs fuel c).map (·.map Prod.fst) =
        some (after ++ if rounds.getLast?.elim 0 Round.pending =
          0 then [] else [rounds.getLast?.elim 0 Round.pending]) := by
    intro before c after split fuel turns
    exact (split ▸ chain.linked).suffix.walk zero chain.stops (by simp [split] at turns; omega)
  constructor
  · intro lists
    rcases eq_nil_or_concat (committed rounds) with none | ⟨front, last, split⟩
    · exact .inl none
    · rw [concat_eq_append] at split
      have both := (walk front last [] split _ (Nat.lt_succ_self _)).symm.trans
        (lists front last [] split _ (Nat.lt_succ_self _))
      rcases eq_nil_or_concat rounds with rfl | ⟨rounds, r, rfl⟩
      · exact .inl rfl
      · refine .inr ⟨r, by simp, ?_⟩
        by_contra pending
        simp [Round.pending, pending, (valid r (by simp)).index_ne] at both
  · rintro (none | ⟨r, ends, commits⟩) before c after split fuel turns
    · simp [none] at split
    · rw [walk before c after split fuel turns]
      simp [ends, Round.pending, commits]

/-- The cancelled update 2 follows the committed update 1. -/
theorem cancelled_listed :
    getNextIndexL (run [.committed 1 "a.nt",
      .prepared 2 .insert [(.append, ""), (.cancel, "")] none]).logs 4 1 =
      some [(2, "a.nt")] ∧
    ¬ ListsCommitted [.committed 1 "a.nt",
      .prepared 2 .insert [(.append, ""), (.cancel, "")] none] := by
  refine ⟨by decide, fun lists => ?_⟩
  have after := lists [] 1 [] (by decide) 4 (by decide)
  revert after
  decide

theorem committed_listed :
    ListsCommitted [.committed 1 "a.nt", .prepared 2 .insert [(.append, "")] (some "b.nt")] :=
  (listsCommitted_iff (by simp [Round.Valid]) (by decide)).mpr (.inr ⟨_, rfl, rfl⟩)

end GStore.Cluster
