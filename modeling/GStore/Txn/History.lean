import GStore.Txn.Solo

/-! Committed transactions one after another, and what a later transaction reads at a key: the list
in which every pair is as its last operation left it, except where the merge of the versions has
cancelled an operation against one that came before. -/
namespace GStore
open Lib List

/-- A transaction of a serial history, with its triples in program order. -/
structure Script where
  level : IsolationLevel
  changes : List Change

/-- `Begin`, the triples and `Commit` of each transaction; the first one has id `tid`. -/
def serialCalls : Nat → List Script → List Call
  | _, [] => []
  | tid, script :: history =>
    .begin script.level :: script.changes.map (.update tid) ++ .commit tid :: serialCalls
    (tid + 1) history

def Script.workAt (script : Script) (key : Key) : List VData × List VData :=
  (additions script.changes key, deletions script.changes key)

theorem run_perform_extends {s t : Sys} {calls : List Call} (c : s.Chained)
    (ran : run Sys.perform s calls = some t) :
    s.kv.Extends t.kv :=
  (@run_invariant Sys Call Sys.perform (fun t => t.Chained ∧ s.kv.Extends t.kv)
    (fun _ _ _ ⟨c, grown⟩ done => ⟨perform_chained c done, grown.trans (run_extends c done)⟩) s t
    calls
    ⟨c, .refl s.kv⟩ ran).2

theorem Sys.Alone.updates {s : Sys} {tid : Nat} (alone : s.Alone tid) {us : List Change}
    (fits : ∀ u ∈ us, u.Fits) :
    ∃ t, run Sys.perform s (us.map (.update tid)) = some t ∧ t.Alone tid ∧ t.cnt = s.cnt ∧
    t.started = s.started ∧
      (t.session tid).done = (s.session tid).done ++ us ∧ ∀ X, X ≠ tid →
      t.session X = s.session X := by
  induction us generalizing s with
  | nil => exact ⟨s, rfl, alone, rfl, rfl, by simp, fun _ _ => rfl⟩
  | cons u us ih =>
    obtain ⟨kv, performed, after⟩ := alone.update (fits u (by simp))
    obtain ⟨t, rest, last, cnt, started, done, others⟩ := ih after fun v hv => fits v (by simp [hv])
    refine ⟨t, run_cons.mpr ⟨_, performed, rest⟩, last, cnt, started, ?_, fun X away => ?_⟩
    · simpa [Session.enter] using done
    · rw [others X away, put_session, Function.update_of_ne away]

theorem Sys.Quiet.script {s : Sys} (quiet : s.Quiet) {script : Script}
    (fits : ∀ u ∈ script.changes, u.Fits) :
    ∃ t, run Sys.perform s (.begin script.level :: script.changes.map (.update s.cnt) ++
      [.commit s.cnt]) = some t ∧
      t.Quiet ∧ t.cnt = s.cnt + 1 ∧
      ∀ key, t.works t.started key = s.works s.started key ++ [script.workAt key] := by
  obtain ⟨r, updated, alone, cnt, started, done, others⟩ := (quiet.begin script.level).updates fits
  obtain ⟨kv, committed, after⟩ := alone.commit
  refine ⟨_, run_cons.mpr ⟨_, rfl, run_append.mpr ⟨r, updated, run_cons.mpr ⟨_, committed, rfl⟩⟩⟩,
      after, cnt, fun key => ?_⟩
  have whole : (r.committedAs s.cnt kv).started = s.started ++ [s.cnt] := by
    rw [Sys.committedAs, started]
    rfl
  rw [whole, Sys.works, map_append, map_singleton]
  congr 1
  · refine works_congr (fun X member => ?_) key
    have away : X ≠ s.cnt := (quiet.chained.started_lt member).ne
    simp [Sys.committedAs, put_session, Function.update_of_ne away, others X away,
        begin_session_of_ne away]
  · have written : (r.session s.cnt).done =
      script.changes := by simpa [begin_session_self] using done
    simp [Sys.committedAs, Session.work, Session.updates, Script.workAt, written]

theorem Sys.Quiet.serial {s : Sys} (quiet : s.Quiet) {history : List Script}
    (fits : ∀ script ∈ history, ∀ u ∈ script.changes, u.Fits) :
    ∃ t, run Sys.perform s (serialCalls s.cnt history) = some t ∧ t.Quiet ∧
    t.cnt = s.cnt + history.length ∧
      ∀ key, t.works t.started key = s.works s.started key ++ history.map (·.workAt key) := by
  induction history generalizing s with
  | nil => exact ⟨s, rfl, quiet, rfl, by simp⟩
  | cons script history ih =>
    obtain ⟨r, first, between, cnt, works⟩ := quiet.script (fits script (by simp))
    obtain ⟨t, rest, last, count, all⟩ := ih between fun script hs => fits script (by simp [hs])
    rw [cnt] at rest count
    refine ⟨t, ?_, last, by rw [count, length_cons]; omega, fun key => ?_⟩
    · rw [serialCalls, cons_append, append_cons, ← cons_append]
      exact run_append.mpr ⟨r, first, rest⟩
    · rw [all key, works key, map_cons, append_assoc, singleton_append]

def touches (us : List Change) (key : Key) (q : VData) : List Bool :=
  us.filterMap fun u => if u.pairAt key = some q then some u.insertion else none

variable (history : List Script)

/-- The operations on a pair in commit order, and in program order inside a transaction. -/
def programWord (key : Key) (q : VData) : List Bool :=
  history.flatMap fun script => touches script.changes key q

def mergedWord (key : Key) (q : VData) : List Bool :=
  history.flatMap fun script => insertionsFirst (touches script.changes key q)

theorem mergeWord_touches (us : List Change) (key : Key) (q : VData) :
    mergeWord (additions us key, deletions us key) q = insertionsFirst (touches us key q) := by
  have counts : (additions us key).count q = (touches us key q).count true ∧
      (deletions us key).count q = (touches us key q).count false := by
    induction us with
    | nil => exact ⟨rfl, rfl⟩
    | cons u us ih =>
      simp only [additions, deletions, touches, filterMap_cons] at ih ⊢
      rcases inserts : u.insertion with _ | _ <;> rcases pair : u.pairAt key with _ | p
      · simpa using ih
      · by_cases same : p = q <;> simpa [same] using ih
      · simpa using ih
      · by_cases same : p = q <;> simpa [same] using ih
  rw [mergeWord, counts.1, counts.2, insertionsFirst]

theorem pending_history (key : Key) (q : VData) :
    pending (mergeWorks (history.map (·.workAt key))) q = toggles (mergedWord history key q) := by
  rw [(mergeWorks_spec _ q).2, flatMap_map, mergedWord]
  congr 2
  funext script
  exact mergeWord_touches script.changes key q

/-- Sequential set semantics: the last operation decides, and without one the base list. -/
def LastDecides (base : Prop) (word : List Bool) : Prop := word.getLast?.elim base (· = true)

def PairReadsBack (base : Prop) (program merged : List Bool) : Prop :=
  match program.getLast? with
  | none => True
  | some false => Odd (alternatingSuffix merged) ∨ ¬ base
  | some true =>
    Odd (alternatingSuffix merged) ∧ merged.getLast? = some true ∨
    ¬ Odd (alternatingSuffix merged) ∧ base

/-- The condition under which a serial history is read back at a key: pair by pair, and no deletion
may be left over for an empty subject or predicate list without an insertion. -/
structure ReadsBack (history : List Script) (key : Key) (base : Option (List Nat)) : Prop where
  pairs : ∀ q, PairReadsBack (q ∈ pairsIn key.type base) (programWord history key q)
    (mergedWord history key q)
  lengthSet : key.type ≠ .object → base = none →
    (∃ q, Odd (alternatingSuffix (mergedWord history key q)) ∧
      (mergedWord history key q).getLast? = some false) →
    ∃ q, Odd (alternatingSuffix (mergedWord history key q)) ∧
    (mergedWord history key q).getLast? = some true

theorem insertionsFirst_getLast (word : List Bool) :
    (insertionsFirst word).getLast? = if false ∈ word then some false else word.getLast? := by
  unfold insertionsFirst
  rw [getLast?_append, getLast?_replicate, getLast?_replicate]
  by_cases deletes : false ∈ word
  · have positive := count_pos_iff.mpr deletes
    simp [deletes, positive.ne']
  · have inserts : ∀ b ∈ word, b = true := fun b member => by
      cases b with
      | true => rfl
      | false => exact absurd member deletes
    obtain ⟨n, rfl⟩ : ∃ n, word = List.replicate n true := ⟨_, eq_replicate_of_mem inserts⟩
    simp [count_replicate, getLast?_replicate]

theorem mergedWord_getLast (key : Key) (q : VData) :
    ((mergedWord history key q).getLast? = none ↔ (programWord history key q).getLast? = none) ∧
      ((programWord history key q).getLast? = some false →
        (mergedWord history key q).getLast? = some false) := by
  induction history using List.reverseRecOn with
  | nil => simp [mergedWord, programWord]
  | append_singleton history script ih =>
    simp only [mergedWord, programWord, flatMap_append, flatMap_singleton, getLast?_append,
      insertionsFirst_getLast] at ih ⊢
    by_cases deletes : false ∈ touches script.changes key q
    · have filled : touches script.changes key q ≠ [] := ne_nil_of_mem deletes
      simp [deletes, filled]
    · rw [if_neg deletes]
      rcases last : (touches script.changes key q).getLast? with _ | b
      · simpa using ih
      · simp

theorem toggles_leaves {word : List Bool} {b : Bool} :
    toggles word = some b ↔ Odd (alternatingSuffix word) ∧ word.getLast? = some b := by
  rw [toggles_eq]
  split <;> simp_all

theorem pairReadsBack_iff {base : Prop} {program merged : List Bool}
    (last : (merged.getLast? = none ↔ program.getLast? = none) ∧
      (program.getLast? = some false → merged.getLast? = some false)) :
    (((base ∨ toggles merged = some true) ∧ toggles merged ≠ some false) ↔ LastDecides base program)
    ↔
      PairReadsBack base program merged := by
  unfold LastDecides PairReadsBack
  rw [ne_eq, toggles_leaves, toggles_leaves]
  rcases final : program.getLast? with _ | _ | _
  · simp [last.1.mpr final]
  · simp [last.2 final]
    tauto
  · obtain ⟨b, ends⟩ : ∃ b, merged.getLast? = some b := by
      cases ends : merged.getLast? with
      | none => simp [last.1.mp ends] at final
      | some b => exact ⟨b, rfl⟩
    cases b <;> simp only [ends, reduceCtorEq, Option.some.injEq, Bool.false_eq_true,
        Option.elim_some] <;> tauto

theorem serial_history_read {kv : KVstore} (fresh : kv.Unversioned) (allocated : kv.Allocated)
    {fn : ReadFn}
    {id : Nat} (entity : fn.type = .subject → isEntityEle id) {history : List Script}
    (fits : ∀ script ∈ history, ∀ u ∈ script.changes, u.Fits) (level : IsolationLevel) :
    ∃ s r found, run Sys.perform (Sys.init kv) (serialCalls 1 history ++ [.begin level]) = some s ∧
      s.kv.fetch fn id (s.session (history.length + 1)).txn = some r ∧ r.found = some found ∧
      found.list fn.type = mergeSets fn.type (kv.entryAt ⟨fn.type, id⟩).value
        (mergeWorks (history.map (·.workAt ⟨fn.type, id⟩))) := by
  have start := init_quiet fresh
  obtain ⟨t, ran, quiet, cnt, works⟩ := start.serial fits
  have grown := run_perform_extends start.chained ran
  have reader := quiet.begin level
  obtain ⟨r, found, fetched, search, list⟩ :=
    reader.fetch (by rw [begin_session_self]) (grown.blank (blank_of_allocated allocated)) entity
  have last : history.length + 1 = t.cnt := by rw [cnt, Nat.add_comm]; rfl
  refine ⟨t.begin level, r, found, run_append.mpr ⟨t, ran, rfl⟩, by rw [last, fetched], search, ?_⟩
  have same : (t.begin level).works t.started ⟨fn.type, id⟩ = t.works t.started ⟨fn.type, id⟩ :=
    works_congr (fun X member => begin_session_of_ne (quiet.chained.started_lt member).ne level) _
  have value : ((t.begin level).kv.entryAt ⟨fn.type, id⟩).value =
    (kv.entryAt ⟨fn.type, id⟩).value := grown.value _
  have all : t.works t.started ⟨fn.type, id⟩ = history.map (·.workAt ⟨fn.type, id⟩) := works _
  rw [list, value, show (t.begin level).started = t.started from rfl, same, all]

/-- The list a transaction reads after any serial history of committed transactions has every pair
as its last operation left it exactly under the condition `ReadsBack`. -/
theorem serial_history_reads_back_iff {kv : KVstore} (fresh : kv.Unversioned)
    (allocated : kv.Allocated) {fn : ReadFn}
    {id : Nat} (entity : fn.type = .subject → isEntityEle id) {S : VData → Prop}
    (whole : Lists fn.type (kv.entryAt ⟨fn.type, id⟩).value S) {history : List Script}
    (fits : ∀ script ∈ history, ∀ u ∈ script.changes, u.Fits) (level : IsolationLevel) :
    ∃ s r found, run Sys.perform (Sys.init kv) (serialCalls 1 history ++ [.begin level]) = some s ∧
      s.kv.fetch fn id (s.session (history.length + 1)).txn = some r ∧ r.found = some found ∧
      ((∃ list, found.list fn.type = some list ∧
          ∀ q, q ∈ pairsIn fn.type list ↔ LastDecides (S q) (programWord history ⟨fn.type, id⟩ q)) ↔
        ReadsBack history ⟨fn.type, id⟩ (kv.entryAt ⟨fn.type, id⟩).value) := by
  obtain ⟨s, r, found, ran, fetched, search, list⟩ :=
    serial_history_read fresh allocated entity fits level
  refine ⟨s, r, found, ran, fetched, search, ?_⟩
  rw [list]
  generalize keyed : (⟨fn.type, id⟩ : Key) = key at *
  generalize merged : mergeWorks (history.map (·.workAt key)) = sets
  have type : fn.type = key.type := by rw [← keyed]
  rw [type] at whole ⊢
  have sound : SetsSound sets := merged ▸ (mergeWorks_spec _ (toLex (0, 0))).1
  have state : ∀ q, pending sets q = toggles (mergedWord history key q) :=
    fun q => merged ▸ pending_history history key q
  have added : ∀ q, q ∈ sets.1 ↔ toggles (mergedWord history key q) = some true :=
    fun q => by rw [← state q, pending_add]
  have deleted : ∀ q, q ∈ sets.2 ↔ toggles (mergedWord history key q) = some false := fun q => by
    rw [← state q, pending_del sound]
  have base := mem_pairsIn whole
  by_cases undefined : Undefined key.type (kv.entryAt key).value sets
  · -- the length nobody has set: there is no list, and the condition on lengths fails
    rw [mergeSets_undefined undefined]
    obtain ⟨kind, none, adds, dels⟩ := undefined
    refine iff_of_false (by simp) fun back => ?_
    obtain ⟨q, left⟩ := exists_mem_of_ne_nil _ dels
    obtain ⟨p, kept⟩ := back.lengthSet kind none ⟨q, toggles_leaves.mp ((deleted q).mp left)⟩
    have member := (added p).mpr (toggles_leaves.mpr kept)
    rw [adds] at member
    cases member
  · obtain ⟨v, read, shown⟩ := mergeSets_lists whole sound undefined
    rw [read]
    have pairwise : (∀ q, q ∈ pairsIn key.type v ↔ LastDecides (S q) (programWord history key q)) ↔
        ∀ q, PairReadsBack (q ∈ pairsIn key.type (kv.entryAt key).value) (programWord history key q)
          (mergedWord history key q) := by
      refine forall_congr' fun q => ?_
      rw [mem_pairsIn shown q, added q, deleted q, propext (base q)]
      exact pairReadsBack_iff (mergedWord_getLast history key q)
    constructor
    · rintro ⟨list, same, holds⟩
      cases same
      refine ⟨pairwise.mp holds, fun kind none ⟨q, left⟩ => ?_⟩
      by_contra nothing
      refine undefined ⟨kind, none, eq_nil_iff_forall_not_mem.mpr fun p member => ?_, ?_⟩
      · exact nothing ⟨p, toggles_leaves.mp ((added p).mp member)⟩
      · exact ne_nil_of_mem ((deleted q).mpr (toggles_leaves.mpr left))
    · intro back
      exact ⟨v, rfl, pairwise.mpr back.pairs⟩

/-- The insertion of an absent triple is read back. -/
theorem one_insertion_reads_back :
    ∃ s r found, run Sys.perform (Sys.init KVstore.empty)
        (serialCalls 1 [⟨.serializable, [⟨true, ⟨0, 0, 1⟩⟩]⟩] ++ [.begin .snapshot]) = some s ∧
      s.kv.fetch .getpreIDlistBysubID 0 (s.session 2).txn = some r ∧ r.found = some found ∧
      ∃ list, found.list .subject = some list ∧ ∀ q, q ∈ pairsIn .subject list ↔
        LastDecides False (programWord [⟨.serializable, [⟨true, ⟨0, 0, 1⟩⟩]⟩] ⟨.subject, 0⟩ q) := by
  have base : Lists .subject (KVstore.empty.entryAt ⟨.subject, 0⟩).value fun _ => False :=
    ⟨[], grouped_nil, rfl, by simp⟩
  obtain ⟨s, r, found, ran, fetched, search, back⟩ :=
    @serial_history_reads_back_iff KVstore.empty empty_unversioned
    empty_allocated_store .getpreIDlistBysubID 0
    (fun _ => by decide) _ base [⟨.serializable, [⟨true, ⟨0, 0, 1⟩⟩]⟩]
    (by simp [Change.Fits, Triple.writeKeys, Triple.key, Key.Fits, locate]; decide) .snapshot
  refine ⟨s, r, found, ran, fetched, search, back.mpr ⟨fun q => ?_, ?_⟩⟩
  · obtain rfl | same := eq_or_ne (toLex (0, 1)) q
    · exact .inl ⟨by decide, rfl⟩
    · simp [programWord, touches, Change.pairAt, ReadFn.type, Triple.key, Triple.pair, same,
          PairReadsBack]
  · rintro - - ⟨q, -, deleted⟩
    obtain rfl | same := eq_or_ne (toLex (0, 1)) q
    · cases deleted
    · simp [mergedWord, insertionsFirst, touches, Change.pairAt, ReadFn.type, Triple.key,
          Triple.pair, same] at deleted

/-- The deletion of an absent triple swallows its insertion by the next transaction: the list stays
empty. -/
theorem deletion_swallows_insertion :
    (∃ s r found, run Sys.perform (Sys.init KVstore.empty)
        (serialCalls 1 [⟨.snapshot, [⟨false, ⟨0, 0, 1⟩⟩]⟩, ⟨.snapshot, [⟨true, ⟨0, 0, 1⟩⟩]⟩] ++
          [.begin .snapshot]) = some s ∧
      s.kv.fetch .getpreIDlistBysubID 0 (s.session 3).txn = some r ∧ r.found = some found ∧
      found.list .subject = some none) ∧
    LastDecides False
      (programWord [⟨.snapshot, [⟨false, ⟨0, 0, 1⟩⟩]⟩, ⟨.snapshot, [⟨true, ⟨0, 0, 1⟩⟩]⟩]
        ⟨.subject, 0⟩ (toLex (0, 1))) := by
  refine ⟨?_, rfl⟩
  have read : (run Sys.perform (Sys.init KVstore.empty)
      (serialCalls 1 [⟨.snapshot, [⟨false, ⟨0, 0, 1⟩⟩]⟩, ⟨.snapshot, [⟨true, ⟨0, 0, 1⟩⟩]⟩] ++
        [.begin .snapshot])).bind
      (fun s => (s.kv.fetch .getpreIDlistBysubID 0 (s.session 3).txn).bind fun r =>
        r.found.map fun found => found.list .subject) =
      some (some none) := by decide +kernel
  obtain ⟨s, ran, read⟩ := Option.bind_eq_some_iff.mp read
  obtain ⟨r, fetched, read⟩ := Option.bind_eq_some_iff.mp read
  obtain ⟨found, search, list⟩ := Option.map_eq_some_iff.mp read
  exact ⟨s, r, found, ran, fetched, search, list⟩

end GStore
