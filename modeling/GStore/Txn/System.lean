import GStore.KVstore.Mvcc

/-! Transactions side by side: `Txn_manager` over one `KVstore`, at the granularity of calls on one
index entry. Every call of a transaction is taken apart into the entry calls it makes, so that a
list of actions is an interleaving of the code's own steps. A step `none` is a failed `assert`; an
action that the code refuses (a transaction that is not there, not running, or busy) changes
nothing. -/
namespace GStore
open Lib

structure Change where
  insertion : Bool
  triple : Triple
  deriving DecidableEq, Repr

/-- Where a transaction stands between two entry calls. `mine` are the keys latched by the call in
progress, `failed` the keys whose release returned false. -/
inductive Phase where
  | idle
  | locking (u : Change) (next mine : List Key)
  | undoing (keys : List Key)
  | writing (u : Change) (next mine : List Key)
  | dropping (keys : List Key)
  | closing (publish : Bool) (shared exclusive failed : List Key)
  | ended
  deriving DecidableEq

structure ReadEvent where
  key : Key
  own : List VData × List VData
  found : SearchResult
  deriving DecidableEq

/-- The last three fields record the past: the completed updates, the searches, and the transactions
that had started to commit when this one began. -/
structure Session where
  txn : Transaction
  phase : Phase
  done : List Change
  reads : List ReadEvent
  before : List Nat

structure Sys where
  kv : KVstore
  cnt : Nat
  session : Nat → Session
  started : List Nat

def Session.unborn : Session := ⟨⟨⊤, ⊤, .snapshot, .waiting, [], []⟩, .ended, [], [], []⟩

def Sys.init (kv : KVstore) : Sys := ⟨kv, 1, fun _ => Session.unborn, []⟩

variable (s : Sys) (tid : Nat)

def Sys.put (kv : KVstore) (x : Session) : Sys :=
  { s with kv := kv, session := Function.update s.session tid x }

section

variable (kv : KVstore) (x : Session)
include kv x

@[simp] theorem put_kv : (s.put tid kv x).kv = kv := rfl
@[simp] theorem put_cnt : (s.put tid kv x).cnt = s.cnt := rfl
@[simp] theorem put_started : (s.put tid kv x).started = s.started := rfl
@[simp] theorem put_session : (s.put tid kv x).session = Function.update s.session tid x := rfl

end

def Transaction.abort (txn : Transaction) : Transaction := { txn with state := .aborted }

def Change.pairAt (u : Change) (key : Key) : Option VData :=
  if u.triple.key key.type = key then some (u.triple.pair key.type) else none

def additions (us : List Change) (key : Key) : List VData :=
  us.filterMap fun u => if u.insertion then u.pairAt key else none

def deletions (us : List Change) (key : Key) : List VData :=
  us.filterMap fun u => if u.insertion then none else u.pairAt key

variable (x : Session)

def Session.updates (key : Key) : List Change :=
  match x.phase with
  | .writing u next _ => if key ∈ next then x.done else x.done ++ [u]
  | _ => x.done

def Session.work (key : Key) : List VData × List VData :=
  (additions (x.updates key) key, deletions (x.updates key) key)

def Sys.begin (isolation : IsolationLevel) : Sys :=
  { s with
    cnt := s.cnt + 1
    session := Function.update s.session s.cnt
      ⟨⟨(s.cnt : Nat), (s.cnt : Nat), isolation, .running, [], []⟩, .idle, [], [], s.started⟩ }

theorem begin_session_self (isolation : IsolationLevel) : (s.begin isolation).session s.cnt =
    ⟨⟨(s.cnt : Nat), (s.cnt : Nat), isolation, .running, [], []⟩, .idle, [], [], s.started⟩ := by
  simp [Sys.begin]

theorem begin_session_of_ne {s : Sys} {X : Nat} (old : X ≠ s.cnt) (isolation : IsolationLevel) :
    (s.begin isolation).session X = s.session X := by
  simp [Sys.begin, Function.update_of_ne old]

def Sys.read (fn : ReadFn) (id : Nat) : Option Sys :=
  let x := s.session tid
  (s.kv.fetch fn id x.txn).map fun r =>
    s.put tid r.kv { x with
      txn := r.txn
      reads := x.reads ++ r.found.toList.map fun found =>
        ⟨⟨fn.type, id⟩, x.work ⟨fn.type, id⟩, found⟩ }

def Sys.update (u : Change) : Sys :=
  s.put tid s.kv { s.session tid with phase := .locking u u.triple.lockKeys [] }

variable (publish : Bool)

def Session.close : Session :=
  { x with phase := .closing publish x.txn.sharedKeys x.txn.exclusiveKeys [] }

def Sys.startCommit : Sys :=
  let x := s.session tid
  if x.txn.state = .running then
    { s.put tid s.kv (Session.close { x with txn := { x.txn with commitID := (s.cnt : Nat) } } true) with
      started := s.started ++ [tid] }
  else s

def Sys.startAbort : Sys := s.put tid s.kv ((s.session tid).close false)

/-- The next latch of `try_exclusive_lock`; a refusal undoes the latches of the call. -/
def Sys.lockNext (u : Change) (key : Key) (next mine : List Key) : Option Sys :=
  let x := s.session tid
  if x.txn.writeSetFind key then some (s.put tid s.kv { x with phase := .locking u next mine })
  else (s.kv.getExclusiveLatch key x.txn (x.txn.readSetFind key)).map fun (done, kv) =>
    if done then s.put tid kv { x with phase := .locking u next (mine ++ [key]) }
    else s.put tid kv { x with phase := .undoing mine, txn := x.txn.abort }

def Sys.undoNext (key : Key) (keys : List Key) : Option Sys :=
  let x := s.session tid
  (s.kv.invalidValues key x.txn (x.txn.readSetFind key)).bind fun (done, kv) =>
    if done then some (s.put tid kv { x with phase := .undoing keys }) else none

/-- A write that fails ends in `ReleaseExclusiveLock`. -/
def Sys.writeNext (u : Change) (key : Key) (next mine : List Key) : Option Sys :=
  let x := s.session tid
  (s.kv.updateValues u.insertion u.triple key).map fun (done, kv) =>
    if done then s.put tid kv { x with phase := .writing u next mine }
    else s.put tid kv { x with phase := .dropping u.triple.writeKeys, txn := x.txn.abort }

def Sys.dropNext (key : Key) (keys : List Key) : Option Sys :=
  let x := s.session tid
  if x.txn.writeSetFind key then some (s.put tid s.kv { x with phase := .dropping keys })
  else (s.kv.invalidValues key x.txn (x.txn.readSetFind key)).map fun (_, kv) =>
    s.put tid kv { x with phase := .dropping keys }

def Session.enter (u : Change) : Session :=
  { x with
    txn := x.txn.writeSetInsert u.triple.sub u.triple.pre u.triple.obj
    done := x.done ++ [u]
    phase := .idle }

def Sys.releaseSharedNext (key : Key) (shared exclusive failed : List Key) :
    Option Sys :=
  let x := s.session tid
  (s.kv.releaseSharedLatch key x.txn).map fun (done, kv) =>
    s.put tid kv { x with phase := .closing publish shared exclusive (if done then failed else failed ++ [key]) }

/-- `UnLatch` publishes the last version of a key, `InvalidExlusiveLatch` removes it. -/
def Sys.releaseExclusiveNext (key : Key) (exclusive failed : List Key) :
    Option Sys :=
  let x := s.session tid
  (if publish then s.kv.releaseExclusiveLatch key x.txn else s.kv.invalidValues key x.txn false).map
      fun (done, kv) =>
    s.put tid kv { x with phase := .closing publish [] exclusive (if done then failed else failed ++ [key]) }

def Sys.finish (failed : List Key) : Option Sys :=
  let x := s.session tid
  if failed = [] then
    some (s.put tid s.kv { x with
      phase := .ended
      txn := { x.txn with state := if publish then .committed else .aborted } })
  else none

def Sys.advance : Option Sys :=
  let x := s.session tid
  match x.phase with
  | .idle => some s
  | .locking u [] mine =>
    some (s.put tid s.kv { x with phase := .writing u u.triple.writeKeys mine })
  | .locking u (key :: next) mine => s.lockNext tid u key next mine
  | .undoing [] => some (s.put tid s.kv { x with phase := .idle })
  | .undoing (key :: keys) => s.undoNext tid key keys
  | .writing u [] _ => some (s.put tid s.kv (x.enter u))
  | .writing u (key :: next) mine => s.writeNext tid u key next mine
  | .dropping [] => some (s.put tid s.kv { x with phase := .idle })
  | .dropping (key :: keys) => s.dropNext tid key keys
  | .closing publish (key :: shared) exclusive failed =>
    s.releaseSharedNext tid publish key shared exclusive failed
  | .closing publish [] (key :: exclusive) failed =>
    s.releaseExclusiveNext tid publish key exclusive failed
  | .closing publish [] [] failed => s.finish tid publish failed
  | .ended => some s

inductive Act where
  | begin (isolation : IsolationLevel)
  | read (tid : Nat) (fn : ReadFn) (id : Nat)
  | update (tid : Nat) (u : Change)
  | startCommit (tid : Nat)
  | startAbort (tid : Nat)
  | advance (tid : Nat)
  deriving DecidableEq, Repr

def Sys.step : Act → Option Sys
  | .begin isolation => some (s.begin isolation)
  | .read tid fn id => if (s.session tid).phase = .idle then s.read tid fn id else some s
  | .update tid u => if (s.session tid).phase = .idle then some (s.update tid u) else some s
  | .startCommit tid => if (s.session tid).phase = .idle then some (s.startCommit tid) else some s
  | .startAbort tid => if (s.session tid).phase = .idle then some (s.startAbort tid) else some s
  | .advance tid => s.advance tid

inductive Sys.Moves (s : Sys) : Act → Sys → Prop where
  | stay (a : Act) (idler : ∀ isolation, a ≠ .begin isolation) : s.Moves a s
  | begin (isolation : IsolationLevel) : s.Moves (.begin isolation) (s.begin isolation)
  | read (tid : Nat) (fn : ReadFn) (id : Nat) (r : Fetched) (at_phase : (s.session tid).phase = .idle)
      (call : s.kv.fetch fn id (s.session tid).txn = some r) :
      s.Moves (.read tid fn id) (s.put tid r.kv { s.session tid with
        txn := r.txn
        reads := (s.session tid).reads ++
          r.found.toList.map fun found =>
            ⟨⟨fn.type, id⟩, (s.session tid).work ⟨fn.type, id⟩, found⟩ })
  | update (tid : Nat) (u : Change) (at_phase : (s.session tid).phase = .idle) :
      s.Moves (.update tid u) (s.put tid s.kv
          { s.session tid with phase := .locking u u.triple.lockKeys [] })
  | startCommit (tid : Nat) (at_phase : (s.session tid).phase = .idle)
      (running : (s.session tid).txn.state = .running) :
        s.Moves (.startCommit tid) (s.startCommit tid)
  | startAbort (tid : Nat) (at_phase : (s.session tid).phase = .idle) :
      s.Moves (.startAbort tid) (s.put tid s.kv ((s.session tid).close false))
  | latchedBefore (tid : Nat) (u : Change) (key : Key) (next mine : List Key)
      (at_phase : (s.session tid).phase = .locking u (key :: next) mine)
      (written : key ∈ (s.session tid).txn.writeSet) :
      s.Moves (.advance tid) (s.put tid s.kv { s.session tid with phase := .locking u next mine })
  | latch (tid : Nat) (u : Change) (key : Key) (next mine : List Key) (e : IVEntry)
      (at_phase : (s.session tid).phase = .locking u (key :: next) mine)
      (unwritten : key ∉ (s.session tid).txn.writeSet)
      (call : (s.kv.entryAt key).getExclusiveLatch (s.session tid).txn
        ((s.session tid).txn.readSetFind key) = some (true, e)) :
      s.Moves (.advance tid) (s.put tid ((s.kv.reserve key).setEntryAt key e)
        { s.session tid with phase := .locking u next (mine ++ [key]) })
  | refuse (tid : Nat) (u : Change) (key : Key) (next mine : List Key) (kv : KVstore)
      (at_phase : (s.session tid).phase = .locking u (key :: next) mine)
      (unwritten : key ∉ (s.session tid).txn.writeSet)
      (call : s.kv.getExclusiveLatch key (s.session tid).txn ((s.session tid).txn.readSetFind key) =
          some (false, kv)) :
      s.Moves (.advance tid) (s.put tid kv
        { s.session tid with phase := .undoing mine, txn := (s.session tid).txn.abort })
  | allLatched (tid : Nat) (u : Change) (mine : List Key)
      (at_phase : (s.session tid).phase = .locking u [] mine) :
      s.Moves (.advance tid) (s.put tid s.kv
          { s.session tid with phase := .writing u u.triple.writeKeys mine })
  | undo (tid : Nat) (key : Key) (keys : List Key) (kv : KVstore)
      (at_phase : (s.session tid).phase = .undoing (key :: keys))
      (call : s.kv.invalidValues key (s.session tid).txn ((s.session tid).txn.readSetFind key) =
          some (true, kv)) :
      s.Moves (.advance tid) (s.put tid kv { s.session tid with phase := .undoing keys })
  | undone (tid : Nat) (at_phase : (s.session tid).phase = .undoing []) :
      s.Moves (.advance tid) (s.put tid s.kv { s.session tid with phase := .idle })
  | write (tid : Nat) (u : Change) (key : Key) (next mine : List Key) (kv : KVstore)
      (at_phase : (s.session tid).phase = .writing u (key :: next) mine)
      (call : s.kv.updateValues u.insertion u.triple key = some (true, kv)) :
      s.Moves (.advance tid) (s.put tid kv { s.session tid with phase := .writing u next mine })
  | writeFail (tid : Nat) (u : Change) (key : Key) (next mine : List Key) (kv : KVstore)
      (at_phase : (s.session tid).phase = .writing u (key :: next) mine)
      (call : s.kv.updateValues u.insertion u.triple key = some (false, kv)) :
      s.Moves (.advance tid) (s.put tid kv
        { s.session tid with phase := .dropping u.triple.writeKeys, txn := (s.session tid).txn.abort })
  | written (tid : Nat) (u : Change) (mine : List Key) (at_phase : (s.session tid).phase = .writing u [] mine) :
      s.Moves (.advance tid) (s.put tid s.kv ((s.session tid).enter u))
  | drop (tid : Nat) (keys : List Key) (t : Sys) (at_phase : (s.session tid).phase = .dropping keys) :
      s.Moves (.advance tid) t
  | releaseShared (tid : Nat) (publish : Bool) (key : Key) (shared exclusive failed : List Key) (done : Bool)
      (kv : KVstore) (at_phase : (s.session tid).phase =
          .closing publish (key :: shared) exclusive failed)
      (call : s.kv.releaseSharedLatch key (s.session tid).txn = some (done, kv)) :
      s.Moves (.advance tid) (s.put tid kv { s.session tid with
        phase := .closing publish shared exclusive (if done then failed else failed ++ [key]) })
  | publish (tid : Nat) (key : Key) (exclusive failed : List Key) (done : Bool) (kv : KVstore)
      (at_phase : (s.session tid).phase = .closing true [] (key :: exclusive) failed)
      (call : s.kv.releaseExclusiveLatch key (s.session tid).txn = some (done, kv)) :
      s.Moves (.advance tid) (s.put tid kv { s.session tid with
        phase := .closing true [] exclusive (if done then failed else failed ++ [key]) })
  | invalidate (tid : Nat) (key : Key) (exclusive failed : List Key) (done : Bool) (kv : KVstore)
      (at_phase : (s.session tid).phase = .closing false [] (key :: exclusive) failed)
      (call : s.kv.invalidValues key (s.session tid).txn false = some (done, kv)) :
      s.Moves (.advance tid) (s.put tid kv { s.session tid with
        phase := .closing false [] exclusive (if done then failed else failed ++ [key]) })
  | finish (tid : Nat) (publish : Bool) (at_phase : (s.session tid).phase = .closing publish [] [] []) :
      s.Moves (.advance tid) (s.put tid s.kv { s.session tid with
        phase := .ended
        txn := { (s.session tid).txn with state := if publish then .committed else .aborted } })

theorem lockNext_moves {s t : Sys} {tid : Nat} {u : Change} {key : Key} {next mine : List Key}
    (at_phase : (s.session tid).phase = .locking u (key :: next) mine)
    (taken : s.lockNext tid u key next mine = some t) : s.Moves (.advance tid) t := by
  unfold Sys.lockNext at taken
  by_cases written : key ∈ (s.session tid).txn.writeSet
  · rw [if_pos (by simpa [Transaction.writeSetFind] using written)] at taken
    exact Option.some.inj taken ▸ .latchedBefore tid u key next mine at_phase written
  · rw [if_neg (by simpa [Transaction.writeSetFind] using written)] at taken
    obtain ⟨⟨done, kv⟩, call, rfl⟩ := Option.map_eq_some_iff.mp taken
    cases done with
    | false => exact .refuse tid u key next mine kv at_phase written call
    | true =>
      rw [getExclusiveLatch_eq] at call
      split at call
      · cases call
      · obtain ⟨⟨done, e⟩, entry, same⟩ := Option.map_eq_some_iff.mp call
        cases same
        exact .latch tid u key next mine e at_phase written entry

theorem advance_moves {s t : Sys} {tid : Nat} (taken : s.advance tid = some t) :
    s.Moves (.advance tid) t := by
  simp only [Sys.advance] at taken
  cases at_phase : (s.session tid).phase with
  | idle =>
    rw [at_phase] at taken
    exact Option.some.inj taken ▸ .stay _ (by simp)
  | ended =>
    rw [at_phase] at taken
    exact Option.some.inj taken ▸ .stay _ (by simp)
  | dropping keys => exact .drop tid keys t at_phase
  | locking u next mine =>
    rw [at_phase] at taken
    cases next with
    | nil => exact Option.some.inj taken ▸ .allLatched tid u mine at_phase
    | cons key next => exact lockNext_moves at_phase taken
  | undoing keys =>
    rw [at_phase] at taken
    cases keys with
    | nil => exact Option.some.inj taken ▸ .undone tid at_phase
    | cons key keys =>
      obtain ⟨⟨done, kv⟩, call, taken⟩ := Option.bind_eq_some_iff.mp taken
      cases done with
      | false => cases taken
      | true => exact Option.some.inj taken ▸ .undo tid key keys kv at_phase call
  | writing u next mine =>
    rw [at_phase] at taken
    cases next with
    | nil => exact Option.some.inj taken ▸ .written tid u mine at_phase
    | cons key next =>
      obtain ⟨⟨done, kv⟩, call, rfl⟩ := Option.map_eq_some_iff.mp taken
      cases done with
      | false => exact .writeFail tid u key next mine kv at_phase call
      | true => exact .write tid u key next mine kv at_phase call
  | closing publish shared exclusive failed =>
    rw [at_phase] at taken
    cases shared with
    | cons key shared =>
      obtain ⟨⟨done, kv⟩, call, rfl⟩ := Option.map_eq_some_iff.mp taken
      exact .releaseShared tid publish key shared exclusive failed done kv at_phase call
    | nil =>
      cases exclusive with
      | cons key exclusive =>
        obtain ⟨⟨done, kv⟩, call, rfl⟩ := Option.map_eq_some_iff.mp taken
        cases publish with
        | true => exact .publish tid key exclusive failed done kv at_phase call
        | false => exact .invalidate tid key exclusive failed done kv at_phase call
      | nil =>
        simp only [Sys.finish] at taken
        split at taken
        · rename_i clean
          subst clean
          exact Option.some.inj taken ▸ .finish tid publish at_phase
        · cases taken

theorem step_moves {s t : Sys} {a : Act} (taken : s.step a = some t) : s.Moves a t := by
  cases a with
  | begin isolation => exact Option.some.inj taken ▸ .begin isolation
  | advance tid => exact advance_moves taken
  | read tid fn id =>
    simp only [Sys.step] at taken
    split_ifs at taken with at_phase
    · obtain ⟨r, call, rfl⟩ := Option.map_eq_some_iff.mp taken
      exact .read tid fn id r at_phase call
    · exact Option.some.inj taken ▸ .stay _ (by simp)
  | update tid u =>
    simp only [Sys.step] at taken
    split_ifs at taken with at_phase
    · exact Option.some.inj taken ▸ .update tid u at_phase
    · exact Option.some.inj taken ▸ .stay _ (by simp)
  | startCommit tid =>
    simp only [Sys.step] at taken
    split_ifs at taken with at_phase
    · by_cases running : (s.session tid).txn.state = .running
      · exact Option.some.inj taken ▸ .startCommit tid at_phase running
      · rw [Sys.startCommit, if_neg running] at taken
        exact Option.some.inj taken ▸ .stay _ (by simp)
    · exact Option.some.inj taken ▸ .stay _ (by simp)
  | startAbort tid =>
    simp only [Sys.step] at taken
    split_ifs at taken with at_phase
    · exact Option.some.inj taken ▸ .startAbort tid at_phase
    · exact Option.some.inj taken ▸ .stay _ (by simp)

end GStore
