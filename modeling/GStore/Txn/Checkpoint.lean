import GStore.Lib.Run
import GStore.Util.Transaction

/-! `checkpoint_lock` of `Txn_manager`: `Begin` takes it shared, the end of the transaction releases
it, and `Checkpoint` cleans the versions while it has the lock alone. A call is a sequence of steps,
one for each lock operation and each change of state; the steps of calls on different transactions
interleave. -/
namespace GStore
open Lib List

/-- `Latch`, a `pthread_rwlock_t`. -/
structure RWLatch where
  shared : Nat
  exclusive : Bool
  deriving DecidableEq

/-- `none` makes the caller wait. -/
def RWLatch.lockShared (l : RWLatch) : Option RWLatch :=
  if l.exclusive then none else some { l with shared := l.shared + 1 }

/-- `none` makes the caller wait. -/
def RWLatch.lockExclusive (l : RWLatch) : Option RWLatch :=
  if l.exclusive ∨ l.shared ≠ 0 then none else some { l with exclusive := true }

def RWLatch.unlock (l : RWLatch) : Option RWLatch :=
  if l.exclusive then some { l with exclusive := false }
  else if l.shared = 0 then none
  else some { l with shared := l.shared - 1 }

inductive CallPhase where
  | beginLocked
  | beginWrapped
  | beginArranged (tid : Nat)
  | beginAdded
  | gaveUp
  | idle
  | querying
  | queried
  | committing
  | commitSet
  | commitUnlocked
  | commitCounted
  | checkpointing
  | cleaning
  | aborting
  | abortSet
  deriving DecidableEq

/-- A transaction since its `Begin` got the lock; `releases` counts the `unlock`s on its behalf. -/
structure TxnRecord where
  state : TransactionState
  phase : CallPhase
  releases : Nat
  deriving DecidableEq

/-- `txns` has the transactions in the order of their `Begin`s, `txnTable` their positions by TID.
`checkpointer` is a `Checkpoint` that no `Commit` has called; `fault` is an undefined `unlock`. -/
structure TxnManager where
  checkpointLock : RWLatch
  cnt : Nat
  txns : List TxnRecord
  txnTable : Nat → Option Nat
  committedNum : Nat
  checkpointer : Bool
  fault : Bool

def TxnManager.init : TxnManager := ⟨⟨0, false⟩, 1, [], fun _ => none, 0, false, false⟩

/-- `INVALID_ID`. -/
def invalidTID : Nat := 2 ^ 64 - 1

variable (m : TxnManager)

def TxnManager.put (k : Nat) (r : TxnRecord) : TxnManager := { m with txns := m.txns.set k r }

def TxnManager.unlock : TxnManager :=
  match m.checkpointLock.unlock with
  | none => { m with fault := true }
  | some l => { m with checkpointLock := l }

def TxnManager.release (k : Nat) (r : TxnRecord) (phase : CallPhase) : TxnManager :=
  m.unlock.put k { r with phase := phase, releases := r.releases + 1 }

def TxnManager.addTransaction (tid k : Nat) : TxnManager :=
  if (m.txnTable tid).isSome then m else
    { m with txnTable := Function.update m.txnTable tid (some k) }

def TxnManager.advance (k : Nat) (r : TxnRecord) : Option TxnManager :=
  match r.phase with
  | .beginLocked =>
    let tid := m.cnt % 2 ^ 64
    let m := { m with cnt := m.cnt + 1 }
    some (m.put k { r with phase := if tid =
      invalidTID then .beginWrapped else .beginArranged tid })
  | .beginWrapped => some (m.release k r .gaveUp)
  | .beginArranged tid => some ((m.addTransaction tid k).put k { r with phase := .beginAdded })
  | .beginAdded => some (m.put k { r with state := .running, phase := .idle })
  | .querying => some (m.put k { r with phase := .queried })
  | .queried => some (m.put k { r with phase := if r.state = .aborted then .aborting else .idle })
  | .committing => some (m.put k { r with state := .committed, phase := .commitSet })
  | .commitSet => some (m.release k r .commitUnlocked)
  | .commitUnlocked =>
    some ({ m with committedNum := m.committedNum + 1 }.put k { r with phase := .commitCounted })
  | .commitCounted =>
    if m.committedNum = 50000 then some
      ({ m with committedNum := 0 }.put k { r with phase := .checkpointing })
    else some (m.put k { r with phase := .idle })
  | .checkpointing =>
    m.checkpointLock.lockExclusive.map fun l => { m with checkpointLock := l }.put k
    { r with phase := .cleaning }
  | .cleaning => some (m.unlock.put k { r with phase := .idle })
  | .aborting => some (m.put k { r with state := .aborted, phase := .abortSet })
  | .abortSet => some (m.release k r .idle)
  | .idle => none
  | .gaveUp => none

/-- `query`, `commit` and `rollback` start a call on the transaction with a TID; `abortTurn` is one
turn of the loop of `abort_all_running`. `mark` is an abort inside `Database::query`, and `throw` an
exception that leaves it, which no caller up to the end of `Query` catches; `checkpoint` and
`checkpointEnd` are the two lock operations of a `Checkpoint` around `VersionClean`. -/
inductive TxnCall where
  | begin
  | query (tid : Nat)
  | commit (tid : Nat)
  | rollback (tid : Nat)
  | abortTurn (tid : Nat)
  | advance (k : Nat)
  | mark (k : Nat)
  | throw (k : Nat)
  | checkpoint
  | checkpointEnd
  deriving DecidableEq

/-- A call on a TID waits for the call before it on the same transaction. It returns at once for an
unknown TID, and for a transaction that is not running. -/
def TxnManager.start (tid : Nat) (phase : CallPhase) : Option TxnManager :=
  match m.txnTable tid with
  | none => some m
  | some k =>
    match m.txns[k]? with
    | none => some m
    | some r =>
      if r.phase ≠ .idle then none
      else if r.state ≠ .running then some m
      else some (m.put k { r with phase := phase })

def TxnManager.step : TxnCall → Option TxnManager
  | .begin => m.checkpointLock.lockShared.map fun l =>
      { m with checkpointLock := l, txns := m.txns ++ [⟨.waiting, .beginLocked, 0⟩] }
  | .query tid => m.start tid .querying
  | .commit tid => m.start tid .committing
  | .rollback tid => m.start tid .aborting
  | .abortTurn tid => m.start tid .aborting
  | .advance k => m.txns[k]?.bind (m.advance k)
  | .mark k => m.txns[k]?.bind fun r =>
      if r.phase = .querying then some (m.put k { r with state := .aborted }) else none
  | .throw k =>
    m.txns[k]?.bind fun r => if r.phase = .querying then some
    (m.put k { r with phase := .idle }) else none
  | .checkpoint =>
    m.checkpointLock.lockExclusive.map fun l => { m with checkpointLock := l, checkpointer := true }
  | .checkpointEnd => if m.checkpointer then some { m.unlock with checkpointer := false } else none

def TxnRecord.Expected (r : TxnRecord) : Prop :=
  match r.phase with
  | .beginLocked | .beginWrapped | .beginArranged _ | .beginAdded =>
    r.state = .waiting ∧ r.releases = 0
  | .gaveUp => r.state = .waiting ∧ r.releases = 1
  | .idle =>
    (r.state = .running ∧ r.releases = 0) ∨
    ((r.state = .committed ∨ r.state = .aborted) ∧ r.releases = 1)
  | .querying | .queried | .aborting => (r.state = .running ∨ r.state = .aborted) ∧ r.releases = 0
  | .committing => r.state = .running ∧ r.releases = 0
  | .commitSet => r.state = .committed ∧ r.releases = 0
  | .commitUnlocked | .commitCounted | .checkpointing | .cleaning =>
    r.state = .committed ∧ r.releases = 1
  | .abortSet => r.state = .aborted ∧ r.releases = 0

def TxnRecord.holds (r : TxnRecord) : Bool := r.releases == 0

def TxnRecord.cleans (r : TxnRecord) : Bool := r.phase == .cleaning

/-- The shared count is the number of transactions that have not released the lock, and the lock is
exclusive exactly while one checkpoint cleans. -/
structure TxnManager.Accounted (m : TxnManager) : Prop where
  sound : m.fault = false
  expected : ∀ r ∈ m.txns, r.Expected
  shared : m.checkpointLock.shared = m.txns.countP TxnRecord.holds
  cleaner : m.txns.countP TxnRecord.cleans + m.checkpointer.toNat = m.checkpointLock.exclusive.toNat
  alone : m.checkpointLock.exclusive = true → m.checkpointLock.shared = 0

theorem init_accounted : TxnManager.init.Accounted :=
  ⟨rfl, fun r there => (nomatch there), rfl, rfl, fun locked => by cases locked⟩

theorem countP_set_eq {p : TxnRecord → Bool} {l : List TxnRecord} {k : Nat} {r q : TxnRecord}
    (there : l[k]? = some r) :
    (l.set k q).countP p + (p r).toNat = l.countP p + (p q).toNat := by
  obtain ⟨inside, rfl⟩ := List.getElem?_eq_some_iff.mp there
  have positive : p l[k] = true → 0 < l.countP p :=
    fun met => List.countP_pos_iff.mpr ⟨_, List.getElem_mem inside, met⟩
  rw [countP_set inside]
  cases met : p l[k] with
  | false => cases p q <;> simp
  | true =>
    have := positive met
    cases p q <;> simp <;> omega

section Steps
variable {m : TxnManager} (ok : m.Accounted) {k : Nat} {r q : TxnRecord}
include ok

theorem TxnManager.Accounted.expected_set (expected : q.Expected) :
    ∀ x ∈ m.txns.set k q, x.Expected := by
  intro x inside
  rcases mem_or_eq_of_mem_set inside with old | rfl
  · exact ok.expected x old
  · exact expected

theorem TxnManager.Accounted.unlocked_of_holds (member : r ∈ m.txns) (held : r.holds = true) :
    0 < m.checkpointLock.shared ∧ m.checkpointLock.exclusive = false := by
  have positive : 0 < m.checkpointLock.shared := by
    rw [ok.shared]
    exact List.countP_pos_iff.mpr ⟨r, member, held⟩
  refine ⟨positive, ?_⟩
  cases locked : m.checkpointLock.exclusive with
  | false => rfl
  | true => exact absurd (ok.alone locked) positive.ne'

variable (there : m.txns[k]? = some r)
include there

theorem TxnManager.Accounted.put (expected : q.Expected) (held : q.holds = r.holds)
    (cleaned : q.cleans = r.cleans) :
    (m.put k q).Accounted where
  sound := ok.sound
  expected := ok.expected_set expected
  shared := by
    have count := @countP_set_eq TxnRecord.holds m.txns k r q there
    rw [held] at count
    exact ok.shared.trans (Nat.add_right_cancel count).symm
  cleaner := by
    have count := @countP_set_eq TxnRecord.cleans m.txns k r q there
    rw [cleaned] at count
    simp only [TxnManager.put]
    rw [Nat.add_right_cancel count]
    exact ok.cleaner
  alone := ok.alone

theorem TxnManager.Accounted.release {phase : CallPhase} (held : r.holds = true)
    (idle : r.cleans = false)
    (expected : TxnRecord.Expected { r with phase := phase, releases := r.releases + 1 })
    (away : phase ≠ .cleaning) :
    (m.release k r phase).Accounted := by
  obtain ⟨positive, free⟩ := ok.unlocked_of_holds (mem_of_getElem? there) held
  have unlocked : m.unlock =
      { m with checkpointLock :=
        { m.checkpointLock with shared := m.checkpointLock.shared - 1 } } := by
    simp [TxnManager.unlock, RWLatch.unlock, free, Bool.false_eq_true, if_neg positive.ne']
  have gone : TxnRecord.holds { r with phase := phase, releases := r.releases + 1 } = false := rfl
  have none : TxnRecord.cleans { r with phase := phase, releases := r.releases + 1 } = false := by
    simpa [TxnRecord.cleans] using away
  have holders := @countP_set_eq TxnRecord.holds m.txns k r
    { r with phase := phase, releases := r.releases + 1 } there
  have cleaners := @countP_set_eq TxnRecord.cleans m.txns k r
    { r with phase := phase, releases := r.releases + 1 } there
  rw [held, gone, Bool.toNat_true, Bool.toNat_false, ← ok.shared] at holders
  rw [idle, none] at cleaners
  rw [TxnManager.release, unlocked]
  refine ⟨ok.sound, ok.expected_set expected, ?_, ?_, fun locked => ?_⟩
  · simp only [TxnManager.put]
    omega
  · simp only [TxnManager.put]
    rw [Nat.add_right_cancel cleaners]
    exact ok.cleaner
  · exact absurd (free.symm.trans locked) (by decide)

theorem TxnManager.Accounted.clean {l : RWLatch} (taken : m.checkpointLock.lockExclusive = some l)
    (phase : r.phase = .checkpointing) :
    ({ m with checkpointLock := l }.put k { r with phase := .cleaning }).Accounted := by
  unfold RWLatch.lockExclusive at taken
  split at taken
  · cases taken
  rename_i free
  cases taken
  rw [not_or, not_not] at free
  have cleaners := @countP_set_eq TxnRecord.cleans m.txns k r { r with phase := .cleaning } there
  have holders := @countP_set_eq TxnRecord.holds m.txns k r { r with phase := .cleaning } there
  have before : r.cleans = false := by simp [TxnRecord.cleans, phase]
  have after : TxnRecord.cleans { r with phase := .cleaning } = true := rfl
  have same : TxnRecord.holds { r with phase := .cleaning } = r.holds := rfl
  have expected := ok.expected r (mem_of_getElem? there)
  have total := ok.cleaner
  rw [TxnRecord.Expected, phase] at expected
  rw [before, after, Bool.toNat_true, Bool.toNat_false] at cleaners
  rw [same] at holders
  rw [Bool.eq_false_iff.mpr free.1, Bool.toNat_false] at total
  refine ⟨ok.sound, ok.expected_set expected, ok.shared.trans (Nat.add_right_cancel holders).symm,
      ?_, fun _ => free.2⟩
  simp only [TxnManager.put, Bool.toNat_true]
  omega

theorem TxnManager.Accounted.cleaned (phase : r.phase = .cleaning) :
    (m.unlock.put k { r with phase := .idle }).Accounted := by
  have before : r.cleans = true := by simp [TxnRecord.cleans, phase]
  have after : TxnRecord.cleans { r with phase := .idle } = false := rfl
  have same : TxnRecord.holds { r with phase := .idle } = r.holds := rfl
  have expected := ok.expected r (mem_of_getElem? there)
  rw [TxnRecord.Expected, phase] at expected
  have total := ok.cleaner
  have locked : m.checkpointLock.exclusive = true := by
    cases locked : m.checkpointLock.exclusive with
    | true => rfl
    | false =>
      have positive : 0 < m.txns.countP TxnRecord.cleans :=
        List.countP_pos_iff.mpr ⟨r, mem_of_getElem? there, before⟩
      rw [locked, Bool.toNat_false] at total
      omega
  have unlocked : m.unlock =
      { m with checkpointLock := { m.checkpointLock with exclusive := false } } := by
    simp [TxnManager.unlock, RWLatch.unlock, locked]
  have cleaners := @countP_set_eq TxnRecord.cleans m.txns k r { r with phase := .idle } there
  have holders := @countP_set_eq TxnRecord.holds m.txns k r { r with phase := .idle } there
  rw [before, after, Bool.toNat_true, Bool.toNat_false] at cleaners
  rw [same] at holders
  rw [locked, Bool.toNat_true] at total
  rw [unlocked]
  refine ⟨ok.sound, ok.expected_set (.inr ⟨.inl expected.1, expected.2⟩),
      ok.shared.trans (Nat.add_right_cancel holders).symm, ?_,
    fun locked => by cases locked⟩
  simp only [TxnManager.put, Bool.toNat_false]
  omega

theorem advance_accounted {next : TxnManager} (ran : m.advance k r = some next) :
    next.Accounted := by
  have expected := ok.expected r (mem_of_getElem? there)
  unfold TxnManager.advance at ran
  unfold TxnRecord.Expected at expected
  cases phase : r.phase <;> simp only [phase] at ran expected
  case beginLocked =>
    cases ran
    have counted : ({ m with cnt := m.cnt + 1 } : TxnManager).Accounted := { ok with }
    refine counted.put there ?_ rfl ?_
    · split <;> exact expected
    · split <;> simp [TxnRecord.cleans, phase]
  case beginWrapped =>
    cases ran
    exact ok.release there (by simp [TxnRecord.holds, expected.2]) (by simp [TxnRecord.cleans, phase])
      ⟨expected.1, by simp [expected.2]⟩ (by decide)
  case beginArranged tid =>
    cases ran
    have added : (m.addTransaction tid k).Accounted ∧ (m.addTransaction tid k).txns = m.txns := by
      unfold TxnManager.addTransaction
      split
      · exact ⟨ok, rfl⟩
      · exact ⟨{ ok with }, rfl⟩
    have same : (m.addTransaction tid k).txns[k]? = some r := by rw [added.2, there]
    exact added.1.put same expected rfl (by simp [TxnRecord.cleans, phase])
  case beginAdded =>
    cases ran
    exact ok.put there (.inl ⟨rfl, expected.2⟩) rfl (by simp [TxnRecord.cleans, phase])
  case gaveUp => cases ran
  case idle => cases ran
  case querying =>
    cases ran
    exact ok.put there expected rfl (by simp [TxnRecord.cleans, phase])
  case queried =>
    cases ran
    by_cases gone : r.state = .aborted
    · rw [if_pos gone]
      exact ok.put there expected rfl (by simp [TxnRecord.cleans, phase])
    · rw [if_neg gone]
      exact ok.put there (.inl ⟨expected.1.resolve_right gone, expected.2⟩) rfl
        (by simp [TxnRecord.cleans, phase])
  case committing =>
    cases ran
    exact ok.put there ⟨rfl, expected.2⟩ rfl (by simp [TxnRecord.cleans, phase])
  case commitSet =>
    cases ran
    exact ok.release there (by simp [TxnRecord.holds, expected.2]) (by simp [TxnRecord.cleans, phase])
      ⟨expected.1, by simp [expected.2]⟩ (by decide)
  case commitUnlocked =>
    cases ran
    have counted : ({ m with committedNum := m.committedNum + 1 } : TxnManager).Accounted :=
      { ok with }
    exact counted.put there expected rfl (by simp [TxnRecord.cleans, phase])
  case commitCounted =>
    split at ran
    · cases ran
      have reset : ({ m with committedNum := 0 } : TxnManager).Accounted := { ok with }
      exact reset.put there expected rfl (by simp [TxnRecord.cleans, phase])
    · cases ran
      exact ok.put there (.inr ⟨.inl expected.1, expected.2⟩) rfl
        (by simp [TxnRecord.cleans, phase])
  case checkpointing =>
    obtain ⟨l, taken, rfl⟩ := Option.map_eq_some_iff.mp ran
    exact ok.clean there taken phase
  case cleaning =>
    cases ran
    exact ok.cleaned there phase
  case aborting =>
    cases ran
    exact ok.put there ⟨rfl, expected.2⟩ rfl (by simp [TxnRecord.cleans, phase])
  case abortSet =>
    cases ran
    exact ok.release there (by simp [TxnRecord.holds, expected.2]) (by simp [TxnRecord.cleans, phase])
      (.inr ⟨.inr expected.1, by simp [expected.2]⟩) (by decide)

end Steps

theorem start_accounted {m next : TxnManager} (ok : m.Accounted) {tid : Nat} {phase : CallPhase}
    (ran : m.start tid phase = some next) (away : phase ≠ .cleaning)
    (fresh : ∀ r : TxnRecord, r.state = .running → r.releases = 0 →
      TxnRecord.Expected { r with phase := phase }) :
    next.Accounted := by
  unfold TxnManager.start at ran
  split at ran
  · exact Option.some.inj ran ▸ ok
  split at ran
  · exact Option.some.inj ran ▸ ok
  rename_i k _ r there
  split at ran
  · cases ran
  rename_i idle
  rw [not_not] at idle
  split at ran
  · exact Option.some.inj ran ▸ ok
  rename_i running
  rw [not_not] at running
  cases ran
  have expected := ok.expected r (mem_of_getElem? there)
  rw [TxnRecord.Expected, idle] at expected
  have held : r.releases = 0 := by
    rcases expected with ⟨-, zero⟩ | ⟨ended, -⟩
    · exact zero
    · simp [running] at ended
  refine ok.put there (fresh r running held) rfl ?_
  simp [TxnRecord.cleans, idle, away]

/-- No exception leaves a query after its transaction has been marked aborted. -/
def TxnManager.endsAborted : TxnCall → Prop
  | .throw k => ∀ r ∈ m.txns[k]?, r.state ≠ .aborted
  | _ => True

instance (call : TxnCall) : Decidable (m.endsAborted call) :=
  match call with
  | .throw k => inferInstanceAs (Decidable (∀ r ∈ m.txns[k]?, r.state ≠ .aborted))
  | .begin | .query _ | .commit _ | .rollback _ | .abortTurn _ | .advance _ | .mark _ | .checkpoint | .checkpointEnd =>
    isTrue trivial

theorem step_accounted (call : TxnCall) (next : TxnManager) (ok : m.Accounted)
    (ends : m.endsAborted call)
    (ran : m.step call = some next) : next.Accounted := by
  cases call with
  | begin =>
    simp only [TxnManager.step, Option.map_eq_some_iff] at ran
    obtain ⟨l, taken, rfl⟩ := ran
    unfold RWLatch.lockShared at taken
    split at taken
    · cases taken
    rename_i free
    cases taken
    refine ⟨ok.sound, fun r there => ?_, ?_, ?_, fun locked => absurd locked free⟩
    · rcases mem_append.mp there with old | new
      · exact ok.expected r old
      · rw [mem_singleton.mp new]
        exact ⟨rfl, rfl⟩
    · simp [countP_append, ok.shared, TxnRecord.holds]
    · simpa [countP_append, TxnRecord.cleans] using ok.cleaner
  | query tid => exact start_accounted ok ran (by decide) fun _ running zero => ⟨.inl running, zero⟩
  | commit tid => exact start_accounted ok ran (by decide) fun _ running zero => ⟨running, zero⟩
  | rollback tid =>
    exact start_accounted ok ran (by decide) fun _ running zero => ⟨.inl running, zero⟩
  | abortTurn tid =>
    exact start_accounted ok ran (by decide) fun _ running zero => ⟨.inl running, zero⟩
  | advance k =>
    simp only [TxnManager.step, Option.bind_eq_some_iff] at ran
    obtain ⟨r, there, ran⟩ := ran
    exact advance_accounted ok there ran
  | mark k =>
    simp only [TxnManager.step, Option.bind_eq_some_iff] at ran
    obtain ⟨r, there, ran⟩ := ran
    split at ran
    · rename_i phase
      cases ran
      have expected := ok.expected r (mem_of_getElem? there)
      rw [TxnRecord.Expected, phase] at expected
      refine ok.put there ?_ rfl rfl
      rw [TxnRecord.Expected, phase]
      exact ⟨.inr rfl, expected.2⟩
    · cases ran
  | throw k =>
    simp only [TxnManager.step, Option.bind_eq_some_iff] at ran
    obtain ⟨r, there, ran⟩ := ran
    split at ran
    · rename_i phase
      cases ran
      have expected := ok.expected r (mem_of_getElem? there)
      rw [TxnRecord.Expected, phase] at expected
      have running := expected.1.resolve_right (ends r there)
      exact ok.put there (.inl ⟨running, expected.2⟩) rfl (by simp [TxnRecord.cleans, phase])
    · cases ran
  | checkpoint =>
    simp only [TxnManager.step, Option.map_eq_some_iff] at ran
    obtain ⟨l, taken, rfl⟩ := ran
    unfold RWLatch.lockExclusive at taken
    split at taken
    · cases taken
    rename_i free
    cases taken
    rw [not_or, not_not] at free
    have total := ok.cleaner
    rw [Bool.eq_false_iff.mpr free.1, Bool.toNat_false] at total
    refine ⟨ok.sound, ok.expected, ok.shared, ?_, fun _ => free.2⟩
    simp only [Bool.toNat_true]
    omega
  | checkpointEnd =>
    simp only [TxnManager.step] at ran
    split at ran
    · rename_i running
      cases ran
      have total := ok.cleaner
      rw [running, Bool.toNat_true] at total
      have locked : m.checkpointLock.exclusive = true := by
        cases locked : m.checkpointLock.exclusive with
        | true => rfl
        | false =>
          rw [locked, Bool.toNat_false] at total
          omega
      rw [locked, Bool.toNat_true] at total
      have unlocked : m.unlock =
          { m with checkpointLock := { m.checkpointLock with exclusive := false } } := by
        simp [TxnManager.unlock, RWLatch.unlock, locked]
      rw [unlocked]
      refine ⟨ok.sound, ok.expected, ok.shared, ?_, fun locked => by cases locked⟩
      simp only [Bool.toNat_false]
      omega
    · cases ran

/-- No unlock has been undefined; the shared count is the number of transactions that have not
released the lock; a transaction releases it once, not before its state leaves `RUNNING` and not
after the call that ends it; and versions are cleaned only while no transaction runs or has the
lock. -/
structure TxnManager.LockAccounts : Prop where
  defined : m.fault = false
  shared : m.checkpointLock.shared = m.txns.countP fun r => r.releases == 0
  once : ∀ r ∈ m.txns, r.releases ≤ 1 ∧ (r.state = .running → r.releases = 0) ∧
    (r.phase = .idle → r.state ≠ .running → r.releases = 1)
  alone : m.checkpointer = true ∨ (∃ r ∈ m.txns, r.phase = .cleaning) →
    ∀ r ∈ m.txns, r.state ≠ .running ∧ r.releases ≠ 0

/-- In every state that the calls can reach while no exception leaves the query of an aborted
transaction. -/
theorem checkpoint_lock_accounts (calls : List TxnCall) (m : TxnManager)
    (ends : Guarded TxnManager.step TxnManager.endsAborted TxnManager.init calls)
    (ran : run TxnManager.step TxnManager.init calls = some m) : m.LockAccounts := by
  have ok := ends.invariant step_accounted init_accounted ran
  have each : ∀ r ∈ m.txns, r.releases ≤ 1 ∧ (r.state = .running → r.releases = 0) ∧
      (r.phase = .idle → r.state ≠ .running → r.releases = 1) := by
    intro r there
    have expected := ok.expected r there
    unfold TxnRecord.Expected at expected
    cases phase : r.phase <;> rw [phase] at expected <;> grind
  refine ⟨ok.sound, ok.shared, each, fun cleaning r there => ?_⟩
  have locked : m.checkpointLock.exclusive = true := by
    have total := ok.cleaner
    cases locked : m.checkpointLock.exclusive with
    | true => rfl
    | false =>
      rw [locked, Bool.toNat_false] at total
      rcases cleaning with external | ⟨q, inside, phase⟩
      · simp [external] at total
      · have positive : 0 < m.txns.countP TxnRecord.cleans :=
          List.countP_pos_iff.mpr ⟨q, inside, by simp [TxnRecord.cleans, phase]⟩
        omega
  have released : r.releases ≠ 0 := by
    intro zero
    have free := (ok.unlocked_of_holds there (by simp [TxnRecord.holds, zero])).2
    exact absurd (free.symm.trans locked) (by decide)
  exact ⟨fun running => released ((each r there).2.1 running), released⟩

/-- A query marks its transaction aborted and leaves with an exception; `Rollback` then refuses the
transaction, and a checkpoint waits for its lock. -/
theorem exception_keeps_lock : ∃ m, run TxnManager.step TxnManager.init
    [.begin, .advance 0, .advance 0, .advance 0, .query 1, .mark 0, .throw 0, .rollback 1] =
    some m ∧
      (m.step .checkpoint).isNone = true ∧ ¬ m.LockAccounts := by
  obtain ⟨m, ran, waits, kept⟩ : ∃ m, run TxnManager.step TxnManager.init
      [.begin, .advance 0, .advance 0, .advance 0, .query 1, .mark 0, .throw 0, .rollback 1] =
      some m ∧
        (m.step .checkpoint).isNone = true ∧ m.txns = [⟨.aborted, .idle, 0⟩] := ⟨_, rfl, by decide⟩
  refine ⟨m, ran, waits, fun accounts => ?_⟩
  have released := (accounts.once ⟨.aborted, .idle, 0⟩ (by simp [kept])).2.2 rfl (by decide)
  cases released

/-- Two transactions: the query of one marks it aborted, the other commits; then a checkpoint has
the lock. -/
def checkpointCalls : List TxnCall :=
  [.begin, .begin, .advance 0, .advance 1, .advance 0, .advance 1, .advance 0, .advance 1, .query 1,
      .mark 0, .commit 2, .advance 1,
    .advance 0, .advance 0, .advance 0, .advance 1, .advance 0, .advance 1, .advance 1, .rollback 1,
    .checkpoint]

theorem checkpoint_after_abort_and_commit :
    ∃ m, run TxnManager.step TxnManager.init checkpointCalls = some m ∧ m.checkpointer = true ∧
      m.txns.map (fun r => (r.state, r.releases)) = [(.aborted, 1), (.committed, 1)] ∧
      m.checkpointLock.shared = 0 := by
  obtain ⟨m, ran, facts⟩ : ∃ m, run TxnManager.step TxnManager.init checkpointCalls = some m ∧
    m.checkpointer = true ∧
      m.txns.map (fun r => (r.state, r.releases)) = [(.aborted, 1), (.committed, 1)] ∧
      m.txns.countP (fun r => r.releases == 0) = 0 :=
    ⟨_, rfl, by decide⟩
  exact ⟨m, ran, facts.1, facts.2.1,
      (checkpoint_lock_accounts checkpointCalls m (by decide) ran).shared.trans facts.2.2⟩

end GStore
