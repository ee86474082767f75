import GStore.Txn.Chain

/-! Whole calls as uninterrupted runs of their entry calls, and that such a run computes what
`try_exclusive_lock`, `updateTupleslist_*`, `ReleaseAllLocks` and `TransactionInvalid` compute. -/
namespace GStore
open Lib List Option KVstore Sys

inductive Call where
  | begin (isolation : IsolationLevel)
  | read (tid : Nat) (fn : ReadFn) (id : Nat)
  | update (tid : Nat) (u : Change)
  | commit (tid : Nat)
  | abort (tid : Nat)
  deriving DecidableEq, Repr

variable (s : Sys)

/-- The entry calls of a call. Three latches, three writes and, on a failure, three undos need at
most eleven steps; the steps behind the end of a call change nothing. -/
def Sys.acts : Call → List Act
  | .begin isolation => [.begin isolation]
  | .read tid fn id => [.read tid fn id]
  | .update tid u => .update tid u :: List.replicate 11 (.advance tid)
  | .commit tid => .startCommit tid ::
      List.replicate ((s.session tid).txn.sharedKeys.length +
          (s.session tid).txn.exclusiveKeys.length + 1) (.advance tid)
  | .abort tid => .startAbort tid ::
      List.replicate ((s.session tid).txn.sharedKeys.length +
          (s.session tid).txn.exclusiveKeys.length + 1) (.advance tid)

def Sys.perform (call : Call) : Option Sys := run step s (s.acts call)

theorem perform_chained {s t : Sys} {call : Call} (c : s.Chained) (done : s.perform call = some t) :
    t.Chained :=
  run_invariant (fun _ _ _ c taken => step_chained c taken) c done

variable (tid : Nat)

@[simp] theorem put_put (kv kv' : KVstore) (x y : Session) :
    (s.put tid kv x).put tid kv' y = s.put tid kv' y := by
  simp [put]

variable (kv : KVstore) (x : Session)

@[simp] theorem put_session_self : (s.put tid kv x).session tid = x := by simp

theorem run_advance_succ (tid n : Nat) : run step s (List.replicate (n + 1) (.advance tid)) =
      (s.advance tid).bind fun t => run step t (List.replicate n (.advance tid)) := by
  rw [replicate_succ]
  rfl

theorem run_advance_idle {s : Sys} {tid : Nat} (idle : (s.session tid).phase = .idle) (n : Nat) :
    run step s (List.replicate n (.advance tid)) = some s := by
  induction n with
  | zero => rfl
  | succ n ih =>
    have stays : s.advance tid = some s := by simp [advance, idle]
    rw [run_advance_succ, stays, Option.bind_some, ih]

theorem run_releaseExclusive (publish : Bool)
    (exclusive failed : List Key) :
    run step (s.put tid kv { x with phase := .closing publish [] exclusive failed })
        (List.replicate (exclusive.length + 1) (.advance tid)) =
      (forKeys (fun kv key => if publish then kv.releaseExclusiveLatch key x.txn
        else kv.invalidValues key x.txn false) kv exclusive).bind fun (done, kv) =>
          if done ∧ failed = [] then some (s.put tid kv { x with
            phase := .ended
            txn := { x.txn with state := if publish then .committed else .aborted } })
          else none := by
  induction exclusive generalizing kv failed with
  | nil =>
    rw [length_nil, run_advance_succ]
    simp only [advance, put_session_self, finish, forKeys, Option.bind_some, put_kv, put_put,
        true_and]
    split <;> rfl
  | cons key exclusive ih =>
    rw [length_cons, run_advance_succ]
    simp only [advance, put_session_self, releaseExclusiveNext, put_kv, put_put, forKeys]
    rcases (if publish then kv.releaseExclusiveLatch key x.txn else kv.invalidValues key x.txn
        false) with _ | ⟨done, next⟩
    · rfl
    · simp only [map_some, Option.bind_some, ih]
      rcases forKeys _ next exclusive with _ | ⟨rest, last⟩
      · rfl
      · cases done <;> simp

theorem run_close (publish : Bool) (shared exclusive failed : List Key) :
    run step (s.put tid kv { x with phase := .closing publish shared exclusive failed })
        (List.replicate (shared.length + exclusive.length + 1) (.advance tid)) =
      (forKeys (fun kv key => kv.releaseSharedLatch key x.txn) kv shared).bind fun (ret1, kv) =>
        (forKeys (fun kv key => if publish then kv.releaseExclusiveLatch key x.txn
          else kv.invalidValues key x.txn false) kv exclusive).bind fun (ret2, kv) =>
            if (ret1 && ret2) ∧ failed = [] then some (s.put tid kv { x with
              phase := .ended
              txn := { x.txn with state := if publish then .committed else .aborted } })
            else none := by
  induction shared generalizing kv failed with
  | nil =>
    rw [length_nil, Nat.zero_add, run_releaseExclusive]
    simp [forKeys]
  | cons key shared ih =>
    rw [length_cons, Nat.add_right_comm shared.length 1, run_advance_succ]
    simp only [advance, put_session_self, releaseSharedNext, put_kv, put_put, forKeys]
    rcases kv.releaseSharedLatch key x.txn with _ | ⟨done, next⟩
    · rfl
    · simp only [map_some, Option.bind_some, ih]
      rcases forKeys _ next shared with _ | ⟨rest, last⟩
      · rfl
      · cases done <;> simp

def Sys.committedAs : Sys :=
  { s.put tid kv { s.session tid with
      phase := .ended
      txn := { (s.session tid).txn with commitID := (s.cnt : Nat), state := .committed } } with
    started := s.started ++ [tid] }

@[simp] theorem committedAs_kv : (s.committedAs tid kv).kv = kv := rfl

theorem perform_commit {s : Sys} {tid : Nat} (idle : (s.session tid).phase = .idle)
    (running : (s.session tid).txn.state = .running) :
    s.perform (.commit tid) =
      (s.kv.releaseAllLocks { (s.session tid).txn with commitID := (s.cnt : Nat) }).map
      (s.committedAs tid) := by
  have begun : s.step (.startCommit tid) = some
    ({ s with started := s.started ++ [tid] }.put tid s.kv
      (Session.close { s.session tid with txn := { (s.session tid).txn with commitID := (s.cnt : Nat) } } true)) := by
    simp only [step, if_pos idle, startCommit, if_pos running]
    rfl
  simp only [perform, acts, run, begun, Option.bind_some]
  refine (run_close { s with started := s.started ++ [tid] } tid s.kv
    { s.session tid with txn := { (s.session tid).txn with commitID := (s.cnt : Nat) } } true _ _
      []).trans ?_
  simp only [releaseAllLocks, forLatches, Transaction.sharedKeys, Transaction.exclusiveKeys,
    Transaction.isSR, Transaction.writeSetFind, if_true, and_true, map_bind]
  congr 1
  funext released
  obtain ⟨ret1, kv⟩ := released
  simp only [Function.comp, map_bind]
  congr 1
  funext unlatched
  obtain ⟨ret2, kv⟩ := unlatched
  simp only
  cases ret1 && ret2 <;> rfl

theorem run_undo (keys : List Key) (n : Nat) :
    run step (s.put tid kv { x with phase := .undoing keys })
      (List.replicate (keys.length + 1 + n) (.advance tid)) =
      (kv.undoLatches x.txn keys).map fun kv => s.put tid kv { x with phase := .idle } := by
  induction keys generalizing kv with
  | nil =>
    rw [length_nil, Nat.zero_add, Nat.add_comm, run_advance_succ]
    simp only [advance, put_session_self, Option.bind_some, put_put, put_kv]
    exact run_advance_idle (by simp) n
  | cons key keys ih =>
    rw [length_cons, Nat.add_right_comm _ 1 n, run_advance_succ]
    simp only [advance, put_session_self, undoNext, put_kv, put_put, undoLatches]
    rcases kv.invalidValues key x.txn (x.txn.readSetFind key) with _ | ⟨done, next⟩
    · rfl
    · cases done with
      | false => rfl
      | true =>
        simp only [Option.bind_some, if_true]
        exact ih next

theorem run_write (u : Change) (next mine : List Key) (n : Nat)
    (succeeds : ∀ kv', kv.updateKeys u.insertion u.triple next ≠ some (false, kv')) :
    run step (s.put tid kv { x with phase := .writing u next mine })
        (List.replicate (next.length + 1 + n) (.advance tid)) =
      (kv.updateKeys u.insertion u.triple next).map fun (_, kv) => s.put tid kv (x.enter u) := by
  induction next generalizing kv with
  | nil =>
    rw [length_nil, Nat.zero_add, Nat.add_comm, run_advance_succ]
    simp only [advance, put_session_self, Option.bind_some, put_put, put_kv]
    exact run_advance_idle (by simp [Session.enter]) n
  | cons key next ih =>
    rw [length_cons, Nat.add_right_comm _ 1 n, run_advance_succ]
    simp only [updateKeys] at succeeds
    simp only [advance, put_session_self, writeNext, put_kv, put_put, updateKeys]
    rcases wrote : kv.updateValues u.insertion u.triple key with _ | ⟨done, after⟩
    · rfl
    · rw [wrote] at succeeds
      cases done with
      | false => exact absurd rfl (succeeds after)
      | true =>
        simp only [map_some, Option.bind_some, if_true] at succeeds ⊢
        exact ih after succeeds

theorem updateKeys_succeeds {kv : KVstore} {insertion : Bool} {t : Triple} {keys : List Key}
    (range : ∀ k ∈ keys, kv.InRange k) (kv' : KVstore) :
        kv.updateKeys insertion t keys ≠ some (false, kv') := by
  induction keys generalizing kv with
  | nil => simp [updateKeys]
  | cons key keys ih =>
    intro failed
    obtain ⟨⟨done, next⟩, wrote, rest⟩ := bind_eq_some_iff.mp failed
    rcases updateValues_cases wrote with ⟨away, -⟩ | ⟨-, rfl, last, -, rfl⟩
    · exact away (range key (by simp))
    · exact ih (fun k hk => by simpa using range k (by simp [hk])) rest

theorem run_lock_granted (kv kv' : KVstore) (x : Session) (u : Change) (next mine : List Key)
    (n : Nat)
    (granted : kv.tryExclusiveLatches x.txn next mine = some (true, kv')) :
    ∃ mine', run step (s.put tid kv { x with phase := .locking u next mine })
        (List.replicate (next.length + 1 + n) (.advance tid)) =
      run step (s.put tid kv' { x with phase := .writing u u.triple.writeKeys mine' })
        (List.replicate n (.advance tid)) ∧
      run step (s.put tid kv { x with phase := .locking u next mine })
        (List.replicate (next.length + 1) (.advance tid)) =
      some (s.put tid kv' { x with phase := .writing u u.triple.writeKeys mine' }) := by
  induction next generalizing kv mine with
  | nil =>
    cases granted
    refine ⟨mine, ?_, ?_⟩
    · rw [length_nil, Nat.zero_add, Nat.add_comm, run_advance_succ]
      simp [advance, put_session_self, Option.bind_some, put_put, put_kv]
    · rw [length_nil, run_advance_succ]
      simp only [advance, put_session_self, Option.bind_some, put_put, put_kv]
      rfl
  | cons key next ih =>
    rw [length_cons, Nat.add_right_comm _ 1 n, run_advance_succ, run_advance_succ]
    simp only [tryExclusiveLatches] at granted
    simp only [advance, put_session_self, lockNext, put_kv, put_put]
    split_ifs at granted with written
    · rw [if_pos written]
      exact ih kv mine granted
    · rw [if_neg written]
      obtain ⟨⟨done, after⟩, latch, granted⟩ := bind_eq_some_iff.mp granted
      rw [latch]
      cases done with
      | false =>
        obtain ⟨kv', -, same⟩ := map_eq_some_iff.mp granted
        cases same
      | true => exact ih after (mine ++ [key]) granted

theorem undoLatches_abort (txn : Transaction) (keys : List Key) :
    kv.undoLatches txn.abort keys = kv.undoLatches txn keys := by
  induction keys generalizing kv with
  | nil => rfl
  | cons key keys ih =>
    have same : kv.invalidValues key txn.abort (txn.abort.readSetFind key) =
        kv.invalidValues key txn (txn.readSetFind key) := rfl
    rw [undoLatches, undoLatches, same]
    simp [ih]

/-- The latches are refused, or an assertion fails on the way. -/
theorem run_lock_failed (u : Change) (next mine : List Key) (n : Nat)
    (short : mine.length + next.length ≤ n + 1)
      (failed : ∀ kv', kv.tryExclusiveLatches x.txn next mine ≠ some (true, kv')) :
    run step (s.put tid kv { x with phase := .locking u next mine })
        (List.replicate (next.length + 1 + n) (.advance tid)) =
      (kv.tryExclusiveLatches x.txn next mine).map fun (_, kv') =>
        s.put tid kv' { x with phase := .idle, txn := x.txn.abort } := by
  induction next generalizing kv mine n with
  | nil => exact absurd rfl (failed kv)
  | cons key next ih =>
    rw [length_cons] at short
    rw [length_cons, Nat.add_right_comm _ 1 n, run_advance_succ]
    simp only [tryExclusiveLatches] at failed ⊢
    simp only [advance, put_session_self, lockNext, put_kv, put_put]
    split_ifs at failed with written
    · rw [if_pos written, if_pos written]
      exact ih kv mine n (by omega) failed
    · rw [if_neg written, if_neg written]
      rcases latch : kv.getExclusiveLatch key x.txn (x.txn.readSetFind key) with _ | ⟨done, after⟩
      · rfl
      · rw [latch] at failed
        cases done with
        | true => exact ih after (mine ++ [key]) n (by simp; omega) failed
        | false =>
          obtain ⟨extra, enough⟩ : ∃ extra, next.length + 1 + n = mine.length + 1 + extra :=
            ⟨next.length + n - mine.length, by omega⟩
          rw [enough]
          refine (run_undo s tid after { x with txn := x.txn.abort } mine extra).trans ?_
          simp only [undoLatches_abort, Option.bind_some, Bool.false_eq_true, if_false,
              Option.map_map]
          rfl

theorem perform_update {s : Sys} (c : s.Chained) {tid : Nat} (idle : (s.session tid).phase = .idle)
    (u : Change) :
    s.perform (.update tid u) = (s.kv.tryExclusiveLock u.triple (s.session tid).txn).bind
        fun (done, kv) =>
      if done then (kv.updateTupleslistTxn u.insertion u.triple).map fun (_, kv) => s.put tid kv
        ((s.session tid).enter u)
      else some (s.put tid kv { s.session tid with txn := (s.session tid).txn.abort }) := by
  have begun : s.step (.update tid u) =
      some (s.put tid s.kv { s.session tid with phase := .locking u u.triple.lockKeys [] }) := by
    simp only [step, if_pos idle]
    rfl
  have acts : s.acts (.update tid u) = .update tid u :: List.replicate
    (u.triple.lockKeys.length + 1 + 7) (.advance tid) := rfl
  simp only [perform, acts, run, begun, Option.bind_some]
  have started := c.update u idle
  have fails := run_lock_failed s tid s.kv (s.session tid) u u.triple.lockKeys [] 7
    (by simp [Triple.lockKeys])
  rcases locked : s.kv.tryExclusiveLock u.triple (s.session tid).txn with _ | ⟨done, kv⟩
  · rw [show s.kv.tryExclusiveLatches (s.session tid).txn u.triple.lockKeys [] =
        none from locked] at fails
    exact fails (by simp)
  · cases done with
    | false =>
      rw [show s.kv.tryExclusiveLatches (s.session tid).txn u.triple.lockKeys [] =
          some (false, kv) from locked] at fails
      refine (fails (by simp)).trans ?_
      simp [← idle]
    | true =>
      obtain ⟨mine, ran, here⟩ :=
        run_lock_granted s tid s.kv kv (s.session tid) u u.triple.lockKeys [] 7 locked
      have c' : (s.put tid kv { s.session tid with phase := .writing u u.triple.writeKeys mine }).Chained :=
        run_invariant (fun _ _ _ c taken => step_chained c taken) started here
      have shape := (c'.sound tid).phase
      rw [put_session_self] at shape
      have range : ∀ k ∈ u.triple.writeKeys, kv.InRange k := by
        intro k member
        refine c'.range tid k ?_
        rw [put_session_self]
        simp only [Session.held]
        rw [shape.2, mem_held_writing]
        exact .inr member
      rw [ran]
      exact run_write s tid kv (s.session tid) u u.triple.writeKeys mine 3
        (updateKeys_succeeds range)

end GStore
