import GStore.Util.GraphLock
import GStore.Util.Transaction

/-! `IVEntry`: the value of a key, its list of versions and its latch. Each function runs under the
entry's `rwLatch`. A result `none` is a failed `assert` or an access outside the version list. -/
namespace GStore
open Option

/-- `value` is the list of `unsigned` words of a used entry; where it is kept (cache or disk
block) is not modelled. -/
structure IVEntry where
  value : Option (List Nat)
  vList : List Version
  glatch : GLatch
  isVersioned : Bool
  deriving DecidableEq

def IVEntry.init : IVEntry := ⟨none, [Version.dummy], GLatch.init, false⟩

variable (e : IVEntry)

/-- `setBstr` with the used flag; `none` releases the value. -/
def IVEntry.setValue (value : Option (List Nat)) : IVEntry := { e with value := value }

def IVEntry.setVersions (versions : List Version) : IVEntry := { e with vList := versions }

def IVEntry.isUsed : Bool := e.value.isSome

variable (tid : Timestamp)

def IVEntry.checkVersion (isRC : Bool) : Option Bool :=
  e.vList.getLast?.map fun latest =>
    if latest.beginTs = ⊤ then decide (latest.endTs = tid)
    else if !isRC && decide (tid < latest.beginTs) then false
    else true

/-- The head version when a version is read: `-1` aborts the reader, `1` asks for a shared latch. -/
def IVEntry.checkheadVersion : Option Int :=
  e.vList.getLast?.map fun latest =>
    let ret : Int := if latest.beginTs = ⊤ ∧ latest.endTs < tid then -1 else 0
    if latest.beginTs ≤ tid then 1 else ret

/-- Merge the versions up to the first one that begins after `tid`, then the own private version. -/
def IVEntry.getProperVersion : Option (VDataSet × VDataSet) :=
  e.vList.getLast?.map fun latest =>
    let visible := (e.vList.takeWhile fun v => !decide (tid < v.beginTs)).foldl
      (fun sets v => v.getVersion sets) ([], [])
    if latest.beginTs = ⊤ ∧ tid = latest.endTs then latest.getVersion visible else visible

/-- Merge all versions but the last, and the last one if it is private to `tid` or committed. -/
def IVEntry.getLatestVersion : Option (VDataSet × VDataSet) :=
  e.vList.getLast?.map fun latest =>
    let earlier := e.vList.dropLast.foldl (fun sets v => v.getVersion sets) ([], [])
    if (latest.beginTs = ⊤ ∧ latest.endTs = tid) ∨
      latest.endTs = ⊤ then latest.getVersion earlier else earlier

structure ReadResult where
  ok : Bool
  latched : Bool
  sets : VDataSet × VDataSet
  entry : IVEntry
  deriving DecidableEq

variable (txn : Transaction)

def IVEntry.readVersion (firstRead : Bool) : Option ReadResult :=
  match txn.isolation with
  | .readCommitted => (e.getLatestVersion txn.tid).map fun sets => ⟨true, false, sets, e⟩
  | .snapshot => (e.getProperVersion txn.tid).map fun sets => ⟨true, false, sets, e⟩
  | .serializable =>
    (e.checkheadVersion txn.tid).bind fun ret =>
      if ret = -1 then some ⟨false, false, ([], []), e⟩
      else if ret = 1 ∧ firstRead then
        (e.glatch.trysharedlatch txn.tid).bind fun (latched, g) =>
          if latched then (e.getProperVersion txn.tid).map fun sets =>
            ⟨true, true, sets, { e with glatch := g }⟩
          else some ⟨false, false, ([], []), { e with glatch := g }⟩
      else (e.getProperVersion txn.tid).map fun sets => ⟨true, false, sets, e⟩

def IVEntry.popBack : Option IVEntry :=
  if e.vList = [] then none else some { e with vList := e.vList.dropLast }

def IVEntry.invalidExlusiveLatch (hasRead : Bool) : Option (Bool × IVEntry) :=
  if txn.isSR then
    if hasRead then
      let (done, g) := e.glatch.trydowngradelatch txn.tid
      if done then (IVEntry.popBack { e with glatch := g }).map fun e => (true, e) else none
    else
      (e.glatch.unlatch txn.tid true true).bind fun (done, g) =>
        if done then (IVEntry.popBack { e with glatch := g }).map fun e => (true, e)
        else some (false, { e with glatch := g })
  else e.popBack.map fun e => (true, e)

def stamp (cid : Timestamp) : List Version → Option (List Version)
  | [] => none
  | [_] => none
  | [previous, last] =>
    some [{ previous with endTs := cid }, { last with beginTs := cid, endTs := ⊤ }]
  | v :: w :: rest => (stamp cid (w :: rest)).map (v :: ·)

def IVEntry.unLatchExclusive : Option (Bool × IVEntry) :=
  if txn.isSR then
    (e.glatch.unlatch txn.tid true true).bind fun (done, g) =>
      if done then (stamp txn.commitID e.vList).map fun vs =>
        (true, { e with vList := vs, glatch := g })
      else some (false, { e with glatch := g })
  else (stamp txn.commitID e.vList).map fun vs => (true, { e with vList := vs })

def IVEntry.unLatchShared : Option (Bool × IVEntry) :=
  if txn.isSR then (e.glatch.unlatch txn.tid false true).map fun (done, g) =>
    (done, { e with glatch := g })
  else some (false, e)

def IVEntry.pushVersion : IVEntry :=
  { e with vList := e.vList ++ [Version.fresh tid], isVersioned := true }

def IVEntry.getExclusiveLatch (hasRead : Bool) : Option (Bool × IVEntry) :=
  (e.checkVersion txn.tid (txn.isolation == .readCommitted)).bind fun checked =>
    if !checked then some (false, e)
    else if txn.isSR then
      (if hasRead then e.glatch.tryupgradelatch txn.tid else e.glatch.tryexclusivelatch txn.tid
        true).bind
        fun (done, g) =>
          if done then some (true, IVEntry.pushVersion { e with glatch := g } txn.tid)
          else some (false, { e with glatch := g })
    else some (true, e.pushVersion txn.tid)

def IVEntry.writeVersion (addSet delSet : VDataSet) : Option IVEntry :=
  e.vList.getLast?.map fun latest =>
    { e with vList := e.vList.dropLast ++
      [delSet.foldl Version.remove (addSet.foldl Version.add latest)] }

variable {txn : Transaction}

theorem readVersion_frame {e : IVEntry} {firstRead : Bool} {r : ReadResult}
    (call : e.readVersion txn firstRead = some r) :
    r.entry.vList = e.vList ∧ r.entry.value = e.value ∧ r.entry.isVersioned = e.isVersioned := by
  unfold IVEntry.readVersion at call
  split at call
  · obtain ⟨sets, -, rfl⟩ := map_eq_some_iff.mp call
    exact ⟨rfl, rfl, rfl⟩
  · obtain ⟨sets, -, rfl⟩ := map_eq_some_iff.mp call
    exact ⟨rfl, rfl, rfl⟩
  · obtain ⟨ret, -, call⟩ := bind_eq_some_iff.mp call
    split at call
    · cases call
      exact ⟨rfl, rfl, rfl⟩
    · split at call
      · obtain ⟨⟨latched, g⟩, -, call⟩ := bind_eq_some_iff.mp call
        dsimp only at call
        split at call
        · obtain ⟨sets, -, rfl⟩ := map_eq_some_iff.mp call
          exact ⟨rfl, rfl, rfl⟩
        · cases call
          exact ⟨rfl, rfl, rfl⟩
      · obtain ⟨sets, -, rfl⟩ := map_eq_some_iff.mp call
        exact ⟨rfl, rfl, rfl⟩

theorem checkheadVersion_range {e : IVEntry} {tid : Timestamp} {ret : Int}
    (call : e.checkheadVersion tid = some ret) :
    ret = -1 ∨ ret = 0 ∨ ret = 1 := by
  obtain ⟨latest, -, rfl⟩ := map_eq_some_iff.mp call
  dsimp only
  split
  · exact .inr (.inr rfl)
  · split
    · exact .inl rfl
    · exact .inr (.inl rfl)

theorem readVersion_latch {e : IVEntry} {firstRead : Bool} {r : ReadResult}
    (call : e.readVersion txn firstRead = some r) :
    (r.latched = true ∧ r.ok = true ∧ txn.isSR = true ∧ firstRead = true ∧
      e.glatch.trysharedlatch txn.tid = some (true, r.entry.glatch)) ∨
      (r.latched = false ∧ r.entry = e ∧
      (r.ok = true → txn.isSR = true → firstRead = true →
        e.checkheadVersion txn.tid = some 0)) := by
  unfold IVEntry.readVersion at call
  cases level : txn.isolation with
  | readCommitted =>
    rw [level] at call
    obtain ⟨sets, -, rfl⟩ := map_eq_some_iff.mp call
    exact .inr ⟨rfl, rfl, fun _ sr => by simp [Transaction.isSR, level] at sr⟩
  | snapshot =>
    rw [level] at call
    obtain ⟨sets, -, rfl⟩ := map_eq_some_iff.mp call
    exact .inr ⟨rfl, rfl, fun _ sr => by simp [Transaction.isSR, level] at sr⟩
  | serializable =>
    rw [level] at call
    obtain ⟨ret, head, call⟩ := bind_eq_some_iff.mp call
    split at call
    · cases call
      exact .inr ⟨rfl, rfl, fun ok => by cases ok⟩
    · rename_i allowed
      split at call
      · rename_i first
        obtain ⟨⟨latched, g⟩, latch, call⟩ := bind_eq_some_iff.mp call
        cases latched with
        | true =>
          obtain ⟨sets, -, rfl⟩ := map_eq_some_iff.mp call
          exact .inl ⟨rfl, rfl, by simp [Transaction.isSR, level], first.2, latch⟩
        | false =>
          cases call
          rw [trysharedlatch_refused latch]
          exact .inr ⟨rfl, rfl, fun ok => by cases ok⟩
      · rename_i later
        obtain ⟨sets, -, rfl⟩ := map_eq_some_iff.mp call
        refine .inr ⟨rfl, rfl, fun _ _ first => ?_⟩
        rcases checkheadVersion_range head with refused | zero | one
        · exact absurd refused allowed
        · rw [head, zero]
        · exact absurd ⟨one, first⟩ later

variable {e e' : IVEntry} {hasRead : Bool}

theorem getExclusiveLatch_granted (call : e.getExclusiveLatch txn hasRead = some (true, e')) :
    e.checkVersion txn.tid (txn.isolation == .readCommitted) = some true ∧
      e'.vList = e.vList ++ [Version.fresh txn.tid] ∧ e'.value = e.value ∧
      (txn.isSR = true → (if hasRead then e.glatch.tryupgradelatch txn.tid
        else e.glatch.tryexclusivelatch txn.tid true) = some (true, e'.glatch)) := by
  obtain ⟨checked, head, call⟩ := bind_eq_some_iff.mp call
  cases checked with
  | false => cases call
  | true =>
    simp only [Bool.not_true, Bool.false_eq_true, if_false] at call
    split at call
    · obtain ⟨⟨done, g⟩, latch, call⟩ := bind_eq_some_iff.mp call
      cases done with
      | false => cases call
      | true =>
        cases call
        exact ⟨head, rfl, rfl, fun _ => latch⟩
    · rename_i other
      cases call
      exact ⟨head, rfl, rfl, fun sr => absurd sr other⟩

theorem getExclusiveLatch_plain (plain : txn.isSR = false)
    (call : e.getExclusiveLatch txn hasRead = some (true, e')) : e'.glatch = e.glatch := by
  obtain ⟨checked, head, call⟩ := bind_eq_some_iff.mp call
  cases checked with
  | false => cases call
  | true =>
    simp only [Bool.not_true, Bool.false_eq_true, if_false, plain] at call
    cases call
    rfl

theorem getExclusiveLatch_refused (call : e.getExclusiveLatch txn hasRead = some (false, e')) :
    e' = e := by
  obtain ⟨checked, head, call⟩ := bind_eq_some_iff.mp call
  cases checked with
  | false =>
    cases call
    rfl
  | true =>
    simp only [Bool.not_true, Bool.false_eq_true, if_false] at call
    split at call
    · obtain ⟨⟨done, g⟩, latch, call⟩ := bind_eq_some_iff.mp call
      cases done with
      | true => cases call
      | false =>
        have same : g = e.glatch := by
          split at latch
          · exact tryupgradelatch_refused latch
          · exact tryexclusivelatch_refused latch
        cases call
        rw [same]
    · cases call

theorem popBack_spec (call : e.popBack = some e') : e' = { e with vList := e.vList.dropLast } := by
  unfold IVEntry.popBack at call
  split at call <;> cases call
  rfl

theorem invalidExlusiveLatch_done (call : e.invalidExlusiveLatch txn hasRead = some (true, e')) :
    e'.vList = e.vList.dropLast ∧ e'.value = e.value ∧
      (txn.isSR = true → if hasRead then e.glatch.trydowngradelatch txn.tid = (true, e'.glatch)
        else e.glatch.unlatch txn.tid true true = some (true, e'.glatch)) := by
  unfold IVEntry.invalidExlusiveLatch at call
  cases sr : txn.isSR with
  | false =>
    simp only [sr, Bool.false_eq_true, if_false] at call
    obtain ⟨popped, pop, same⟩ := map_eq_some_iff.mp call
    cases same
    rw [popBack_spec pop]
    exact ⟨rfl, rfl, by simp⟩
  | true =>
    simp only [sr, if_true] at call
    cases hasRead with
    | true =>
      simp only [if_true] at call
      rcases down : e.glatch.trydowngradelatch txn.tid with ⟨done, g⟩
      rw [down] at call
      cases done with
      | false => cases call
      | true =>
        obtain ⟨popped, pop, same⟩ := map_eq_some_iff.mp call
        cases same
        rw [popBack_spec pop]
        exact ⟨rfl, rfl, fun _ => rfl⟩
    | false =>
      simp only [Bool.false_eq_true, if_false] at call
      obtain ⟨⟨done, g⟩, latch, call⟩ := bind_eq_some_iff.mp call
      cases done with
      | false => cases call
      | true =>
        obtain ⟨popped, pop, same⟩ := map_eq_some_iff.mp call
        cases same
        rw [popBack_spec pop]
        exact ⟨rfl, rfl, fun _ => latch⟩

theorem invalidExlusiveLatch_refused
    (call : e.invalidExlusiveLatch txn hasRead = some (false, e')) : e' = e := by
  unfold IVEntry.invalidExlusiveLatch at call
  split at call
  · split at call
    · rcases down : e.glatch.trydowngradelatch txn.tid with ⟨done, g⟩
      rw [down] at call
      cases done with
      | false => cases call
      | true => simp at call
    · obtain ⟨⟨done, g⟩, latch, call⟩ := bind_eq_some_iff.mp call
      cases done with
      | false =>
        cases call
        rw [unlatch_refused latch]
      | true => simp at call
  · simp at call

theorem unLatchExclusive_done (call : e.unLatchExclusive txn = some (true, e')) :
    stamp txn.commitID e.vList = some e'.vList ∧ e'.value = e.value ∧
      (txn.isSR = true → e.glatch.unlatch txn.tid true true = some (true, e'.glatch)) := by
  unfold IVEntry.unLatchExclusive at call
  split at call
  · obtain ⟨⟨done, g⟩, latch, call⟩ := bind_eq_some_iff.mp call
    cases done with
    | false => cases call
    | true =>
      obtain ⟨vs, stamped, same⟩ := map_eq_some_iff.mp call
      cases same
      exact ⟨stamped, rfl, fun _ => latch⟩
  · rename_i other
    obtain ⟨vs, stamped, same⟩ := map_eq_some_iff.mp call
    cases same
    exact ⟨stamped, rfl, fun sr => absurd sr other⟩

theorem unLatchExclusive_refused (call : e.unLatchExclusive txn = some (false, e')) : e' = e := by
  unfold IVEntry.unLatchExclusive at call
  split at call
  · obtain ⟨⟨done, g⟩, latch, call⟩ := bind_eq_some_iff.mp call
    cases done with
    | false =>
      cases call
      rw [unlatch_refused latch]
    | true => simp at call
  · simp at call

theorem unLatchShared_frame {done : Bool}
    (call : e.unLatchShared txn = some (done, e')) : e'.vList = e.vList ∧ e'.value = e.value := by
  unfold IVEntry.unLatchShared at call
  split at call
  · obtain ⟨⟨ok, g⟩, -, same⟩ := map_eq_some_iff.mp call
    cases same
    exact ⟨rfl, rfl⟩
  · cases call
    exact ⟨rfl, rfl⟩

end GStore
