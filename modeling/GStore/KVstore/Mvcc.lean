import GStore.KVstore.KeyLists

/-! The transactional side of `IVArray` and `KVstore`: reads through the version chains, latches,
private versions, and the calls that lock, publish and undo the keys of a transaction. A result
`none` is a failed `assert` or undefined behaviour. -/
namespace GStore
open Lib Function Option KVstore

/-- A key at or above `CurEntryNum` has no entry; the functions then return at once. -/
def IVArray.access {β : Type} (a : IVArray) (key : Nat) (outside : β)
    (f : IVEntry → Option (β × IVEntry)) :
    Option (β × IVArray) :=
  if a.curEntryNum ≤ key then some (outside, a) else (f (a.entry key)).map fun (r, e) =>
    (r, a.setEntry key e)

/-- What `search` hands back; `aborted` is `SetState(ABORTED)`. -/
structure SearchResult where
  ok : Bool
  aborted : Bool
  latched : Bool
  value : Option (List Nat)
  sets : VDataSet × VDataSet
  deriving DecidableEq

def SearchResult.missing : SearchResult := ⟨false, false, false, none, ([], [])⟩

def IVEntry.search (e : IVEntry) (txn : Transaction) (firstRead : Bool) :
    Option (SearchResult × IVEntry) :=
  (e.readVersion txn firstRead).map fun r =>
    (if r.ok then ⟨true, false, r.latched, e.value, r.sets⟩ else
      ⟨false, true, false, none, ([], [])⟩, r.entry)

def IVArray.searchTxn (a : IVArray) (key : Nat) (txn : Transaction) (firstRead : Bool) :
    Option (SearchResult × IVArray) :=
  a.access key SearchResult.missing fun e => e.search txn firstRead

def IVArray.insertTxn (a : IVArray) (key : Nat) (delta : VDataSet) : Option (Bool × IVArray) :=
  a.access key false fun e => (e.writeVersion delta []).map fun e => (true, e)

def IVArray.removeTxn (a : IVArray) (key : Nat) (delta : VDataSet) : Option (Bool × IVArray) :=
  a.access key false fun e => (e.writeVersion [] delta).map fun e => (true, e)

def IVArray.tryExclusiveLatch (a : IVArray) (key : Nat) (txn : Transaction) (hasRead : Bool) :
    Option (Bool × IVArray) :=
  if a.curEntryNum ≤ key ∧ maxKeyNum ≤ key then some (false, a)
  else (a.expand key).access key false fun e => e.getExclusiveLatch txn hasRead

def IVArray.releaseExclusive (a : IVArray) (key : Nat) (txn : Transaction) :
    Option (Bool × IVArray) :=
  a.access key false fun e => e.unLatchExclusive txn

def IVArray.releaseShared (a : IVArray) (key : Nat) (txn : Transaction) : Option (Bool × IVArray) :=
  a.access key false fun e => e.unLatchShared txn

def IVArray.rollback (a : IVArray) (key : Nat) (txn : Transaction) (hasRead : Bool) :
    Option (Bool × IVArray) :=
  a.access key false fun e => e.invalidExlusiveLatch txn hasRead

def KVstore.onArray {β : Type} (kv : KVstore) (key : Key)
    (f : IVArray → Nat → Option (β × IVArray)) :
    Option (β × KVstore) :=
  (f (kv.array (locate key).1) (locate key).2).map fun (r, a) => (r, kv.setArray (locate key).1 a)

def KVstore.getValueByKeyTxn (kv : KVstore) (key : Key) (txn : Transaction) (firstRead : Bool) :
    Option (SearchResult × KVstore) :=
  kv.onArray key fun a i => a.searchTxn i txn firstRead

def KVstore.insertValues (kv : KVstore) (key : Key) (addset : VDataSet) : Option (Bool × KVstore) :=
  kv.onArray key fun a i => a.insertTxn i addset

def KVstore.removeValues (kv : KVstore) (key : Key) (delset : VDataSet) : Option (Bool × KVstore) :=
  kv.onArray key fun a i => a.removeTxn i delset

def KVstore.getExclusiveLatch (kv : KVstore) (key : Key) (txn : Transaction) (hasRead : Bool) :
    Option (Bool × KVstore) :=
  kv.onArray key fun a i => a.tryExclusiveLatch i txn hasRead

def KVstore.invalidValues (kv : KVstore) (key : Key) (txn : Transaction) (hasRead : Bool) :
    Option (Bool × KVstore) :=
  kv.onArray key fun a i => a.rollback i txn hasRead

def KVstore.releaseExclusiveLatch (kv : KVstore) (key : Key) (txn : Transaction) :
    Option (Bool × KVstore) :=
  kv.onArray key fun a i => a.releaseExclusive i txn

def KVstore.releaseSharedLatch (kv : KVstore) (key : Key) (txn : Transaction) :
    Option (Bool × KVstore) :=
  kv.onArray key fun a i => a.releaseShared i txn

def Triple.lockKeys (t : Triple) : List Key := [t.key .predicate, t.key .subject, t.key .object]

def Triple.writeKeys (t : Triple) : List Key := [t.key .subject, t.key .object, t.key .predicate]

def KVstore.updateValues (kv : KVstore) (insertion : Bool) (t : Triple) (key : Key) :
    Option (Bool × KVstore) :=
  if insertion then kv.insertValues key [t.pair key.type] else kv.removeValues key [t.pair key.type]

/-- The undo of keys that `try_exclusive_lock` has just latched; a failure is asserted away. -/
def KVstore.undoLatches (kv : KVstore) (txn : Transaction) : List Key → Option KVstore
  | [] => some kv
  | key :: keys => (kv.invalidValues key txn (txn.readSetFind key)).bind fun (done, kv) =>
      if done then kv.undoLatches txn keys else none

/-- `try_exclusive_lock` over the keys that are left, with the keys it has latched so far. Keys of
the write set are latched already. -/
def KVstore.tryExclusiveLatches (kv : KVstore) (txn : Transaction) :
    List Key → List Key → Option (Bool × KVstore)
  | [], _ => some (true, kv)
  | key :: keys, mine =>
    if txn.writeSetFind key then kv.tryExclusiveLatches txn keys mine
    else (kv.getExclusiveLatch key txn (txn.readSetFind key)).bind fun (done, kv) =>
      if done then kv.tryExclusiveLatches txn keys (mine ++ [key])
      else (kv.undoLatches txn mine).map fun kv => (false, kv)

def KVstore.tryExclusiveLock (kv : KVstore) (t : Triple) (txn : Transaction) :
    Option (Bool × KVstore) :=
  kv.tryExclusiveLatches txn t.lockKeys []

def KVstore.updateKeys (kv : KVstore) (insertion : Bool) (t : Triple) :
    List Key → Option (Bool × KVstore)
  | [] => some (true, kv)
  | key :: keys => (kv.updateValues insertion t key).bind fun (done, kv) =>
      if done then kv.updateKeys insertion t keys else some (false, kv)

def KVstore.updateTupleslistTxn (kv : KVstore) (insertion : Bool) (t : Triple) :
    Option (Bool × KVstore) :=
  kv.updateKeys insertion t t.writeKeys

/-- `ReleaseExclusiveLock`: the caller does not look at the result. -/
def KVstore.releaseExclusiveLock (kv : KVstore) (txn : Transaction) : List Key → Option KVstore
  | [] => some kv
  | key :: keys =>
    if txn.writeSetFind key then kv.releaseExclusiveLock txn keys
    else (kv.invalidValues key txn (txn.readSetFind key)).bind fun (_, kv) =>
      kv.releaseExclusiveLock txn keys

def KVstore.forKeys (f : KVstore → Key → Option (Bool × KVstore)) :
    KVstore → List Key → Option (Bool × KVstore)
  | kv, [] => some (true, kv)
  | kv, key :: keys => (f kv key).bind fun (done, kv) =>
      (forKeys f kv keys).map fun (rest, kv) => (done && rest, kv)

/-- The loops of `ReleaseAllLocks` and `TransactionInvalid` take predicates, then subjects, then
objects. The code walks `unordered_set`s; within one kind the list of the set fixes one of its
orders. -/
def inIndexOrder (keys : List Key) : List Key :=
  keys.filter (·.type = .predicate) ++ keys.filter (·.type = .subject) ++ keys.filter
    (·.type = .object)

def Transaction.sharedKeys (txn : Transaction) : List Key :=
  if txn.isSR then inIndexOrder (txn.readSet.filter fun key => !txn.writeSetFind key) else []

def Transaction.exclusiveKeys (txn : Transaction) : List Key := inIndexOrder txn.writeSet

def KVstore.forLatches (kv : KVstore) (txn : Transaction)
    (f : KVstore → Key → Option (Bool × KVstore)) :
    Option KVstore :=
  (forKeys (fun kv key => kv.releaseSharedLatch key txn) kv txn.sharedKeys).bind fun (ret1, kv) =>
    (forKeys f kv txn.exclusiveKeys).bind fun (ret2, kv) => if ret1 && ret2 then some kv else none

def KVstore.releaseAllLocks (kv : KVstore) (txn : Transaction) : Option KVstore :=
  kv.forLatches txn fun kv key => kv.releaseExclusiveLatch key txn

def KVstore.transactionInvalid (kv : KVstore) (txn : Transaction) : Option KVstore :=
  kv.forLatches txn fun kv key => kv.invalidValues key txn false

/-- The read functions, by the part they share: one search of a key and the merge of its versions.
`getpreIDlistBysubIDobjID` calls the first and the fifth of them and then searches the subject once
more. -/
inductive ReadFn where
  | getpreIDlistBysubID
  | getobjIDlistBysubID
  | getobjIDlistBysubIDpreID
  | getpreIDobjIDlistBysubID
  | getpreIDlistByobjID
  | getsubIDlistByobjID
  | getsubIDlistByobjIDpreID
  | getpreIDsubIDlistByobjID
  | getsubIDlistBypreID
  | getobjIDlistBypreID
  | getsubIDobjIDlistBypreID
  | subIDAgain
  deriving DecidableEq, Repr

def ReadFn.type : ReadFn → IDType
  | getpreIDlistBysubID | getobjIDlistBysubID | getobjIDlistBysubIDpreID | getpreIDobjIDlistBysubID | subIDAgain =>
    .subject
  | getpreIDlistByobjID | getsubIDlistByobjID | getsubIDlistByobjIDpreID | getpreIDsubIDlistByobjID =>
    .object
  | getsubIDlistBypreID | getobjIDlistBypreID | getsubIDobjIDlistBypreID => .predicate

/-- `FirstRead`. Two functions do not look at the write set, and the additional search passes
`false`. -/
def ReadFn.firstRead (fn : ReadFn) (txn : Transaction) (key : Key) : Bool :=
  match fn with
  | subIDAgain => false
  | getobjIDlistBysubIDpreID | getsubIDlistByobjIDpreID => txn.isSR && !txn.readSetFind key
  | _ => txn.isSR && !txn.readSetFind key && !txn.writeSetFind key

/-- The test before `ReadSetInsert`: two functions write `FirstRead && FirstRead` where the others
ask whether the key has been latched. -/
def ReadFn.insertsRead (fn : ReadFn) (firstRead : Bool) (r : SearchResult) : Bool :=
  match fn with
  | getsubIDlistBypreID | getobjIDlistBypreID => r.ok && firstRead
  | _ => r.latched && firstRead

def mergeSets (type : IDType) (value : Option (List Nat)) (sets : VDataSet × VDataSet) :
    Option (Option (List Nat)) :=
  match type with
  | .subject =>
    (insertBatch .sub sets.1 value).bind fun v => if sets.2 =
    [] then some v else removeS2values sets.2 v
  | .object =>
    (insertBatch .obj sets.1 value).bind fun v => if sets.2 =
    [] then some v else removeO2values sets.2 v
  | .predicate => if sets.2 = [] then some (insertP2values sets.1 value)
      else removeP2values sets.2 (insertP2values sets.1 value)

def Transaction.searched (txn : Transaction) (fn : ReadFn) (key : Key) (r : SearchResult) :
    Transaction :=
  let next := if r.aborted then { txn with state := .aborted } else txn
  if fn.insertsRead (fn.firstRead txn key) r then next.readSetInsert key else next

structure Fetched where
  found : Option SearchResult
  txn : Transaction
  kv : KVstore

/-- The search of a read function with its effects on the transaction. A subject id that is not an
entity is not searched for. -/
def KVstore.fetch (kv : KVstore) (fn : ReadFn) (id : Nat) (txn : Transaction) : Option Fetched :=
  let key : Key := ⟨fn.type, id⟩
  if fn.type = .subject ∧ !isEntityEle id then some ⟨none, txn, kv⟩
  else (kv.getValueByKeyTxn key txn (fn.firstRead txn key)).map fun (r, kv) =>
    ⟨some r, txn.searched fn key r, kv⟩

/-- The list a read function decodes; `some none` is the return value `false`, and the outer `none`
a list of undefined length. -/
def SearchResult.list (r : SearchResult) (type : IDType) : Option (Option (List Nat)) :=
  if r.ok then mergeSets type r.value r.sets else some none

def KVstore.entryAt (kv : KVstore) (key : Key) : IVEntry :=
  (kv.array (locate key).1).entry (locate key).2

def KVstore.InRange (kv : KVstore) (key : Key) : Prop :=
  (locate key).2 < (kv.array (locate key).1).curEntryNum

instance (kv : KVstore) (key : Key) : Decidable (kv.InRange key) :=
  inferInstanceAs (Decidable (_ < _))
instance (key : Key) : Decidable key.Fits := inferInstanceAs (Decidable (_ < _))

def KVstore.setEntryAt (kv : KVstore) (key : Key) (e : IVEntry) : KVstore :=
  kv.setArray (locate key).1 ((kv.array (locate key).1).setEntry (locate key).2 e)

def KVstore.reserve (kv : KVstore) (key : Key) : KVstore :=
  kv.setArray (locate key).1 ((kv.array (locate key).1).expand (locate key).2)

@[simp] theorem entryAt_setEntryAt (kv : KVstore) (key : Key) (e : IVEntry) :
    (kv.setEntryAt key e).entryAt = Function.update kv.entryAt key e := by
  funext other
  unfold entryAt setEntryAt
  rw [setArray_array]
  obtain rfl | same := eq_or_ne other key
  · simp
  · rw [update_of_ne same]
    by_cases index : (locate other).1 = (locate key).1
    · have apart : (locate other).2 ≠ (locate key).2 :=
        fun position => same (locate_injective (Prod.ext index position))
      rw [index, update_self, setEntry_entry, update_of_ne apart]
    · rw [update_of_ne index]

@[simp] theorem inRange_setEntryAt (kv : KVstore) (key other : Key) (e : IVEntry) :
    (kv.setEntryAt key e).InRange other ↔ kv.InRange other := by
  unfold KVstore.InRange setEntryAt
  rw [setArray_array]
  by_cases index : (locate other).1 = (locate key).1
  · rw [index, update_self, setEntry_curEntryNum]
  · rw [update_of_ne index]

@[simp] theorem entryAt_reserve (kv : KVstore) (key : Key) :
    (kv.reserve key).entryAt = kv.entryAt := by
  funext other
  unfold entryAt reserve
  rw [setArray_array]
  by_cases index : (locate other).1 = (locate key).1
  · rw [index, update_self, expand_entry]
  · rw [update_of_ne index]

theorem reserve_inRange (kv : KVstore) (key : Key) : (kv.reserve key).InRange key := by
  unfold KVstore.InRange reserve
  rw [setArray_array, update_self]
  exact lt_expand _ _

variable {kv : KVstore}

theorem inRange_reserve {key other : Key} (inside : kv.InRange other) :
    (kv.reserve key).InRange other := by
  rw [KVstore.InRange] at inside ⊢
  rw [reserve, setArray_array]
  by_cases index : (locate other).1 = (locate key).1
  · rw [index, update_self]
    rw [index] at inside
    exact inside.trans_le (le_expand _ _)
  · rwa [update_of_ne index]

variable {β : Type}

theorem onArray_access (kv : KVstore) (key : Key) (outside : β)
    (f : IVEntry → Option (β × IVEntry)) :
    kv.onArray key (fun a i => a.access i outside f) =
      if kv.InRange key then (f (kv.entryAt key)).map fun (r, e) => (r, kv.setEntryAt key e)
      else some (outside, kv) := by
  by_cases inside : kv.InRange key
  · rw [onArray, IVArray.access, if_neg (Nat.not_le_of_lt inside), if_pos inside, map_map]
    rfl
  · rw [onArray, IVArray.access, if_pos (Nat.le_of_not_lt inside), if_neg inside]
    simp [setArray]

variable {key : Key} {f : IVEntry → Option (β × IVEntry)}

theorem onArray_access_inside {outside : β} (inside : kv.InRange key) :
    kv.onArray key (fun a i => a.access i outside f) =
      (f (kv.entryAt key)).map fun (r, e) => (r, kv.setEntryAt key e) := by
  rw [onArray_access, if_pos inside]

theorem getExclusiveLatch_eq (kv : KVstore) (key : Key) (txn : Transaction) (hasRead : Bool) :
    kv.getExclusiveLatch key txn hasRead = if ¬ kv.InRange key ∧ ¬ key.Fits then some (false, kv)
      else ((kv.entryAt key).getExclusiveLatch txn hasRead).map fun (r, e) =>
          (r, (kv.reserve key).setEntryAt key e) := by
  have expanded : (kv.reserve key).onArray key
      (fun a i => a.access i false fun e => e.getExclusiveLatch txn hasRead) =
      ((kv.entryAt key).getExclusiveLatch txn hasRead).map fun (r, e) =>
      (r, (kv.reserve key).setEntryAt key e) := by
    rw [onArray_access_inside (reserve_inRange kv key), entryAt_reserve]
  rw [← expanded, getExclusiveLatch]
  by_cases refused : ¬ kv.InRange key ∧ ¬ key.Fits
  · rw [if_pos refused, onArray, IVArray.tryExclusiveLatch,
      if_pos ⟨Nat.le_of_not_lt refused.1, Nat.le_of_not_lt refused.2⟩]
    simp [setArray]
  · rw [if_neg refused, onArray, IVArray.tryExclusiveLatch,
      if_neg fun h => refused ⟨Nat.not_lt_of_le h.1, Nat.not_lt_of_le h.2⟩]
    simp [onArray, reserve, setArray]

variable {kv kv' : KVstore}

theorem access_cases {outside r : β}
    (call : kv.onArray key (fun a i => a.access i outside f) = some (r, kv')) :
    (¬ kv.InRange key ∧ r = outside ∧ kv' = kv) ∨
      kv.InRange key ∧ ∃ e, f (kv.entryAt key) = some (r, e) ∧ kv' = kv.setEntryAt key e := by
  rw [onArray_access] at call
  split_ifs at call with inside
  · obtain ⟨⟨r', e⟩, entry, same⟩ := map_eq_some_iff.mp call
    cases same
    exact .inr ⟨inside, e, entry, rfl⟩
  · cases call
    exact .inl ⟨inside, rfl, rfl⟩

variable {txn : Transaction} {hasRead : Bool}

theorem getExclusiveLatch_false (call : kv.getExclusiveLatch key txn hasRead = some (false, kv')) :
    (∀ k, kv.InRange k → kv'.InRange k) ∧ kv'.entryAt = kv.entryAt := by
  rw [getExclusiveLatch_eq] at call
  split at call
  · cases call
    exact ⟨fun _ h => h, rfl⟩
  · obtain ⟨⟨done, e⟩, entry, same⟩ := map_eq_some_iff.mp call
    cases same
    refine ⟨fun k h => by simpa using inRange_reserve h, ?_⟩
    rw [entryAt_setEntryAt, entryAt_reserve, getExclusiveLatch_refused entry, update_eq_self]

theorem fetch_cases {fn : ReadFn} {id : Nat} {r : Fetched} (call : kv.fetch fn id txn = some r) :
    (r.kv = kv ∧ r.txn = txn ∧
      (r.found = none ∨ ¬ kv.InRange ⟨fn.type, id⟩ ∧ r.found = some SearchResult.missing)) ∨
    kv.InRange ⟨fn.type, id⟩ ∧ ∃ found e, r.found = some found ∧
      (kv.entryAt ⟨fn.type, id⟩).search txn (fn.firstRead txn ⟨fn.type, id⟩) = some (found, e) ∧
      r.kv = kv.setEntryAt ⟨fn.type, id⟩ e ∧ r.txn = txn.searched fn ⟨fn.type, id⟩ found := by
  simp only [fetch] at call
  split at call
  · cases call
    exact .inl ⟨rfl, rfl, .inl rfl⟩
  · obtain ⟨⟨found, kv'⟩, search, rfl⟩ := map_eq_some_iff.mp call
    rcases access_cases (f := fun e => e.search _ _) search with ⟨away, rfl, rfl⟩ |
      ⟨inside, e, entry, rfl⟩
    · refine .inl ⟨rfl, ?_, .inr ⟨away, rfl⟩⟩
      cases fn <;> rfl
    · exact .inr ⟨inside, found, e, rfl, entry, rfl, rfl⟩

variable {firstRead : Bool} {r : SearchResult}

theorem search_frame {e e' : IVEntry}
    (call : e.search txn firstRead = some (r, e')) : e'.vList = e.vList ∧ e'.value = e.value := by
  obtain ⟨read, version, same⟩ := map_eq_some_iff.mp call
  cases same
  exact ⟨(readVersion_frame version).1, (readVersion_frame version).2.1⟩

theorem search_latch {e e' : IVEntry} (call : e.search txn firstRead = some (r, e')) :
    (r.latched = true ∧ r.ok = true ∧ firstRead = true ∧
      e.glatch.trysharedlatch txn.tid = some (true, e'.glatch)) ∨
    (r.latched = false ∧ e' = e ∧
      (r.ok = true → txn.isSR = true → firstRead = true →
        e.checkheadVersion txn.tid = some 0)) := by
  obtain ⟨read, version, same⟩ := map_eq_some_iff.mp call
  cases same
  rcases readVersion_latch version with ⟨latched, ok, -, first, latch⟩ | ⟨latched, same, head⟩
  · simp only [ok, if_true]
    exact .inl ⟨latched, trivial, first, latch⟩
  · refine .inr ⟨?_, same, fun ok => head ?_⟩
    · split
      · exact latched
      · rfl
    · by_contra failed
      simp [failed] at ok

theorem searched_frame (txn : Transaction) (fn : ReadFn) (key : Key) (r : SearchResult) :
    (txn.searched fn key r).tid = txn.tid ∧ (txn.searched fn key r).commitID = txn.commitID ∧
      (txn.searched fn key r).isolation = txn.isolation ∧
      (txn.searched fn key r).writeSet = txn.writeSet := by
  unfold Transaction.searched
  split
  · split <;> exact ⟨rfl, rfl, rfl, rfl⟩
  · split <;> exact ⟨rfl, rfl, rfl, rfl⟩

theorem searched_readSet (txn : Transaction) (fn : ReadFn) (key : Key) (r : SearchResult) :
    (txn.searched fn key r).readSet =
      if fn.insertsRead (fn.firstRead txn key) r then insertKey txn.readSet key else
          txn.readSet := by
  unfold Transaction.searched
  split
  · split <;> rfl
  · split <;> rfl

theorem fetch_frame {fn : ReadFn} {id : Nat} {r : Fetched} (call : kv.fetch fn id txn = some r) :
    (∀ k, r.kv.InRange k ↔ kv.InRange k) ∧
      (∀ k, (r.kv.entryAt k).vList = (kv.entryAt k).vList ∧
        (r.kv.entryAt k).value = (kv.entryAt k).value) ∧
      r.txn.tid = txn.tid ∧ r.txn.commitID = txn.commitID ∧ r.txn.isolation = txn.isolation ∧
      r.txn.writeSet = txn.writeSet ∧ (txn.readSet.Nodup → r.txn.readSet.Nodup) := by
  rcases fetch_cases call with ⟨store, record, -⟩ | ⟨inside, found, e, -, entry, store, record⟩
  · rw [store, record]
    exact ⟨fun _ => Iff.rfl, fun _ => ⟨rfl, rfl⟩, rfl, rfl, rfl, rfl, fun distinct => distinct⟩
  · rw [store, record]
    obtain ⟨tid, cid, isolation, writes⟩ := searched_frame txn fn ⟨fn.type, id⟩ found
    refine ⟨fun k => inRange_setEntryAt kv _ k e, fun k => ?_, tid, cid, isolation, writes,
        fun distinct => ?_⟩
    · obtain rfl | same := eq_or_ne k (⟨fn.type, id⟩)
      · simpa using search_frame entry
      · simp [update_of_ne same]
    · rw [searched_readSet]
      split
      · exact insertKey_nodup distinct
      · exact distinct

theorem invalidValues_true (call : kv.invalidValues key txn hasRead = some (true, kv')) :
    kv.InRange key ∧ ∃ e, (kv.entryAt key).invalidExlusiveLatch txn hasRead = some (true, e) ∧
      kv' = kv.setEntryAt key e := by
  rcases access_cases (f := fun e => e.invalidExlusiveLatch _ _) call with ⟨-, done, -⟩ | found
  · cases done
  · exact found

theorem invalidValues_false (call : kv.invalidValues key txn hasRead = some (false, kv')) :
    (∀ k, kv'.InRange k ↔ kv.InRange k) ∧ kv'.entryAt = kv.entryAt := by
  rcases access_cases (f := fun e => e.invalidExlusiveLatch _ _) call with ⟨-, -, rfl⟩ |
    ⟨-, e, entry, rfl⟩
  · exact ⟨fun _ => Iff.rfl, rfl⟩
  · refine ⟨fun k => inRange_setEntryAt kv key k e, ?_⟩
    rw [entryAt_setEntryAt, invalidExlusiveLatch_refused entry, update_eq_self]

theorem releaseExclusiveLatch_true (call : kv.releaseExclusiveLatch key txn = some (true, kv')) :
    kv.InRange key ∧ ∃ e, (kv.entryAt key).unLatchExclusive txn = some (true, e) ∧
    kv' = kv.setEntryAt key e := by
  rcases access_cases (f := fun e => e.unLatchExclusive _) call with ⟨-, done, -⟩ | found
  · cases done
  · exact found

theorem releaseExclusiveLatch_false (call : kv.releaseExclusiveLatch key txn = some (false, kv')) :
    (∀ k, kv'.InRange k ↔ kv.InRange k) ∧ kv'.entryAt = kv.entryAt := by
  rcases access_cases (f := fun e => e.unLatchExclusive _) call with ⟨-, -, rfl⟩ |
    ⟨-, e, entry, rfl⟩
  · exact ⟨fun _ => Iff.rfl, rfl⟩
  · refine ⟨fun k => inRange_setEntryAt kv key k e, ?_⟩
    rw [entryAt_setEntryAt, unLatchExclusive_refused entry, update_eq_self]

theorem releaseSharedLatch_frame {done : Bool}
    (call : kv.releaseSharedLatch key txn = some (done, kv')) :
    (∀ k, kv'.InRange k ↔ kv.InRange k) ∧
      ∀ k, (kv'.entryAt k).vList = (kv.entryAt k).vList ∧
      (kv'.entryAt k).value = (kv.entryAt k).value := by
  rcases access_cases (f := fun e => e.unLatchShared _) call with ⟨-, -, rfl⟩ | ⟨-, e, entry, rfl⟩
  · exact ⟨fun _ => Iff.rfl, fun _ => ⟨rfl, rfl⟩⟩
  · refine ⟨fun k => inRange_setEntryAt kv key k e, fun k => ?_⟩
    obtain rfl | same := eq_or_ne k key
    · simpa using unLatchShared_frame entry
    · simp [update_of_ne same]

theorem releaseExclusiveLatch_own {vs : List Version} (inside : kv.InRange key)
    (stamped : stamp txn.commitID (kv.entryAt key).vList = some vs)
    (latch : txn.isSR = true → (kv.entryAt key).glatch = ⟨txn.tid, 1⟩) :
    kv.releaseExclusiveLatch key txn = some (true, kv.setEntryAt key { kv.entryAt key with
      vList := vs, glatch := if txn.isSR then GLatch.init else (kv.entryAt key).glatch }) := by
  simp only [releaseExclusiveLatch, IVArray.releaseExclusive]
  rw [onArray_access_inside inside]
  cases sr : txn.isSR with
  | true => simp [IVEntry.unLatchExclusive, sr, latch sr, GLatch.unlatch, stamped, GLatch.init]
  | false => simp [IVEntry.unLatchExclusive, sr, stamped]

theorem invalidValues_own {key : Key} {txn : Transaction} {hasRead : Bool} (inside : kv.InRange key)
    (versions : (kv.entryAt key).vList ≠ [])
    (latch : txn.isSR = true → (kv.entryAt key).glatch = ⟨txn.tid, 1⟩) :
    kv.invalidValues key txn hasRead = some (true, kv.setEntryAt key { kv.entryAt key with
      vList := (kv.entryAt key).vList.dropLast
      glatch := if txn.isSR then ⟨⊤, if hasRead then 1 else 0⟩ else (kv.entryAt key).glatch }) := by
  simp only [invalidValues, IVArray.rollback]
  rw [onArray_access_inside inside]
  cases sr : txn.isSR with
  | true =>
    cases hasRead with
    | true =>
      simp [IVEntry.invalidExlusiveLatch, sr, latch sr, GLatch.trydowngradelatch, IVEntry.popBack,
          versions]
    | false =>
      simp [IVEntry.invalidExlusiveLatch, sr, latch sr, GLatch.unlatch, IVEntry.popBack, versions]
  | false => simp [IVEntry.invalidExlusiveLatch, sr, IVEntry.popBack, versions]

theorem releaseSharedLatch_own {n : Nat} (inside : kv.InRange key)
    (sr : txn.isSR = true) (latch : (kv.entryAt key).glatch = ⟨⊤, n + 1⟩) :
    kv.releaseSharedLatch key txn = some
    (true, kv.setEntryAt key { kv.entryAt key with glatch := ⟨⊤, n⟩ }) := by
  simp only [releaseSharedLatch, IVArray.releaseShared]
  rw [onArray_access_inside inside]
  simp [IVEntry.unLatchShared, sr, latch, GLatch.unlatch]

def Version.change (v : Version) (insertion : Bool) (p : VData) : Version :=
  if insertion then v.add p else v.remove p

theorem updateValues_cases {insertion : Bool} {t : Triple} {done : Bool}
    (call : kv.updateValues insertion t key = some (done, kv')) :
    (¬ kv.InRange key ∧ done = false) ∨
    kv.InRange key ∧ done = true ∧ ∃ last, (kv.entryAt key).vList.getLast? = some last ∧
      kv' = kv.setEntryAt key { kv.entryAt key with
        vList := (kv.entryAt key).vList.dropLast ++
        [last.change insertion (t.pair key.type)] } := by
  unfold updateValues at call
  cases insertion
  all_goals
    rcases access_cases (f := fun e => (e.writeVersion _ _).map fun e => (true, e)) call with
      ⟨away, rfl, -⟩ | ⟨inside, e, entry, rfl⟩
    · exact .inl ⟨away, rfl⟩
    · obtain ⟨e', write, same⟩ := map_eq_some_iff.mp entry
      obtain ⟨last, final, rfl⟩ := map_eq_some_iff.mp write
      cases same
      exact .inr ⟨inside, rfl, last, final, rfl⟩

theorem updateValues_done {insertion : Bool} {t : Triple} {key : Key} (inside : kv.InRange key)
    (versions : (kv.entryAt key).vList ≠ []) :
    ∃ vs, vs ≠ [] ∧ kv.updateValues insertion t key = some
    (true, kv.setEntryAt key ((kv.entryAt key).setVersions vs)) := by
  obtain ⟨last, final⟩ : ∃ last, (kv.entryAt key).vList.getLast? = some last :=
    ⟨_, List.getLast?_eq_some_getLast versions⟩
  refine ⟨(kv.entryAt key).vList.dropLast ++ [last.change insertion (t.pair key.type)], by simp, ?_⟩
  cases insertion with
  | true =>
    simp only [updateValues, KVstore.insertValues, IVArray.insertTxn, if_true]
    rw [onArray_access_inside inside, IVEntry.writeVersion, final]
    rfl
  | false =>
    simp only [updateValues, KVstore.removeValues, IVArray.removeTxn, Bool.false_eq_true, if_false]
    rw [onArray_access_inside inside, IVEntry.writeVersion, final]
    rfl

theorem forKeys_done {f : KVstore → Key → Option (Bool × KVstore)} {after : IVEntry → IVEntry}
    {keys : List Key}
    (distinct : keys.Nodup) (range : ∀ k ∈ keys, kv.InRange k) {Ready : Key → IVEntry → Prop}
    (one : ∀ kv k, k ∈ keys → kv.InRange k → Ready k (kv.entryAt k) →
      f kv k = some (true, kv.setEntryAt k (after (kv.entryAt k))))
      (ready : ∀ k ∈ keys, Ready k (kv.entryAt k)) :
    ∃ kv', forKeys f kv keys = some (true, kv') ∧
      ∀ k, kv'.entryAt k = if k ∈ keys then after (kv.entryAt k) else kv.entryAt k := by
  induction keys generalizing kv with
  | nil => exact ⟨kv, rfl, by simp⟩
  | cons key keys ih =>
    obtain ⟨fresh, distinct⟩ := List.nodup_cons.mp distinct
    have done := one kv key (by simp) (range key (by simp)) (ready key (by simp))
    generalize stored : kv.setEntryAt key (after (kv.entryAt key)) = next at done
    have others : ∀ k, k ≠ key → next.entryAt k = kv.entryAt k := fun k apart => by
      rw [← stored, entryAt_setEntryAt, update_of_ne apart]
    have reachable : ∀ k ∈ keys, next.InRange k :=
      fun k hk => by simpa [← stored] using range k (by simp [hk])
    obtain ⟨kv', rest, entries⟩ :=
        ih distinct reachable (fun kv k hk => one kv k (by simp [hk])) fun k hk => by
      rw [others k fun same => fresh (same ▸ hk)]
      exact ready k (by simp [hk])
    refine ⟨kv', ?_, fun k => ?_⟩
    · simp [forKeys, done, bind_some, rest, map_some]
    · rw [entries k]
      obtain rfl | same := eq_or_ne k key
      · simp [fresh, ← stored]
      · simp [others k same, same]

end GStore
