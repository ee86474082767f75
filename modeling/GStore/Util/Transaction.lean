import GStore.Util.Version

/-! `Transaction`: the ids, the isolation level and the key sets of one transaction. -/
namespace GStore

/-- `Transaction::IDType`. -/
inductive IDType where
  | subject
  | predicate
  | object
  deriving DecidableEq, Repr

structure Key where
  type : IDType
  id : Nat
  deriving DecidableEq, Repr

inductive IsolationLevel where
  | serializable
  | snapshot
  | readCommitted
  deriving DecidableEq, Repr

inductive TransactionState where
  | waiting
  | running
  | committed
  | aborted
  deriving DecidableEq, Repr

structure Transaction where
  tid : Timestamp
  commitID : Timestamp
  isolation : IsolationLevel
  state : TransactionState
  readSet : List Key
  writeSet : List Key
  deriving DecidableEq

variable (txn : Transaction)

def Transaction.isSR : Bool := txn.isolation == .serializable

def Transaction.readSetFind (key : Key) : Bool := decide (key ∈ txn.readSet)
def Transaction.writeSetFind (key : Key) : Bool := decide (key ∈ txn.writeSet)

/-- The sets are `unordered_set`s: an id is inserted once. -/
def insertKey (keys : List Key) (key : Key) : List Key := if key ∈ keys then keys else keys ++ [key]

def Transaction.readSetInsert (key : Key) : Transaction :=
  { txn with readSet := insertKey txn.readSet key }

def Transaction.writeSetInsert (s p o : Nat) : Transaction :=
  { txn with
    writeSet := insertKey (insertKey (insertKey txn.writeSet ⟨.subject, s⟩) ⟨.predicate, p⟩)
      ⟨.object, o⟩ }

theorem mem_insertKey {keys : List Key} {key k : Key} :
    k ∈ insertKey keys key ↔ k = key ∨ k ∈ keys := by
  unfold insertKey
  split_ifs with member
  · constructor
    · exact .inr
    · rintro (rfl | h)
      · exact member
      · exact h
  · simp [or_comm]

theorem insertKey_nodup {keys : List Key} {key : Key} (distinct : keys.Nodup) :
    (insertKey keys key).Nodup := by
  unfold insertKey
  split
  · exact distinct
  · rename_i fresh
    rw [List.nodup_append]
    refine ⟨distinct, List.nodup_singleton key, ?_⟩
    intro a ha b hb same
    exact fresh (List.mem_singleton.mp hb ▸ same ▸ ha)

end GStore
