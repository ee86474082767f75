import GStore.KVstore.IVEntry

/-! `IVArray`: the entries of one index. Entries at or above `curEntryNum` are not allocated. -/
namespace GStore

structure IVArray where
  entry : Nat → IVEntry
  curEntryNum : Nat

def entryBlockSize : Nat := 102400
def maxKeyNum : Nat := 2 ^ 31

def IVArray.empty : IVArray := ⟨fun _ => IVEntry.init, 0⟩

variable (a : IVArray) (key : Nat)

def IVArray.setEntry (e : IVEntry) : IVArray :=
  { a with entry := Function.update a.entry key e }

def IVArray.expand : IVArray :=
  if key < a.curEntryNum then a else
    { a with curEntryNum := (key / entryBlockSize + 1) * entryBlockSize }

def IVArray.search : Option (List Nat) :=
  if a.curEntryNum ≤ key then none else (a.entry key).value

def IVArray.insert (value : List Nat) : Bool × IVArray :=
  if key < a.curEntryNum ∧ (a.entry key).isUsed then (false, a)
  else if maxKeyNum ≤ key then (false, a)
  else
    let b := a.expand key
    (true, b.setEntry key ((b.entry key).setValue (some value)))

def IVArray.remove : Bool × IVArray :=
  if !(a.entry key).isUsed then (false, a)
  else (true, a.setEntry key ((a.entry key).setValue none))

def IVArray.modify (value : List Nat) : Bool × IVArray :=
  if !(a.entry key).isUsed then (false, a)
  else (true, a.setEntry key ((a.entry key).setValue (some value)))

def IVArray.Allocated : Prop := ∀ key, a.curEntryNum ≤ key → a.entry key = IVEntry.init

@[simp] theorem setEntry_entry (e : IVEntry) :
  (a.setEntry key e).entry = Function.update a.entry key e := rfl
@[simp] theorem setEntry_curEntryNum (e : IVEntry) :
  (a.setEntry key e).curEntryNum = a.curEntryNum := rfl

@[simp] theorem expand_entry : (a.expand key).entry = a.entry := by
  unfold IVArray.expand
  split <;> rfl

theorem lt_expand : key < (a.expand key).curEntryNum := by
  unfold IVArray.expand
  split
  · assumption
  · rw [Nat.mul_comm]
    exact Nat.lt_mul_div_succ key (by decide)

theorem le_expand : a.curEntryNum ≤ (a.expand key).curEntryNum := by
  by_cases inside : key < a.curEntryNum
  · rw [IVArray.expand, if_pos inside]
  · exact (Nat.le_of_not_lt inside).trans (lt_expand a key).le

variable {a : IVArray}

variable (allocated : a.Allocated)
include allocated

theorem search_eq (key : Nat) : a.search key = (a.entry key).value := by
  unfold IVArray.search
  split_ifs with outside
  · rw [allocated key outside]
    rfl
  · rfl

omit allocated in
theorem empty_allocated : IVArray.empty.Allocated := fun _ _ => rfl

theorem expand_allocated (key : Nat) : (a.expand key).Allocated := by
  intro other outside
  rw [expand_entry]
  exact allocated other (le_trans (le_expand a key) outside)

theorem setEntry_allocated {key : Nat} (inside : key < a.curEntryNum)
    (e : IVEntry) : (a.setEntry key e).Allocated := by
  intro other outside
  have away : other ≠ key := fun same => Nat.not_le_of_lt inside (same ▸ outside)
  rw [setEntry_entry, Function.update_of_ne away]
  exact allocated other outside

theorem used_lt {key : Nat} (used : (a.entry key).isUsed = true) : key < a.curEntryNum := by
  by_contra outside
  rw [allocated key (Nat.le_of_not_lt outside)] at used
  cases used

end GStore
