import GStore.Txn.Latch
import GStore.Txn.Solo

/-! `try_exclusive_lock` and `try_exclusive_locks` as whole calls: which latches the caller has
afterwards, and what a refusal leaves behind. -/
namespace GStore
open Lib Function List Option IVEntry

variable (kv : KVstore)

/-- The value the loops of `try_exclusive_locks` test after one key. `sub_ret`, `obj_ret` and
`pre_ret` are not initialised, and a key of the write set leaves them as they are: `none` is a
variable without a value, whose test is undefined. -/
def KVstore.latchUnlessWritten (txn : Transaction) (ret : Option Bool) (key : Key) :
    Option (Bool × KVstore) :=
  if txn.writeSetFind key then ret.map fun granted => (granted, kv)
  else kv.getExclusiveLatch key txn (txn.readSetFind key)

/-- The loop over the subjects or the objects. A refusal undoes the keys of this loop and of the
earlier ones; the undo loops have the body of `ReleaseExclusiveLock`. -/
def KVstore.lockLoop (txn : Transaction) (earlier : List Key) :
    KVstore → Option Bool → List Key → List Key → Option (Bool × KVstore)
  | kv, _, _, [] => some (true, kv)
  | kv, ret, mine, key :: keys => (kv.latchUnlessWritten txn ret key).bind fun (granted, kv) =>
      if granted then KVstore.lockLoop txn earlier kv (some true) (mine ++ [key]) keys
      else (kv.releaseExclusiveLock txn (mine ++ earlier)).map fun kv => (false, kv)

def KVstore.lockPredicates (txn : Transaction) (earlier : List Key) :
    KVstore → Option Bool → List Key → List Key → Option KVstore
  | kv, _, _, [] => some kv
  | kv, ret, mine, key :: keys => (kv.latchUnlessWritten txn ret key).bind fun (granted, kv) =>
      if granted then KVstore.lockPredicates txn earlier kv (some true) (mine ++ [key]) keys
      else (kv.releaseExclusiveLock txn (mine ++ earlier)).bind fun kv =>
        KVstore.lockPredicates txn earlier kv (some false) (mine ++ [key]) keys

def unlessRefused (loop : Option (Bool × KVstore)) (rest : KVstore → Option (Bool × KVstore)) :
    Option (Bool × KVstore) :=
  loop.bind fun (done, kv) => if done then rest kv else some (false, kv)

def KVstore.lockLoops (txn : Transaction) (subjects objects predicates : List Key) :
    Option (Bool × KVstore) :=
  unlessRefused (KVstore.lockLoop txn [] kv none [] subjects) fun kv =>
    unlessRefused (KVstore.lockLoop txn subjects kv none [] objects) fun kv =>
      (KVstore.lockPredicates txn (subjects ++ objects) kv none [] predicates).map fun kv =>
      (true, kv)

def KVstore.tryExclusiveLocks (sids oids pids : List Nat) (txn : Transaction) :
    Option (Bool × KVstore) :=
  kv.lockLoops txn (sids.map (Key.mk .subject)) (oids.map (Key.mk .object))
    (pids.map (Key.mk .predicate))

def lockRequest (sids oids pids : List Nat) : List Key :=
  sids.map (Key.mk .subject) ++ oids.map (Key.mk .object) ++ pids.map (Key.mk .predicate)

/-- The exclusive latch of a key: the head version is private to the transaction, and the latch word
of a SERIALIZABLE one names it. -/
def KVstore.Owns (txn : Transaction) (key : Key) : Prop :=
  kv.InRange key ∧ (∃ v, (kv.entryAt key).vList.getLast? = some v ∧ v.beginTs = ⊤ ∧
      v.endTs = txn.tid) ∧
    (txn.isSR = true → (kv.entryAt key).glatch = ⟨txn.tid, 1⟩)

def KVstore.Restored (kv now : KVstore) : Prop :=
  ∀ key, (now.entryAt key).vList = (kv.entryAt key).vList ∧
    (now.entryAt key).glatch = (kv.entryAt key).glatch

/-- A lock call returns true exactly with all its keys latched, and false with everything as it was.
The transaction is only read, so its write set is out of question. -/
def AllOrNothing (txn : Transaction) (keys : List Key) (call : Option (Bool × KVstore)) : Prop :=
  ∃ done now, call = some (done, now) ∧ (done = true ↔ ∀ key ∈ keys, now.Owns txn key) ∧
    (done = false → kv.Restored now)

structure IVEntry.Foreign (e : IVEntry) (tid : Timestamp) : Prop where
  versions : e.vList ≠ []
  unowned : ∀ v ∈ e.vList, v.beginTs = ⊤ → v.endTs ≠ tid
  word : e.glatch.tid ≠ ⊤ → ∃ v, e.vList.getLast? = some v ∧ v.beginTs = ⊤

/-- The latches between two calls of a transaction: it has those of its write set and no others. -/
structure KVstore.Attends (kv : KVstore) (txn : Transaction) : Prop where
  finite : txn.tid ≠ ⊤
  written : ∀ key ∈ txn.writeSet, kv.Owns txn key
  unwritten : ∀ key, key ∉ txn.writeSet → (kv.entryAt key).Foreign txn.tid

/-- The latch of a key can be had: the array accepts the key, the head version is committed and not
newer than the transaction (any committed one does under READ COMMITTED), and for a SERIALIZABLE
transaction nobody else has a shared latch. -/
def KVstore.Grants (txn : Transaction) (key : Key) : Prop :=
  (kv.InRange key ∨ key.Fits) ∧
    (kv.entryAt key).checkVersion txn.tid (txn.isolation == .readCommitted) = some true ∧
    (txn.isSR = true → (kv.entryAt key).glatch.rcnt = if txn.readSetFind key then 1 else 0)

/-- All keys are written by the transaction or can be latched, one after the other; a granted latch
changes nothing for the next keys but the size of the array. -/
def KVstore.Lockable (txn : Transaction) : KVstore → List Key → Prop
  | _, [] => True
  | kv, key :: keys =>
    if txn.writeSetFind key then KVstore.Lockable txn kv keys
    else kv.Grants txn key ∧ KVstore.Lockable txn (kv.reserve key) keys

def KVstore.reserveAll (txn : Transaction) : KVstore → List Key → KVstore
  | kv, [] => kv
  | kv, key :: keys =>
    if txn.writeSetFind key then KVstore.reserveAll txn kv keys else KVstore.reserveAll txn
      (kv.reserve key) keys

def FirstUnwritten (txn : Transaction) (keys : List Key) : Prop :=
  ∀ key ∈ keys.head?, txn.writeSetFind key = false

instance KVstore.decidableGrants (kv : KVstore) (txn : Transaction) (key : Key) :
    Decidable (kv.Grants txn key) :=
  inferInstanceAs (Decidable (_ ∧ _ ∧ (_ → _)))

instance decidableFirstUnwritten (txn : Transaction) (keys : List Key) :
    Decidable (FirstUnwritten txn keys) :=
  inferInstanceAs (Decidable (∀ key ∈ keys.head?, txn.writeSetFind key = false))

instance KVstore.decidableLockable (txn : Transaction) :
    (kv : KVstore) → (keys : List Key) → Decidable (KVstore.Lockable txn kv keys)
  | _, [] => .isTrue trivial
  | kv, key :: keys =>
    have := KVstore.decidableLockable txn kv keys
    have := KVstore.decidableLockable txn (kv.reserve key) keys
    inferInstanceAs (Decidable (if txn.writeSetFind key then KVstore.Lockable txn kv keys
      else kv.Grants txn key ∧ KVstore.Lockable txn (kv.reserve key) keys))

theorem reserveAll_entryAt (txn : Transaction) (kv : KVstore) (keys : List Key) :
    (KVstore.reserveAll txn kv keys).entryAt = kv.entryAt := by
  induction keys generalizing kv with
  | nil => rfl
  | cons key keys ih =>
    rw [KVstore.reserveAll]
    split
    · exact ih kv
    · rw [ih (kv.reserve key), entryAt_reserve]

theorem lockable_append (txn : Transaction) (kv : KVstore) (front back : List Key) :
    KVstore.Lockable txn kv (front ++ back) ↔
      KVstore.Lockable txn kv front ∧
      KVstore.Lockable txn (KVstore.reserveAll txn kv front) back := by
  induction front generalizing kv with
  | nil => simp [KVstore.Lockable, KVstore.reserveAll]
  | cons key front ih =>
    simp only [cons_append, KVstore.Lockable, KVstore.reserveAll]
    split
    · exact ih kv
    · rw [ih (kv.reserve key), and_assoc]

variable {txn : Transaction} {keys : List Key}

theorem exists_unwritten {kv : KVstore} (refused : ¬ KVstore.Lockable txn kv keys) :
    ∃ key ∈ keys, key ∉ txn.writeSet := by
  induction keys generalizing kv with
  | nil => exact absurd trivial refused
  | cons key keys ih =>
    by_cases written : key ∈ txn.writeSet
    · simp only [KVstore.Lockable, Transaction.writeSetFind, written, decide_true,
          if_true] at refused
      obtain ⟨k, member, unwritten⟩ := ih refused
      exact ⟨k, mem_cons_of_mem key member, unwritten⟩
    · exact ⟨key, mem_cons_self, written⟩

variable {e : IVEntry} {tid : Timestamp}

theorem IVEntry.Foreign.not_private (foreign : e.Foreign tid) {vs : List Version}
    (inside : vs ⊆ e.vList) : ¬ ∃ v, vs.getLast? = some v ∧ v.beginTs = ⊤ ∧ v.endTs = tid := by
  rintro ⟨v, last, first, own⟩
  exact foreign.unowned v (inside (mem_of_getLast? last)) first own

theorem IVEntry.Foreign.free (foreign : e.Foreign tid) {isRC : Bool}
    (checked : e.checkVersion tid isRC = some true) : e.glatch.tid = ⊤ := by
  by_contra busy
  obtain ⟨v, last, first⟩ := foreign.word busy
  have own := foreign.unowned v (mem_of_getLast? last) first
  simp [checkVersion, last, first, own] at checked

theorem IVEntry.Foreign.latch (foreign : e.Foreign txn.tid) (finite : txn.tid ≠ ⊤)
    (hasRead : Bool) :
    e.getExclusiveLatch txn hasRead = if e.checkVersion txn.tid (txn.isolation == .readCommitted) =
    some true ∧
          (txn.isSR = true → e.glatch.rcnt = if hasRead then 1 else 0)
      then some (true, e.granted txn) else some (false, e) := by
  obtain ⟨checked, check⟩ :
      ∃ checked, e.checkVersion txn.tid (txn.isolation == .readCommitted) = some checked := by
    simp [checkVersion, getLast?_eq_getLast_of_ne_nil foreign.versions]
  rw [getExclusiveLatch, check, bind_some]
  cases checked with
  | false => simp
  | true =>
    have free := foreign.free check
    cases sr : txn.isSR with
    | false => simp [pushVersion, granted, sr]
    | true =>
      obtain ⟨value, vList, ⟨owner, count⟩, versioned⟩ := e
      obtain rfl : owner = ⊤ := free
      cases hasRead with
      | true =>
        by_cases single : count = 1
        · simp [GLatch.tryupgradelatch, single, pushVersion, granted, sr]
        · simp [GLatch.tryupgradelatch, single]
      | false =>
        by_cases none : count = 0
        · simp [GLatch.tryexclusivelatch, Ne.symm finite, none, pushVersion, granted, sr]
        · simp [GLatch.tryexclusivelatch, Ne.symm finite, none]

theorem inRange_reserve_iff (key k : Key) : (kv.reserve key).InRange k ↔ kv.InRange k ∨
    ¬ kv.InRange key ∧ (locate k).1 = (locate key).1 ∧
      (locate k).2 < ((locate key).2 / entryBlockSize + 1) * entryBlockSize := by
  by_cases index : (locate k).1 = (locate key).1
  · unfold KVstore.InRange KVstore.reserve
    rw [setArray_array, index, update_self, IVArray.expand]
    have block : (locate key).2 < ((locate key).2 / entryBlockSize + 1) * entryBlockSize := by
      rw [Nat.mul_comm]
      exact Nat.lt_mul_div_succ _ (by decide)
    split_ifs with inside
    · simp [inside]
    · simp only [inside, not_false_eq_true, true_and]
      exact ⟨.inr, fun h => h.elim
          (fun below => below.trans_le ((Nat.le_of_not_lt inside).trans block.le)) id⟩
  · unfold KVstore.InRange KVstore.reserve
    rw [setArray_array, update_of_ne index]
    simp [index]

theorem inRange_reserve_congr {kv now : KVstore} (range : ∀ k, now.InRange k ↔ kv.InRange k)
    (key k : Key) :
    (now.reserve key).InRange k ↔ (kv.reserve key).InRange k := by
  rw [inRange_reserve_iff, inRange_reserve_iff, range k, range key]

/-- In the course of a call: the keys of `mine` outside the write set have been latched, the others
are as they were. -/
structure KVstore.Took (kv : KVstore) (txn : Transaction) (mine : List Key) (now : KVstore) :
    Prop where
  grows : ∀ k, kv.InRange k → now.InRange k
  inside : ∀ k ∈ mine, k ∉ txn.writeSet → now.InRange k
  chain : ∀ k ∈ mine, k ∉ txn.writeSet →
    (now.entryAt k).vList = (kv.entryAt k).vList ++ [Version.fresh txn.tid]
  latch : ∀ k ∈ mine, k ∉ txn.writeSet →
    (now.entryAt k).glatch = if txn.isSR then ⟨txn.tid, 1⟩ else (kv.entryAt k).glatch
  shared : ∀ k ∈ mine, k ∉ txn.writeSet → txn.isSR = true →
    (kv.entryAt k).glatch = ⟨⊤, if txn.readSetFind k then 1 else 0⟩
  kept : ∀ k, k ∉ mine ∨ k ∈ txn.writeSet →
    (now.entryAt k).vList = (kv.entryAt k).vList ∧ (now.entryAt k).glatch = (kv.entryAt k).glatch

theorem took_nothing (txn : Transaction) : kv.Took txn [] kv :=
  ⟨fun _ h => h, by simp, by simp, by simp, by simp, fun _ _ => ⟨rfl, rfl⟩⟩

namespace KVstore.Took
variable {kv now : KVstore} {txn : Transaction} {mine keys : List Key} {key : Key}

theorem congr (t : kv.Took txn mine now) (same : ∀ k, k ∉ txn.writeSet → (k ∈ keys ↔ k ∈ mine)) :
    kv.Took txn keys now where
  grows := t.grows
  inside k member fresh := t.inside k ((same k fresh).mp member) fresh
  chain k member fresh := t.chain k ((same k fresh).mp member) fresh
  latch k member fresh := t.latch k ((same k fresh).mp member) fresh
  shared k member fresh := t.shared k ((same k fresh).mp member) fresh
  kept k away := by
    by_cases written : k ∈ txn.writeSet
    · exact t.kept k (.inr written)
    · exact t.kept k (.inl fun member =>
          away.elim (fun out => out ((same k written).mpr member)) written)

theorem restored (t : kv.Took txn [] now) : kv.Restored now := fun k => t.kept k (.inl (by simp))

theorem foreign (t : kv.Took txn mine now) (a : kv.Attends txn) (out : key ∉ mine)
    (unwritten : key ∉ txn.writeSet) :
    (now.entryAt key).Foreign txn.tid := by
  obtain ⟨chain, latch⟩ := t.kept key (.inl out)
  obtain ⟨versions, unowned, word⟩ := a.unwritten key unwritten
  constructor
  · rwa [chain]
  · rwa [chain]
  · rwa [chain, latch]

section

variable (t : kv.Took txn mine now) (a : kv.Attends txn) (range : ∀ k, now.InRange k ↔ kv.InRange k)
  (out : key ∉ mine)
include t a range out

theorem granted (unwritten : key ∉ txn.writeSet) (grants : kv.Grants txn key) :
    ∃ after, now.getExclusiveLatch key txn (txn.readSetFind key) = some (true, after) ∧
      (kv.reserve key).Took txn (mine ++ [key]) after ∧ ∀ k, after.InRange k ↔
      (kv.reserve key).InRange k := by
  obtain ⟨accepted, checked, count⟩ := grants
  obtain ⟨chain, latch⟩ := t.kept key (.inl out)
  have call : now.getExclusiveLatch key txn (txn.readSetFind key) =
      some (true, (now.reserve key).setEntryAt key ((now.entryAt key).granted txn)) := by
    have check : (now.entryAt key).checkVersion txn.tid (txn.isolation == .readCommitted) =
        some true := by
      rw [← checked, checkVersion, checkVersion, chain]
    rw [getExclusiveLatch_eq,
        if_neg fun refused => accepted.elim (fun h => refused.1 ((range key).mpr h)) refused.2,
      (t.foreign a out unwritten).latch a.finite, if_pos ⟨check, latch ▸ count⟩]
    rfl
  have ranges : ∀ k, ((now.reserve key).setEntryAt key ((now.entryAt key).granted txn)).InRange k ↔
      (kv.reserve key).InRange k := fun k => by rw [inRange_setEntryAt, inRange_reserve_congr range]
  refine ⟨_, call, ⟨fun k inside => (ranges k).mpr inside, fun k member fresh => ?_,
      fun k member fresh => ?_,
    fun k member fresh => ?_, fun k member fresh sr => ?_, fun k away => ?_⟩, ranges⟩
  · rcases mem_append.mp member with member | last
    · exact (ranges k).mpr (inRange_reserve ((range k).mp (t.inside k member fresh)))
    · rw [mem_singleton.mp last, ranges]
      exact reserve_inRange kv key
  · obtain rfl | same := eq_or_ne k key
    · simp [granted, chain]
    · simpa [update_of_ne same] using t.chain k (by simpa [same] using member) fresh
  · obtain rfl | same := eq_or_ne k key
    · simp [granted, latch]
    · simpa [update_of_ne same] using t.latch k (by simpa [same] using member) fresh
  · obtain rfl | same := eq_or_ne k key
    · rw [entryAt_reserve, ← count sr, ← (a.unwritten k fresh).free checked]
    · simpa using t.shared k (by simpa [same] using member) fresh sr
  · have apart : k ≠ key := by
      rintro rfl
      exact away.elim (fun h => h (by simp)) unwritten
    rw [entryAt_setEntryAt, update_of_ne apart, entryAt_reserve, entryAt_reserve]
    exact t.kept k (away.imp_left fun out member => out (mem_append_left [key] member))

theorem refused (unwritten : key ∉ txn.writeSet) (busy : ¬ kv.Grants txn key) :
    ∃ after, now.getExclusiveLatch key txn (txn.readSetFind key) = some (false, after) ∧
    kv.Took txn mine after := by
  obtain ⟨chain, latch⟩ := t.kept key (.inl out)
  obtain ⟨after, call⟩ : ∃ after, now.getExclusiveLatch key txn (txn.readSetFind key) = some
      (false, after) := by
    rw [getExclusiveLatch_eq]
    split
    · exact ⟨now, rfl⟩
    · rename_i accepted
      rw [(t.foreign a out unwritten).latch a.finite, if_neg]
      · exact ⟨_, rfl⟩
      · rintro ⟨check, count⟩
        refine busy ⟨?_, ?_, latch ▸ count⟩
        · by_contra outside
          exact accepted ⟨fun h => outside (.inl ((range key).mp h)), fun h => outside (.inr h)⟩
        · rw [← check, checkVersion, checkVersion, chain]
  obtain ⟨grows, same⟩ := getExclusiveLatch_false call
  exact ⟨after, call, fun k h => grows k (t.grows k h), fun k h u => grows k (t.inside k h u),
      same ▸ t.chain,
    same ▸ t.latch, t.shared, same ▸ t.kept⟩

end

theorem undo (t : kv.Took txn (key :: keys) now) (out : key ∉ keys)
    (unwritten : key ∉ txn.writeSet) :
    ∃ after, now.invalidValues key txn (txn.readSetFind key) = some (true, after) ∧
    kv.Took txn keys after := by
  have chain := t.chain key mem_cons_self unwritten
  have latch := t.latch key mem_cons_self unwritten
  refine ⟨_, @invalidValues_own now key txn _ (t.inside key mem_cons_self unwritten)
      (by simp [chain])
    (fun sr => by rw [latch, if_pos sr]), fun k h => ?_, fun k member fresh => ?_, fun k member fresh => ?_,
    fun k member fresh => ?_, fun k member => t.shared k (mem_cons_of_mem key member),
      fun k away => ?_⟩
  · rw [inRange_setEntryAt]
    exact t.grows k h
  · rw [inRange_setEntryAt]
    exact t.inside k (mem_cons_of_mem key member) fresh
  · rw [entryAt_setEntryAt, update_of_ne (ne_of_mem_of_not_mem member out)]
    exact t.chain k (mem_cons_of_mem key member) fresh
  · rw [entryAt_setEntryAt, update_of_ne (ne_of_mem_of_not_mem member out)]
    exact t.latch k (mem_cons_of_mem key member) fresh
  · rw [entryAt_setEntryAt]
    obtain rfl | same := eq_or_ne k key
    · rw [update_self]
      refine ⟨by simp [chain], ?_⟩
      cases sr : txn.isSR with
      | true => simp [t.shared k mem_cons_self unwritten sr]
      | false => simp [latch, sr]
    · rw [update_of_ne same]
      exact t.kept k (away.imp_left fun out member => out (by simpa [same] using member))

theorem releaseExclusiveLock (t : kv.Took txn keys now) (distinct : keys.Nodup) :
    ∃ after, now.releaseExclusiveLock txn keys = some after ∧ kv.Took txn [] after := by
  induction keys generalizing now with
  | nil => exact ⟨now, rfl, t⟩
  | cons key keys ih =>
    obtain ⟨out, distinct⟩ := nodup_cons.mp distinct
    rw [KVstore.releaseExclusiveLock]
    by_cases written : key ∈ txn.writeSet
    · rw [if_pos (by simpa [Transaction.writeSetFind] using written)]
      refine ih (t.congr fun k fresh => ?_) distinct
      have apart : k ≠ key := fun same => fresh (same ▸ written)
      simp [apart]
    · obtain ⟨after, undone, t⟩ := t.undo out written
      rw [if_neg (by simpa [Transaction.writeSetFind] using written), undone, bind_some]
      exact ih t distinct

theorem undoLatches (t : kv.Took txn keys now) (distinct : keys.Nodup)
    (unwritten : ∀ k ∈ keys, k ∉ txn.writeSet) :
    ∃ after, now.undoLatches txn keys = some after ∧ kv.Took txn [] after := by
  induction keys generalizing now with
  | nil => exact ⟨now, rfl, t⟩
  | cons key keys ih =>
    obtain ⟨out, distinct⟩ := nodup_cons.mp distinct
    obtain ⟨after, undone, t⟩ := t.undo out (unwritten key mem_cons_self)
    rw [KVstore.undoLatches, undone, bind_some]
    exact ih t distinct fun k member => unwritten k (mem_cons_of_mem key member)

theorem owns (t : kv.Took txn mine now) (a : kv.Attends txn) (member : key ∈ mine) :
    now.Owns txn key := by
  by_cases written : key ∈ txn.writeSet
  · obtain ⟨inside, last, word⟩ := a.written key written
    obtain ⟨chain, latch⟩ := t.kept key (.inr written)
    exact ⟨t.grows key inside, by rwa [chain], by rwa [latch]⟩
  · refine ⟨t.inside key member written, ⟨Version.fresh txn.tid, ?_, rfl, rfl⟩, fun sr => ?_⟩
    · rw [t.chain key member written, getLast?_concat]
    · rw [t.latch key member written, if_pos sr]

end KVstore.Took

theorem KVstore.Attends.reserve {kv : KVstore} (a : kv.Attends txn) (key : Key) :
    (kv.reserve key).Attends txn where
  finite := a.finite
  written k member := by
    obtain ⟨inside, last, word⟩ := a.written k member
    exact ⟨inRange_reserve inside, by rwa [entryAt_reserve], by rwa [entryAt_reserve]⟩
  unwritten k unwritten := by
    rw [entryAt_reserve]
    exact a.unwritten k unwritten

theorem KVstore.Attends.reserveAll {kv : KVstore} (a : kv.Attends txn) (keys : List Key) :
    (KVstore.reserveAll txn kv keys).Attends txn := by
  induction keys generalizing kv with
  | nil => exact a
  | cons key keys ih =>
    rw [KVstore.reserveAll]
    split
    · exact ih a
    · exact ih (a.reserve key)

theorem KVstore.Restored.of_reserve {kv now : KVstore} {key : Key}
    (restored : (kv.reserve key).Restored now) :
    kv.Restored now := fun k => entryAt_reserve kv key ▸ restored k

theorem KVstore.Attends.not_owned {kv now base : KVstore} (a : kv.Attends txn)
    (restored : kv.Restored now) (refused : ¬ KVstore.Lockable txn base keys) :
    ¬ ∀ key ∈ keys, now.Owns txn key := by
  obtain ⟨key, member, unwritten⟩ := exists_unwritten refused
  intro owned
  have last := (owned key member).2.1
  rw [(restored key).1] at last
  exact (a.unwritten key unwritten).not_private (fun _ h => h) last

theorem lockLoop_spec {txn : Transaction} {earlier keys : List Key} {kv now : KVstore}
    {ret : Option Bool}
    {mine : List Key} (a : kv.Attends txn) (t : kv.Took txn (earlier ++ mine) now)
    (range : ∀ k, now.InRange k ↔ kv.InRange k) (tested : ret = some true ∨ FirstUnwritten txn keys)
    (distinct : (earlier ++ mine ++ keys).Nodup) :
    (KVstore.Lockable txn kv keys → ∃ after, KVstore.lockLoop txn earlier now ret mine keys =
      some (true, after) ∧
      (KVstore.reserveAll txn kv keys).Took txn (earlier ++ mine ++ keys) after ∧
      ∀ k, after.InRange k ↔ (KVstore.reserveAll txn kv keys).InRange k) ∧
      (¬ KVstore.Lockable txn kv keys →
      ∃ after, KVstore.lockLoop txn earlier now ret mine keys = some (false, after) ∧
      kv.Restored after) := by
  induction keys generalizing kv now ret mine with
  | nil =>
    exact ⟨fun _ => ⟨now, rfl, by rwa [append_nil], range⟩, fun refused => absurd trivial refused⟩
  | cons key keys ih =>
    have next : earlier ++ mine ++ key :: keys = earlier ++ (mine ++ [key]) ++ keys := by simp
    have out : key ∉ earlier ++ mine := fun member =>
      (nodup_append.mp distinct).2.2 key member key mem_cons_self rfl
    have mineFirst : (mine ++ earlier).Nodup := nodup_append_comm.mp (nodup_append.mp distinct).1
    rw [next] at distinct ⊢
    simp only [KVstore.lockLoop, KVstore.latchUnlessWritten, KVstore.Lockable, KVstore.reserveAll]
    by_cases written : key ∈ txn.writeSet
    · have find : txn.writeSetFind key = true := by simpa [Transaction.writeSetFind] using written
      obtain rfl : ret = some true :=
        tested.resolve_right fun first => by simpa [find] using first key (by simp)
      simp only [find, if_true, map_some, bind_some]
      refine ih a (t.congr fun k fresh => ?_) range (.inl rfl) distinct
      have apart : k ≠ key := fun same => fresh (same ▸ written)
      simp [apart]
    · have find : txn.writeSetFind key = false := by simpa [Transaction.writeSetFind] using written
      simp only [find, Bool.false_eq_true, if_false]
      by_cases grants : kv.Grants txn key
      · obtain ⟨after, call, t', range'⟩ := t.granted a range out written grants
        rw [append_assoc] at t'
        obtain ⟨all, nothing⟩ := @ih _ _ (some true) _ (a.reserve key) t' range' (.inl rfl) distinct
        simp only [call, bind_some, if_true, grants, true_and]
        refine ⟨all, fun refused => ?_⟩
        obtain ⟨after, call, restored⟩ := nothing refused
        exact ⟨after, call, restored.of_reserve⟩
      · obtain ⟨after, call, t'⟩ := t.refused a range out written grants
        obtain ⟨undone, undo, t''⟩ :=
          (t'.congr fun k _ => by simp [or_comm]).releaseExclusiveLock mineFirst
        simp only [call, bind_some, Bool.false_eq_true, if_false, undo, map_some]
        exact ⟨fun granted => absurd granted.1 grants, fun _ => ⟨undone, rfl, t''.restored⟩⟩

variable {kv after : KVstore} {ret : Option Bool} {mine : List Key} {earlier : List Key}

theorem lockPredicates_granted
    (call : KVstore.lockLoop txn earlier kv ret mine keys = some (true, after)) :
    KVstore.lockPredicates txn earlier kv ret mine keys = some after := by
  induction keys generalizing kv ret mine with
  | nil =>
    cases call
    rfl
  | cons key keys ih =>
    obtain ⟨⟨granted, now⟩, latch, call⟩ := bind_eq_some_iff.mp call
    cases granted with
    | true =>
      rw [KVstore.lockPredicates, latch]
      exact ih call
    | false =>
      obtain ⟨undone, -, same⟩ := map_eq_some_iff.mp call
      cases same

theorem releaseExclusiveLock_versions (call : kv.releaseExclusiveLock txn keys = some after)
    (k : Key) :
    (after.entryAt k).vList ⊆ (kv.entryAt k).vList := by
  induction keys generalizing kv with
  | nil =>
    cases call
    exact fun _ h => h
  | cons key keys ih =>
    rw [KVstore.releaseExclusiveLock] at call
    split at call
    · exact ih call
    · obtain ⟨⟨done, now⟩, undo, call⟩ := bind_eq_some_iff.mp call
      refine List.Subset.trans (ih call) ?_
      cases done with
      | false =>
        rw [(invalidValues_false undo).2]
        exact fun _ h => h
      | true =>
        obtain ⟨-, e, entry, rfl⟩ := invalidValues_true undo
        rw [entryAt_setEntryAt]
        obtain rfl | same := eq_or_ne k key
        · rw [update_self, (invalidExlusiveLatch_done entry).1]
          exact dropLast_subset _
        · rw [update_of_ne same]
          exact fun _ h => h

theorem latchUnlessWritten_other {key k : Key} {done : Bool}
    (apart : k ≠ key) (call : kv.latchUnlessWritten txn ret key = some (done, after)) :
    after.entryAt k = kv.entryAt k := by
  unfold KVstore.latchUnlessWritten at call
  split at call
  · obtain ⟨granted, -, same⟩ := map_eq_some_iff.mp call
    cases same
    rfl
  · rw [getExclusiveLatch_eq] at call
    split at call
    · cases call
      rfl
    · obtain ⟨⟨granted, e⟩, -, same⟩ := map_eq_some_iff.mp call
      cases same
      rw [entryAt_setEntryAt, update_of_ne apart, entryAt_reserve]

theorem lockPredicates_versions
    (call : KVstore.lockPredicates txn earlier kv ret mine keys = some after) {k : Key}
    (out : k ∉ keys) :
    (after.entryAt k).vList ⊆ (kv.entryAt k).vList := by
  induction keys generalizing kv ret mine with
  | nil =>
    cases call
    exact fun _ h => h
  | cons key keys ih =>
    obtain ⟨apart, out⟩ : k ≠ key ∧ k ∉ keys := by simpa using out
    obtain ⟨⟨granted, now⟩, latch, call⟩ := bind_eq_some_iff.mp call
    rw [← latchUnlessWritten_other apart latch]
    cases granted with
    | true => exact ih call out
    | false =>
      obtain ⟨undone, undo, call⟩ := bind_eq_some_iff.mp call
      exact List.Subset.trans (ih call out) (releaseExclusiveLock_versions undo k)

theorem lockPredicates_refused {now : KVstore} (a : kv.Attends txn)
    (t : kv.Took txn (earlier ++ mine) now)
    (range : ∀ k, now.InRange k ↔ kv.InRange k) (tested : ret ≠ some false)
    (distinct : (earlier ++ mine ++ keys).Nodup)
    (refused : ¬ KVstore.Lockable txn kv keys)
    (call : KVstore.lockPredicates txn earlier now ret mine keys = some after) :
    ¬ ∀ key ∈ keys, after.Owns txn key := by
  induction keys generalizing kv now ret mine with
  | nil => exact absurd trivial refused
  | cons key keys ih =>
    have next : earlier ++ mine ++ key :: keys = earlier ++ (mine ++ [key]) ++ keys := by simp
    obtain ⟨-, own, disjoint⟩ := nodup_append.mp distinct
    have fresh := (nodup_cons.mp own).1
    have out : key ∉ earlier ++ mine := fun member => disjoint key member key mem_cons_self rfl
    rw [next] at distinct
    obtain ⟨⟨granted, latched⟩, latch, call⟩ := bind_eq_some_iff.mp call
    have rest : (¬ ∀ k ∈ keys, after.Owns txn k) → ¬ ∀ k ∈ key :: keys, after.Owns txn k :=
      fun missing owned => missing fun k member => owned k (mem_cons_of_mem key member)
    by_cases written : key ∈ txn.writeSet
    · have find : txn.writeSetFind key = true := by simpa [Transaction.writeSetFind] using written
      simp only [KVstore.Lockable, find, if_true] at refused
      rw [KVstore.latchUnlessWritten, if_pos find] at latch
      obtain ⟨value, rfl, same⟩ := map_eq_some_iff.mp latch
      cases same
      cases granted with
      | false => exact absurd rfl tested
      | true =>
        refine rest (ih a (t.congr fun k unwritten => ?_) range (by simp) distinct refused call)
        have apart : k ≠ key := fun same => unwritten (same ▸ written)
        simp [apart]
    · have find : ¬ txn.writeSetFind key = true := by simpa [Transaction.writeSetFind] using written
      simp only [KVstore.Lockable, if_neg find] at refused
      rw [KVstore.latchUnlessWritten, if_neg find] at latch
      by_cases grants : kv.Grants txn key
      · obtain ⟨_, found, t', range'⟩ := t.granted a range out written grants
        cases found.symm.trans latch
        rw [append_assoc] at t'
        exact rest (ih (a.reserve key) t' range'
            (by simp) distinct (fun h => refused ⟨grants, h⟩) call)
      · obtain ⟨_, found, t'⟩ := t.refused a range out written grants
        cases found.symm.trans latch
        obtain ⟨undone, undo, call⟩ := bind_eq_some_iff.mp call
        intro owned
        have shrinks := List.Subset.trans (lockPredicates_versions call fresh)
          (releaseExclusiveLock_versions undo key)
        exact (t'.foreign a out written).not_private shrinks (owned key mem_cons_self).2.1

theorem tryExclusiveLatches_spec {now : KVstore}
    (a : kv.Attends txn) (t : kv.Took txn mine now) (range : ∀ k, now.InRange k ↔ kv.InRange k)
    (unwritten : ∀ k ∈ mine, k ∉ txn.writeSet) (distinct : (mine ++ keys).Nodup) :
    (KVstore.Lockable txn kv keys →
      ∃ after, now.tryExclusiveLatches txn keys mine = some (true, after) ∧
      (KVstore.reserveAll txn kv keys).Took txn (mine ++ keys) after) ∧
      (¬ KVstore.Lockable txn kv keys →
      ∃ after, now.tryExclusiveLatches txn keys mine = some (false, after) ∧
      kv.Restored after) := by
  induction keys generalizing kv now mine with
  | nil => exact ⟨fun _ => ⟨now, rfl, by rwa [append_nil]⟩, fun refused => absurd trivial refused⟩
  | cons key keys ih =>
    have next : mine ++ key :: keys = mine ++ [key] ++ keys := by simp
    have out : key ∉ mine := fun member =>
      (nodup_append.mp distinct).2.2 key member key mem_cons_self rfl
    simp only [KVstore.tryExclusiveLatches, KVstore.Lockable, KVstore.reserveAll]
    by_cases written : key ∈ txn.writeSet
    · simp only [Transaction.writeSetFind, written, decide_true, if_true]
      obtain ⟨all, nothing⟩ := ih a t range unwritten (distinct.sublist (by simp))
      refine ⟨fun lockable => ?_, nothing⟩
      obtain ⟨after, call, t'⟩ := all lockable
      refine ⟨after, call, t'.congr fun k fresh => ?_⟩
      have apart : k ≠ key := fun same => fresh (same ▸ written)
      simp [apart]
    · simp only [Transaction.writeSetFind, written, decide_false, Bool.false_eq_true, if_false]
      by_cases grants : kv.Grants txn key
      · obtain ⟨after, call, t', range'⟩ := t.granted a range out written grants
        have own : ∀ k ∈ mine ++ [key], k ∉ txn.writeSet := by
          simpa [or_imp, forall_and] using ⟨unwritten, written⟩
        rw [next] at distinct ⊢
        obtain ⟨all, nothing⟩ := ih (a.reserve key) t' range' own distinct
        simp only [call, bind_some, if_true, grants, true_and]
        refine ⟨all, fun refused => ?_⟩
        obtain ⟨after, call, restored⟩ := nothing refused
        exact ⟨after, call, restored.of_reserve⟩
      · obtain ⟨after, call, t'⟩ := t.refused a range out written grants
        obtain ⟨undone, undo, t''⟩ := t'.undoLatches (nodup_append.mp distinct).1 unwritten
        simp only [call, bind_some, Bool.false_eq_true, if_false, undo, map_some]
        exact ⟨fun granted => absurd granted.1 grants, fun _ => ⟨undone, rfl, t''.restored⟩⟩

theorem tryExclusiveLock_allOrNothing (a : kv.Attends txn) (t : Triple) :
    AllOrNothing kv txn t.lockKeys (kv.tryExclusiveLock t txn) := by
  have distinct : t.lockKeys.Nodup := by simp [Triple.lockKeys, Triple.key]
  obtain ⟨all, nothing⟩ := tryExclusiveLatches_spec a (took_nothing kv txn) (fun _ => Iff.rfl)
    (by simp) distinct
  by_cases lockable : KVstore.Lockable txn kv t.lockKeys
  · obtain ⟨after, call, took⟩ := all lockable
    refine ⟨true, after, call, iff_of_true rfl fun key member => took.owns (a.reserveAll _) member,
        fun no => ?_⟩
    cases no
  · obtain ⟨after, call, restored⟩ := nothing lockable
    exact ⟨false, after, call,
        iff_of_false (by simp) (a.not_owned restored lockable), fun _ => restored⟩

/-- Each loop of `try_exclusive_locks` that is reached begins with a key outside the write set, and
the loop over the predicates, if it is reached, can latch them all. -/
def LocksCleanly (kv : KVstore) (txn : Transaction) (subjects objects predicates : List Key) :
    Prop :=
  FirstUnwritten txn subjects ∧ (KVstore.Lockable txn kv subjects →
    FirstUnwritten txn objects ∧ (KVstore.Lockable txn kv (subjects ++ objects) →
      FirstUnwritten txn predicates ∧ KVstore.Lockable txn kv (subjects ++ objects ++ predicates)))

instance decidableLocksCleanly (kv : KVstore) (txn : Transaction)
    (subjects objects predicates : List Key) :
    Decidable (LocksCleanly kv txn subjects objects predicates) :=
  inferInstanceAs (Decidable (_ ∧ (_ → _ ∧ (_ → _ ∧ _))))

theorem not_allOrNothing_undefined (kv : KVstore) (txn : Transaction) (keys : List Key) :
    ¬ AllOrNothing kv txn keys none := by
  rintro ⟨done, now, call, -⟩
  cases call

theorem latch_uninitialised (first : ¬ FirstUnwritten txn keys) (kv : KVstore) :
    ∃ key rest, keys = key :: rest ∧ kv.latchUnlessWritten txn none key = none := by
  cases keys with
  | nil => exact absurd (by simp [FirstUnwritten]) first
  | cons key rest =>
    have written : txn.writeSetFind key = true := by simpa [FirstUnwritten] using first
    exact ⟨key, rest, rfl, by rw [KVstore.latchUnlessWritten, if_pos written, map_none]⟩

section Stages

variable {kv base now : KVstore} {txn : Transaction} {earlier keys later : List Key}
  (a : base.Attends txn) (t : base.Took txn earlier now)
    (range : ∀ k, now.InRange k ↔ base.InRange k)
include a t range

theorem predicates_stage (distinct : (earlier ++ keys).Nodup) :
    AllOrNothing kv txn (earlier ++ keys)
        ((KVstore.lockPredicates txn earlier now none [] keys).map fun kv => (true, kv)) ↔
      FirstUnwritten txn keys ∧ KVstore.Lockable txn base keys := by
  have nothing_yet : base.Took txn (earlier ++ []) now := by rwa [append_nil]
  have distinct' : (earlier ++ [] ++ keys).Nodup := by rwa [append_nil]
  constructor
  · rintro ⟨done, after, call, owned, -⟩
    obtain ⟨_, loop, same⟩ := map_eq_some_iff.mp call
    cases same
    have first : FirstUnwritten txn keys := by
      by_contra written
      obtain ⟨key, rest, rfl, undefined⟩ := latch_uninitialised written now
      rw [KVstore.lockPredicates, undefined] at loop
      cases loop
    refine ⟨first, by_contra fun refused => ?_⟩
    exact lockPredicates_refused a nothing_yet range (by simp) distinct' refused loop
      fun key member => owned.mp rfl key (mem_append_right earlier member)
  · rintro ⟨first, lockable⟩
    obtain ⟨after, call, took, -⟩ :=
      (lockLoop_spec a nothing_yet range (.inr first) distinct').1 lockable
    rw [append_nil] at took
    refine ⟨true, after, by rw [lockPredicates_granted call]; rfl,
      iff_of_true rfl fun key member => took.owns (a.reserveAll keys) member, fun no => ?_⟩
    cases no

theorem loop_stage (same : base.entryAt = kv.entryAt) (distinct : (earlier ++ keys).Nodup)
    {rest : KVstore → Option (Bool × KVstore)} {Next : Prop}
    (goes_on : ∀ after, (KVstore.reserveAll txn base keys).Took txn (earlier ++ keys) after →
      (∀ k, after.InRange k ↔ (KVstore.reserveAll txn base keys).InRange k) →
      (AllOrNothing kv txn (earlier ++ keys ++ later) (rest after) ↔ Next)) :
    AllOrNothing kv txn (earlier ++ keys ++ later)
        (unlessRefused (KVstore.lockLoop txn earlier now none [] keys) rest) ↔
      FirstUnwritten txn keys ∧ (KVstore.Lockable txn base keys → Next) := by
  by_cases first : FirstUnwritten txn keys
  · obtain ⟨all, nothing⟩ :=
      @lockLoop_spec txn earlier keys base now none [] a (by rwa [append_nil]) range
      (.inr first) (by rwa [append_nil])
    rw [append_nil] at all
    by_cases lockable : KVstore.Lockable txn base keys
    · obtain ⟨after, call, took, grown⟩ := all lockable
      simpa [unlessRefused, call, first, lockable] using goes_on after took grown
    · obtain ⟨after, call, restored⟩ := nothing lockable
      rw [call]
      refine iff_of_true ⟨false, after, rfl,
          iff_of_false (by simp) fun owned => ?_, fun _ k => same ▸ restored k⟩
        ⟨first, fun h => absurd h lockable⟩
      exact a.not_owned restored lockable fun key member => owned key (by simp [member])
  · obtain ⟨key, tail, rfl, undefined⟩ := latch_uninitialised first now
    rw [KVstore.lockLoop, undefined]
    exact iff_of_false (not_allOrNothing_undefined kv txn _) fun h => first h.1

end Stages

theorem reserveAll_append (txn : Transaction) (kv : KVstore) (front back : List Key) :
    KVstore.reserveAll txn kv (front ++ back) = KVstore.reserveAll txn
    (KVstore.reserveAll txn kv front) back := by
  induction front generalizing kv with
  | nil => rfl
  | cons key front ih =>
    simp only [cons_append, KVstore.reserveAll]
    split
    · exact ih kv
    · exact ih (kv.reserve key)

theorem lockLoops_allOrNothing (a : kv.Attends txn)
    {subjects objects predicates : List Key}
    (distinct : (subjects ++ objects ++ predicates).Nodup) :
    AllOrNothing kv txn (subjects ++ objects ++ predicates)
    (kv.lockLoops txn subjects objects predicates) ↔
      LocksCleanly kv txn subjects objects predicates := by
  obtain ⟨front, -, -⟩ := nodup_append.mp distinct
  obtain ⟨own, -, -⟩ := nodup_append.mp front
  have stages : LocksCleanly kv txn subjects objects predicates ↔
      FirstUnwritten txn subjects ∧ (KVstore.Lockable txn kv subjects →
        FirstUnwritten txn objects ∧
        (KVstore.Lockable txn (KVstore.reserveAll txn kv subjects) objects →
          FirstUnwritten txn predicates ∧
            KVstore.Lockable txn (KVstore.reserveAll txn
              (KVstore.reserveAll txn kv subjects) objects) predicates)) := by
    rw [LocksCleanly, lockable_append txn kv (subjects ++ objects), lockable_append,
        reserveAll_append]
    tauto
  rw [stages, append_assoc]
  refine @loop_stage kv kv kv txn [] subjects (objects ++ predicates) a (took_nothing kv txn)
    (fun _ => Iff.rfl) rfl own
    _ _ fun after took range => ?_
  rw [nil_append, ← append_assoc]
  refine loop_stage (a.reserveAll subjects) took range (reserveAll_entryAt txn kv subjects) front
    fun after took range => ?_
  exact predicates_stage ((a.reserveAll subjects).reserveAll objects) took range distinct

theorem lockRequest_nodup {sids oids pids : List Nat} (subjects : sids.Nodup) (objects : oids.Nodup)
    (predicates : pids.Nodup) : (lockRequest sids oids pids).Nodup := by
  have keys : ∀ (type : IDType) {ids : List Nat}, ids.Nodup → (ids.map (Key.mk type)).Nodup :=
      fun type ids distinct =>
    distinct.map fun i j same => (Key.mk.inj same).2
  refine ((keys .subject subjects).append (keys .object objects) ?_).append
    (keys .predicate predicates) ?_
  · simp [disjoint_left]
  · intro key front back
    obtain ⟨p, -, rfl⟩ := mem_map.mp back
    simp at front

theorem Sys.Chained.committed_begun {s : Sys} (c : s.Chained) {key : Key} {v : Version}
    (member : v ∈ link (s.committed key)) : v.beginTs ≠ ⊤ := by
  have begun : v.beginTs ∈ (s.committed key).map Stamped.cid := by
    rw [← link_beginTs]
    exact mem_map_of_mem member
  obtain ⟨w, inside, same⟩ := mem_map.mp begun
  rw [← same]
  exact (c.committed_cids key).1 w inside

theorem Sys.Latched.attends {s : Sys} (l : s.Latched) {tid : Nat}
    (idle : (s.session tid).phase = .idle) :
    s.kv.Attends (s.session tid).txn := by
  have own : (s.session tid).txn.tid = (tid : Nat) := (l.chained.sound tid).tid (by simp [idle])
  have held : (s.session tid).held = (s.session tid).txn.writeSet := by rw [Session.held, idle]
  refine ⟨by simp [own], fun key member => ?_, fun key unwritten => ?_⟩
  · rw [← held] at member
    refine ⟨l.chained.range tid key member, ⟨(s.session tid).ownVersion tid key, ?_, rfl, own.symm⟩,
        fun sr => ?_⟩
    · rw [l.chained.owned tid key member, getLast?_concat]
    · rw [own]
      exact (l.owner tid key ⟨sr, member⟩).1
  · rw [← held] at unwritten
    by_cases busy : ∃ X, key ∈ (s.session X).held
    · obtain ⟨X, holds⟩ := busy
      have chain := l.chained.owned X key holds
      refine ⟨by simp [chain], fun v member first => ?_, fun _ => ⟨(s.session X).ownVersion X key, ?_, rfl⟩⟩
      · rw [chain, mem_append, mem_singleton] at member
        rcases member with old | rfl
        · exact absurd first (l.chained.committed_begun old)
        · rw [own]
          intro same
          have same : X = tid := by simpa [Session.ownVersion] using same
          exact unwritten (same ▸ holds)
      · rw [chain, getLast?_concat]
    · have chain := l.chained.free key (by simpa using busy)
      refine ⟨?_, fun v member first => ?_, fun word => absurd ?_ word⟩
      · rw [chain]
        exact link_ne_nil
      · rw [chain] at member
        exact absurd first (l.chained.committed_begun member)
      · rw [l.shared key fun X owns => busy ⟨X, owns.2⟩]

/-- Between two calls of a transaction, `try_exclusive_lock` is all or nothing for every triple, and
`try_exclusive_locks`, whose lists `batch_insert` takes from `unordered_set`s, exactly when its
loops run cleanly. -/
theorem locks_all_or_nothing_iff {kv : KVstore} {txn : Transaction} (between : kv.Attends txn) :
    (∀ t : Triple, AllOrNothing kv txn t.lockKeys (kv.tryExclusiveLock t txn)) ∧
    ∀ sids oids pids : List Nat, sids.Nodup → oids.Nodup → pids.Nodup →
      (AllOrNothing kv txn (lockRequest sids oids pids) (kv.tryExclusiveLocks sids oids pids txn) ↔
        LocksCleanly kv txn (sids.map (Key.mk .subject)) (oids.map (Key.mk .object))
        (pids.map (Key.mk .predicate))) :=
  ⟨tryExclusiveLock_allOrNothing between, fun _ _ _ subjects objects predicates =>
    lockLoops_allOrNothing between (lockRequest_nodup subjects objects predicates)⟩

/-- A transaction has inserted a triple and not yet committed when a second one begins. -/
def uncommittedInsert : List Act :=
  .begin .snapshot :: .update 1 ⟨true, ⟨0, 0, 1⟩⟩ :: List.replicate 8
    (.advance 1) ++ [.begin .snapshot]

/-- The second one can latch keys of its own. -/
theorem locks_all_or_nothing_disjoint :
    ∃ s, run Sys.step (Sys.init KVstore.empty) uncommittedInsert = some s ∧
      AllOrNothing s.kv (s.session 2).txn (lockRequest [5] [6] [7])
        (s.kv.tryExclusiveLocks [5] [6] [7] (s.session 2).txn) := by
  have met : Guarded Sys.step LatchGuard (Sys.init KVstore.empty) uncommittedInsert := by
    decide +kernel
  obtain ⟨s, ran, l⟩ := run_latched empty_unversioned met
  have observed : (run Sys.step (Sys.init KVstore.empty) uncommittedInsert).map (fun s =>
      decide ((s.session 2).phase = .idle ∧ LocksCleanly s.kv (s.session 2).txn
        ([5].map (Key.mk .subject)) ([6].map (Key.mk .object)) ([7].map (Key.mk .predicate)))) =
        some true := by
    decide +kernel
  rw [ran, map_some] at observed
  obtain ⟨idle, clean⟩ := of_decide_eq_true (Option.some.inj observed)
  exact ⟨s, ran, ((locks_all_or_nothing_iff (l.attends idle)).2 [5] [6] [7]
      (by simp) (by simp) (by simp)).mpr clean⟩

/-- With the predicate of the first one in its list, the call returns true and the second one has
none of the latches. -/
theorem refused_predicate_returns_true :
    ∃ s now, run Sys.step (Sys.init KVstore.empty) uncommittedInsert = some s ∧
      s.kv.tryExclusiveLocks [5] [6] [0] (s.session 2).txn = some (true, now) ∧
      (∀ key ∈ lockRequest [5] [6] [0], ¬ now.Owns (s.session 2).txn key) ∧
      ¬ AllOrNothing s.kv (s.session 2).txn (lockRequest [5] [6] [0])
        (s.kv.tryExclusiveLocks [5] [6] [0] (s.session 2).txn) := by
  have observed : ((run Sys.step (Sys.init KVstore.empty) uncommittedInsert).bind fun s =>
      (s.kv.tryExclusiveLocks [5] [6] [0] (s.session 2).txn).map fun (done, now) => decide
      (done = true ∧
        ∀ key ∈ lockRequest [5] [6] [0], (now.entryAt key).vList.getLast?.map Version.endTs ≠
          some (s.session 2).txn.tid)) = some true := by decide +kernel
  obtain ⟨s, ran, observed⟩ := bind_eq_some_iff.mp observed
  obtain ⟨⟨done, now⟩, call, same⟩ := map_eq_some_iff.mp observed
  obtain ⟨rfl, heads⟩ := of_decide_eq_true same
  have missing : ∀ key ∈ lockRequest [5] [6] [0], ¬ now.Owns (s.session 2).txn key := by
    rintro key member ⟨-, ⟨v, last, -, own⟩, -⟩
    exact heads key member (by rw [last, map_some, own])
  refine ⟨s, now, ran, call, missing, ?_⟩
  rintro ⟨done', now', again, owned, -⟩
  cases call.symm.trans again
  exact missing ⟨.predicate, 0⟩ (by decide) (owned.mp rfl ⟨.predicate, 0⟩ (by decide))

end GStore
