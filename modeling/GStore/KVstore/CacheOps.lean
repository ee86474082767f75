import GStore.KVstore.CacheCoherence

/-! What the functions of a cached array do to the map it holds. -/
namespace GStore

open Lib BlockManager Function

namespace CacheArray

variable {kind : BlockKind}

def keyLimit : Nat := maxKeyNum / entryBlockSize * entryBlockSize

structure Filed (a : CacheArray kind) : Prop where
  whole : ∃ n, 0 < n ∧ a.curEntryNum = n * entryBlockSize
  wholeAhead : ∃ n, a.entryNum = n * entryBlockSize
  ahead : a.curEntryNum ≤ a.entryNum
  small : a.entryNum ≤ keyLimit
  unallocated : ∀ k, a.curEntryNum ≤ k → (a.entry k).used = false ∧ (a.entry k).dirty = true
  saved : ∀ k, (a.entry k).dirty = false → a.files.store k = (a.entry k).store
  counted : a.curEntryNumChange = false → a.files.entryNum = a.curEntryNum

def Represents (a : CacheArray kind) (m : Nat → Option (List UInt8)) : Prop :=
  a.Filed ∧ ∃ live order, a.Coherent live m order none

variable {a : CacheArray kind}

theorem Represents.used {m : Nat → Option (List UInt8)} {key : Nat} {v : List UInt8}
    (held : a.Represents m) (known : m key = some v) : (a.entry key).used = true := by
  obtain ⟨-, live, order, ok⟩ := held
  exact (ok.keeps (by simp) known).used

theorem Filed.lt_limit (filed : a.Filed) {k : Nat} (inside : k < a.curEntryNum) :
    k < maxKeyNum := by
  have ahead := filed.ahead
  have small := filed.small
  have limit : keyLimit ≤ maxKeyNum := Nat.div_mul_le_self ..
  omega

theorem Filed.used_lt (filed : a.Filed) {k : Nat} (used : (a.entry k).used = true) :
    k < a.curEntryNum := by
  by_contra outside
  have unused := (filed.unallocated k (Nat.le_of_not_lt outside)).1
  rw [used] at unused
  cases unused

theorem Filed.transfer {b : CacheArray kind} {key : Nat} (filed : a.Filed)
    (entryNum : b.entryNum = a.entryNum)
    (curEntryNum : b.curEntryNum = a.curEntryNum)
    (change : b.curEntryNumChange = a.curEntryNumChange) (files : b.files = a.files)
    (inside : key < a.curEntryNum) (touched : (b.entry key).dirty = true)
    (others : ∀ k, k ≠ key → (b.entry k).used = (a.entry k).used ∧
      (b.entry k).dirty = (a.entry k).dirty ∧
      ((a.entry k).dirty = false → (b.entry k).store = (a.entry k).store)) : b.Filed where
  whole := curEntryNum ▸ filed.whole
  wholeAhead := entryNum ▸ filed.wholeAhead
  ahead := by
    rw [curEntryNum, entryNum]
    exact filed.ahead
  small := entryNum ▸ filed.small
  unallocated k outside := by
    rw [curEntryNum] at outside
    have differs : k ≠ key := fun same => Nat.not_le_of_lt inside (same ▸ outside)
    rw [(others k differs).1, (others k differs).2.1]
    exact filed.unallocated k outside
  saved k clean := by
    have differs : k ≠ key := fun same => by
      rw [same, touched] at clean
      cases clean
    obtain ⟨-, dirty, store⟩ := others k differs
    rw [dirty] at clean
    rw [files, store clean]
    exact filed.saved k clean
  counted same := by
    rw [change] at same
    rw [files, curEntryNum]
    exact filed.counted same

theorem Filed.setDirty {manager : BlockManager kind} {key : Nat} {e : CacheEntry} (filed : a.Filed)
    (inside : key < a.curEntryNum) (dirty : e.dirty = true) :
    ((a.setManager manager).setEntry key e).Filed := by
  refine filed.transfer rfl rfl rfl rfl inside ?_ fun k differs => ?_
  · exact (congrArg CacheEntry.dirty (update_self ..)).trans dirty
  · have same : ((a.setManager manager).setEntry key e).entry k = a.entry k :=
      update_of_ne differs ..
    rw [same]
    exact ⟨rfl, rfl, fun _ => rfl⟩

theorem Evicts.filed {b : CacheArray kind} {live live' : Nat → Option (List UInt8)}
    {order : List Nat}
    (evicts : a.Evicts b live live' order) (filed : a.Filed) : b.Filed where
  whole := evicts.curEntryNum ▸ filed.whole
  wholeAhead := evicts.entryNum ▸ filed.wholeAhead
  ahead := by
    rw [evicts.curEntryNum, evicts.entryNum]
    exact filed.ahead
  small := evicts.entryNum ▸ filed.small
  unallocated k outside := by
    rw [evicts.used, evicts.dirty]
    exact filed.unallocated k (evicts.curEntryNum ▸ outside)
  saved k clean := by
    rw [evicts.dirty] at clean
    rw [evicts.files, evicts.clean k clean]
    exact filed.saved k clean
  counted same := by
    rw [evicts.change] at same
    rw [evicts.files, evicts.curEntryNum]
    exact filed.counted same

section Search

variable {a : CacheArray kind} {live m : Nat → Option (List UInt8)} {order : List Nat}
    {hole : Option Nat} {k : Nat}

theorem Coherent.unknown_of_unused (ok : a.Coherent live m order hole) (away : hole ≠ some k)
    (unused : (a.entry k).used = false) : m k = none := by
  cases known : m k with
  | none => rfl
  | some v => exact absurd ((ok.keeps away known).used.symm.trans unused) (by decide)

variable {key : Nat}

theorem Coherent.reorder {lru : LinkedList Nat} {front back : List Nat}
    (ok : a.Coherent live m (front ++ key :: back) none)
    (listed : lru.Lists (front ++ back ++ [key])) :
    (a.setQueue lru).Coherent live m (front ++ back ++ [key]) none := by
  have perm : (front ++ key :: back).Perm (front ++ back ++ [key]) :=
    List.perm_middle.trans (List.perm_append_singleton key (front ++ back)).symm
  refine ⟨ok.exclusive, ok.below, listed, fun k away => ?_, fun k none => (nomatch none),
      fun k there => ?_, ?_, ok.holds,
    ok.owner, ok.fitting⟩
  · rw [← perm.mem_iff]
    exact ok.queued k away
  · exact ok.keys k (perm.mem_iff.mpr there)
  · rw [← (perm.map _).sum_nat]
    exact ok.size

theorem updateTime_spec (ok : a.Coherent live m order none) (cached : (a.entry key).cached = true) :
    ∃ lru order', a.updateTime key = some (a.setQueue lru) ∧
    (a.setQueue lru).Coherent live m order' none := by
  unfold updateTime
  cases pinned : (a.entry key).pinned with
  | true => exact ⟨a.lru, order, rfl, ok⟩
  | false =>
    obtain ⟨front, back, rfl⟩ := List.append_of_mem ((ok.queued key (by simp)).mpr ⟨cached, pinned⟩)
    obtain ⟨lru, moved, listed⟩ := ok.listed.moveToBack
    exact ⟨lru, front ++ back ++ [key], by simp [moved], ok.reorder listed⟩

def SearchFits (a : CacheArray kind) (key : Nat) : Prop :=
  (a.entry key).used = true → (a.entry key).cached = false →
    ∀ str ∈ a.manager.readValue (a.entry key).store, isLongList kind str.length = false →
    RoomFits (maxKeyNum + 1) a str.length

instance {a : CacheArray kind} {key : Nat} : Decidable (a.SearchFits key) :=
  inferInstanceAs (Decidable (_ → _ → ∀ str ∈ a.manager.readValue (a.entry key).store, _ →
      RoomFits (maxKeyNum + 1) a str.length))

theorem Coherent.read (ok : a.Coherent live m order hole) {v : List UInt8}
    (lives : live k = some v) : a.manager.readValue k = some v :=
  (ok.exclusive.stored k v lives).readValue_eq (ok.exclusive.inside k v lives).1

theorem Coherent.not_queued (ok : a.Coherent live m order none)
    (uncached : (a.entry k).cached = false) :
    k ∉ order := by
  intro there
  have cached := ((ok.queued k (by simp)).mp there).1
  rw [uncached] at cached
  cases cached

theorem Filed.setEntry {e : CacheEntry} (filed : a.Filed) (used : e.used = (a.entry key).used)
    (dirty : e.dirty = (a.entry key).dirty) (store : e.store = (a.entry key).store) :
    (a.setEntry key e).Filed := by
  refine { filed with unallocated := fun k outside => ?_, saved := fun k clean => ?_ }
  · obtain rfl | here := eq_or_ne k key
    · rw [setEntry_self, used, dirty]
      exact filed.unallocated k outside
    · rw [setEntry_ne here]
      exact filed.unallocated k outside
  · obtain rfl | here := eq_or_ne k key
    · rw [setEntry_self, dirty] at clean
      rw [setEntry_self, store]
      exact filed.saved k clean
    · rw [setEntry_ne here] at clean ⊢
      exact filed.saved k clean

theorem reload_spec {v : List UInt8} (filed : a.Filed) (ok : a.Coherent live m order none)
    (known : m key = some v)
    (uncached : (a.entry key).cached = false) (small : key < maxKeyNum)
    (fits : RoomFits (maxKeyNum + 1) a v.length) :
    ∃ b, a.addInCache key v = some b ∧ b.Represents m := by
  have keeps := ok.keeps (by simp) known
  have out := ok.not_queued uncached
  obtain ⟨b, live', rest, added, kept, evicts, fewer⟩ :=
    @addInCache_spec kind a live m order none key v ok
    (ok.fitting key v (by simp) known).cacheable fits
  have same := evicts.away key out
  have fills : b.Fills live' key { b.entry key with value := some v, cached := true } (some v) := by
    refine ⟨?_, fun some k differs share => ?_,
        fun w word => Option.some.inj word ▸ kept.fitting key v (by simp) known⟩
    · rw [same]
      have lives := evicts.lives _ _ (keeps.stored (keeps.disk uncached).2)
      exact ⟨keeps.used, fun _ => rfl,
          fun h => absurd h (by simp), fun _ => lives, keeps.clean, fun _ => rfl⟩
    · exact differs (kept.owner k key (by simp) (by simp) (share ▸ some) share)
  have unpinned : (b.entry key).pinned = false := same ▸ keeps.unpinned uncached
  have stored := (kept.openHole fun there => out (fewer key there)).fillQueued fills rfl unpinned
    small
  have back : Function.update m key (some v) = m := by rw [← known, update_eq_self]
  rw [back] at stored
  have filedB : ((b.setQueue (b.lru.pushBack key)).addSize v.length).Filed :=
    ⟨(evicts.filed filed).whole, (evicts.filed filed).wholeAhead, (evicts.filed filed).ahead,
      (evicts.filed filed).small,
      (evicts.filed filed).unallocated, (evicts.filed filed).saved, (evicts.filed filed).counted⟩
  exact ⟨_, added, filedB.setEntry rfl rfl rfl, live', rest ++ [key], stored⟩

theorem search_spec (held : a.Represents m) (fits : a.SearchFits key) :
    ∃ b, a.search key = some (m key, b) ∧ b.Represents m := by
  obtain ⟨filed, live, order, ok⟩ := held
  unfold search
  by_cases outside : a.curEntryNum ≤ key
  · rw [if_pos outside, ok.unknown_of_unused (by simp) (filed.unallocated key outside).1]
    exact ⟨a, rfl, filed, live, order, ok⟩
  have small := filed.lt_limit (Nat.lt_of_not_le outside)
  rw [if_neg outside, if_neg (Nat.not_le_of_lt small)]
  cases known : m key with
  | none =>
    have vacant := ok.vacant (by simp) known
    exact ⟨a, by simp [vacant.unused], filed, live, order, ok⟩
  | some v =>
    have keeps := ok.keeps (by simp) known
    simp only [keeps.used, Bool.not_true, Bool.false_eq_true, if_false]
    cases cached : (a.entry key).cached with
    | true =>
      obtain ⟨lru, order', moved, kept⟩ := updateTime_spec ok cached
      refine ⟨a.setQueue lru, by simp [moved, keeps.memory cached], ?_, live, order', kept⟩
      exact { filed with }
    | false =>
      have read := ok.read (keeps.stored (keeps.disk cached).2)
      simp only [read, Bool.false_eq_true, if_false]
      cases long : isLongList kind v.length with
      | true => exact ⟨a, by simp, filed, live, order, ok⟩
      | false =>
        obtain ⟨b, added, held⟩ :=
          reload_spec filed ok known cached small (fits keeps.used cached v read long)
        exact ⟨b, by simp [added], held⟩

end Search

theorem setEntry_setEntry (a : CacheArray kind) (key : Nat) (e f : CacheEntry) :
    (a.setEntry key e).setEntry key f = a.setEntry key f := by
  simp [setEntry, update_idem]

section Store

variable {a : CacheArray kind} {live m : Nat → Option (List UInt8)} {order : List Nat} {key : Nat}
    {v : List UInt8}

section

variable (filed : a.Filed) (ok : a.Coherent live m order (some key)) (inside : key < a.curEntryNum)
  (fitting : Fitting kind a.maxCacheSize v)
include filed ok inside fitting

theorem storeShort_spec (fits : RoomFits (maxKeyNum + 1) a v.length)
    (noStore : (a.entry key).store = 0) (unpinned : (a.entry key).pinned = false) :
    ∃ b, a.addInCache key v = some b ∧ (b.entry key).used = (a.entry key).used ∧
    (b.entry key).dirty = (a.entry key).dirty ∧
      (b.setEntry key { b.entry key with used := true, dirty := true }).Represents
      (Function.update m key (some v)) := by
  obtain ⟨b, live', rest, added, kept, evicts, fewer⟩ :=
    @addInCache_spec kind a live m order (some key) key v ok fitting.cacheable fits
  have same := evicts.away key (ok.outside key rfl)
  refine ⟨_, added, by rw [setEntry_self, same], by rw [setEntry_self, same], ?_⟩
  rw [setEntry_setEntry, setEntry_self]
  have fills : b.Fills live' key
      { b.entry key with value := some v, cached := true, used := true, dirty := true }
      (some v) := by
    rw [same]
    refine ⟨⟨rfl, fun _ => rfl,
        fun h => absurd h (by simp), fun some => absurd noStore some, fun h => absurd h (by simp),
      fun _ => rfl⟩, fun some => absurd noStore some, fun w word => ?_⟩
    rw [← Option.some.inj word, evicts.cacheSize]
    exact fitting
  have stored := kept.fillQueued fills rfl (by simpa [same] using unpinned) (filed.lt_limit inside)
  refine ⟨?_, live', rest ++ [key], stored⟩
  refine (evicts.filed filed).transfer rfl rfl rfl rfl (evicts.curEntryNum ▸ inside)
    (by rw [setEntry_self]) fun k differs => ?_
  rw [setEntry_ne differs]
  exact ⟨rfl, rfl, fun _ => rfl⟩

theorem storeLong_spec (room : a.manager.Room (2 ^ 32 - 1) v.length)
    (released : (a.entry key).value = none) (unpinned : (a.entry key).pinned = false) :
    ∃ i manager, a.manager.writeValue v = some (i, manager) ∧ i ≠ 0 ∧
      let b := (a.setManager manager).setEntry key
        { a.entry key with store := i, used := true, dirty := true, cached := false }
      b.Represents (Function.update m key (some v)) := by
  obtain ⟨i, manager, written, positive, vacant, unshared, kept⟩ := ok.write fitting room
  refine ⟨i, manager, written, positive.ne', filed.setDirty inside rfl, _, order,
      kept.fill ?_ (by simp)⟩
  refine ⟨⟨rfl, fun h => absurd h
      (by simp), fun _ => ⟨released, positive.ne'⟩, fun _ => update_self .., fun h => absurd h (by simp),
    fun pinned => absurd (unpinned.symm.trans pinned)
      (by decide)⟩, fun _ k differs => ?_, fun w word => Option.some.inj word ▸ fitting⟩
  exact unshared k fun same => differs (Option.some.inj same).symm

end

theorem writeLong_eq {i : Nat} {manager : BlockManager kind}
    (written : a.manager.writeValue v = some (i, manager)) (some : i ≠ 0) :
    a.writeLong key v = .some
    (true, (a.setManager manager).setEntry key { a.entry key with store := i }) := by
  simp [writeLong, written, Option.map_some, if_neg some]

theorem lt_blocksUpTo (key : Nat) : key < blocksUpTo key := by
  rw [blocksUpTo, Nat.mul_comm]
  exact Nat.lt_mul_div_succ key (by decide)

theorem blocksUpTo_le (small : key < keyLimit) : blocksUpTo key ≤ keyLimit := by
  have := (Nat.div_lt_iff_lt_mul (by decide : 0 < entryBlockSize)).mpr small
  exact Nat.mul_le_mul_right _ this

theorem expand_filed (filed : a.Filed) (small : key < keyLimit) :
    (a.expand key).Filed ∧ key < (a.expand key).curEntryNum := by
  unfold expand
  by_cases inside : key < a.curEntryNum
  · rw [if_pos inside]
    exact ⟨filed, inside⟩
  rw [if_neg inside]
  obtain ⟨n, ahead⟩ := filed.wholeAhead
  have whole : ∃ n, 0 < n ∧ max a.entryNum (blocksUpTo key) = n * entryBlockSize := by
    refine ⟨max n (key / entryBlockSize + 1), Nat.lt_of_lt_of_le (Nat.succ_pos _) (le_max_right ..),
        ?_⟩
    rw [ahead, blocksUpTo, ← Nat.mul_max_mul_right]
  refine ⟨⟨whole, whole.imp fun n h => h.2, le_rfl, max_le filed.small (blocksUpTo_le small),
      fun k outside => ?_, filed.saved, nofun⟩,
    (lt_blocksUpTo key).trans_le (le_max_right ..)⟩
  exact filed.unallocated k (filed.ahead.trans ((le_max_left ..).trans outside))

theorem Coherent.expand {hole : Option Nat} (ok : a.Coherent live m order hole) :
    (a.expand key).Coherent live m order hole := by
  unfold CacheArray.expand
  split
  · exact ok
  · exact { ok with }

theorem expand_entry (a : CacheArray kind) (key : Nat) : (a.expand key).entry = a.entry := by
  unfold CacheArray.expand
  split <;> rfl

theorem expand_cacheSize (a : CacheArray kind) (key : Nat) :
    (a.expand key).maxCacheSize = a.maxCacheSize := by
  unfold CacheArray.expand
  split <;> rfl

def InsertFits (a : CacheArray kind) (key : Nat) (str : List UInt8) : Prop :=
  (a.entry key).used = false → key < maxKeyNum →
    if isLongList kind str.length then (a.expand key).manager.Room (2 ^ 32 - 1) str.length
    else RoomFits (maxKeyNum + 1) (a.expand key) str.length

instance {a : CacheArray kind} {key : Nat} {str : List UInt8} : Decidable (a.InsertFits key str) :=
  inferInstanceAs (Decidable ((a.entry key).used = false → key < maxKeyNum →
    if isLongList kind str.length then (a.expand key).manager.Room (2 ^ 32 - 1) str.length
    else RoomFits (maxKeyNum + 1) (a.expand key) str.length))

theorem insert_spec (held : a.Represents m) (small : key < keyLimit ∨ maxKeyNum ≤ key)
    (fitting : Fitting kind a.maxCacheSize v)
    (fits : a.InsertFits key v) : ∃ ok b, a.insert key v = some (ok, b) ∧
      b.Represents (if m key = none ∧
        key < maxKeyNum then Function.update m key (some v) else m) := by
  obtain ⟨filed, live, order, ok⟩ := held
  unfold insert
  have typed : ¬ (key < a.curEntryNum ∧ maxKeyNum ≤ key) := fun both =>
    absurd (filed.lt_limit both.1) (Nat.not_lt_of_le both.2)
  rw [if_neg typed]
  cases known : m key with
  | some w =>
    have keeps := ok.keeps (by simp) known
    have inside := filed.used_lt keeps.used
    exact ⟨false, a, by simp [inside, keeps.used], by simpa using ⟨filed, live, order, ok⟩⟩
  | none =>
    have vacant := ok.vacant (by simp) known
    by_cases large : maxKeyNum ≤ key
    · refine ⟨false, a, by simp [vacant.unused, large], ?_⟩
      rw [if_neg fun both => absurd both.2 (Nat.not_lt_of_le large)]
      exact ⟨filed, live, order, ok⟩
    have limit : key < keyLimit := small.resolve_right large
    obtain ⟨filedB, inside⟩ := expand_filed filed limit
    have hole : (a.expand key).Coherent live m order (some key) :=
      ok.expand.openHole (ok.not_queued vacant.cached)
    have entry : (a.expand key).entry key = a.entry key := congrFun (expand_entry a key) key
    have room := fits vacant.unused (Nat.lt_of_not_le large)
    have cacheSize := expand_cacheSize a key
    simp only [vacant.unused, Bool.false_eq_true, and_false, if_false, if_neg large, true_and,
        Nat.lt_of_not_le large, if_true]
    cases long : isLongList kind v.length with
    | true =>
      simp only [long, if_true] at room
      obtain ⟨i, manager, written, some, held⟩ :=
        @storeLong_spec kind ((a.expand key).setEntry key
          { (a.expand key).entry key with value := none })
        live m order key v (filedB.setEntry rfl rfl rfl) (hole.setHole _) inside
        (by simpa [setEntry, cacheSize] using fitting)
        room (by rw [setEntry_self]) (by rw [setEntry_self, entry]; exact vacant.pinned)
      refine ⟨true, _, ?_, held⟩
      have uncached : ((a.expand key).entry key).cached = false := entry ▸ vacant.cached
      rw [if_pos rfl, writeLong_eq written some]
      simp [Option.map_some, setEntry_setEntry, setEntry_self, uncached]
    | false =>
      simp only [long, Bool.false_eq_true, if_false] at room
      obtain ⟨b, added, -, -, held⟩ := storeShort_spec filedB hole inside (cacheSize ▸ fitting) room
        (entry ▸ vacant.store) (entry ▸ vacant.pinned)
      exact ⟨true, _, by simp [added], held⟩

end Store

theorem build_represents {bufferSize keyNum : Nat} (small : keyNum < keyLimit) :
    (build kind bufferSize keyNum).Represents (fun _ => none) := by
  have bound := blocksUpTo_le small
  have limit : keyLimit < 2 ^ 32 - 1 := by decide
  have exclusive := @Ledger.build_exclusive kind (blocksUpTo keyNum) (by omega)
  have allocated : (BlockManager.build kind (blocksUpTo keyNum)).allocated < 2 ^ 32 - 1 := by
    generalize grown : blocksUpTo keyNum = num at bound
    rw [BlockManager.build, allocBlock, if_neg (by omega)]
    simp only [Nat.zero_add]
    omega
  have filed : (build kind bufferSize keyNum).Filed := by
    refine ⟨⟨_, Nat.succ_pos _, rfl⟩, ⟨_, rfl⟩, le_rfl, bound, fun _ _ => ⟨rfl, rfl⟩,
        fun _ clean => ?_, fun same => ?_⟩
    · cases clean
    · cases same
  refine ⟨filed, fun _ => none, [], exclusive, allocated, LinkedList.empty_lists, fun k _ => ?_,
      fun _ hole => ?_,
    fun _ hole => ?_, rfl, fun _ _ => ⟨rfl, rfl, rfl, rfl, rfl⟩,
      fun _ _ _ _ some => absurd rfl some,
    fun _ _ _ known => ?_⟩
  · exact iff_of_false List.not_mem_nil fun both => Bool.false_ne_true both.1
  · cases hole
  · cases hole
  · cases known

def dequeue (a : CacheArray kind) (key : Nat) : CacheArray kind :=
  if (a.entry key).cached then (a.setQueue (a.lru.unlink key)).subSize (a.entry key).len else a

section Withdraw

variable {a : CacheArray kind} {live m : Nat → Option (List UInt8)} {order : List Nat} {key : Nat}
    {v : List UInt8}

theorem dequeue_entry (a : CacheArray kind) (key : Nat) : (a.dequeue key).entry = a.entry := by
  unfold dequeue
  split <;> rfl

theorem dequeue_manager (a : CacheArray kind) (key : Nat) :
    (a.dequeue key).manager = a.manager := by
  unfold dequeue
  split <;> rfl

theorem dequeue_cacheSize (a : CacheArray kind) (key : Nat) :
    (a.dequeue key).maxCacheSize = a.maxCacheSize := by
  unfold dequeue
  split <;> rfl

theorem dequeue_curEntryNum (a : CacheArray kind) (key : Nat) :
    (a.dequeue key).curEntryNum = a.curEntryNum := by
  unfold dequeue
  split <;> rfl

theorem Filed.dequeue (filed : a.Filed) : (a.dequeue key).Filed := by
  unfold CacheArray.dequeue
  split
  · exact { filed with }
  · exact filed

theorem Coherent.dequeue (ok : a.Coherent live m order none)
    (unpinned : (a.entry key).pinned = false) :
    ∃ rest, (a.dequeue key).Coherent live m rest (some key) := by
  unfold CacheArray.dequeue
  cases cached : (a.entry key).cached with
  | true =>
    obtain ⟨front, back, rfl⟩ :=
      List.append_of_mem ((ok.queued key (by simp)).mpr ⟨cached, unpinned⟩)
    exact ⟨front ++ back, ok.unqueue⟩
  | false => exact ⟨order, ok.openHole (ok.not_queued cached)⟩

theorem Coherent.withdraw (ok : a.Coherent live m order none) (known : m key = some v)
    (unpinned : (a.entry key).pinned = false) :
    ∃ manager live' rest, a.manager.freeBlocks (a.entry key).store = some manager ∧
      ((a.dequeue key).setManager manager).Coherent live' m rest (some key) := by
  have keeps := ok.keeps (by simp) known
  obtain ⟨rest, hole⟩ := ok.dequeue unpinned
  by_cases none : (a.entry key).store = 0
  · refine ⟨a.manager, live, rest, by rw [none]; rfl, ?_⟩
    rw [← dequeue_manager a key]
    exact hole
  have lives := keeps.stored none
  obtain ⟨manager, freed, kept⟩ := hole.free lives fun k differs same => by
    rw [dequeue_entry] at same
    exact differs (ok.owner k key (by simp) (by simp) (same ▸ none) same)
  rw [dequeue_manager] at freed
  exact ⟨manager, _, rest, freed, kept⟩

theorem discard_eq (unpinned : (a.entry key).pinned = false) :
    a.discard key = (a.manager.freeBlocks (a.entry key).store).map
    fun manager => ((a.dequeue key).setManager manager).setEntry key CacheEntry.init := by
  unfold discard
  congr 1
  funext manager
  cases cached : (a.entry key).cached with
  | true =>
    simp only [removeFromLRUQueue, CacheArray.dequeue, setEntry_self, cached, unpinned,
        Bool.not_true, Bool.or_self, Bool.false_eq_true,
      if_false, if_true]
    simp [setEntry, setManager, setQueue, subSize, update_idem, update_self, CacheEntry.init]
  | false =>
    simp [CacheArray.dequeue, cached, Bool.false_eq_true, setEntry_self, setEntry_setEntry,
        CacheEntry.init]

theorem discard_spec (held : a.Represents m) (known : m key = some v)
    (unpinned : (a.entry key).pinned = false) :
    ∃ b, a.discard key = some b ∧ b.Represents (Function.update m key none) := by
  obtain ⟨filed, live, order, ok⟩ := held
  have inside := filed.used_lt (ok.keeps (by simp) known).used
  obtain ⟨manager, live', rest, freed, hole⟩ := ok.withdraw known unpinned
  refine ⟨_, by rw [discard_eq unpinned, freed, Option.map_some], ?_⟩
  have vacant : CacheEntry.init.Vacant := ⟨rfl, rfl, rfl, rfl, rfl⟩
  have empty : ((a.dequeue key).setManager manager).Fills live' key CacheEntry.init none :=
    ⟨vacant, fun h => absurd rfl h, nofun⟩
  have filled := hole.fill empty (by simp [CacheEntry.init])
  exact ⟨filed.dequeue.setDirty (by rwa [dequeue_curEntryNum]) rfl, live', rest, filled⟩

end Withdraw
end CacheArray
end GStore
