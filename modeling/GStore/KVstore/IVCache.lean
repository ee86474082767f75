import GStore.KVstore.CacheFiles
import GStore.KVstore.CachePins

/-! `IVArray` as a map: runs of its calls, with and without `PinCache`. -/
namespace GStore

open Lib BlockManager CacheArray Option

namespace IVCache

section Calls

variable {a : IVCache} {m : Nat → Option (List UInt8)} {key : Nat} {v : List UInt8}

variable (held : a.Represents m)
include held

theorem access_spec (small : key < keyLimit) :
    ∃ b, a.access key = some b ∧ b.Represents m ∧ b.entry = a.entry ∧
    b.maxCacheSize = a.maxCacheSize := by
  obtain ⟨filed, live, order, ok⟩ := held
  have limit : keyLimit ≤ maxKeyNum := Nat.div_mul_le_self ..
  unfold access
  rw [if_neg (Nat.not_le_of_lt (small.trans_le limit))]
  split
  · exact ⟨a, rfl, ⟨filed, live, order, ok⟩, rfl, rfl⟩
  · rename_i outside
    refine ⟨_, rfl, ⟨⟨filed.whole, ⟨key / entryBlockSize + 1, rfl⟩, ?_, ?_, filed.unallocated,
        filed.saved, filed.counted⟩, live, order,
      ok.exclusive, ok.below, ok.listed, ok.queued, ok.outside, ok.keys, ok.size, ok.holds,
      ok.owner, ok.fitting⟩, rfl, rfl⟩
    · exact filed.ahead.trans ((Nat.le_of_not_lt outside).trans (lt_blocksUpTo key).le)
    · exact blocksUpTo_le small

theorem remove_spec (small : key < keyLimit) (unpinned : (a.entry key).pinned = false) :
    ∃ ok b, remove a key = some (ok, b) ∧ b.Represents (Function.update m key none) := by
  obtain ⟨b, accessed, held, entry, -⟩ := access_spec held small
  rw [remove, accessed, bind_some]
  cases known : m key with
  | none =>
    obtain ⟨filed, live, order, ok⟩ := held
    have vacant := ok.vacant (by simp) known
    refine ⟨false, b, by simp [vacant.unused], ?_⟩
    rw [← known, Function.update_eq_self]
    exact ⟨filed, live, order, ok⟩
  | some v =>
    have used := held.used known
    obtain ⟨c, discarded, kept⟩ := discard_spec held known (entry ▸ unpinned)
    exact ⟨true, c, by simp [used, discarded], kept⟩

omit held in
theorem giveUp_eq (unpinned : (a.entry key).pinned = false) :
    giveUp a key = (a.manager.freeBlocks (a.entry key).store).map
    fun manager => ((a.dequeue key).setManager manager).setEntry key
        { a.entry key with dirty := true, value := none, cached := false } := by
  unfold giveUp
  cases cached : (a.entry key).cached with
  | true =>
    simp only [removeFromLRUQueue, dequeue, cached, unpinned, Bool.not_true, Bool.or_self,
        Bool.false_eq_true, if_false, if_true]
    simp [setEntry, setManager, setQueue, subSize, Function.update_idem, Function.update_self]
  | false =>
    simp [dequeue, cached, unpinned, Bool.false_eq_true]

def ModifyFits (a : IVCache) (key : Nat) (str : List UInt8) : Prop :=
  (a.entry key).used = true → ∀ b ∈ a.access key, ∀ c ∈ giveUp b key,
    if isLongList ivBlocks str.length then c.manager.Room (2 ^ 32 - 1) str.length
    else RoomFits (maxKeyNum + 1) (c.setEntry key { c.entry key with store := 0 }) str.length

instance {a : IVCache} {key : Nat} {str : List UInt8} : Decidable (ModifyFits a key str) :=
  inferInstanceAs (Decidable ((a.entry key).used = true → ∀ b ∈ a.access key, ∀ c ∈ giveUp b key,
    if isLongList ivBlocks str.length then c.manager.Room (2 ^ 32 - 1) str.length
    else RoomFits (maxKeyNum + 1) (c.setEntry key { c.entry key with store := 0 }) str.length))

theorem modify_spec (small : key < keyLimit) (unpinned : (a.entry key).pinned = false)
    (fitting : Fitting ivBlocks a.maxCacheSize v) (fits : ModifyFits a key v) :
    ∃ ok b, modify a key v = some (ok, b) ∧
    b.Represents (if m key = none then m else Function.update m key (some v)) := by
  obtain ⟨b, accessed, heldB, entry, cacheSize⟩ := access_spec held small
  rw [modify, accessed, bind_some]
  cases known : m key with
  | none =>
    obtain ⟨filed, live, order, ok⟩ := heldB
    have vacant := ok.vacant (by simp) known
    exact ⟨false, b, by simp [vacant.unused], by simpa using ⟨filed, live, order, ok⟩⟩
  | some w =>
    have used := heldB.used known
    obtain ⟨filed, live, order, ok⟩ := heldB
    have inside := filed.used_lt used
    rw [← entry] at unpinned
    obtain ⟨manager, live', rest, freed, hole⟩ := ok.withdraw known unpinned
    have gave := giveUp_eq unpinned
    rw [freed, map_some] at gave
    obtain ⟨c, made⟩ : ∃ c, ((b.dequeue key).setManager manager).setEntry key
        { b.entry key with dirty := true, value := none, cached := false } = c := ⟨_, rfl⟩
    rw [made] at gave
    have room := fits (entry ▸ used) b accessed c gave
    have holeC : c.Coherent live' m rest (some key) := made ▸ hole.setHole _
    have entryC : c.entry key =
      { b.entry key with dirty := true, value := none, cached := false } := made ▸ setEntry_self
    have insideC : key < c.curEntryNum := by
      rw [← made]
      exact (dequeue_curEntryNum b key).symm ▸ inside
    have filedC : c.Filed := by
      rw [← made] at insideC ⊢
      exact filed.dequeue.setDirty insideC rfl
    have fittingC : Fitting ivBlocks c.maxCacheSize v := by
      have size : c.maxCacheSize = (b.dequeue key).maxCacheSize := by rw [← made]; rfl
      rw [size, dequeue_cacheSize, cacheSize]
      exact fitting
    have unpinnedC : (c.entry key).pinned = false := entryC ▸ unpinned
    simp only [used, Bool.not_true, Bool.false_eq_true, if_false, gave, bind_some, reduceCtorEq]
    cases long : isLongList ivBlocks v.length with
    | true =>
      rw [if_pos long] at room
      obtain ⟨i, manager', written, some, kept⟩ :=
        storeLong_spec filedC holeC insideC fittingC room (by rw [entryC]) unpinnedC
      refine ⟨true, _, ?_, kept⟩
      rw [if_pos rfl, writeLong_eq written some]
      simp [map_some, setEntry_setEntry, setEntry_self]
    | false =>
      rw [if_neg (by simp [long])] at room
      obtain ⟨d, added, -, -, kept⟩ :=
        @storeShort_spec _ (c.setEntry key { c.entry key with store := 0 }) live' m rest key v
        (filedC.setDirty insideC (by rw [entryC])) (holeC.setHole _) insideC fittingC room (by rw [setEntry_self])
        (by rw [setEntry_self]; exact unpinnedC)
      exact ⟨true, _, by simp [added], kept⟩

/-- Pinning does no harm to an entry that is not in memory, or is pinned already. -/
def PinFits (a : IVCache) (key : Nat) : Prop :=
  (a.entry key).used = true → (a.entry key).cached = true → (a.entry key).pinned = true

instance {a : IVCache} {key : Nat} : Decidable (PinFits a key) :=
  inferInstanceAs (Decidable (_ → _ → _))

theorem pinCache_spec (fits : PinFits a key) : ∃ b, pinCache a key = some b ∧ b.Represents m := by
  obtain ⟨filed, live, order, ok⟩ := held
  have held : a.Represents m := ⟨filed, live, order, ok⟩
  unfold pinCache
  by_cases outside : a.curEntryNum ≤ key
  · exact ⟨a, if_pos outside, held⟩
  rw [if_neg outside, if_neg (Nat.not_le_of_lt (filed.lt_limit (Nat.lt_of_not_le outside)))]
  cases known : m key with
  | none => exact ⟨a, by simp [(ok.vacant (by simp) known).unused], held⟩
  | some v =>
    have keeps := ok.keeps (by simp) known
    cases cached : (a.entry key).cached with
    | true =>
      have pinned := fits keeps.used cached
      have stays : a.removeFromLRUQueue key = a := if_pos (by simp [pinned])
      have same : a.setEntry key { a.entry key with pinned := true } = a := by
        rw [← pinned, setEntry, Function.update_eq_self]
      refine ⟨a, ?_, held⟩
      rw [if_neg (by simp [keeps.used]), if_pos rfl, stays]
      exact congrArg some same
    | false =>
      have lives := keeps.stored (keeps.disk cached).2
      have fills : a.Fills live key
          { a.entry key with value := some v, cached := true, pinned := true } (some v) :=
        ⟨⟨keeps.used, fun _ => rfl, fun uncached => Bool.noConfusion uncached, fun _ => lives,
          keeps.clean, fun _ => rfl⟩,
          fun some k differs share => differs
            (ok.owner k key (by simp) (by simp) (share ▸ some) share),
          fun w word => Option.some.inj word ▸ ok.fitting key v (by simp) known⟩
      have pinned := (ok.openHole (ok.not_queued cached)).fill fills (by simp)
      have back : Function.update m key (some v) = m := by rw [← known, Function.update_eq_self]
      rw [back] at pinned
      refine ⟨a.setEntry key { a.entry key with value := some v, cached := true, pinned := true },
          ?_, filed.setEntry rfl rfl rfl,
        live, order, pinned⟩
      simp [keeps.used, ok.read lives, Bool.not_true, Bool.false_eq_true]

end Calls

/-- The calls of an `IVArray`; `restart` is `save` and an array opened on the files, with a cache of
the size given. -/
inductive Call where
  | insert (key : Nat) (str : List UInt8)
  | modify (key : Nat) (str : List UInt8)
  | remove (key : Nat)
  | search (key : Nat)
  | pinCache (key : Nat)
  | restart (bufferSize : Nat)

def step (a : IVCache) : Call → Option IVCache
  | .insert key str => (a.insert key str).map Prod.snd
  | .modify key str => (modify a key str).map Prod.snd
  | .remove key => (remove a key).map Prod.snd
  | .search key => (a.search key).map Prod.snd
  | .pinCache key => pinCache a key
  | .restart bufferSize => a.save.bind fun b => b.reopen bufferSize

/-- What a call does to the map; `insert` refuses keys that are present or too large, `modify` those
that are absent. -/
def effect (m : Nat → Option (List UInt8)) : Call → Nat → Option (List UInt8)
  | .insert key str =>
    if m key = none ∧ key < maxKeyNum then Function.update m key (some str) else m
  | .modify key str => if m key = none then m else Function.update m key (some str)
  | .remove key => Function.update m key none
  | _ => m

/-- Keys are within the entries that an `int` counts, and every value that the call writes has room.
-/
def Fits (a : IVCache) : Call → Prop
  | .insert key str =>
    (key < keyLimit ∨ maxKeyNum ≤ key) ∧ Fitting ivBlocks a.maxCacheSize str ∧ a.InsertFits key str
  | .modify key str => key < keyLimit ∧ Fitting ivBlocks a.maxCacheSize str ∧ ModifyFits a key str
  | .remove key => key < keyLimit
  | .search key => a.SearchFits key
  | .pinCache _ => True
  | .restart bufferSize =>
    a.maxCacheSize ≤ bufferSize ∧ SaveFits (List.range a.curEntryNum) a.countEntries

instance (a : IVCache) (c : Call) : Decidable (Fits a c) :=
  match c with
  | .insert key str =>
    inferInstanceAs (Decidable
      ((key < keyLimit ∨ maxKeyNum ≤ key) ∧ Fitting _ _ str ∧ a.InsertFits key str))
  | .modify key str =>
    inferInstanceAs (Decidable (key < keyLimit ∧ Fitting _ _ str ∧ ModifyFits a key str))
  | .remove key => inferInstanceAs (Decidable (key < keyLimit))
  | .search key => inferInstanceAs (Decidable (a.SearchFits key))
  | .pinCache _ => isTrue trivial
  | .restart bufferSize => inferInstanceAs (Decidable (a.maxCacheSize ≤ bufferSize ∧ SaveFits _ _))

def PinsApart (a : IVCache) : Call → Prop
  | .modify key _ | .remove key => (a.entry key).pinned = false
  | .pinCache key => PinFits a key
  | _ => True

instance (a : IVCache) (c : Call) : Decidable (PinsApart a c) :=
  match c with
  | .insert _ _ | .search _ | .restart _ => isTrue trivial
  | .modify key _ | .remove key => inferInstanceAs (Decidable ((a.entry key).pinned = false))
  | .pinCache key => inferInstanceAs (Decidable (PinFits a key))

section Runs

variable {a : IVCache} {m : Nat → Option (List UInt8)}

theorem step_represents {c : Call} (held : a.Represents m) (fits : Fits a c)
    (apart : PinsApart a c) :
    ∃ b, step a c = some b ∧ b.Represents (effect m c) := by
  cases c with
  | insert key str =>
    obtain ⟨small, fitting, room⟩ := fits
    obtain ⟨ok, b, inserted, kept⟩ := insert_spec held small fitting room
    exact ⟨b, by rw [step, inserted, map_some], kept⟩
  | modify key str =>
    obtain ⟨small, fitting, room⟩ := fits
    obtain ⟨ok, b, modified, kept⟩ := modify_spec held small apart fitting room
    exact ⟨b, by rw [step, modified, map_some], kept⟩
  | remove key =>
    obtain ⟨ok, b, removed, kept⟩ := remove_spec held fits apart
    exact ⟨b, by rw [step, removed, map_some], kept⟩
  | search key =>
    obtain ⟨b, found, kept⟩ := search_spec held fits
    exact ⟨b, by rw [step, found, map_some], kept⟩
  | pinCache key => exact pinCache_spec held apart
  | restart bufferSize =>
    obtain ⟨larger, room⟩ := fits
    obtain ⟨b, stored, kept, saved, size⟩ := save_spec held room
    obtain ⟨c, opened, again⟩ := reopen_spec kept saved (size ▸ larger)
    exact ⟨c, by rw [step, stored, bind_some, opened], again⟩

theorem modify_unpinned {b : IVCache} {key : Nat} {str : List UInt8} {ok : Bool} (free : a.Unpinned)
    (modified : modify a key str = some (ok, b)) : b.Unpinned := by
  obtain ⟨c, accessed, rest⟩ := bind_eq_some_iff.mp modified
  have freeC := access_unpinned free accessed
  split at rest
  · cases rest
    exact freeC
  obtain ⟨d, gave, rest⟩ := bind_eq_some_iff.mp rest
  have freeD : d.Unpinned := by
    rw [giveUp_eq (freeC key)] at gave
    obtain ⟨manager, -, rfl⟩ := map_eq_some_iff.mp gave
    refine Unpinned.setEntry (fun k => ?_) (freeC key)
    have same : ((c.dequeue key).setManager manager).entry = c.entry := dequeue_entry c key
    rw [same]
    exact freeC k
  obtain ⟨⟨stored, e⟩, done, same⟩ := map_eq_some_iff.mp rest
  have freeE : e.Unpinned := by
    split at done
    · obtain ⟨⟨wrote, f⟩, written, same⟩ := map_eq_some_iff.mp done
      have freeF := writeLong_unpinned freeD written
      cases same
      split
      · exact freeF.setEntry (freeF key)
      · exact freeF
    · obtain ⟨f, added, same⟩ := map_eq_some_iff.mp done
      cases same
      exact addInCache_unpinned (Unpinned.setEntry freeD (by exact freeD key)) added
  cases same
  split
  · exact freeE.setEntry (freeE key)
  · exact freeE

theorem step_unpinned {b : IVCache} {c : Call} (free : a.Unpinned)
    (noPin : ∀ key, c ≠ .pinCache key) (taken : step a c = some b) :
    b.Unpinned := by
  cases c with
  | insert key str =>
    obtain ⟨⟨ok, c⟩, inserted, rfl⟩ := map_eq_some_iff.mp taken
    exact insert_unpinned free inserted
  | modify key str =>
    obtain ⟨⟨ok, c⟩, modified, rfl⟩ := map_eq_some_iff.mp taken
    exact modify_unpinned free modified
  | remove key =>
    obtain ⟨⟨ok, c⟩, removed, rfl⟩ := map_eq_some_iff.mp taken
    obtain ⟨d, accessed, rest⟩ := bind_eq_some_iff.mp removed
    have freeD := access_unpinned free accessed
    split at rest
    · cases rest
      exact freeD
    · obtain ⟨e, discarded, same⟩ := map_eq_some_iff.mp rest
      cases same
      exact discard_unpinned freeD discarded
  | search key =>
    obtain ⟨⟨found, c⟩, searched, rfl⟩ := map_eq_some_iff.mp taken
    exact search_unpinned free searched
  | pinCache key => exact absurd rfl (noPin key)
  | restart bufferSize =>
    obtain ⟨c, -, opened⟩ := bind_eq_some_iff.mp taken
    exact reopen_unpinned opened

theorem PinsApart.of_unpinned {c : Call} (free : a.Unpinned) (noPin : ∀ key, c ≠ .pinCache key) :
    PinsApart a c := by
  cases c with
  | modify key str => exact free key
  | remove key => exact free key
  | pinCache key => exact absurd rfl (noPin key)
  | _ => trivial

end Runs

/-- A new array is a map under any calls but `PinCache`: a search returns the value last stored
under its key, whatever was swapped out, reloaded, dropped or saved and opened again in between. -/
theorem search_returns_last_stored (bufferSize keyNum : Nat) (small : keyNum < keyLimit)
    (calls : List Call)
    (noPins : ∀ key, .pinCache key ∉ calls)
    (guarded : Guarded step Fits (build ivBlocks bufferSize keyNum) calls)
    (n key : Nat) (next : calls[n]? = some (.search key)) :
    ∃ a b, run step (build ivBlocks bufferSize keyNum) (calls.take n) = some a ∧
      a.search key = some ((calls.take n).foldl effect (fun _ => none) key, b) := by
  have keeps : ∀ (a : IVCache) m c, a.Represents m ∧ a.Unpinned → Fits a c ∧
    (∀ key, c ≠ .pinCache key) →
      ∃ b, step a c = some b ∧ b.Represents (effect m c) ∧ b.Unpinned := by
    rintro a m c ⟨held, free⟩ ⟨fits, noPin⟩
    obtain ⟨b, taken, kept⟩ := step_represents held fits (.of_unpinned free noPin)
    exact ⟨b, taken, kept, step_unpinned free noPin taken⟩
  have without := guarded.and_mem (P := fun c => ∀ key, c ≠ .pinCache key) fun c there key same =>
    noPins key (same ▸ there)
  obtain ⟨a, reached, held, free⟩ :=
    run_refines keeps ⟨build_represents small, fun _ => rfl⟩ (without.take n)
  obtain ⟨b, found, -⟩ := search_spec held (guarded.next reached next)
  exact ⟨a, b, reached, found⟩

theorem swapped_out_value_is_found :
    ∃ a b, run step (build ivBlocks 1 5) [.insert 0 [65], .insert 1 [66]] = some a ∧
    a.search 0 = some (some [65], b) :=
  search_returns_last_stored 1 5
    (by decide) [.insert 0 [65], .insert 1 [66], .search 0, .modify 0 [67], .search 0] (by simp)
    (by decide +kernel) 2 0 rfl

theorem insert_fails {a : IVCache} {str : List UInt8} {bm : BlockManager ivBlocks} {key : Nat}
    (known : key < a.curEntryNum)
    (small : key < maxKeyNum) (unused : (a.entry key).used = false)
    (long : isLongList ivBlocks str.length = true)
    (failed : a.manager.writeValue str = some (0, bm)) :
    ∃ b, step a (.insert key str) = some b ∧ b.search key = some (none, b) := by
  have same : a.expand key = a := if_pos known
  have written : (a.setEntry key { a.entry key with value := none }).writeLong key str =
      some (false, (a.setEntry key { a.entry key with value := none }).setManager bm) := by
    rw [writeLong, show (a.setEntry key { a.entry key with value := none }).manager =
        a.manager from rfl, failed]
    rfl
  refine ⟨(a.setEntry key { a.entry key with value := none }).setManager bm, ?_, ?_⟩
  · rw [step, CacheArray.insert, if_neg (by omega), if_neg (by simp [unused]), if_neg (by omega)]
    dsimp only
    rw [same, if_pos long, written]
    rfl
  · simp [CacheArray.search, setManager, setEntry, not_le.mpr known, not_le.mpr small, unused]

theorem writeValue_zero {manager : BlockManager ivBlocks} {str : List UInt8} {first : Nat × Nat}
    (filled : 0 < str.length)
    (none : allocNum ivBlocks str.length = 0) (found : manager.free.findRun 0 = some first) :
    ∃ bm, manager.writeValue str = some (0, bm) := by
  simp [writeValue, getWhereToWrite, none, takeBlocks, found, blockInfo, filled]

theorem insert_without_blocks {str : List UInt8} (length : str.length = 244 * 2 ^ 32 - 1) :
    ∃ a, run step (build ivBlocks (2 ^ 41) 5) [.insert 0 str] = some a ∧
    a.search 0 = some (none, a) := by
  obtain ⟨bm, failed⟩ := @writeValue_zero (BlockManager.build ivBlocks (blocksUpTo 5)) str _
    (by rw [length]; decide)
    (by rw [length]; decide) rfl
  obtain ⟨a, inserted, missing⟩ :=
    @insert_fails (build ivBlocks (2 ^ 41) 5) str bm 0 (by decide) (by decide) rfl
    (by rw [length]; decide) failed
  exact ⟨a, run_cons.mpr ⟨a, inserted, rfl⟩, missing⟩

/-- `modify` reads the entry of any key, and that of `2 ^ 31` is in front of the array. For a value
of 1047972020223 bytes the number of blocks wraps to 0, and it is not stored. -/
theorem keys_and_blocks_wrap : run step (build ivBlocks 10 5) [.modify 2147483648 [65]] = none ∧
    ∃ a, run step (build ivBlocks (2 ^ 41) 5) [.insert 0 (List.replicate (244 * 2 ^ 32 - 1) 0)] =
    some a ∧
      a.search 0 = some (none, a) :=
  ⟨rfl, insert_without_blocks List.length_replicate⟩
/-- While no entry in memory is pinned and no pinned entry is modified or removed, the cache size is
that of the queue, searches return the value last stored, and pinning one more entry changes no
search. -/
theorem pinCache_changes_no_search (bufferSize keyNum : Nat) (small : keyNum < keyLimit)
    (calls : List Call)
    (guarded : Guarded step (fun a c => Fits a c ∧ PinsApart a c)
      (build ivBlocks bufferSize keyNum) calls) (n : Nat) :
    ∃ a, run step (build ivBlocks bufferSize keyNum) (calls.take n) = some a ∧
      (∃ order, a.lru.Lists order ∧
        a.curCacheSize = (order.map fun k => (a.entry k).len).sum % 2 ^ 32) ∧
      (∀ key, calls[n]? = some (.search key) →
        ∃ b, a.search key = some ((calls.take n).foldl effect (fun _ => none) key, b)) ∧
      ∀ key, PinFits a key → ∃ b, pinCache a key = some b ∧
        ∀ other, a.SearchFits other → b.SearchFits other →
        (a.search other).map Prod.fst = (b.search other).map Prod.fst := by
  have keeps : ∀ (a : IVCache) m c, a.Represents m → Fits a c ∧ PinsApart a c →
      ∃ b, step a c = some b ∧ b.Represents (effect m c) :=
    fun a m c held met => step_represents held met.1 met.2
  obtain ⟨a, reached, held⟩ := run_refines keeps (build_represents small) (guarded.take n)
  refine ⟨a, reached, ?_, fun key next => ?_, fun key fits => ?_⟩
  · obtain ⟨-, live, order, ok⟩ := held
    exact ⟨order, ok.listed, ok.size⟩
  · obtain ⟨b, found, -⟩ := search_spec held (guarded.next reached next).1
    exact ⟨b, found⟩
  · obtain ⟨b, pinned, kept⟩ := pinCache_spec held fits
    refine ⟨b, pinned, fun other room roomB => ?_⟩
    obtain ⟨c, found, -⟩ := search_spec held room
    obtain ⟨d, foundB, -⟩ := search_spec kept roomB
    rw [found, foundB, map_some, map_some]

theorem pinned_value_is_found :
    ∃ a, run step (build ivBlocks 1 5) [.insert 0 [65], .insert 1 [66], .pinCache 0] = some a ∧
    ∃ b, a.search 0 = some (some [65], b) := by
  obtain ⟨a, reached, -, found, -⟩ := pinCache_changes_no_search 1 5 (by decide)
    [.insert 0 [65], .insert 1 [66], .pinCache 0, .search 0] (by decide +kernel) 3
  exact ⟨a, reached, found 0 rfl⟩

/-- A pinned entry that was in memory only is lost, and its length stays in the cache size. -/
theorem pinCache_drops_unsaved :
    ∃ a, run step (build ivBlocks 10 5) [.insert 0 [65], .insert 1 [66], .pinCache 0] = some a ∧
    a.curCacheSize = 2 ∧
      a.lru.head = some 1 ∧ a.lru.tail = some 1 ∧ (a.entry 1).len = 1 ∧
      (a.search 0).map Prod.fst = some none :=
  ⟨_, rfl, by decide +kernel⟩

end IVCache
end GStore
