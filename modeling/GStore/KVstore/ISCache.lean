import GStore.KVstore.CacheFiles
import GStore.KVstore.CachePins

/-! `ISArray` as a map whose values do not share blocks. -/
namespace GStore

open Lib BlockManager CacheArray

namespace ISCache

section Calls

variable {a : ISCache} {m : Nat → Option (List UInt8)} {key : Nat} {v : List UInt8}

theorem remove_spec (held : a.Represents m) (free : a.Unpinned) :
    ∃ ok b, remove a key = some (ok, b) ∧ b.Represents (Function.update m key none) ∧
    b.Unpinned := by
  obtain ⟨filed, live, order, ok⟩ := held
  have held : a.Represents m := ⟨filed, live, order, ok⟩
  unfold remove
  cases known : m key with
  | none =>
    have vacant := ok.vacant (by simp) known
    have same : Function.update m key none = m := by rw [← known, Function.update_eq_self]
    rw [same]
    by_cases outside : a.curEntryNum ≤ key
    · exact ⟨false, a, if_pos outside, held, free⟩
    · have small := filed.lt_limit (Nat.lt_of_not_le outside)
      exact ⟨false, a, by simp [outside, Nat.not_le_of_lt small, vacant.unused], held, free⟩
  | some w =>
    have used := held.used known
    have inside := filed.used_lt used
    obtain ⟨b, discarded, kept⟩ := discard_spec held known (free key)
    refine ⟨true, b, ?_, kept, discard_unpinned free discarded⟩
    simp [Nat.not_le_of_lt inside, Nat.not_le_of_lt (filed.lt_limit inside), used, discarded]

theorem giveUp_eq (unpinned : (a.entry key).pinned = false) (noStore : (a.entry key).store = 0)
    (cached : (a.entry key).cached = true) :
    giveUp a key = some ((a.dequeue key).setEntry key
      { a.entry key with dirty := true, value := none, cached := false }) := by
  simp only [giveUp, dequeue, removeFromLRUQueue, setEntry_self, cached, unpinned, noStore,
      Bool.not_true, Bool.or_self, Bool.false_eq_true,
    if_false, if_true, freeBlocks, Option.map_some]
  simp [setEntry, setManager, setQueue, subSize, Function.update_idem, Function.update_self]

def ModifyFits (a : ISCache) (key : Nat) (str : List UInt8) : Prop :=
  (a.entry key).used = true → ∀ b ∈ giveUp a key, RoomFits (maxKeyNum + 1) b str.length

instance {str : List UInt8} : Decidable (ModifyFits a key str) :=
  inferInstanceAs (Decidable (_ → ∀ b ∈ giveUp a key, RoomFits (maxKeyNum + 1) b str.length))

theorem modify_spec (held : a.Represents m) (free : a.Unpinned) (noStore : (a.entry key).store = 0)
    (fitting : Fitting isBlocks a.maxCacheSize v) (fits : ModifyFits a key v) :
    ∃ ok b, modify a key v = some (ok, b) ∧
    b.Represents (if m key = none then m else Function.update m key (some v)) ∧ b.Unpinned := by
  obtain ⟨filed, live, order, ok⟩ := held
  have held : a.Represents m := ⟨filed, live, order, ok⟩
  unfold modify
  cases known : m key with
  | none =>
    have vacant := ok.vacant (by simp) known
    rw [if_pos rfl]
    by_cases outside : a.curEntryNum ≤ key
    · exact ⟨false, a, if_pos outside, held, free⟩
    · have small := filed.lt_limit (Nat.lt_of_not_le outside)
      exact ⟨false, a, by simp [outside, Nat.not_le_of_lt small, vacant.unused], held, free⟩
  | some w =>
    have keeps := ok.keeps (by simp) known
    have inside := filed.used_lt keeps.used
    have cached : (a.entry key).cached = true := by
      by_contra uncached
      exact (keeps.disk (by simpa using uncached)).2 noStore
    have gave := giveUp_eq (free key) noStore cached
    obtain ⟨rest, hole⟩ := ok.dequeue (free key)
    have inner : key < (a.dequeue key).curEntryNum := by rwa [dequeue_curEntryNum]
    have filedC : ((a.dequeue key).setEntry key
          { a.entry key with dirty := true, value := none, cached := false }).Filed :=
      filed.dequeue.setDirty inner rfl
    have holeC := hole.setHole { a.entry key with dirty := true, value := none, cached := false }
    have freeC : ((a.dequeue key).setEntry key
          { a.entry key with dirty := true, value := none, cached := false }).Unpinned :=
      Unpinned.setEntry (fun k => by rw [dequeue_entry]; exact free k) (by exact free key)
    have entryC : ((a.dequeue key).setEntry key
        { a.entry key with dirty := true, value := none, cached := false }).entry key =
      { a.entry key with dirty := true, value := none, cached := false } := setEntry_self
    have size : ((a.dequeue key).setEntry key
        { a.entry key with dirty := true, value := none, cached := false }).maxCacheSize =
      a.maxCacheSize := dequeue_cacheSize a key
    generalize (a.dequeue key).setEntry key
      { a.entry key with dirty := true, value := none, cached := false } = c
      at gave filedC holeC freeC entryC size
    have room := fits keeps.used c gave
    have insideC : key < c.curEntryNum := filedC.used_lt (by rw [entryC]; exact keeps.used)
    obtain ⟨b, added, used, dirty, kept⟩ :=
      storeShort_spec filedC holeC insideC (size ▸ fitting) room
      (by rw [entryC]; exact noStore) (freeC key)
    -- the flags are set already
    have same : b.setEntry key { b.entry key with used := true, dirty := true } = b := by
      have usedB : (b.entry key).used = true := by
        rw [used, entryC]
        exact keeps.used
      have dirtyB : (b.entry key).dirty = true := by rw [dirty, entryC]
      have entry : { b.entry key with used := true, dirty := true } = b.entry key := by
        cases entry : b.entry key
        simp_all
      rw [entry, setEntry, Function.update_eq_self]
    rw [same] at kept
    refine ⟨true, b, ?_, by simpa using kept, addInCache_unpinned freeC added⟩
    simp [Nat.not_le_of_lt inside, Nat.not_le_of_lt (filed.lt_limit inside), keeps.used, gave,
        added]

end Calls

inductive Call where
  | insert (key : Nat) (str : List UInt8)
  | modify (key : Nat) (str : List UInt8)
  | remove (key : Nat)
  | search (key : Nat)
  | save

def step (a : ISCache) : Call → Option ISCache
  | .insert key str => (a.insert key str).map Prod.snd
  | .modify key str => (modify a key str).map Prod.snd
  | .remove key => (remove a key).map Prod.snd
  | .search key => (a.search key).map Prod.snd
  | .save => a.save

def effect (m : Nat → Option (List UInt8)) : Call → Nat → Option (List UInt8)
  | .insert key str =>
    if m key = none ∧ key < maxKeyNum then Function.update m key (some str) else m
  | .modify key str => if m key = none then m else Function.update m key (some str)
  | .remove key => Function.update m key none
  | .search _ | .save => m

/-- Strings fit into the cache, keys are within the entries that an `int` counts, every string that
the call writes has room, and no key is modified while it has blocks. -/
def Fits (a : ISCache) : Call → Prop
  | .insert key str =>
    (key < keyLimit ∨ maxKeyNum ≤ key) ∧ Fitting isBlocks a.maxCacheSize str ∧ a.InsertFits key str
  | .modify key str =>
    (a.entry key).store = 0 ∧ Fitting isBlocks a.maxCacheSize str ∧ ModifyFits a key str
  | .remove _ => True
  | .search key => a.SearchFits key
  | .save => SaveFits (List.range a.curEntryNum) a.countEntries

instance (a : ISCache) (c : Call) : Decidable (Fits a c) :=
  match c with
  | .insert key str =>
    inferInstanceAs (Decidable
      ((key < keyLimit ∨ maxKeyNum ≤ key) ∧ Fitting _ _ str ∧ a.InsertFits key str))
  | .modify key str =>
    inferInstanceAs (Decidable ((a.entry key).store = 0 ∧ Fitting _ _ str ∧ ModifyFits a key str))
  | .remove _ => isTrue trivial
  | .search key => inferInstanceAs (Decidable (a.SearchFits key))
  | .save => inferInstanceAs (Decidable (SaveFits _ _))

variable {m : Nat → Option (List UInt8)}

theorem step_represents {a : ISCache} {c : Call} (held : a.Represents m) (free : a.Unpinned)
    (fits : Fits a c) : ∃ b, step a c = some b ∧ b.Represents (effect m c) ∧ b.Unpinned := by
  cases c with
  | insert key str =>
    obtain ⟨small, fitting, room⟩ := fits
    obtain ⟨ok, b, inserted, kept⟩ := insert_spec held small fitting room
    exact ⟨b, by rw [step, inserted, Option.map_some], kept, insert_unpinned free inserted⟩
  | modify key str =>
    obtain ⟨noStore, fitting, room⟩ := fits
    obtain ⟨ok, b, modified, kept, freeB⟩ := modify_spec held free noStore fitting room
    exact ⟨b, by rw [step, modified, Option.map_some], kept, freeB⟩
  | remove key =>
    obtain ⟨ok, b, removed, kept, freeB⟩ := @remove_spec a m key held free
    exact ⟨b, by rw [step, removed, Option.map_some], kept, freeB⟩
  | search key =>
    obtain ⟨b, found, kept⟩ := search_spec held fits
    exact ⟨b, by rw [step, found, Option.map_some], kept, search_unpinned free found⟩
  | save =>
    obtain ⟨b, saved, kept, -, -⟩ := save_spec held fits
    exact ⟨b, saved, kept, save_unpinned free saved⟩

theorem blocks_apart {a : ISCache} (held : a.Represents m) :
    (∀ key, (a.entry key).used = true → ∀ b ∈ a.manager.chain (2 ^ 32) (a.entry key).store,
      ¬ Covers a.manager.free.byIndex b) ∧
      ∀ j k, (a.entry j).used = true → (a.entry k).used = true → ∀ b ∈ a.manager.chain (2 ^ 32)
      (a.entry j).store,
        b ∈ a.manager.chain (2 ^ 32) (a.entry k).store → j = k := by
  obtain ⟨filed, live, order, ok⟩ := held
  have lives : ∀ k b, (a.entry k).used = true → b ∈ a.manager.chain (2 ^ 32) (a.entry k).store →
      (a.entry k).store ≠ 0 ∧ ∃ v, live (a.entry k).store = some v ∧
      Within ((a.entry k).store, blocksFor isBlocks v.length) b := by
    intro k b used member
    obtain ⟨v, known⟩ := (ok.used_iff (by simp)).mp used
    have some : (a.entry k).store ≠ 0 := fun none => by
      rw [none] at member
      cases member
    have live := (ok.keeps (by simp) known).stored some
    exact ⟨some, v, live, (ok.exclusive.mem_chain live).mp member⟩
  refine ⟨fun key used b member => ?_, fun j k usedLeft usedRight b left right => ?_⟩
  · obtain ⟨-, v, live, within⟩ := lives key b used member
    exact ok.exclusive.notFree _ v b live within
  · obtain ⟨some, v, liveLeft, inLeft⟩ := lives j b usedLeft left
    obtain ⟨-, w, liveRight, inRight⟩ := lives k b usedRight right
    exact ok.owner j k (by simp) (by simp) some (ok.exclusive.notShared _ v _ w b liveLeft liveRight inLeft inRight)

/-- As long as no key is modified while it has blocks, searches return the string last stored, no
index that `FreeBlocks` can be called on has a free block, and no block is in the chains of two
keys. -/
theorem search_and_blocks_of_used (bufferSize keyNum : Nat) (small : keyNum < keyLimit)
    (calls : List Call)
    (guarded : Guarded step Fits (build isBlocks bufferSize keyNum) calls) (n : Nat) :
    ∃ a, run step (build isBlocks bufferSize keyNum) (calls.take n) = some a ∧
      (∀ key, calls[n]? = some (.search key) →
        ∃ b, a.search key = some ((calls.take n).foldl effect (fun _ => none) key, b)) ∧
      (∀ key, (a.entry key).used = true → ∀ b ∈ a.manager.chain (2 ^ 32) (a.entry key).store,
        ¬ Covers a.manager.free.byIndex b) ∧
      ∀ j k, (a.entry j).used = true → (a.entry k).used = true → ∀ b ∈ a.manager.chain (2 ^ 32)
      (a.entry j).store,
        b ∈ a.manager.chain (2 ^ 32) (a.entry k).store → j = k := by
  have keeps : ∀ (a : ISCache) m c, a.Represents m ∧ a.Unpinned → Fits a c →
      ∃ b, step a c = some b ∧ b.Represents (effect m c) ∧ b.Unpinned :=
      fun a m c both fits => step_represents both.1 both.2 fits
  obtain ⟨a, reached, held, -⟩ :=
    run_refines keeps ⟨build_represents small, fun _ => rfl⟩ (guarded.take n)
  refine ⟨a, reached, fun key next => ?_, blocks_apart held⟩
  obtain ⟨b, found, -⟩ := search_spec held (guarded.next reached next)
  exact ⟨b, found⟩

theorem reloaded_string_has_its_block :
    ∃ a, run step (build isBlocks 1 5) [.insert 0 [65], .insert 1 [66], .modify 1 [67]] = some a ∧
      ∃ b, a.search 0 = some (some [65], b) := by
  obtain ⟨a, reached, found, -⟩ := search_and_blocks_of_used 1 5 (by decide)
    [.insert 0 [65], .insert 1 [66], .modify 1 [67], .search 0, .search 1] (by decide +kernel) 3
  exact ⟨a, reached, found 0 rfl⟩

/-- A key that is modified on disk keeps the index of a block that goes to another key, and frees
that block later. -/
theorem stale_index_frees_block :
    ∃ a, run step (build isBlocks 1 5) [.insert 0 [65], .insert 1 [66], .modify 0 [67]] = some a ∧
      (a.entry 0).store = 1 ∧ (a.entry 1).store = 1 ∧ (a.entry 1).cached = false ∧
      (step a (.modify 0 [68])).map (fun b => ((b.entry 1).store, b.manager.free.byIndex)) = some
      (1, [(1, 102400)]) :=
  ⟨_, rfl, by decide +kernel⟩

end ISCache
end GStore
