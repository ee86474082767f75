import GStore.KVstore.CacheArray
import Mathlib.Data.List.Perm.Basic

/-! The coupling invariant of a cached array: flags and store indexes of the entries, the cache
queue and its size, and the block file together hold one map from keys to values. -/
namespace GStore

open Lib BlockManager Function List

/-- The entry of a used key holds its value: in memory while it is cached, and in the live blocks at
its store index, if it has one. -/
structure CacheEntry.Keeps (e : CacheEntry) (live : Nat → Option (List UInt8)) (v : List UInt8) :
    Prop where
  used : e.used = true
  memory : e.cached = true → e.value = some v
  disk : e.cached = false → e.value = none ∧ e.store ≠ 0
  stored : e.store ≠ 0 → live e.store = some v
  clean : e.dirty = false → e.store ≠ 0
  pinnedCached : e.pinned = true → e.cached = true

structure CacheEntry.Vacant (e : CacheEntry) : Prop where
  unused : e.used = false
  store : e.store = 0
  value : e.value = none
  cached : e.cached = false
  pinned : e.pinned = false

def CacheEntry.Holds (e : CacheEntry) (live : Nat → Option (List UInt8)) :
    Option (List UInt8) → Prop
  | none => e.Vacant
  | some v => e.Keeps live v

theorem CacheEntry.Holds.transfer {e : CacheEntry} {live live' : Nat → Option (List UInt8)}
    {value : Option (List UInt8)}
    (holds : e.Holds live value) (same : e.store ≠ 0 → live' e.store = live e.store) :
        e.Holds live' value := by
  cases value with
  | none => exact holds
  | some v =>
    have keeps : e.Keeps live v := holds
    exact { keeps with stored := fun some => (same some).trans (keeps.stored some) }

theorem CacheEntry.Keeps.unpinned {e : CacheEntry} {live : Nat → Option (List UInt8)}
    {v : List UInt8} (keeps : e.Keeps live v) (uncached : e.cached = false) :
    e.pinned = false := by
  cases pinned : e.pinned with
  | false => rfl
  | true => exact absurd (uncached.symm.trans (keeps.pinnedCached pinned)) (by decide)

namespace CacheArray

variable {kind : BlockKind}

structure Fitting (kind : BlockKind) (cacheSize : Nat) (v : List UInt8) : Prop where
  filled : v ≠ []
  cacheable : v.length ≤ cacheSize
  typed : v.length + kind.dataSize ≤ kind.lenWord

instance {size : Nat} {v : List UInt8} : Decidable (Fitting kind size v) :=
  decidable_of_iff (v ≠ [] ∧ v.length ≤ size ∧ v.length + kind.dataSize ≤ kind.lenWord)
    ⟨fun ⟨filled, cacheable, typed⟩ => ⟨filled, cacheable, typed⟩,
        fun fits => ⟨fits.filled, fits.cacheable, fits.typed⟩⟩

/-- `m` is the map the array holds, `live` the values in its blocks and `order` its cache queue. The
entry at `hole` is being changed and only known to be outside the queue. -/
structure Coherent (a : CacheArray kind) (live : Nat → Option (List UInt8))
    (m : Nat → Option (List UInt8))
    (order : List Nat) (hole : Option Nat) : Prop where
  exclusive : a.manager.Exclusive live
  below : a.manager.allocated < 2 ^ 32 - 1
  listed : a.lru.Lists order
  queued : ∀ k, hole ≠ some k → (k ∈ order ↔ (a.entry k).cached = true ∧ (a.entry k).pinned = false)
  outside : ∀ k, hole = some k → k ∉ order
  keys : ∀ k ∈ order, k < maxKeyNum
  size : a.curCacheSize = (order.map fun k => (a.entry k).len).sum % 2 ^ 32
  holds : ∀ k, hole ≠ some k → (a.entry k).Holds live (m k)
  owner : ∀ j k, hole ≠ some j → hole ≠ some k → (a.entry j).store ≠ 0 →
    (a.entry j).store = (a.entry k).store → j = k
  fitting : ∀ k v, hole ≠ some k → m k = some v → Fitting kind a.maxCacheSize v

section Hole

variable {a : CacheArray kind} {live m : Nat → Option (List UInt8)} {order : List Nat}
    {hole : Option Nat} {key : Nat}

theorem Coherent.length_le (ok : a.Coherent live m order hole) : order.length ≤ maxKeyNum := by
  have inside : order ⊆ List.range maxKeyNum := fun k there => mem_range.mpr (ok.keys k there)
  simpa using (subperm_of_subset ok.listed.nodup inside).length_le

variable {v : List UInt8} {k : Nat}

section

variable (ok : a.Coherent live m order hole) (away : hole ≠ some k)
include ok away

theorem Coherent.keeps (known : m k = some v) : (a.entry k).Keeps live v := by
  have holds := ok.holds k away
  rw [known] at holds
  exact holds

theorem Coherent.vacant (unknown : m k = none) : (a.entry k).Vacant := by
  have holds := ok.holds k away
  rw [unknown] at holds
  exact holds

theorem Coherent.used_iff : (a.entry k).used = true ↔ ∃ v, m k = some v := by
  cases known : m k with
  | none => simp [(ok.vacant away known).unused]
  | some v => simp [(ok.keeps away known).used]

end

theorem Coherent.of_mem (ok : a.Coherent live m order hole) (there : k ∈ order) :
    hole ≠ some k ∧ (a.entry k).cached = true ∧ (a.entry k).pinned = false ∧
      ∃ v, m k = some v ∧ (a.entry k).Keeps live v ∧ (a.entry k).value = some v ∧
          (a.entry k).len = v.length := by
  have away : hole ≠ some k := fun same => ok.outside k same there
  obtain ⟨cached, free⟩ := (ok.queued k away).mp there
  cases known : m k with
  | none => simp [(ok.vacant away known).cached] at cached
  | some v =>
    have keeps := ok.keeps away known
    have value := keeps.memory cached
    exact ⟨away, cached, free, v, rfl, keeps, value, by rw [CacheEntry.len, value]; rfl⟩

theorem Coherent.openHole (ok : a.Coherent live m order none) (out : key ∉ order) :
    a.Coherent live m order (some key) where
  __ := ok
  queued k _ := ok.queued k (by simp)
  outside k same := Option.some.inj same ▸ out
  holds k _ := ok.holds k (by simp)
  owner j k _ _ := ok.owner j k (by simp) (by simp)
  fitting k v _ := ok.fitting k v (by simp)

theorem size_update {e : CacheEntry} (out : key ∉ order) :
    (order.map fun k => ((a.setEntry key e).entry k).len) = order.map fun k => (a.entry k).len := by
  apply map_congr_left
  intro k there
  have differs : k ≠ key := fun same => out (same ▸ there)
  simp [setEntry, update_of_ne differs]

variable {e : CacheEntry}

theorem setEntry_ne (differs : k ≠ key) : (a.setEntry key e).entry k = a.entry k :=
  update_of_ne differs ..

theorem setEntry_self : (a.setEntry key e).entry key = e := update_self ..

theorem ne_hole (away : some key ≠ some k) : k ≠ key := fun same => away (congrArg some same.symm)

theorem Coherent.setHole (ok : a.Coherent live m order (some key)) (e : CacheEntry) :
    (a.setEntry key e).Coherent live m order (some key) where
  __ := ok
  queued k away := by
    rw [setEntry_ne (ne_hole away)]
    exact ok.queued k away
  size := ok.size.trans (by rw [size_update (ok.outside key rfl)])
  holds k away := by
    rw [setEntry_ne (ne_hole away)]
    exact ok.holds k away
  owner j k awayLeft awayRight := by
    rw [setEntry_ne (ne_hole awayLeft), setEntry_ne (ne_hole awayRight)]
    exact ok.owner j k awayLeft awayRight

structure Fills (a : CacheArray kind) (live : Nat → Option (List UInt8)) (key : Nat)
    (e : CacheEntry)
    (value : Option (List UInt8)) : Prop where
  holds : e.Holds live value
  unshared : e.store ≠ 0 → ∀ k, k ≠ key → (a.entry k).store ≠ e.store
  fitting : ∀ v, value = some v → Fitting kind a.maxCacheSize v

variable {value : Option (List UInt8)}

section

variable (fills : a.Fills live key e value) (ok : a.Coherent live m order (some key))
include fills ok

theorem Fills.owner (j k : Nat) (some : ((a.setEntry key e).entry j).store ≠ 0)
    (same : ((a.setEntry key e).entry j).store = ((a.setEntry key e).entry k).store) : j = k := by
  obtain rfl | left := eq_or_ne j key
  · by_cases right : k = j
    · exact right.symm
    · rw [setEntry_self] at some same
      rw [setEntry_ne right] at same
      exact absurd same.symm (fills.unshared some k right)
  · rw [setEntry_ne left] at some same
    obtain rfl | right := eq_or_ne k key
    · rw [setEntry_self] at same
      exact absurd same (fills.unshared (same ▸ some) j left)
    · rw [setEntry_ne right] at same
      exact ok.owner j k (fun h => left (Option.some.inj h).symm)
        (fun h => right (Option.some.inj h).symm) some same

theorem Fills.holds_all (k : Nat) :
    ((a.setEntry key e).entry k).Holds live (Function.update m key value k) := by
  obtain rfl | same := eq_or_ne k key
  · rw [setEntry_self, update_self]
    exact fills.holds
  · rw [setEntry_ne same, update_of_ne same]
    exact ok.holds k fun h => same (Option.some.inj h).symm

theorem Fills.fitting_all (k : Nat) (v : List UInt8)
    (known : Function.update m key value k = some v) :
    Fitting kind a.maxCacheSize v := by
  obtain rfl | same := eq_or_ne k key
  · rw [update_self] at known
    exact fills.fitting v known
  · rw [update_of_ne same] at known
    exact ok.fitting k v (fun h => same (Option.some.inj h).symm) known

end

theorem Coherent.fill (ok : a.Coherent live m order (some key))
    (fills : a.Fills live key e value) (unqueued : ¬ (e.cached = true ∧ e.pinned = false)) :
    (a.setEntry key e).Coherent live (Function.update m key value) order none where
  __ := ok
  queued k _ := by
    obtain rfl | same := eq_or_ne k key
    · rw [setEntry_self]
      exact iff_of_false (ok.outside k rfl) unqueued
    · rw [setEntry_ne same]
      exact ok.queued k fun h => same (Option.some.inj h).symm
  outside k none := by cases none
  size := ok.size.trans (by rw [size_update (ok.outside key rfl)])
  holds k _ := fills.holds_all ok k
  owner j k _ _ := fills.owner ok j k
  fitting k v _ := fills.fitting_all ok k v

theorem Coherent.fillQueued (ok : a.Coherent live m order (some key))
    (fills : a.Fills live key e (some v)) (cached : e.cached = true) (free : e.pinned = false)
      (small : key < maxKeyNum) :
    (((a.setQueue (a.lru.pushBack key)).addSize v.length).setEntry key e).Coherent live
      (Function.update m key (some v)) (order ++ [key]) none where
  __ := ok
  listed := ok.listed.pushBack (ok.outside key rfl)
  queued k _ := by
    obtain rfl | same := eq_or_ne k key
    · rw [setEntry_self]
      exact iff_of_true (mem_append_right _ (mem_singleton_self k)) ⟨cached, free⟩
    · rw [setEntry_ne same, mem_append, mem_singleton, or_iff_left same]
      exact ok.queued k fun h => same (Option.some.inj h).symm
  outside k none := by cases none
  keys k there := by
    rcases mem_append.mp there with old | new
    · exact ok.keys k old
    · exact mem_singleton.mp new ▸ small
  size := by
    have value : e.value = some v := (show e.Keeps live v from fills.holds).memory cached
    have length : e.len = v.length := by rw [CacheEntry.len, value]; rfl
    have old := @size_update kind ((a.setQueue (a.lru.pushBack key)).addSize v.length) order key e
      (ok.outside key rfl)
    rw [map_append, sum_append, old, map_singleton, sum_singleton, setEntry_self, length]
    have := ok.size
    simp [setEntry, addSize, setQueue, this, Nat.mod_add_mod]
  holds k _ := fills.holds_all ok k
  owner j k _ _ := fills.owner ok j k
  fitting k v _ := fills.fitting_all ok k v

theorem Coherent.unqueue {front back : List Nat}
    (ok : a.Coherent live m (front ++ key :: back) none) :
    ((a.setQueue (a.lru.unlink key)).subSize (a.entry key).len).Coherent live m (front ++ back)
      (some key) where
  __ := ok
  listed := ok.listed.unlink
  queued k away := by
    have old := ok.queued k (by simp)
    rw [mem_append, mem_cons, or_left_comm, or_iff_right (ne_hole away), ← mem_append] at old
    exact old
  outside k same := by
    cases Option.some.inj same
    exact (nodup_cons.mp (nodup_middle.mp ok.listed.nodup)).1
  keys k there := ok.keys k (by
    rcases mem_append.mp there with left | right
    · exact mem_append_left _ left
    · exact mem_append_right _ (mem_cons_of_mem _ right))
  size := by
    have := ok.size
    simp only [map_append, map_cons, sum_append, sum_cons] at this ⊢
    simp only [subSize, setQueue, this]
    omega
  holds k _ := ok.holds k (by simp)
  owner j k _ _ := ok.owner j k (by simp) (by simp)
  fitting k v _ := ok.fitting k v (by simp)

theorem Coherent.free {i : Nat} (ok : a.Coherent live m order (some key)) (lives : live i = some v)
    (unshared : ∀ k, k ≠ key → (a.entry k).store ≠ i) :
      ∃ manager, a.manager.freeBlocks i = some manager ∧
      (a.setManager manager).Coherent (Function.update live i none) m order (some key) := by
  obtain ⟨positive, inside⟩ := ok.exclusive.inside i v lives
  have below := ok.below
  obtain ⟨manager, freed, same, exclusive⟩ := freeBlocks_spec ok.exclusive lives (by omega)
  refine ⟨manager, freed, { ok with exclusive := exclusive, below := same ▸ below, holds := fun k away => ?_ }⟩
  exact (ok.holds k away).transfer fun _ => update_of_ne (unshared k (ne_hole away)) ..

theorem Coherent.write (ok : a.Coherent live m order hole) (fitting : Fitting kind a.maxCacheSize v)
    (room : a.manager.Room (2 ^ 32 - 1) v.length) :
    ∃ i manager, a.manager.writeValue v = some (i, manager) ∧ 0 < i ∧ live i = none ∧
      (∀ k, hole ≠ some k → (a.entry k).store ≠ i) ∧
      (a.setManager manager).Coherent (Function.update live i (some v)) m order hole := by
  obtain ⟨i, manager, written, positive, vacant, below, exclusive⟩ :=
    writeValue_spec (by decide) ok.exclusive ok.below fitting.filled fitting.typed room
  have unshared : ∀ k, hole ≠ some k → (a.entry k).store ≠ i := by
    intro k away same
    cases known : m k with
    | none =>
      rw [(ok.vacant away known).store] at same
      omega
    | some w =>
      have lives := (ok.keeps away known).stored (by omega)
      rw [same, vacant] at lives
      cases lives
  refine ⟨i, manager, written, positive, vacant, unshared,
    { ok with exclusive := exclusive, below := below, holds := fun k away => ?_ }⟩
  exact (ok.holds k away).transfer fun _ => update_of_ne (unshared k away) ..

end Hole

/-- What evictions leave alone: the numbers and the files, the entries outside the queue, the flags
of all entries, the store indexes of clean ones and the values in live blocks. -/
structure Evicts (a b : CacheArray kind) (live live' : Nat → Option (List UInt8))
    (order : List Nat) : Prop where
  entryNum : b.entryNum = a.entryNum
  curEntryNum : b.curEntryNum = a.curEntryNum
  change : b.curEntryNumChange = a.curEntryNumChange
  cacheSize : b.maxCacheSize = a.maxCacheSize
  files : b.files = a.files
  away : ∀ k, k ∉ order → b.entry k = a.entry k
  used : ∀ k, (b.entry k).used = (a.entry k).used
  dirty : ∀ k, (b.entry k).dirty = (a.entry k).dirty
  clean : ∀ k, (a.entry k).dirty = false → (b.entry k).store = (a.entry k).store
  lives : ∀ i v, live i = some v → live' i = some v

theorem Evicts.refl (a : CacheArray kind) (live : Nat → Option (List UInt8)) (order : List Nat) :
    a.Evicts a live live order :=
  ⟨rfl, rfl, rfl, rfl, rfl, fun _ _ => rfl, fun _ => rfl, fun _ => rfl, fun _ _ => rfl,
      fun _ _ lives => lives⟩

theorem Evicts.trans {a b c : CacheArray kind} {l l' l'' : Nat → Option (List UInt8)}
    {order rest : List Nat}
    (first : a.Evicts b l l' order) (second : b.Evicts c l' l'' rest)
      (fewer : ∀ k ∈ rest, k ∈ order) :
    a.Evicts c l l'' order where
  entryNum := second.entryNum.trans first.entryNum
  curEntryNum := second.curEntryNum.trans first.curEntryNum
  change := second.change.trans first.change
  cacheSize := second.cacheSize.trans first.cacheSize
  files := second.files.trans first.files
  away k out := (second.away k fun there => out (fewer k there)).trans (first.away k out)
  used k := (second.used k).trans (first.used k)
  dirty k := (second.dirty k).trans (first.dirty k)
  clean k clean := (second.clean k ((first.dirty k).trans clean)).trans (first.clean k clean)
  lives i v lives := second.lives i v (first.lives i v lives)

def SwapFits (a : CacheArray kind) : Prop :=
  ∀ target ∈ a.lru.head, (a.entry target).dirty = true → a.manager.Room (2 ^ 32 - 1)
    (a.entry target).len

instance {a : CacheArray kind} : Decidable a.SwapFits :=
  inferInstanceAs (Decidable (∀ target ∈ a.lru.head, (a.entry target).dirty = true →
      a.manager.Room (2 ^ 32 - 1) (a.entry target).len))

section Swap

variable {a : CacheArray kind} {live m : Nat → Option (List UInt8)} {order : List Nat}
    {hole : Option Nat}

theorem Coherent.evict {t store : Nat} {v : List UInt8} (ok : a.Coherent live m (t :: order) hole)
    (known : m t = some v) (some : store ≠ 0) (lives : live store = .some v)
    (unshared : ∀ k, hole ≠ .some k → k ≠ t → (a.entry k).store ≠ store) :
    (((a.setQueue (a.lru.popFront t)).subSize (a.entry t).len).setEntry t
      { a.entry t with store := store, value := none, cached := false }).Coherent live m order
          hole := by
  obtain ⟨away, cached, free, w, knownToo, keeps, value, length⟩ := ok.of_mem mem_cons_self
  obtain ⟨out, nodup⟩ := nodup_cons.mp ok.listed.nodup
  refine ⟨ok.exclusive, ok.below, ok.listed.popFront, fun k awayK => ?_,
      fun k same there => ok.outside k same (mem_cons_of_mem _ there),
    fun k there => ok.keys k (mem_cons_of_mem _ there), ?_, fun k awayK => ?_,
      fun j k awayLeft awayRight someLeft same => ?_, ok.fitting⟩
  · obtain rfl | same := eq_or_ne k t
    · rw [setEntry_self]
      exact iff_of_false out fun h => Bool.false_ne_true h.1
    · have old := ok.queued k awayK
      rw [mem_cons, or_iff_right same] at old
      rw [setEntry_ne same]
      exact old
  · rw [size_update out]
    have := ok.size
    simp only [map_cons, sum_cons] at this
    simp only [setEntry, subSize, setQueue, this]
    omega
  · obtain rfl | same := eq_or_ne k t
    · rw [setEntry_self, known]
      exact ⟨keeps.used, fun h => absurd h Bool.false_ne_true, fun _ => ⟨rfl, some⟩, fun _ => lives,
          fun _ => some,
        fun pinned => absurd (free.symm.trans pinned) Bool.false_ne_true⟩
    · rw [setEntry_ne same]
      exact ok.holds k awayK
  · obtain rfl | left := eq_or_ne j t
    · by_cases right : k = j
      · exact right.symm
      · rw [setEntry_self, setEntry_ne right] at same
        exact absurd same.symm (unshared k awayRight right)
    · rw [setEntry_ne left] at someLeft same
      obtain rfl | right := eq_or_ne k t
      · rw [setEntry_self] at same
        exact absurd same (unshared j awayLeft left)
      · rw [setEntry_ne right] at same
        exact ok.owner j k awayLeft awayRight someLeft same

theorem Evicts.single {b : CacheArray kind} {live' : Nat → Option (List UInt8)} {t : Nat}
    {e : CacheEntry}
    (numbers : b.entryNum = a.entryNum ∧ b.curEntryNum = a.curEntryNum ∧
        b.curEntryNumChange = a.curEntryNumChange ∧
      b.maxCacheSize = a.maxCacheSize ∧ b.files = a.files)
        (entries : b.entry = Function.update a.entry t e)
    (used : e.used = (a.entry t).used) (dirty : e.dirty = (a.entry t).dirty)
    (clean : (a.entry t).dirty = false → e.store = (a.entry t).store)
      (lives : ∀ i v, live i = some v → live' i = some v) :
    a.Evicts b live live' (t :: order) := by
  obtain ⟨entryNum, curEntryNum, change, cacheSize, files⟩ := numbers
  refine ⟨entryNum, curEntryNum, change, cacheSize, files, fun k out => ?_, fun k => ?_,
      fun k => ?_, fun k => ?_, lives⟩
  · have differs : k ≠ t := fun same => out (same ▸ mem_cons_self)
    rw [entries, update_of_ne differs]
  all_goals
    obtain rfl | same := eq_or_ne k t
    · rw [entries, update_self]
      assumption
    · rw [entries, update_of_ne same]
      try exact fun _ => rfl

theorem swapOut_spec {t : Nat} (ok : a.Coherent live m (t :: order) hole) (fits : a.SwapFits) :
    ∃ b live', a.swapOut = some b ∧ b.Coherent live' m order hole ∧
        a.Evicts b live live' (t :: order) := by
  obtain ⟨away, cached, free, v, known, keeps, value, length⟩ := ok.of_mem mem_cons_self
  have first : a.lru.head = some t := ok.listed.head
  cases dirty : (a.entry t).dirty with
  | true =>
    have room := fits t first dirty
    rw [length] at room
    obtain ⟨i, manager, written, positive, vacant, unshared, kept⟩ :=
      ok.write (ok.fitting t v away known) room
    have stays := kept.evict known positive.ne' (update_self ..) fun k awayK _ => unshared k awayK
    refine ⟨_, _, ?_, stays, Evicts.single ⟨rfl, rfl, rfl, rfl, rfl⟩ rfl rfl rfl ?_ fun j w lives =>
        ?_⟩
    · have some : i ≠ 0 := positive.ne'
      simp [swapOut, first, writeOut, setQueue, subSize, setManager, setEntry, dirty, value,
          written, some]
    · exact fun clean => absurd (dirty.symm.trans clean) (by decide)
    · have differs : j ≠ i := fun same => by
        rw [same, vacant] at lives
        cases lives
      rw [update_of_ne differs]
      exact lives
  | false =>
    have some := keeps.clean dirty
    have stays := ok.evict known some (keeps.stored some) fun k awayK differs same =>
      differs (ok.owner k t awayK away (same ▸ some) same)
    refine ⟨_, _, ?_, stays, Evicts.single ⟨rfl, rfl, rfl, rfl, rfl⟩ rfl rfl rfl (fun _ => rfl)
        fun _ _ lives => lives⟩
    simp [swapOut, first, setQueue, subSize, setEntry, dirty]

end Swap

def RoomFits : Nat → CacheArray kind → Nat → Prop
  | 0, _, _ => True
  | turns + 1, a, len => a.maxCacheSize < (a.curCacheSize + len) % kind.lenWord →
      a.SwapFits ∧ ∀ b ∈ a.swapOut, RoomFits turns b len

instance RoomFits.decidable :
    ∀ (turns : Nat) (a : CacheArray kind) (len : Nat), Decidable (RoomFits turns a len)
  | 0, _, _ => isTrue trivial
  | turns + 1, a, len =>
    have := fun b => RoomFits.decidable turns b len
    inferInstanceAs (Decidable (_ → _ ∧ ∀ b ∈ a.swapOut, RoomFits turns b len))

section Add

variable {a : CacheArray kind} {live m : Nat → Option (List UInt8)} {order : List Nat}
    {hole : Option Nat}

theorem makeRoom_spec {turns len : Nat} (ok : a.Coherent live m order hole)
    (cacheable : len ≤ a.maxCacheSize)
    (enough : order.length < turns) (fits : RoomFits turns a len) :
    ∃ b live' rest, makeRoom turns a len = some b ∧ b.Coherent live' m rest hole ∧
      a.Evicts b live live' order ∧
      ∀ k ∈ rest, k ∈ order := by
  induction turns generalizing a live order with
  | zero => exact absurd enough (Nat.not_lt_zero _)
  | succ turns ih =>
    by_cases full : a.maxCacheSize < (a.curCacheSize + len) % kind.lenWord
    · obtain ⟨swap, later⟩ := fits full
      cases order with
      | nil =>
        have zero : a.curCacheSize = 0 := ok.size
        rw [zero, Nat.zero_add] at full
        exact absurd (full.trans_le (Nat.mod_le len _)) (Nat.not_lt_of_le cacheable)
      | cons t order =>
        obtain ⟨b, live', swapped, kept, evicts⟩ := swapOut_spec ok swap
        obtain ⟨c, live'', rest, made, done, further, fewer⟩ :=
          ih kept (evicts.cacheSize ▸ cacheable) (Nat.lt_of_succ_lt_succ enough) (later b swapped)
        refine ⟨c, live'', rest, ?_, done, evicts.trans further fun k there =>
            mem_cons_of_mem _ there,
          fun k there => mem_cons_of_mem _ (fewer k there)⟩
        rw [makeRoom, if_pos full, swapped, Option.bind_some, made]
    · exact ⟨a, live, order, by rw [makeRoom, if_neg full], ok, Evicts.refl a live order, fun k there => there⟩

theorem addInCache_spec {key : Nat} {str : List UInt8} (ok : a.Coherent live m order hole)
    (cacheable : str.length ≤ a.maxCacheSize)
    (fits : RoomFits (maxKeyNum + 1) a str.length) :
    ∃ b live' rest, a.addInCache key str = some
      (((b.setQueue (b.lru.pushBack key)).addSize str.length).setEntry key
        { b.entry key with value := some str, cached := true }) ∧
      b.Coherent live' m rest hole ∧ a.Evicts b live live' order ∧ ∀ k ∈ rest, k ∈ order := by
  obtain ⟨b, live', rest, made, kept, evicts, fewer⟩ :=
    makeRoom_spec ok cacheable (Nat.lt_succ_of_le ok.length_le) fits
  refine ⟨b, live', rest, ?_, kept, evicts, fewer⟩
  rw [addInCache, if_neg (Nat.not_lt_of_le cacheable), made, Option.map_some]

end Add
end CacheArray
end GStore
