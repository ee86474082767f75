import GStore.KVstore.CacheOps

/-! `save` and opening again: the files hold the map of the array. -/
namespace GStore

open Lib BlockManager List

namespace CacheArray

variable {kind : BlockKind}

theorem Coherent.rewrite {a : CacheArray kind} {live m : Nat → Option (List UInt8)}
    {order : List Nat} {key : Nat} {e : CacheEntry}
    (ok : a.Coherent live m order none) (value : e.value = (a.entry key).value)
      (cached : e.cached = (a.entry key).cached)
    (pinned : e.pinned = (a.entry key).pinned) (holds : e.Holds live (m key))
    (unshared : e.store ≠ 0 → ∀ k, k ≠ key → (a.entry k).store ≠ e.store) :
    (a.setEntry key e).Coherent live m order none := by
  refine { ok with
    queued := fun k away => ?_, size := ok.size.trans ?_, holds := fun k away => ?_, owner :=
      fun j k _ _ some same => ?_ }
  · obtain rfl | here := eq_or_ne k key
    · rw [setEntry_self, cached, pinned]
      exact ok.queued k away
    · rw [setEntry_ne here]
      exact ok.queued k away
  · congr 2
    apply map_congr_left
    intro k _
    obtain rfl | here := eq_or_ne k key
    · rw [setEntry_self, CacheEntry.len, CacheEntry.len, value]
    · rw [setEntry_ne here]
  · obtain rfl | here := eq_or_ne k key
    · rw [setEntry_self]
      exact holds
    · rw [setEntry_ne here]
      exact ok.holds k away
  · obtain rfl | left := eq_or_ne j key
    · by_cases right : k = j
      · exact right.symm
      · rw [setEntry_self] at some same
        rw [setEntry_ne right] at same
        exact absurd same.symm (unshared some k right)
    · rw [setEntry_ne left] at some same
      obtain rfl | right := eq_or_ne k key
      · rw [setEntry_self] at same
        exact absurd same (unshared (same ▸ some) j left)
      · rw [setEntry_ne right] at same
        exact ok.owner j k (by simp) (by simp) some same

def SaveFits : List Nat → CacheArray kind → Prop
  | [], _ => True
  | key :: rest, a =>
    ((a.entry key).dirty = true → (a.entry key).used = true → (a.entry key).value.isSome = true →
      a.manager.Room (2 ^ 32 - 1) (a.entry key).len) ∧ ∀ b ∈ a.saveEntry key, SaveFits rest b

instance SaveFits.decidable : ∀ (keys : List Nat) (a : CacheArray kind), Decidable (SaveFits keys a)
  | [], _ => isTrue trivial
  | key :: rest, a =>
    have := fun b : CacheArray kind => SaveFits.decidable rest b
    inferInstanceAs (Decidable ((_ → _ → _ → _) ∧ ∀ b ∈ a.saveEntry key, SaveFits rest b))

/-- What `save` leaves alone. -/
structure Saves (a b : CacheArray kind) : Prop where
  curEntryNum : b.curEntryNum = a.curEntryNum
  change : b.curEntryNumChange = a.curEntryNumChange
  cacheSize : b.maxCacheSize = a.maxCacheSize
  clean : ∀ k, (a.entry k).dirty = false → (b.entry k).dirty = false

theorem Saves.refl (a : CacheArray kind) : a.Saves a := ⟨rfl, rfl, rfl, fun _ clean => clean⟩

theorem Saves.trans {a b c : CacheArray kind} (first : a.Saves b) (second : b.Saves c) :
    a.Saves c :=
  ⟨second.curEntryNum.trans first.curEntryNum, second.change.trans first.change,
      second.cacheSize.trans first.cacheSize,
    fun k clean => second.clean k (first.clean k clean)⟩

section Save

variable {a : CacheArray kind} {live m : Nat → Option (List UInt8)} {order : List Nat} {key : Nat}

def fileEntry (a : CacheArray kind) (key : Nat) (e : CacheEntry) : CacheArray kind :=
  { a.setEntry key e with files := { a.files with store := Function.update a.files.store key e.store } }

variable {e : CacheEntry}

theorem fileEntry_filed (filed : a.Filed) (inside : key < a.curEntryNum) :
    (a.fileEntry key e).Filed := by
  refine { filed with unallocated := fun k outside => ?_, saved := fun k clean => ?_ }
  · have differs : k ≠ key := fun same => Nat.not_le_of_lt inside (same ▸ outside)
    have same : (a.fileEntry key e).entry k = a.entry k := setEntry_ne differs
    rw [same]
    exact filed.unallocated k outside
  · obtain rfl | here := eq_or_ne k key
    · have entry : (a.fileEntry k e).entry k = e := setEntry_self
      rw [entry]
      exact Function.update_self ..
    · have same : (a.fileEntry key e).entry k = a.entry k := setEntry_ne here
      rw [same] at clean ⊢
      exact (Function.update_of_ne here ..).trans (filed.saved k clean)

theorem fileEntry_saves (clean : e.dirty = false) : a.Saves (a.fileEntry key e) := by
  refine ⟨rfl, rfl, rfl, fun k was => ?_⟩
  obtain rfl | here := eq_or_ne k key
  · have entry : (a.fileEntry k e).entry k = e := setEntry_self
    rw [entry]
    exact clean
  · have same : (a.fileEntry key e).entry k = a.entry k := setEntry_ne here
    rw [same]
    exact was

theorem Coherent.fileEntry (ok : (a.setEntry key e).Coherent live m order none) :
    (a.fileEntry key e).Coherent live m order none :=
  { ok with }

theorem saveEntry_spec (filed : a.Filed) (ok : a.Coherent live m order none)
    (inside : key < a.curEntryNum)
    (fits : (a.entry key).dirty = true → (a.entry key).used = true →
        (a.entry key).value.isSome = true →
      a.manager.Room (2 ^ 32 - 1) (a.entry key).len) :
    ∃ b live', a.saveEntry key = some b ∧ b.Filed ∧ b.Coherent live' m order none ∧ a.Saves b ∧
      (b.entry key).dirty = false := by
  have small := filed.lt_limit inside
  -- an index that stays is not shared
  have stays (some : (a.entry key).store ≠ 0) (k : Nat) (differs : k ≠ key) :
      (a.entry k).store ≠ (a.entry key).store := fun same =>
    differs (ok.owner k key (by simp) (by simp) (same ▸ some) same)
  unfold saveEntry
  rw [if_neg (Nat.not_le_of_lt small)]
  cases dirty : (a.entry key).dirty with
  | false => exact ⟨a, live, by simp, filed, ok, Saves.refl a, dirty⟩
  | true =>
    have filedEntry {e : CacheEntry} : (a.fileEntry key e).entry key = e := setEntry_self
    cases known : m key with
    | none =>
      have vacant := ok.vacant (by simp) known
      have holds : ({ a.entry key with dirty := false } : CacheEntry).Holds live (m key) := by
        rw [known]
        exact { vacant with }
      have kept := ok.rewrite (e := { a.entry key with dirty := false }) rfl rfl rfl holds
        fun some => absurd vacant.store some
      refine ⟨a.fileEntry key { a.entry key with dirty := false }, live, ?_,
          fileEntry_filed filed inside, kept.fileEntry,
        fileEntry_saves rfl, by rw [filedEntry]⟩
      simp [vacant.unused, fileEntry]
    | some v =>
      have keeps := ok.keeps (by simp) known
      cases cached : (a.entry key).cached with
      | false =>
        obtain ⟨value, some⟩ := keeps.disk cached
        have holds : ({ a.entry key with dirty := false } : CacheEntry).Holds live (m key) := by
          rw [known]
          exact { keeps with clean := fun _ => some }
        have kept := ok.rewrite (e := { a.entry key with dirty := false }) rfl rfl rfl holds stays
        refine ⟨a.fileEntry key { a.entry key with dirty := false }, live, ?_,
            fileEntry_filed filed inside, kept.fileEntry,
          fileEntry_saves rfl, by rw [filedEntry]⟩
        simp [value, fileEntry]
      | true =>
        have value := keeps.memory cached
        have room := fits dirty keeps.used (by rw [value]; rfl)
        have length : (a.entry key).len = v.length := by rw [CacheEntry.len, value]; rfl
        rw [length] at room
        obtain ⟨i, manager, written, positive, vacant, unshared, wrote⟩ :=
          ok.write (ok.fitting key v (by simp) known) room
        have holds : ({ a.entry key with store := i, dirty := false } : CacheEntry).Holds
            (Function.update live i (some v)) (m key) := by
          rw [known]
          exact ⟨keeps.used, keeps.memory,
              fun h => absurd (cached.symm.trans h) (by decide), fun _ => Function.update_self ..,
            fun _ => positive.ne', keeps.pinnedCached⟩
        have kept := @Coherent.rewrite kind _ _ m order key
          { a.entry key with store := i, dirty := false } wrote rfl rfl rfl holds fun _ k _ =>
            unshared k (by simp)
        refine ⟨(a.setManager manager).fileEntry key
            { a.entry key with store := i, dirty := false }, _, ?_,
          fileEntry_filed (a := a.setManager manager) { filed with } inside, kept.fileEntry, ?_, ?_⟩
        · simp [keeps.used, value, writeOut, written, fileEntry, setEntry, setManager]
        · have saves := @fileEntry_saves kind (a.setManager manager) key
            { a.entry key with store := i, dirty := false } rfl
          exact { saves with }
        · have entry : ((a.setManager manager).fileEntry key
              { a.entry key with store := i, dirty := false }).entry key =
              { a.entry key with store := i, dirty := false } := setEntry_self
          rw [entry]

theorem saveEntries_spec {keys : List Nat} (filed : a.Filed) (ok : a.Coherent live m order none)
    (inside : ∀ k ∈ keys, k < a.curEntryNum) (fits : SaveFits keys a) :
    ∃ b live', keys.foldlM saveEntry a = some b ∧ b.Filed ∧ b.Coherent live' m order none ∧
      a.Saves b ∧
      ∀ k ∈ keys, (b.entry k).dirty = false := by
  induction keys generalizing a live with
  | nil => exact ⟨a, live, rfl, filed, ok, Saves.refl a, nofun⟩
  | cons key keys ih =>
    obtain ⟨b, live', first, filedB, okB, saves, clean⟩ :=
      saveEntry_spec filed ok (inside key mem_cons_self) fits.1
    obtain ⟨c, live'', rest, filedC, okC, further, cleanRest⟩ := ih filedB okB
      (fun k there => saves.curEntryNum ▸ inside k (mem_cons_of_mem _ there)) (fits.2 b first)
    refine ⟨c, live'', ?_, filedC, okC, saves.trans further, fun k there => ?_⟩
    · rw [foldlM_cons, first]
      exact rest
    · rcases mem_cons.mp there with here | later
      · rw [here]
        exact further.clean key clean
      · exact cleanRest k later

def countEntries (a : CacheArray kind) : CacheArray kind :=
  if a.curEntryNumChange then
    { a with files := { a.files with entryNum := a.curEntryNum }, curEntryNumChange := false } else
      a

structure Saved (a : CacheArray kind) : Prop where
  clean : ∀ k, k < a.curEntryNum → (a.entry k).dirty = false
  counted : a.files.entryNum = a.curEntryNum
  free : ∃ rest, a.files.freeBlockList = freeBlockWords a.manager ++ rest

theorem countEntries_filed (filed : a.Filed) :
    a.countEntries.Filed ∧ a.countEntries.curEntryNumChange = false := by
  unfold countEntries
  cases change : a.curEntryNumChange with
  | true =>
    exact ⟨{ filed with counted := fun _ => rfl }, rfl⟩
  | false => exact ⟨filed, change⟩

theorem Coherent.countEntries (ok : a.Coherent live m order none) :
    a.countEntries.Coherent live m order none := by
  unfold CacheArray.countEntries
  split
  · exact { ok with }
  · exact ok

theorem countEntries_curEntryNum (a : CacheArray kind) :
    a.countEntries.curEntryNum = a.curEntryNum := by
  unfold countEntries
  split <;> rfl

theorem countEntries_cacheSize (a : CacheArray kind) :
    a.countEntries.maxCacheSize = a.maxCacheSize := by
  unfold countEntries
  split <;> rfl

theorem save_spec (held : a.Represents m)
    (fits : SaveFits (List.range a.curEntryNum) a.countEntries) :
    ∃ b, a.save = some b ∧ b.Represents m ∧ b.Saved ∧ b.maxCacheSize = a.maxCacheSize := by
  obtain ⟨filed, live, order, ok⟩ := held
  obtain ⟨filedStart, counted⟩ := countEntries_filed filed
  obtain ⟨b, live', saved, filedB, okB, saves, clean⟩ := saveEntries_spec filedStart ok.countEntries
    (fun k there => by rw [countEntries_curEntryNum]; exact mem_range.mp there) fits
  have size : b.curEntryNum = a.curEntryNum := saves.curEntryNum.trans (countEntries_curEntryNum a)
  let words := freeBlockWords b.manager
  refine ⟨{ b with files := { b.files with freeBlockList := words ++ b.files.freeBlockList.drop words.length } }, ?_, ⟨?_, live', order, ?_⟩,
    ⟨fun k inside => clean k (mem_range.mpr (size ▸ inside)),
        filedB.counted (saves.change.trans counted), _, rfl⟩,
    saves.cacheSize.trans (countEntries_cacheSize a)⟩
  · have start : (if a.curEntryNumChange = true then
        { a with files := { a.files with entryNum := a.curEntryNum }, curEntryNumChange := false }
      else a) = a.countEntries := rfl
    rw [save, start, saved]
    rfl
  · exact { filedB with }
  · exact { okB with }

end Save

theorem readFree_runs {runs : List (Nat × Nat)} {rest : List Nat} {maps : FreeMaps}
    (numbered : ∀ r ∈ runs, r.1 ≠ 0) :
    readFree (runs.flatMap (fun r => [r.1, r.2]) ++ 0 :: rest) maps = runs.foldl
      (fun maps r => ⟨enter r.1 r.2 maps.byIndex, insertSorted (toLex (r.2, r.1)) maps.byLen⟩)
          maps := by
  induction runs generalizing maps with
  | nil =>
    cases rest with
    | nil => rfl
    | cons word rest => rfl
  | cons r runs ih =>
    have some := numbered r mem_cons_self
    rw [foldl_cons, ← ih fun s there => numbered s (mem_cons_of_mem _ there)]
    exact if_neg some

theorem foldl_runs {runs : List (Nat × Nat)} (maps : FreeMaps) (ordered : Ordered runs)
    (old : Ordered maps.byIndex)
    (sorted : Increasing maps.byLen) (absent : ∀ r ∈ runs, ∀ e ∈ maps.byIndex, e.1 ≠ r.1) :
    let f := runs.foldl (fun maps r =>
        ⟨enter r.1 r.2 maps.byIndex, insertSorted (toLex (r.2, r.1)) maps.byLen⟩) maps
    Ordered f.byIndex ∧ Increasing f.byLen ∧ (∀ r, r ∈ f.byIndex ↔ r ∈ runs ∨ r ∈ maps.byIndex) ∧
      ∀ index len, toLex (len, index) ∈ f.byLen ↔ (index, len) ∈ runs ∨
          toLex (len, index) ∈ maps.byLen := by
  induction runs generalizing maps with
  | nil => exact ⟨old, sorted, by simp, by simp⟩
  | cons r runs ih =>
    obtain ⟨first, later⟩ := pairwise_cons.mp ordered
    have fresh := absent r mem_cons_self
    have members {e : Nat × Nat} : e ∈ enter r.1 r.2 maps.byIndex ↔ e = r ∨ e ∈ maps.byIndex := by
      rw [enter_absent fresh, mem_assign fresh]
    have entered : Ordered (enter r.1 r.2 maps.byIndex) := by
      rw [enter_absent fresh]
      exact assign_ordered old
    obtain ⟨orderedAll, sortedAll, byIndex, byLen⟩ :=
      ih ⟨enter r.1 r.2 maps.byIndex, insertSorted (toLex (r.2, r.1)) maps.byLen⟩ later entered
        (insertSorted_increasing sorted) fun s there e inside => by
          rcases members.mp inside with here | was
          · rw [here]
            exact (first s.1 (mem_map_of_mem there)).ne
          · exact absent s (mem_cons_of_mem _ there) e was
    refine ⟨orderedAll, sortedAll, fun e => ?_, fun index len => ?_⟩
    · rw [foldl_cons, byIndex e, members, mem_cons]
      tauto
    · rw [foldl_cons, byLen index len, mem_insertSorted, mem_cons]
      have same : toLex (len, index) = toLex (r.2, r.1) ↔ (index, len) = r := by
        rw [toLex_inj, Prod.mk.injEq, and_comm, ← Prod.mk.injEq]
      rw [same]
      tauto

theorem readFree_words {manager : BlockManager kind} {rest : List Nat}
    (sound : manager.free.Sound manager.allocated) :
    readFree (manager.free.byIndex.flatMap (fun r => [r.1, r.2]) ++ 0 :: rest) ⟨[], []⟩ =
        manager.free := by
  rw [readFree_runs fun r there => (sound.inside r there).1.ne']
  obtain ⟨ordered, sorted, byIndex, byLen⟩ := foldl_runs ⟨[], []⟩ sound.separated.ordered
    List.Pairwise.nil List.Pairwise.nil fun _ _ _ inside => (nomatch inside)
  generalize List.foldl _ _ _ = read at ordered sorted byIndex byLen
  have index : read.byIndex = manager.free.byIndex :=
    ordered.ext sound.separated.ordered fun e => by simp [byIndex e]
  have len : read.byLen = manager.free.byLen := increasing_ext sorted sound.sorted fun e => by
    have := (byLen e.2 e.1).trans (by simp) |>.trans (sound.mirrored e.2 e.1).symm
    exact this
  cases read
  cases free : manager.free
  simp_all

section Reopen

variable {a : CacheArray kind} {live m : Nat → Option (List UInt8)} {order : List Nat}
    {bufferSize : Nat}

def reloaded (a : CacheArray kind) (k : Nat) : CacheEntry :=
  if k < a.curEntryNum then
    { CacheEntry.init with store := (a.entry k).store, dirty := false, used := decide (0 < (a.entry k).store) }
  else CacheEntry.init

theorem reloaded_uncached (a : CacheArray kind) (k : Nat) :
    (a.reloaded k).cached = false ∧ (a.reloaded k).pinned = false := by
  unfold reloaded
  split <;> exact ⟨rfl, rfl⟩

theorem Coherent.reloaded_store (ok : a.Coherent live m order none) (filed : a.Filed) (k : Nat) :
    (a.reloaded k).store = (a.entry k).store := by
  unfold reloaded
  split
  · rfl
  · rename_i outside
    have unused := (filed.unallocated k (Nat.le_of_not_lt outside)).1
    exact (ok.vacant (by simp) (ok.unknown_of_unused (by simp) unused)).store.symm

theorem Coherent.reloaded_holds (ok : a.Coherent live m order none) (filed : a.Filed)
    (saved : a.Saved) (k : Nat) :
    (a.reloaded k).Holds live (m k) := by
  cases known : m k with
  | none =>
    have vacant := ok.vacant (by simp) known
    unfold reloaded
    split
    · exact ⟨by simp [vacant.store], vacant.store, rfl, rfl, rfl⟩
    · exact ⟨rfl, rfl, rfl, rfl, rfl⟩
  | some v =>
    have keeps := ok.keeps (by simp) known
    have inside := filed.used_lt keeps.used
    have some := keeps.clean (saved.clean k inside)
    unfold reloaded
    rw [if_pos inside]
    exact ⟨by simp [Nat.pos_of_ne_zero some], nofun, fun _ => ⟨rfl, some⟩, fun _ => keeps.stored some, fun _ => some, nofun⟩

theorem reopen_spec (held : a.Represents m) (saved : a.Saved)
    (larger : a.maxCacheSize ≤ bufferSize) :
    ∃ b, a.reopen bufferSize = some b ∧ b.Represents m := by
  obtain ⟨filed, live, order, ok⟩ := held
  obtain ⟨n, positive, whole⟩ := filed.whole
  obtain ⟨rest, words⟩ := saved.free
  have limit : keyLimit ≤ maxKeyNum := Nat.div_mul_le_self ..
  have small := (filed.ahead.trans filed.small).trans limit
  have num : blocksUpTo (a.files.entryNum - 1) = a.curEntryNum := by
    have last : (n * entryBlockSize - 1) / entryBlockSize + 1 = n := by
      have size : 0 < entryBlockSize := by decide
      rw [← Nat.sub_add_cancel positive, Nat.add_mul, Nat.one_mul, Nat.add_sub_assoc size,
          Nat.add_comm (_ * _),
        Nat.add_mul_div_right _ _ size, Nat.div_eq_of_lt (Nat.sub_lt size Nat.one_pos),
          Nat.zero_add]
    rw [blocksUpTo, saved.counted, whole, last]
  have entries : (fun k => if k < a.files.entryNum then
      { CacheEntry.init with store := a.files.store k, dirty := false, used := decide (0 < a.files.store k) } else CacheEntry.init) =
      a.reloaded := by
    funext k
    rw [saved.counted, reloaded]
    split_ifs with inside
    · rw [filed.saved k (saved.clean k inside)]
    · rfl
  have manager : (⟨a.files.freeBlockList.headD 0, readFree a.files.freeBlockList.tail ⟨[], []⟩,
      a.manager.valueFile⟩ : BlockManager kind) =
      a.manager := by
    have allocated : a.manager.curBlockNum = a.manager.allocated :=
      Nat.mod_eq_of_lt ok.exclusive.bounded
    rw [words, freeBlockWords]
    simp [cons_append, tail_cons, append_assoc, allocated,
      readFree_words ok.exclusive.sound]
  refine ⟨_, by rw [reopen, if_neg (by rw [saved.counted]; exact Nat.not_lt_of_le small)], ?_, live, [], ?_⟩
  all_goals simp only [num, entries, manager]
  · refine ⟨filed.whole, ⟨n, whole⟩, le_rfl, filed.ahead.trans filed.small, fun k outside => ?_,
        fun k clean => ?_, fun _ => saved.counted⟩
    · simp only [reloaded, if_neg (Nat.not_lt_of_le outside)]
      exact ⟨rfl, rfl⟩
    · have inside : k < a.curEntryNum := by
        by_contra outside
        simp only [reloaded, if_neg outside] at clean
        cases clean
      exact (filed.saved k (saved.clean k inside)).trans (ok.reloaded_store filed k).symm
  · refine ⟨ok.exclusive, ok.below, LinkedList.empty_lists, fun k _ => ?_, fun _ hole => ?_,
        fun _ hole => ?_, rfl,
      fun k _ => ok.reloaded_holds filed saved k, fun j k _ _ some same => ?_,
        fun k v _ known => ?_⟩
    rotate_left
    · cases hole
    · cases hole
    rotate_right
    · exact iff_of_false not_mem_nil fun both => absurd
        ((reloaded_uncached a k).1.symm.trans both.1) (by decide)
    · rw [ok.reloaded_store filed] at some same
      rw [ok.reloaded_store filed] at same
      exact ok.owner j k (by simp) (by simp) some same
    · have fitting := ok.fitting k v (by simp) known
      exact ⟨fitting.filled, fitting.cacheable.trans larger, fitting.typed⟩

end Reopen
end CacheArray
end GStore
