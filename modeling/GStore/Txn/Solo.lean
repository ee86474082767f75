import GStore.Txn.Calls
import GStore.Txn.Visible

/-! A transaction that runs alone: its updates are all granted, and its commit or abort releases
every latch. -/
namespace GStore
open Lib List IVEntry

def Change.Fits (u : Change) : Prop := ∀ key ∈ u.triple.writeKeys, key.Fits

def IVEntry.granted (e : IVEntry) (txn : Transaction) : IVEntry :=
  { e with
    vList := e.vList ++ [Version.fresh txn.tid]
    glatch := if txn.isSR then ⟨txn.tid, 1⟩ else e.glatch
    isVersioned := true }

theorem getExclusiveLatch_granted_of_free {e : IVEntry} {txn : Transaction} (finite : txn.tid ≠ ⊤)
    (checked : e.checkVersion txn.tid (txn.isolation == .readCommitted) = some true)
    (free : e.glatch = GLatch.init) :
    e.getExclusiveLatch txn false = some (true, e.granted txn) := by
  rw [getExclusiveLatch, checked]
  cases sr : txn.isSR with
  | true =>
    simp [GLatch.tryexclusivelatch, free, GLatch.init, Ne.symm finite, pushVersion, IVEntry.granted,
        sr]
  | false => simp [pushVersion, IVEntry.granted, sr]

theorem tryExclusiveLatches_granted {txn : Transaction} (finite : txn.tid ≠ ⊤)
    (unread : txn.readSet = []) {keys : List Key}
    (distinct : keys.Nodup) (fits : ∀ k ∈ keys, k.Fits) {kv : KVstore} (mine : List Key)
    (ready : ∀ k ∈ keys, k ∉ txn.writeSet →
      (kv.entryAt k).checkVersion txn.tid (txn.isolation == .readCommitted) = some true ∧
      (kv.entryAt k).glatch = GLatch.init) :
    ∃ kv', kv.tryExclusiveLatches txn keys mine = some (true, kv') ∧
      (∀ k, kv'.entryAt k = if k ∈ keys ∧
        k ∉ txn.writeSet then (kv.entryAt k).granted txn else kv.entryAt k) ∧
      ∀ k, kv.InRange k ∨ k ∈ keys ∧ k ∉ txn.writeSet → kv'.InRange k := by
  induction keys generalizing kv mine with
  | nil => exact ⟨kv, rfl, by simp, by simp⟩
  | cons key keys ih =>
    obtain ⟨fresh, distinct⟩ := nodup_cons.mp distinct
    rw [KVstore.tryExclusiveLatches]
    by_cases written : key ∈ txn.writeSet
    · obtain ⟨kv', granted, entries, range⟩ := ih distinct (fun k hk => fits k (by simp [hk])) mine
        fun k hk => ready k (by simp [hk])
      have same : ∀ k, (k ∈ key :: keys ∧ k ∉ txn.writeSet) ↔ k ∈ keys ∧ k ∉ txn.writeSet := by
        intro k
        by_cases same : k = key
        · simp [same, written]
        · simp [same]
      refine ⟨kv', by rw [if_pos (by simpa [Transaction.writeSetFind] using written), granted], fun k => ?_, fun k h => ?_⟩
      · rw [entries k]
        simp only [same k]
      · rw [same k] at h
        exact range k h
    · obtain ⟨checked, free⟩ := ready key (by simp) written
      have latch : kv.getExclusiveLatch key txn (txn.readSetFind key) =
          some (true, (kv.reserve key).setEntryAt key ((kv.entryAt key).granted txn)) := by
        have unread : txn.readSetFind key = false := by simp [Transaction.readSetFind, unread]
        rw [unread, getExclusiveLatch_eq, if_neg fun h => h.2 (fits key (by simp)),
          getExclusiveLatch_granted_of_free finite checked free]
        rfl
      generalize stored : (kv.reserve key).setEntryAt key ((kv.entryAt key).granted txn) =
        next at latch
      have others : ∀ k, k ≠ key → next.entryAt k = kv.entryAt k := fun k apart => by
        rw [← stored, entryAt_setEntryAt, entryAt_reserve, Function.update_of_ne apart]
      obtain ⟨kv', granted, entries, range⟩ :=
        ih distinct (fun k hk => fits k (by simp [hk])) (mine ++ [key])
        fun k hk unwritten => by
          rw [others k fun same => fresh (same ▸ hk)]
          exact ready k (by simp [hk]) unwritten
      refine ⟨kv', ?_, fun k => ?_, fun k h => range k ?_⟩
      · rw [if_neg (by simpa [Transaction.writeSetFind] using written), latch]
        exact granted
      · rw [entries k]
        obtain rfl | same := eq_or_ne k key
        · simp [fresh, written, ← stored]
        · simp [others k same, same]
      · obtain rfl | same := eq_or_ne k key
        · exact .inl (by simpa [← stored] using reserve_inRange kv k)
        · refine h.imp (fun inside => ?_) fun h => by simpa [same] using h
          simpa [← stored] using inRange_reserve inside

theorem updateKeys_done {insertion : Bool} {t : Triple} {keys : List Key} {kv : KVstore}
    (range : ∀ k ∈ keys, kv.InRange k) (versions : ∀ k ∈ keys, (kv.entryAt k).vList ≠ []) :
    ∃ kv', kv.updateKeys insertion t keys = some (true, kv') ∧
    ∀ k, (kv'.entryAt k).glatch = (kv.entryAt k).glatch := by
  induction keys generalizing kv with
  | nil => exact ⟨kv, rfl, fun _ => rfl⟩
  | cons key keys ih =>
    obtain ⟨vs, filled, wrote⟩ :=
      @updateValues_done kv insertion t key (range key (by simp)) (versions key (by simp))
    generalize stored : kv.setEntryAt key ((kv.entryAt key).setVersions vs) = next at wrote
    have frame : ∀ k, (next.entryAt k).glatch = (kv.entryAt k).glatch ∧
        (k ∈ keys → (next.entryAt k).vList ≠ []) := by
      intro k
      rw [← stored, entryAt_setEntryAt]
      obtain rfl | same := eq_or_ne k key
      · simp [setVersions, filled]
      · simpa [Function.update_of_ne same] using fun hk => versions k (by simp [hk])
    obtain ⟨kv', done, rest⟩ :=
      ih (fun k hk => by simpa [← stored] using range k (by simp [hk])) fun k hk => (frame k).2 hk
    refine ⟨kv', by rw [KVstore.updateKeys, wrote, Option.bind_some]; exact done, fun k => ?_⟩
    rw [rest k, (frame k).1]

structure Sys.Quiet (s : Sys) : Prop where
  chained : s.Chained
  ended : ∀ X, (s.session X).phase = .ended
  latches : ∀ key, (s.kv.entryAt key).glatch = GLatch.init

structure Sys.Alone (s : Sys) (tid : Nat) : Prop where
  chained : s.Chained
  others : ∀ X, X ≠ tid → (s.session X).phase = .ended
  idle : (s.session tid).phase = .idle
  running : (s.session tid).txn.state = .running
  unread : (s.session tid).txn.readSet = []
  young : ∀ X ∈ s.started, (s.session X).txn.commitID ≤ (tid : Nat)
  latches : ∀ key, (s.kv.entryAt key).glatch =
    if (s.session tid).txn.isSR = true ∧
      key ∈ (s.session tid).txn.writeSet then ⟨(tid : Nat), 1⟩ else GLatch.init

theorem init_quiet {kv : KVstore} (fresh : kv.Unversioned) : (Sys.init kv).Quiet :=
  ⟨init_chained fresh, fun _ => rfl, fun key => (fresh key).2⟩

theorem Sys.Quiet.begin {s : Sys} (quiet : s.Quiet) (isolation : IsolationLevel) :
    (s.begin isolation).Alone s.cnt := by
  have c := quiet.chained
  have record := begin_session_self s isolation
  have other : ∀ X, X ≠ s.cnt → (s.begin isolation).session X = s.session X :=
    fun X away => begin_session_of_ne away isolation
  refine ⟨c.begin isolation, fun X away => ?_, ?_, ?_, ?_, fun X member => ?_, fun key => ?_⟩
  · rw [other X away]
    exact quiet.ended X
  · rw [record]
  · rw [record]
  · rw [record]
  · have started : X ∈ s.started := member
    have away : X ≠ s.cnt := by
      rintro rfl
      rw [c.started, c.unborn s.cnt le_rfl] at started
      simp [Session.committing, Session.unborn] at started
    rw [other X away]
    obtain ⟨n, cid, bound⟩ := c.stamps X started
    rw [cid]
    exact WithTop.coe_le_coe.mpr bound
  · rw [record, if_neg (by simp)]
    exact quiet.latches key

section Alone

variable {s : Sys} {tid : Nat} (alone : s.Alone tid)
include alone

theorem Sys.Alone.tid_eq : (s.session tid).txn.tid = (tid : Nat) :=
  (alone.chained.sound tid).tid (by simp [alone.idle])

variable {key : Key}

theorem Sys.Alone.holder {X : Nat} (holds : key ∈ (s.session X).held) :
    X = tid ∧ key ∈ (s.session tid).txn.writeSet := by
  obtain rfl | same := eq_or_ne X tid
  · exact ⟨rfl, by simpa [Session.held, alone.idle] using holds⟩
  · simp [Session.held, alone.others X same] at holds

theorem Sys.Alone.head (unwritten : key ∉ (s.session tid).txn.writeSet) :
    ∃ latest, (s.kv.entryAt key).vList.getLast? = some latest ∧ latest.beginTs ≠ ⊤ ∧
    latest.beginTs ≤ ((tid : Nat) : Timestamp) := by
  have vacant : ∀ X, key ∉ (s.session X).held := fun X holds => unwritten (alone.holder holds).2
  obtain ⟨b, member, last⟩ := @link_last (s.committed key) (by simp [Sys.committed])
  refine ⟨_, by rw [alone.chained.free key vacant, last], (alone.chained.committed_cids key).1 b member, ?_⟩
  rcases mem_cons.mp member with rfl | owner
  · exact WithTop.coe_le_coe.mpr (Nat.zero_le tid)
  · obtain ⟨X, owns, rfl⟩ := mem_map.mp owner
    exact alone.young X (mem_filter.mp owns).1

theorem Sys.Alone.ready (unwritten : key ∉ (s.session tid).txn.writeSet) :
    (s.kv.entryAt key).checkVersion (s.session tid).txn.tid
    ((s.session tid).txn.isolation == .readCommitted) = some true ∧
      (s.kv.entryAt key).glatch = GLatch.init := by
  obtain ⟨latest, last, stamped, old⟩ := alone.head unwritten
  refine ⟨?_, by rw [alone.latches key, if_neg fun h => unwritten h.2]⟩
  rw [checkVersion, last, alone.tid_eq]
  simp [stamped, not_lt.mpr old]

theorem Sys.Alone.update {u : Change} (fits : u.Fits) :
    ∃ kv, s.perform (.update tid u) = some (s.put tid kv ((s.session tid).enter u)) ∧
      (s.put tid kv ((s.session tid).enter u)).Alone tid := by
  have c := alone.chained
  have finite : (s.session tid).txn.tid ≠ ⊤ := by simp [alone.tid_eq]
  have lockable : ∀ k ∈ u.triple.lockKeys, k.Fits :=
    fun k hk => fits k (mem_writeKeys.mpr (mem_lockKeys.mp hk))
  obtain ⟨kv, granted, entries, range⟩ :=
    tryExclusiveLatches_granted finite alone.unread (lockKeys_nodup u.triple) lockable []
    fun k _ unwritten => alone.ready unwritten
  have held : ∀ k, k ∈ (s.session tid).txn.writeSet → k ∈ (s.session tid).held := by
    simp [Session.held, alone.idle]
  have writable : ∀ k ∈ u.triple.writeKeys, kv.InRange k ∧ (kv.entryAt k).vList ≠ [] := by
    intro k hk
    have lock : k ∈ u.triple.lockKeys := mem_lockKeys.mpr (mem_writeKeys.mp hk)
    by_cases written : k ∈ (s.session tid).txn.writeSet
    · refine ⟨range k (.inl (c.range tid k (held k written))), ?_⟩
      rw [entries k, if_neg fun h => h.2 written, c.owned tid k (held k written)]
      simp
    · refine ⟨range k (.inr ⟨lock, written⟩), ?_⟩
      rw [entries k, if_pos ⟨lock, written⟩]
      simp [IVEntry.granted]
  obtain ⟨kv', wrote, frame⟩ := @updateKeys_done u.insertion u.triple u.triple.writeKeys kv
    (fun k hk => (writable k hk).1) fun k hk => (writable k hk).2
  have performed : s.perform (.update tid u) = some (s.put tid kv' ((s.session tid).enter u)) := by
    rw [perform_update c alone.idle u, KVstore.tryExclusiveLock, granted]
    simp [Option.bind_some, KVstore.updateTupleslistTxn, wrote, Option.map_some]
  refine ⟨kv', performed, ⟨perform_chained c performed, fun X away => ?_, ?_, ?_, ?_,
      fun X member => ?_, fun key => ?_⟩⟩
  · rw [put_session, Function.update_of_ne away]
    exact alone.others X away
  · simp [Session.enter]
  · simpa [Session.enter, Transaction.writeSetInsert] using alone.running
  · simpa [Session.enter, Transaction.writeSetInsert] using alone.unread
  · obtain rfl | same := eq_or_ne X tid
    · simpa [Session.enter, Transaction.writeSetInsert] using alone.young X member
    · rw [put_session, Function.update_of_ne same]
      exact alone.young X member
  · rw [put_kv, put_session_self, frame key, entries key]
    have written : key ∈ ((s.session tid).enter u).txn.writeSet ↔
        key ∈ (s.session tid).txn.writeSet ∨ key ∈ u.triple.lockKeys := by
      rw [Session.enter, mem_writeSetInsert, mem_writeKeys, mem_lockKeys]
    have level : ((s.session tid).enter u).txn.isSR = (s.session tid).txn.isSR := rfl
    simp only [level, written]
    by_cases new : key ∈ u.triple.lockKeys ∧ key ∉ (s.session tid).txn.writeSet
    · rw [if_pos new, IVEntry.granted, (alone.ready new.2).2, alone.tid_eq]
      simp [new.1]
    · have known : (key ∈ (s.session tid).txn.writeSet ∨ key ∈ u.triple.lockKeys) ↔
        key ∈ (s.session tid).txn.writeSet := by
        tauto
      simp [if_neg new, alone.latches key, known]

theorem Sys.Alone.exclusive (member : key ∈ (s.session tid).txn.exclusiveKeys) : s.kv.InRange key ∧
      (s.kv.entryAt key).vList = link (s.committed key) ++ [(s.session tid).ownVersion tid key] ∧
      ((s.session tid).txn.isSR = true → (s.kv.entryAt key).glatch = ⟨(tid : Nat), 1⟩) := by
  have written := mem_exclusiveKeys.mp member
  have held : key ∈ (s.session tid).held := by simpa [Session.held, alone.idle] using written
  refine ⟨alone.chained.range tid key held, alone.chained.owned tid key held, fun sr => ?_⟩
  rw [alone.latches key, if_pos ⟨sr, written⟩]

theorem Sys.Alone.latches_released {g : Key → GLatch}
    (released : ∀ k, g k = if k ∈ (s.session tid).txn.exclusiveKeys ∧
      (s.session tid).txn.isSR = true then GLatch.init
      else (s.kv.entryAt k).glatch) (key : Key) : g key = GLatch.init := by
  rw [released key]
  split
  · rfl
  · rename_i kept
    rw [alone.latches key, if_neg fun h => kept ⟨mem_exclusiveKeys.mpr h.2, h.1⟩]

theorem Sys.Alone.commit : ∃ kv, s.perform (.commit tid) = some (s.committedAs tid kv) ∧
    (s.committedAs tid kv).Quiet := by
  have c := alone.chained
  generalize stamped : ({ (s.session tid).txn with commitID := (s.cnt : Nat) } : Transaction) = txn
  have same : txn.isSR = (s.session tid).txn.isSR ∧ txn.tid = (tid : Nat) ∧ txn.sharedKeys = [] ∧
      txn.exclusiveKeys = (s.session tid).txn.exclusiveKeys := by
    subst stamped
    refine ⟨rfl, alone.tid_eq, eq_nil_iff_forall_not_mem.mpr fun k hk => ?_, rfl⟩
    simpa [alone.unread] using (mem_sharedKeys.mp hk).2.1
  obtain ⟨level, own, unshared, exclusive⟩ := same
  have distinct : (s.session tid).txn.exclusiveKeys.Nodup := inIndexOrder_nodup (c.sound tid).writes
  obtain ⟨kv, released, entries⟩ :=
    @forKeys_done s.kv (fun kv key => kv.releaseExclusiveLatch key txn)
    (fun e => { e with
      vList := (stamp txn.commitID e.vList).getD e.vList
      glatch := if (s.session tid).txn.isSR then GLatch.init else e.glatch })
    _ distinct (fun key member => (alone.exclusive member).1)
    (fun _ e => (stamp txn.commitID e.vList).isSome ∧
      ((s.session tid).txn.isSR = true → e.glatch = ⟨(tid : Nat), 1⟩))
    (fun kv key _ inside ready => by
      obtain ⟨vs, stamped⟩ := Option.isSome_iff_exists.mp ready.1
      rw [releaseExclusiveLatch_own inside stamped (by rw [level, own]; exact ready.2), level]
      simp [stamped])
    (fun key member => by
      obtain ⟨-, versions, latch⟩ := alone.exclusive member
      refine ⟨?_, latch⟩
      rw [versions, Session.ownVersion, stamp_link (by simp [Sys.committed])]
      rfl)
  have performed : s.perform (.commit tid) = some (s.committedAs tid kv) := by
    rw [perform_commit alone.idle alone.running, stamped, KVstore.releaseAllLocks,
        KVstore.forLatches, unshared, exclusive]
    simp [KVstore.forKeys, Option.bind_some, released, Option.map_some]
  refine ⟨kv, performed, ⟨perform_chained c performed, fun X => ?_, ?_⟩⟩
  · by_cases same : X = tid
    · simp [Sys.committedAs, same]
    · simpa [Sys.committedAs, Function.update_of_ne same] using alone.others X same
  · refine alone.latches_released fun k => ?_
    have entry : (kv.entryAt k).glatch = _ := congrArg glatch (entries k)
    rw [apply_ite glatch] at entry
    simpa [ite_and] using entry

variable (unwritten : (s.session tid).txn.writeSet = [])
include unwritten

theorem Sys.Alone.vacant (X : Nat) (key : Key) : key ∉ (s.session X).held := by
  intro holds
  have written := (alone.holder holds).2
  rw [unwritten] at written
  cases written

theorem Sys.Alone.merged (key : Key) :
    (s.kv.entryAt key).getProperVersion (tid : Timestamp) = some
    (mergeWorks (s.works s.started key)) ∧
      (s.kv.entryAt key).getLatestVersion (tid : Timestamp) = some
      (mergeWorks (s.works s.started key)) := by
  have c := alone.chained
  have vacant := alone.vacant unwritten
  have ended : ∀ X ∈ s.started, (s.session X).phase = .ended := by
    intro X member
    refine alone.others X fun same => ?_
    rw [c.started, same] at member
    simp [Session.committing, alone.idle] at member
  have seen : s.visible tid key = s.owners key :=
    filter_eq_self.mpr fun X owns => decide_eq_true (alone.young X (mem_filter.mp owns).1)
  constructor
  · rw [c.getProperVersion key tid, seen, Sys.ownWork, if_neg (vacant tid key), append_nil,
        c.mergeWorks_owners ended]
  · rw [c.getLatestVersion_free (fun X => vacant X key), c.mergeWorks_owners ended]

theorem Sys.Alone.search (key : Key) (firstRead : Bool) :
    ∃ found e, (s.kv.entryAt key).search (s.session tid).txn firstRead = some (found, e) ∧
    found.ok = true := by
  obtain ⟨proper, newest⟩ := alone.merged unwritten key
  have free : key ∉ (s.session tid).txn.writeSet := by simp [unwritten]
  obtain ⟨latest, last, stamped, old⟩ := alone.head free
  have granted : (s.kv.entryAt key).glatch.trysharedlatch (tid : Nat) = some (true, ⟨⊤, 1⟩) := by
    rw [(alone.ready free).2]
    rfl
  have checked : (s.kv.entryAt key).checkheadVersion (tid : Nat) = some 1 := by
    simp [IVEntry.checkheadVersion, last, old]
  rw [IVEntry.search, IVEntry.readVersion, alone.tid_eq]
  cases (s.session tid).txn.isolation with
  | readCommitted => simp [newest]
  | snapshot => simp [proper]
  | serializable => cases firstRead <;> simp [checked, granted, proper]

theorem Sys.Alone.fetch (blank : s.kv.Blank) {fn : ReadFn} {id : Nat}
    (searched : fn.type = .subject → isEntityEle id) :
    ∃ r found, s.kv.fetch fn id (s.session tid).txn = some r ∧ r.found = some found ∧
    found.list fn.type =
        mergeSets fn.type (s.kv.entryAt ⟨fn.type, id⟩).value
        (mergeWorks (s.works s.started ⟨fn.type, id⟩)) := by
  obtain ⟨proper, newest⟩ := alone.merged unwritten ⟨fn.type, id⟩
  have entity : ¬ (fn.type = .subject ∧ (!isEntityEle id) = true) := fun ⟨subject, literal⟩ => by
    simp [searched subject] at literal
  simp only [KVstore.fetch, if_neg entity, KVstore.getValueByKeyTxn, IVArray.searchTxn]
  rw [onArray_access]
  by_cases inside : s.kv.InRange ⟨fn.type, id⟩
  · obtain ⟨found, e, search, ok⟩ :=
      alone.search unwritten ⟨fn.type, id⟩ (fn.firstRead (s.session tid).txn ⟨fn.type, id⟩)
    rw [if_pos inside, search]
    refine ⟨_, found, rfl, rfl, ?_⟩
    obtain ⟨value, sets⟩ := search_ok search ok
    rw [alone.tid_eq, proper, newest, ite_self] at sets
    rw [SearchResult.list, if_pos ok, value, Option.some.inj sets]
  · rw [if_neg inside]
    refine ⟨_, SearchResult.missing, rfl, rfl, ?_⟩
    rw [blank _ inside] at newest ⊢
    have nothing : mergeWorks (s.works s.started ⟨fn.type, id⟩) = ([], []) :=
      (Option.some.inj newest).symm
    rw [nothing]
    exact (mergeSets_nothing fn.type).symm

end Alone

end GStore
