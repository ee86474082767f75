import GStore.Txn.Visible

/-! What SNAPSHOT transactions see. Behind a begin at which every started commit has published all
its keys, the versions up to the id of the transaction stay those of the transactions committed by
then. -/
namespace GStore
open Lib List Session

structure Session.Follows (x y : Session) : Prop where
  before : y.before = x.before
  isolation : y.txn.isolation = x.txn.isolation
  commit : x.committing = true → y.committing = true ∧ y.txn.commitID = x.txn.commitID ∧
    y.done = x.done
  settled : x.committing = true → x.held = [] → y.held = []

theorem Session.Follows.refl (x : Session) : x.Follows x :=
  ⟨rfl, rfl, fun h => ⟨h, rfl, rfl⟩, fun _ h => h⟩

theorem Session.Follows.early {x y : Session} (before : y.before = x.before)
    (isolation : y.txn.isolation = x.txn.isolation) (running : x.committing = false) :
    x.Follows y :=
  ⟨before, isolation, fun h => by simp [running] at h, fun h => by simp [running] at h⟩

theorem Session.updates_committing {x : Session} (committing : x.committing = true) (key : Key) :
    x.updates key = x.done := by
  cases at_phase : x.phase <;> simp_all [Session.committing, Session.updates]

theorem Session.Follows.work {x y : Session} (follows : x.Follows y)
    (committing : x.committing = true) (key : Key) :
    y.work key = x.work key := by
  obtain ⟨still, -, done⟩ := follows.commit committing
  rw [Session.work, Session.work, updates_committing still, updates_committing committing, done]

theorem put_follows {s : Sys} {tid X : Nat} {kv : KVstore} {y : Session}
    (own : (s.session tid).Follows y) :
    (s.session X).Follows ((s.put tid kv y).session X) := by
  obtain rfl | same := eq_or_ne X tid
  · simpa using own
  · simpa [Function.update_of_ne same] using Session.Follows.refl (s.session X)

variable {s : Sys} {a : Act}

theorem step_follows {t : Sys} (c : s.Chained) (taken : s.step a = some t) {X : Nat}
    (born : X < s.cnt) :
    (s.session X).Follows (t.session X) := by
  cases step_moves taken with
  | stay a idler => exact .refl _
  | begin isolation =>
    rw [begin_session_of_ne born.ne]
    exact .refl _
  | read tid fn id r at_phase call =>
    exact put_follows (.early rfl (fetch_frame call).2.2.2.2.1
        (by simp [Session.committing, at_phase]))
  | startCommit tid at_phase running =>
    rw [Sys.startCommit, if_pos running]
    exact @put_follows s tid X s.kv _ (.early rfl rfl (by simp [Session.committing, at_phase]))
  | drop tid keys t at_phase => exact absurd at_phase (c.not_dropping keys)
  | releaseShared tid publish key shared exclusive failed done kv at_phase call =>
    refine put_follows ⟨rfl, rfl,
        fun h => ⟨by simpa [Session.committing, at_phase] using h, rfl, rfl⟩, fun _ free => ?_⟩
    have unwritten : key ∉ (s.session tid).txn.writeSet := by
      obtain ⟨-, unwritten, -⟩ := c.shape_at at_phase
      exact unwritten key (by simp)
    simp only [held, at_phase] at free ⊢
    split
    · exact free
    · simpa [Transaction.writeSetFind, unwritten] using free
  | publish tid key exclusive failed done kv at_phase call =>
    refine put_follows ⟨rfl, rfl,
        fun _ => ⟨by simp [Session.committing], rfl, rfl⟩, fun _ free => ?_⟩
    simp [held, at_phase] at free
  | invalidate tid key exclusive failed done kv at_phase call =>
    exact put_follows (.early rfl rfl (by simp [Session.committing, at_phase]))
  | finish tid publish at_phase =>
    refine put_follows ⟨rfl, rfl, fun h => ⟨?_, rfl, rfl⟩, fun _ _ => rfl⟩
    have published : publish = true := by simpa [Session.committing, at_phase] using h
    simp [Session.committing, published]
  | _ => exact put_follows (.early rfl rfl (by simp_all [Session.committing]))

/-- A SNAPSHOT transaction begins when every started commit has published its keys, and reads no
empty subject or predicate list for which only deletions are left. -/
def SnapshotGuard (s : Sys) : Act → Prop
  | .begin .snapshot => ∀ X < s.cnt, (s.session X).committing = true → (s.session X).held = []
  | .read tid fn id => (s.session tid).txn.isolation = .snapshot →
      ∀ sets ∈ (s.kv.entryAt ⟨fn.type, id⟩).getProperVersion (tid : Nat),
        ¬ Undefined fn.type (s.kv.entryAt ⟨fn.type, id⟩).value sets
  | _ => True

instance (s : Sys) : (a : Act) → Decidable (SnapshotGuard s a)
  | .begin .snapshot => inferInstanceAs (Decidable (∀ X < s.cnt, _))
  | .begin .readCommitted | .begin .serializable | .update _ _ | .startCommit _ | .startAbort _ | .advance _ =>
    isTrue trivial
  | .read _ _ _ => inferInstanceAs (Decidable (_ → _))

/-- The list a read of a transaction has to return, if it sees the transactions `seen`. -/
def Sys.readsFrom (s : Sys) (kv : KVstore) (seen : List Nat) (e : ReadEvent) :
    Option (Option (List Nat)) :=
  mergeSets e.key.type (kv.entryAt e.key).value (mergeWorks (s.works seen e.key ++ [e.own]))

/-- The state of a guarded run from the store `kv`: the transactions that had started to commit when
`T` began come first and may be seen by `T`, the others come later and have greater commit ids. -/
structure Sys.Snapshots (s : Sys) (kv : KVstore) : Prop where
  chained : s.Chained
  blank : kv.Blank
  whole : kv.ListsSound
  grown : kv.Extends s.kv
  later : ∀ T < s.cnt, ∃ rest, s.started = (s.session T).before ++ rest ∧
    ∀ X ∈ rest, ((T : Nat) : Timestamp) < (s.session X).txn.commitID
  seen : ∀ T < s.cnt, (s.session T).txn.isolation = .snapshot → ∀ X ∈ (s.session T).before,
    X < T ∧ (s.session X).held = [] ∧ (s.session X).txn.commitID ≤ ((T : Nat) : Timestamp)
  reads : ∀ T < s.cnt, (s.session T).txn.isolation = .snapshot → ∀ e ∈ (s.session T).reads,
    ∃ list, e.found.list e.key.type = some list ∧ s.readsFrom kv (s.session T).before e = some list

variable {kv : KVstore} {T : Nat}

section

variable (inv : s.Snapshots kv) (born : T < s.cnt) (level : (s.session T).txn.isolation = .snapshot)
  (idle : (s.session T).phase = .idle)
include inv born level idle

theorem Sys.Snapshots.merged (key : Key) : (s.kv.entryAt key).getProperVersion (T : Nat) =
      some (mergeWorks (s.works (s.session T).before key ++ [(s.session T).work key])) := by
  have c := inv.chained
  obtain ⟨rest, order, greater⟩ := inv.later T born
  have seen := inv.seen T born level
  have committing : ∀ X ∈ (s.session T).before, (s.session X).committing = true := fun X member =>
    (c.started X).mp (by simp [order, member])
  have visible : s.visible T key =
      (s.session T).before.filter fun X => decide (key ∈ (s.session X).published) := by
    have late : (rest.filter fun X => decide (key ∈ (s.session X).published)).filter
        (fun X => decide ((s.session X).txn.commitID ≤ ((T : Nat) : Timestamp))) = [] :=
      filter_eq_nil_iff.mpr fun X member => by simpa using greater X (mem_filter.mp member).1
    unfold Sys.visible Sys.owners
    rw [order, filter_append, filter_append, late, append_nil]
    exact filter_eq_self.mpr fun X member => decide_eq_true (seen X (mem_filter.mp member).1).2.2
  have others : mergeWorks (s.works (s.visible T key) key) = mergeWorks
      (s.works (s.session T).before key) := by
    rw [visible]
    refine mergeWorks_filter fun X member hidden => c.work_unwritten
      (Session.updates_committing (committing X member) key) ?_
    intro written
    have published : key ∈ (s.session X).published :=
      mem_published.mpr ⟨committing X member, written, by simp [(seen X member).2.1]⟩
    simp [published] at hidden
  rw [c.getProperVersion key T, mergeWorks_append, mergeWorks_append, others, Sys.ownWork]
  have held : (s.session T).held = (s.session T).txn.writeSet := by simp [held, idle]
  rw [held]
  split
  · rfl
  · rename_i unwritten
    rw [c.work_unwritten (by simp [Session.updates, idle]) unwritten]
    rfl

theorem Sys.Snapshots.fetched {fn : ReadFn} {id : Nat} {r : Fetched}
    (guard : SnapshotGuard s (.read T fn id)) (call : s.kv.fetch fn id (s.session T).txn = some r)
    {found : SearchResult} (search : r.found = some found) :
    ∃ list, found.list fn.type = some list ∧
      s.readsFrom kv (s.session T).before ⟨⟨fn.type, id⟩, (s.session T).work ⟨fn.type, id⟩, found⟩ =
      some list := by
  have merged := inv.merged born level idle ⟨fn.type, id⟩
  have value := inv.grown.value ⟨fn.type, id⟩
  have own := (inv.chained.sound T).tid (by simp [idle])
  have defined := guard level _ merged
  rw [value] at defined
  obtain ⟨S, whole⟩ := inv.whole ⟨fn.type, id⟩
  obtain ⟨list, read, -⟩ := mergeSets_lists whole (mergeWorks_spec _ (toLex (0, 0))).1 defined
  refine ⟨list, ?_, read⟩
  rcases fetch_cases call with ⟨-, -, absent | ⟨away, missing⟩⟩ |
    ⟨inside, found', e, result, entry, -, -⟩
  · simp [absent] at search
  · -- a key without an entry has no base list and no versions
    have bare := (inv.grown.blank inv.blank) _ away
    have nothing : mergeWorks
        (s.works (s.session T).before ⟨fn.type, id⟩ ++ [(s.session T).work ⟨fn.type, id⟩]) =
        ([], []) := by
      rw [bare] at merged
      exact (Option.some.inj merged).symm.trans (by rfl)
    rw [bare] at value
    rw [nothing, ← value] at read
    rw [search] at missing
    rw [← read, Option.some.inj missing]
    exact (mergeSets_nothing fn.type).symm
  · rw [search] at result
    cases result
    have ok : found.ok = true := by
      rw [IVEntry.search, IVEntry.readVersion, level, own, merged] at entry
      cases entry
      rfl
    obtain ⟨base, sets⟩ := search_ok entry ok
    rw [level, if_neg (by simp), own, merged] at sets
    rw [SearchResult.list, if_pos ok, base, value, ← Option.some.inj sets, read]

end

theorem step_started {t : Sys} (c : s.Chained) (taken : s.step a = some t)
    (later : ∀ isolation, a ≠ .begin isolation) :
    t.cnt = s.cnt ∧ (t.started = s.started ∨
      ∃ tid, t.started = s.started ++ [tid] ∧ (t.session tid).txn.commitID = (s.cnt : Nat)) := by
  cases step_moves taken with
  | begin isolation => exact absurd rfl (later isolation)
  | startCommit tid at_phase running =>
    rw [Sys.startCommit, if_pos running]
    exact ⟨rfl, .inr ⟨tid, rfl, by simp [close]⟩⟩
  | drop tid keys t at_phase => exact absurd at_phase (c.not_dropping keys)
  | _ => exact ⟨rfl, .inl rfl⟩

theorem put_reads {s : Sys} {tid T : Nat} {kv : KVstore} {y : Session}
    (own : y.reads = (s.session tid).reads) :
    ((s.put tid kv y).session T).reads = (s.session T).reads := by
  obtain rfl | same := eq_or_ne T tid
  · simpa using own
  · simp [Function.update_of_ne same]

theorem step_reads {t : Sys} (c : s.Chained) (taken : s.step a = some t) (born : T < s.cnt) :
    (t.session T).reads = (s.session T).reads ∨
      ∃ fn id r, a = .read T fn id ∧ (s.session T).phase = .idle ∧
      s.kv.fetch fn id (s.session T).txn = some r ∧
        (t.session T).reads = (s.session T).reads ++
          r.found.toList.map fun found =>
          ⟨⟨fn.type, id⟩, (s.session T).work ⟨fn.type, id⟩, found⟩ := by
  cases step_moves taken with
  | stay a idler => exact .inl rfl
  | begin isolation =>
    left
    rw [begin_session_of_ne born.ne]
  | read tid fn id r at_phase call =>
    obtain rfl | same := eq_or_ne T tid
    · exact .inr ⟨fn, id, r, rfl, at_phase, call, by simp⟩
    · left
      simp [Function.update_of_ne same]
  | startCommit tid at_phase running =>
    rw [Sys.startCommit, if_pos running]
    exact .inl (@put_reads s tid T s.kv _ rfl)
  | drop tid keys t at_phase => exact absurd at_phase (c.not_dropping keys)
  | _ => exact .inl (put_reads rfl)

theorem readsFrom_congr {t : Sys} {seen : List Nat}
    (same : ∀ X ∈ seen, ∀ key, (t.session X).work key = (s.session X).work key)
    (kv : KVstore) (e : ReadEvent) : t.readsFrom kv seen e = s.readsFrom kv seen e := by
  have works : t.works seen e.key = s.works seen e.key :=
    map_congr_left fun X member => same X member e.key
  rw [Sys.readsFrom, Sys.readsFrom, works]

theorem Sys.Snapshots.begin (inv : s.Snapshots kv) {isolation : IsolationLevel}
    (guard : SnapshotGuard s (.begin isolation)) : (s.begin isolation).Snapshots kv := by
  have c := inv.chained
  have record := begin_session_self s isolation
  have other : ∀ X, X < s.cnt → (s.begin isolation).session X = s.session X :=
    fun X born => begin_session_of_ne born.ne isolation
  have born : ∀ X ∈ s.started, X < s.cnt := fun X member => c.started_lt member
  have known : ∀ T < s.cnt, ∀ X ∈ (s.session T).before, X < s.cnt := fun T old X member => by
    obtain ⟨rest, order, -⟩ := inv.later T old
    exact born X (by simp [order, member])
  refine ⟨c.begin isolation, inv.blank, inv.whole, inv.grown, fun T young => ?_,
      fun T young level X member => ?_,
    fun T young level e member => ?_⟩
  · rcases Nat.lt_succ_iff_lt_or_eq.mp young with old | rfl
    · obtain ⟨rest, order, greater⟩ := inv.later T old
      rw [other T old]
      refine ⟨rest, order, fun X member => ?_⟩
      rw [other X (born X (by simp [order, member]))]
      exact greater X member
    · rw [record]
      exact ⟨[], by simp [Sys.begin], by simp⟩
  · rcases Nat.lt_succ_iff_lt_or_eq.mp young with old | rfl
    · rw [other T old] at level member
      rw [other X (known T old X member)]
      exact inv.seen T old level X member
    · rw [record] at level member
      obtain rfl : isolation = .snapshot := level
      rw [other X (born X member)]
      obtain ⟨n, cid, bound⟩ := c.stamps X member
      exact ⟨born X member, guard X (born X member)
          ((c.started X).mp member), by rw [cid]; exact WithTop.coe_le_coe.mpr bound⟩
  · rcases Nat.lt_succ_iff_lt_or_eq.mp young with old | rfl
    · rw [other T old] at level member ⊢
      obtain ⟨list, found, read⟩ := inv.reads T old level e member
      have same : (s.begin isolation).readsFrom kv (s.session T).before e = s.readsFrom kv
          (s.session T).before e :=
        readsFrom_congr (fun X seen key => by rw [other X (known T old X seen)]) kv e
      exact ⟨list, found, same.trans read⟩
    · rw [record] at member
      cases member

theorem Sys.Snapshots.step {s t : Sys} {kv : KVstore} {a : Act} (inv : s.Snapshots kv)
    (guard : SnapshotGuard s a)
    (taken : s.step a = some t) : t.Snapshots kv := by
  by_cases begins : ∃ isolation, a = .begin isolation
  · obtain ⟨isolation, rfl⟩ := begins
    exact Option.some.inj taken ▸ inv.begin guard
  · have c := inv.chained
    obtain ⟨cnt, started⟩ := step_started c taken (by simpa using begins)
    have follows : ∀ X, X < s.cnt → (s.session X).Follows (t.session X) :=
      fun X born => step_follows c taken born
    have kept : ∀ X ∈ s.started, (s.session X).committing = true ∧
        (s.session X).Follows (t.session X) := fun X member =>
      ⟨(c.started X).mp member, follows X (c.started_lt member)⟩
    have known : ∀ T < s.cnt, ∀ X ∈ (s.session T).before, X ∈ s.started := fun T old X member => by
      obtain ⟨rest, order, -⟩ := inv.later T old
      simp [order, member]
    refine ⟨step_chained c taken, inv.blank, inv.whole, inv.grown.trans (step_extends c taken),
        fun T old => ?_,
      fun T old level X member => ?_, fun T old level e member => ?_⟩
    · rw [cnt] at old
      obtain ⟨rest, order, greater⟩ := inv.later T old
      have stays : ∀ X ∈ rest, ((T : Nat) : Timestamp) < (t.session X).txn.commitID :=
          fun X member => by
        obtain ⟨committing, next⟩ := kept X (by simp [order, member])
        rw [(next.commit committing).2.1]
        exact greater X member
      rw [(follows T old).before]
      rcases started with same | ⟨tid, grown, cid⟩
      · exact ⟨rest, same.trans order, stays⟩
      · refine ⟨rest ++ [tid], by rw [grown, order, append_assoc], fun X member => ?_⟩
        rcases mem_append.mp member with member | member
        · exact stays X member
        · rw [mem_singleton.mp member, cid]
          exact WithTop.coe_lt_coe.mpr old
    · rw [cnt] at old
      rw [(follows T old).isolation] at level
      rw [(follows T old).before] at member
      obtain ⟨committing, next⟩ := kept X (known T old X member)
      obtain ⟨earlier, free, cid⟩ := inv.seen T old level X member
      exact ⟨earlier, next.settled committing free, by rwa [(next.commit committing).2.1]⟩
    · rw [cnt] at old
      rw [(follows T old).isolation] at level
      have same : t.readsFrom kv (s.session T).before e = s.readsFrom kv (s.session T).before e :=
        readsFrom_congr (fun X seen key => by
          obtain ⟨committing, next⟩ := kept X (known T old X seen)
          exact next.work committing key) kv e
      rw [(follows T old).before, same]
      rcases step_reads c taken old with unchanged | ⟨fn, id, r, rfl, idle, call, more⟩
      · exact inv.reads T old level e (unchanged ▸ member)
      · rw [more] at member
        rcases mem_append.mp member with past | new
        · exact inv.reads T old level e past
        · obtain ⟨found, search, rfl⟩ := mem_map.mp new
          exact inv.fetched old level idle guard call (by simpa using search)

theorem init_snapshots (fresh : kv.Unversioned) (allocated : kv.Allocated) (whole : kv.ListsSound) :
    (Sys.init kv).Snapshots kv := by
  refine ⟨init_chained fresh, blank_of_allocated allocated, whole, .refl kv,
      fun T born => ⟨[], rfl, by simp⟩, ?_, ?_⟩
  · intro T born level X member
    cases member
  · intro T born level e member
    cases member

/-- In every guarded interleaving, all reads of a SNAPSHOT transaction see one set of transactions,
each with all its writes, and two reads of a key the transaction has not written return the same
list. -/
theorem snapshot_reads_see_one_set {kv : KVstore} (fresh : kv.Unversioned)
    (allocated : kv.Allocated) (whole : kv.ListsSound)
    {acts : List Act} (met : Guarded Sys.step SnapshotGuard (Sys.init kv) acts) {s : Sys}
    (ran : run Sys.step (Sys.init kv) acts = some s) {T : Nat}
    (level : (s.session T).txn.isolation = .snapshot) :
    (∃ seen : List Nat, (∀ X ∈ seen, X ≠ T ∧ X ∈ s.started ∧ (s.session X).held = []) ∧
      ∀ e ∈ (s.session T).reads, ∃ list, e.found.list e.key.type = some list ∧
      s.readsFrom kv seen e = some list) ∧
    ∀ e ∈ (s.session T).reads, ∀ e' ∈ (s.session T).reads, e.key = e'.key → e.own = ([], []) →
    e'.own = ([], []) →
      e.found.list e.key.type = e'.found.list e'.key.type := by
  have inv : s.Snapshots kv := Guarded.invariant
    (fun _ _ _ (inv : Sys.Snapshots _ kv) guard taken => inv.step guard taken) met
    (init_snapshots fresh allocated whole) ran
  by_cases born : T < s.cnt
  · have reads := inv.reads T born level
    refine ⟨⟨(s.session T).before, fun X member => ?_, reads⟩, fun e one e' two key own own' => ?_⟩
    · obtain ⟨rest, order, -⟩ := inv.later T born
      obtain ⟨earlier, settled, -⟩ := inv.seen T born level X member
      exact ⟨earlier.ne, by simp [order, member], settled⟩
    · obtain ⟨list, found, read⟩ := reads e one
      obtain ⟨list', found', read'⟩ := reads e' two
      rw [found, found', ← read, ← read', Sys.readsFrom, Sys.readsFrom, key, own, own']
  · rw [inv.chained.unborn T (Nat.le_of_not_lt born)]
    exact ⟨⟨[], by simp, fun e member => by cases member⟩, fun e member => by cases member⟩

/-- A reader that begins behind a finished commit. -/
theorem snapshot_reader_behind_commit :
    ∃ s, run Sys.step (Sys.init KVstore.empty)
        ([.begin .snapshot, .update 1 ⟨true, ⟨0, 0, 1⟩⟩] ++ List.replicate 8 (.advance 1) ++
          [.startCommit 1] ++
          List.replicate 4 (.advance 1) ++
          [.begin .snapshot, .read 2 .getpreIDlistBysubID 0, .read 2 .getpreIDlistByobjID 1]) =
        some s ∧ (s.session 2).reads.length = 2 ∧
      ∃ seen : List Nat, (∀ X ∈ seen, X ≠ 2 ∧ X ∈ s.started ∧ (s.session X).held = []) ∧
        ∀ e ∈ (s.session 2).reads, ∃ list, e.found.list e.key.type = some list ∧
          s.readsFrom KVstore.empty seen e = some list := by
  have observed : (run Sys.step (Sys.init KVstore.empty)
      ([.begin .snapshot, .update 1 ⟨true, ⟨0, 0, 1⟩⟩] ++ List.replicate 8 (.advance 1) ++
        [.startCommit 1] ++
        List.replicate 4 (.advance 1) ++
        [.begin .snapshot, .read 2 .getpreIDlistBysubID 0, .read 2 .getpreIDlistByobjID 1])).map
      (fun s => ((s.session 2).reads.length, (s.session 2).txn.isolation)) = some
      (2, .snapshot) := by decide +kernel
  obtain ⟨s, ran, same⟩ := Option.map_eq_some_iff.mp observed
  obtain ⟨count, level⟩ := Prod.mk.inj same
  exact ⟨s, ran, count, (snapshot_reads_see_one_set empty_unversioned empty_allocated_store
      empty_listsSound
    (by decide) ran level).1⟩

/-- A reader that begins in the middle of a commit and writes nothing: its first read of the subject
is without the writer's pair, and its second read, after the key has been published, is with it. -/
theorem snapshot_reads_change :
    ∃ s, run Sys.step (Sys.init KVstore.empty)
        ([.begin .snapshot, .update 1 ⟨true, ⟨0, 0, 1⟩⟩] ++ List.replicate 8 (.advance 1) ++
          [.startCommit 1, .begin .snapshot, .read 2 .getpreIDlistBysubID 0, .advance 1, .advance 1,
            .read 2 .getpreIDlistBysubID 0]) = some s ∧
      (s.session 2).txn.isolation = .snapshot ∧ (s.session 2).txn.writeSet = [] ∧
      (s.session 2).reads.map (fun e => (e.key.type, e.key.id)) = [(.subject, 0), (.subject, 0)] ∧
      (s.session 2).reads.map (fun e => e.found.list .subject) =
      [some none, some (some [1, 1, 1, 0, 5, 1])] := by
  have observed : (run Sys.step (Sys.init KVstore.empty)
      ([.begin .snapshot, .update 1 ⟨true, ⟨0, 0, 1⟩⟩] ++ List.replicate 8 (.advance 1) ++
        [.startCommit 1, .begin .snapshot, .read 2 .getpreIDlistBysubID 0, .advance 1, .advance 1,
          .read 2 .getpreIDlistBysubID 0])).map
      (fun s => decide ((s.session 2).txn.isolation = .snapshot ∧ (s.session 2).txn.writeSet = [] ∧
        (s.session 2).reads.map (fun e => (e.key.type, e.key.id)) = [(.subject, 0), (.subject, 0)] ∧
        (s.session 2).reads.map (fun e => e.found.list .subject) =
        [some none, some (some [1, 1, 1, 0, 5, 1])])) =
      some true := by decide +kernel
  obtain ⟨s, ran, same⟩ := Option.map_eq_some_iff.mp observed
  exact ⟨s, ran, of_decide_eq_true same⟩

end GStore
