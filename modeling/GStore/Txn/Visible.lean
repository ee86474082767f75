import GStore.Txn.Chain
import GStore.Txn.Merge

/-! What a transaction finds at a key in a reachable state: the work of the transactions that have
published the key, as far as the reader may see them, and its own work on top. -/
namespace GStore
open Lib List

theorem foldl_link (as : List Stamped) (sets : VDataSet × VDataSet) :
    (link as).foldl (fun sets v => v.getVersion sets) sets =
    (as.map fun a => (a.adds, a.dels)).foldl mergeWork sets := by
  induction as generalizing sets with
  | nil => rfl
  | cons a as ih =>
    cases as with
    | nil => rfl
    | cons b rest =>
      rw [link, foldl_cons, ih, map_cons, foldl_cons]
      rfl

theorem takeWhile_link {as : List Stamped} (ordered : as.Pairwise fun a b => a.cid ≤ b.cid)
    (tid : Nat)
    {own : List Version} (uncommitted : ∀ v ∈ own, v.beginTs = ⊤) (sets : VDataSet × VDataSet) :
    ((link as ++ own).takeWhile fun v => !decide ((tid : Timestamp) < v.beginTs)).foldl
    (fun sets v => v.getVersion sets) sets =
      ((as.filter fun a => decide (a.cid ≤ (tid : Timestamp))).map fun a => (a.adds, a.dels)).foldl
      mergeWork sets := by
  induction as generalizing sets with
  | nil =>
    cases own with
    | nil => rfl
    | cons v own => simp [link, uncommitted v (by simp)]
  | cons a as ih =>
    obtain ⟨first, rest⟩ := pairwise_cons.mp ordered
    obtain ⟨endTs, head⟩ : ∃ endTs, link (a :: as) = ⟨a.cid, endTs, a.adds, a.dels⟩ :: link as := by
      cases as with
      | nil => exact ⟨⊤, rfl⟩
      | cons b rest => exact ⟨b.cid, rfl⟩
    rw [head, cons_append, takeWhile_cons]
    by_cases early : a.cid ≤ (tid : Timestamp)
    · simp only [not_lt.mpr early, decide_false, Bool.not_false, if_true, foldl_cons, ih rest]
      rw [filter_cons_of_pos (by simpa using early), map_cons, foldl_cons]
      rfl
    · have late : as.filter (fun a => decide (a.cid ≤ (tid : Timestamp))) = [] :=
        filter_eq_nil_iff.mpr fun b hb
        => by simpa using lt_of_lt_of_le (not_le.mp early) (first b hb)
      rw [filter_cons_of_neg (by simpa using early), late]
      simp [not_le.mp early]

def Sys.works (s : Sys) (txns : List Nat) (key : Key) : List (List VData × List VData) :=
  txns.map fun X => (s.session X).work key

def Sys.ownWork (s : Sys) (tid : Nat) (key : Key) : List (List VData × List VData) :=
  if key ∈ (s.session tid).held then [(s.session tid).work key] else []

def Sys.visible (s : Sys) (tid : Nat) (key : Key) : List Nat :=
  (s.owners key).filter fun X => decide ((s.session X).txn.commitID ≤ (tid : Timestamp))

theorem committed_visible (s : Sys) (key : Key) (tid : Nat) :
    (((s.committed key).filter fun a => decide (a.cid ≤ (tid : Timestamp))).map fun a =>
      (a.adds, a.dels)) =
      ([], []) :: s.works (s.visible tid key) key := by
  rw [Sys.committed, filter_cons_of_pos (by simp), map_cons, filter_map, map_map]
  rfl

variable {s : Sys}

theorem Sys.Chained.getProperVersion (c : s.Chained) (key : Key) (tid : Nat) :
    (s.kv.entryAt key).getProperVersion (tid : Timestamp) =
      some (mergeWorks (s.works (s.visible tid key) key ++ s.ownWork tid key)) := by
  have merged : ∀ own : List Version, (∀ v ∈ own, v.beginTs = ⊤) →
      ((link (s.committed key) ++ own).takeWhile fun v =>
        !decide ((tid : Timestamp) < v.beginTs)).foldl
        (fun sets v => v.getVersion sets) ([], []) = mergeWorks
        (s.works (s.visible tid key) key) := by
    intro own uncommitted
    rw [takeWhile_link (c.committed_cids key).2 tid uncommitted, committed_visible]
    rfl
  unfold IVEntry.getProperVersion
  by_cases busy : ∃ X, key ∈ (s.session X).held
  · obtain ⟨X, holds⟩ := busy
    rw [c.owned X key holds, getLast?_append, merged _ (by simp [Session.ownVersion])]
    obtain rfl | same := eq_or_ne X tid
    · simp [Session.ownVersion, Sys.ownWork, holds, mergeWorks, foldl_append, getVersion_eq]
    · have other : key ∉ (s.session tid).held := fun own => same (c.holder_unique holds own)
      simp [Session.ownVersion, Sys.ownWork, other, Ne.symm same]
  · have vacant : ∀ X, key ∉ (s.session X).held := by simpa using busy
    obtain ⟨b, member, last⟩ := @link_last (s.committed key) (by simp [Sys.committed])
    rw [c.free key vacant, ← append_nil (link _), merged [] (by simp), append_nil, last]
    simp [(c.committed_cids key).1 b member, Sys.ownWork, vacant tid]

theorem foldl_committed (s : Sys) (key : Key) :
    (link (s.committed key)).foldl (fun sets v => v.getVersion sets) ([], []) = mergeWorks
    (s.works (s.owners key) key) := by
  rw [foldl_link, Sys.committed, map_cons, map_map]
  rfl

variable {key : Key}

theorem Sys.Chained.getLatestVersion_free (c : s.Chained) (vacant : ∀ X, key ∉ (s.session X).held)
    (tid : Timestamp) : (s.kv.entryAt key).getLatestVersion tid = some
    (mergeWorks (s.works (s.owners key) key)) := by
  obtain ⟨b, member, last⟩ := @link_last (s.committed key) (by simp [Sys.committed])
  have whole : (link (s.committed key)).dropLast ++ [⟨b.cid, ⊤, b.adds, b.dels⟩] = link
      (s.committed key) :=
    dropLast_append_getLast? _ last
  have merged := foldl_committed s key
  rw [← whole, foldl_append] at merged
  rw [IVEntry.getLatestVersion, c.free key vacant, last]
  simpa using merged

theorem Sys.Chained.getLatestVersion (c : s.Chained) (key : Key) (tid : Nat) :
    (s.kv.entryAt key).getLatestVersion (tid : Timestamp) =
      some (mergeWorks (s.works (s.owners key) key ++ s.ownWork tid key)) := by
  by_cases busy : ∃ X, key ∈ (s.session X).held
  · obtain ⟨X, holds⟩ := busy
    rw [IVEntry.getLatestVersion, c.owned X key holds, getLast?_append, dropLast_concat,
        foldl_committed]
    obtain rfl | same := eq_or_ne X tid
    · simp [Session.ownVersion, Sys.ownWork, holds, mergeWorks, foldl_append, getVersion_eq]
    · have other : key ∉ (s.session tid).held := fun own => same (c.holder_unique holds own)
      simp [Session.ownVersion, Sys.ownWork, other, same]
  · have vacant : ∀ X, key ∉ (s.session X).held := by simpa using busy
    rw [c.getLatestVersion_free vacant, Sys.ownWork, if_neg (vacant tid), append_nil]

theorem mergeWorks_filter {work : Nat → List VData × List VData} {p : Nat → Bool} {txns : List Nat}
    (blank : ∀ X ∈ txns, p X = false → work X = ([], [])) :
    mergeWorks ((txns.filter p).map work) = mergeWorks (txns.map work) := by
  unfold mergeWorks
  generalize (([], []) : VDataSet × VDataSet) = sets
  induction txns generalizing sets with
  | nil => rfl
  | cons X txns ih =>
    have rest := fun Y hY => blank Y (mem_cons_of_mem X hY)
    cases keep : p X with
    | true => rw [filter_cons_of_pos keep, map_cons, foldl_cons, ih rest, map_cons, foldl_cons]
    | false =>
      rw [filter_cons_of_neg (by simp [keep]), ih rest, map_cons, foldl_cons, blank X (by simp) keep]
      rfl

theorem mergeWorks_append (works more : List (List VData × List VData)) :
    mergeWorks (works ++ more) = more.foldl mergeWork (mergeWorks works) := foldl_append

theorem Sys.Chained.started_lt (c : s.Chained) {X : Nat} (member : X ∈ s.started) : X < s.cnt := by
  by_contra late
  rw [c.started, c.unborn X (Nat.le_of_not_lt late)] at member
  simp [Session.committing, Session.unborn] at member

theorem works_congr {s t : Sys} {txns : List Nat} (same : ∀ X ∈ txns, t.session X = s.session X)
    (key : Key) :
    t.works txns key = s.works txns key :=
  map_congr_left fun X member => by rw [same X member]

theorem Sys.Chained.work_unwritten (c : s.Chained) {X : Nat}
    (between : (s.session X).updates key = (s.session X).done)
    (away : key ∉ (s.session X).txn.writeSet) :
    (s.session X).work key = ([], []) := by
  obtain ⟨adds, dels⟩ := @changes_elsewhere (s.session X).done key fun u hu member =>
    away (((c.sound X).written key).mpr ⟨u, hu, member⟩)
  simp [Session.work, between, adds, dels]

theorem Sys.Chained.mergeWorks_owners (c : s.Chained)
    (ended : ∀ X ∈ s.started, (s.session X).phase = .ended)
    (key : Key) : mergeWorks (s.works (s.owners key) key) = mergeWorks (s.works s.started key) := by
  refine mergeWorks_filter fun X member hidden => c.work_unwritten
    (by simp [Session.updates, ended X member]) fun written => ?_
  have published : key ∈ (s.session X).published :=
    mem_published.mpr ⟨(c.started X).mp member, written, by simp [Session.held, ended X member]⟩
  simp [published] at hidden

/-- What transactions never do to a store: shrink an array, change a base list, or touch an entry
outside. -/
structure KVstore.Extends (kv kv' : KVstore) : Prop where
  range : ∀ key, kv.InRange key → kv'.InRange key
  value : ∀ key, (kv'.entryAt key).value = (kv.entryAt key).value
  outside : ∀ key, ¬ kv'.InRange key → kv'.entryAt key = kv.entryAt key

theorem KVstore.Extends.refl (kv : KVstore) : kv.Extends kv :=
  ⟨fun _ h => h, fun _ => rfl, fun _ _ => rfl⟩

theorem KVstore.Extends.trans {kv kv' kv'' : KVstore} (first : kv.Extends kv')
    (second : kv'.Extends kv'') :
    kv.Extends kv'' where
  range key inside := second.range key (first.range key inside)
  value key := (second.value key).trans (first.value key)
  outside key away := (second.outside key away).trans
    (first.outside key fun inside => away (second.range key inside))

theorem setEntryAt_extends {kv : KVstore} {e : IVEntry} (inside : kv.InRange key)
    (value : e.value = (kv.entryAt key).value) : kv.Extends (kv.setEntryAt key e) := by
  refine ⟨fun k h => (inRange_setEntryAt kv key k e).mpr h, fun k => ?_, fun k away => ?_⟩
  · obtain rfl | same := eq_or_ne k key
    · simp [value]
    · simp [Function.update_of_ne same]
  · have apart : k ≠ key := by
      rintro rfl
      exact away ((inRange_setEntryAt kv k k e).mpr inside)
    simp [Function.update_of_ne apart]

theorem reserve_extends (kv : KVstore) (key : Key) : kv.Extends (kv.reserve key) :=
  ⟨fun _ => inRange_reserve, fun k => by rw [entryAt_reserve], fun k _ => by rw [entryAt_reserve]⟩

variable {kv kv' : KVstore}

theorem access_extends {β : Type} {outside r : β} {f : IVEntry → Option (β × IVEntry)}
    (call : kv.onArray key (fun a i => a.access i outside f) = some (r, kv'))
    (keeps : ∀ e e', f e = some (r, e') → e'.value = e.value) : kv.Extends kv' := by
  rcases access_cases call with ⟨-, -, rfl⟩ | ⟨inside, e, entry, rfl⟩
  · exact .refl kv'
  · exact setEntryAt_extends inside (keeps _ _ entry)

variable {txn : Transaction}

theorem getExclusiveLatch_extends {hasRead done : Bool}
    (call : kv.getExclusiveLatch key txn hasRead = some (done, kv')) : kv.Extends kv' := by
  rw [getExclusiveLatch_eq] at call
  split at call
  · cases call
    exact .refl kv
  · obtain ⟨⟨done, e⟩, entry, same⟩ := Option.map_eq_some_iff.mp call
    cases same
    refine (reserve_extends kv key).trans (setEntryAt_extends (reserve_inRange kv key) ?_)
    rw [entryAt_reserve]
    cases done with
    | true => exact (getExclusiveLatch_granted entry).2.2.1
    | false => rw [getExclusiveLatch_refused entry]

theorem invalidValues_extends {hasRead done : Bool}
    (call : kv.invalidValues key txn hasRead = some (done, kv')) : kv.Extends kv' := by
  refine access_extends (f := fun e => e.invalidExlusiveLatch _ _) call fun e e' entry => ?_
  cases done with
  | true => exact (invalidExlusiveLatch_done entry).2.1
  | false => rw [invalidExlusiveLatch_refused entry]

theorem step_extends {s t : Sys} {a : Act} (c : s.Chained) (taken : s.step a = some t) :
    s.kv.Extends t.kv := by
  cases step_moves taken with
  | read tid fn id r at_phase call =>
    rcases fetch_cases call with ⟨store, -, -⟩ | ⟨inside, found, e, -, entry, store, -⟩
    · exact store ▸ .refl s.kv
    · exact store ▸ setEntryAt_extends inside (search_frame entry).2
  | latch tid u key next mine e at_phase unwritten call =>
    refine (reserve_extends s.kv key).trans (setEntryAt_extends (reserve_inRange s.kv key) ?_)
    rw [entryAt_reserve]
    exact (getExclusiveLatch_granted call).2.2.1
  | refuse tid u key next mine kv at_phase unwritten call => exact getExclusiveLatch_extends call
  | undo tid key keys kv at_phase call => exact invalidValues_extends call
  | write tid u key next mine kv at_phase call =>
    rcases updateValues_cases call with ⟨-, failed⟩ | ⟨inside, -, last, -, rfl⟩
    · cases failed
    · exact setEntryAt_extends inside rfl
  | writeFail tid u key next mine kv at_phase call => exact absurd call (c.write_succeeds at_phase)
  | drop tid keys t at_phase => exact absurd at_phase (c.not_dropping keys)
  | releaseShared tid publish key shared exclusive failed done kv at_phase call =>
    exact access_extends (f := fun e => e.unLatchShared _) call fun e e' entry =>
      (unLatchShared_frame entry).2
  | publish tid key exclusive failed done kv at_phase call =>
    refine access_extends (f := fun e => e.unLatchExclusive _) call fun e e' entry => ?_
    cases done with
    | true => exact (unLatchExclusive_done entry).2.1
    | false => rw [unLatchExclusive_refused entry]
  | invalidate tid key exclusive failed done kv at_phase call => exact invalidValues_extends call
  | startCommit tid at_phase running =>
    rw [Sys.startCommit, if_pos running]
    exact .refl s.kv
  | _ => exact .refl s.kv

theorem run_extends {s t : Sys} {acts : List Act} (c : s.Chained)
    (ran : run Sys.step s acts = some t) :
    s.kv.Extends t.kv :=
  (@run_invariant Sys Act Sys.step (fun t => t.Chained ∧ s.kv.Extends t.kv)
    (fun _ _ _ ⟨c, grown⟩ taken => ⟨step_chained c taken, grown.trans (step_extends c taken)⟩) s t
    acts
    ⟨c, .refl s.kv⟩ ran).2

/-- Whatever the interleaving, a read at a key merges into the base list of the start the work of
the transactions that have published the key, each once and in commit order, and then the reader's
own: READ COMMITTED takes all of them, SNAPSHOT those with a commit id up to its own id. -/
theorem reachable_reads_merge_commits {kv : KVstore} (fresh : kv.Unversioned) {acts : List Act}
    (ran : run Sys.step (Sys.init kv) acts = some s) (key : Key) (tid : Nat) :
    (s.kv.entryAt key).value = (kv.entryAt key).value ∧ (s.owners key).Nodup ∧
      ((s.owners key).Pairwise fun X Y => (s.session X).txn.commitID ≤ (s.session Y).txn.commitID) ∧
      (s.kv.entryAt key).getLatestVersion (tid : Timestamp) =
        some (mergeWorks (s.works (s.owners key) key ++ s.ownWork tid key)) ∧
      (s.kv.entryAt key).getProperVersion (tid : Timestamp) =
        some (mergeWorks (s.works (s.visible tid key) key ++ s.ownWork tid key)) := by
  have c := run_chained fresh ran
  exact ⟨(run_extends (init_chained fresh) ran).value key, c.distinct.filter _, c.ordered.filter _,
    c.getLatestVersion key tid, c.getProperVersion key tid⟩

/-- A writer that has published one of its three keys. -/
theorem reads_merge_half_commit : ∃ s, run Sys.step (Sys.init KVstore.empty)
      ([.begin .snapshot, .update 1 ⟨true, ⟨0, 0, 1⟩⟩] ++ replicate 8 (.advance 1) ++
        [.startCommit 1, .advance 1]) = some s ∧
    (s.kv.entryAt ⟨.predicate, 0⟩).getLatestVersion (2 : Nat) =
      some (mergeWorks (s.works (s.owners ⟨.predicate, 0⟩) ⟨.predicate, 0⟩ ++
        s.ownWork 2 ⟨.predicate, 0⟩)) := by
  refine Exists.imp (fun s ran =>
      ⟨ran, (reachable_reads_merge_commits empty_unversioned ran ⟨.predicate, 0⟩ 2).2.2.2.1⟩)
    (Option.isSome_iff_exists.mp ?_)
  decide +kernel

def KVstore.Blank (kv : KVstore) : Prop := ∀ key, ¬ kv.InRange key → kv.entryAt key = IVEntry.init

theorem blank_of_allocated {kv : KVstore} (allocated : kv.Allocated) : kv.Blank :=
  fun key away => allocated (locate key).1 (locate key).2 (Nat.le_of_not_lt away)

theorem KVstore.Extends.blank (extends_ : kv.Extends kv') (blank : kv.Blank) : kv'.Blank :=
  fun key away => (extends_.outside key away).trans
    (blank key fun inside => away (extends_.range key inside))

def KVstore.ListsSound (kv : KVstore) : Prop := ∀ key, ∃ S, Lists key.type (kv.entryAt key).value S

theorem empty_listsSound : KVstore.empty.ListsSound := by
  intro ⟨type, id⟩
  cases type with
  | subject => exact ⟨fun _ => False, [], grouped_nil, rfl, by simp⟩
  | predicate => exact ⟨fun _ => False, [], List.Pairwise.nil, rfl, by simp⟩
  | object =>
    refine ⟨fun _ => False, [], grouped_nil, ?_, by simp⟩
    simp only [KVstore.entryAt, KVstore.empty]
    rfl

theorem search_ok {e e' : IVEntry} {firstRead : Bool} {r : SearchResult}
    (call : e.search txn firstRead = some (r, e')) (ok : r.ok = true) : r.value = e.value ∧
      (if txn.isolation = .readCommitted then e.getLatestVersion txn.tid else e.getProperVersion
        txn.tid) = some r.sets := by
  obtain ⟨read, version, same⟩ := Option.map_eq_some_iff.mp call
  cases same
  have read_ok : read.ok = true := by
    by_contra failed
    simp [failed] at ok
  simp only [read_ok, if_true, true_and]
  unfold IVEntry.readVersion at version
  split at version
  · rename_i level
    obtain ⟨sets, merged, rfl⟩ := Option.map_eq_some_iff.mp version
    rw [if_pos level, merged]
  · rename_i level
    obtain ⟨sets, merged, rfl⟩ := Option.map_eq_some_iff.mp version
    rw [if_neg (by simp [level]), merged]
  · rename_i level
    rw [if_neg (by simp [level])]
    obtain ⟨ret, -, version⟩ := Option.bind_eq_some_iff.mp version
    split at version
    · cases version
      cases read_ok
    · split at version
      · obtain ⟨⟨latched, g⟩, -, version⟩ := Option.bind_eq_some_iff.mp version
        dsimp only at version
        split at version
        · obtain ⟨sets, merged, rfl⟩ := Option.map_eq_some_iff.mp version
          exact merged
        · cases version
          cases read_ok
      · obtain ⟨sets, merged, rfl⟩ := Option.map_eq_some_iff.mp version
        exact merged

end GStore
