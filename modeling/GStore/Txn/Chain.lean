import GStore.Txn.System
import Mathlib.Data.List.Chain

/-! What the version lists are in every reachable state: the versions of the transactions that have
published a key, linked in the order in which these started to commit, and behind them the private
version of the one transaction that holds the key. -/
namespace GStore
open Lib Function List Session

structure Stamped where
  cid : Timestamp
  adds : List VData
  dels : List VData
  deriving DecidableEq

def link : List Stamped → List Version
  | [] => []
  | [a] => [⟨a.cid, ⊤, a.adds, a.dels⟩]
  | a :: b :: rest => ⟨a.cid, b.cid, a.adds, a.dels⟩ :: link (b :: rest)

variable {as : List Stamped}

theorem link_ne_nil {a : Stamped} : link (a :: as) ≠ [] := by
  cases as <;> simp [link]

theorem link_beginTs (as : List Stamped) : (link as).map Version.beginTs = as.map Stamped.cid := by
  induction as with
  | nil => rfl
  | cons a as ih =>
    cases as with
    | nil => rfl
    | cons b rest => simp [link, map_cons, ih]

theorem link_getLast (as : List Stamped) (b : Stamped) :
    (link (as ++ [b])).getLast? = some ⟨b.cid, ⊤, b.adds, b.dels⟩ := by
  induction as with
  | nil => rfl
  | cons a as ih =>
    cases as with
    | nil => rfl
    | cons c rest =>
      rw [cons_append] at ih
      rw [cons_append, cons_append, link, getLast?_cons, ih]
      rfl

theorem stamp_cons (cid : Timestamp) (v p : Version) {vs : List Version} (more : vs ≠ []) :
    stamp cid (v :: (vs ++ [p])) = (stamp cid (vs ++ [p])).map (v :: ·) := by
  rcases vs with _ | ⟨w, _ | ⟨z, rest⟩⟩
  · exact absurd rfl more
  · rfl
  · rfl

theorem stamp_link (some_version : as ≠ []) (cid tid : Timestamp) (adds dels : List VData) :
    stamp cid (link as ++ [⟨⊤, tid, adds, dels⟩]) = some (link (as ++ [⟨cid, adds, dels⟩])) := by
  induction as with
  | nil => exact absurd rfl some_version
  | cons a as ih =>
    cases as with
    | nil => rfl
    | cons b rest =>
      rw [link, cons_append, stamp_cons cid _ _ link_ne_nil, ih (by simp)]
      rfl

variable (x : Session)

def Session.held : List Key :=
  match x.phase with
  | .idle => x.txn.writeSet
  | .locking _ _ mine => x.txn.writeSet ++ mine
  | .undoing keys => x.txn.writeSet ++ keys
  | .writing _ _ mine => x.txn.writeSet ++ mine
  | .dropping keys => x.txn.writeSet ++ keys
  | .closing _ _ exclusive failed => exclusive ++ failed.filter x.txn.writeSetFind
  | .ended => []

def Session.committing : Bool :=
  match x.phase with
  | .closing publish _ _ _ => publish
  | .ended => decide (x.txn.state = .committed)
  | _ => false

def Session.published : List Key :=
  if x.committing then x.txn.writeSet.filter fun key => decide (key ∉ x.held) else []

theorem mem_published {x : Session} {key : Key} :
    key ∈ x.published ↔ x.committing = true ∧ key ∈ x.txn.writeSet ∧ key ∉ x.held := by
  unfold published
  split_ifs with yes
  · simp [yes]
  · simp [yes]

def Sys.owners (s : Sys) (key : Key) : List Nat :=
  s.started.filter fun X => decide (key ∈ (s.session X).published)

def Sys.versionAt (s : Sys) (key : Key) (X : Nat) : Stamped :=
  ⟨(s.session X).txn.commitID, ((s.session X).work key).1, ((s.session X).work key).2⟩

def Sys.committed (s : Sys) (key : Key) : List Stamped :=
  ⟨(0 : Nat), [], []⟩ :: (s.owners key).map (s.versionAt key)

def Session.ownVersion (X : Nat) (key : Key) : Version :=
  ⟨⊤, (X : Nat), (x.work key).1, (x.work key).2⟩

def Session.PhaseSound : Prop :=
  match x.phase with
  | .locking u next mine => ∃ passed, u.triple.lockKeys = passed ++ next ∧
      mine = passed.filter fun k => !x.txn.writeSetFind k
  | .undoing keys => keys.Nodup ∧ ∀ k ∈ keys, k ∉ x.txn.writeSet
  | .writing u next mine => (∃ passed, u.triple.writeKeys = passed ++ next) ∧
      mine = u.triple.lockKeys.filter fun k => !x.txn.writeSetFind k
  | .dropping _ => False
  | .closing _ shared exclusive failed => (shared ++ exclusive ++ failed).Nodup ∧
      (∀ k ∈ shared, k ∉ x.txn.writeSet) ∧ ∀ k ∈ exclusive, k ∈ x.txn.writeSet
  | _ => True

structure Session.Sound (x : Session) (X : Nat) : Prop where
  tid : x.phase ≠ .ended → x.txn.tid = (X : Nat)
  written : ∀ key, key ∈ x.txn.writeSet ↔ ∃ u ∈ x.done, key ∈ u.triple.writeKeys
  writes : x.txn.writeSet.Nodup
  reads : x.txn.readSet.Nodup
  phase : x.PhaseSound

structure Sys.Chained (s : Sys) : Prop where
  unborn : ∀ X, s.cnt ≤ X → s.session X = Session.unborn
  sound : ∀ X, (s.session X).Sound X
  started : ∀ X, X ∈ s.started ↔ (s.session X).committing = true
  distinct : s.started.Nodup
  stamps : ∀ X ∈ s.started, ∃ c : Nat, (s.session X).txn.commitID = c ∧ c ≤ s.cnt
  ordered : s.started.Pairwise fun X Y => (s.session X).txn.commitID ≤ (s.session Y).txn.commitID
  range : ∀ X, ∀ key ∈ (s.session X).held, s.kv.InRange key
  latest : ∀ X key front back, key ∈ (s.session X).held → s.started = front ++ X :: back →
    ∀ Z ∈ back, key ∉ (s.session Z).published
  free : ∀ key, (∀ X, key ∉ (s.session X).held) → (s.kv.entryAt key).vList = link (s.committed key)
  owned : ∀ X key, key ∈ (s.session X).held →
    (s.kv.entryAt key).vList = link (s.committed key) ++ [(s.session X).ownVersion X key]

variable {s : Sys}

theorem Sys.Chained.holder_unique (c : s.Chained) {X Y : Nat} {key : Key}
    (first : key ∈ (s.session X).held) (second : key ∈ (s.session Y).held) : X = Y := by
  have same := (c.owned X key first).symm.trans (c.owned Y key second)
  have last := append_cancel_left same
  simpa [ownVersion] using congrArg (·.map Version.endTs) last

theorem Sys.Chained.committed_cids (c : s.Chained) (key : Key) :
    (∀ v ∈ s.committed key, v.cid ≠ ⊤) ∧ (s.committed key).Pairwise fun v w => v.cid ≤ w.cid := by
  have owner : ∀ X ∈ s.owners key, ∃ n : Nat, (s.versionAt key X).cid = n := fun X member => by
    obtain ⟨n, cid, -⟩ := c.stamps X (mem_filter.mp member).1
    exact ⟨n, cid⟩
  constructor
  · intro v member
    rcases mem_cons.mp member with rfl | member
    · simp
    · obtain ⟨X, owns, rfl⟩ := mem_map.mp member
      obtain ⟨n, cid⟩ := owner X owns
      simp [cid]
  · refine pairwise_cons.mpr ⟨fun v _ => ?_, ?_⟩
    · cases v.cid with
      | none => exact le_top
      | some n => exact WithTop.coe_le_coe.mpr (Nat.zero_le n)
    · rw [pairwise_map]
      exact c.ordered.sublist filter_sublist

theorem link_last (some_version : as ≠ []) :
    ∃ b ∈ as, (link as).getLast? = some ⟨b.cid, ⊤, b.adds, b.dels⟩ := by
  obtain ⟨front, b, rfl⟩ := eq_nil_or_concat as |>.resolve_left some_version
  rw [concat_eq_append]
  exact ⟨b, by simp, link_getLast front b⟩

inductive Sys.Effect (s : Sys) (tid : Nat) (kv : KVstore) (y : Session) (key : Key) : Prop where
  | same (chain : (kv.entryAt key).vList = (s.kv.entryAt key).vList)
      (held : key ∈ y.held ↔ key ∈ (s.session tid).held)
      (published : key ∈ y.published ↔ key ∈ (s.session tid).published)
      (work : y.work key = (s.session tid).work key)
  | push (vacant : ∀ X, key ∉ (s.session X).held) (gained : key ∈ y.held) (early : y.committing = false)
      (chain : (kv.entryAt key).vList = (s.kv.entryAt key).vList ++ [y.ownVersion tid key])
  | pop (held : key ∈ (s.session tid).held) (released : key ∉ y.held) (early : y.committing = false)
      (chain : (kv.entryAt key).vList = (s.kv.entryAt key).vList.dropLast)
  | write (held : key ∈ (s.session tid).held) (keeps : key ∈ y.held) (early : y.committing = false)
      (chain : (kv.entryAt key).vList = (s.kv.entryAt key).vList.dropLast ++ [y.ownVersion tid key])
  | publish (held : key ∈ (s.session tid).held) (released : key ∉ y.held) (written : key ∈ y.txn.writeSet)
      (closing : y.committing = true) (work : y.work key = (s.session tid).work key)
      (chain : stamp y.txn.commitID (s.kv.entryAt key).vList = some (kv.entryAt key).vList)

theorem not_mem_published {x : Session} (early : x.committing = false) (key : Key) :
    key ∉ x.published := by
  rw [mem_published, early]
  simp

variable {kv : KVstore} {tid : Nat} {y : Session}

theorem committed_put {key : Key} (published : key ∈ y.published ↔ key ∈ (s.session tid).published)
    (version : key ∈ y.published → y.txn.commitID = (s.session tid).txn.commitID ∧
        y.work key = (s.session tid).work key) :
    (s.put tid kv y).committed key = s.committed key := by
  have owners : (s.put tid kv y).owners key = s.owners key := by
    apply filter_congr
    intro X _
    obtain rfl | same := eq_or_ne X tid
    · simp [published]
    · simp [update_of_ne same]
  rw [Sys.committed, Sys.committed, owners]
  congr 1
  apply map_congr_left
  intro X member
  unfold Sys.versionAt
  obtain rfl | same := eq_or_ne X tid
  · have member : key ∈ (s.session X).published := of_decide_eq_true (mem_filter.mp member).2
    obtain ⟨cid, work⟩ := version (published.mpr member)
    simp [cid, work]
  · simp [update_of_ne same]

theorem committed_publish (c : s.Chained) {key : Key}
    (held : key ∈ (s.session tid).held) (closing : (s.session tid).committing = true)
      (published : key ∈ y.published)
    (cid : y.txn.commitID = (s.session tid).txn.commitID)
      (work : y.work key = (s.session tid).work key) :
    (s.put tid kv y).committed key = s.committed key ++ [s.versionAt key tid] := by
  obtain ⟨front, back, split⟩ := append_of_mem ((c.started tid).mpr closing)
  have distinct := c.distinct
  rw [split] at distinct
  obtain ⟨-, tail, apart⟩ := nodup_append.mp distinct
  have before : tid ∉ front := fun h => apart tid h tid (by simp) rfl
  have after : tid ∉ back := (nodup_cons.mp tail).1
  have own : key ∉ (s.session tid).published := fun h => (mem_published.mp h).2.2 held
  have quiet : ∀ (session : Nat → Session), (∀ X, X ≠ tid → session X = s.session X) →
      back.filter (fun X => decide (key ∈ (session X).published)) = [] := by
    intro session agree
    rw [filter_eq_nil_iff]
    intro Z hZ
    rw [agree Z fun same => after (same ▸ hZ)]
    simpa using c.latest tid key front back held split Z hZ
  have others : ∀ X, X ≠ tid → (s.put tid kv y).session X = s.session X := fun X away => by
    simp [update_of_ne away]
  have stays : front.filter (fun X => decide (key ∈ ((s.put tid kv y).session X).published)) =
      front.filter fun X => decide (key ∈ (s.session X).published) := by
    apply filter_congr
    intro X hX
    rw [others X fun same => before (same ▸ hX)]
  have owners : (s.put tid kv y).owners key = s.owners key ++ [tid] := by
    unfold Sys.owners
    rw [put_started, split, filter_append, filter_append, filter_cons, filter_cons, quiet _ others,
      quiet s.session fun _ _ => rfl, stays]
    simp [published, own]
  have versions : (s.put tid kv y).versionAt key tid = s.versionAt key tid := by
    simp [Sys.versionAt, cid, work]
  rw [Sys.committed, owners, map_append, map_singleton, versions, Sys.committed, cons_append]
  congr 2
  apply map_congr_left
  intro X member
  have away : X ≠ tid := by
    rintro rfl
    exact own (of_decide_eq_true (mem_filter.mp member).2)
  rw [Sys.versionAt, others X away]
  rfl

theorem Sys.Chained.put (c : s.Chained) (live : tid < s.cnt)
    (sound : y.Sound tid) (committing : y.committing = (s.session tid).committing)
    (cid : y.txn.commitID = (s.session tid).txn.commitID)
      (grows : ∀ key, s.kv.InRange key → kv.InRange key)
    (range : ∀ key ∈ y.held, kv.InRange key) (effect : ∀ key, s.Effect tid kv y key) :
        (s.put tid kv y).Chained := by
  have other : ∀ X, X ≠ tid → (s.put tid kv y).session X = s.session X := fun X away => by
    simp [update_of_ne away]
  have self : (s.put tid kv y).session tid = y := by simp
  have cids : ∀ X, ((s.put tid kv y).session X).txn.commitID = (s.session X).txn.commitID := by
    intro X
    obtain rfl | same := eq_or_ne X tid
    · rw [self, cid]
    · rw [other X same]
  have vacates : ∀ {key X}, key ∈ (s.session tid).held → key ∈ ((s.put tid kv y).session X).held →
      X = tid := by
    intro key X held holds
    by_contra away
    rw [other X away] at holds
    exact away (c.holder_unique holds held)
  have stays : ∀ key, y.committing = false → (s.put tid kv y).committed key = s.committed key := by
    intro key early
    refine committed_put ⟨fun h => absurd h (not_mem_published early key), fun h => ?_⟩
      fun h => absurd h (not_mem_published early key)
    exact absurd h (not_mem_published (committing ▸ early) key)
  refine ⟨?_, ?_, ?_, c.distinct, ?_, ?_, ?_, ?_, ?_, ?_⟩
  · intro X late
    have away : X ≠ tid := fun same => absurd live (Nat.not_lt_of_le (same ▸ late))
    rw [other X away]
    exact c.unborn X late
  · intro X
    obtain rfl | same := eq_or_ne X tid
    · rwa [self]
    · rw [other X same]
      exact c.sound X
  · intro X
    rw [put_started, c.started X]
    obtain rfl | same := eq_or_ne X tid
    · rw [self, committing]
    · rw [other X same]
  · intro X member
    rw [cids X]
    exact c.stamps X member
  · simp only [cids]
    exact c.ordered
  · intro X key held
    obtain rfl | same := eq_or_ne X tid
    · rw [self] at held
      exact range key held
    · rw [other X same] at held
      exact grows key (c.range X key held)
  · intro X key front back holds split Z later published
    rw [put_started] at split
    -- a transaction with a started commit gains no key, and the key it publishes has no other
    -- holder
    have busy : ∀ W, W ∈ s.started → W = tid → y.committing = true := fun W member same => by
      rw [committing, ← same]
      exact (c.started W).mp member
    have member : X ∈ s.started := by simp [split]
    cases effect key with
    | same chain held sets work =>
      have old : key ∈ (s.session X).held := by
        obtain rfl | same := eq_or_ne X tid
        · rw [self] at holds
          exact held.mp holds
        · rwa [other X same] at holds
      apply c.latest X key front back old split Z later
      obtain rfl | same := eq_or_ne Z tid
      · rw [self] at published
        exact sets.mp published
      · rwa [other Z same] at published
    | push vacant gained early chain =>
      by_cases same : X = tid
      · simp [busy X member same] at early
      · rw [other X same] at holds
        exact vacant X holds
    | pop held released early chain =>
      have same := vacates held holds
      simp [busy X member same] at early
    | write held keeps early chain =>
      have same := vacates held holds
      simp [busy X member same] at early
    | publish held released written closing work chain =>
      have same := vacates held holds
      subst same
      rw [self] at holds
      exact released holds
  · intro key vacant
    have own : key ∉ y.held := self ▸ vacant tid
    rw [put_kv]
    cases effect key with
    | same chain held sets work =>
      rw [chain, committed_put sets fun _ => ⟨cid, work⟩]
      apply c.free key
      intro X holds
      obtain rfl | same := eq_or_ne X tid
      · exact own (held.mpr holds)
      · exact vacant X (by rwa [other X same])
    | push empty gained early chain => exact absurd gained own
    | pop held released early chain =>
      rw [chain, c.owned tid key held, dropLast_concat, stays key early]
    | write held keeps early chain => exact absurd keeps own
    | publish held released written closing work chain =>
      have published : key ∈ y.published := mem_published.mpr ⟨closing, written, released⟩
      rw [c.owned tid key held, ownVersion, stamp_link (by simp [Sys.committed])] at chain
      rw [committed_publish c held (committing ▸ closing) published cid work]
      rw [cid] at chain
      exact (Option.some.inj chain).symm
  · intro X key holds
    rw [put_kv]
    cases effect key with
    | same chain held sets work =>
      rw [chain, committed_put sets fun _ => ⟨cid, work⟩]
      obtain rfl | same := eq_or_ne X tid
      · rw [self] at holds ⊢
        rw [c.owned X key (held.mp holds), ownVersion, ownVersion, work]
      · rw [other X same] at holds ⊢
        exact c.owned X key holds
    | push empty gained early chain =>
      have same : X = tid := by
        by_contra away
        rw [other X away] at holds
        exact empty X holds
      subst same
      rw [chain, c.free key empty, stays key early, self]
    | pop held released early chain =>
      have same := vacates held holds
      subst same
      exact absurd (self ▸ holds) released
    | write held keeps early chain =>
      have same := vacates held holds
      subst same
      rw [chain, c.owned X key held, dropLast_concat, stays key early, self]
    | publish held released written closing work chain =>
      have same := vacates held holds
      subst same
      exact absurd (self ▸ holds) released

variable {t : Triple}

theorem mem_writeKeys {key : Key} : key ∈ t.writeKeys ↔ t.key key.type = key := by
  obtain ⟨type, id⟩ := key
  cases type <;> simp [Triple.writeKeys, Triple.key, eq_comm]

theorem mem_lockKeys {key : Key} : key ∈ t.lockKeys ↔ t.key key.type = key := by
  obtain ⟨type, id⟩ := key
  cases type <;> simp [Triple.lockKeys, Triple.key, eq_comm]

theorem writeKeys_nodup (t : Triple) : t.writeKeys.Nodup := by simp [Triple.writeKeys, Triple.key]
theorem lockKeys_nodup (t : Triple) : t.lockKeys.Nodup := by simp [Triple.lockKeys, Triple.key]

theorem pairAt_of_mem {u : Change} {key : Key} (member : key ∈ u.triple.writeKeys) :
    u.pairAt key = some (u.triple.pair key.type) := if_pos (mem_writeKeys.mp member)

theorem pairAt_of_not_mem {u : Change} {key : Key} (away : key ∉ u.triple.writeKeys) :
    u.pairAt key = none :=
  if_neg fun same => away (mem_writeKeys.mpr same)

theorem additions_append (us vs : List Change) (key : Key) :
    additions (us ++ vs) key = additions us key ++ additions vs key := filterMap_append

theorem deletions_append (us vs : List Change) (key : Key) :
    deletions (us ++ vs) key = deletions us key ++ deletions vs key := filterMap_append

theorem changes_elsewhere {us : List Change} {key : Key}
    (away : ∀ u ∈ us, key ∉ u.triple.writeKeys) :
    additions us key = [] ∧ deletions us key = [] := by
  constructor
  · refine filterMap_eq_nil_iff.mpr fun u hu => ?_
    rw [pairAt_of_not_mem (away u hu)]
    simp
  · refine filterMap_eq_nil_iff.mpr fun u hu => ?_
    rw [pairAt_of_not_mem (away u hu)]
    simp

variable {keys : List Key}

theorem mem_inIndexOrder {key : Key} : key ∈ inIndexOrder keys ↔ key ∈ keys := by
  obtain ⟨type, id⟩ := key
  cases type <;> simp [inIndexOrder]

theorem inIndexOrder_nodup (distinct : keys.Nodup) : (inIndexOrder keys).Nodup := by
  unfold inIndexOrder
  rw [nodup_append, nodup_append]
  refine ⟨⟨distinct.filter _, distinct.filter _, ?_⟩, distinct.filter _, ?_⟩
  · intro a ha b hb same
    subst same
    simp only [mem_filter, decide_eq_true_eq] at ha hb
    rw [ha.2] at hb
    cases hb.2
  · intro a ha b hb same
    subst same
    simp only [mem_append, mem_filter, decide_eq_true_eq] at ha hb
    rcases ha with ha | ha
    · rw [ha.2] at hb
      cases hb.2
    · rw [ha.2] at hb
      cases hb.2

theorem Session.Sound.phase_to {x : Session} {X : Nat} (sound : x.Sound X) (live : x.phase ≠ .ended)
    {phase : Phase}
    (shape : Session.PhaseSound { x with phase := phase }) :
        Session.Sound { x with phase := phase } X :=
  { sound with tid := fun _ => sound.tid live, phase := shape }

theorem Sys.Chained.live (c : s.Chained) (active : (s.session tid).phase ≠ .ended) :
    tid < s.cnt := by
  by_contra late
  rw [c.unborn tid (Nat.le_of_not_lt late)] at active
  exact active rfl

theorem Sys.Chained.quiet (c : s.Chained) (live : tid < s.cnt)
    (sound : y.Sound tid) (committing : y.committing = (s.session tid).committing)
    (cid : y.txn.commitID = (s.session tid).txn.commitID)
      (grows : ∀ key, s.kv.InRange key → kv.InRange key)
    (chains : ∀ key, (kv.entryAt key).vList = (s.kv.entryAt key).vList)
    (held : ∀ key, key ∈ y.held ↔ key ∈ (s.session tid).held)
    (written : y.committing = true → y.txn.writeSet = (s.session tid).txn.writeSet)
    (work : ∀ key, y.work key = (s.session tid).work key) : (s.put tid kv y).Chained := by
  refine c.put live sound committing cid grows
    (fun key h => grows key (c.range tid key ((held key).mp h))) fun key => ?_
  refine .same (chains key) (held key) ?_ (work key)
  rw [mem_published, mem_published, held key, ← committing]
  constructor
  · rintro ⟨yes, member, free⟩
    exact ⟨yes, written yes ▸ member, free⟩
  · rintro ⟨yes, member, free⟩
    exact ⟨yes, written yes ▸ member, free⟩

variable {txn : Transaction}

theorem mem_unwritten {key : Key} :
    key ∈ keys.filter (fun k => !txn.writeSetFind k) ↔ key ∈ keys ∧ key ∉ txn.writeSet := by
  simp [Transaction.writeSetFind]

theorem mem_held_writing {key : Key} :
    key ∈ txn.writeSet ++ t.lockKeys.filter (fun k => !txn.writeSetFind k) ↔ key ∈ txn.writeSet ∨
        key ∈ t.writeKeys := by
  rw [mem_append, mem_unwritten, mem_lockKeys, mem_writeKeys]
  tauto

theorem mem_writeSetInsert {key : Key} :
    key ∈ (txn.writeSetInsert t.sub t.pre t.obj).writeSet ↔ key ∈ txn.writeSet ∨
        key ∈ t.writeKeys := by
  simp only [Transaction.writeSetInsert, mem_insertKey, Triple.writeKeys, Triple.key, mem_cons,
      not_mem_nil,
    or_false]
  tauto

theorem mem_sharedKeys {key : Key} :
    key ∈ txn.sharedKeys ↔ txn.isSR = true ∧ key ∈ txn.readSet ∧ key ∉ txn.writeSet := by
  unfold Transaction.sharedKeys
  split_ifs with sr
  · rw [mem_inIndexOrder, mem_unwritten]
    simp [sr]
  · simp [sr]

theorem mem_exclusiveKeys {key : Key} : key ∈ txn.exclusiveKeys ↔ key ∈ txn.writeSet :=
  mem_inIndexOrder

theorem Session.Sound.close {x : Session} {X : Nat} (sound : x.Sound X) (publish : Bool) :
    (x.close publish).PhaseSound := by
  refine ⟨?_, fun k hk => (mem_sharedKeys.mp hk).2.2, fun k hk => mem_exclusiveKeys.mp hk⟩
  have shared : x.txn.sharedKeys.Nodup := by
    unfold Transaction.sharedKeys
    split
    · exact inIndexOrder_nodup (sound.reads.filter _)
    · exact nodup_nil
  rw [append_nil, nodup_append]
  refine ⟨shared, inIndexOrder_nodup sound.writes, ?_⟩
  rintro a ha b hb rfl
  exact (mem_sharedKeys.mp ha).2.2 (mem_exclusiveKeys.mp hb)

section Quiet

variable {s : Sys} (c : s.Chained) {tid : Nat}
include c

theorem Sys.Chained.live_at {phase : Phase} (at_phase : (s.session tid).phase = phase)
    (busy : phase ≠ .ended) :
    tid < s.cnt := c.live (at_phase ▸ busy)

theorem Sys.Chained.shape_at {phase : Phase} (at_phase : (s.session tid).phase = phase) :
    Session.PhaseSound { s.session tid with phase := phase } := by
  subst at_phase
  exact (c.sound tid).phase

theorem Sys.Chained.not_dropping (keys : List Key) : (s.session tid).phase ≠ .dropping keys :=
  c.shape_at

theorem Sys.Chained.update (u : Change) (at_phase : (s.session tid).phase = .idle) :
    (s.put tid s.kv { s.session tid with phase := .locking u u.triple.lockKeys [] }).Chained := by
  refine c.quiet (c.live_at at_phase
      (by simp)) ((c.sound tid).phase_to (by simp [at_phase]) ⟨[], rfl, rfl⟩) ?_ rfl
    (fun _ h => h) (fun _ => rfl) ?_ (fun _ => rfl) ?_
  · simp [committing, at_phase]
  · simp [Session.held, at_phase]
  · simp [Session.work, updates, at_phase]

variable {u : Change}

theorem Sys.Chained.latchedBefore {key : Key} {next mine : List Key}
    (at_phase : (s.session tid).phase = .locking u (key :: next) mine)
    (written : key ∈ (s.session tid).txn.writeSet) :
    (s.put tid s.kv { s.session tid with phase := .locking u next mine }).Chained := by
  obtain ⟨passed, order, own⟩ := c.shape_at at_phase
  have shape : Session.PhaseSound { s.session tid with phase := .locking u next mine } :=
    ⟨passed ++ [key], by simp [order], by simp [own, Transaction.writeSetFind, written]⟩
  refine c.quiet (c.live_at at_phase
      (by simp)) ((c.sound tid).phase_to (by simp [at_phase]) shape) ?_ rfl
    (fun _ h => h) (fun _ => rfl) ?_ (fun _ => rfl) ?_
  · simp [committing, at_phase]
  · simp [Session.held, at_phase]
  · simp [Session.work, updates, at_phase]

theorem Sys.Chained.allLatched {mine : List Key}
    (at_phase : (s.session tid).phase = .locking u [] mine) :
    (s.put tid s.kv { s.session tid with phase := .writing u u.triple.writeKeys mine }).Chained := by
  obtain ⟨passed, order, own⟩ := c.shape_at at_phase
  rw [append_nil] at order
  have shape : Session.PhaseSound
      { s.session tid with phase := .writing u u.triple.writeKeys mine } :=
    ⟨⟨[], rfl⟩, order ▸ own⟩
  refine c.quiet (c.live_at at_phase
      (by simp)) ((c.sound tid).phase_to (by simp [at_phase]) shape) ?_ rfl
    (fun _ h => h) (fun _ => rfl) ?_ (fun _ => rfl) ?_
  · simp [committing, at_phase]
  · simp [Session.held, at_phase]
  · intro key
    simp only [Session.work, updates, at_phase]
    split
    · rfl
    · rename_i away
      obtain ⟨adds, dels⟩ := @changes_elsewhere [u] key (by simpa using away)
      rw [additions_append, deletions_append, adds, dels, append_nil, append_nil]

theorem Sys.Chained.undone (at_phase : (s.session tid).phase = .undoing []) :
    (s.put tid s.kv { s.session tid with phase := .idle }).Chained := by
  refine c.quiet (c.live_at at_phase
      (by simp)) ((c.sound tid).phase_to (by simp [at_phase]) trivial) ?_ rfl
    (fun _ h => h) (fun _ => rfl) ?_ (fun _ => rfl) ?_
  · simp [committing, at_phase]
  · simp [Session.held, at_phase]
  · simp [Session.work, updates, at_phase]

theorem Sys.Chained.written {mine : List Key}
    (at_phase : (s.session tid).phase = .writing u [] mine) :
    (s.put tid s.kv ((s.session tid).enter u)).Chained := by
  have old := c.sound tid
  have shape := c.shape_at at_phase
  have sound : ((s.session tid).enter u).Sound tid := by
    refine ⟨fun _ => old.tid (by simp [at_phase]), fun key => ?_, ?_, old.reads, trivial⟩
    · simp only [Session.enter, mem_writeSetInsert, old.written key, mem_append, mem_singleton]
      constructor
      · rintro (⟨v, hv, member⟩ | member)
        · exact ⟨v, .inl hv, member⟩
        · exact ⟨u, .inr rfl, member⟩
      · rintro ⟨v, hv | rfl, member⟩
        · exact .inl ⟨v, hv, member⟩
        · exact .inr member
    · exact insertKey_nodup (insertKey_nodup (insertKey_nodup old.writes))
  refine c.quiet (c.live_at at_phase (by simp)) sound ?_ rfl (fun _ h => h) (fun _ => rfl) ?_ ?_ ?_
  · simp [committing, Session.enter, at_phase]
  · intro key
    simp only [Session.held, Session.enter, at_phase, mem_writeSetInsert]
    rw [shape.2, mem_held_writing]
  · simp [committing, Session.enter]
  · simp [Session.work, updates, Session.enter, at_phase]

theorem Sys.Chained.startAbort (at_phase : (s.session tid).phase = .idle) :
    (s.put tid s.kv ((s.session tid).close false)).Chained := by
  refine c.quiet (c.live_at at_phase
      (by simp)) ((c.sound tid).phase_to (by simp [at_phase]) ((c.sound tid).close false))
    ?_ rfl (fun _ h => h) (fun _ => rfl) ?_ (fun _ => rfl) ?_
  · simp [committing, Session.close, at_phase]
  · simp [Session.held, Session.close, at_phase, mem_exclusiveKeys]
  · simp [Session.work, updates, Session.close, at_phase]

theorem Sys.Chained.finish {publish : Bool}
    (at_phase : (s.session tid).phase = .closing publish [] [] []) :
    (s.put tid s.kv { s.session tid with
      phase := .ended
      txn := { (s.session tid).txn with state := if publish then .committed else .aborted }
          }).Chained := by
  have old := c.sound tid
  refine c.quiet (c.live_at at_phase
      (by simp)) { old with tid := fun h => absurd rfl h, phase := trivial } ?_ rfl
    (fun _ h => h) (fun _ => rfl) ?_ (fun _ => rfl) ?_
  · cases publish <;> simp [committing, at_phase]
  · simp [Session.held, at_phase]
  · simp [Session.work, updates, at_phase]

theorem Sys.Chained.releaseShared {publish : Bool} {key : Key} {shared exclusive failed : List Key}
    {done : Bool}
    {kv : KVstore} (at_phase : (s.session tid).phase =
        .closing publish (key :: shared) exclusive failed)
    (call : s.kv.releaseSharedLatch key (s.session tid).txn = some (done, kv)) :
    (s.put tid kv { s.session tid with
      phase := .closing publish shared exclusive
          (if done then failed else failed ++ [key]) }).Chained := by
  obtain ⟨distinct, reads, writes⟩ := c.shape_at at_phase
  have unwritten := reads key (by simp)
  obtain ⟨range, chains⟩ := releaseSharedLatch_frame call
  have shape : Session.PhaseSound { s.session tid with
      phase := .closing publish shared exclusive (if done then failed else failed ++ [key]) } := by
    refine ⟨?_, fun k hk => reads k (by simp [hk]), writes⟩
    cases done with
    | true => exact (nodup_cons.mp distinct).2
    | false =>
      rw [if_neg (by simp), ← append_assoc]
      exact (perm_append_singleton _ _).nodup_iff.mpr distinct
  refine c.quiet (c.live_at at_phase
      (by simp)) ((c.sound tid).phase_to (by simp [at_phase]) shape) ?_ rfl
    (fun k => (range k).mpr) (fun k => (chains k).1) ?_ (fun _ => rfl) ?_
  · simp [committing, at_phase]
  · cases done <;> simp [Session.held, at_phase, Transaction.writeSetFind, unwritten]
  · simp [Session.work, updates, at_phase]

theorem Sys.Chained.refuse {key : Key} {next mine : List Key} {kv : KVstore}
    (at_phase : (s.session tid).phase = .locking u (key :: next) mine)
    (call : s.kv.getExclusiveLatch key (s.session tid).txn ((s.session tid).txn.readSetFind key) =
        some (false, kv)) :
    (s.put tid kv { s.session tid with phase := .undoing mine, txn := (s.session tid).txn.abort }).Chained := by
  have old := c.sound tid
  obtain ⟨passed, order, own⟩ := c.shape_at at_phase
  have distinct := lockKeys_nodup u.triple
  rw [order] at distinct
  have shape : Session.PhaseSound
      { s.session tid with phase := .undoing mine, txn := (s.session tid).txn.abort } := by
    refine ⟨own ▸ (nodup_append.mp distinct).1.filter _, fun k hk => ?_⟩
    rw [own] at hk
    exact (mem_unwritten.mp hk).2
  obtain ⟨grows, entries⟩ := getExclusiveLatch_false call
  refine c.quiet (c.live_at at_phase (by simp))
    { old with tid := fun _ => old.tid (by simp [at_phase]), phase := shape } ?_ rfl grows
    (fun k => by rw [entries]) ?_ (fun _ => rfl) ?_
  · simp [committing, at_phase]
  · simp [Session.held, at_phase, Transaction.abort]
  · simp [Session.work, updates, at_phase]

theorem Sys.Chained.read {fn : ReadFn} {id : Nat} {r : Fetched}
    (at_phase : (s.session tid).phase = .idle)
    (call : s.kv.fetch fn id (s.session tid).txn = some r) (reads : List ReadEvent) :
    (s.put tid r.kv { s.session tid with txn := r.txn, reads := reads }).Chained := by
  have old := c.sound tid
  obtain ⟨range, chains, same_tid, cid, -, writes, distinct⟩ := fetch_frame call
  have sound : Session.Sound { s.session tid with txn := r.txn, reads := reads } tid := by
    refine ⟨fun live => same_tid.trans (old.tid live), fun key => ?_, ?_, distinct old.reads, ?_⟩
    · rw [← old.written key]
      exact iff_of_eq (congrArg (key ∈ ·) writes)
    · exact writes ▸ old.writes
    · simp [Session.PhaseSound, at_phase]
  refine c.quiet (c.live_at at_phase
      (by simp)) sound ?_ cid (fun k => (range k).mpr) (fun k => (chains k).1) ?_
    (fun _ => writes) ?_
  · simp [committing, at_phase]
  · simp [Session.held, at_phase, writes]
  · simp [Session.work, updates, at_phase]

end Quiet

section Versions

variable {s : Sys} (c : s.Chained) {tid : Nat}
include c

variable {key : Key}

theorem Sys.Chained.vacant_of_checked {isRC : Bool} (away : key ∉ (s.session tid).held)
    (checked : (s.kv.entryAt key).checkVersion (tid : Nat) isRC = some true) (X : Nat) :
        key ∉ (s.session X).held := by
  intro holds
  rw [IVEntry.checkVersion, c.owned X key holds, getLast?_append] at checked
  have same : X = tid := by simpa [ownVersion] using checked
  exact away (same ▸ holds)

variable {u : Change} {key : Key} {next mine : List Key}

theorem Sys.Chained.unheld_locking
    (at_phase : (s.session tid).phase = .locking u (key :: next) mine)
    (unwritten : key ∉ (s.session tid).txn.writeSet) : key ∉ (s.session tid).held := by
  obtain ⟨passed, order, own⟩ := c.shape_at at_phase
  have distinct := lockKeys_nodup u.triple
  rw [order] at distinct
  have fresh : key ∉ mine := fun member => by
    rw [own] at member
    exact (nodup_append.mp distinct).2.2 key (mem_unwritten.mp member).1 key (by simp) rfl
  simp [Session.held, at_phase, unwritten, fresh]

theorem Sys.Chained.latch {e : IVEntry}
    (at_phase : (s.session tid).phase = .locking u (key :: next) mine)
    (unwritten : key ∉ (s.session tid).txn.writeSet)
    (call : (s.kv.entryAt key).getExclusiveLatch (s.session tid).txn
      ((s.session tid).txn.readSetFind key) = some (true, e)) :
        (s.put tid ((s.kv.reserve key).setEntryAt key e)
      { s.session tid with phase := .locking u next (mine ++ [key]) }).Chained := by
  have old := c.sound tid
  have tids := old.tid (by simp [at_phase])
  obtain ⟨passed, order, own⟩ := c.shape_at at_phase
  have shape : Session.PhaseSound { s.session tid with phase := .locking u next (mine ++ [key]) } :=
    ⟨passed ++ [key], by simp [order], by simp [own, Transaction.writeSetFind, unwritten]⟩
  obtain ⟨checked, chain, -, -⟩ := getExclusiveLatch_granted call
  have away := c.unheld_locking at_phase unwritten
  have untouched : ∀ v ∈ (s.session tid).done, key ∉ v.triple.writeKeys := fun v hv member =>
    unwritten ((old.written key).mpr ⟨v, hv, member⟩)
  refine c.put (c.live_at at_phase
      (by simp)) (old.phase_to (by simp [at_phase]) shape) ?_ rfl ?_ ?_ fun k => ?_
  · simp [committing, at_phase]
  · exact fun k inside => by simpa using inRange_reserve inside
  · intro k held
    obtain rfl | same := eq_or_ne k key
    · simpa using reserve_inRange s.kv k
    · have old : k ∈ (s.session tid).held := by simpa [Session.held, at_phase, same] using held
      simpa using inRange_reserve (c.range tid k old)
  · obtain rfl | same := eq_or_ne k key
    · refine .push (fun X => c.vacant_of_checked away (tids ▸ checked) X)
        (by simp [Session.held]) rfl ?_
      rw [entryAt_setEntryAt, update_self, chain, tids]
      obtain ⟨adds, dels⟩ := changes_elsewhere untouched
      simp [ownVersion, Session.work, updates, adds, dels, Version.fresh]
    · refine .same (by simp [update_of_ne same]) (by simp [Session.held, at_phase, same]) ?_ ?_
      · simp [mem_published, committing, at_phase]
      · simp [Session.work, updates, at_phase]

theorem Sys.Chained.pop {e : IVEntry} {hasRead : Bool} {phase : Phase}
    (active : (s.session tid).phase ≠ .ended)
      (shape : Session.PhaseSound { s.session tid with phase := phase })
    (early : (s.session tid).committing = false)
      (early' : committing { s.session tid with phase := phase } = false)
    (call : (s.kv.entryAt key).invalidExlusiveLatch (s.session tid).txn hasRead = some (true, e))
    (held : ∀ k, k ∈ Session.held { s.session tid with phase := phase } ↔ k ∈ (s.session tid).held ∧
        k ≠ key)
    (owns : key ∈ (s.session tid).held)
    (work : ∀ k, Session.work { s.session tid with phase := phase } k = (s.session tid).work k) :
    (s.put tid (s.kv.setEntryAt key e) { s.session tid with phase := phase }).Chained := by
  refine c.put (c.live active) ((c.sound tid).phase_to active shape) (early'.trans early.symm) rfl
    (fun k inside => by simpa using inside) (fun k h => by simpa using c.range tid k ((held k).mp h).1) fun k => ?_
  obtain rfl | same := eq_or_ne k key
  · refine .pop owns (fun h => ((held k).mp h).2 rfl) early' ?_
    rw [entryAt_setEntryAt, update_self]
    exact (invalidExlusiveLatch_done call).1
  · refine .same (by simp [update_of_ne same]) (by simp [held k, same]) ?_ (work k)
    simp [mem_published, early, early']

theorem Sys.Chained.held_undo {keys : List Key}
    (at_phase : (s.session tid).phase = .undoing (key :: keys)) (k : Key) :
    k ∈ Session.held { s.session tid with phase := .undoing keys } ↔ k ∈ (s.session tid).held ∧
        k ≠ key := by
  obtain ⟨distinct, unwritten⟩ := c.shape_at at_phase
  simp only [Session.held, at_phase, mem_append, mem_cons]
  obtain rfl | same := eq_or_ne k key
  · simp [unwritten k (by simp), (nodup_cons.mp distinct).1]
  · simp [same]

variable {kv : KVstore}

theorem Sys.Chained.undo {keys : List Key}
    (at_phase : (s.session tid).phase = .undoing (key :: keys))
    (call : s.kv.invalidValues key (s.session tid).txn ((s.session tid).txn.readSetFind key) =
        some (true, kv)) :
    (s.put tid kv { s.session tid with phase := .undoing keys }).Chained := by
  obtain ⟨distinct, unwritten⟩ := c.shape_at at_phase
  obtain ⟨-, e, entry, rfl⟩ := invalidValues_true call
  refine c.pop (by simp [at_phase]) ⟨(nodup_cons.mp distinct).2, fun k hk => unwritten k (by simp [hk])⟩
    (by simp [committing, at_phase]) rfl entry (c.held_undo at_phase) (by simp [Session.held, at_phase]) fun k => ?_
  simp [Session.work, updates, at_phase]

variable {exclusive failed : List Key}

omit c in
theorem mem_held_failed {txn : Transaction} {key k : Key} (written : key ∈ txn.writeSet) :
    k ∈ exclusive ++ (failed ++ [key]).filter txn.writeSetFind ↔
      k ∈ key :: exclusive ++ failed.filter txn.writeSetFind := by
  simp [Transaction.writeSetFind, written]
  tauto

variable {exclusive failed : List Key}

omit c in
theorem nodup_failed (distinct : (key :: exclusive ++ failed).Nodup) :
    (exclusive ++ (failed ++ [key])).Nodup := by
  rw [← append_assoc]
  exact (perm_append_singleton _ _).nodup_iff.mpr distinct

theorem Sys.Chained.releaseFails {publish : Bool}
    (at_phase : (s.session tid).phase = .closing publish [] (key :: exclusive) failed)
    (range : ∀ k, kv.InRange k ↔ s.kv.InRange k) (entries : kv.entryAt = s.kv.entryAt) :
    (s.put tid kv { s.session tid with phase := .closing publish [] exclusive (failed ++ [key]) }).Chained := by
  obtain ⟨distinct, -, writes⟩ := c.shape_at at_phase
  have shape : Session.PhaseSound
      { s.session tid with phase := .closing publish [] exclusive (failed ++ [key]) } :=
    ⟨nodup_failed distinct, by simp, fun k hk => writes k (by simp [hk])⟩
  refine c.quiet (c.live_at at_phase
      (by simp)) ((c.sound tid).phase_to (by simp [at_phase]) shape) ?_ rfl
    (fun k => (range k).mpr) (fun k => by rw [entries]) ?_ (fun _ => rfl) ?_
  · simp [committing, at_phase]
  · intro k
    simp only [Session.held, at_phase]
    exact mem_held_failed (writes key (by simp))
  · simp [Session.work, updates, at_phase]

theorem Sys.Chained.held_release {publish : Bool}
    (at_phase : (s.session tid).phase = .closing publish [] (key :: exclusive) failed) (k : Key) :
    k ∈ Session.held { s.session tid with phase := .closing publish [] exclusive failed } ↔
      k ∈ (s.session tid).held ∧ k ≠ key := by
  obtain ⟨distinct, -, -⟩ := c.shape_at at_phase
  rw [nil_append, cons_append, nodup_cons, mem_append, not_or] at distinct
  simp only [Session.held, at_phase]
  obtain rfl | same := eq_or_ne k key
  · simp [distinct.1.1, distinct.1.2]
  · simp [same]

theorem Sys.Chained.invalidate {done : Bool}
    (at_phase : (s.session tid).phase = .closing false [] (key :: exclusive) failed)
    (call : s.kv.invalidValues key (s.session tid).txn false = some (done, kv)) :
    (s.put tid kv { s.session tid with
      phase := .closing false [] exclusive
          (if done then failed else failed ++ [key]) }).Chained := by
  cases done with
  | false =>
    obtain ⟨range, entries⟩ := invalidValues_false call
    exact c.releaseFails at_phase range entries
  | true =>
    obtain ⟨distinct, -, writes⟩ := c.shape_at at_phase
    obtain ⟨-, e, entry, rfl⟩ := invalidValues_true call
    refine c.pop (by simp [at_phase]) ⟨(nodup_cons.mp distinct).2, by simp, fun k hk => writes k (by simp [hk])⟩
      (by simp [committing, at_phase]) rfl entry (c.held_release at_phase) (by simp [Session.held, at_phase])
      fun k => by simp [Session.work, updates, at_phase]

theorem Sys.Chained.publish {done : Bool}
    (at_phase : (s.session tid).phase = .closing true [] (key :: exclusive) failed)
    (call : s.kv.releaseExclusiveLatch key (s.session tid).txn = some (done, kv)) :
    (s.put tid kv { s.session tid with
      phase := .closing true [] exclusive
          (if done then failed else failed ++ [key]) }).Chained := by
  cases done with
  | false =>
    obtain ⟨range, entries⟩ := releaseExclusiveLatch_false call
    exact c.releaseFails at_phase range entries
  | true =>
    obtain ⟨distinct, -, writes⟩ := c.shape_at at_phase
    obtain ⟨-, e, entry, rfl⟩ := releaseExclusiveLatch_true call
    have shape : Session.PhaseSound
        { s.session tid with phase := .closing true [] exclusive failed } :=
      ⟨(nodup_cons.mp distinct).2, by simp, fun k hk => writes k (by simp [hk])⟩
    have held := c.held_release at_phase
    refine c.put (c.live_at at_phase (by simp)) ((c.sound tid).phase_to (by simp [at_phase]) shape)
      (by simp [committing, at_phase]) rfl (fun k inside => by simpa using inside)
      (fun k h => by simpa using c.range tid k ((held k).mp h).1) fun k => ?_
    have work : Session.work { s.session tid with phase := .closing true [] exclusive failed } k =
        (s.session tid).work k := by
      simp [Session.work, updates, at_phase]
    obtain rfl | same := eq_or_ne k key
    · refine .publish (by simp [Session.held, at_phase]) (fun h => ((held k).mp h).2 rfl) (writes k (by simp)) rfl work ?_
      rw [entryAt_setEntryAt, update_self]
      exact (unLatchExclusive_done entry).1
    · refine .same (by simp [update_of_ne same]) (by simp [held k, same]) ?_ work
      have still := held k
      simp only [mem_published, if_true] at still ⊢
      simp [still, committing, at_phase, same]

theorem Sys.Chained.holds_writing
    (at_phase : (s.session tid).phase = .writing u (key :: next) mine) :
    key ∈ u.triple.writeKeys ∧ key ∉ next ∧ key ∈ (s.session tid).held := by
  obtain ⟨⟨passed, order⟩, own⟩ := c.shape_at at_phase
  have member : key ∈ u.triple.writeKeys := by simp [order]
  have distinct := writeKeys_nodup u.triple
  rw [order] at distinct
  refine ⟨member, (nodup_cons.mp (nodup_append.mp distinct).2.1).1, ?_⟩
  simp only [Session.held, at_phase]
  rw [own, mem_held_writing]
  exact .inr member

section

variable {key : Key} {next mine : List Key} {kv : KVstore}
  (at_phase : (s.session tid).phase = .writing u (key :: next) mine)
include at_phase

theorem Sys.Chained.write (call : s.kv.updateValues u.insertion u.triple key = some (true, kv)) :
    (s.put tid kv { s.session tid with phase := .writing u next mine }).Chained := by
  obtain ⟨member, fresh, holds⟩ := c.holds_writing at_phase
  obtain ⟨⟨passed, order⟩, own⟩ := c.shape_at at_phase
  have shape : Session.PhaseSound { s.session tid with phase := .writing u next mine } :=
    ⟨⟨passed ++ [key], by simp [order]⟩, own⟩
  have held : ∀ k, k ∈ Session.held { s.session tid with phase := .writing u next mine } ↔
      k ∈ (s.session tid).held := by
    simp [Session.held, at_phase]
  rcases updateValues_cases call with ⟨-, failed⟩ | ⟨inside, -, last, final, rfl⟩
  · cases failed
  refine c.put (c.live_at at_phase (by simp)) ((c.sound tid).phase_to (by simp [at_phase]) shape)
    (by simp [committing, at_phase]) rfl (fun k inside => by simpa using inside)
    (fun k h => by simpa using c.range tid k ((held k).mp h)) fun k => ?_
  obtain rfl | same := eq_or_ne k key
  · refine .write holds ((held k).mpr holds) rfl ?_
    rw [c.owned tid k holds, getLast?_append] at final
    have before : last = (s.session tid).ownVersion tid k := by simpa using final.symm
    rw [entryAt_setEntryAt, update_self, before]
    simp only [ownVersion, Session.work, updates, at_phase, if_neg fresh, additions_append,
      deletions_append, mem_cons_self, if_true]
    cases change : u.insertion with
    | true => simp [Version.change, Version.add, additions, deletions, change, pairAt_of_mem member]
    | false =>
      simp [Version.change, Version.remove, additions, deletions, change, pairAt_of_mem member]
  · refine .same (by simp [update_of_ne same]) (held k) ?_ ?_
    · simp [mem_published, committing, at_phase]
    · simp [Session.work, updates, at_phase, same]

theorem Sys.Chained.write_succeeds :
    s.kv.updateValues u.insertion u.triple key ≠ some (false, kv) := by
  intro call
  rcases updateValues_cases call with ⟨away, -⟩ | ⟨-, done, -⟩
  · exact away (c.range tid key (c.holds_writing at_phase).2.2)
  · cases done

end

theorem Sys.Chained.startCommit (at_phase : (s.session tid).phase = .idle)
    (running : (s.session tid).txn.state = .running) : (s.startCommit tid).Chained := by
  have old := c.sound tid
  have unstarted : tid ∉ s.started := by simp [c.started tid, committing, at_phase]
  generalize own : Session.close { s.session tid with
    txn := { (s.session tid).txn with commitID := (s.cnt : Nat) } } true = y
  have next : s.startCommit tid = { s.put tid s.kv y with started := s.started ++ [tid] } := by
    rw [Sys.startCommit, if_pos running, own]
  have held : ∀ k, k ∈ y.held ↔ k ∈ (s.session tid).held := by
    simp [← own, Session.held, Session.close, at_phase, Transaction.exclusiveKeys, mem_inIndexOrder]
  have work : ∀ k, y.work k = (s.session tid).work k := by
    simp [← own, Session.work, updates, Session.close, at_phase]
  have silent : ∀ k, k ∉ y.published := by
    intro k published
    obtain ⟨-, member, free⟩ := mem_published.mp published
    refine free ((held k).mpr ?_)
    simpa [Session.held, at_phase, ← own, Session.close] using member
  have sound : y.Sound tid := by
    rw [← own]
    exact { old with tid := fun _ => old.tid (by simp [at_phase]), phase := old.close true }
  have other : ∀ X, X ≠ tid → (s.startCommit tid).session X = s.session X := fun X away => by
    simp [next, update_of_ne away]
  have self : (s.startCommit tid).session tid = y := by simp [next]
  have late : y.txn.commitID = (s.cnt : Nat) := by simp [← own, Session.close]
  have away : ∀ X ∈ s.started, X ≠ tid := fun X member same => unstarted (same ▸ member)
  have started : (s.startCommit tid).started = s.started ++ [tid] := by rw [next]
  have committed : ∀ k, (s.startCommit tid).committed k = s.committed k := by
    intro k
    have owners : (s.startCommit tid).owners k = s.owners k := by
      rw [Sys.owners, started, filter_append, filter_singleton, self, decide_eq_false (silent k)]
      simp only [cond_false, append_nil]
      exact filter_congr fun X member => by rw [other X (away X member)]
    rw [Sys.committed, owners, Sys.committed]
    congr 1
    apply map_congr_left
    intro X member
    rw [Sys.versionAt, other X (away X (mem_filter.mp member).1)]
    rfl
  have holds : ∀ X k, k ∈ ((s.startCommit tid).session X).held ↔ k ∈ (s.session X).held := by
    intro X k
    obtain rfl | same := eq_or_ne X tid
    · rw [self, held k]
    · rw [other X same]
  have entries : (s.startCommit tid).kv = s.kv := by rw [next]; rfl
  refine ⟨?_, ?_, ?_, ?_, ?_, ?_, ?_, ?_, ?_, ?_⟩
  · intro X beyond
    have live := c.live_at at_phase (by simp)
    rw [next] at beyond
    rw [other X (by rintro rfl; exact absurd live (Nat.not_lt_of_le beyond))]
    exact c.unborn X (by simpa [next] using beyond)
  · intro X
    obtain rfl | same := eq_or_ne X tid
    · rwa [self]
    · rw [other X same]
      exact c.sound X
  · intro X
    rw [started, mem_append, mem_singleton]
    obtain rfl | same := eq_or_ne X tid
    · simp [self, ← own, committing, Session.close]
    · rw [other X same, ← c.started X]
      simp [same]
  · rw [started, nodup_append]
    exact ⟨c.distinct, by simp, fun a ha b hb same => away a ha (same.trans (mem_singleton.mp hb))⟩
  · intro X member
    rw [started, mem_append, mem_singleton] at member
    rcases member with member | rfl
    · rw [other X (away X member)]
      simpa [next] using c.stamps X member
    · exact ⟨s.cnt, by rw [self, late], by rw [next]; exact le_rfl⟩
  · rw [started, pairwise_append]
    refine ⟨c.ordered.imp_of_mem fun {a b} ha hb less => ?_, by simp, fun a ha b hb => ?_⟩
    · rwa [other a (away a ha), other b (away b hb)]
    · rw [mem_singleton.mp hb, self, other a (away a ha), late]
      obtain ⟨n, cid, bound⟩ := c.stamps a ha
      rw [cid]
      exact WithTop.coe_le_coe.mpr bound
  · intro X k member
    rw [entries]
    exact c.range X k ((holds X k).mp member)
  · intro X k front back member split Z later
    rw [started] at split
    obtain rfl | last := eq_or_ne Z tid
    · rw [self]
      exact silent k
    · rw [other Z last]
      rcases eq_nil_or_concat back with rfl | ⟨back, W, rfl⟩
      · cases later
      · rw [concat_eq_append] at split later
        have parts : s.started = front ++ X :: back ∧ tid = W := by
          have := append_inj' (show s.started ++ [tid] = (front ++ X :: back) ++
              [W] by simpa using split) rfl
          simpa using this
        rcases mem_append.mp later with later | final
        · exact c.latest X k front back ((holds X k).mp member) parts.1 Z later
        · exact absurd ((mem_singleton.mp final).trans parts.2.symm) last
  · intro k vacant
    rw [entries, committed k]
    exact c.free k fun X member => vacant X ((holds X k).mpr member)
  · intro X k member
    rw [entries, committed k, c.owned X k ((holds X k).mp member)]
    obtain rfl | same := eq_or_ne X tid
    · rw [self, ownVersion, ownVersion, work k]
    · rw [other X same]

theorem Sys.Chained.begin (isolation : IsolationLevel) : (s.begin isolation).Chained := by
  have young := c.unborn s.cnt le_rfl
  have unstarted : s.cnt ∉ s.started := by
    rw [c.started s.cnt, young]
    simp [committing, Session.unborn]
  have other : ∀ X, X ≠ s.cnt → (s.begin isolation).session X = s.session X :=
    fun X away => begin_session_of_ne away isolation
  have away : ∀ X ∈ s.started, X ≠ s.cnt := fun X member same => unstarted (same ▸ member)
  have holds : ∀ X k, k ∈ ((s.begin isolation).session X).held ↔ k ∈ (s.session X).held := by
    intro X k
    obtain rfl | same := eq_or_ne X s.cnt
    · rw [young]
      simp [Sys.begin, Session.held, Session.unborn]
    · rw [other X same]
  have committed : ∀ k, (s.begin isolation).committed k = s.committed k := by
    intro k
    have owners : (s.begin isolation).owners k = s.owners k :=
      filter_congr fun X member => by rw [other X (away X member)]
    rw [Sys.committed, owners, Sys.committed]
    congr 1
    apply map_congr_left
    intro X member
    rw [Sys.versionAt, other X (away X (mem_filter.mp member).1)]
    rfl
  refine ⟨?_, ?_, ?_, c.distinct, ?_, ?_, ?_, ?_, ?_, ?_⟩
  · intro X beyond
    have later : s.cnt + 1 ≤ X := beyond
    rw [other X (by omega)]
    exact c.unborn X (by omega)
  · intro X
    obtain rfl | same := eq_or_ne X s.cnt
    · rw [begin_session_self]
      exact ⟨fun _ => rfl, by simp, nodup_nil, nodup_nil, trivial⟩
    · rw [other X same]
      exact c.sound X
  · intro X
    obtain rfl | same := eq_or_ne X s.cnt
    · simp [Sys.begin, committing, unstarted]
    · rw [other X same]
      exact c.started X
  · intro X member
    rw [other X (away X member)]
    obtain ⟨n, cid, bound⟩ := c.stamps X member
    exact ⟨n, cid, Nat.le_succ_of_le bound⟩
  · exact c.ordered.imp_of_mem
      fun {a b} ha hb less => by rwa [other a (away a ha), other b (away b hb)]
  · intro X k member
    exact c.range X k ((holds X k).mp member)
  · intro X k front back member split Z later
    have started : Z ∈ s.started := by
      rw [show s.started = _ from split]
      simp [later]
    rw [other Z (away Z started)]
    exact c.latest X k front back ((holds X k).mp member) split Z later
  · intro k vacant
    rw [committed k]
    exact c.free k fun X member => vacant X ((holds X k).mpr member)
  · intro X k member
    have old := (holds X k).mp member
    rw [committed k, other X (by rintro rfl; rw [young] at old; cases old)]
    exact c.owned X k old

end Versions

def KVstore.Unversioned (kv : KVstore) : Prop :=
  ∀ key, (kv.entryAt key).vList = [Version.dummy] ∧ (kv.entryAt key).glatch = GLatch.init

theorem empty_unversioned : KVstore.empty.Unversioned := fun _ => ⟨rfl, rfl⟩

theorem init_chained (fresh : kv.Unversioned) : (Sys.init kv).Chained where
  unborn _ _ := rfl
  sound _ := ⟨fun h => absurd rfl
      h, by simp [Sys.init, Session.unborn], nodup_nil, nodup_nil, trivial⟩
  started _ := by simp [Sys.init, committing, Session.unborn]
  distinct := nodup_nil
  stamps _ member := by cases member
  ordered := List.Pairwise.nil
  range _ key member := by cases member
  latest _ key _ _ member := by cases member
  free key _ := (fresh key).1
  owned _ key member := by cases member

theorem step_chained {s t : Sys} {a : Act} (c : s.Chained) (taken : s.step a = some t) :
    t.Chained := by
  cases step_moves taken with
  | stay a idler => exact c
  | begin isolation => exact c.begin isolation
  | read tid fn id r at_phase call => exact c.read at_phase call _
  | update tid u at_phase => exact c.update u at_phase
  | startCommit tid at_phase running => exact c.startCommit at_phase running
  | startAbort tid at_phase => exact c.startAbort at_phase
  | latchedBefore tid u key next mine at_phase written => exact c.latchedBefore at_phase written
  | latch tid u key next mine e at_phase unwritten call => exact c.latch at_phase unwritten call
  | refuse tid u key next mine kv at_phase unwritten call => exact c.refuse at_phase call
  | allLatched tid u mine at_phase => exact c.allLatched at_phase
  | undo tid key keys kv at_phase call => exact c.undo at_phase call
  | undone tid at_phase => exact c.undone at_phase
  | write tid u key next mine kv at_phase call => exact c.write at_phase call
  | writeFail tid u key next mine kv at_phase call => exact absurd call (c.write_succeeds at_phase)
  | written tid u mine at_phase => exact c.written at_phase
  | drop tid keys t at_phase => exact absurd at_phase (c.not_dropping keys)
  | releaseShared tid publish key shared exclusive failed done kv at_phase call =>
    exact c.releaseShared at_phase call
  | publish tid key exclusive failed done kv at_phase call => exact c.publish at_phase call
  | invalidate tid key exclusive failed done kv at_phase call => exact c.invalidate at_phase call
  | finish tid publish at_phase => exact c.finish at_phase

theorem run_chained (fresh : kv.Unversioned) {acts : List Act} {s : Sys}
    (ran : run Sys.step (Sys.init kv) acts = some s) : s.Chained :=
  run_invariant (fun _ _ _ c taken => step_chained c taken) (init_chained fresh) ran

end GStore
