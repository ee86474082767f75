import GStore.Txn.Visible
import Mathlib.Data.List.Count

/-! The accounts of the latches: an entry is latched exclusively by the SERIALIZABLE transaction
that holds its private version, and otherwise its count is the number of transactions with a shared
latch there. Under these accounts no assertion of the latch calls fails. -/
namespace GStore
open Lib List Session

/-- The transaction has a shared latch of the key: the key is in its read set and not held, and
while it ends, the key is still to be released. -/
def Session.shares (x : Session) (key : Key) : Bool :=
  match x.phase with
  | .closing _ shared _ _ => decide (key ∈ shared)
  | .ended => false
  | _ => x.txn.isSR && decide (key ∈ x.txn.readSet ∧ key ∉ x.held)

def Session.Owns (x : Session) (key : Key) : Prop := x.txn.isSR = true ∧ key ∈ x.held

def Sys.sharers (s : Sys) (key : Key) : Nat :=
  (List.range s.cnt).countP fun X => (s.session X).shares key

structure Sys.Accounts (s : Sys) : Prop where
  owner : ∀ X key, (s.session X).Owns key → (s.kv.entryAt key).glatch = ⟨(X : Nat), 1⟩ ∧
    s.sharers key = 0
  shared : ∀ key, (∀ X, ¬ (s.session X).Owns key) → (s.kv.entryAt key).glatch = ⟨⊤, s.sharers key⟩
  sharing : ∀ X key, (s.session X).shares key = true → (s.session X).txn.isSR = true ∧
    s.kv.InRange key
  clean : ∀ X publish shared exclusive failed,
    (s.session X).phase = .closing publish shared exclusive failed → failed = []

structure Sys.Latched (s : Sys) : Prop extends s.Accounts where
  chained : s.Chained

theorem countP_range_update {p q : Nat → Bool} {n i : Nat} (inside : i < n)
    (same : ∀ j, j ≠ i → q j = p j) :
    (List.range n).countP q + (p i).toNat = (List.range n).countP p + (q i).toNat := by
  induction n with
  | zero => cases inside
  | succ n ih =>
    rw [range_succ, countP_append, countP_append]
    simp only [countP_singleton]
    rcases Nat.lt_succ_iff_lt_or_eq.mp inside with below | rfl
    · have := ih below
      rw [same n below.ne']
      omega
    · have front : (List.range i).countP q = (List.range i).countP p :=
        countP_congr fun j member => by rw [same j (mem_range.mp member).ne]
      rw [front]
      cases p i <;> cases q i <;> simp

variable {s : Sys} {tid : Nat}

theorem sharers_put (born : tid < s.cnt) (kv : KVstore) (y : Session) (key : Key) :
    (s.put tid kv y).sharers key + ((s.session tid).shares key).toNat = s.sharers key +
        (y.shares key).toNat := by
  have counted := @countP_range_update (fun X => (s.session X).shares key)
    (fun X => ((s.put tid kv y).session X).shares key) s.cnt tid born
      fun j away => by simp [Function.update_of_ne away]
  simpa [Sys.sharers] using counted

inductive LatchEffect (x y : Session) (tid : Nat) (key : Key) (g g' : GLatch) : Prop where
  | same (latch : g' = g) (owns : y.Owns key ↔ x.Owns key) (shares : y.shares key = x.shares key)
  | share (free : g.tid = ⊤) (latch : g' = ⟨⊤, g.rcnt + 1⟩) (before : x.shares key = false) (after : y.shares key = true)
      (unowned : ¬ y.Owns key)
  | unshare (free : g.tid = ⊤) (latch : g' = ⟨⊤, g.rcnt - 1⟩) (before : x.shares key = true) (after : y.shares key = false)
      (unowned : ¬ y.Owns key)
  | take (free : g = ⟨⊤, (x.shares key).toNat⟩) (latch : g' = ⟨(tid : Nat), 1⟩) (after : y.shares key = false)
      (owned : y.Owns key)
  | give (owned : x.Owns key) (latch : g' = ⟨⊤, (y.shares key).toNat⟩) (unowned : ¬ y.Owns key)

theorem Sys.Latched.unowned (l : s.Latched) {key : Key} (free : (s.kv.entryAt key).glatch.tid = ⊤)
    (X : Nat) :
    ¬ (s.session X).Owns key := by
  intro owns
  rw [(l.owner X key owns).1] at free
  cases free

variable {kv : KVstore}

theorem Sys.Latched.put (l : s.Latched) {y : Session} (born : tid < s.cnt)
    (effect : ∀ key, LatchEffect (s.session tid) y tid key (s.kv.entryAt key).glatch
        (kv.entryAt key).glatch)
    (grows : ∀ key, s.kv.InRange key → kv.InRange key)
      (sharing : ∀ key, y.shares key = true → y.txn.isSR = true ∧ kv.InRange key)
    (clean : ∀ publish shared exclusive failed, y.phase = .closing publish shared exclusive failed →
        failed = []) :
    (s.put tid kv y).Accounts := by
  have other : ∀ X, X ≠ tid → (s.put tid kv y).session X = s.session X := fun X away => by
    simp [Function.update_of_ne away]
  have self : (s.put tid kv y).session tid = y := by simp
  have accounts : ∀ key, (∀ X, ((s.put tid kv y).session X).Owns key →
      (kv.entryAt key).glatch = ⟨(X : Nat), 1⟩ ∧ (s.put tid kv y).sharers key = 0) ∧
      ((∀ X, ¬ ((s.put tid kv y).session X).Owns key) →
            (kv.entryAt key).glatch = ⟨⊤, (s.put tid kv y).sharers key⟩) := by
    intro key
    have count := sharers_put born kv y key
    -- without an owner before the step, the owner after it can only be the moving transaction
    have gains : (s.kv.entryAt key).glatch.tid = ⊤ → ∀ X, ((s.put tid kv y).session X).Owns key →
        X = tid ∧ y.Owns key := by
      intro free X owns
      obtain rfl | same := eq_or_ne X tid
      · exact ⟨rfl, self ▸ owns⟩
      · rw [other X same] at owns
        exact absurd owns (l.unowned free X)
    cases effect key with
    | same latch owns shares =>
      rw [shares] at count
      have still : (s.put tid kv y).sharers key = s.sharers key := by omega
      have keeps : ∀ X, ((s.put tid kv y).session X).Owns key ↔ (s.session X).Owns key := by
        intro X
        obtain rfl | same := eq_or_ne X tid
        · rw [self, owns]
        · rw [other X same]
      rw [latch, still]
      exact ⟨fun X own => l.owner X key ((keeps X).mp own), fun none => l.shared key fun X own =>
          none X ((keeps X).mpr own)⟩
    | share free latch before after unowned =>
      rw [before, after] at count
      refine ⟨fun X owns => absurd (gains free X owns).2 unowned, fun _ => ?_⟩
      rw [latch, l.shared key (l.unowned free)]
      simpa using count.symm
    | unshare free latch before after unowned =>
      rw [before, after] at count
      refine ⟨fun X owns => absurd (gains free X owns).2 unowned, fun _ => ?_⟩
      rw [latch, l.shared key (l.unowned free)]
      have one : (s.put tid kv y).sharers key + 1 = s.sharers key := by simpa using count
      simp [← one]
    | take free latch after owned =>
      have unowned : (s.kv.entryAt key).glatch.tid = ⊤ := by rw [free]
      have counted : s.sharers key = ((s.session tid).shares key).toNat := by
        have same := (l.shared key (l.unowned unowned)).symm.trans free
        simpa using same
      rw [after, counted] at count
      refine ⟨fun X owns => ?_, fun none => absurd (by rwa [self]) (none tid)⟩
      rw [(gains unowned X owns).1]
      exact ⟨latch, by simpa using count⟩
    | give owned latch unowned =>
      obtain ⟨held, zero⟩ := l.owner tid key owned
      rw [zero] at count
      have alone : ∀ X, ¬ ((s.put tid kv y).session X).Owns key := by
        intro X owns
        obtain rfl | same := eq_or_ne X tid
        · exact unowned (self ▸ owns)
        · rw [other X same] at owns
          have both := (l.owner X key owns).1.symm.trans held
          simp [same] at both
      have idle : (s.session tid).shares key = false := by
        have none := countP_eq_zero.mp zero tid (mem_range.mpr born)
        simpa using none
      rw [idle] at count
      refine ⟨fun X owns => absurd owns (alone X), fun _ => ?_⟩
      rw [latch]
      simpa using count.symm
  refine ⟨fun X key => (accounts key).1 X, fun key => (accounts key).2, fun X key shares => ?_,
    fun X publish shared exclusive failed => ?_⟩
  · obtain rfl | same := eq_or_ne X tid
    · rw [self] at shares ⊢
      exact sharing key shares
    · rw [other X same] at shares ⊢
      exact ⟨(l.sharing X key shares).1, grows key (l.sharing X key shares).2⟩
  · obtain rfl | same := eq_or_ne X tid
    · rw [self]
      exact clean publish shared exclusive failed
    · rw [other X same]
      exact l.clean X publish shared exclusive failed

/-- A first read through the two functions that enter a key without asking for its latch finds a
head version that asks for the latch, or refuses the reader. -/
def LatchGuard (s : Sys) : Act → Prop
  | .read tid fn id => fn = .getsubIDlistBypreID ∨ fn = .getobjIDlistBypreID →
      fn.firstRead (s.session tid).txn ⟨fn.type, id⟩ = true →
      (s.kv.entryAt ⟨fn.type, id⟩).checkheadVersion (s.session tid).txn.tid ≠ some 0
  | _ => True

instance (s : Sys) : (a : Act) → Decidable (LatchGuard s a)
  | .read _ _ _ => inferInstanceAs (Decidable (_ → _ → _))
  | .begin _ | .update _ _ | .startCommit _ | .startAbort _ | .advance _ => isTrue trivial

section Moves

variable {s : Sys} (l : s.Latched) {tid : Nat}
include l

theorem Sys.Latched.quiet {kv : KVstore} {y : Session} (active : (s.session tid).phase ≠ .ended)
    (latches : ∀ key, (kv.entryAt key).glatch = (s.kv.entryAt key).glatch)
    (grows : ∀ key, s.kv.InRange key → kv.InRange key)
      (level : y.txn.isSR = (s.session tid).txn.isSR)
    (held : ∀ key, key ∈ y.held ↔ key ∈ (s.session tid).held)
      (shares : ∀ key, y.shares key = (s.session tid).shares key)
    (clean : ∀ publish shared exclusive failed, y.phase = .closing publish shared exclusive failed →
        failed = []) :
    (s.put tid kv y).Accounts := by
  refine l.put (l.chained.live active) (fun key => .same (latches key) ?_ (shares key)) grows
    (fun key sharing => ?_) clean
  · rw [Session.Owns, Session.Owns, level, held]
  · obtain ⟨sr, inside⟩ := l.sharing tid key (shares key ▸ sharing)
    exact ⟨level.trans sr, grows key inside⟩

variable {key : Key}

theorem Sys.Latched.at_key {e : IVEntry} {kv : KVstore} {y : Session}
    (active : (s.session tid).phase ≠ .ended)
    (entries : kv.entryAt = Function.update s.kv.entryAt key e)
    (grows : ∀ k, s.kv.InRange k → kv.InRange k) (inside : kv.InRange key)
    (level : y.txn.isSR = (s.session tid).txn.isSR)
      (held : ∀ k, k ≠ key → (k ∈ y.held ↔ k ∈ (s.session tid).held))
    (shares : ∀ k, k ≠ key → y.shares k = (s.session tid).shares k)
    (sharing : y.shares key = true → y.txn.isSR = true)
    (effect : LatchEffect (s.session tid) y tid key (s.kv.entryAt key).glatch e.glatch)
    (clean : ∀ publish shared exclusive failed, y.phase = .closing publish shared exclusive failed →
        failed = []) :
    (s.put tid kv y).Accounts := by
  refine l.put (l.chained.live active) (fun k => ?_) grows (fun k now => ?_) clean
  · rw [entries]
    obtain rfl | same := eq_or_ne k key
    · rwa [Function.update_self]
    · rw [Function.update_of_ne same]
      refine .same rfl ?_ (shares k same)
      rw [Session.Owns, Session.Owns, level, held k same]
  · obtain rfl | same := eq_or_ne k key
    · exact ⟨sharing now, inside⟩
    · obtain ⟨sr, inside⟩ := l.sharing tid k (shares k same ▸ now)
      exact ⟨level.trans sr, grows k inside⟩

theorem Sys.Latched.glatch_own (own : (s.kv.entryAt key).glatch.tid = (tid : Nat)) :
    (s.session tid).Owns key := by
  by_contra unowned
  by_cases busy : ∃ X, (s.session X).Owns key
  · obtain ⟨X, owns⟩ := busy
    rw [(l.owner X key owns).1] at own
    have same : X = tid := WithTop.coe_injective own
    exact unowned (same ▸ owns)
  · rw [l.shared key (by simpa using busy)] at own
    cases own

omit l in
theorem firstRead_spec {fn : ReadFn} {txn : Transaction} (first : fn.firstRead txn key = true) :
    txn.isSR = true ∧ key ∉ txn.readSet := by
  cases fn <;> simp_all [ReadFn.firstRead, Transaction.readSetFind]

omit l in
theorem shares_idle {x : Session} (idle : x.phase = .idle) (key : Key) :
    x.shares key = (x.txn.isSR && decide (key ∈ x.txn.readSet ∧ key ∉ x.txn.writeSet)) := by
  simp [Session.shares, Session.held, idle]

theorem Sys.Latched.read {fn : ReadFn} {id : Nat} {r : Fetched}
    (at_phase : (s.session tid).phase = .idle)
    (guard : LatchGuard s (.read tid fn id)) (call : s.kv.fetch fn id (s.session tid).txn = some r)
      (reads : List ReadEvent) :
    (s.put tid r.kv { s.session tid with txn := r.txn, reads := reads }).Accounts := by
  have own := (l.chained.sound tid).tid (by simp [at_phase])
  obtain ⟨range, -, -, -, isolation, writes, -⟩ := fetch_frame call
  have level : r.txn.isSR = (s.session tid).txn.isSR := by rw [Transaction.isSR, isolation]; rfl
  have shares : ∀ k, Session.shares { s.session tid with txn := r.txn, reads := reads } k =
      ((s.session tid).txn.isSR && decide (k ∈ r.txn.readSet ∧ k ∉ (s.session tid).txn.writeSet)) :=
          fun k => by
    rw [shares_idle (by simp [at_phase]), level, writes]
  have held : ∀ k, k ∈ Session.held { s.session tid with txn := r.txn, reads := reads } ↔
      k ∈ (s.session tid).held := fun k => by
    simp [Session.held, at_phase, writes]
  have clean : ∀ publish shared exclusive failed,
      (s.session tid).phase = .closing publish shared exclusive failed → failed = [] := by
    simp [at_phase]
  rcases fetch_cases call with ⟨store, record, -⟩ | ⟨inside, found, e, -, entry, store, record⟩
  · refine l.quiet (by simp [at_phase]) (fun k => by rw [store]) (fun k => (range k).mpr) level held (fun k => ?_) clean
    rw [shares, shares_idle at_phase, record]
  · generalize keyed : (⟨fn.type, id⟩ : Key) = key at *
    have readSet := searched_readSet (s.session tid).txn fn key found
    rw [← record] at readSet
    refine l.at_key (by simp [at_phase]) (by rw [store, entryAt_setEntryAt]) (fun k => (range k).mpr)
      ((range key).mpr inside) level (fun k _ => held k) (fun k away => ?_) (fun now => ?_) ?_ clean
    · rw [shares, shares_idle at_phase, readSet]
      split
      · simp [mem_insertKey, away]
      · rfl
    · rw [shares, Bool.and_eq_true] at now
      exact level.trans now.1
    have owns : Session.Owns { s.session tid with txn := r.txn, reads := reads } key ↔
        (s.session tid).Owns key := by
      rw [Session.Owns, Session.Owns, level, held]
    rcases search_latch entry with ⟨latched, ok, first, latch⟩ | ⟨unlatched, rfl, head⟩
    · have inserts : fn.insertsRead (fn.firstRead (s.session tid).txn key) found = true := by
        cases fn <;> simp [ReadFn.insertsRead, latched, ok, first]
      obtain ⟨sr, unread⟩ := firstRead_spec first
      rw [if_pos inserts] at readSet
      rw [own] at latch
      rcases trysharedlatch_granted latch with ⟨owned, same⟩ | ⟨free, more⟩
      · -- a key of the write set is entered into the read set without a change of its latch
        have held_before := (l.glatch_own owned).2
        have written : key ∈ (s.session tid).txn.writeSet := by
          simpa [Session.held, at_phase] using held_before
        exact .same same owns (by simp [shares, shares_idle at_phase, written])
      · have unowned := l.unowned free tid
        have unwritten : key ∉ (s.session tid).txn.writeSet := fun written =>
          unowned ⟨sr, by simpa [Session.held, at_phase] using written⟩
        refine .share free more ?_ ?_ fun own => unowned (owns.mp own)
        · simp [shares_idle at_phase, unread]
        · simp [shares, sr, readSet, mem_insertKey, unwritten]
    · have keeps : fn.insertsRead (fn.firstRead (s.session tid).txn key) found = false := by
        by_contra inserts
        have inserts := eq_true_of_ne_false inserts
        by_cases two : fn = .getsubIDlistBypreID ∨ fn = .getobjIDlistBypreID
        · have both : found.ok = true ∧ fn.firstRead (s.session tid).txn key = true := by
            rcases two with rfl | rfl <;> simpa [ReadFn.insertsRead] using inserts
          refine guard two (keyed ▸ both.2) ?_
          rw [keyed]
          exact head both.1 (firstRead_spec both.2).1 both.2
        · have others : fn.insertsRead (fn.firstRead (s.session tid).txn key) found =
              (found.latched && fn.firstRead (s.session tid).txn key) := by
            cases fn <;> simp_all [ReadFn.insertsRead]
          rw [others, unlatched] at inserts
          cases inserts
      rw [keeps] at readSet
      exact .same rfl owns (by simp [shares, shares_idle at_phase, readSet])

theorem Sys.Latched.latch {u : Change} {next mine : List Key} {e : IVEntry}
    (at_phase : (s.session tid).phase = .locking u (key :: next) mine)
      (unwritten : key ∉ (s.session tid).txn.writeSet)
    (call : (s.kv.entryAt key).getExclusiveLatch (s.session tid).txn
        ((s.session tid).txn.readSetFind key) = some (true, e)) :
    (s.put tid ((s.kv.reserve key).setEntryAt key e)
      { s.session tid with phase := .locking u next (mine ++ [key]) }).Accounts := by
  have own := (l.chained.sound tid).tid (by simp [at_phase])
  have unheld := l.chained.unheld_locking at_phase unwritten
  have unowned : ¬ (s.session tid).Owns key := fun owns => unheld owns.2
  have gained : key ∈ Session.held
    { s.session tid with phase := .locking u next (mine ++ [key]) } := by simp [Session.held]
  refine l.at_key (by simp [at_phase]) (by rw [entryAt_setEntryAt, entryAt_reserve])
    (fun k inside => by simpa using inRange_reserve inside) (by simpa using reserve_inRange s.kv key) rfl
    (fun k away => by simp [Session.held, at_phase, away])
    (fun k away => by simp [Session.shares, Session.held, at_phase, away]) (fun now => ?_) ?_ (by simp)
  · simp only [Session.shares, Bool.and_eq_true] at now
    exact now.1
  have after : Session.shares { s.session tid with phase := .locking u next (mine ++ [key]) } key =
      false := by
    simp [Session.shares, gained]
  cases sr : (s.session tid).txn.isSR with
  | false =>
    refine .same (getExclusiveLatch_plain sr call) ?_ ?_
    · simp [Session.Owns, sr]
    · simp [Session.shares, at_phase, sr]
  | true =>
    have latch := (getExclusiveLatch_granted call).2.2.2 sr
    rw [own] at latch
    by_cases hasRead : key ∈ (s.session tid).txn.readSet
    · rw [if_pos (by simpa [Transaction.readSetFind] using hasRead)] at latch
      obtain ⟨before, held⟩ := tryupgradelatch_granted latch
      have sharing : (s.session tid).shares key = true := by
        have := unheld
        simp only [Session.held, at_phase] at this
        simp [Session.shares, Session.held, at_phase, sr, hasRead, this]
      exact .take (by rw [before, sharing]; rfl) held after ⟨sr, gained⟩
    · rw [if_neg (by simpa [Transaction.readSetFind] using hasRead)] at latch
      rcases tryexclusivelatch_granted latch with owned | ⟨before, held⟩
      · exact absurd (l.glatch_own owned) unowned
      · have idle : (s.session tid).shares key =
          false := by simp [Session.shares, at_phase, hasRead]
        exact .take (by rw [before, idle]; rfl) held after ⟨sr, gained⟩

theorem Sys.Latched.releasable (active : (s.session tid).phase ≠ .ended)
    (held : key ∈ (s.session tid).held) :
    s.kv.InRange key ∧ (s.kv.entryAt key).vList ≠ [] ∧
      ((s.session tid).txn.isSR = true →
            (s.kv.entryAt key).glatch = ⟨(s.session tid).txn.tid, 1⟩) := by
  refine ⟨l.chained.range tid key held, by rw [l.chained.owned tid key held]; simp, fun sr => ?_⟩
  rw [(l.owner tid key ⟨sr, held⟩).1, (l.chained.sound tid).tid active]

theorem Sys.Latched.undo {keys : List Key}
    (at_phase : (s.session tid).phase = .undoing (key :: keys)) :
    ∃ kv, s.kv.invalidValues key (s.session tid).txn ((s.session tid).txn.readSetFind key) = some
      (true, kv) ∧
      (s.put tid kv { s.session tid with phase := .undoing keys }).Accounts := by
  have held : key ∈ (s.session tid).held := by simp [Session.held, at_phase]
  obtain ⟨inside, versions, latch⟩ := l.releasable (by simp [at_phase]) held
  have rest := l.chained.held_undo at_phase
  refine ⟨_, invalidValues_own inside versions latch,
      l.at_key (by simp [at_phase]) (entryAt_setEntryAt _ _ _)
    (fun k inside => by simpa using inside) (by simpa using inside) rfl (fun k away => by simp [rest k, away])
    (fun k away => ?_) (fun now => ?_) ?_ (by simp)⟩
  · have same := rest k
    simp only [Session.held, at_phase, away, ne_eq, not_false_eq_true, and_true] at same
    simp [Session.shares, Session.held, at_phase, same]
  · simp only [Session.shares, Bool.and_eq_true] at now
    exact now.1
  · have gone : key ∉ Session.held { s.session tid with phase := .undoing keys } :=
      fun h => ((rest key).mp h).2 rfl
    have after : Session.shares { s.session tid with phase := .undoing keys } key =
        ((s.session tid).txn.isSR && (s.session tid).txn.readSetFind key) := by
      simp only [Session.shares]
      simp [gone, Transaction.readSetFind]
    cases sr : (s.session tid).txn.isSR with
    | false =>
      refine .same (by simp) (by simp [Session.Owns, sr]) ?_
      rw [after, sr]
      simp [Session.shares, at_phase, sr]
    | true =>
      refine .give ⟨sr, held⟩ ?_ fun owns => gone owns.2
      rw [after, sr]
      cases (s.session tid).txn.readSetFind key <;> rfl

theorem Sys.Latched.releaseShared {publish : Bool} {shared exclusive : List Key}
    (at_phase : (s.session tid).phase = .closing publish (key :: shared) exclusive []) :
    ∃ kv, s.kv.releaseSharedLatch key (s.session tid).txn = some (true, kv) ∧
      (s.put tid kv { s.session tid with phase := .closing publish shared exclusive [] }).Accounts := by
  obtain ⟨distinct, -, -⟩ := l.chained.shape_at at_phase
  have sharing : (s.session tid).shares key = true := by simp [Session.shares, at_phase]
  have counted : 0 < s.sharers key :=
    countP_pos_iff.mpr ⟨tid, mem_range.mpr (l.chained.live (by simp [at_phase])), sharing⟩
  have nobody : ∀ X, ¬ (s.session X).Owns key := fun X owns => counted.ne' (l.owner X key owns).2
  have latch := l.shared key nobody
  obtain ⟨n, more⟩ := Nat.exists_eq_succ_of_ne_zero counted.ne'
  rw [more] at latch
  obtain ⟨sr, inside⟩ := l.sharing tid key sharing
  refine ⟨_, releaseSharedLatch_own inside sr latch, l.at_key (by simp [at_phase])
    (entryAt_setEntryAt _ _ _) (fun k inside => by simpa using inside) (by simpa using inside) rfl
    (fun k _ => by simp [Session.held, at_phase]) (fun k away => by simp [Session.shares, at_phase, away]) (fun _ => sr) ?_ (by simp)⟩
  have fresh : key ∉ shared := fun member => by
    rw [cons_append, cons_append, nodup_cons] at distinct
    exact distinct.1 (by simp [member])
  refine .unshare (by rw [latch]) (by rw [latch]; rfl) sharing (by simp [Session.shares, fresh]) fun owns => nobody tid ?_
  exact ⟨owns.1, by simpa [Session.held, at_phase] using owns.2⟩

theorem Sys.Latched.releaseExclusive {publish : Bool} {exclusive : List Key}
    (at_phase : (s.session tid).phase = .closing publish [] (key :: exclusive) []) :
    ∃ kv, (if publish then s.kv.releaseExclusiveLatch key (s.session tid).txn
        else s.kv.invalidValues key (s.session tid).txn false) = some (true, kv) ∧
      (s.put tid kv { s.session tid with phase := .closing publish [] exclusive [] }).Accounts := by
  have held : key ∈ (s.session tid).held := by simp [Session.held, at_phase]
  obtain ⟨inside, versions, latch⟩ := l.releasable (by simp [at_phase]) held
  have rest := l.chained.held_release at_phase
  have gone : key ∉ Session.held { s.session tid with phase := .closing publish [] exclusive [] } :=
      fun h =>
    ((rest key).mp h).2 rfl
  have given : ∀ e : IVEntry,
    e.glatch = (if (s.session tid).txn.isSR then GLatch.init else (s.kv.entryAt key).glatch) →
      (s.put tid (s.kv.setEntryAt key e)
            { s.session tid with phase := .closing publish [] exclusive [] }).Accounts := by
    intro e released
    refine l.at_key (by simp [at_phase]) (entryAt_setEntryAt _ _ _) (fun k inside => by simpa using inside)
      (by simpa using inside) rfl (fun k away => by simp [rest k, away])
      (fun k _ => by simp [Session.shares, at_phase]) (by simp [Session.shares]) ?_ (by simp)
    cases sr : (s.session tid).txn.isSR with
    | false =>
      rw [sr] at released
      exact .same (by simpa using released) (by simp [Session.Owns, sr]) (by simp [Session.shares, at_phase])
    | true =>
      rw [sr] at released
      exact .give ⟨sr, held⟩ (by rw [released]; simp [Session.shares, GLatch.init]) fun owns => gone owns.2
  cases publish with
  | true =>
    have stamped : ∃ vs, stamp (s.session tid).txn.commitID (s.kv.entryAt key).vList = some vs := by
      rw [l.chained.owned tid key held, ownVersion, stamp_link (by simp [Sys.committed])]
      exact ⟨_, rfl⟩
    obtain ⟨vs, stamped⟩ := stamped
    exact ⟨_, releaseExclusiveLatch_own inside stamped latch, given _ rfl⟩
  | false => exact ⟨_, invalidValues_own inside versions latch, given _ (by simp [GLatch.init])⟩

theorem Sys.Latched.close (at_phase : (s.session tid).phase = .idle) (publish : Bool)
    (txn : Transaction)
    (level : txn.isSR = (s.session tid).txn.isSR)
      (reads : txn.readSet = (s.session tid).txn.readSet)
    (writes : txn.writeSet = (s.session tid).txn.writeSet) :
    (s.put tid s.kv (Session.close { s.session tid with txn := txn } publish)).Accounts := by
  refine l.quiet (by simp [at_phase]) (fun _ => rfl) (fun _ h => h) level (fun k => ?_) (fun k => ?_) (by simp [Session.close])
  · simp [Session.held, Session.close, at_phase, mem_exclusiveKeys, writes]
  · rw [shares_idle at_phase]
    simp only [Session.shares, Session.close, mem_sharedKeys, level, reads, writes]
    cases (s.session tid).txn.isSR <;> simp

theorem Sys.Latched.begin (isolation : IsolationLevel) : (s.begin isolation).Accounts := by
  have record := begin_session_self s isolation
  have other : ∀ X, X ≠ s.cnt → (s.begin isolation).session X = s.session X :=
    fun X away => begin_session_of_ne away isolation
  have blank : ∀ k, ¬ ((s.begin isolation).session s.cnt).Owns k ∧
      ((s.begin isolation).session s.cnt).shares k = false := by
    intro k
    rw [record]
    simp [Session.Owns, Session.held, Session.shares]
  have unborn : ∀ k, ¬ (s.session s.cnt).Owns k := fun k => by
    rw [l.chained.unborn s.cnt le_rfl]
    simp [Session.Owns, Session.held, unborn]
  have owns : ∀ X k, ((s.begin isolation).session X).Owns k ↔ (s.session X).Owns k := by
    intro X k
    obtain rfl | same := eq_or_ne X s.cnt
    · exact iff_of_false (blank k).1 (unborn k)
    · rw [other X same]
  have sharers : ∀ k, (s.begin isolation).sharers k = s.sharers k := by
    intro k
    have last : (s.begin isolation).cnt = s.cnt + 1 := rfl
    rw [Sys.sharers, last, range_succ, countP_append, countP_singleton,
        if_neg (by simp [(blank k).2])]
    exact countP_congr fun X member => by rw [other X (mem_range.mp member).ne]
  refine ⟨fun X k own => ?_, fun k none => ?_, fun X k shares => ?_,
      fun X publish shared exclusive failed at_phase => ?_⟩
  · rw [sharers]
    exact l.owner X k ((owns X k).mp own)
  · rw [sharers]
    exact l.shared k fun X own => none X ((owns X k).mpr own)
  · obtain rfl | same := eq_or_ne X s.cnt
    · rw [(blank k).2] at shares
      cases shares
    · rw [other X same] at shares ⊢
      exact l.sharing X k shares
  · obtain rfl | same := eq_or_ne X s.cnt
    · rw [record] at at_phase
      cases at_phase
    · rw [other X same] at at_phase
      exact l.clean X publish shared exclusive failed at_phase

end Moves

theorem step_latched {t : Sys} {a : Act} (l : s.Latched) (guard : LatchGuard s a)
    (taken : s.step a = some t) : t.Latched := by
  refine { chained := step_chained l.chained taken, toAccounts := ?_ }
  cases step_moves taken with
  | stay a idler => exact l.toAccounts
  | begin isolation => exact l.begin isolation
  | read tid fn id r at_phase call => exact l.read at_phase guard call _
  | update tid u at_phase =>
    exact l.quiet (by simp [at_phase]) (fun _ => rfl) (fun _ h => h) rfl (by simp [Session.held, at_phase])
      (by simp [Session.shares, Session.held, at_phase]) (by simp)
  | startCommit tid at_phase running =>
    rw [Sys.startCommit, if_pos running]
    have closed := l.close at_phase true
      { (s.session tid).txn with commitID := (s.cnt : Nat) } rfl rfl rfl
    exact { closed with }
  | startAbort tid at_phase => exact l.close at_phase false (s.session tid).txn rfl rfl rfl
  | latchedBefore tid u key next mine at_phase written =>
    exact l.quiet (by simp [at_phase]) (fun _ => rfl) (fun _ h => h) rfl (by simp [Session.held, at_phase])
      (by simp [Session.shares, Session.held, at_phase]) (by simp)
  | latch tid u key next mine e at_phase unwritten call => exact l.latch at_phase unwritten call
  | refuse tid u key next mine kv at_phase unwritten call =>
    obtain ⟨grows, entries⟩ := getExclusiveLatch_false call
    exact l.quiet (by simp [at_phase]) (fun k => by rw [entries]) grows rfl
      (by simp [Session.held, at_phase, Transaction.abort])
      (by simp [Session.shares, Session.held, at_phase, Transaction.abort, Transaction.isSR]) (by simp)
  | allLatched tid u mine at_phase =>
    exact l.quiet (by simp [at_phase]) (fun _ => rfl) (fun _ h => h) rfl (by simp [Session.held, at_phase])
      (by simp [Session.shares, Session.held, at_phase]) (by simp)
  | undo tid key keys kv at_phase call =>
    obtain ⟨kv', undone, accounts⟩ := l.undo at_phase
    obtain rfl : kv' = kv := by simpa [undone] using call
    exact accounts
  | undone tid at_phase =>
    refine l.quiet (by simp [at_phase]) (fun _ => rfl) (fun _ h => h) rfl (by simp [Session.held, at_phase]) (fun k => ?_) (by simp)
    rw [shares_idle rfl]
    simp [Session.shares, Session.held, at_phase, append_nil]
  | write tid u key next mine kv at_phase call =>
    rcases updateValues_cases call with ⟨-, failed⟩ | ⟨inside, -, last, -, rfl⟩
    · cases failed
    · refine l.quiet (by simp [at_phase]) (fun k => ?_) (fun k inside => by simpa using inside) rfl
        (by simp [Session.held, at_phase]) (by simp [Session.shares, Session.held, at_phase]) (by simp)
      obtain rfl | same := eq_or_ne k key
      · simp
      · simp [Function.update_of_ne same]
  | writeFail tid u key next mine kv at_phase call =>
    exact absurd call (l.chained.write_succeeds at_phase)
  | written tid u mine at_phase =>
    have shape := l.chained.shape_at at_phase
    have held : ∀ k, k ∈ ((s.session tid).enter u).held ↔ k ∈ (s.session tid).held := fun k => by
      simp only [Session.held, Session.enter, at_phase, mem_writeSetInsert]
      rw [shape.2, mem_held_writing]
    refine l.quiet (by simp [at_phase]) (fun _ => rfl) (fun _ h => h) rfl held (fun k => ?_) (by simp [Session.enter])
    have same := held k
    simp only [Session.held, Session.enter, at_phase] at same
    simp only [Session.shares, Session.held, Session.enter, at_phase, same]
    rfl
  | drop tid keys t at_phase => exact absurd at_phase (l.chained.not_dropping keys)
  | releaseShared tid publish key shared exclusive failed done kv at_phase call =>
    obtain rfl := l.clean tid _ _ _ _ at_phase
    obtain ⟨kv', released, accounts⟩ := l.releaseShared at_phase
    rw [released] at call
    cases call
    exact accounts
  | publish tid key exclusive failed done kv at_phase call =>
    obtain rfl := l.clean tid _ _ _ _ at_phase
    obtain ⟨kv', released, accounts⟩ := l.releaseExclusive at_phase
    rw [if_pos rfl, call] at released
    cases released
    exact accounts
  | invalidate tid key exclusive failed done kv at_phase call =>
    obtain rfl := l.clean tid _ _ _ _ at_phase
    obtain ⟨kv', released, accounts⟩ := l.releaseExclusive at_phase
    rw [if_neg (by simp), call] at released
    cases released
    exact accounts
  | finish tid publish at_phase =>
    exact l.quiet (by simp [at_phase]) (fun _ => rfl) (fun _ h => h) rfl (by simp [Session.held, at_phase])
      (by simp [Session.shares, at_phase]) (by simp)

theorem Sys.Chained.head (c : s.Chained) (key : Key) :
    ∃ latest, (s.kv.entryAt key).vList.getLast? = some latest := by
  by_cases busy : ∃ X, key ∈ (s.session X).held
  · obtain ⟨X, holds⟩ := busy
    exact ⟨_, by rw [c.owned X key holds, getLast?_concat]⟩
  · obtain ⟨b, -, last⟩ := @link_last (s.committed key) (by simp [Sys.committed])
    exact ⟨_, by rw [c.free key (by simpa using busy), last]⟩

theorem Sys.Latched.search (l : s.Latched) (own : (s.session tid).txn.tid = (tid : Nat)) (key : Key)
    (firstRead : Bool) : ∃ r, (s.kv.entryAt key).search (s.session tid).txn firstRead = some r := by
  have proper := l.chained.getProperVersion key tid
  have newest := l.chained.getLatestVersion key tid
  obtain ⟨latest, last⟩ := l.chained.head key
  obtain ⟨ret, head⟩ : ∃ ret, (s.kv.entryAt key).checkheadVersion (tid : Nat) = some ret := by
    simp [IVEntry.checkheadVersion, last]
  obtain ⟨⟨done, g⟩, latch⟩ :
      ∃ latch, (s.kv.entryAt key).glatch.trysharedlatch (tid : Nat) = some latch := by
    unfold GLatch.trysharedlatch
    split
    · rename_i owned
      have held := (l.owner tid key (l.glatch_own owned)).1
      simp [held]
    · split <;> simp
  rw [IVEntry.search, IVEntry.readVersion, own]
  cases (s.session tid).txn.isolation with
  | readCommitted => simp [newest]
  | snapshot => simp [proper]
  | serializable =>
    simp only [head, Option.bind_some, latch, proper, Option.map_some]
    split
    · simp
    · split
      · cases done <;> simp
      · simp

theorem Sys.Latched.getExclusiveLatch (l : s.Latched) {u : Change} {key : Key}
    {next mine : List Key}
    (at_phase : (s.session tid).phase = .locking u (key :: next) mine)
      (unwritten : key ∉ (s.session tid).txn.writeSet) :
    ∃ r, s.kv.getExclusiveLatch key (s.session tid).txn ((s.session tid).txn.readSetFind key) =
        some r := by
  have own := (l.chained.sound tid).tid (by simp [at_phase])
  have unheld := l.chained.unheld_locking at_phase unwritten
  obtain ⟨latest, last⟩ := l.chained.head key
  obtain ⟨checked, check⟩ : ∃ checked, (s.kv.entryAt key).checkVersion (tid : Nat)
      ((s.session tid).txn.isolation == .readCommitted) = some checked := by
    simp [IVEntry.checkVersion, last]
  have exclusive : ∃ r, (s.kv.entryAt key).glatch.tryexclusivelatch (tid : Nat) true = some r := by
    unfold GLatch.tryexclusivelatch
    split
    · rename_i owned
      exact absurd (l.glatch_own owned).2 unheld
    · simp only [if_true]
      split <;> simp
  have upgrade : (s.session tid).txn.isSR = true → key ∈ (s.session tid).txn.readSet →
      ∃ r, (s.kv.entryAt key).glatch.tryupgradelatch (tid : Nat) = some r := by
    intro sr hasRead
    have sharing : (s.session tid).shares key = true := by
      simp only [Session.held, at_phase] at unheld
      simp [Session.shares, Session.held, at_phase, sr, hasRead, unheld]
    have counted : 0 < s.sharers key :=
      countP_pos_iff.mpr ⟨tid, mem_range.mpr (l.chained.live (by simp [at_phase])), sharing⟩
    rw [l.shared key fun X owns => counted.ne' (l.owner X key owns).2]
    unfold GLatch.tryupgradelatch
    split
    · rename_i busy
      exact absurd rfl busy
    · split <;> simp
  obtain ⟨⟨done, g⟩, latch⟩ := exclusive
  rw [getExclusiveLatch_eq]
  split
  · simp
  · simp only [IVEntry.getExclusiveLatch, own, check, Option.bind_some]
    cases checked with
    | false => simp
    | true =>
      by_cases sr : (s.session tid).txn.isSR = true
      · by_cases hasRead : key ∈ (s.session tid).txn.readSet
        · obtain ⟨⟨done, g⟩, latch⟩ := upgrade sr hasRead
          cases done <;> simp [sr, Transaction.readSetFind, hasRead, latch]
        · cases done <;> simp [sr, Transaction.readSetFind, hasRead, latch]
      · simp [sr]

theorem step_defined (l : s.Latched) (a : Act) : ∃ t, s.step a = some t := by
  cases a with
  | begin isolation => exact ⟨_, rfl⟩
  | read tid fn id =>
    by_cases idle : (s.session tid).phase = .idle
    · have own := (l.chained.sound tid).tid (by simp [idle])
      obtain ⟨⟨r, e⟩, search⟩ :=
        l.search own ⟨fn.type, id⟩ (fn.firstRead (s.session tid).txn ⟨fn.type, id⟩)
      simp only [Sys.step, if_pos idle, Sys.read, KVstore.fetch]
      split
      · simp
      · simp only [KVstore.getValueByKeyTxn, IVArray.searchTxn, onArray_access, search]
        split <;> simp
    · exact ⟨s, by simp [Sys.step, idle]⟩
  | update tid u => by_cases idle : (s.session tid).phase = .idle <;> simp [Sys.step, idle]
  | startCommit tid => by_cases idle : (s.session tid).phase = .idle <;> simp [Sys.step, idle]
  | startAbort tid => by_cases idle : (s.session tid).phase = .idle <;> simp [Sys.step, idle]
  | advance tid =>
    simp only [Sys.step, Sys.advance]
    split
    case h_3 u key next mine at_phase =>
      simp only [Sys.lockNext]
      split
      · simp
      · rename_i unwritten
        obtain ⟨⟨done, kv⟩, latch⟩ :=
          l.getExclusiveLatch at_phase (by simpa [Transaction.writeSetFind] using unwritten)
        simp [latch]
    case h_5 key keys at_phase =>
      obtain ⟨kv, undone, -⟩ := l.undo at_phase
      simp [Sys.undoNext, undone]
    case h_7 u key next mine at_phase =>
      obtain ⟨-, -, held⟩ := l.chained.holds_writing at_phase
      obtain ⟨vs, -, wrote⟩ := @updateValues_done s.kv u.insertion u.triple key
        (l.chained.range tid key held)
        (by rw [l.chained.owned tid key held]; simp)
      simp [Sys.writeNext, wrote]
    case h_8 at_phase => exact absurd at_phase (l.chained.not_dropping _)
    case h_9 at_phase => exact absurd at_phase (l.chained.not_dropping _)
    case h_10 publish key shared exclusive failed at_phase =>
      obtain rfl := l.clean tid _ _ _ _ at_phase
      obtain ⟨kv, released, -⟩ := l.releaseShared at_phase
      simp [Sys.releaseSharedNext, released]
    case h_11 publish key exclusive failed at_phase =>
      obtain rfl := l.clean tid _ _ _ _ at_phase
      obtain ⟨kv, released, -⟩ := l.releaseExclusive at_phase
      simp only [Sys.releaseExclusiveNext, released]
      simp
    case h_12 publish failed at_phase =>
      obtain rfl := l.clean tid _ _ _ _ at_phase
      simp [Sys.finish]
    all_goals exact ⟨_, rfl⟩

theorem init_latched (fresh : kv.Unversioned) : (Sys.init kv).Latched := by
  have bare : ∀ X key, ¬ ((Sys.init kv).session X).Owns key ∧
      ((Sys.init kv).session X).shares key = false := fun X key => by
    simp [Sys.init, unborn, Session.Owns, Session.held, Session.shares]
  refine { chained := init_chained fresh, toAccounts := ⟨fun X key owns => absurd owns (bare X key).1, fun key _ => ?_,
    fun X key shares => ?_, fun X publish shared exclusive failed at_phase => ?_⟩ }
  · have none : (Sys.init kv).sharers key = 0 := countP_eq_zero.mpr fun X _ => by simp [bare X key]
    rw [none]
    exact (fresh key).2
  · rw [(bare X key).2] at shares
    cases shares
  · cases at_phase

theorem run_latched (fresh : kv.Unversioned) {acts : List Act}
    (met : Guarded Sys.step LatchGuard (Sys.init kv) acts) :
        ∃ s, run Sys.step (Sys.init kv) acts = some s ∧ s.Latched :=
  run_guarded (fun s a (l : s.Latched) guard => by
    obtain ⟨t, taken⟩ := step_defined l a
    exact ⟨t, taken, step_latched l guard taken⟩) (init_latched fresh) met

/-- In every guarded interleaving no assertion fails, the count of a latch without owner is the
number of transactions with a shared latch of the key, and the keys a transaction holds are latched
by it alone. -/
theorem guarded_latch_accounts {kv : KVstore} (fresh : kv.Unversioned) {acts : List Act}
    (met : Guarded Sys.step LatchGuard (Sys.init kv) acts) :
    ∃ s, run Sys.step (Sys.init kv) acts = some s ∧
      (∀ key, (s.kv.entryAt key).glatch.tid = ⊤ →
        (s.kv.entryAt key).glatch.rcnt =
          ((List.range s.cnt).filter fun X => (s.session X).shares key).length) ∧
      (∀ X key, (s.session X).txn.isSR = true → key ∈ (s.session X).held →
          (s.kv.entryAt key).glatch = ⟨(X : Nat), 1⟩) ∧
      (∀ X publish shared exclusive failed,
          (s.session X).phase = .closing publish shared exclusive failed → failed = []) ∧
      ∀ a, (s.step a).isSome := by
  obtain ⟨s, ran, l⟩ := run_latched fresh met
  refine ⟨s, ran, fun key free => ?_, fun X key sr held => (l.owner X key ⟨sr, held⟩).1, l.clean,
      fun a => ?_⟩
  · rw [l.shared key (l.unowned free), Sys.sharers, countP_eq_length_filter]
  · obtain ⟨t, taken⟩ := step_defined l a
    rw [taken]
    rfl

def insertAndCommit (tid : Nat) (t : Triple) : List Act :=
  .update tid ⟨true, t⟩ :: List.replicate 8 (.advance tid) ++ .startCommit tid :: List.replicate 4
    (.advance tid)

/-- Two readers of a predicate, one of which then writes it and is refused the upgrade. -/
def twoReaders : List Act :=
  .begin .serializable :: insertAndCommit 1 ⟨0, 0, 1⟩ ++
    [.begin .serializable, .begin .serializable,
    .read 2 .getsubIDlistBypreID 0, .read 3 .getobjIDlistBypreID 0, .update 3 ⟨true, ⟨0, 0, 2⟩⟩,
      .advance 3, .advance 3]

theorem latch_accounts_two_readers :
    ∃ s, run Sys.step (Sys.init KVstore.empty) twoReaders = some s ∧
      ((s.kv.entryAt ⟨.predicate, 0⟩).glatch.tid = ⊤ → (s.kv.entryAt ⟨.predicate, 0⟩).glatch.rcnt =
        ((List.range s.cnt).filter fun X => (s.session X).shares ⟨.predicate, 0⟩).length) := by
  have met : Guarded Sys.step LatchGuard (Sys.init KVstore.empty) twoReaders := by decide +kernel
  obtain ⟨s, ran, count, -⟩ := guarded_latch_accounts empty_unversioned met
  exact ⟨s, ran, count ⟨.predicate, 0⟩⟩

def lateReader : List Act :=
  .begin .serializable :: .begin .serializable :: insertAndCommit 2 ⟨0, 0, 1⟩ ++
    [.read 1 .getsubIDlistBypreID 0]

/-- `getsubIDlistBypreID` enters the key into the read set of the late reader without a latch, and
the assertion at the end of its commit fails. -/
theorem unlatched_read_breaks_commit :
    (∃ s, run Sys.step (Sys.init KVstore.empty) lateReader = some s ∧
      (s.kv.entryAt ⟨.predicate, 0⟩).glatch = GLatch.init ∧ (s.session 1).phase = .idle ∧
      ⟨.predicate, 0⟩ ∈ (s.session 1).txn.readSet ∧ (s.session 1).txn.writeSet = []) ∧
    run Sys.step (Sys.init KVstore.empty) (lateReader ++ [.startCommit 1, .advance 1, .advance 1]) =
        none := by
  constructor
  · have observed : (run Sys.step (Sys.init KVstore.empty) lateReader).map
        (fun s => decide ((s.kv.entryAt ⟨.predicate, 0⟩).glatch = GLatch.init ∧
            (s.session 1).phase = .idle ∧
          ⟨.predicate, 0⟩ ∈ (s.session 1).txn.readSet ∧ (s.session 1).txn.writeSet = [])) =
            some true := by decide +kernel
    obtain ⟨s, ran, same⟩ := Option.map_eq_some_iff.mp observed
    exact ⟨s, ran, of_decide_eq_true same⟩
  · have failed : (run Sys.step (Sys.init KVstore.empty)
        (lateReader ++ [.startCommit 1, .advance 1, .advance 1])).isNone = true := by decide +kernel
    exact Option.isNone_iff_eq_none.mp failed

end GStore
