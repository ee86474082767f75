import GStore.Txn.Chain

/-! The version-chain invariant over every interleaving of transactions of any isolation levels, and
what `Abort` does to the chains when it takes no latches into account. -/
namespace GStore
open Lib List

/-- A version list as committed versions and at most one uncommitted version at the end. -/
structure ChainShape (versions committed own : List Version) : Prop where
  split : versions = committed ++ own
  dummy : ∃ endTs, committed.head? = some ⟨(0 : Nat), endTs, [], []⟩
  stamped : ∀ v ∈ committed, v.beginTs ≠ ⊤
  ordered : committed.Pairwise fun v w => v.beginTs ≤ w.beginTs
  linked : committed.IsChain fun v w => v.endTs = w.beginTs
  uncommitted : ∀ v ∈ own, v.beginTs = ⊤
  single : own.length ≤ 1

theorem link_isChain (as : List Stamped) : (link as).IsChain fun v w => v.endTs = w.beginTs := by
  induction as with
  | nil => exact isChain_nil
  | cons a as ih =>
    cases as with
    | nil => exact isChain_singleton _
    | cons b rest =>
      rw [link, isChain_cons]
      refine ⟨fun v first => ?_, ih⟩
      cases rest <;> · simp [link] at first; simp [← first]

theorem Sys.Chained.shape {s : Sys} (c : s.Chained) (key : Key) {own : List Version}
    (split : (s.kv.entryAt key).vList = link (s.committed key) ++ own)
    (uncommitted : ∀ v ∈ own, v.beginTs = ⊤)
    (single : own.length ≤ 1) :
    ChainShape (s.kv.entryAt key).vList (link (s.committed key)) own := by
  obtain ⟨stamped, ordered⟩ := c.committed_cids key
  refine ⟨split, ?_, ?_, ?_, link_isChain _, uncommitted, single⟩
  · unfold Sys.committed
    cases (s.owners key).map (s.versionAt key) with
    | nil => exact ⟨⊤, rfl⟩
    | cons v rest => exact ⟨v.cid, rfl⟩
  · intro v member
    have begins := mem_map_of_mem (f := Version.beginTs) member
    rw [link_beginTs] at begins
    obtain ⟨w, hw, same⟩ := mem_map.mp begins
    rw [← same]
    exact stamped w hw
  · rw [← pairwise_map (f := Version.beginTs) (R := (· ≤ ·)), link_beginTs, pairwise_map]
    exact ordered

def Version.isOwn (v : Version) (tid : Timestamp) : Bool := decide (v.beginTs = ⊤ ∧ v.endTs = tid)

theorem invalidValues_plain {kv : KVstore} {txn : Transaction} {key : Key}
    (plain : txn.isSR = false)
    (inside : kv.InRange key) (versions : (kv.entryAt key).vList ≠ []) :
    kv.invalidValues key txn false =
      some (true, kv.setEntryAt key
        ((kv.entryAt key).setVersions (kv.entryAt key).vList.dropLast)) := by
  rw [KVstore.invalidValues]
  simp only [IVArray.rollback]
  rw [onArray_access_inside inside]
  simp [IVEntry.invalidExlusiveLatch, plain, IVEntry.popBack, versions, IVEntry.setVersions]

theorem Sys.Chained.transactionInvalid {s : Sys} (c : s.Chained) {tid : Nat}
    (idle : (s.session tid).phase = .idle)
    (plain : (s.session tid).txn.isSR = false) :
    ∃ kv, s.kv.transactionInvalid (s.session tid).txn = some kv ∧
      ∀ key, kv.entryAt key = (s.kv.entryAt key).setVersions
        ((s.kv.entryAt key).vList.filter fun v => !v.isOwn (tid : Nat)) := by
  have held : ∀ key, key ∈ (s.session tid).txn.exclusiveKeys ↔ key ∈ (s.session tid).held := by
    simp [mem_exclusiveKeys, Session.held, idle]
  obtain ⟨kv, undone, entries⟩ :=
    @forKeys_done s.kv (fun kv key => kv.invalidValues key (s.session tid).txn false)
    (fun e => e.setVersions e.vList.dropLast) _ (inIndexOrder_nodup (c.sound tid).writes)
    (fun key member => c.range tid key ((held key).mp member)) (fun _ e => e.vList ≠ [])
    (fun kv key _ inside versions => invalidValues_plain plain inside versions)
    (fun key member => by simp [c.owned tid key ((held key).mp member)])
  refine ⟨kv, ?_, fun key => ?_⟩
  · have none_shared : (s.session tid).txn.sharedKeys =
      [] := by simp [Transaction.sharedKeys, plain]
    simp only [KVstore.transactionInvalid, KVstore.forLatches, none_shared, KVstore.forKeys,
        Option.bind_some]
    rw [Transaction.exclusiveKeys, undone]
    rfl
  · have stamped : ∀ v ∈ link (s.committed key), v.isOwn (tid : Nat) = false := by
      intro v member
      have begins := mem_map_of_mem (f := Version.beginTs) member
      rw [link_beginTs] at begins
      obtain ⟨w, hw, same⟩ := mem_map.mp begins
      have := (c.committed_cids key).1 w hw
      rw [same] at this
      simp [Version.isOwn, this]
    have keeps : (link (s.committed key)).filter (fun v => !v.isOwn (tid : Nat)) = link
        (s.committed key) :=
      filter_eq_self.mpr fun v hv => by simp [stamped v hv]
    rw [entries key, ← Transaction.exclusiveKeys]
    by_cases owns : key ∈ (s.session tid).held
    · rw [if_pos ((held key).mpr owns), c.owned tid key owns, dropLast_concat, filter_append, keeps]
      simp [Session.ownVersion, Version.isOwn]
    · rw [if_neg fun h => owns ((held key).mp h)]
      have others : (s.kv.entryAt key).vList.filter (fun v => !v.isOwn (tid : Nat)) =
          (s.kv.entryAt key).vList := by
        by_cases busy : ∃ X, key ∈ (s.session X).held
        · obtain ⟨X, holds⟩ := busy
          have other : X ≠ tid := fun same => owns (same ▸ holds)
          rw [c.owned X key holds, filter_append, keeps]
          simp [Session.ownVersion, Version.isOwn, other]
        · rw [c.free key (by simpa using busy), keeps]
      rw [others]
      rfl

/-- In every state that any interleaving of transactions reaches, a version list is the dummy
version and the committed versions, linked and in order, and at most one private version behind
them, whose owner is the one unfinished transaction that holds the key; and an abort that has no
latches to release takes the private versions of its transaction away and changes nothing else. -/
theorem reachable_chains_well_formed {kv : KVstore} (fresh : kv.Unversioned) {acts : List Act}
    {s : Sys}
    (ran : run Sys.step (Sys.init kv) acts = some s) :
    (∀ key, ∃ committed own, ChainShape (s.kv.entryAt key).vList committed own ∧
      (∀ v ∈ own, ∃ X : Nat, v.endTs = X ∧ (s.session X).phase ≠ .ended ∧ key ∈ (s.session X).held)
      ∧
      ∀ X : Nat, key ∈ (s.session X).held → ∃ v ∈ own, v.endTs = X) ∧
    ∀ tid, (s.session tid).phase = .idle → (s.session tid).txn.isSR = false →
      ∃ kv', s.kv.transactionInvalid (s.session tid).txn = some kv' ∧
        ∀ key, kv'.entryAt key = (s.kv.entryAt key).setVersions
          ((s.kv.entryAt key).vList.filter fun v => !v.isOwn (tid : Nat)) := by
  have c := run_chained fresh ran
  refine ⟨fun key => ?_, fun tid idle plain => c.transactionInvalid idle plain⟩
  by_cases busy : ∃ X, key ∈ (s.session X).held
  · obtain ⟨X, holds⟩ := busy
    refine ⟨_, [(s.session X).ownVersion X key],
        c.shape key (c.owned X key holds) (by simp [Session.ownVersion]) (by simp),
      ?_, fun Y other => ?_⟩
    · intro v member
      rw [mem_singleton.mp member]
      exact ⟨X, rfl, fun ended => by simp [Session.held, ended] at holds, holds⟩
    · rw [c.holder_unique other holds]
      exact ⟨_, mem_singleton.mpr rfl, rfl⟩
  · have vacant : ∀ X, key ∉ (s.session X).held := by simpa using busy
    exact ⟨_, [], c.shape key (by rw [c.free key vacant, append_nil]) (by simp) (by simp), by simp,
      fun X holds => absurd holds (vacant X)⟩

/-- A writer in the middle of its commit, and a second one that was refused the subject and has
undone the latch of its predicate. -/
theorem chains_well_formed_after_refusal :
    ∃ s, run Sys.step (Sys.init KVstore.empty)
        ([.begin .snapshot, .begin .readCommitted, .update 1 ⟨true, ⟨0, 0, 0⟩⟩] ++
          List.replicate 8 (.advance 1) ++
          [.update 2 ⟨false, ⟨0, 1, 0⟩⟩] ++ List.replicate 4
          (.advance 2) ++ [.startCommit 1, .advance 1]) = some s ∧
      (∃ committed own, ChainShape (s.kv.entryAt ⟨.subject, 0⟩).vList committed own) ∧
      ∃ kv, s.kv.transactionInvalid (s.session 2).txn = some kv := by
  obtain ⟨s, ran⟩ := Option.isSome_iff_exists.mp (show (run Sys.step (Sys.init KVstore.empty)
    ([.begin .snapshot, .begin .readCommitted, .update 1 ⟨true, ⟨0, 0, 0⟩⟩] ++
      List.replicate 8 (.advance 1) ++
      [.update 2 ⟨false, ⟨0, 1, 0⟩⟩] ++ List.replicate 4 (.advance 2) ++
      [.startCommit 1, .advance 1])).isSome = true by decide +kernel)
  obtain ⟨chains, aborts⟩ := reachable_chains_well_formed empty_unversioned ran
  obtain ⟨committed, own, shape, -⟩ := chains ⟨.subject, 0⟩
  have second : (run Sys.step (Sys.init KVstore.empty)
      ([.begin .snapshot, .begin .readCommitted, .update 1 ⟨true, ⟨0, 0, 0⟩⟩] ++
        List.replicate 8 (.advance 1) ++
        [.update 2 ⟨false, ⟨0, 1, 0⟩⟩] ++ List.replicate 4
        (.advance 2) ++ [.startCommit 1, .advance 1])).map
      (fun s => ((s.session 2).phase, (s.session 2).txn.isSR)) = some (.idle, false) := by
        decide +kernel
  rw [ran, Option.map_some, Option.some.injEq, Prod.mk.injEq] at second
  obtain ⟨kv, undone, -⟩ := aborts 2 second.1 second.2
  exact ⟨s, ran, ⟨committed, own, shape⟩, kv, undone⟩

end GStore
