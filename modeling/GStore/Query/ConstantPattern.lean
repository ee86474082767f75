import GStore.Database.Invariant
import GStore.KVstore.Reads
import GStore.Txn.Visible

/-! The test for ASK patterns of constants, `CheckConstBGPExist`. It is called without the
transaction, and so it reads the base lists, where a transaction's own reads merge the versions that
it may see. -/
namespace GStore
open Lib

structure TermTriple where
  subject : String
  predicate : String
  object : String
  deriving DecidableEq, Repr

/-- The id of a constant, if it has one. The outer `none` is an exception: the one for a variable,
or that of `at` for an empty string. -/
def constantID (getID : String → Option Nat) (str : String) : Option (Option Nat) :=
  match str.toList.head? with
  | none => none
  | some c => if c = '?' then none else some (getID str)

def KVstore.existThisTriple (kv : KVstore) (s p o : Nat) : Bool :=
  (bsearchIntUporder o (kv.getobjIDlistBysubIDpreID s p)).isSome

def checkConstBGPExist (kv : KVstore) (getIDByString getIDByPredicate : String → Option Nat) :
    List TermTriple → Option Bool
  | [] => some true
  | t :: rest => do
    let some sID ← constantID getIDByString t.subject | return false
    let some oID ← constantID getIDByString t.object | return false
    let some pID ← constantID getIDByPredicate t.predicate | return false
    if !kv.existThisTriple sID pID oID then return false
    checkConstBGPExist kv getIDByString getIDByPredicate rest

def TermTriple.Constant (t : TermTriple) : Prop :=
  ∀ str ∈ [t.subject, t.predicate, t.object], ∃ c, str.toList.head? = some c ∧ c ≠ '?'

def IVEntry.setsFor (e : IVEntry) (txn : Transaction) : Option (VDataSet × VDataSet) :=
  if txn.isolation = .readCommitted then e.getLatestVersion txn.tid else e.getProperVersion txn.tid

def KVstore.Sees (kv : KVstore) (txn : Transaction) (t : Triple) : Prop :=
  isEntityEle t.sub = true ∧ ∃ sets list, (kv.entryAt (t.key .subject)).setsFor txn = some sets ∧
    mergeSets .subject (kv.entryAt (t.key .subject)).value sets = some list ∧
    t.obj ∈ sublistIn .sub list t.pre

section View

variable {kv : KVstore} {S : Finset Triple} {acts : List Act} {s : Sys} {tid : Nat}

def KVstore.Adds (kv : KVstore) (txn : Transaction) (t : Triple) : Prop :=
  isEntityEle t.sub = true ∧ ∃ sets, (kv.entryAt (t.key .subject)).setsFor txn = some sets ∧
    t.pair .subject ∈ sets.1

def KVstore.Deletes (kv : KVstore) (txn : Transaction) (t : Triple) : Prop :=
  ∃ sets, (kv.entryAt (t.key .subject)).setsFor txn = some sets ∧ t.pair .subject ∈ sets.2

theorem reachable_setsFor (fresh : kv.Unversioned) (ran : run Sys.step (Sys.init kv) acts = some s)
    (key : Key)
    {txn : Transaction} (own : txn.tid = (tid : Timestamp)) :
    ∃ sets, (s.kv.entryAt key).setsFor txn = some sets ∧ SetsSound sets := by
  have c := run_chained fresh ran
  have sound := fun works => (mergeWorks_spec works (toLex (0, 0))).1
  rw [IVEntry.setsFor, own]
  split
  · exact ⟨_, c.getLatestVersion key tid, sound _⟩
  · exact ⟨_, c.getProperVersion key tid, sound _⟩

variable (consistent : kv.Consistent S) (fresh : kv.Unversioned)
    (ran : run Sys.step (Sys.init kv) acts = some s)
include consistent fresh ran

theorem reachable_base (key : Key) :
    s.kv.getValueByKey key = kv.getValueByKey key ∧
    (s.kv.entryAt key).value = kv.getValueByKey key := by
  have grown := run_extends (init_chained fresh) ran
  have blank := grown.blank (blank_of_allocated consistent.holds.allocated)
  have base : kv.getValueByKey key = (kv.entryAt key).value :=
    search_eq (consistent.holds.allocated _) _
  have value : (s.kv.entryAt key).value = kv.getValueByKey key := (grown.value key).trans base.symm
  refine ⟨?_, value⟩
  rw [← value, KVstore.getValueByKey, IVArray.search]
  split_ifs with outside
  · rw [blank key (not_lt.mpr outside)]
    rfl
  · rfl

theorem sees_iff {txn : Transaction} (own : txn.tid = (tid : Timestamp)) (t : Triple) :
    s.kv.Sees txn t ↔ (t ∈ S ∨ s.kv.Adds txn t) ∧ ¬ s.kv.Deletes txn t := by
  obtain ⟨sets, merged, sound⟩ := reachable_setsFor fresh ran (t.key .subject) own
  have value := (reachable_base consistent fresh ran (t.key .subject)).2
  have adds : s.kv.Adds txn t ↔ isEntityEle t.sub = true ∧ t.pair .subject ∈ sets.1 := by
    simp [KVstore.Adds, merged]
  have deletes : s.kv.Deletes txn t ↔ t.pair .subject ∈ sets.2 := by
    simp [KVstore.Deletes, merged]
  by_cases entity : isEntityEle t.sub = true
  · have base : Lists .subject (s.kv.entryAt (t.key .subject)).value fun q =>
      ⟨t.sub, (ofLex q).1, (ofLex q).2⟩ ∈ S := by
      rw [value]
      exact consistent.holds.subjects t.sub
    rw [adds, deletes]
    simp only [KVstore.Sees, entity, true_and, merged, Option.some.injEq, exists_and_left,
        exists_eq_left']
    by_cases undefined : Undefined .subject (s.kv.entryAt (t.key .subject)).value sets
    · -- no list, and no triple that could be in it
      rw [mergeSets_undefined undefined]
      obtain ⟨-, none, noAdds, -⟩ := undefined
      have absent : t ∉ S := fun stored => by
        have listed := (mem_pairsIn base (t.pair .subject)).mpr stored
        rw [none] at listed
        cases listed
      simp [absent, noAdds]
    · obtain ⟨list, read, shown⟩ := mergeSets_lists base sound undefined
      rw [read]
      simp only [Option.some.injEq, exists_eq_left']
      exact (sublistIn_spec shown t.pre).2 t.obj
  · have absent : t ∉ S := fun stored => entity (consistent.subjects t stored)
    simp [KVstore.Sees, adds, entity, absent]

theorem existThisTriple_iff (t : Triple) :
    s.kv.existThisTriple t.sub t.pre t.obj = true ↔ t ∈ S := by
  have same : s.kv.existThisTriple t.sub t.pre t.obj = kv.existTriple t.sub t.pre t.obj := by
    rw [KVstore.existThisTriple, KVstore.existTriple, KVstore.getobjIDlistBysubIDpreID,
        KVstore.getobjIDlistBysubIDpreID,
      (reachable_base consistent fresh ran _).1]
  rw [same]
  by_cases entity : isEntityEle t.sub = true
  · exact existTriple_iff consistent.holds entity t.pre t.obj
  · have absent : t ∉ S := fun stored => entity (consistent.subjects t stored)
    simp [KVstore.existTriple, KVstore.getobjIDlistBysubIDpreID, entity, absent, bsearchIntUporder]

end View

def TermTriple.ids (getIDByString getIDByPredicate : String → Option Nat) (t : TermTriple) :
    Option Triple :=
  (getIDByString t.subject).bind fun sID => (getIDByPredicate t.predicate).bind fun pID =>
    (getIDByString t.object).map fun oID => ⟨sID, pID, oID⟩

def identified (getIDByString getIDByPredicate : String → Option Nat) (pattern : List TermTriple) :
    Option (List Triple) :=
  pattern.mapM (TermTriple.ids getIDByString getIDByPredicate)

theorem constantID_eq {getID : String → Option Nat} {str : String}
    (constant : ∃ c, str.toList.head? = some c ∧ c ≠ '?') :
    constantID getID str = some (getID str) := by
  obtain ⟨c, first, ne⟩ := constant
  rw [constantID, first]
  exact if_neg ne

theorem checkConstBGPExist_spec {kv : KVstore}
    {getIDByString getIDByPredicate : String → Option Nat}
    {pattern : List TermTriple} (constants : ∀ t ∈ pattern, t.Constant) :
    ∃ b, checkConstBGPExist kv getIDByString getIDByPredicate pattern = some b ∧
      (b = true ↔ ∃ ts, identified getIDByString getIDByPredicate pattern = some ts ∧
        ∀ t ∈ ts, kv.existThisTriple t.sub t.pre t.obj = true) := by
  induction pattern with
  | nil => exact ⟨true, rfl, by simp [identified]⟩
  | cons t rest ih =>
    obtain ⟨b, answer, meaning⟩ := ih fun u later => constants u (List.mem_cons_of_mem t later)
    have constant := constants t List.mem_cons_self
    rw [identified] at meaning
    rw [checkConstBGPExist, identified,
        constantID_eq (constant t.subject (by simp)), constantID_eq (constant t.object (by simp)),
      constantID_eq (constant t.predicate (by simp)), List.mapM_cons]
    cases subject : getIDByString t.subject with
    | none => exact ⟨false, rfl, by simp [TermTriple.ids, subject]⟩
    | some sID =>
      cases object : getIDByString t.object with
      | none => exact ⟨false, rfl, by simp [TermTriple.ids, object]⟩
      | some oID =>
        cases predicate : getIDByPredicate t.predicate with
        | none => exact ⟨false, rfl, by simp [TermTriple.ids, predicate]⟩
        | some pID =>
          have ids : t.ids getIDByString getIDByPredicate = some ⟨sID, pID, oID⟩ := by
            simp [TermTriple.ids, subject, object, predicate]
          simp only [Option.bind_eq_bind, Option.bind_some, Option.pure_def, ids]
          cases found : kv.existThisTriple sID pID oID with
          | false =>
            refine ⟨false, rfl, iff_of_false Bool.false_ne_true ?_⟩
            rintro ⟨us, read, all⟩
            obtain ⟨ts, -, same⟩ := Option.bind_eq_some_iff.mp read
            cases same
            have first := all _ List.mem_cons_self
            rw [found] at first
            cases first
          | true =>
            refine ⟨b, answer, meaning.trans ?_⟩
            constructor
            · rintro ⟨ts, read, all⟩
              exact ⟨⟨sID, pID, oID⟩ :: ts, by rw [read]; rfl, by simpa [found] using all⟩
            · rintro ⟨us, read, all⟩
              obtain ⟨ts, rest, same⟩ := Option.bind_eq_some_iff.mp read
              cases same
              exact ⟨ts, rest, fun u later => all u (List.mem_cons_of_mem _ later)⟩

/-- The visible versions do not change whether all the triples are there: no triple is deleted if
the base lists have them all, and otherwise one of them stays away or is deleted. -/
def BaseDecides (S : Finset Triple) (kv : KVstore) (txn : Transaction) (ts : List Triple) : Prop :=
  ((∀ t ∈ ts, t ∈ S) → ∀ t ∈ ts, ¬ kv.Deletes txn t) ∧
    ((∃ t ∈ ts, t ∉ S) → ∃ t ∈ ts, (t ∉ S ∧ ¬ kv.Adds txn t) ∨ kv.Deletes txn t)

/-- In every reachable state the test agrees with the view of a transaction if and only if the
versions that the transaction sees do not change whether the triples of the pattern are all there.
-/
theorem constant_pattern_in_view_iff {kv : KVstore} {S : Finset Triple}
    (consistent : kv.Consistent S)
    (fresh : kv.Unversioned) {acts : List Act} {s : Sys}
    (ran : run Sys.step (Sys.init kv) acts = some s) {tid : Nat}
    (running : (s.session tid).phase ≠ .ended)
    (getIDByString getIDByPredicate : String → Option Nat)
    {pattern : List TermTriple} (constants : ∀ t ∈ pattern, t.Constant) :
    (∃ b, checkConstBGPExist s.kv getIDByString getIDByPredicate pattern = some b ∧
      (b = true ↔ ∃ ts, identified getIDByString getIDByPredicate pattern = some ts ∧
        ∀ t ∈ ts, s.kv.Sees (s.session tid).txn t)) ↔
    ∀ ts, identified getIDByString getIDByPredicate pattern = some ts →
    BaseDecides S s.kv (s.session tid).txn ts := by
  have own := ((run_chained fresh ran).sound tid).tid running
  obtain ⟨b, answer, meaning⟩ :=
    @checkConstBGPExist_spec s.kv getIDByString getIDByPredicate pattern constants
  have agree : (∃ b, checkConstBGPExist s.kv getIDByString getIDByPredicate pattern = some b ∧
      (b = true ↔ ∃ ts, identified getIDByString getIDByPredicate pattern = some ts ∧
        ∀ t ∈ ts, s.kv.Sees (s.session tid).txn t)) ↔
      ((∃ ts, identified getIDByString getIDByPredicate pattern = some ts ∧ ∀ t ∈ ts, t ∈ S) ↔
        ∃ ts, identified getIDByString getIDByPredicate pattern = some ts ∧
        ∀ t ∈ ts, s.kv.Sees (s.session tid).txn t) := by
    simp only [existThisTriple_iff consistent fresh ran] at meaning
    rw [← meaning, answer]
    simp
  rw [agree]
  cases ids : identified getIDByString getIDByPredicate pattern with
  | none => simp
  | some ts =>
    simp only [Option.some.injEq, exists_eq_left', forall_eq', sees_iff consistent fresh ran own,
        BaseDecides]
    constructor
    · intro same
      refine ⟨fun base t member => (same.mp base t member).2, fun missing => ?_⟩
      by_contra covered
      push Not at covered
      obtain ⟨t, member, absent⟩ := missing
      refine absent (same.mpr (fun u other => ⟨?_, (covered u other).2⟩) t member)
      by_cases stored : u ∈ S
      · exact .inl stored
      · exact .inr ((covered u other).1 stored)
    · rintro ⟨kept, lacking⟩
      constructor
      · intro base t member
        exact ⟨.inl (base t member), kept base t member⟩
      · intro seen t member
        by_contra absent
        obtain ⟨u, other, ⟨away, unadded⟩ | deleted⟩ := lacking ⟨t, member, absent⟩
        · exact (seen u other).1.elim away unadded
        · exact (seen u other).2 deleted

def ownInsertion : List Act :=
  [.begin .snapshot, .update 1 ⟨true, ⟨0, 0, 1⟩⟩] ++ List.replicate 8 (.advance 1)

/-- The triple in the other direction is neither stored nor inserted: the test is right about it. -/
theorem other_triple_in_view : ∃ s, run Sys.step (Sys.init KVstore.empty) ownInsertion = some s ∧
    ∃ b, checkConstBGPExist s.kv (fun str => if str = "<a>" then some 0 else some 1)
    (fun _ => some 0) [⟨"<b>", "<p>", "<a>"⟩] =
        some b ∧
      (b = true ↔ ∃ ts, identified (fun str => if str = "<a>" then some 0 else some 1)
        (fun _ => some 0)
        [⟨"<b>", "<p>", "<a>"⟩] = some ts ∧ ∀ t ∈ ts, s.kv.Sees (s.session 1).txn t) := by
  have observed : (run Sys.step (Sys.init KVstore.empty) ownInsertion).map
    (fun s => decide ((s.session 1).phase = .idle ∧
      (s.kv.entryAt ⟨.subject, 1⟩).setsFor (s.session 1).txn = some ([], []))) = some true := by
        decide +kernel
  obtain ⟨s, ran, same⟩ := Option.map_eq_some_iff.mp observed
  obtain ⟨idle, sets⟩ := of_decide_eq_true same
  have consistent : KVstore.empty.Consistent ∅ :=
    ⟨holds_congr empty_holds fun t => by simp, by simp, by simp⟩
  refine ⟨s, ran, (constant_pattern_in_view_iff consistent empty_unversioned ran
      (by rw [idle]; decide) _ _ ?_).mpr ?_⟩
  · simp [TermTriple.Constant]
  · intro ts ids
    obtain rfl : [⟨1, 0, 0⟩] = ts := Option.some.inj ids
    have unadded : ¬ s.kv.Adds (s.session 1).txn ⟨1, 0, 0⟩ := by
      rintro ⟨-, found, seen, member⟩
      cases sets.symm.trans seen
      cases member
    exact ⟨fun base => by simp at base, fun _ => ⟨_, List.mem_singleton_self _, .inl ⟨Finset.notMem_empty _, unadded⟩⟩⟩

/-- The transaction sees its own triple, and the test does not find it. -/
theorem own_insertion_not_found : ∃ s, run Sys.step (Sys.init KVstore.empty) ownInsertion = some s ∧
    (s.session 1).phase = .idle ∧ s.kv.Sees (s.session 1).txn ⟨0, 0, 1⟩ ∧
    checkConstBGPExist s.kv (fun str => if str = "<a>" then some 0 else some 1) (fun _ => some 0)
    [⟨"<a>", "<p>", "<b>"⟩] =
      some false := by
  have observed : (run Sys.step (Sys.init KVstore.empty) ownInsertion).map
    (fun s => decide ((s.session 1).phase = .idle ∧
      (s.kv.entryAt ⟨.subject, 0⟩).setsFor (s.session 1).txn = some ([toLex (0, 1)], []) ∧
      (s.kv.entryAt ⟨.subject, 0⟩).value = none ∧
      checkConstBGPExist s.kv (fun str => if str = "<a>" then some 0 else some 1) (fun _ => some 0)
      [⟨"<a>", "<p>", "<b>"⟩] =
        some false)) = some true := by decide +kernel
  obtain ⟨s, ran, same⟩ := Option.map_eq_some_iff.mp observed
  obtain ⟨idle, sets, value, answer⟩ := of_decide_eq_true same
  refine ⟨s, ran, idle, ⟨by decide, _, some [1, 1, 1, 0, 5, 1], sets, ?_, by decide⟩, answer⟩
  have none : (s.kv.entryAt (Triple.key ⟨0, 0, 1⟩ .subject)).value = none := value
  rw [none]
  decide

end GStore
