import GStore.Txn.System
import GStore.Lib.Toggle

/-! Merging the versions of a key: what is pending for a pair after the additions and deletions of
any number of transactions, and the list that a reader makes of the base list and the pending sets.
-/
namespace GStore
open Lib List

def mergeWork (sets : VDataSet × VDataSet) (work : List VData × List VData) : VDataSet × VDataSet :=
  work.2.foldl mergeDel (work.1.foldl mergeAdd sets)

theorem getVersion_eq (v : Version) (sets : VDataSet × VDataSet) :
    v.getVersion sets = mergeWork sets (v.adds, v.dels) := rfl

def mergeWorks (works : List (List VData × List VData)) : VDataSet × VDataSet :=
  works.foldl mergeWork ([], [])

structure SetsSound (sets : VDataSet × VDataSet) : Prop where
  adds : Increasing sets.1
  dels : Increasing sets.2
  apart : ∀ q ∈ sets.1, q ∉ sets.2

variable {sets : VDataSet × VDataSet}

theorem pending_add {q : VData} : pending sets q = some true ↔ q ∈ sets.1 := by
  unfold pending
  split
  · simp_all
  · split <;> simp_all

theorem pending_del (sound : SetsSound sets) {q : VData} :
    pending sets q = some false ↔ q ∈ sets.2 := by
  unfold pending
  split
  · rename_i added
    simp [sound.apart q added]
  · split <;> simp_all

theorem mergeAdd_spec (sound : SetsSound sets) (p q : VData) : SetsSound (mergeAdd sets p) ∧
      pending (mergeAdd sets p) q = if q = p then toggle
      (pending sets q) true else pending sets q := by
  obtain ⟨adds, dels, apart⟩ := sound
  unfold mergeAdd
  split
  · rename_i deleted
    have rest : ∀ x, x ∈ sets.2.erase p ↔ x ≠ p ∧ x ∈ sets.2 :=
      fun x => (increasing_nodup dels).mem_erase_iff
    refine ⟨⟨adds, dels.sublist erase_sublist, fun x hx => ?_⟩, ?_⟩
    · rw [rest]
      exact fun h => apart x hx h.2
    · obtain rfl | same := eq_or_ne q p
      · have fresh : q ∉ sets.1 := fun h => apart q h deleted
        simp [pending, fresh, deleted, rest, toggle]
      · simp [pending, rest, same]
  · rename_i kept
    refine ⟨⟨insertSorted_increasing adds, dels, fun x hx => ?_⟩, ?_⟩
    · rcases mem_insertSorted.mp hx with rfl | hx
      · exact kept
      · exact apart x hx
    · obtain rfl | same := eq_or_ne q p
      · by_cases added : q ∈ sets.1 <;> simp [pending, kept, toggle, added]
      · simp [pending, same]

theorem mergeDel_spec (sound : SetsSound sets) (p q : VData) : SetsSound (mergeDel sets p) ∧
      pending (mergeDel sets p) q = if q = p then toggle
      (pending sets q) false else pending sets q := by
  obtain ⟨adds, dels, apart⟩ := sound
  unfold mergeDel
  split
  · rename_i added
    have rest : ∀ x, x ∈ sets.1.erase p ↔ x ≠ p ∧ x ∈ sets.1 :=
      fun x => (increasing_nodup adds).mem_erase_iff
    refine ⟨⟨adds.sublist erase_sublist, dels, fun x hx => apart x ((rest x).mp hx).2⟩, ?_⟩
    obtain rfl | same := eq_or_ne q p
    · simp [pending, added, rest, apart q added, toggle]
    · simp [pending, rest, same]
  · rename_i absent
    refine ⟨⟨adds, insertSorted_increasing dels, fun x hx h => ?_⟩, ?_⟩
    · rcases mem_insertSorted.mp h with rfl | h
      · exact absent hx
      · exact apart x hx h
    · obtain rfl | same := eq_or_ne q p
      · by_cases deleted : q ∈ sets.2 <;> simp [pending, absent, toggle, deleted]
      · simp [pending, same]

theorem foldl_merge_spec {merge : VDataSet × VDataSet → VData → VDataSet × VDataSet} {b : Bool}
    (one : ∀ sets, SetsSound sets → ∀ p q, SetsSound (merge sets p) ∧
      pending (merge sets p) q = if q = p then toggle (pending sets q) b else pending sets q)
    (ps : List VData) (sound : SetsSound sets) (q : VData) : SetsSound (ps.foldl merge sets) ∧
      pending (ps.foldl merge sets) q = (List.replicate (ps.count q) b).foldl toggle
      (pending sets q) := by
  induction ps generalizing sets with
  | nil => exact ⟨sound, rfl⟩
  | cons p ps ih =>
    obtain ⟨next, state⟩ := one sets sound p q
    obtain ⟨final, rest⟩ := ih next
    refine ⟨final, rest.trans ?_⟩
    rw [state]
    obtain rfl | same := eq_or_ne q p
    · rw [if_pos rfl, count_cons_self, replicate_succ, foldl_cons]
    · rw [if_neg same, count_cons_of_ne (Ne.symm same)]

def insertionsFirst (word : List Bool) : List Bool :=
  List.replicate (word.count true) true ++ List.replicate (word.count false) false

def mergeWord (work : List VData × List VData) (q : VData) : List Bool :=
  List.replicate (work.1.count q) true ++ List.replicate (work.2.count q) false

theorem mergeWork_spec (sound : SetsSound sets) (work : List VData × List VData) (q : VData) :
    SetsSound (mergeWork sets work) ∧
      pending (mergeWork sets work) q = (mergeWord work q).foldl toggle (pending sets q) := by
  obtain ⟨middle, added⟩ :=
    foldl_merge_spec (b := true) (fun sets sound p q => mergeAdd_spec sound p q) work.1 sound q
  obtain ⟨final, deleted⟩ :=
    foldl_merge_spec (b := false) (fun sets sound p q => mergeDel_spec sound p q) work.2 middle q
  refine ⟨final, deleted.trans ?_⟩
  rw [added, mergeWord, foldl_append]

theorem mergeWorks_spec (works : List (List VData × List VData)) (q : VData) :
    SetsSound (mergeWorks works) ∧ pending (mergeWorks works) q = toggles
    (works.flatMap fun work => mergeWord work q) := by
  have empty : SetsSound (([], []) : VDataSet × VDataSet) :=
    ⟨List.Pairwise.nil, List.Pairwise.nil, by simp⟩
  induction works using List.reverseRecOn with
  | nil => exact ⟨empty, rfl⟩
  | append_singleton works work ih =>
    obtain ⟨sound, state⟩ := ih
    obtain ⟨next, moved⟩ := mergeWork_spec sound work q
    have last : mergeWorks (works ++ [work]) = mergeWork (mergeWorks works) work := by
      simp [mergeWorks, foldl_append]
    rw [last, moved, state, flatMap_append, toggles, toggles, foldl_append]
    exact ⟨next, by simp⟩

def Undefined (type : IDType) (value : Option (List Nat)) (sets : VDataSet × VDataSet) : Prop :=
  type ≠ .object ∧ value = none ∧ sets.1 = [] ∧ sets.2 ≠ []

instance (type : IDType) (value : Option (List Nat)) (sets : VDataSet × VDataSet) :
    Decidable (Undefined type value sets) :=
  inferInstanceAs (Decidable (_ ∧ _))

variable {value : Option (List Nat)}

theorem merge_represents {k : Side} {S : VData → Prop}
    {remove : List VData → Option (List Nat) → Option (Option (List Nat))}
    (splice : ∀ dels tmp, dels ≠ [] → remove dels (some tmp) = some (removePairs k dels tmp))
    (empty : sets.2 ≠ [] → value = none → sets.1 = [] → remove sets.2 none = some none)
    (shown : Represents k value fun p x => S (toLex (p, x))) (sound : SetsSound sets) :
    ∃ v, ((insertBatch k sets.1 value).bind fun v => if sets.2 =
      [] then some v else remove sets.2 v) = some v ∧
      Represents k v fun p x => (S (toLex (p, x)) ∨ toLex (p, x) ∈ sets.1) ∧
      toLex (p, x) ∉ sets.2 := by
  have filled := (represents_decodes shown).2.2
  obtain ⟨gs, whole, rfl, members⟩ := shown
  obtain ⟨hs, inserted, grouped, union⟩ := insertBatch_spec k whole sound.adds
  rw [inserted, Option.bind_some]
  have both : ∀ p x, (p, x) ∈ pairs hs ↔ S (toLex (p, x)) ∨ toLex (p, x) ∈ sets.1 := fun p x => by
    rw [union p x, members p x, or_comm]
  by_cases none : sets.2 = []
  · exact ⟨stored k hs, if_pos none, hs, grouped, rfl, fun p x => by simp [both p x, none]⟩
  · rw [if_neg none]
    cases hs with
    | nil =>
      have bare : ∀ p x, ¬ (S (toLex (p, x)) ∨ toLex (p, x) ∈ sets.1) := fun p x h => by
        simpa using (both p x).mpr h
      have no_adds : sets.1 = [] := eq_nil_iff_forall_not_mem.mpr fun q hq =>
        bare (ofLex q).1 (ofLex q).2 (.inr hq)
      have vacant : stored k gs = Option.none := by
        by_contra listed
        obtain ⟨p, x, h⟩ := filled.mp (Option.isSome_iff_ne_none.mpr listed)
        exact bare p x (.inl h)
      refine ⟨Option.none, empty none vacant no_adds, [], grouped_nil, rfl, ?_⟩
      intro p x
      simpa using fun h => absurd h (bare p x)
    | cons h hs =>
      obtain ⟨rest, removed, kept, left⟩ := removePairs_spec k grouped sound.dels
      refine ⟨stored k rest, ?_, rest, kept, rfl, fun p x => by rw [left p x, both p x]⟩
      rw [stored, if_neg (by simp), splice _ _ none, removed]

theorem mergeSets_lists {type : IDType} {S : VData → Prop}
    (shown : Lists type value S) (sound : SetsSound sets) (defined : ¬ Undefined type value sets) :
    ∃ v, mergeSets type value sets = some v ∧ Lists type v fun q => (S q ∨ q ∈ sets.1) ∧
    q ∉ sets.2 := by
  cases type with
  | subject =>
    refine merge_represents (fun dels tmp filled => ?_) (fun filled none adds => ?_) shown sound
    · simp [removeS2values, filled]
    · exact absurd ⟨by simp, none, adds, filled⟩ defined
  | object =>
    refine merge_represents (fun dels tmp filled => ?_) (fun filled none adds => ?_) shown sound
    · rfl
    · rfl
  | predicate =>
    have vacant := lists_none_iff shown
    obtain ⟨ps, sorted, rfl, members⟩ := shown
    obtain ⟨qs, inserted, increasing, union⟩ := insertP2values_spec sorted sound.adds
    have both : ∀ q, q ∈ qs ↔ S q ∨ q ∈ sets.1 := fun q =>
      (union q).trans (or_comm.trans (or_congr_left (members (ofLex q).1 (ofLex q).2)))
    simp only [mergeSets, inserted]
    by_cases none : sets.2 = []
    · exact ⟨storedColumns qs, if_pos none, qs, increasing, rfl, fun s o => by simp [both, none]⟩
    · rw [if_neg none]
      have filled : qs ≠ [] := by
        rintro rfl
        have bare : ∀ q, ¬ (S q ∨ q ∈ sets.1) := fun q h => by simpa using (both q).mpr h
        exact defined ⟨by simp, vacant.mpr fun q h => bare q (.inl h),
          eq_nil_iff_forall_not_mem.mpr fun q hq => bare q (.inr hq), none⟩
      obtain ⟨rest, removed, kept, left⟩ := removeP2values_spec increasing sound.dels none filled
      exact ⟨storedColumns rest, removed, rest, kept, rfl, fun s o => by rw [left, both]⟩

@[simp] theorem mergeSets_nothing (type : IDType) : mergeSets type none ([], []) = some none := by
  cases type <;> rfl

theorem mergeSets_undefined {type : IDType}
    (undefined : Undefined type value sets) : mergeSets type value sets = none := by
  obtain ⟨kind, rfl, adds, dels⟩ := undefined
  cases type with
  | subject => simp [mergeSets, adds, dels, insertBatch, removeS2values]
  | object => exact absurd rfl kind
  | predicate => simp [mergeSets, adds, dels, insertP2values, removeP2values]

end GStore
