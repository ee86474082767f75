import GStore.Database.SubBatch

/-! `Database::batch_remove` outside a transaction. The vector of id tuples has one slot per triple;
a triple with an unknown term leaves its slot as the allocation made it, and the slot is sorted and
removed with the others. -/
namespace GStore
open Lib List Database

variable (db : Database)

/-- The ids of a triple; `none` is the `continue` for an unknown term. -/
def Database.encode (t : TripleWithObjType) : Option Triple :=
  let s := db.entities.getID t.subject
  let p := db.predicates.getID t.predicate
  let o := db.getObjID t
  if s = invalidID ∨ p = invalidID ∨ o = invalidID then none else some ⟨s, p, o⟩

/-- `id_tuples` after the loop. The constructor of `ID_TUPLE` sets no field, so a slot that is
passed over has what the memory held before. -/
def Database.idTuples (memory : Nat → Triple) (triples : List TripleWithObjType) : List Triple :=
  triples.mapIdx fun i t => (db.encode t).getD (memory i)

def uniqueTuples (tuples : List Triple) : List Triple :=
  (sortTuples .subject tuples).destutter (· ≠ ·)

def Database.dropBareEntity (id : Nat) : Bool × Database :=
  if db.kvstore.getEntityDegree id = 0 ∧ db.entities.getStr id ≠ "" then
    (true, { db with entities := db.entities.drop id (db.entities.getStr id) })
  else (false, db)

def Database.dropSubjects (ids : List Nat) : Nat × Database :=
  ids.foldl (fun (n, db) id => (n + (db.dropBareEntity id).1.toNat, (db.dropBareEntity id).2))
    (0, db)

def Database.dropBareObject (id : Nat) : Database :=
  if isEntityEle id then (db.dropBareEntity id).2
  else if db.kvstore.getLiteralDegree id = 0 ∧ db.literals.getStr id ≠ "" then
    { db with literals := db.literals.drop id (db.literals.getStr id) }
  else db

def Database.dropBarePredicate (id : Nat) : Database :=
  if db.kvstore.getPredicateDegree id = 0 ∧ db.predicates.getStr id ≠ "" then
    { db with predicates := db.predicates.drop id (db.predicates.getStr id) }
  else db

/-- The dictionaries and counters after the removal. `listed` are the id tuples of the triples with
known terms; the sets of their ids are walked in increasing order. -/
def Database.dropBareTerms (listed : List Triple) (updateNumTriple : Nat) : Database :=
  let (updateNumSubject, db) := db.dropSubjects (sortIds (listed.map Triple.sub) true)
  let db := (sortIds (listed.map Triple.obj) true).foldl dropBareObject db
  let db := (sortIds (listed.map Triple.pre) true).foldl dropBarePredicate db
  { db with
    triplesNum := db.triplesNum - updateNumTriple
    subNum := if db.subNum > updateNumSubject then db.subNum - updateNumSubject else 0 }

def Database.batchRemove (memory : Nat → Triple) (triples : List TripleWithObjType) :
    Option (Nat × Database) :=
  if triples = [] then some (0, db)
  else
    (db.updateIndexes false (uniqueTuples (db.idTuples memory triples))).map fun (s, p, o, next) =>
      (s, next.dropBareTerms (triples.filterMap db.encode) (max p o))

def Database.listed (triples : List TripleWithObjType) : Finset Triple :=
  (triples.filterMap db.encode).toFinset

/-- Whatever the slots of unknown triples hold, exactly the listed triples are removed from the
three indexes, and their number is returned. -/
def Database.RemovesExactly (S : Finset Triple) (triples : List TripleWithObjType) : Prop :=
  ∀ memory, ∃ next, db.batchRemove memory triples = some ((S ∩ db.listed triples).card, next) ∧
    next.kvstore.Holds (· ∈ S \ db.listed triples)

theorem mem_uniqueTuples {tuples : List Triple} {t : Triple} :
    t ∈ uniqueTuples tuples ↔ t ∈ tuples := by
  rw [uniqueTuples, mem_destutter_ne, mem_sortTuples]

theorem uniqueTuples_increasing (tuples : List Triple) :
    Increasing ((uniqueTuples tuples).map (Triple.entry .subject)) := by
  rw [uniqueTuples, map_destutter_ne _ (entry_injective .subject)]
  exact destutter_increasing (sortTuples_sorted .subject tuples)

variable {triples : List TripleWithObjType} {db : Database}

theorem mem_idTuples {memory : Nat → Triple} {u : Triple} : u ∈ db.idTuples memory triples ↔
      u ∈ db.listed triples ∨ ∃ i, ∃ h : i < triples.length, db.encode triples[i] = none ∧
      memory i = u := by
  rw [idTuples, mem_mapIdx, listed, mem_toFinset, mem_filterMap]
  constructor
  · rintro ⟨i, bound, rfl⟩
    cases found : db.encode triples[i] with
    | none => exact .inr ⟨i, bound, found, rfl⟩
    | some u => exact .inl ⟨triples[i], getElem_mem bound, found⟩
  · rintro (⟨t, member, found⟩ | ⟨i, bound, unknown, same⟩)
    · obtain ⟨i, bound, rfl⟩ := mem_iff_getElem.mp member
      exact ⟨i, bound, by rw [found, Option.getD_some]⟩
    · exact ⟨i, bound, by rw [unknown, Option.getD_none, same]⟩

theorem dropBareTerms_kvstore (db : Database) (listed : List Triple) (n : Nat) :
    (db.dropBareTerms listed n).kvstore = db.kvstore := by
  have entity : ∀ (db : Database) id, (db.dropBareEntity id).2.kvstore = db.kvstore := by
    intro db id
    unfold dropBareEntity
    split <;> rfl
  have subjects : ∀ ids, (db.dropSubjects ids).2.kvstore = db.kvstore := fun ids =>
    List.foldlRecOn (motive := fun next : Nat × Database => next.2.kvstore = db.kvstore) ids _ rfl
      fun next kept id _ => (entity next.2 id).trans kept
  have objects : ∀ (db : Database) (ids : List Nat), (ids.foldl dropBareObject db).kvstore =
      db.kvstore := by
    intro db ids
    refine List.foldlRecOn (motive := fun next : Database => next.kvstore = db.kvstore) ids _ rfl
      fun next kept id _ => ?_
    unfold dropBareObject
    split
    · exact (entity next id).trans kept
    · split <;> exact kept
  have predicates : ∀ (db : Database) (ids : List Nat), (ids.foldl dropBarePredicate db).kvstore =
      db.kvstore := by
    intro db ids
    refine List.foldlRecOn (motive := fun next : Database => next.kvstore = db.kvstore) ids _ rfl
      fun next kept id _ => ?_
    unfold dropBarePredicate
    split <;> exact kept
  exact (predicates _ _).trans ((objects _ _).trans (subjects _))

variable {S : Finset Triple}

theorem batchRemove_spec (holds : db.kvstore.Holds (· ∈ S)) (memory : Nat → Triple)
    (filled : triples ≠ []) :
    ∃ next, db.batchRemove memory triples = some
    ((S ∩ (db.idTuples memory triples).toFinset).card, next) ∧
      next.kvstore.Holds (· ∈ S \ (db.idTuples memory triples).toFinset) := by
  obtain ⟨tuples, slots⟩ : ∃ tuples, db.idTuples memory triples = tuples := ⟨_, rfl⟩
  have nonempty : uniqueTuples tuples ≠ [] := by
    intro empty
    have none : ∀ t, t ∉ tuples := fun t => by simpa [empty] using @mem_uniqueTuples tuples t
    have length := congrArg List.length slots
    rw [eq_nil_iff_forall_not_mem.mpr none, idTuples, length_mapIdx] at length
    exact filled (length_eq_zero_iff.mp length)
  obtain ⟨next, ran, -, left⟩ :=
    updateIndexes_spec false nonempty (uniqueTuples_increasing tuples) holds (by simp)
  have number : (uniqueTuples tuples).countP (fun t => decide (alters false (t ∈ S))) =
      (S ∩ tuples.toFinset).card := by
    have nodup : (uniqueTuples tuples).Nodup :=
      List.Nodup.of_map _ (increasing_nodup (uniqueTuples_increasing tuples))
    rw [countP_eq_length_filter, ← toFinset_card_of_nodup (nodup.filter _)]
    congr 1
    ext t
    simp [alters, mem_uniqueTuples, and_comm]
  rw [batchRemove, if_neg filled, slots, ran, Option.map_some, number]
  refine ⟨_, rfl, ?_⟩
  rw [dropBareTerms_kvstore]
  exact holds_congr left fun t => by simp [edited, mem_uniqueTuples]

theorem unknown_removes_other (holds : db.kvstore.Holds (· ∈ S))
    {t : TripleWithObjType} (member : t ∈ triples) (unknown : db.encode t = none)
    {u : Triple} (stored : u ∈ S) (unlisted : u ∉ db.listed triples) :
    ¬ db.RemovesExactly S triples := by
  intro exact
  obtain ⟨next, ran, left⟩ := exact fun _ => u
  obtain ⟨next', ran', left'⟩ := batchRemove_spec holds (fun _ => u) (ne_nil_of_mem member)
  obtain ⟨-, rfl⟩ := Prod.mk.inj (Option.some.inj (ran.symm.trans ran'))
  obtain ⟨i, bound, rfl⟩ := mem_iff_getElem.mp member
  have removed : u ∈ db.idTuples (fun _ => u) triples :=
    mem_idTuples.mpr (.inr ⟨i, bound, unknown, rfl⟩)
  have kept := (holds_unique left left' u).mp (Finset.mem_sdiff.mpr ⟨stored, unlisted⟩)
  exact (Finset.mem_sdiff.mp kept).2 (mem_toFinset.mpr removed)

/-- The batch removal is exact, whatever the memory holds, in exactly two cases: every listed triple
has known terms, or there is no stored triple besides the listed ones. -/
theorem batch_remove_exact_iff (db : Database) (S : Finset Triple)
    (holds : db.kvstore.Holds (· ∈ S))
    (triples : List TripleWithObjType) :
    db.RemovesExactly S triples ↔ (∀ t ∈ triples, db.encode t ≠ none) ∨ S ⊆ db.listed triples := by
  obtain rfl | filled := eq_or_ne triples []
  · refine iff_of_true (fun memory => ⟨db, ?_, ?_⟩) (.inl (by simp))
    · simp [batchRemove, listed]
    · simpa [listed] using holds
  constructor
  · intro exact
    by_contra neither
    obtain ⟨unknown, more⟩ := not_or.mp neither
    obtain ⟨t, member, missed⟩ : ∃ t ∈ triples, db.encode t = none := by simpa using unknown
    obtain ⟨u, stored, unlisted⟩ := Finset.not_subset.mp more
    exact unknown_removes_other holds member missed stored unlisted exact
  · intro condition memory
    obtain ⟨next, ran, left⟩ := batchRemove_spec holds memory filled
    have same : ∀ u ∈ S, u ∈ (db.idTuples memory triples).toFinset ↔ u ∈ db.listed triples := by
      intro u stored
      rw [mem_toFinset, mem_idTuples]
      refine ⟨?_, .inl⟩
      rintro (listed | ⟨i, bound, unknown, -⟩)
      · exact listed
      · rcases condition with known | all
        · exact absurd unknown (known _ (getElem_mem bound))
        · exact all stored
    have inter : S ∩ (db.idTuples memory triples).toFinset = S ∩ db.listed triples := by
      ext u
      simp only [Finset.mem_inter]
      exact and_congr_right (same u)
    rw [inter] at ran
    refine ⟨next, ran, holds_congr left fun u => ?_⟩
    simp only [Finset.mem_sdiff]
    exact and_congr_right fun stored => not_congr (same u stored)

def loopStore : Database := ((empty []).insertTriple ⟨"<a>", "<p>", "<a>", true⟩).2

theorem loopStore_holds : loopStore.kvstore.Holds (· ∈ ({⟨0, 0, 0⟩} : Finset Triple)) := by
  have stored : loopStore.kvstore = KVstore.empty.updateTupleslistInsert 0 0 0 := rfl
  have one := updateTupleslistInsert_holds empty_holds
    ⟨⟨0, 0, 0⟩, by decide, by decide, by decide⟩ (by simp) (by decide)
  rw [stored]
  exact holds_congr one fun t => by simp

theorem batch_remove_exact_repeated :
    loopStore.RemovesExactly {⟨0, 0, 0⟩}
    [⟨"<a>", "<p>", "<a>", true⟩, ⟨"<a>", "<p>", "<a>", true⟩] :=
  (batch_remove_exact_iff loopStore _ loopStore_holds _).mpr (.inl (by decide))

/-- The removal of a triple with an unknown subject may remove the self-loop. -/
theorem unknown_subject_removes_loop :
    loopStore.kvstore.Holds (· ∈ ({⟨0, 0, 0⟩} : Finset Triple)) ∧
      loopStore.encode ⟨"<x>", "<p>", "<a>", true⟩ = none ∧
      ¬ loopStore.RemovesExactly {⟨0, 0, 0⟩} [⟨"<x>", "<p>", "<a>", true⟩] := by
  have unknown : loopStore.encode ⟨"<x>", "<p>", "<a>", true⟩ = none := by decide
  refine ⟨loopStore_holds, unknown, unknown_removes_other loopStore_holds mem_cons_self unknown
    (Finset.mem_singleton_self _) ?_⟩
  simp [listed, unknown]

end GStore
