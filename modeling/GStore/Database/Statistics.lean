import Mathlib.Data.Finset.Card
import Mathlib.Data.Finset.Image
import GStore.Database.Bijection

/-! The counters `triples_num` and `sub_num` and the class statistics `umap`, against the set of
stored triples. -/
namespace GStore
open Lib Finset Database

/-- If the string has to be created, it is not empty and `n` ids are left. -/
def TermTable.CanResolve (tbl : TermTable) (str : String) (n : Nat) : Prop :=
  tbl.getID str = invalidID → str ≠ "" ∧ tbl.Available n

instance (tbl : TermTable) (str : String) (n : Nat) : Decidable (tbl.CanResolve str n) :=
  inferInstanceAs (Decidable (_ → _))

variable {tbl : TermTable}

theorem resolve_accepts (sound : tbl.Sound) (whole : tbl.Intact) (spare : tbl.Spare 1)
    {str : String}
    (can : tbl.CanResolve str 1) :
    (tbl.resolve str).ok = true ∧ (tbl.resolve str).table.Intact := by
  refine ⟨?_, (resolve_spec sound spare str).intact (fun unknown => (can unknown).2) whole⟩
  unfold TermTable.resolve
  split_ifs with unknown
  · have absent : tbl.ids str = none := by
      cases found : tbl.ids str with
      | none => rfl
      | some id =>
        rw [TermTable.getID, found, Option.getD_some] at unknown
        exact absurd (unknown ▸ found) (whole str)
    exact create_accepts sound (can unknown).1 absent (can unknown).2
  · rfl

variable (db : Database)

def Database.CanResolve (t : TripleWithObjType) : Prop :=
  db.entities.CanResolve t.subject 1 ∧ db.predicates.CanResolve t.predicate 1 ∧
    if t.isObjEntity then t.object ≠ t.subject → db.entities.CanResolve t.object (db.newEntities t)
    else db.literals.CanResolve t.object 1

instance (db : Database) (t : TripleWithObjType) : Decidable (db.CanResolve t) :=
  inferInstanceAs (Decidable (_ ∧ _ ∧ _))

/-- No string of any dictionary has the id `INVALID`. -/
structure Database.Intact (db : Database) : Prop where
  entities : db.entities.Intact
  literals : db.literals.Intact
  predicates : db.predicates.Intact

section Accept
variable {db : Database} {T : Triple → Prop} (inv : db.Inv T) (whole : db.Intact)
    (spare : db.Spare 2)
  {t : TripleWithObjType}
include inv whole spare

theorem resolveSubject_canResolve (can : db.CanResolve t) (kind : t.isObjEntity = true) :
    (db.entities.resolve t.subject).table.CanResolve t.object 1 := by
  have one := spare.mono (Nat.le_succ 1)
  have term := resolve_spec inv.entities one.1 t.subject
  intro unknown
  have apart : t.object ≠ t.subject := by
    intro same
    obtain ⟨i, -, live, -⟩ := term.found (resolve_accepts inv.entities whole.entities one.1 can.1).1
    rw [same] at unknown
    exact (term.sound.getID_live live).2 unknown
  have before : db.entities.getID t.object = invalidID := by
    rw [← unknown, TermTable.getID, TermTable.getID, ← term.others t.object apart]
  have object := can.2.2
  rw [if_pos kind] at object
  obtain ⟨nonempty, left⟩ := object apart before
  refine ⟨nonempty, term.room 1 (available_mono ?_ left)⟩
  rw [newEntities, if_pos (⟨kind, apart, before⟩ : _ ∧ _ ∧ _), Nat.add_comm]

theorem resolveTerms_accepts (can : db.CanResolve t) :
    (db.resolveTerms t).1.Intact ∧ ∃ ids, (db.resolveTerms t).2 = some ids := by
  have one := spare.mono (Nat.le_succ 1)
  obtain ⟨okS, intactS⟩ := resolve_accepts inv.entities whole.entities one.1 can.1
  obtain ⟨okP, intactP⟩ := resolve_accepts inv.predicates whole.predicates one.2.2 can.2.1
  rcases ranO : ((db.resolveSubject t).2.resolvePredicate t).2.resolveObject t with ⟨o, next⟩
  have accepted : o.ok = true ∧ next.Intact := by
    cases kind : t.isObjEntity with
    | true =>
      have extended := resolve_spec inv.entities one.1 t.subject
      obtain ⟨okO, intactO⟩ := resolve_accepts extended.sound intactS (extended.spare 1 spare.1)
        (resolveSubject_canResolve inv whole spare can kind)
      simp only [resolveObject, kind, if_true, Prod.mk.injEq] at ranO
      obtain ⟨rfl, rfl⟩ := ranO
      refine ⟨okO, ?_⟩
      split <;> exact ⟨intactO, whole.literals, intactP⟩
    | false =>
      have object := can.2.2
      rw [if_neg (by simp [kind])] at object
      obtain ⟨okO, intactO⟩ := resolve_accepts inv.literals whole.literals one.2.1 object
      simp only [resolveObject, kind, Bool.false_eq_true, if_false, Prod.mk.injEq] at ranO
      obtain ⟨rfl, rfl⟩ := ranO
      exact ⟨okO, intactS, intactO, intactP⟩
  have ran : db.resolveTerms t =
    (next, some ⟨(db.entities.resolve t.subject).id, (db.predicates.resolve t.predicate).id,
      o.id, (db.entities.resolve t.subject).isNew ||
      (db.predicates.resolve t.predicate).isNew || o.isNew⟩) := by
    simp only [resolveTerms, resolveSubject, resolvePredicate] at ranO ⊢
    simp [okS, okP, ranO, accepted.1, Bool.not_true, Bool.false_eq_true]
  rw [ran]
  exact ⟨accepted.2, _, rfl⟩

end Accept

def classEntry (n : Nat) : Option Nat := if n = 0 then none else some n

/-- The entity with the string `c` is the object of the triple, and its predicate is a type
predicate. -/
def Database.isInstance (c : String) (u : Triple) : Bool :=
  (db.predicates.strs u.pre).any db.checkIsTypePredicate && db.entities.strs u.obj == some c

def Database.instances (T : Finset Triple) (c : String) : Nat :=
  (T.filter fun u => db.isInstance c u = true).card

/-- The statistics count the triples `T`. -/
structure Database.Exact (db : Database) (T : Finset Triple) : Prop where
  triples : db.triplesNum = T.card
  subjects : db.subNum = (T.image Triple.sub).card
  classes : ∀ c, db.umap c = classEntry (db.instances T c)

theorem resolveObject_counts (t : TripleWithObjType) (ok : (db.resolveObject t).1.ok = true) :
    (db.resolveObject t).2.triplesNum = db.triplesNum ∧
      (db.resolveObject t).2.typePredicateName = db.typePredicateName ∧
      (db.resolveObject t).2.subNum = db.subNum ∧
      (db.resolveObject t).2.umap = if t.isObjEntity && db.checkIsTypePredicate t.predicate then
        Function.update db.umap t.object (some ((db.umap t.object).getD 0 + 1)) else db.umap := by
  unfold resolveObject at ok ⊢
  cases kind : t.isObjEntity with
  | true =>
    simp only [kind, if_true] at ok
    have type : checkIsTypePredicate { db with entities := (db.entities.resolve t.object).table }
      t.predicate = db.checkIsTypePredicate t.predicate := rfl
    simp only [if_true, ok, type, Bool.true_and]
    cases db.checkIsTypePredicate t.predicate <;> exact ⟨rfl, rfl, rfl, rfl⟩
  | false => exact ⟨rfl, rfl, rfl, rfl⟩

variable {db : Database} {t : TripleWithObjType} {ids : TripleIDs}

theorem resolveTerms_parts (found : (db.resolveTerms t).2 = some ids) :
    ∃ o next, ((db.resolveSubject t).2.resolvePredicate t).2.resolveObject t = (o, next) ∧
      (db.entities.resolve t.subject).ok = true ∧ o.ok = true ∧ (db.resolveTerms t).1 = next ∧
      ids = ⟨(db.entities.resolve t.subject).id, (db.predicates.resolve t.predicate).id, o.id,
        (db.entities.resolve t.subject).isNew ||
        (db.predicates.resolve t.predicate).isNew || o.isNew⟩ := by
  unfold resolveTerms at found ⊢
  dsimp only at found ⊢
  split at found
  · cases found
  · rename_i okS
    rw [if_neg okS]
    split at found
    · cases found
    · rename_i okP
      rw [if_neg okP]
      split at found
      · cases found
      · rename_i okO
        rw [if_neg okO]
        cases found
        simp only [Bool.not_eq_true', Bool.not_eq_false] at okS okO
        exact ⟨_, _, Prod.mk.eta.symm, okS, okO, rfl, rfl⟩

theorem resolveTerms_counts (found : (db.resolveTerms t).2 = some ids) :
    (db.resolveTerms t).1.triplesNum = db.triplesNum ∧
      (db.resolveTerms t).1.typePredicateName = db.typePredicateName ∧
      (db.resolveTerms t).1.subNum = db.subNum +
      (if db.entities.getID t.subject = invalidID then 1 else 0) ∧
      (db.resolveTerms t).1.umap = if t.isObjEntity && db.checkIsTypePredicate t.predicate then
        Function.update db.umap t.object (some ((db.umap t.object).getD 0 + 1)) else db.umap := by
  have object := resolveObject_counts ((db.resolveSubject t).2.resolvePredicate t).2 t
  have counted : (db.resolveSubject t).2.subNum =
      db.subNum + (if db.entities.getID t.subject = invalidID then 1 else 0) := by
    simp only [resolveSubject, TermTable.resolve]
    split <;> simp
  obtain ⟨o, next, ran, -, okO, rfl, -⟩ := resolveTerms_parts found
  rw [ran] at object
  obtain ⟨triples, names, subjects, classes⟩ := object okO
  exact ⟨triples, names, subjects.trans counted, classes⟩

def Database.stores (db : Database) (t : TripleWithObjType) : Bool :=
  let s := db.entities.getID t.subject
  let p := db.predicates.getID t.predicate
  let o := db.getObjID t
  !decide (s = invalidID ∨ p = invalidID ∨ o = invalidID) && db.kvstore.existTriple s p o

theorem stores_of_live {T : Triple → Prop} (inv : db.Inv T) (t : TripleWithObjType) {s p o : Nat}
    (sub : db.entities.strs s = some t.subject) (pre : db.predicates.strs p = some t.predicate)
    (obj : db.ObjectLive t.isObjEntity t.object o) (stored : db.kvstore.existTriple s p o = true) :
    db.stores t = true ∧ (t.isObjEntity = true → db.entities.getID t.object = o) := by
  obtain ⟨subID, subKnown⟩ := inv.entities.getID_live sub
  obtain ⟨preID, preKnown⟩ := inv.predicates.getID_live pre
  rw [inv.entityBase, Nat.add_zero] at subID
  rw [inv.predicateBase, Nat.add_zero] at preID
  have object : db.getObjID t = o ∧ o ≠ invalidID ∧
      (t.isObjEntity = true → db.entities.getID t.object = o) := by
    unfold getObjID
    cases kind : t.isObjEntity with
    | true =>
      rw [kind] at obj
      obtain ⟨objID, known⟩ := inv.entities.getID_live obj.1
      rw [inv.entityBase, Nat.add_zero] at objID
      rw [objID] at known
      simp only [if_true]
      exact ⟨objID, known, fun _ => objID⟩
    | false =>
      rw [kind] at obj
      obtain ⟨objID, known⟩ := inv.literals.getID_live obj.1
      have large : literalFirstID ≤ o := by simpa [isEntityEle] using obj.2.1
      rw [inv.literalBase, Nat.sub_add_cancel large] at objID
      rw [objID] at known
      simp only [Bool.false_eq_true, if_false]
      exact ⟨objID, known, fun impossible => by cases impossible⟩
  rw [subID] at subKnown
  rw [preID] at preKnown
  refine ⟨?_, object.2.2⟩
  simp only [stores, subID, preID, object.1, stored, Bool.and_true, Bool.not_eq_true',
      decide_eq_false_iff_not]
  exact fun unknown => unknown.elim subKnown fun rest => rest.elim preKnown object.2.1

theorem resolve_known {str : String} (old : (tbl.resolve str).isNew = false) :
    (tbl.resolve str).id = tbl.getID str ∧ tbl.getID str ≠ invalidID ∧
    (tbl.resolve str).table = tbl := by
  unfold TermTable.resolve at old ⊢
  split at old
  · cases old
  · rename_i known
    rw [if_neg known]
    exact ⟨rfl, known, rfl⟩

theorem resolve_isNew (tbl : TermTable) (str : String) :
    (tbl.resolve str).isNew = true ↔ tbl.getID str = invalidID := by
  unfold TermTable.resolve
  split <;> simp [*]

theorem resolveTerms_known (found : (db.resolveTerms t).2 = some ids) (old : ids.anyNew = false) :
    (ids.sub = db.entities.getID t.subject ∧ ids.pre = db.predicates.getID t.predicate ∧
      ids.obj = db.getObjID t) ∧
      db.entities.getID t.subject ≠ invalidID ∧ db.predicates.getID t.predicate ≠ invalidID ∧
      db.getObjID t ≠ invalidID := by
  obtain ⟨o, next, ran, -, -, -, rfl⟩ := resolveTerms_parts found
  simp only [Bool.or_eq_false_iff] at old
  obtain ⟨⟨oldS, oldP⟩, oldO⟩ := old
  obtain ⟨sub, subKnown, table⟩ := resolve_known oldS
  obtain ⟨pre, preKnown, -⟩ := resolve_known oldP
  have object : o.id = db.getObjID t ∧ db.getObjID t ≠ invalidID := by
    unfold getObjID
    cases kind : t.isObjEntity with
    | true =>
      simp only [resolveObject, kind, if_true, Prod.mk.injEq, resolvePredicate,
        resolveSubject, table] at ran
      obtain ⟨rfl, -⟩ := ran
      exact ⟨(resolve_known oldO).1, (resolve_known oldO).2.1⟩
    | false =>
      simp only [resolveObject, kind, Bool.false_eq_true, if_false, Prod.mk.injEq,
        resolvePredicate, resolveSubject] at ran
      obtain ⟨rfl, -⟩ := ran
      exact ⟨(resolve_known oldO).1, (resolve_known oldO).2.1⟩
  exact ⟨⟨sub, pre, object.1⟩, subKnown, preKnown, object.2⟩

theorem TermTable.Sound.strs_literal (sound : tbl.Sound) {i : Nat} (kind : isEntityEle i = false) :
    tbl.strs i = none := by
  have large : literalFirstID ≤ i := by simpa [isEntityEle] using kind
  cases found : tbl.strs i with
  | none => rfl
  | some str =>
    have := (sound.live _ _ found).2.2
    omega

theorem isInstance_congr {a b : Database} {A B : Triple → Prop} (invA : a.Inv A) (invB : b.Inv B)
    {u : Triple}
    (inA : A u) (names : b.typePredicateName = a.typePredicateName)
    (entities : ∀ i str, a.entities.strs i = some str → b.entities.strs i = some str)
    (predicates : ∀ i str, a.predicates.strs i = some str → b.predicates.strs i = some str)
    (c : String) :
    b.isInstance c u = a.isInstance c u := by
  obtain ⟨pre, preA⟩ := invA.preLive u inA
  have object : b.entities.strs u.obj = a.entities.strs u.obj := by
    cases kind : isEntityEle u.obj with
    | true =>
      obtain ⟨obj, objA⟩ := invA.objEntity u inA kind
      rw [objA, entities _ _ objA]
    | false => rw [invA.entities.strs_literal kind, invB.entities.strs_literal kind]
  unfold isInstance checkIsTypePredicate
  rw [preA, predicates _ _ preA, object, names]

theorem isInstance_live {T : Triple → Prop} (inv : db.Inv T) {s p o : Nat}
    (pre : db.predicates.strs p = some t.predicate) (obj : db.ObjectLive t.isObjEntity t.object o)
    (c : String) :
    db.isInstance c ⟨s, p, o⟩ =
      (t.isObjEntity && db.checkIsTypePredicate t.predicate && decide (t.object = c)) := by
  unfold isInstance
  rw [pre]
  cases kind : t.isObjEntity with
  | true =>
    rw [kind] at obj
    simp [obj.1, Bool.beq_eq_decide_eq]
  | false =>
    rw [kind] at obj
    simp [inv.entities.strs_literal obj.2.1]

variable {T : Finset Triple}

theorem instances_insert {db next : Database} {x : Triple} {c : String} (absent : x ∉ T)
    (same : ∀ u ∈ T, next.isInstance c u = db.isInstance c u) :
    next.instances (insert x T) c = db.instances T c + if next.isInstance c x then 1 else 0 := by
  have others : T.filter (fun u => next.isInstance c u = true) = T.filter fun u =>
      db.isInstance c u = true :=
    filter_congr fun u h => by rw [same u h]
  unfold instances
  rw [filter_insert, others]
  split
  · exact card_insert_of_notMem fun h => absent (mem_of_mem_filter x h)
  · rfl

theorem classEntry_succ {entry : Option Nat} {n : Nat} (counted : entry = classEntry n) :
    some (entry.getD 0 + 1) = classEntry (n + 1) := by
  subst counted
  cases n <;> simp [classEntry]

theorem countClass_classes {count : String → Nat} (counted : ∀ c, db.umap c = classEntry (count c))
    (object c : String) : Function.update db.umap object (some ((db.umap object).getD 0 + 1)) c =
      classEntry (count c + if object = c then 1 else 0) := by
  obtain rfl | same := eq_or_ne object c
  · rw [Function.update_self, if_pos rfl, classEntry_succ (counted object)]
  · rw [Function.update_of_ne (Ne.symm same), if_neg same, counted, Nat.add_zero]

theorem mem_subjects {kv : KVstore} (holds : kv.Holds (· ∈ T)) (s : Nat) :
    s ∈ T.image Triple.sub ↔ kv.getEntityOutDegree s ≠ 0 := by
  rw [ne_eq, outDegree_eq_zero holds, mem_image]
  constructor
  · rintro ⟨u, present, rfl⟩ none
    exact none u.pre u.obj present
  · intro used
    by_contra none
    exact used fun p o present => none ⟨_, present, rfl⟩

section Insert
variable {db : Database} {T : Finset Triple} (inv : db.Inv (· ∈ T)) {t : TripleWithObjType}
include inv

theorem subjects_insert (spare : db.Spare 1) {ids : TripleIDs}
    (found : (db.resolveTerms t).2 = some ids)
    (subject : db.entities.getID t.subject = invalidID ∨
      db.kvstore.getEntityOutDegree (db.entities.getID t.subject) ≠ 0) :
    ((insert ⟨ids.sub, ids.pre, ids.obj⟩ T).image Triple.sub).card =
      (T.image Triple.sub).card + if db.entities.getID t.subject = invalidID then 1 else 0 := by
  obtain ⟨o, next, -, okS, -, -, rfl⟩ := resolveTerms_parts found
  rw [image_insert]
  by_cases unknown : db.entities.getID t.subject = invalidID
  · rw [if_pos unknown]
    refine card_insert_of_notMem fun used => ?_
    obtain ⟨u, present, hit⟩ := mem_image.mp used
    have new := (resolve_isNew db.entities t.subject).mpr unknown
    exact (resolveSubject_spec inv t spare rfl).2.2.2 okS new u present hit
  · have known := (resolve_known
        (Bool.eq_false_iff.mpr fun new => unknown ((resolve_isNew _ _).mp new))).1
    rw [if_neg unknown, Nat.add_zero, insert_eq_of_mem]
    simp only [known]
    exact (mem_subjects inv.holds _).mpr (subject.resolve_left unknown)

theorem insertTriple_exact (exact : db.Exact T) (whole : db.Intact) (fits : db.Fits 0 t)
    (can : db.CanResolve t)
    (subject : db.entities.getID t.subject = invalidID ∨
      db.kvstore.getEntityOutDegree (db.entities.getID t.subject) ≠ 0)
    (uncounted : t.isObjEntity = true → db.checkIsTypePredicate t.predicate = true →
      db.stores t = false) :
    ∃ U : Finset Triple, (db.insertTriple t).2.Inv (· ∈ U) ∧ (db.insertTriple t).2.Intact ∧
      (db.insertTriple t).2.Exact U := by
  obtain ⟨intact, ids, found⟩ := resolveTerms_accepts inv whole (fits.1.mono (by decide)) can
  obtain ⟨grows, -, resolved⟩ := resolveTerms_inv inv t fits.1
  have live := resolved ids found
  obtain ⟨triples, names, subjects, classes⟩ := resolveTerms_counts found
  have grown := inv.grow grows
  have same (c : String) : ∀ u ∈ T, (db.resolveTerms t).1.isInstance c u = db.isInstance c u :=
      fun u h =>
    isInstance_congr inv grown h names grows.entities.keeps grows.predicates.keeps c
  rcases insertTriple_cases inv t fits.1 with ⟨refused, there⟩ | ⟨ids', found', absent, stored⟩
  · -- the triple is there: no new term, and no class is counted
    obtain ⟨old, present⟩ := there ids found
    obtain ⟨⟨sub, pre, obj⟩, subKnown, preKnown, objKnown⟩ := resolveTerms_known found old
    have entity := isEntityEle_of_lt (grown.entities.live _ _ live.sub).2.2
    have stores : db.stores t = true := by
      have test := (existTriple_iff inv.holds entity ids.pre ids.obj).mpr present
      rw [sub, pre, obj] at test
      simp [stores, subKnown, preKnown, objKnown, test]
    have untyped : (t.isObjEntity && db.checkIsTypePredicate t.predicate) = false := by
      cases kind : t.isObjEntity with
      | false => rfl
      | true =>
        cases type : db.checkIsTypePredicate t.predicate with
        | false => rfl
        | true => exact absurd stores (by simp [uncounted kind type])
    rw [refused]
    refine ⟨T, grown, intact, triples.trans exact.triples, ?_, fun c => ?_⟩
    · rw [subjects, if_neg subKnown, Int.add_zero]
      exact exact.subjects
    · have members : (db.resolveTerms t).1.instances T c = db.instances T c :=
        congrArg Finset.card (filter_congr fun u h => by rw [same c u h])
      rw [classes, if_neg (by simp [untyped]), members]
      exact exact.classes c
  · rw [found] at found'
    cases found'
    have type : (db.resolveTerms t).1.checkIsTypePredicate = db.checkIsTypePredicate := by
      unfold checkIsTypePredicate
      rw [names]
    have counted (c : String) :
      (db.resolveTerms t).1.instances (insert ⟨ids.sub, ids.pre, ids.obj⟩ T) c =
        db.instances T c +
          if (t.isObjEntity && db.checkIsTypePredicate t.predicate && decide (t.object = c)) =
              true then 1 else 0 := by
      rw [instances_insert absent (same c), isInstance_live grown live.pre live.obj, type]
    rw [stored]
    refine ⟨insert ⟨ids.sub, ids.pre, ids.obj⟩ T, ?_, { intact with },
      ?_, ?_, fun c => ?_⟩
    · simp only [mem_insert]
      exact grown.store (live.room inv grows fits.2) live absent rfl rfl rfl rfl
    · rw [card_insert_of_notMem absent, Int.natCast_add, ← exact.triples, ← triples]
      rfl
    · rw [subjects_insert inv
          (fits.1.mono (by decide)) found subject, Int.natCast_add, ← exact.subjects]
      exact subjects.trans (by split <;> rfl)
    · refine Eq.trans ?_ (congrArg classEntry (counted c).symm)
      have umap := congrFun classes c
      cases typed : t.isObjEntity && db.checkIsTypePredicate t.predicate with
      | true =>
        rw [if_pos typed] at umap
        simpa using umap.trans (countClass_classes exact.classes t.object c)
      | false =>
        rw [if_neg (by simp [typed])] at umap
        simpa using umap.trans (exact.classes c)

end Insert

theorem dropObject_counts (db : Database) (t : TripleWithObjType) (o : Nat) :
    (db.dropObject t o).triplesNum = db.triplesNum ∧
    (db.dropObject t o).typePredicateName = db.typePredicateName ∧
      (db.dropObject t o).subNum = db.subNum ∧ (db.dropObject t o).umap = db.umap := by
  unfold dropObject
  split <;> split <;> exact ⟨rfl, rfl, rfl, rfl⟩

theorem dropPredicate_counts (db : Database) (t : TripleWithObjType) (p : Nat) :
    (db.dropPredicate t p).triplesNum = db.triplesNum ∧
      (db.dropPredicate t p).typePredicateName = db.typePredicateName ∧
      (db.dropPredicate t p).subNum = db.subNum ∧ (db.dropPredicate t p).umap = db.umap := by
  unfold dropPredicate
  split <;> exact ⟨rfl, rfl, rfl, rfl⟩

theorem dropSubject_counts (db : Database) (t : TripleWithObjType) (s : Nat) :
    (db.dropSubject t s).triplesNum = db.triplesNum ∧
    (db.dropSubject t s).typePredicateName = db.typePredicateName ∧
      (db.dropSubject t s).subNum = db.subNum -
      (if db.kvstore.getEntityOutDegree s = 0 then 1 else 0) ∧
      (db.dropSubject t s).umap = db.umap := by
  unfold dropSubject
  split
  · rename_i isolated
    rw [KVstore.getEntityDegree, Nat.add_eq_zero_iff] at isolated
    rw [if_pos isolated.2]
    exact ⟨rfl, rfl, rfl, rfl⟩
  · split <;> simp

theorem uncountType_counts {a b : Database} (names : a.typePredicateName = b.typePredicateName)
    (umap : a.umap = b.umap) (t : TripleWithObjType) :
    (a.uncountType t).triplesNum = a.triplesNum ∧
    (a.uncountType t).typePredicateName = b.typePredicateName ∧
      (a.uncountType t).subNum = a.subNum ∧ (a.uncountType t).umap = (b.uncountType t).umap := by
  unfold uncountType uncountClass checkIsTypePredicate
  rw [names, umap]
  split
  · split <;> exact ⟨rfl, by simp [names], rfl, by simp [umap]⟩
  · exact ⟨rfl, names, rfl, umap⟩

theorem removal_counts (db : Database) (t : TripleWithObjType) (s p o : Nat) (kv : KVstore) :
    let next := ((((db.unstore kv).dropSubject t s).dropObject t o).uncountType t).dropPredicate t p
    next.triplesNum = db.triplesNum - 1 ∧ next.typePredicateName = db.typePredicateName ∧
      next.subNum = db.subNum - (if kv.getEntityOutDegree s = 0 then 1 else 0) ∧
      next.umap = (db.uncountType t).umap := by
  intro next
  obtain ⟨triplesS, namesS, subjectsS, classesS⟩ := dropSubject_counts (db.unstore kv) t s
  obtain ⟨triplesO, namesO, subjectsO, classesO⟩ :=
    dropObject_counts ((db.unstore kv).dropSubject t s) t o
  obtain ⟨triplesU, namesU, subjectsU, classesU⟩ :=
    uncountType_counts (b := db) (namesO.trans namesS) (classesO.trans classesS) t
  obtain ⟨triplesP, namesP, subjectsP, classesP⟩ :=
    dropPredicate_counts ((((db.unstore kv).dropSubject t s).dropObject t o).uncountType t) t p
  exact ⟨triplesP.trans (triplesU.trans (triplesO.trans triplesS)), namesP.trans namesU,
    subjectsP.trans (subjectsU.trans (subjectsO.trans subjectsS)), classesP.trans classesU⟩

theorem uncountClass_classes {count : String → Nat} (object : String)
    (counted : ∀ c, db.umap c = classEntry (count c + if object = c then 1 else 0)) (c : String) :
    (db.uncountClass object).umap c = classEntry (count c) := by
  have entry := counted object
  rw [if_pos rfl, classEntry, if_neg (Nat.succ_ne_zero _)] at entry
  rw [uncountClass, entry]
  obtain rfl | same := eq_or_ne object c
  · simp only [Function.update_self, classEntry]
    split <;> split <;> simp <;> omega
  · simp only [Function.update_of_ne (Ne.symm same)]
    rw [counted, if_neg same, Nat.add_zero]

theorem subjects_erase {s p o : Nat} (present : (⟨s, p, o⟩ : Triple) ∈ T) :
    (T.image Triple.sub).card = ((T.erase ⟨s, p, o⟩).image Triple.sub).card +
      if s ∉ (T.erase ⟨s, p, o⟩).image Triple.sub then 1 else 0 := by
  conv_lhs => rw [← insert_erase present, image_insert]
  split
  · rename_i last
    exact card_insert_of_notMem last
  · rename_i more
    rw [insert_eq_of_mem (not_not.mp more), Nat.add_zero]

section Remove
variable {db : Database} {T : Finset Triple} (inv : db.Inv (· ∈ T)) {t : TripleWithObjType}
include inv

theorem removeTriple_exact (exact : db.Exact T) (whole : db.Intact)
    (several : db.isLastLoop t = false)
    (room : db.kvstore.Room (db.predicates.getID t.predicate)) :
    ∃ done next, db.removeTriple t = some (done, next) ∧
      ∃ U : Finset Triple, next.Inv (· ∈ U) ∧ next.Intact ∧ next.Exact U := by
  rcases removeTriple_cases inv t room with refused |
    ⟨s, p, o, kv, -, sub, pre, obj, present, -, holds, removed⟩
  · exact ⟨false, db, refused, T, inv, whole, exact⟩
  refine ⟨true, _, removed, T.erase ⟨s, p, o⟩, ?_⟩
  have kept := removal_inv inv t several sub pre obj present holds
  have shrinks := removal_shrinks db t s p o kv
  obtain ⟨triples, names, subjects, classes⟩ := removal_counts db t s p o kv
  generalize ((((db.unstore kv).dropSubject t s).dropObject t o).uncountType t).dropPredicate t p =
    next at *
  have inside : next.Inv (· ∈ T.erase ⟨s, p, o⟩) := by simpa only [mem_erase] using kept
  have whole' : next.Intact :=
    ⟨shrinks.entities.intact whole.entities, shrinks.literals.intact whole.literals,
    shrinks.predicates.intact whole.predicates⟩
  refine ⟨inside, whole', ?_, ?_, fun c => ?_⟩
  · rw [triples, exact.triples, card_erase_of_mem present]
    have := card_pos.mpr ⟨_, present⟩
    omega
  · rw [subjects, exact.subjects, subjects_erase present]
    have left : kv.Holds (· ∈ T.erase ⟨s, p, o⟩) := by simpa only [mem_erase] using holds
    simp only [mem_subjects left, ne_eq, not_not]
    split <;> simp
  · have before (c : String) : db.umap c = classEntry (next.instances (T.erase ⟨s, p, o⟩) c +
        if (t.isObjEntity && db.checkIsTypePredicate t.predicate && decide (t.object = c)) =
            true then 1 else 0) := by
      have same : ∀ u ∈ T.erase ⟨s, p, o⟩, db.isInstance c u = next.isInstance c u := fun u h =>
        isInstance_congr inside inv h names.symm shrinks.entities.strs shrinks.predicates.strs c
      rw [exact.classes c, ← isInstance_live inv pre obj (s := s),
        ← instances_insert (notMem_erase _ _) same, insert_erase present]
    rw [classes, uncountType]
    cases typed : t.isObjEntity && db.checkIsTypePredicate t.predicate with
    | true => exact uncountClass_classes t.object (fun c => by simpa [typed] using before c) c
    | false => simpa [typed] using before c

end Remove

/-- The dictionaries can take an inserted triple, its subject is new or has triples already, and an
instance of a class is not counted twice; a removal does not take the last triple of an entity that
is a self-loop; neither wraps a limit or a list around. -/
def Database.countedEdit (db : Database) : Edit → Prop
  | .insert t => db.Fits 0 t ∧ db.CanResolve t ∧
      (db.entities.getID t.subject = invalidID ∨
        db.kvstore.getEntityOutDegree (db.entities.getID t.subject) ≠ 0) ∧
      (t.isObjEntity = true → db.checkIsTypePredicate t.predicate = true → db.stores t = false)
  | .remove t => db.Fits 0 t ∧ db.isLastLoop t = false

instance (db : Database) (e : Edit) : Decidable (db.countedEdit e) :=
  match e with
  | .insert _ => inferInstanceAs (Decidable (_ ∧ _ ∧ _ ∧ _))
  | .remove _ => inferInstanceAs (Decidable (_ ∧ _))

theorem edit_exact (db : Database) (e : Edit)
    (kept : ∃ T : Finset Triple, db.Inv (· ∈ T) ∧ db.Intact ∧ db.Exact T)
    (counted : db.countedEdit e) :
    ∃ next, db.edit e = some next ∧ ∃ T :
    Finset Triple, next.Inv (· ∈ T) ∧ next.Intact ∧ next.Exact T := by
  obtain ⟨T, inv, whole, exact⟩ := kept
  cases e with
  | insert t =>
    exact ⟨_, rfl, insertTriple_exact inv exact whole counted.1 counted.2.1 counted.2.2.1
        counted.2.2.2⟩
  | remove t =>
    obtain ⟨done, next, ran, more⟩ := removeTriple_exact inv exact whole counted.2 counted.1.2
    exact ⟨next, by simp [edit, ran], more⟩

variable (names : List String)

theorem empty_exact : (empty names).Exact ∅ where
  triples := rfl
  subjects := rfl
  classes _ := rfl

theorem empty_intact : (empty names).Intact :=
  ⟨fun _ found => (by cases found), fun _ found => (by cases found), fun _ found => (by cases found)⟩

def typedEdits : List Edit :=
  [.insert ⟨"<a>", "<type>", "<c>", true⟩, .insert ⟨"<b>", "<type>", "<c>", true⟩,
    .remove ⟨"<a>", "<type>", "<c>", true⟩]

def switchingEdits : List Edit :=
  [.insert ⟨"<a>", "<p>", "<b>", true⟩, .insert ⟨"<b>", "<type>", "<c>", true⟩,
    .insert ⟨"<b>", "<type>", "<c>", true⟩]

end GStore
