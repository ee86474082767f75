import GStore.Database.BatchRemove
import GStore.Database.BatchTerms

/-! `Database::batch_insert` outside a transaction, against `insert`, which inserts the triples one
by one. -/
namespace GStore
open Lib List TripleWithObjType Database

def TermBatch.isNew (b : TermBatch) (str : String) : Bool :=
  decide (b.table.getID str = invalidID) && (b.map.lookup str).isNone

/-- The state of the loop over the triples; `subLists` and `objLists` are the sets `sub_lists` and
`obj_lists`. -/
structure BatchLoop where
  entities : TermBatch
  predicates : TermBatch
  literals : TermBatch
  subLists : List Nat
  objLists : List Nat
  updateNumSubject : Nat
  idTuples : List Triple

def BatchLoop.start (db : Database) : BatchLoop :=
  ⟨⟨db.entities, []⟩, ⟨db.predicates, []⟩, ⟨db.literals, []⟩, [], [], 0, []⟩

variable (st : BatchLoop) (t : TripleWithObjType)

def BatchLoop.addSubject : Nat × BatchLoop :=
  let (sub, entities) := st.entities.resolve t.subject
  if st.entities.isNew t.subject || (decide (sub ∈ st.objLists) && !decide (sub ∈ st.subLists)) then
    (sub, { st with
      entities := entities, subLists := sub :: st.subLists, updateNumSubject :=
        st.updateNumSubject + 1 })
  else (sub, { st with entities := entities })

def BatchLoop.addPredicate : Nat × BatchLoop :=
  let (pre, predicates) := st.predicates.resolve t.predicate
  (pre, { st with predicates := predicates })

def BatchLoop.addObject : Nat × BatchLoop :=
  if t.isObjEntity then
    let (obj, entities) := st.entities.resolve t.object
    (obj, { st with
      entities := entities, objLists :=
        if st.entities.isNew t.object then obj :: st.objLists else st.objLists })
  else
    let (obj, literals) := st.literals.resolve t.object
    (obj, { st with literals := literals })

def BatchLoop.add : BatchLoop :=
  let (sub, st) := st.addSubject t
  let (pre, st) := st.addPredicate t
  let (obj, st) := st.addObject t
  { st with idTuples := st.idTuples ++ [⟨sub, pre, obj⟩] }

def Database.enter (db : Database) (st : BatchLoop) : Database :=
  { db with entities := st.entities.commit, predicates := st.predicates.commit, literals := st.literals.commit }

def Database.batchInsert (db : Database) (triples : List TripleWithObjType) :
    Option (Nat × Database) :=
  if triples = [] then some (0, db)
  else
    let st := triples.foldl BatchLoop.add (.start db)
    ((db.enter st).updateIndexes true (uniqueTuples st.idTuples)).map fun (s, p, o, next) =>
      (s, { next with
        triplesNum := next.triplesNum + (max s (max p o) : Nat)
        subNum := next.subNum + st.updateNumSubject })

def TripleWithObjType.entityTerms : List String :=
  t.subject :: if t.isObjEntity then [t.object] else []

def TripleWithObjType.literalTerms : List String := if t.isObjEntity then [] else [t.object]

def TermTable.Names (tbl : TermTable) (str : String) : Prop :=
  tbl.getID str ≠ invalidID ∧ ∀ i, tbl.strs i = some str ↔ i + tbl.base = tbl.getID str

/-- A renaming of ids that keeps those of the terms that `db` knows. -/
structure Database.Renames (db : Database) (f g : Equiv.Perm Nat) : Prop where
  entities : ∀ i, db.entities.strs i ≠ none → f i = i
  literals : ∀ i, db.literals.strs i ≠ none → f (i + literalFirstID) = i + literalFirstID
  predicates : ∀ i, db.predicates.strs i ≠ none → g i = i

/-- The batch insertion does what `insert` does: the same triples up to the ids of new terms, one id
for every term of the list, and the number of different triples that were not stored. -/
structure Database.InsertsAsSingles (db : Database) (triples : List TripleWithObjType) (num : Nat)
    (next : Database) :
    Prop where
  same : ∃ (S U : Finset Triple) (f g : Equiv.Perm Nat), next.kvstore.Holds (· ∈ S) ∧
    (db.insert triples).kvstore.Holds (· ∈ U) ∧ db.Renames f g ∧
      U = S.image fun t => ⟨f t.sub, g t.pre, f t.obj⟩
  entities : ∀ str ∈ triples.flatMap entityTerms, next.entities.Names str
  predicates : ∀ str ∈ triples.map predicate, next.predicates.Names str
  literals : ∀ str ∈ triples.flatMap literalTerms, next.literals.Names str
  number : num = (triples.toFinset.filter fun t => db.stores t = false).card

/-- Every unknown term of the list is not empty, and each allocator has ids for its unknown terms.
-/
structure Database.CanTake (db : Database) (triples : List TripleWithObjType) : Prop where
  entities : db.entities.CanTake (triples.flatMap entityTerms)
  predicates : db.predicates.CanTake (triples.map predicate)
  literals : db.literals.CanTake (triples.flatMap literalTerms)

structure Database.Named (db : Database) (t : TripleWithObjType) (u : Triple) : Prop where
  sub : db.entities.strs u.sub = some t.subject
  pre : db.predicates.strs u.pre = some t.predicate
  obj : db.ObjectLive t.isObjEntity t.object u.obj

theorem addSubject_tables : (st.addSubject t).1 = (st.entities.resolve t.subject).1 ∧
      (st.addSubject t).2.entities = (st.entities.resolve t.subject).2 ∧
        (st.addSubject t).2.predicates = st.predicates ∧
      (st.addSubject t).2.literals = st.literals ∧ (st.addSubject t).2.idTuples = st.idTuples := by
  unfold BatchLoop.addSubject
  dsimp only
  split <;> exact ⟨rfl, rfl, rfl, rfl, rfl⟩

variable {t : TripleWithObjType}

theorem add_entity (kind : t.isObjEntity = true) (st : BatchLoop) :
    (st.add t).entities = ((st.entities.resolve t.subject).2.resolve t.object).2 ∧
      (st.add t).predicates = (st.predicates.resolve t.predicate).2 ∧
        (st.add t).literals = st.literals ∧
      (st.add t).idTuples = st.idTuples ++
        [⟨(st.entities.resolve t.subject).1, (st.predicates.resolve t.predicate).1,
        ((st.entities.resolve t.subject).2.resolve t.object).1⟩] := by
  simp [BatchLoop.add, BatchLoop.addPredicate, BatchLoop.addObject, kind, addSubject_tables]

theorem add_literal (kind : t.isObjEntity = false) (st : BatchLoop) :
    (st.add t).entities = (st.entities.resolve t.subject).2 ∧
      (st.add t).predicates = (st.predicates.resolve t.predicate).2 ∧
      (st.add t).literals = (st.literals.resolve t.object).2 ∧
      (st.add t).idTuples = st.idTuples ++
        [⟨(st.entities.resolve t.subject).1, (st.predicates.resolve t.predicate).1,
        (st.literals.resolve t.object).1⟩] := by
  simp [BatchLoop.add, BatchLoop.addPredicate, BatchLoop.addObject, kind, addSubject_tables]

theorem loop_tables (triples : List TripleWithObjType) (st : BatchLoop) :
    (triples.foldl BatchLoop.add st).entities = st.entities.resolveAll
      (triples.flatMap entityTerms) ∧
      (triples.foldl BatchLoop.add st).predicates = st.predicates.resolveAll
        (triples.map predicate) ∧
      (triples.foldl BatchLoop.add st).literals = st.literals.resolveAll
          (triples.flatMap literalTerms) := by
  induction triples generalizing st with
  | nil => exact ⟨rfl, rfl, rfl⟩
  | cons t triples ih =>
    obtain ⟨entities, predicates, literals⟩ := ih (st.add t)
    rw [foldl_cons, entities, predicates, literals]
    cases kind : t.isObjEntity with
    | true =>
      simp [add_entity kind, kind, entityTerms, literalTerms, TermBatch.resolveAll]
    | false =>
      simp [add_literal kind, kind, entityTerms, literalTerms, TermBatch.resolveAll]

variable {db : Database}

theorem resolveTerms_entity (kind : t.isObjEntity = true)
    (okS : (db.entities.resolve t.subject).ok = true)
      (okP : (db.predicates.resolve t.predicate).ok = true)
    (okO : ((db.entities.resolve t.subject).table.resolve t.object).ok = true) :
    ∃ next anyNew, db.resolveTerms t =
      (next, some ⟨(db.entities.resolve t.subject).id, (db.predicates.resolve t.predicate).id,
        ((db.entities.resolve t.subject).table.resolve t.object).id, anyNew⟩) ∧
      next.entities = ((db.entities.resolve t.subject).table.resolve t.object).table ∧
      next.predicates = (db.predicates.resolve t.predicate).table ∧
          next.literals = db.literals := by
  have counted : ∀ (d : Database) (typed : Bool) (c : String),
    (if typed = true then d.countClass c else d).entities = d.entities ∧
      (if typed = true then d.countClass c else d).predicates = d.predicates ∧
      (if typed = true then d.countClass c else d).literals = d.literals := by
    intro d typed c
    cases typed <;> exact ⟨rfl, rfl, rfl⟩
  simp only [resolveTerms, resolveSubject, resolvePredicate, resolveObject, kind, okS,
    okP, okO, if_true, Bool.not_true, Bool.false_eq_true, if_false, Bool.true_and]
  exact ⟨_, _, rfl, counted _ _ _⟩

theorem resolveTerms_literal (kind : t.isObjEntity = false)
    (okS : (db.entities.resolve t.subject).ok = true)
      (okP : (db.predicates.resolve t.predicate).ok = true)
    (okO : (db.literals.resolve t.object).ok = true) :
    ∃ next anyNew, db.resolveTerms t =
      (next, some ⟨(db.entities.resolve t.subject).id, (db.predicates.resolve t.predicate).id,
        (db.literals.resolve t.object).id, anyNew⟩) ∧
          next.entities = (db.entities.resolve t.subject).table ∧
      next.predicates = (db.predicates.resolve t.predicate).table ∧
          next.literals = (db.literals.resolve t.object).table := by
  simp only [resolveTerms, resolveSubject, resolvePredicate, resolveObject, kind, okS,
    okP, okO, Bool.not_true, Bool.false_eq_true, if_false]
  exact ⟨_, _, rfl, rfl, rfl, rfl⟩

structure BatchLoop.Follows (st : BatchLoop) (db₀ db : Database) (T : Triple → Prop)
    (seen : List TripleWithObjType) :
    Prop where
  entities : st.entities.Follows db.entities
  predicates : st.predicates.Follows db.predicates
  literals : st.literals.Follows db.literals
  inv : db.Inv fun u => T u ∨ u ∈ st.idTuples
  whole : db.Intact
  keepsEntities : ∀ i str, db₀.entities.strs i = some str → db.entities.strs i = some str
  keepsPredicates : ∀ i str, db₀.predicates.strs i = some str → db.predicates.strs i = some str
  keepsLiterals : ∀ i str, db₀.literals.strs i = some str → db.literals.strs i = some str
  named : List.Forall₂ db.Named seen st.idTuples

variable {T : Triple → Prop}

theorem follows_loop_start (inv : db.Inv T) (whole : db.Intact) :
    (BatchLoop.start db).Follows db db T [] where
  entities := follows_start _
  predicates := follows_start _
  literals := follows_start _
  inv := by simpa [BatchLoop.start] using inv
  whole := whole
  keepsEntities _ _ h := h
  keepsPredicates _ _ h := h
  keepsLiterals _ _ h := h
  named := .nil

variable {next : Database}

theorem Database.Named.grow {u : Triple} (named : db.Named t u)
    (entities : ∀ i str, db.entities.strs i = some str → next.entities.strs i = some str)
    (predicates : ∀ i str, db.predicates.strs i = some str → next.predicates.strs i = some str)
    (literals : ∀ i str, db.literals.strs i = some str → next.literals.strs i = some str) :
      next.Named t u where
  sub := entities _ _ named.sub
  pre := predicates _ _ named.pre
  obj := by
    have obj := named.obj
    unfold Database.ObjectLive at obj ⊢
    split at obj
    · rw [if_pos ‹_›]
      exact ⟨entities _ _ obj.1, obj.2⟩
    · rw [if_neg ‹_›]
      exact ⟨literals _ _ obj.1, obj.2⟩

variable {ids : TripleIDs}

theorem insertTriple_stores (inv : db.Inv T) (fits : db.Fits 0 t)
    (found : (db.resolveTerms t).2 = some ids) :
    (db.insertTriple t).2.Inv (fun u => T u ∨ u = ⟨ids.sub, ids.pre, ids.obj⟩) ∧
      (db.insertTriple t).2.entities = (db.resolveTerms t).1.entities ∧
      (db.insertTriple t).2.predicates = (db.resolveTerms t).1.predicates ∧
      (db.insertTriple t).2.literals = (db.resolveTerms t).1.literals := by
  obtain ⟨grows, -, resolved⟩ := resolveTerms_inv inv t fits.1
  rcases insertTriple_cases inv t fits.1 with ⟨refused, old⟩ | ⟨ids', found', absent, stored⟩
  · rw [refused]
    refine ⟨?_, rfl, rfl, rfl⟩
    have present := (old ids found).2
    have same : (fun u => T u ∨ u = ⟨ids.sub, ids.pre, ids.obj⟩) = T := by
      funext u
      exact propext ⟨fun h => h.elim id fun same => same ▸ present, .inl⟩
    rw [same]
    exact inv.grow grows
  · obtain rfl : ids' = ids := Option.some.inj (found'.symm.trans found)
    rw [stored]
    refine ⟨?_, rfl, rfl, rfl⟩
    have kept : Database.Inv { (db.resolveTerms t).1 with
        triplesNum := (db.resolveTerms t).1.triplesNum + 1
        kvstore := (db.resolveTerms t).1.kvstore.updateTupleslistInsert ids'.sub ids'.pre ids'.obj }
            _ :=
      (inv.grow grows).store ((resolved ids' found).room inv grows fits.2)
        (resolved ids' found) absent rfl rfl rfl rfl
    simpa only [or_comm] using kept

variable {seen : List TripleWithObjType} {st : BatchLoop} {db₀ : Database}

theorem BatchLoop.Follows.insert {next : BatchLoop}
    (follows : st.Follows db₀ db T seen) (fits : db.Fits 0 t)
      (found : (db.resolveTerms t).2 = some ids)
    (entities : next.entities.Follows (db.resolveTerms t).1.entities)
    (predicates : next.predicates.Follows (db.resolveTerms t).1.predicates)
    (literals : next.literals.Follows (db.resolveTerms t).1.literals)
    (tuples : next.idTuples = st.idTuples ++ [⟨ids.sub, ids.pre, ids.obj⟩])
    (whole : (db.resolveTerms t).1.Intact) :
        next.Follows db₀ (db.insertTriple t).2 T (seen ++ [t]) := by
  obtain ⟨inv, sameE, sameP, sameL⟩ := insertTriple_stores follows.inv fits found
  obtain ⟨grows, -, resolved⟩ := resolveTerms_inv follows.inv t fits.1
  have live := resolved ids found
  rw [← sameE] at entities
  rw [← sameP] at predicates
  rw [← sameL] at literals
  have keepsE : ∀ i str, db.entities.strs i = some str →
      (db.insertTriple t).2.entities.strs i = some str :=
    sameE ▸ grows.entities.keeps
  have keepsP : ∀ i str, db.predicates.strs i = some str →
      (db.insertTriple t).2.predicates.strs i = some str :=
    sameP ▸ grows.predicates.keeps
  have keepsL : ∀ i str, db.literals.strs i = some str →
      (db.insertTriple t).2.literals.strs i = some str :=
    sameL ▸ grows.literals.keeps
  refine ⟨entities, predicates, literals, ?_,
      ⟨sameE ▸ whole.entities, sameL ▸ whole.literals, sameP ▸ whole.predicates⟩,
    fun i str h => keepsE i str (follows.keepsEntities i str h), fun i str h => keepsP i str
      (follows.keepsPredicates i str h),
    fun i str h => keepsL i str (follows.keepsLiterals i str h), ?_⟩
  · simpa only [tuples, mem_append, mem_singleton, or_assoc] using inv
  · rw [tuples]
    refine rel_append (follows.named.imp fun t u named => named.grow keepsE keepsP keepsL)
      (.cons ⟨?_, ?_, ?_⟩ .nil)
    · rw [sameE]
      exact live.sub
    · rw [sameP]
      exact live.pre
    · have obj := live.obj
      unfold Database.ObjectLive at obj ⊢
      rwa [sameE, sameL]

theorem BatchLoop.Follows.add {rest : List TripleWithObjType}
    (follows : st.Follows db₀ db T seen) (fits : db.Fits 0 t) (can : db.CanTake (t :: rest)) :
    (st.add t).Follows db₀ (db.insertTriple t).2 T (seen ++ [t]) ∧
        (db.insertTriple t).2.CanTake rest := by
  have entities := can.entities
  have literals := can.literals
  rw [flatMap_cons, entityTerms, cons_append] at entities
  rw [flatMap_cons, literalTerms] at literals
  have two := fits.1.mono (Nat.le_succ 2)
  have one := two.mono (Nat.le_succ 1)
  have spareS := (resolve_spec follows.inv.entities one.1 t.subject).spare 1 two.1
  obtain ⟨okP, canP, -, wholeP⟩ :=
    can.predicates.resolve follows.inv.predicates follows.whole.predicates one.2.2
  obtain ⟨okS, canS, soundS, wholeS⟩ :=
    entities.resolve follows.inv.entities follows.whole.entities one.1
  obtain ⟨sub, subFollows⟩ :=
    follows.entities.resolve follows.inv.entities follows.whole.entities one.1 okS
  obtain ⟨pre, preFollows⟩ :=
    follows.predicates.resolve follows.inv.predicates follows.whole.predicates one.2.2 okP
  cases kind : t.isObjEntity with
  | true =>
    rw [kind, if_pos rfl] at canS literals
    obtain ⟨okO, canO, -, wholeO⟩ := canS.resolve soundS wholeS spareS
    obtain ⟨obj, objFollows⟩ := subFollows.resolve soundS wholeS spareS okO
    obtain ⟨next, anyNew, ran, nextE, nextP, nextL⟩ := resolveTerms_entity kind okS okP okO
    obtain ⟨addE, addP, addL, tuples⟩ := add_entity kind st
    have found : (db.resolveTerms t).2 = some _ := congrArg Prod.snd ran
    have tables : (db.resolveTerms t).1 = next := congrArg Prod.fst ran
    obtain ⟨-, sameE, sameP, sameL⟩ := insertTriple_stores follows.inv fits found
    rw [tables] at sameE sameP sameL
    refine ⟨follows.insert fits found ?_ ?_ ?_ (by rw [tuples, sub, pre, obj]) ?_, ?_, ?_, ?_⟩
    · rw [tables, nextE, addE]
      exact objFollows
    · rw [tables, nextP, addP]
      exact preFollows
    · rw [tables, nextL, addL]
      exact follows.literals
    · rw [tables]
      exact ⟨nextE ▸ wholeO, nextL ▸ follows.whole.literals, nextP ▸ wholeP⟩
    · rw [sameE, nextE]
      exact canO
    · rw [sameP, nextP]
      exact canP
    · rw [sameL, nextL]
      exact literals
  | false =>
    rw [kind, if_neg Bool.false_ne_true] at canS literals
    obtain ⟨okO, canO, -, wholeO⟩ :=
      literals.resolve follows.inv.literals follows.whole.literals one.2.1
    obtain ⟨obj, objFollows⟩ :=
      follows.literals.resolve follows.inv.literals follows.whole.literals one.2.1 okO
    obtain ⟨next, anyNew, ran, nextE, nextP, nextL⟩ := resolveTerms_literal kind okS okP okO
    obtain ⟨addE, addP, addL, tuples⟩ := add_literal kind st
    have found : (db.resolveTerms t).2 = some _ := congrArg Prod.snd ran
    have tables : (db.resolveTerms t).1 = next := congrArg Prod.fst ran
    obtain ⟨-, sameE, sameP, sameL⟩ := insertTriple_stores follows.inv fits found
    rw [tables] at sameE sameP sameL
    refine ⟨follows.insert fits found ?_ ?_ ?_ (by rw [tuples, sub, pre, obj]) ?_, ?_, ?_, ?_⟩
    · rw [tables, nextE, addE]
      exact subFollows
    · rw [tables, nextP, addP]
      exact preFollows
    · rw [tables, nextL, addL]
      exact objFollows
    · rw [tables]
      exact ⟨nextE ▸ wholeS, nextL ▸ wholeO, nextP ▸ wholeP⟩
    · rw [sameE, nextE]
      exact canS
    · rw [sameP, nextP]
      exact canP
    · rw [sameL, nextL]
      exact canO

/-- The sizes below which `n` insertions wrap nothing around. -/
structure Database.Takes (db : Database) (n : Nat) : Prop where
  spare : db.Spare (3 * n)
  room : ∃ pairs, pairs + n < 2 ^ 31 ∧ ∀ p, valuesLen (db.kvstore.getValueByKey ⟨.predicate, p⟩) ≤
    2 * pairs + 1

theorem Database.Takes.fits {n : Nat} (takes : db.Takes (n + 1)) : db.Fits (3 * n) t := by
  obtain ⟨pairs, few, lists⟩ := takes.room
  have list := lists (db.predicates.getID t.predicate)
  exact ⟨takes.spare, by unfold KVstore.Room; omega⟩

theorem Database.Fits.mono {m n : Nat} (fits : db.Fits n t) (less : m ≤ n) : db.Fits m t :=
  ⟨fits.1.mono (by omega), fits.2⟩

theorem Database.Takes.insert {n : Nat} (inv : db.Inv T) (takes : db.Takes (n + 1)) :
    (db.insertTriple t).2.Takes n := by
  have fits := takes.fits (t := t)
  obtain ⟨grows, -, resolved⟩ := resolveTerms_inv inv t fits.1
  refine ⟨(insertTriple_inv inv t fits).2, ?_⟩
  obtain ⟨pairs, few, lists⟩ := takes.room
  refine ⟨pairs + 1, by omega, fun p => ?_⟩
  rcases insertTriple_cases inv t (fits.1.mono (Nat.le_add_left _ _)) with ⟨refused, -⟩ |
    ⟨ids, found, -, stored⟩
  · rw [refused, grows.kvstore]
    exact (lists p).trans (by omega)
  · obtain ⟨sub, pre, obj⟩ := (resolved ids found).fits (inv.grow grows)
    rw [stored]
    dsimp only
    rw [grows.kvstore]
    refine (updateTupleslistInsert_length inv.holds.allocated
        ⟨⟨ids.sub, ids.pre, ids.obj⟩, sub, pre, obj⟩ (lists p)).trans ?_
    split <;> omega

variable {triples : List TripleWithObjType}

theorem loop_follows (follows : st.Follows db₀ db T seen) (takes : db.Takes triples.length)
    (can : db.CanTake triples) :
    (triples.foldl BatchLoop.add st).Follows db₀ (db.insert triples) T (seen ++ triples) := by
  induction triples generalizing db st seen with
  | nil => simpa [Database.insert] using follows
  | cons t triples ih =>
    obtain ⟨next, rest⟩ := follows.add (takes.fits.mono (Nat.zero_le _)) can
    simpa [Database.insert] using ih next (takes.insert follows.inv) rest

section Ids

variable {db : Database} {T : Triple → Prop} (inv : db.Inv T)
include inv

theorem named_iff_encode {u : Triple} : db.Named t u ↔ db.encode t = some u := by
  have sub : db.entities.strs u.sub = some t.subject ↔ db.entities.getID t.subject = u.sub ∧
      u.sub ≠ invalidID := by
    rw [inv.entities.strs_iff, inv.entityBase, Nat.add_zero]
  have pre : db.predicates.strs u.pre = some t.predicate ↔ db.predicates.getID t.predicate = u.pre ∧
      u.pre ≠ invalidID := by
    rw [inv.predicates.strs_iff, inv.predicateBase, Nat.add_zero]
  have obj : db.ObjectLive t.isObjEntity t.object u.obj ↔ db.getObjID t = u.obj ∧
      u.obj ≠ invalidID := by
    unfold Database.ObjectLive getObjID
    cases kind : t.isObjEntity with
    | true =>
      have live : db.entities.strs u.obj = some t.object ↔ db.entities.getID t.object = u.obj ∧
          u.obj ≠ invalidID := by
        rw [inv.entities.strs_iff, inv.entityBase, Nat.add_zero]
      simp only [if_true]
      exact ⟨fun h => live.mp h.1,
          fun h => ⟨live.mpr h, isEntityEle_of_lt (inv.entities.live _ _ (live.mpr h)).2.2⟩⟩
    | false =>
      simp only [Bool.false_eq_true, if_false]
      constructor
      · rintro ⟨back, literal, -⟩
        have large : literalFirstID ≤ u.obj := by simpa [isEntityEle] using literal
        rwa [inv.literals.strs_iff, inv.literalBase, Nat.sub_add_cancel large] at back
      · rintro ⟨id, valid⟩
        obtain ⟨i, found, -, back, small⟩ := inv.literals.getID (id ▸ valid)
        rw [inv.literalBase] at found
        rw [← id, found, Nat.add_sub_cancel]
        exact ⟨back, decide_eq_false (by omega), by omega⟩
  constructor
  · rintro ⟨s, p, o⟩
    obtain ⟨⟨s, s'⟩, ⟨p, p'⟩, ⟨o, o'⟩⟩ := (⟨sub.mp s, pre.mp p, obj.mp o⟩ : _ ∧ _ ∧ _)
    simp [encode, s, p, o, s', p', o']
  · intro found
    unfold encode at found
    dsimp only at found
    split at found
    · cases found
    · rename_i valid
      simp only [not_or] at valid
      cases found
      exact ⟨sub.mpr ⟨rfl, valid.1⟩, pre.mpr ⟨rfl, valid.2.1⟩, obj.mpr ⟨rfl, valid.2.2⟩⟩

omit inv in
theorem named_injective {t' : TripleWithObjType} {u : Triple} (left : db.Named t u)
    (right : db.Named t' u) : t = t' := by
  have objects := left.obj
  have objects' := right.obj
  obtain ⟨subject, predicate, object, isObjEntity⟩ := t
  obtain ⟨subject', predicate', object', isObjEntity'⟩ := t'
  have sub := Option.some.inj (left.sub.symm.trans right.sub)
  have pre := Option.some.inj (left.pre.symm.trans right.pre)
  cases isObjEntity <;> cases isObjEntity' <;> simp_all [Database.ObjectLive]

theorem Database.Inv.fits {t : Triple} (present : T t) (type : IDType) : (t.key type).Fits := by
  have room : literalFirstID < maxKeyNum := by decide
  obtain ⟨sub, subLive⟩ := inv.subLive t present
  obtain ⟨pre, preLive⟩ := inv.preLive t present
  have subSmall := (inv.entities.live _ _ subLive).2.2
  have preSmall := (inv.predicates.live _ _ preLive).2.2
  have objSmall : t.obj < literalFirstID + maxKeyNum := by
    cases kind : isEntityEle t.obj with
    | true =>
      obtain ⟨obj, live⟩ := inv.objEntity t present kind
      have := (inv.entities.live _ _ live).2.2
      omega
    | false =>
      obtain ⟨obj, live⟩ := inv.objLiteral t present kind
      have := (inv.literals.live _ _ live).2.2
      omega
  let id : IdTriple := ⟨t, by omega, by omega, objSmall⟩
  cases type with
  | subject => exact id.subKey_fits
  | predicate => exact id.preKey_fits
  | object => exact id.objKey_fits

end Ids

theorem TermTable.Sound.names {tbl : TermTable} (sound : tbl.Sound) {i : Nat} {str : String}
    (back : tbl.strs i = some str) :
    tbl.Names str := by
  obtain ⟨value, valid⟩ := sound.getID_live back
  refine ⟨valid, fun j => ⟨fun other => (sound.getID_live other).1.symm, fun same => ?_⟩⟩
  rw [value] at same
  rwa [Nat.add_right_cancel same]

theorem stores_iff_named (inv : db.Inv T) (t : TripleWithObjType) :
    db.stores t = true ↔ ∃ u, T u ∧ db.Named t u := by
  constructor
  · intro stored
    simp only [stores, Bool.and_eq_true, Bool.not_eq_true', decide_eq_false_iff_not] at stored
    have named : db.Named t ⟨_, _, _⟩ := (named_iff_encode inv).mpr (if_neg stored.1)
    have entity := isEntityEle_of_lt (inv.entities.live _ _ named.sub).2.2
    exact ⟨_, (existTriple_iff inv.holds entity _ _).mp stored.2, named⟩
  · rintro ⟨u, present, named⟩
    have entity := isEntityEle_of_lt (inv.entities.live _ _ named.sub).2.2
    exact (stores_of_live inv t named.sub named.pre named.obj
        ((existTriple_iff inv.holds entity _ _).mpr present)).1

section Count

variable {st : BatchLoop} {db single : Database} {S : Finset Triple}
    {triples : List TripleWithObjType}
  (inv : db.Inv (· ∈ S)) (follows : st.Follows db single (· ∈ S) triples)
include follows

theorem encoded_tuples (u : Triple) : u ∈ st.idTuples ↔ ∃ t ∈ triples, single.Named t u := by
  have related : List.Forall₂ (fun t u => single.encode t = some u) triples st.idTuples :=
    follows.named.imp fun t u named => (named_iff_encode follows.inv).mp named
  have mapped : triples.map single.encode = st.idTuples.map some := by
    rw [← forall₂_eq_eq_eq, forall₂_map_left_iff, forall₂_map_right_iff]
    exact related
  have member : some u ∈ st.idTuples.map some ↔ u ∈ st.idTuples := by simp
  rw [← member, ← mapped, mem_map]
  simp [named_iff_encode follows.inv]

theorem exists_tuple (member : t ∈ triples) : ∃ u, single.Named t u := by
  obtain ⟨i, bound, rfl⟩ := mem_iff_getElem.mp member
  have length := follows.named.length_eq
  exact ⟨_, follows.named.get bound (length ▸ bound)⟩

include inv

theorem stores_iff_mem {u : Triple} (named : single.Named t u) : db.stores t = true ↔ u ∈ S := by
  rw [stores_iff_named inv]
  constructor
  · rintro ⟨v, present, before⟩
    have after := before.grow follows.keepsEntities follows.keepsPredicates follows.keepsLiterals
    have same := ((named_iff_encode follows.inv).mp named).symm.trans
      ((named_iff_encode follows.inv).mp after)
    rwa [Option.some.inj same]
  · intro present
    refine ⟨u, present, ?_, ?_, ?_⟩
    · obtain ⟨str, live⟩ := inv.subLive u present
      rw [live, ← named.sub, follows.keepsEntities _ _ live]
    · obtain ⟨str, live⟩ := inv.preLive u present
      rw [live, ← named.pre, follows.keepsPredicates _ _ live]
    · have obj := named.obj
      unfold Database.ObjectLive at obj ⊢
      split at obj
      · rw [if_pos ‹_›]
        obtain ⟨str, live⟩ := inv.objEntity u present obj.2
        rw [follows.keepsEntities _ _ live] at obj
        exact ⟨live.trans obj.1, obj.2⟩
      · rw [if_neg ‹_›]
        obtain ⟨str, live⟩ := inv.objLiteral u present obj.2.1
        rw [follows.keepsLiterals _ _ live] at obj
        exact ⟨live.trans obj.1, obj.2⟩

theorem count_new_tuples :
    (st.idTuples.toFinset \ S).card =
        (triples.toFinset.filter fun t => db.stores t = false).card := by
  have chosen : ∀ t ∈ triples.toFinset.filter fun t => db.stores t = false, ∃ u, single.Named t u :=
      fun t member =>
    exists_tuple follows (mem_toFinset.mp (Finset.mem_filter.mp member).1)
  refine (Finset.card_bij (fun t member => (chosen t member).choose) ?_ ?_ ?_).symm
  · intro t member
    have named := (chosen t member).choose_spec
    obtain ⟨inside, absent⟩ := Finset.mem_filter.mp member
    refine Finset.mem_sdiff.mpr
      ⟨mem_toFinset.mpr ((encoded_tuples follows _).mpr ⟨t, mem_toFinset.mp inside, named⟩), ?_⟩
    intro present
    rw [(stores_iff_mem inv follows named).mpr present] at absent
    cases absent
  · intro t member t' member' same
    have named := (chosen t member).choose_spec
    rw [same] at named
    exact named_injective named (chosen t' member').choose_spec
  · intro u member
    obtain ⟨inside, absent⟩ := Finset.mem_sdiff.mp member
    obtain ⟨t, listed, named⟩ := (encoded_tuples follows u).mp (mem_toFinset.mp inside)
    have new : db.stores t = false :=
      Bool.eq_false_iff.mpr fun stored => absent ((stores_iff_mem inv follows named).mp stored)
    have present : t ∈ triples.toFinset.filter fun t => db.stores t = false :=
      Finset.mem_filter.mpr ⟨mem_toFinset.mpr listed, new⟩
    refine ⟨t, present, ?_⟩
    have same := ((named_iff_encode follows.inv).mp (chosen t present).choose_spec).symm.trans
      ((named_iff_encode follows.inv).mp named)
    exact Option.some.inj same

end Count

theorem batchInsert_tables {num : Nat} (ran : db.batchInsert triples = some (num, next)) :
    next.entities = (TermBatch.resolveAll ⟨db.entities, []⟩ (triples.flatMap entityTerms)).commit ∧
      next.predicates = (TermBatch.resolveAll ⟨db.predicates, []⟩ (triples.map predicate)).commit ∧
      next.literals = (TermBatch.resolveAll ⟨db.literals, []⟩
            (triples.flatMap literalTerms)).commit := by
  rw [batchInsert] at ran
  split_ifs at ran with empty
  · subst empty
    obtain ⟨-, rfl⟩ := Prod.mk.inj (Option.some.inj ran)
    exact ⟨rfl, rfl, rfl⟩
  · obtain ⟨entities, predicates, literals⟩ := loop_tables triples (.start db)
    obtain ⟨⟨s, p, o, last⟩, updated, same⟩ := Option.map_eq_some_iff.mp ran
    obtain ⟨-, rfl⟩ := Prod.mk.inj same
    have terms := updateIndexes_frame updated
    exact ⟨terms.entities.trans (congrArg TermBatch.commit entities),
      terms.predicates.trans (congrArg TermBatch.commit predicates), terms.literals.trans
        (congrArg TermBatch.commit literals)⟩

variable {S : Finset Triple}

theorem batchInsert_follows (inv : db.Inv (· ∈ S)) (whole : db.Intact)
    (filled : triples ≠ []) (takes : db.Takes triples.length) (can : db.CanTake triples) :
    ∃ (st : BatchLoop) (next : Database), st.Follows db (db.insert triples) (· ∈ S) triples ∧
      db.batchInsert triples = some ((st.idTuples.toFinset \ S).card, next) ∧
      next.kvstore.Holds (· ∈ S ∪ st.idTuples.toFinset) ∧
        next.entities = (db.insert triples).entities ∧
      next.predicates = (db.insert triples).predicates ∧
          next.literals = (db.insert triples).literals := by
  have follows := loop_follows (follows_loop_start inv whole) takes can
  rw [nil_append] at follows
  obtain ⟨st, loop⟩ : ∃ st, triples.foldl BatchLoop.add (.start db) = st := ⟨_, rfl⟩
  rw [loop] at follows
  have nonempty : uniqueTuples st.idTuples ≠ [] := by
    intro empty
    obtain ⟨t, listed⟩ := exists_mem_of_ne_nil _ filled
    obtain ⟨u, named⟩ := exists_tuple follows listed
    have member := mem_uniqueTuples.mpr ((encoded_tuples follows u).mpr ⟨t, listed, named⟩)
    simp [empty] at member
  have holds : (db.enter st).kvstore.Holds (· ∈ S) := inv.holds
  obtain ⟨next, updated, terms, left⟩ :=
    updateIndexes_spec true nonempty (uniqueTuples_increasing st.idTuples) holds
    fun _ u member type => follows.inv.fits (.inr (mem_uniqueTuples.mp member)) type
  have number : (uniqueTuples st.idTuples).countP (fun t => decide (alters true (t ∈ S))) =
      (st.idTuples.toFinset \ S).card := by
    have nodup : (uniqueTuples st.idTuples).Nodup :=
      List.Nodup.of_map _ (increasing_nodup (uniqueTuples_increasing st.idTuples))
    rw [countP_eq_length_filter, ← toFinset_card_of_nodup (nodup.filter _)]
    congr 1
    ext t
    simp [alters, mem_uniqueTuples]
  refine ⟨st, { next with
    triplesNum := next.triplesNum + (max (st.idTuples.toFinset \ S).card
      (max (st.idTuples.toFinset \ S).card (st.idTuples.toFinset \ S).card) : Nat)
    subNum := next.subNum + st.updateNumSubject }, follows, ?_, ?_, ?_, ?_, ?_⟩
  · simp [batchInsert, if_neg filled, loop, updated, number, Option.map_some]
  · exact holds_congr left fun t => by simp [edited, mem_uniqueTuples]
  · exact terms.entities.trans follows.entities.committed
  · exact terms.predicates.trans follows.predicates.committed
  · exact terms.literals.trans follows.literals.committed

theorem terms_length (triples : List TripleWithObjType) :
    (triples.flatMap entityTerms).length ≤ 2 * triples.length ∧
      (triples.flatMap literalTerms).length ≤ triples.length := by
  induction triples with
  | nil => simp
  | cons t triples ih =>
    obtain ⟨two, one⟩ := ih
    simp only [flatMap_cons, length_append, length_cons, entityTerms, literalTerms]
    split <;> simp only [length_cons, length_nil] <;> omega

theorem canTake_of_inserts (inv : db.Inv (· ∈ S)) (whole : db.Intact)
    (takes : db.Takes triples.length)
    {num : Nat} (ran : db.batchInsert triples = some (num, next))
    (equal : db.InsertsAsSingles triples num next) : db.CanTake triples := by
  obtain ⟨entities, predicates, literals⟩ := batchInsert_tables ran
  obtain ⟨two, one⟩ := terms_length triples
  have spare := takes.spare
  exact ⟨canTake_of_named inv.entities whole.entities
      (spare.1.mono (by omega)) fun str member => entities ▸ (equal.entities str member).1,
    canTake_of_named inv.predicates whole.predicates
      (spare.2.2.mono (by rw [length_map]; omega)) fun str member => predicates ▸ (equal.predicates str member).1,
    canTake_of_named inv.literals whole.literals
      (spare.2.1.mono (by omega)) fun str member => literals ▸ (equal.literals str member).1⟩

/-- After the insertions the database stores the string triples that it stored before and those of
the list. -/
theorem insert_adds_triples (inv : db.Inv (· ∈ S)) (whole : db.Intact)
    (takes : db.Takes triples.length) (can : db.CanTake triples)
    (t : TripleWithObjType) : (db.insert triples).stores t = true ↔ db.stores t = true ∨
        t ∈ triples := by
  have follows := loop_follows (follows_loop_start inv whole) takes can
  rw [nil_append] at follows
  rw [stores_iff_named follows.inv]
  constructor
  · rintro ⟨u, old | new, named⟩
    · exact .inl ((stores_iff_mem inv follows named).mpr old)
    · obtain ⟨x, listed, other⟩ := (encoded_tuples follows u).mp new
      exact .inr (named_injective named other ▸ listed)
  · rintro (old | listed)
    · obtain ⟨u, present, named⟩ := (stores_iff_named inv t).mp old
      exact ⟨u, .inl present, named.grow follows.keepsEntities follows.keepsPredicates
          follows.keepsLiterals⟩
    · obtain ⟨u, named⟩ := exists_tuple follows listed
      exact ⟨u, .inr ((encoded_tuples follows u).mpr ⟨t, listed, named⟩), named⟩

theorem insert_adds_literal_and_loop :
    let triples : List TripleWithObjType :=
      [⟨"<a>", "<p>", "<a>", true⟩, ⟨"<a>", "<p>", "<a>", false⟩]
    ((empty []).insert triples).stores ⟨"<a>", "<p>", "<a>", false⟩ = true := by
  have inv : (empty []).Inv (· ∈ (∅ : Finset Triple)) := by simpa using empty_inv []
  exact (insert_adds_triples inv (empty_intact [])
      ⟨by decide, 0, by decide, fun _ => Nat.zero_le _⟩ ⟨⟨by decide, by decide⟩, ⟨by decide, by decide⟩, by decide, by decide⟩ _).mpr
    (.inr (by decide))

/-- `batch_insert` does what `insert` does, with one id per term and the number of new triples,
exactly when every unknown term is not empty and the allocators have ids for the unknown terms. -/
theorem batch_insert_matches_insert_iff (db : Database) (S : Finset Triple) (inv : db.Inv (· ∈ S))
    (whole : db.Intact)
    (triples : List TripleWithObjType) (takes : db.Takes triples.length) :
    (∃ num next, db.batchInsert triples = some (num, next) ∧ db.InsertsAsSingles triples num next) ↔
      db.CanTake triples := by
  constructor
  · rintro ⟨num, next, ran, equal⟩
    exact canTake_of_inserts inv whole takes ran equal
  · intro can
    obtain rfl | filled := eq_or_ne triples []
    · refine ⟨0, db, by simp [batchInsert], ⟨S, S, 1, 1, inv.holds, inv.holds, ⟨?_, ?_, ?_⟩, ?_⟩, ?_, ?_, ?_, ?_⟩ <;> simp
    obtain ⟨st, next, follows, ran, holds, entities, predicates, literals⟩ :=
      batchInsert_follows inv whole filled takes can
    refine ⟨_, next, ran, ⟨S ∪ st.idTuples.toFinset, S ∪ st.idTuples.toFinset, 1, 1, holds, ?_,
        ⟨?_, ?_, ?_⟩, ?_⟩, ?_, ?_, ?_,
      count_new_tuples inv follows⟩
    · exact holds_congr follows.inv.holds fun t => by simp
    · simp
    · simp
    · simp
    · simp
    · intro str member
      obtain ⟨t, listed, term⟩ := mem_flatMap.mp member
      obtain ⟨u, named⟩ := exists_tuple follows listed
      rw [entities]
      rcases mem_cons.mp term with rfl | object
      · exact follows.inv.entities.names named.sub
      · have obj := named.obj
        split_ifs at object with kind
        · rw [kind, Database.ObjectLive, if_pos rfl] at obj
          rw [mem_singleton.mp object]
          exact follows.inv.entities.names obj.1
        · cases object
    · intro str member
      obtain ⟨t, listed, rfl⟩ := mem_map.mp member
      obtain ⟨u, named⟩ := exists_tuple follows listed
      rw [predicates]
      exact follows.inv.predicates.names named.pre
    · intro str member
      obtain ⟨t, listed, term⟩ := mem_flatMap.mp member
      obtain ⟨u, named⟩ := exists_tuple follows listed
      have obj := named.obj
      rw [literals]
      unfold literalTerms at term
      split at term
      · cases term
      · rename_i kind
        rw [Bool.eq_false_iff.mpr kind, Database.ObjectLive, if_neg Bool.false_ne_true] at obj
        rw [mem_singleton.mp term]
        exact follows.inv.literals.names obj.1

/-- Two triples that share new terms, one of them repeated. -/
theorem batch_insert_matches_insert_shared :
    let triples : List TripleWithObjType :=
      [⟨"<a>", "<p>", "<b>", true⟩, ⟨"<b>", "<p>", "\"x\"", false⟩, ⟨"<a>", "<p>", "<b>", true⟩]
    (empty []).Intact ∧ ∃ num next, (empty []).batchInsert triples = some (num, next) ∧
      (empty []).InsertsAsSingles triples num next := by
  intro triples
  have inv : (empty []).Inv (· ∈ (∅ : Finset Triple)) := by simpa using empty_inv []
  refine ⟨empty_intact [], (batch_insert_matches_insert_iff _ ∅ inv (empty_intact []) triples
    ⟨by decide, 0, by decide, fun _ => Nat.zero_le _⟩).mpr ⟨?_, ?_, ?_⟩⟩
  · exact ⟨by decide, by decide⟩
  · exact ⟨by decide, by decide⟩
  · exact ⟨by decide, by decide⟩

/-- A triple with the empty string as object: `insert` refuses it, the batch stores it and gives its
object no id. -/
theorem empty_term_not_inserted_as_single :
    let t : TripleWithObjType := ⟨"<a>", "<p>", "", false⟩
    ((Database.empty []).insertTriple t).1 = false ∧
      ((Database.empty []).batchInsert [t]).map Prod.fst = some 1 ∧
      ¬ ∃ num next, (Database.empty []).batchInsert [t] = some (num, next) ∧
        (Database.empty []).InsertsAsSingles [t] num next := by
  intro t
  have inv : (empty []).Inv (· ∈ (∅ : Finset Triple)) := by simpa using empty_inv []
  refine ⟨by decide, by decide +kernel, ?_⟩
  rintro ⟨num, next, ran, equal⟩
  have can := canTake_of_inserts inv
    (empty_intact []) ⟨by decide, 0, by decide, fun _ => Nat.zero_le _⟩ ran equal
  exact can.literals.1 "" (by decide) (by decide) rfl

end GStore
