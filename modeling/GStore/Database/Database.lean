import GStore.KVstore.Reads
import GStore.Database.Terms

/-! `Database::insertTriple` and `Database::removeTriple` outside a transaction: dictionaries, id
allocators, triple counters and class statistics around the three indexes. -/
namespace GStore
open Lib

structure TripleWithObjType where
  subject : String
  predicate : String
  object : String
  isObjEntity : Bool
  deriving DecidableEq, Repr

structure Database where
  kvstore : KVstore
  entities : TermTable
  literals : TermTable
  predicates : TermTable
  subNum : Int
  triplesNum : Int
  umap : String → Option Nat
  typePredicateName : List String

def Database.empty (typePredicateName : List String) : Database :=
  ⟨KVstore.empty, TermTable.init 0 (2 ^ 32), TermTable.init literalFirstID (2 ^ 32),
      TermTable.init 0 (2 ^ 31), 0, 0, fun _ => none,
    typePredicateName⟩

variable (db : Database)

def Database.checkIsTypePredicate (predicate : String) : Bool :=
  db.typePredicateName.contains predicate

def Database.countClass (object : String) : Database :=
  { db with umap := Function.update db.umap object (some ((db.umap object).getD 0 + 1)) }

def Database.uncountClass (object : String) : Database :=
  match db.umap object with
  | none => db
  | some n =>
    { db with umap := Function.update db.umap object (if n ≤ 1 then none else some (n - 1)) }

variable (kv : KVstore)

def KVstore.degree (key : Key) : Nat :=
  match kv.getValueByKey key with
  | none => 0
  | some tmp => word tmp 0

variable (id : Nat)

def KVstore.getEntityInDegree : Nat := kv.degree ⟨.object, id⟩
def KVstore.getEntityOutDegree : Nat := kv.degree ⟨.subject, id⟩
/-- The sum is an `unsigned`; an entity is taken to have fewer than `2 ^ 32` triples. -/
def KVstore.getEntityDegree : Nat := kv.getEntityInDegree id + kv.getEntityOutDegree id
def KVstore.getLiteralDegree : Nat := kv.degree ⟨.object, id⟩
def KVstore.getPredicateDegree : Nat := kv.degree ⟨.predicate, id⟩

def sublistIn (k : Side) (value : Option (List Nat)) (p : Nat) : List Nat :=
  match value with
  | none => []
  | some tmp =>
    match binarySearch p (preAt k tmp) (word tmp 1) with
    | none => []
    | some i => copyWords tmp (offAt k tmp i) (nextOff k tmp i)

def KVstore.getobjIDlistBysubIDpreID (s p : Nat) : List Nat :=
  if !isEntityEle s then [] else sublistIn .sub (kv.getValueByKey ⟨.subject, s⟩) p

/-- `Util::bsearch_int_uporder`. The unsigned bound `mid - 1` cannot wrap, as a key below the first
word has been refused before. -/
def bsearchIntUporder (key : Nat) (array : List Nat) : Option Nat :=
  if array.length = 0 then none
  else if word array (array.length - 1) = key then some (array.length - 1)
  else if word array (array.length - 1) < key ∨ key < word array 0 then none
  else bisect key (word array) array.length 0 array.length

def KVstore.existTriple (s p o : Nat) : Bool :=
  (bsearchIntUporder o (kv.getobjIDlistBysubIDpreID s p)).isSome

structure TripleIDs where
  sub : Nat
  pre : Nat
  obj : Nat
  anyNew : Bool

variable (t : TripleWithObjType)

def Database.resolveSubject : Resolved × Database :=
  let r := db.entities.resolve t.subject
  (r, { db with entities := r.table, subNum := if r.isNew then db.subNum + 1 else db.subNum })

def Database.resolvePredicate : Resolved × Database :=
  let r := db.predicates.resolve t.predicate
  (r, { db with predicates := r.table })

/-- An entity object of a type predicate is counted in `umap`, whether or not the triple is new. -/
def Database.resolveObject : Resolved × Database :=
  if t.isObjEntity then
    let r := db.entities.resolve t.object
    let db := { db with entities := r.table }
    (r, if r.ok && db.checkIsTypePredicate t.predicate then db.countClass t.object else db)
  else
    let r := db.literals.resolve t.object
    (r, { db with literals := r.table })

/-- The first half of `insertTriple`: the ids of the three terms, created where they are missing.
`none` is an early return because a dictionary refused a new term. -/
def Database.resolveTerms : Database × Option TripleIDs :=
  let (s, db) := db.resolveSubject t
  if !s.ok then (db, none)
  else
    let (p, db) := db.resolvePredicate t
    if !p.ok then (db, none)
    else
      let (o, db) := db.resolveObject t
      if !o.ok then (db, none) else (db, some ⟨s.id, p.id, o.id, s.isNew || p.isNew || o.isNew⟩)

def Database.insertTriple : Bool × Database :=
  match db.resolveTerms t with
  | (db, none) => (false, db)
  | (db, some ids) =>
    if !ids.anyNew && db.kvstore.existTriple ids.sub ids.pre ids.obj then (false, db)
    else
      (true, { db with
        triplesNum := db.triplesNum + 1
        kvstore := db.kvstore.updateTupleslistInsert ids.sub ids.pre ids.obj })

def Database.insert (triples : List TripleWithObjType) : Database :=
  triples.foldl (fun db t => (db.insertTriple t).2) db

def Database.getObjID : Nat :=
  if t.isObjEntity then db.entities.getID t.object else db.literals.getID t.object

def Database.dropSubject (s : Nat) : Database :=
  if db.kvstore.getEntityDegree s = 0 then
    { db with entities := db.entities.drop s t.subject, subNum := db.subNum - 1 }
  else if db.kvstore.getEntityOutDegree s = 0 then { db with subNum := db.subNum - 1 }
  else db

def Database.dropObject (o : Nat) : Database :=
  if t.isObjEntity then
    if db.kvstore.getEntityDegree o = 0 then
      { db with entities := db.entities.drop o t.object } else db
  else if db.kvstore.getLiteralDegree o = 0 then { db with literals := db.literals.drop o t.object }
  else db

def Database.uncountType : Database :=
  if t.isObjEntity && db.checkIsTypePredicate t.predicate then db.uncountClass t.object else db

theorem uncountType_frame :
    (db.uncountType t).kvstore = db.kvstore ∧ (db.uncountType t).entities = db.entities ∧
      (db.uncountType t).literals = db.literals ∧
      (db.uncountType t).predicates = db.predicates := by
  unfold Database.uncountType Database.uncountClass
  split
  · split <;> exact ⟨rfl, rfl, rfl, rfl⟩
  · exact ⟨rfl, rfl, rfl, rfl⟩

def Database.dropPredicate (p : Nat) : Database :=
  if db.kvstore.getPredicateDegree p = 0 then
    { db with predicates := db.predicates.drop p t.predicate } else db

def Database.unstore : Database :=
  { db with triplesNum := db.triplesNum - 1, kvstore := kv }

/-- `none` is undefined behaviour of a splice routine. -/
def Database.removeTriple : Option (Bool × Database) :=
  let s := db.entities.getID t.subject
  let p := db.predicates.getID t.predicate
  let o := db.getObjID t
  if s = invalidID ∨ p = invalidID ∨ o = invalidID then some (false, db)
  else if !db.kvstore.existTriple s p o then some (false, db)
  else
    (db.kvstore.updateTupleslistRemove s p o).map fun (_, kv) =>
      (true, (((((db.unstore kv).dropSubject t s).dropObject t o).uncountType t).dropPredicate t p))

end GStore
