import GStore.Database.Database

/-! The id files of `Database`: `saveIDinfo` writes the limit and the free list of each kind of
term, `readIDinfo` rebuilds them when the database is opened again. -/
namespace GStore
open List

/-- The contents of `freeEntityID.dat`, `freeLiteralID.dat` and `freePredicateID.dat`, in units of
`sizeof(int)`. -/
structure IDFiles where
  entity : List Nat
  literal : List Nat
  predicate : List Nat
  deriving DecidableEq, Repr

variable (tbl : TermTable)

def TermTable.idFile : List Nat := (tbl.limit :: tbl.freelist).map (· % 2 ^ 32)

variable (db : Database)

def Database.saveIDinfo : IDFiles :=
  ⟨db.entities.idFile, db.literals.idFile, db.predicates.idFile⟩

def TermTable.initIDinfo : TermTable := { tbl with limit := 0, freelist := [] }

/-- One file of `readIDinfo`; `link` is what the body of the loop makes of the list read so far. -/
def TermTable.readIDFile (link : List Nat → Nat → List Nat) : List Nat → TermTable
  | [] => tbl
  | limit :: words => { tbl with limit := limit, freelist := words.foldl link tbl.freelist }

/-- The three loops differ: entities are appended to the list, literals are put in front of it, and
each predicate block is put in front of the list of the literals. -/
def Database.readIDinfo (files : IDFiles) : Database :=
  let entities := db.entities.initIDinfo.readIDFile (fun list t => list ++ [t]) files.entity
  let literals := db.literals.initIDinfo.readIDFile (fun list t => t :: list) files.literal
  let predicates := db.predicates.initIDinfo.readIDFile
    (fun _ t => t :: literals.freelist) files.predicate
  { db with entities := entities, literals := literals, predicates := predicates }

def Database.reopened : Database := db.readIDinfo db.saveIDinfo

/-- Distinct free ids below the limit, which `count` allocations do not take past the range of its
type. -/
structure TermTable.Counted (tbl : TermTable) (count : Nat) : Prop where
  inRange : tbl.limit + count < tbl.top
  range : tbl.top ≤ 2 ^ 32
  below : ∀ i ∈ tbl.freelist, i < tbl.limit
  once : tbl.freelist.Nodup

def TermTable.InUse (i : Nat) : Prop := i < tbl.limit ∧ i ∉ tbl.freelist

instance (tbl : TermTable) (i : Nat) : Decidable (tbl.InUse i) :=
  inferInstanceAs (Decidable (_ ∧ _))

def TermTable.allocAfter (tbl : TermTable) : Nat → Nat
  | 0 => tbl.alloc.1
  | n + 1 => tbl.alloc.2.allocAfter n

/-- `after` has the limit and the free ids of `before`, and its next `count` allocations return only
ids that were not in use in `before`. -/
structure TermTable.Restored (before after : TermTable) (count : Nat) : Prop where
  limit : after.limit = before.limit
  free : ∀ i, i ∈ after.freelist ↔ i ∈ before.freelist
  unused : ∀ n < count, after.allocAfter n = invalidID ∨
    ∃ i, after.allocAfter n = i + before.base ∧ ¬ before.InUse i

theorem idFile_eq {tbl : TermTable} {count : Nat} (counted : tbl.Counted count) :
    tbl.idFile = tbl.limit :: tbl.freelist := by
  have word : tbl.limit < 2 ^ 32 :=
    ((Nat.le_add_right _ _).trans_lt counted.inRange).trans_le counted.range
  have kept : ∀ i ∈ tbl.freelist, i % 2 ^ 32 = i := fun i free =>
    Nat.mod_eq_of_lt ((counted.below i free).trans word)
  rw [TermTable.idFile, map_cons, Nat.mod_eq_of_lt word, map_congr_left kept, map_id']

theorem foldl_relink (tail : List Nat) (words start : List Nat) :
    words.foldl (fun _ t => t :: tail) start = words.getLast?.elim start (· :: tail) := by
  induction words generalizing start with
  | nil => rfl
  | cons t rest ih =>
    rw [foldl_cons, ih]
    cases rest with
    | nil => rfl
    | cons u rest =>
      rw [getLast?_cons_cons]
      cases last : (u :: rest).getLast? with
      | none => simp at last
      | some v => rfl

theorem foldl_snoc (words start : List Nat) :
    words.foldl (fun list t => list ++ [t]) start = start ++ words := by
  induction words generalizing start with
  | nil => simp
  | cons t rest ih => rw [foldl_cons, ih, append_assoc, singleton_append]

section
variable {db : Database} {count : Nat} (entities : db.entities.Counted count)
  (literals : db.literals.Counted count) (predicates : db.predicates.Counted count)
include entities literals predicates

theorem reopened_eq : db.reopened = { db with
    literals := { db.literals with freelist := db.literals.freelist.reverse }
    predicates := { db.predicates with
      freelist := db.predicates.freelist.getLast?.elim [] (· :: db.literals.freelist.reverse) }
      } := by
  simp only [Database.reopened, Database.readIDinfo, Database.saveIDinfo, idFile_eq entities,
      idFile_eq literals,
    idFile_eq predicates, TermTable.readIDFile, TermTable.initIDinfo, foldl_snoc, foldl_relink,
    foldl_flip_cons_eq_append, nil_append, append_nil, map_id']

end

section

variable {tbl : TermTable} {Free : Nat → Prop} (free : ∀ i ∈ tbl.freelist, Free i)
  (above : ∀ i, tbl.limit ≤ i → Free i)
include free above

theorem alloc_mem (word : tbl.limit + 1 < 2 ^ 32) :
    (tbl.alloc.1 = invalidID ∨ ∃ i, tbl.alloc.1 = i + tbl.base ∧ Free i) ∧
      (∀ i ∈ tbl.alloc.2.freelist, Free i) ∧ (∀ i, tbl.alloc.2.limit ≤ i → Free i) ∧
      tbl.alloc.2.base = tbl.base ∧ tbl.alloc.2.limit ≤ tbl.limit + 1 := by
  unfold TermTable.alloc
  cases list : tbl.freelist with
  | nil =>
    simp only [Nat.mod_eq_of_lt word]
    split
    · exact ⟨.inl rfl, by simp, fun i high => above i (Nat.le_of_succ_le high), rfl, le_rfl⟩
    · exact ⟨.inr ⟨tbl.limit, rfl,
          above _ le_rfl⟩, by simp, fun i high => above i (Nat.le_of_succ_le high), rfl, le_rfl⟩
  | cons t rest =>
    rw [list] at free
    exact ⟨.inr ⟨t, rfl, free t
        (by simp)⟩, fun i h => free i (by simp [h]), above, rfl, Nat.le_succ _⟩

theorem allocAfter_mem {n : Nat} (word : tbl.limit + n + 1 < 2 ^ 32) :
    tbl.allocAfter n = invalidID ∨ ∃ i, tbl.allocAfter n = i + tbl.base ∧ Free i := by
  induction n generalizing tbl with
  | zero => exact (alloc_mem free above word).1
  | succ n ih =>
    obtain ⟨-, freeNext, aboveNext, base, limit⟩ := alloc_mem free above (by omega)
    rw [TermTable.allocAfter, ← base]
    exact ih freeNext aboveNext (by omega)

end

theorem restored_iff {before : TermTable} {list : List Nat} {count : Nat}
    (counted : before.Counted count) :
    before.Restored { before with freelist := list } count ↔ ∀ i, i ∈ list ↔
    i ∈ before.freelist := by
  refine ⟨fun restored => restored.free, fun same => ⟨rfl, same, fun n earlier => ?_⟩⟩
  have inRange := counted.inRange
  have range := counted.range
  refine allocAfter_mem (fun i free used => used.2 ((same i).mp free)) (fun i high used => ?_)
    (by simp only; omega)
  exact absurd used.1 (Nat.not_lt.mpr high)

/-- The predicate list comes back as its last id in front of the free literal ids. -/
def Database.predicateListKept : Prop :=
  db.predicates.freelist = [] ∨
    (∀ i ∈ db.literals.freelist, i ∈ db.predicates.freelist) ∧
      ∀ i ∈ db.predicates.freelist, db.predicates.freelist.getLast? = some i ∨
      i ∈ db.literals.freelist

instance (db : Database) : Decidable db.predicateListKept := inferInstanceAs (Decidable (_ ∨ _))

theorem predicateListKept_iff :
    (∀ i, i ∈ db.predicates.freelist.getLast?.elim [] (· :: db.literals.freelist.reverse) ↔
      i ∈ db.predicates.freelist) ↔ db.predicateListKept := by
  unfold Database.predicateListKept
  cases last : db.predicates.freelist.getLast? with
  | none => simp [getLast?_eq_none_iff.mp last]
  | some p =>
    have member : p ∈ db.predicates.freelist := mem_of_getLast? last
    have nonempty : db.predicates.freelist ≠ [] := ne_nil_of_mem member
    simp only [Option.elim_some, mem_cons, mem_reverse, nonempty, false_or, Option.some.injEq]
    constructor
    · intro same
      exact ⟨fun i free => (same i).mp (.inr free),
          fun i free => ((same i).mpr free).imp Eq.symm id⟩
    · rintro ⟨shared, rest⟩ i
      refine ⟨?_, fun free => (rest i free).imp Eq.symm id⟩
      rintro (rfl | free)
      · exact member
      · exact shared i free

def Database.withFreeIDs (entity literal predicate : Nat × List Nat) : Database :=
  let start := Database.empty []
  { start with
    entities := { start.entities with limit := entity.1, freelist := entity.2 }
    literals := { start.literals with limit := literal.1, freelist := literal.2 }
    predicates := { start.predicates with limit := predicate.1, freelist := predicate.2 } }

def literalTwoFreed : Database := Database.withFreeIDs (0, []) (4, [2]) (3, [0])

end GStore
