import GStore.Database.Invariant

/-! The entity dictionary over sequences of insertions and removals outside a transaction. It stays
a bijection as long as ids are left and no removed self-loop is the last triple of its entity: such
a removal frees one id twice. -/
namespace GStore
open Lib Database

/-- What the two entity dictionaries and the allocator owe each other. -/
structure TermTable.Bijective (tbl : TermTable) : Prop where
  inverse : ∀ str i, tbl.ids str = some i ↔ tbl.strs i = some str
  distinct : ∀ a b i, tbl.ids a = some i → tbl.ids b = some i → a = b
  belowLimit : ∀ str i, tbl.ids str = some i → i < tbl.limit
  notFree : ∀ str i, tbl.ids str = some i → i ∉ tbl.freelist
  freeOnce : tbl.freelist.Nodup
  fresh : ∀ str, tbl.ids str ≠ some tbl.alloc.1

theorem TermTable.Sound.bijective {tbl : TermTable} (sound : tbl.Sound) (base : tbl.base = 0)
    (whole : tbl.Intact) (spare : tbl.Spare 1) : tbl.Bijective := by
  have inverse : ∀ str i, tbl.ids str = some i ↔ tbl.strs i = some str := by
    intro str i
    constructor
    · intro found
      have valid : i ≠ invalidID := fun h => whole str (h ▸ found)
      obtain ⟨j, id, back⟩ := sound.forward str i found valid
      rw [base, Nat.add_zero] at id
      exact id ▸ back
    · intro back
      simpa [base] using sound.backward i str back
  refine ⟨inverse, ?_, ?_, ?_, sound.freeOnce, ?_⟩
  · intro a b i first second
    exact Option.some.inj (((inverse a i).mp first).symm.trans ((inverse b i).mp second))
  · exact fun str i found => (sound.live i str ((inverse str i).mp found)).1
  · exact fun str i found => (sound.live i str ((inverse str i).mp found)).2.1
  · intro str found
    rcases (alloc_spec sound spare).fresh with ⟨out, -⟩ | ⟨i, id, unused, -⟩
    · exact whole str (out ▸ found)
    · rw [base, Nat.add_zero] at id
      rw [inverse, id, unused] at found
      cases found

variable (db : Database)

def Database.newEntities (t : TripleWithObjType) : Nat :=
  (if db.entities.getID t.subject = invalidID then 1 else 0) +
    (if t.isObjEntity = true ∧ t.object ≠ t.subject ∧
      db.entities.getID t.object = invalidID then 1 else 0)

theorem available_mono {tbl : TermTable} {m n : Nat} (less : m ≤ n) (left : tbl.Available n) :
    tbl.Available m := by
  unfold TermTable.Available at *
  omega

section Intact
variable {db : Database} {T : Triple → Prop} (inv : db.Inv T) (t : TripleWithObjType)
include inv

theorem resolveSubject_intact {r : Resolved} {next : Database}
    (ran : db.resolveSubject t = (r, next))
    (left : db.entities.Available (db.newEntities t)) (whole : db.entities.Intact) :
    next.entities.Intact ∧ (r.ok = true → t.isObjEntity = true →
      next.entities.getID t.object = invalidID →
      next.entities.Available 1) := by
  have term := resolve_spec inv.entities (left.spare.mono (Nat.le_add_left 1 3)) t.subject
  cases ran
  constructor
  · refine term.intact (fun unknown => available_mono ?_ left) whole
    rw [newEntities, if_pos unknown]
    exact Nat.le_add_right _ _
  · intro ok kind unknown
    have apart : t.object ≠ t.subject := by
      intro same
      obtain ⟨i, -, live, -⟩ := term.found ok
      rw [same] at unknown
      exact (term.sound.getID_live live).2 unknown
    have before : db.entities.getID t.object = invalidID := by
      rw [← unknown, TermTable.getID, TermTable.getID, ← term.others t.object apart]
    refine term.room 1 (available_mono ?_ left)
    rw [newEntities, if_pos (⟨kind, apart, before⟩ : _ ∧ _ ∧ _), Nat.add_comm]

variable (left : db.entities.Available (db.newEntities t)) (whole : db.entities.Intact)
    (spare : db.Spare 3)
include left whole spare

theorem resolveTerms_intact : (db.resolveTerms t).1.entities.Intact := by
  rcases ranS : db.resolveSubject t with ⟨s, db₁⟩
  obtain ⟨growS, spareS, -⟩ := resolveSubject_spec inv t spare ranS
  obtain ⟨intactS, room⟩ := resolveSubject_intact inv t ranS left whole
  rcases ranP : db₁.resolvePredicate t with ⟨p, db₂⟩
  obtain ⟨growP, spareP, -⟩ := resolvePredicate_spec (inv.grow growS) t spareS ranP
  have entP : db₂.entities = db₁.entities := by cases ranP; rfl
  have intactO : s.ok = true → (db₂.resolveObject t).2.entities.Intact := by
    intro ok
    unfold resolveObject
    cases kind : t.isObjEntity with
    | true =>
      have term := resolve_spec (inv.grow (growS.trans growP)).entities spareP.1 t.object
      have entered : (db₂.entities.resolve t.object).table.Intact :=
        term.intact (fun unknown => entP ▸ room ok kind (entP ▸ unknown)) (entP ▸ intactS)
      simp only [if_true]
      split <;> exact entered
    | false => exact entP ▸ intactS
  simp only [resolveTerms, ranS, ranP]
  cases okS : s.ok with
  | false => exact intactS
  | true =>
    cases okP : p.ok with
    | false => exact entP ▸ intactS
    | true =>
      cases okO : (db₂.resolveObject t).1.ok with
      | false => simpa [okO] using intactO okS
      | true => simpa [okO] using intactO okS

theorem insertTriple_intact : (db.insertTriple t).2.entities.Intact := by
  have entered := resolveTerms_intact inv t left whole spare
  rcases insertTriple_cases inv t spare with ⟨refused, -⟩ | ⟨ids, -, -, stored⟩
  · rw [refused]
    exact entered
  · rw [stored]
    exact entered

end Intact

inductive Edit where
  | insert (t : TripleWithObjType)
  | remove (t : TripleWithObjType)
  deriving DecidableEq, Repr

/-- The database after the call; `none` is undefined behaviour. -/
def Database.edit : Edit → Option Database
  | .insert t => some (db.insertTriple t).2
  | .remove t => (db.removeTriple t).map Prod.snd

/-- An insertion finds the entity ids it needs; a removal does not take the last triple of an entity
that is a self-loop; and neither wraps a limit or a list around. -/
def Database.safeEdit : Edit → Prop
  | .insert t => db.entities.Available (db.newEntities t) ∧ db.Fits 1 t
  | .remove t => db.isLastLoop t = false ∧ db.Fits 1 t

instance (db : Database) (e : Edit) : Decidable (db.safeEdit e) :=
  match e with
  | .insert t =>
    inferInstanceAs (Decidable (db.entities.Available (db.newEntities t) ∧ db.Fits 1 t))
  | .remove t => inferInstanceAs (Decidable (db.isLastLoop t = false ∧ db.Fits 1 t))

theorem edit_keeps (e : Edit) (kept : (∃ T, db.Inv T) ∧ db.entities.Intact ∧ db.entities.Spare 1)
    (safe : db.safeEdit e) :
    ∃ next, db.edit e = some next ∧ (∃ T, next.Inv T) ∧ next.entities.Intact ∧
    next.entities.Spare 1 := by
  obtain ⟨⟨T, inv⟩, whole, spare⟩ := kept
  cases e with
  | insert t =>
    obtain ⟨left, fits⟩ := safe
    obtain ⟨more, after⟩ := insertTriple_inv inv t fits
    exact ⟨_, rfl, more, insertTriple_intact inv t left whole (fits.1.mono (by decide)), after.1⟩
  | remove t =>
    obtain ⟨several, fits⟩ := safe
    obtain ⟨done, next, ran, more, shrinks⟩ := removeTriple_inv inv t several fits.2
    exact ⟨next, by simp [edit, ran], more, shrinks.entities.intact whole, shrinks.entities.spare 1 spare⟩

end GStore
