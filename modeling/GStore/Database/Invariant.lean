import GStore.Database.Database

/-! The invariant that ties the triple indexes to the dictionaries: every id a triple uses is live.
-/
namespace GStore
open Lib List Option Database

theorem bsearchIntUporder_isSome {array : List Nat} (sorted : Increasing array) (key : Nat) :
    (bsearchIntUporder key array).isSome = true ↔ key ∈ array := by
  have value : ∀ i (h : i < array.length), word array i = array[i] := by
    intro i h
    rw [word, getD_eq_getElem _ _ h]
  have increasing : ∀ i j, i < j → j < array.length → word array i < word array j := by
    intro i j less bound
    rw [value i (by omega), value j bound]
    exact pairwise_iff_getElem.mp sorted i j _ _ less
  have member : (∃ i, i < array.length ∧ word array i = key) ↔ key ∈ array := by
    rw [mem_iff_getElem]
    refine ⟨?_, ?_⟩
    · rintro ⟨i, h, hit⟩
      exact ⟨i, h, (value i h).symm.trans hit⟩
    · rintro ⟨i, h, hit⟩
      exact ⟨i, h, (value i h).trans hit⟩
  rw [← member]
  unfold bsearchIntUporder
  split
  · rename_i empty
    simp [empty]
  · rename_i nonempty
    split
    · rename_i last
      simp only [isSome_some, true_iff]
      exact ⟨array.length - 1, by omega, last⟩
    · rename_i last
      split
      · rename_i outside
        simp only [isSome_none, Bool.false_eq_true, false_iff]
        rintro ⟨i, bound, hit⟩
        rcases outside with high | low
        · rcases Nat.lt_or_ge i (array.length - 1) with less | more
          · have := increasing i (array.length - 1) less (by omega)
            omega
          · exact last (by rw [show array.length - 1 = i by omega]; exact hit)
        · rcases Nat.eq_zero_or_pos i with rfl | positive
          · omega
          · have := increasing 0 i positive bound
            omega
      · rw [isSome_iff_exists]
        constructor
        · rintro ⟨i, found⟩
          exact ⟨i, (bisect_eq_some_iff increasing i).mp found⟩
        · rintro ⟨i, hit⟩
          exact ⟨i, (bisect_eq_some_iff increasing i).mpr hit⟩

theorem sublistIn_eq (k : Side) (value : Option (List Nat)) (p : Nat) :
    sublistIn k value p = (value.bind fun tmp => sublistOf k tmp p).getD [] := by
  cases value with
  | none => rfl
  | some tmp =>
    simp only [sublistIn, sublistOf, bind_some]
    cases binarySearch p (preAt k tmp) (word tmp 1) <;> rfl

variable {value : Option (List Nat)} {R : Nat → Nat → Prop}

theorem sublistIn_spec {k : Side} (shown : Represents k value R) (p : Nat) :
    Increasing (sublistIn k value p) ∧ ∀ x, x ∈ sublistIn k value p ↔ R p x := by
  obtain ⟨gs, whole, rfl, members⟩ := shown
  rw [sublistIn_eq]
  obtain rfl | empty := eq_or_ne gs []
  · simp only [stored, if_true, bind_none, getD_none]
    exact ⟨List.Pairwise.nil, fun o => by simpa using members p o⟩
  · rw [stored, if_neg empty, bind_some]
    rcases @sublistOf_pack k gs whole p with ⟨missed, none⟩ | ⟨xs, hit, -, sorted, inside⟩
    · rw [missed]
      exact ⟨List.Pairwise.nil, fun o => by simpa using fun h => none o ((members p o).mpr h)⟩
    · rw [hit]
      exact ⟨sorted, fun o => (inside o).trans (members p o)⟩

variable {T : Triple → Prop}

theorem getobjIDlistBysubIDpreID_spec {kv : KVstore} (holds : kv.Holds T) {s : Nat}
    (entity : isEntityEle s = true) (p : Nat) : Increasing (kv.getobjIDlistBysubIDpreID s p) ∧
      ∀ o, o ∈ kv.getobjIDlistBysubIDpreID s p ↔ T ⟨s, p, o⟩ := by
  rw [KVstore.getobjIDlistBysubIDpreID, if_neg (by simp [entity])]
  exact sublistIn_spec (holds.subjects s) p

theorem existTriple_iff {kv : KVstore} (holds : kv.Holds T) {s : Nat}
    (entity : isEntityEle s = true) (p o : Nat) : kv.existTriple s p o = true ↔ T ⟨s, p, o⟩ := by
  obtain ⟨sorted, members⟩ := getobjIDlistBysubIDpreID_spec holds entity p
  rw [KVstore.existTriple, bsearchIntUporder_isSome sorted, members]

theorem represents_count {k : Side}
    (shown : Represents k value R) :
    let n := match value with
      | none => 0
      | some tmp => word tmp 0
    (n = 0 ↔ ∀ p x, ¬ R p x) ∧ ∀ p x, R p x → (∀ q y, R q y → q = p ∧ y = x) → n = 1 := by
  obtain ⟨gs, whole, rfl, members⟩ := shown
  have count : (match stored k gs with
      | none => 0
      | some tmp => word tmp 0) = (pairs gs).length := by
    obtain rfl | empty := eq_or_ne gs []
    · rfl
    · rw [stored, if_neg empty, length_pairs]
      rfl
  simp only [count]
  constructor
  · rw [length_eq_zero_iff, eq_nil_iff_forall_not_mem]
    exact ⟨fun none p x h => none _ ((members p x).mpr h),
        fun none q h => none q.1 q.2 ((members _ _).mp h)⟩
  · intro p x present only
    have single : (pairs gs).Perm [(p, x)] := by
      rw [perm_ext_iff_of_nodup (pairs_nodup whole) (nodup_singleton _)]
      rintro ⟨q, y⟩
      rw [members, mem_singleton, Prod.mk.injEq]
      refine ⟨only q y, ?_⟩
      rintro ⟨rfl, rfl⟩
      exact present
    exact single.length_eq

theorem representsColumns_count (shown : RepresentsColumns value R) :
    (match value with
      | none => 0
      | some tmp => word tmp 0) = 0 ↔ ∀ s o, ¬ R s o := by
  obtain ⟨ps, sorted, rfl, members⟩ := shown
  have count : (match storedColumns ps with
      | none => 0
      | some tmp => word tmp 0) = ps.length := by
    obtain rfl | empty := eq_or_ne ps []
    · rfl
    · rw [storedColumns, if_neg empty]
      rfl
  rw [count, length_eq_zero_iff, eq_nil_iff_forall_not_mem]
  exact ⟨fun none s o h => none _ ((members s o).mpr h),
    fun none q h => none (ofLex q).1 (ofLex q).2 ((members _ _).mp h)⟩

section Degrees
variable {kv : KVstore} {T : Triple → Prop} (holds : kv.Holds T)
include holds

theorem outDegree_eq_zero (s : Nat) : kv.getEntityOutDegree s = 0 ↔ ∀ p o, ¬ T ⟨s, p, o⟩ :=
  (represents_count (holds.subjects s)).1

theorem inDegree_eq_zero (o : Nat) : kv.getEntityInDegree o = 0 ↔ ∀ p s, ¬ T ⟨s, p, o⟩ :=
  (represents_count (holds.objects o)).1

theorem predicateDegree_eq_zero (p : Nat) : kv.getPredicateDegree p = 0 ↔ ∀ s o, ¬ T ⟨s, p, o⟩ :=
  representsColumns_count (holds.predicates p)

theorem degree_eq_zero (id : Nat) : kv.getEntityDegree id = 0 ↔ ∀ t, T t → t.sub ≠ id ∧
    t.obj ≠ id := by
  rw [KVstore.getEntityDegree, Nat.add_eq_zero_iff, outDegree_eq_zero holds, inDegree_eq_zero holds]
  constructor
  · rintro ⟨noObject, noSubject⟩ t present
    exact ⟨fun same => noSubject t.pre t.obj (same ▸ present),
        fun same => noObject t.pre t.sub (same ▸ present)⟩
  · intro none
    exact ⟨fun p s present => (none _ present).2 rfl, fun p o present => (none _ present).1 rfl⟩

theorem degree_of_lone_loop {id p : Nat} (present : T ⟨id, p, id⟩)
    (only : ∀ t, T t → t.sub = id ∨ t.obj = id → t = ⟨id, p, id⟩) : kv.getEntityDegree id = 2 := by
  have out : kv.getEntityOutDegree id = 1 :=
    (represents_count (holds.subjects id)).2 p id present fun q y h => by
      have := only _ h (.inl rfl)
      simp only [Triple.mk.injEq, true_and] at this
      exact this
  have into : kv.getEntityInDegree id = 1 :=
    (represents_count (holds.objects id)).2 p id present fun q y h => by
      have := only _ h (.inr rfl)
      simp only [Triple.mk.injEq, and_true] at this
      exact ⟨this.2, this.1⟩
  rw [KVstore.getEntityDegree, out, into]

end Degrees

/-- The indexes hold the triples `T`, and every id that a triple uses is live in its dictionary. -/
structure Database.Inv (db : Database) (T : Triple → Prop) : Prop where
  holds : db.kvstore.Holds T
  entities : db.entities.Sound
  entityBase : db.entities.base = 0
  literals : db.literals.Sound
  literalBase : db.literals.base = literalFirstID
  predicates : db.predicates.Sound
  predicateBase : db.predicates.base = 0
  subLive : ∀ t, T t → ∃ str, db.entities.strs t.sub = some str
  preLive : ∀ t, T t → ∃ str, db.predicates.strs t.pre = some str
  objEntity : ∀ t, T t → isEntityEle t.obj = true → ∃ str, db.entities.strs t.obj = some str
  objLiteral : ∀ t, T t → isEntityEle t.obj = false →
    ∃ str, db.literals.strs (t.obj - literalFirstID) = some str

theorem empty_inv (names : List String) : (empty names).Inv fun _ => False where
  holds := empty_holds
  entities := init_sound (by decide) (by decide)
  entityBase := rfl
  literals := init_sound (by decide) (by decide)
  literalBase := rfl
  predicates := init_sound (by decide) (by decide)
  predicateBase := rfl
  subLive _ h := h.elim
  preLive _ h := h.elim
  objEntity _ h := h.elim
  objLiteral _ h := h.elim

/-- The dictionaries of `next` have all live terms of `db`, and the indexes are the same. -/
structure Database.Grows (db next : Database) : Prop where
  kvstore : next.kvstore = db.kvstore
  entities : db.entities.Extends next.entities
  literals : db.literals.Extends next.literals
  predicates : db.predicates.Extends next.predicates

theorem Database.Grows.trans {a b c : Database} (left : a.Grows b) (right : b.Grows c) :
    a.Grows c where
  kvstore := right.kvstore.trans left.kvstore
  entities := left.entities.trans right.entities
  literals := left.literals.trans right.literals
  predicates := left.predicates.trans right.predicates

variable {db : Database} {next : Database}

theorem Database.Inv.grow (inv : db.Inv T) (grows : db.Grows next) : next.Inv T where
  holds := grows.kvstore ▸ inv.holds
  entities := grows.entities.sound
  entityBase := grows.entities.base.trans inv.entityBase
  literals := grows.literals.sound
  literalBase := grows.literals.base.trans inv.literalBase
  predicates := grows.predicates.sound
  predicateBase := grows.predicates.base.trans inv.predicateBase
  subLive t h := (inv.subLive t h).imp fun _ => grows.entities.keeps _ _
  preLive t h := (inv.preLive t h).imp fun _ => grows.predicates.keeps _ _
  objEntity t h entity := (inv.objEntity t h entity).imp fun _ => grows.entities.keeps _ _
  objLiteral t h literal := (inv.objLiteral t h literal).imp fun _ => grows.literals.keeps _ _

def Database.ObjectLive (db : Database) (isEntity : Bool) (str : String) (o : Nat) : Prop :=
  if isEntity then db.entities.strs o = some str ∧ isEntityEle o = true
  else db.literals.strs (o - literalFirstID) = some str ∧ isEntityEle o = false ∧
    o < literalFirstID + literalFirstID

/-- What `resolveTerms` hands to the second half of an insertion: three live ids, and a triple that
is not in the store when one of them is new. -/
structure ResolvedIDs (next : Database) (T : Triple → Prop) (t : TripleWithObjType)
    (ids : TripleIDs) : Prop where
  sub : next.entities.strs ids.sub = some t.subject
  pre : next.predicates.strs ids.pre = some t.predicate
  obj : next.ObjectLive t.isObjEntity t.object ids.obj
  fresh : ids.anyNew = true → ¬ T ⟨ids.sub, ids.pre, ids.obj⟩

theorem isEntityEle_of_lt {i : Nat} (small : i + 1 < literalFirstID) : isEntityEle i = true :=
  decide_eq_true (by omega)

/-- The ids of a table with base 0 are the positions of its strings. -/
theorem ResolvedTerm.unshifted {tbl : TermTable} {str : String} {r : Resolved}
    (term : ResolvedTerm tbl str r)
    (base : tbl.base = 0) (ok : r.ok = true) :
    r.table.strs r.id = some str ∧ r.id + 1 < literalFirstID ∧
    (r.isNew = true → tbl.strs r.id = none) := by
  obtain ⟨i, id, live, small, unused⟩ := term.found ok
  rw [base, Nat.add_zero] at id
  rw [id]
  exact ⟨live, small, unused⟩

/-- `n` terms of each kind can be allocated before a limit reaches `2 ^ 31`. -/
def Database.Spare (db : Database) (n : Nat) : Prop :=
  db.entities.Spare n ∧ db.literals.Spare n ∧ db.predicates.Spare n

instance Database.decidableSpare (db : Database) (n : Nat) : Decidable (db.Spare n) :=
  inferInstanceAs (Decidable (_ ∧ _ ∧ _))

theorem Database.Spare.mono {db : Database} {m n : Nat} (spare : db.Spare n) (less : m ≤ n) :
    db.Spare m :=
  ⟨spare.1.mono less, spare.2.1.mono less, spare.2.2.mono less⟩

section Resolve
variable {db : Database} {T : Triple → Prop} (inv : db.Inv T) (t : TripleWithObjType)
include inv

variable {next : Database} {r : Resolved} {n : Nat} (spare : db.Spare (n + 1))
include spare

theorem resolveSubject_spec (ran : db.resolveSubject t = (r, next)) :
    db.Grows next ∧ next.Spare n ∧ (r.ok = true → next.entities.strs r.id = some t.subject) ∧
      (r.ok = true → r.isNew = true → ∀ u, T u → u.sub ≠ r.id) := by
  have term := resolve_spec inv.entities (spare.1.mono (Nat.le_add_left 1 n)) t.subject
  have less := spare.mono (Nat.le_succ n)
  cases ran
  refine ⟨⟨rfl, term.toExtends, inv.literals.extends_self, inv.predicates.extends_self⟩,
    ⟨term.spare n spare.1, less.2⟩, ?_, ?_⟩
  · exact fun ok => (term.unshifted inv.entityBase ok).1
  · intro ok new u present hit
    obtain ⟨str, live⟩ := inv.subLive u present
    rw [hit, (term.unshifted inv.entityBase ok).2.2 new] at live
    cases live

theorem resolvePredicate_spec (ran : db.resolvePredicate t = (r, next)) :
    db.Grows next ∧ next.Spare n ∧ (r.ok = true → next.predicates.strs r.id = some t.predicate) ∧
      (r.ok = true → r.isNew = true → ∀ u, T u → u.pre ≠ r.id) := by
  have term := resolve_spec inv.predicates (spare.2.2.mono (Nat.le_add_left 1 n)) t.predicate
  have less := spare.mono (Nat.le_succ n)
  cases ran
  refine ⟨⟨rfl, inv.entities.extends_self, inv.literals.extends_self, term.toExtends⟩,
    ⟨less.1, less.2.1, term.spare n spare.2.2⟩, ?_, ?_⟩
  · exact fun ok => (term.unshifted inv.predicateBase ok).1
  · intro ok new u present hit
    obtain ⟨str, live⟩ := inv.preLive u present
    rw [hit, (term.unshifted inv.predicateBase ok).2.2 new] at live
    cases live

theorem resolveObject_spec (ran : db.resolveObject t = (r, next)) :
    db.Grows next ∧ next.Spare n ∧ (r.ok = true → next.ObjectLive t.isObjEntity t.object r.id) ∧
      (r.ok = true → r.isNew = true → ∀ u, T u → u.obj ≠ r.id) := by
  have one := Nat.le_add_left 1 n
  have less := spare.mono (Nat.le_succ n)
  cases kind : t.isObjEntity with
  | true =>
    have term := resolve_spec inv.entities (spare.1.mono one) t.object
    simp only [resolveObject, kind, if_true, Prod.mk.injEq] at ran
    obtain ⟨rfl, rfl⟩ := ran
    have table : (if (db.entities.resolve t.object).ok && checkIsTypePredicate
          { db with entities := (db.entities.resolve t.object).table } t.predicate then
          countClass { db with entities := (db.entities.resolve t.object).table } t.object
        else { db with entities := (db.entities.resolve t.object).table }).entities =
        (db.entities.resolve t.object).table := by split <;> rfl
    refine ⟨⟨by split <;> rfl, by rw [table]; exact term.toExtends, ?_, ?_⟩, ?_, ?_, ?_⟩
    · split <;> exact inv.literals.extends_self
    · split <;> exact inv.predicates.extends_self
    · refine ⟨by rw [table]; exact term.spare n spare.1, ?_⟩
      split <;> exact less.2
    · intro ok
      obtain ⟨live, small, -⟩ := term.unshifted inv.entityBase ok
      simp only [Database.ObjectLive, if_true, table]
      exact ⟨live, isEntityEle_of_lt small⟩
    · intro ok new u present hit
      obtain ⟨-, small, unused⟩ := term.unshifted inv.entityBase ok
      obtain ⟨str, live⟩ := inv.objEntity u present (by rw [hit]; exact isEntityEle_of_lt small)
      rw [hit, unused new] at live
      cases live
  | false =>
    have term := resolve_spec inv.literals (spare.2.1.mono one) t.object
    simp only [resolveObject, kind, Bool.false_eq_true, if_false, Prod.mk.injEq] at ran
    obtain ⟨rfl, rfl⟩ := ran
    refine ⟨⟨rfl, inv.entities.extends_self, term.toExtends, inv.predicates.extends_self⟩,
      ⟨less.1, term.spare n spare.2.1, less.2.2⟩, ?_, ?_⟩
    · intro ok
      obtain ⟨i, id, live, small, -⟩ := term.found ok
      rw [inv.literalBase] at id
      simp only [Database.ObjectLive, Bool.false_eq_true, if_false, id, Nat.add_sub_cancel]
      exact ⟨live, decide_eq_false (by omega), by omega⟩
    · intro ok new u present hit
      obtain ⟨i, id, -, small, unused⟩ := term.found ok
      rw [inv.literalBase] at id
      have literal : isEntityEle u.obj = false := by
        rw [hit, id]
        exact decide_eq_false (by omega)
      obtain ⟨str, live⟩ := inv.objLiteral u present literal
      rw [hit, id, Nat.add_sub_cancel, unused new] at live
      cases live

omit spare in
theorem resolveTerms_inv (spare : db.Spare (n + 3)) :
    db.Grows (db.resolveTerms t).1 ∧ (db.resolveTerms t).1.Spare n ∧
      ∀ ids, (db.resolveTerms t).2 = some ids → ResolvedIDs (db.resolveTerms t).1 T t ids := by
  rcases ranS : db.resolveSubject t with ⟨s, db₁⟩
  obtain ⟨growS, spareS, liveS, newS⟩ := resolveSubject_spec inv t spare ranS
  rcases ranP : db₁.resolvePredicate t with ⟨p, db₂⟩
  obtain ⟨growP, spareP, liveP, newP⟩ := resolvePredicate_spec (inv.grow growS) t spareS ranP
  have upP := growS.trans growP
  rcases ranO : db₂.resolveObject t with ⟨o, db₃⟩
  obtain ⟨growO, spareO, liveO, newO⟩ := resolveObject_spec (inv.grow upP) t spareP ranO
  simp only [resolveTerms, ranS, ranP, ranO]
  cases okS : s.ok with
  | false => exact ⟨growS, spareS.mono (by omega), fun _ h => by cases h⟩
  | true =>
    cases okP : p.ok with
    | false => exact ⟨upP, spareP.mono (by omega), fun _ h => by cases h⟩
    | true =>
      cases okO : o.ok with
      | false => exact ⟨upP.trans growO, spareO, fun _ h => by cases h⟩
      | true =>
        refine ⟨upP.trans growO, spareO, fun ids found => ?_⟩
        cases found
        refine ⟨?_, ?_, liveO okO, ?_⟩
        · exact growO.entities.keeps _ _ (growP.entities.keeps _ _ (liveS okS))
        · exact growO.predicates.keeps _ _ (liveP okP)
        · intro new present
          simp only [Bool.or_eq_true] at new
          rcases new with (new | new) | new
          · exact newS okS new _ present rfl
          · exact newP okP new _ present rfl
          · exact newO okO new _ present rfl

end Resolve

variable {t : TripleWithObjType} {ids : TripleIDs}

theorem ResolvedIDs.fits (inv : next.Inv T) (found : ResolvedIDs next T t ids) :
    ids.sub < maxKeyNum ∧ ids.pre < maxKeyNum ∧ ids.obj < literalFirstID + maxKeyNum := by
  have room : literalFirstID < maxKeyNum := by decide
  have sub := (inv.entities.live _ _ found.sub).2.2
  have pre := (inv.predicates.live _ _ found.pre).2.2
  refine ⟨by omega, by omega, ?_⟩
  have obj := found.obj
  cases kind : t.isObjEntity with
  | true =>
    rw [kind] at obj
    have := (inv.entities.live _ _ obj.1).2.2
    omega
  | false =>
    simp only [kind, Database.ObjectLive, Bool.false_eq_true, if_false] at obj
    omega

theorem Database.Inv.store (inv : db.Inv T) (room : db.kvstore.Room ids.pre)
    (found : ResolvedIDs db T t ids) (absent : ¬ T ⟨ids.sub, ids.pre, ids.obj⟩)
    (entities : next.entities = db.entities) (literals : next.literals = db.literals)
    (predicates : next.predicates = db.predicates)
    (stored : next.kvstore = db.kvstore.updateTupleslistInsert ids.sub ids.pre ids.obj) :
    next.Inv fun u => u = ⟨ids.sub, ids.pre, ids.obj⟩ ∨ T u := by
  obtain ⟨sub, pre, obj⟩ := found.fits inv
  have live := found.obj
  refine ⟨?_, entities ▸ inv.entities, entities ▸ inv.entityBase, literals ▸ inv.literals,
    literals ▸ inv.literalBase, predicates ▸ inv.predicates, predicates ▸ inv.predicateBase, ?_, ?_,
    ?_, ?_⟩
  · rw [stored]
    exact updateTupleslistInsert_holds inv.holds ⟨⟨ids.sub, ids.pre, ids.obj⟩, sub, pre, obj⟩ absent
      room
  · rintro u (rfl | present)
    · exact ⟨_, entities ▸ found.sub⟩
    · exact entities ▸ inv.subLive u present
  · rintro u (rfl | present)
    · exact ⟨_, predicates ▸ found.pre⟩
    · exact predicates ▸ inv.preLive u present
  · rintro u (rfl | present) entity
    · cases kind : t.isObjEntity with
      | true =>
        rw [kind] at live
        exact ⟨_, entities ▸ live.1⟩
      | false =>
        rw [kind] at live
        exact absurd entity (by simp [live.2.1])
    · exact entities ▸ inv.objEntity u present entity
  · rintro u (rfl | present) literal
    · cases kind : t.isObjEntity with
      | true =>
        rw [kind] at live
        exact absurd live.2 (by simp [literal])
      | false =>
        rw [kind] at live
        exact ⟨_, literals ▸ live.1⟩
    · exact literals ▸ inv.objLiteral u present literal

/-- The sizes below which an insertion or a removal wraps nothing around: `n` ids of each kind more
than the call itself needs, and a list of the predicate, if there is one, that has room for a pair.
-/
def Database.Fits (db : Database) (n : Nat) (t : TripleWithObjType) : Prop :=
  db.Spare (n + 3) ∧ db.kvstore.Room (db.predicates.getID t.predicate)

instance Database.decidableFits (db : Database) (n : Nat) (t : TripleWithObjType) :
    Decidable (db.Fits n t) :=
  inferInstanceAs (Decidable (_ ∧ _))

/-- A predicate that was not known has no list. -/
theorem ResolvedIDs.room (inv : db.Inv T) (grows : db.Grows next) (found : ResolvedIDs next T t ids)
    (room : db.kvstore.Room (db.predicates.getID t.predicate)) : next.kvstore.Room ids.pre := by
  rw [grows.kvstore]
  by_cases known : db.predicates.getID t.predicate = invalidID
  · have unused (s o : Nat) : ¬ T ⟨s, ids.pre, o⟩ := by
      intro present
      obtain ⟨str, live⟩ := inv.preLive _ present
      have same : str = t.predicate :=
        Option.some.inj ((grows.predicates.keeps _ _ live).symm.trans found.pre)
      exact (inv.predicates.getID_live (same ▸ live)).2 known
    obtain ⟨ps, -, layout, members⟩ := inv.holds.predicates ids.pre
    have empty : ps = [] := List.eq_nil_iff_forall_not_mem.mpr fun q member =>
      unused (ofLex q).1 (ofLex q).2 ((members _ _).mp member)
    rw [KVstore.Room, layout, empty]
    decide
  · obtain ⟨p, id, -, live, -⟩ := inv.predicates.getID known
    have same : p = ids.pre := Nat.add_right_cancel
      ((grows.predicates.sound.getID_live (grows.predicates.keeps _ _ live)).1.symm.trans
        (grows.predicates.sound.getID_live found.pre).1)
    rwa [id, inv.predicateBase, Nat.add_zero, same] at room

theorem insertTriple_cases (inv : db.Inv T) (t : TripleWithObjType) (spare : db.Spare 3) :
    (db.insertTriple t = (false, (db.resolveTerms t).1) ∧
        ∀ ids, (db.resolveTerms t).2 = some ids → ids.anyNew = false ∧
        T ⟨ids.sub, ids.pre, ids.obj⟩) ∨
      ∃ ids, (db.resolveTerms t).2 = some ids ∧ ¬ T ⟨ids.sub, ids.pre, ids.obj⟩ ∧
        db.insertTriple t = (true, { (db.resolveTerms t).1 with
          triplesNum := (db.resolveTerms t).1.triplesNum + 1
          kvstore := (db.resolveTerms t).1.kvstore.updateTupleslistInsert ids.sub ids.pre ids.obj
          }) := by
  obtain ⟨grows, -, found⟩ := resolveTerms_inv inv t spare
  unfold insertTriple
  rcases ran : db.resolveTerms t with ⟨next, _ | ids⟩
  · exact .inl ⟨rfl, fun _ h => by cases h⟩
  · rw [ran] at grows found
    have resolved := found ids rfl
    have entity := isEntityEle_of_lt ((inv.grow grows).entities.live _ _ resolved.sub).2.2
    have exact_test := existTriple_iff (inv.grow grows).holds entity ids.pre ids.obj
    by_cases stored : (!ids.anyNew && next.kvstore.existTriple ids.sub ids.pre ids.obj) = true
    · refine .inl ⟨if_pos stored, fun _ h => ?_⟩
      cases h
      simp only [Bool.and_eq_true, Bool.not_eq_true'] at stored
      exact ⟨stored.1, exact_test.mp stored.2⟩
    · refine .inr ⟨ids, rfl, ?_, if_neg stored⟩
      intro present
      cases new : ids.anyNew with
      | true => exact resolved.fresh new present
      | false => exact stored (by simp [new, exact_test.mpr present])

theorem insertTriple_inv (inv : db.Inv T) (t : TripleWithObjType) {n : Nat} (fits : db.Fits n t) :
    (∃ U, (db.insertTriple t).2.Inv U) ∧ (db.insertTriple t).2.Spare n := by
  obtain ⟨grows, spare, found⟩ := resolveTerms_inv inv t fits.1
  rcases insertTriple_cases inv t (fits.1.mono (Nat.le_add_left 3 n)) with ⟨refused, -⟩ |
    ⟨ids, resolved, absent, stored⟩
  · rw [refused]
    exact ⟨⟨T, inv.grow grows⟩, spare⟩
  · have room := (found ids resolved).room inv grows fits.2
    rw [stored]
    exact ⟨⟨_, (inv.grow grows).store room (found ids resolved) absent rfl rfl rfl rfl⟩, spare⟩

section Remove
variable {db next : Database} {T : Triple → Prop} (inv : db.Inv T)
include inv

theorem Database.Inv.shrink {U : Triple → Prop} (holds : next.kvstore.Holds U)
    (fewer : ∀ u, U u → T u)
    (entities : next.entities = db.entities) (literals : next.literals = db.literals)
    (predicates : next.predicates = db.predicates) : next.Inv U := by
  cases next
  cases entities
  cases literals
  cases predicates
  exact { inv with
    holds := holds
    subLive := fun u h => inv.subLive u (fewer u h)
    preLive := fun u h => inv.preLive u (fewer u h)
    objEntity := fun u h => inv.objEntity u (fewer u h)
    objLiteral := fun u h => inv.objLiteral u (fewer u h) }

variable {str : String} {i : Nat}

theorem Database.Inv.dropEntity (back : db.entities.strs i = some str)
    (unused : ∀ t, T t → t.sub ≠ i ∧ t.obj ≠ i) (kvstore : next.kvstore = db.kvstore)
    (entities : next.entities = db.entities.drop i str) (literals : next.literals = db.literals)
    (predicates : next.predicates = db.predicates) : next.Inv T := by
  obtain ⟨sound, same, -, strs⟩ := drop_spec inv.entities back
  rw [inv.entityBase, Nat.add_zero, ← entities] at sound same strs
  cases next
  cases kvstore
  cases literals
  cases predicates
  exact { inv with
    entities := sound
    entityBase := same
    subLive := fun u h => by rw [strs, Function.update_of_ne (unused u h).1]; exact inv.subLive u h
    objEntity := fun u h kind
    => by rw [strs, Function.update_of_ne (unused u h).2]; exact inv.objEntity u h kind }

theorem Database.Inv.dropLiteral (back : db.literals.strs i = some str)
    (unused : ∀ t, T t → t.obj ≠ i + literalFirstID) (kvstore : next.kvstore = db.kvstore)
    (entities : next.entities = db.entities)
    (literals : next.literals = db.literals.drop (i + literalFirstID) str)
    (predicates : next.predicates = db.predicates) : next.Inv T := by
  obtain ⟨sound, same, -, strs⟩ := drop_spec inv.literals back
  rw [inv.literalBase, ← literals] at sound same strs
  cases next
  cases kvstore
  cases entities
  cases predicates
  exact { inv with
    literals := sound
    literalBase := same
    objLiteral := fun u h kind => by
      have literal : literalFirstID ≤ u.obj := by simpa [isEntityEle] using kind
      have apart : u.obj - literalFirstID ≠ i := fun hit => unused u h (by omega)
      rw [strs, Function.update_of_ne apart]
      exact inv.objLiteral u h kind }

theorem Database.Inv.dropPredicate (back : db.predicates.strs i = some str)
    (unused : ∀ t, T t → t.pre ≠ i) (kvstore : next.kvstore = db.kvstore)
    (entities : next.entities = db.entities) (literals : next.literals = db.literals)
    (predicates : next.predicates = db.predicates.drop i str) : next.Inv T := by
  obtain ⟨sound, same, -, strs⟩ := drop_spec inv.predicates back
  rw [inv.predicateBase, Nat.add_zero, ← predicates] at sound same strs
  cases next
  cases kvstore
  cases entities
  cases literals
  exact { inv with
    predicates := sound
    predicateBase := same
    preLive := fun u h => by rw [strs, Function.update_of_ne (unused u h)]; exact inv.preLive u h }

end Remove

theorem removeTriple_cases (inv : db.Inv T) (t : TripleWithObjType)
    (room : db.kvstore.Room (db.predicates.getID t.predicate)) :
    db.removeTriple t = some (false, db) ∨
      ∃ s p o kv, db.entities.getID t.subject = s ∧ db.entities.strs s = some t.subject ∧
        db.predicates.strs p = some t.predicate ∧ db.ObjectLive t.isObjEntity t.object o ∧
        T ⟨s, p, o⟩ ∧
        db.kvstore.existTriple s p o = true ∧ kv.Holds (fun u => u ≠ ⟨s, p, o⟩ ∧ T u) ∧
        db.removeTriple t = some (true,
          ((((db.unstore kv).dropSubject t s).dropObject t o).uncountType t).dropPredicate t
          p) := by
  unfold removeTriple
  by_cases unknown : db.entities.getID t.subject = invalidID ∨
    db.predicates.getID t.predicate = invalidID ∨
      db.getObjID t = invalidID
  · exact .inl (if_pos unknown)
  simp only [if_neg unknown]
  simp only [not_or] at unknown
  obtain ⟨s, subID, -, sub, small⟩ := inv.entities.getID unknown.1
  obtain ⟨p, preID, -, pre, -⟩ := inv.predicates.getID unknown.2.1
  rw [inv.entityBase, Nat.add_zero] at subID
  rw [inv.predicateBase, Nat.add_zero] at preID
  have entity := isEntityEle_of_lt small
  rw [preID] at room
  rw [subID, preID]
  cases stored : db.kvstore.existTriple s p (db.getObjID t) with
  | false => exact .inl rfl
  | true =>
    have present := (existTriple_iff inv.holds entity _ _).mp stored
    obtain ⟨kv, ran, holds⟩ :=
      updateTupleslistRemove_holds inv.holds ⟨s, p, db.getObjID t⟩ present room
    have live : db.ObjectLive t.isObjEntity t.object (db.getObjID t) := by
      have known := unknown.2.2
      cases kind : t.isObjEntity with
      | true =>
        simp only [getObjID, kind, if_true, Database.ObjectLive] at known ⊢
        obtain ⟨o, objID, -, obj, bound⟩ := inv.entities.getID known
        rw [inv.entityBase, Nat.add_zero] at objID
        rw [objID]
        exact ⟨obj, isEntityEle_of_lt bound⟩
      | false =>
        simp only [getObjID, kind, Bool.false_eq_true, if_false, Database.ObjectLive] at known ⊢
        obtain ⟨o, objID, -, obj, bound⟩ := inv.literals.getID known
        rw [inv.literalBase] at objID
        rw [objID, Nat.add_sub_cancel]
        exact ⟨obj, decide_eq_false (by omega), by omega⟩
    refine .inr ⟨s, p, db.getObjID t, kv, rfl, sub, pre, live, present, stored, holds, ?_⟩
    simp [Bool.not_true, Bool.false_eq_true, ran, map_some]

def Database.isLastLoop (db : Database) (t : TripleWithObjType) : Bool :=
  let s := db.entities.getID t.subject
  t.isObjEntity && decide (t.subject = t.object) && decide (s ≠ invalidID) &&
    decide (db.predicates.getID t.predicate ≠ invalidID) &&
    db.kvstore.existTriple s (db.predicates.getID t.predicate) s && decide
    (db.kvstore.getEntityDegree s = 2)

/-- No dictionary of `next` has a term that `db` does not have. -/
structure Database.Shrinks (db next : Database) : Prop where
  entities : db.entities.Shrinks next.entities
  literals : db.literals.Shrinks next.literals
  predicates : db.predicates.Shrinks next.predicates

theorem Database.Shrinks.trans {a b c : Database} (left : a.Shrinks b) (right : b.Shrinks c) :
    a.Shrinks c :=
  ⟨left.entities.trans right.entities, left.literals.trans right.literals,
      left.predicates.trans right.predicates⟩

theorem removal_shrinks (db : Database) (t : TripleWithObjType) (s p o : Nat) (kv : KVstore) :
    db.Shrinks (((((db.unstore kv).dropSubject t s).dropObject t o).uncountType t).dropPredicate t
      p) := by
  have subject (db : Database) : db.Shrinks (db.dropSubject t s) := by
    unfold dropSubject
    split
    · exact ⟨drop_shrinks _ _ _, .refl _, .refl _⟩
    · split <;> exact ⟨.refl _, .refl _, .refl _⟩
  have object (db : Database) : db.Shrinks (db.dropObject t o) := by
    unfold dropObject
    split <;> split
    · exact ⟨drop_shrinks _ _ _, .refl _, .refl _⟩
    · exact ⟨.refl _, .refl _, .refl _⟩
    · exact ⟨.refl _, drop_shrinks _ _ _, .refl _⟩
    · exact ⟨.refl _, .refl _, .refl _⟩
  have type (db : Database) : db.Shrinks (db.uncountType t) := by
    obtain ⟨-, entities, literals, predicates⟩ := uncountType_frame db t
    exact ⟨entities ▸ .refl _, literals ▸ .refl _, predicates ▸ .refl _⟩
  have predicate (db : Database) : db.Shrinks (db.dropPredicate t p) := by
    unfold dropPredicate
    split
    · exact ⟨.refl _, .refl _, drop_shrinks _ _ _⟩
    · exact ⟨.refl _, .refl _, .refl _⟩
  exact Database.Shrinks.trans (b := db.unstore kv) ⟨.refl _, .refl _, .refl _⟩
    ((((subject _).trans (object _)).trans (type _)).trans (predicate _))

section Drops
variable {db : Database} {T : Triple → Prop} (inv : db.Inv T) (t : TripleWithObjType)
include inv

theorem dropSubject_inv {s : Nat} (sub : db.entities.strs s = some t.subject) :
    (db.dropSubject t s).Inv T ∧ (db.dropSubject t s).kvstore = db.kvstore ∧
      (db.dropSubject t s).literals = db.literals ∧
      (db.dropSubject t s).predicates = db.predicates ∧
      ∀ i, i ≠ s ∨ db.kvstore.getEntityDegree s ≠ 0 →
        (db.dropSubject t s).entities.strs i = db.entities.strs i := by
  unfold dropSubject
  split
  · rename_i isolated
    have unused := (degree_eq_zero inv.holds s).mp isolated
    have dropped := drop_spec inv.entities sub
    rw [inv.entityBase, Nat.add_zero] at dropped
    refine ⟨inv.dropEntity sub unused rfl rfl rfl rfl, rfl, rfl, rfl, ?_⟩
    rintro i (apart | used)
    · simp [dropped.2.2.2, Function.update_of_ne apart]
    · exact absurd isolated used
  · split <;> exact ⟨inv.shrink inv.holds (fun _ h => h) rfl rfl rfl, rfl, rfl, rfl, fun _ _ => rfl⟩

theorem dropObject_inv {o : Nat}
    (entity : t.isObjEntity = true → db.kvstore.getEntityDegree o = 0 →
      db.entities.strs o = some t.object)
    (literal : t.isObjEntity = false → db.ObjectLive false t.object o) :
    (db.dropObject t o).Inv T ∧ (db.dropObject t o).predicates = db.predicates := by
  unfold dropObject
  cases kind : t.isObjEntity with
  | true =>
    simp only [if_true]
    split_ifs with isolated
    · have unused := (degree_eq_zero inv.holds o).mp isolated
      exact ⟨inv.dropEntity (entity kind isolated) unused rfl rfl rfl rfl, rfl⟩
    · exact ⟨inv, rfl⟩
  | false =>
    simp only [Bool.false_eq_true, if_false]
    obtain ⟨live, kind, -⟩ := literal kind
    have large : literalFirstID ≤ o := by simpa [isEntityEle] using kind
    split_ifs with isolated
    · have unused := (inDegree_eq_zero inv.holds o).mp isolated
      refine ⟨inv.dropLiteral live ?_ rfl rfl ?_ rfl, rfl⟩
      · intro u present hit
        rw [Nat.sub_add_cancel large] at hit
        exact unused u.pre u.sub (hit ▸ present)
      · rw [Nat.sub_add_cancel large]
    · exact ⟨inv, rfl⟩

theorem dropPredicate_inv {p : Nat} (pre : db.predicates.strs p = some t.predicate) :
    (db.dropPredicate t p).Inv T := by
  unfold dropPredicate
  split_ifs with isolated
  · have unused := (predicateDegree_eq_zero inv.holds p).mp isolated
    exact inv.dropPredicate pre
      (fun u present hit => unused u.sub u.obj (hit ▸ present)) rfl rfl rfl rfl
  · exact inv

theorem isLastLoop_of_isolated {s p : Nat} {kv : KVstore} (kind : t.isObjEntity = true)
    (sub : db.entities.strs s = some t.subject) (obj : db.entities.strs s = some t.object)
    (pre : db.predicates.strs p = some t.predicate) (present : T ⟨s, p, s⟩)
    (holds : kv.Holds fun u => u ≠ ⟨s, p, s⟩ ∧ T u) (isolated : kv.getEntityDegree s = 0) :
    db.isLastLoop t = true := by
  have same : t.subject = t.object := Option.some.inj (sub.symm.trans obj)
  obtain ⟨subID, subKnown⟩ := inv.entities.getID_live sub
  obtain ⟨preID, preKnown⟩ := inv.predicates.getID_live pre
  rw [inv.entityBase, Nat.add_zero] at subID
  rw [inv.predicateBase, Nat.add_zero] at preID
  have entity := isEntityEle_of_lt (inv.entities.live _ _ sub).2.2
  have stored := (existTriple_iff inv.holds entity p s).mpr present
  have degree := degree_of_lone_loop inv.holds present fun u used touches => by
    by_contra other
    have away := (degree_eq_zero holds s).mp isolated u ⟨other, used⟩
    exact touches.elim away.1 away.2
  rw [subID] at subKnown
  rw [preID] at preKnown
  simp only [isLastLoop, kind, subID, preID, Bool.and_eq_true, decide_eq_true_eq]
  exact ⟨⟨⟨⟨⟨trivial, same⟩, subKnown⟩, preKnown⟩, stored⟩, degree⟩

theorem removal_inv (several : db.isLastLoop t = false) {s p o : Nat} {kv : KVstore}
    (sub : db.entities.strs s = some t.subject) (pre : db.predicates.strs p = some t.predicate)
    (obj : db.ObjectLive t.isObjEntity t.object o) (present : T ⟨s, p, o⟩)
    (holds : kv.Holds fun u => u ≠ ⟨s, p, o⟩ ∧ T u) :
    (((((db.unstore kv).dropSubject t s).dropObject t o).uncountType t).dropPredicate t p).Inv
      fun u => u ≠ ⟨s, p, o⟩ ∧ T u := by
  have start : (db.unstore kv).Inv fun u => u ≠ ⟨s, p, o⟩ ∧ T u :=
    inv.shrink holds (fun _ h => h.2) rfl rfl rfl
  obtain ⟨invS, kvS, litS, preS, strsS⟩ := dropSubject_inv start t sub
  obtain ⟨invO, preO⟩ := dropObject_inv invS t (o := o)
    (by
      intro kind isolated
      rw [kind] at obj
      rw [strsS]
      · exact obj.1
      · obtain rfl | loop := eq_or_ne o s
        · rw [kvS] at isolated
          have last := isLastLoop_of_isolated inv t kind sub obj.1 pre present holds isolated
          exact absurd last (by simp [several])
        · exact .inl loop)
    (by
      intro kind
      simp only [kind] at obj
      simp only [Database.ObjectLive, Bool.false_eq_true, if_false] at obj ⊢
      rw [litS]
      exact obj)
  obtain ⟨kvU, entU, litU, preU⟩ :=
    uncountType_frame (((db.unstore kv).dropSubject t s).dropObject t o) t
  have invU := invO.shrink (kvU ▸ invO.holds) (fun _ h => h) entU litU preU
  exact dropPredicate_inv invU t (p := p) (by rw [preU, preO, preS]; exact pre)

theorem removeTriple_inv (several : db.isLastLoop t = false)
    (room : db.kvstore.Room (db.predicates.getID t.predicate)) :
    ∃ done next, db.removeTriple t = some (done, next) ∧ (∃ U, next.Inv U) ∧ db.Shrinks next := by
  rcases removeTriple_cases inv t room with refused |
    ⟨s, p, o, kv, -, sub, pre, obj, present, -, holds, removed⟩
  · exact ⟨false, db, refused, ⟨T, inv⟩, .refl _, .refl _, .refl _⟩
  · exact ⟨true, _, removed, ⟨_, removal_inv inv t several sub pre obj present holds⟩,
      removal_shrinks db t s p o kv⟩

end Drops

end GStore
