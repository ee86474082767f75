import GStore.Database.Bijection
import GStore.Database.Statistics

/-! Entity ids without gaps: as long as no id goes to the free list, the live ids are those below
the number of entities. -/
namespace GStore
open Lib

/-- The number of terms is the limit, unless the ids have run out. -/
structure TermTable.Dense (tbl : TermTable) : Prop where
  noneFree : tbl.freelist = []
  counted : tbl.num = tbl.limit ∨ (tbl.num < tbl.limit ∧ literalFirstID ≤ tbl.limit + 1)
  live : ∀ i str, tbl.strs i = some str → i < tbl.num

theorem init_dense (base top : Nat) : (TermTable.init base top).Dense :=
  ⟨rfl, .inl rfl, fun _ _ found => by cases found⟩

variable {tbl : TermTable}

theorem alloc_dense (sound : tbl.Sound) (spare : tbl.Spare 1) (dense : tbl.Dense) :
    tbl.alloc.2.Dense ∧ (tbl.alloc.1 = invalidID ∨ tbl.alloc.1 = tbl.limit + tbl.base ∧
      tbl.limit < tbl.alloc.2.num) := by
  have small : literalFirstID < 2 ^ 32 := by decide
  simp only [alloc_eq sound spare, dense.noneFree]
  by_cases out : literalFirstID ≤ tbl.limit + 1
  · simp only [if_pos out]
    refine ⟨⟨rfl, ?_, dense.live⟩, .inl trivial⟩
    rcases dense.counted with same | ⟨less, -⟩
    · exact .inr ⟨same ▸ Nat.lt_succ_self _, Nat.le_succ_of_le out⟩
    · exact .inr ⟨Nat.lt_succ_of_lt less, Nat.le_succ_of_le out⟩
  · have same : tbl.num = tbl.limit := dense.counted.resolve_right fun exhausted => out exhausted.2
    have next : (tbl.num + 1) % 2 ^ 32 = tbl.limit + 1 := by rw [same, Nat.mod_eq_of_lt (by omega)]
    simp only [if_neg out, next]
    exact ⟨⟨rfl, .inl rfl, fun i str found => Nat.lt_succ_of_lt (same ▸ dense.live i str found)⟩,
      .inr ⟨trivial, Nat.lt_succ_self _⟩⟩

theorem create_alloc (tbl : TermTable) (str : String) :
    (tbl.create str).2.2.freelist = tbl.alloc.2.freelist ∧
    (tbl.create str).2.2.limit = tbl.alloc.2.limit ∧
      (tbl.create str).2.2.num = tbl.alloc.2.num ∧ (tbl.create str).2.1 = tbl.alloc.1 := by
  have entered : (tbl.alloc.2.setID str tbl.alloc.1).2.freelist = tbl.alloc.2.freelist ∧
      (tbl.alloc.2.setID str tbl.alloc.1).2.limit = tbl.alloc.2.limit ∧
      (tbl.alloc.2.setID str tbl.alloc.1).2.num = tbl.alloc.2.num := by
    unfold TermTable.setID
    split <;> exact ⟨rfl, rfl, rfl⟩
  rw [create_eq]
  split
  · exact ⟨entered.1, entered.2.1, entered.2.2, rfl⟩
  · unfold TermTable.setStr
    split <;> exact ⟨entered.1, entered.2.1, entered.2.2, rfl⟩

theorem resolve_dense (sound : tbl.Sound) (spare : tbl.Spare 1) (dense : tbl.Dense) (str : String) :
    (tbl.resolve str).table.Dense := by
  unfold TermTable.resolve
  split
  · obtain ⟨allocated, fresh⟩ := alloc_dense sound spare dense
    obtain ⟨freelist, limit, num, id⟩ := create_alloc tbl str
    have created := create_spec sound spare str
    refine ⟨freelist.trans allocated.noneFree, by rw [num, limit]; exact allocated.counted, fun i other found => ?_⟩
    rw [num]
    cases ok : (tbl.create str).1 with
    | false =>
      rw [created.refused ok, ← (alloc_spec sound spare).strs] at found
      exact allocated.live i other found
    | true =>
      obtain ⟨j, place, -, small, -, strs⟩ := created.accepted ok
      rw [strs] at found
      obtain rfl | same := eq_or_ne i j
      · have valid := shifted_ne_invalid small sound.baseBelow
        rw [id] at place
        rcases fresh with out | ⟨top, below⟩
        · exact absurd (place.symm.trans out) valid
        · have : i = tbl.limit := Nat.add_right_cancel (place.symm.trans top)
          rwa [this]
      · rw [Function.update_of_ne same, ← (alloc_spec sound spare).strs] at found
        exact allocated.live i other found
  · exact dense

theorem drop_dense (sound : tbl.Sound) (base : tbl.base = 0) (dense : tbl.Dense) {i : Nat}
    {str : String}
    (back : tbl.strs i = some str) (top : i + 1 = tbl.limit) :
    (tbl.drop i str).Dense ∧ (tbl.drop i str).limit = tbl.limit - 1 := by
  have below := dense.live i str back
  have same : tbl.num = tbl.limit := by
    rcases dense.counted with same | ⟨less, -⟩
    · exact same
    · omega
  have small := (sound.live i str back).2.2
  have word : literalFirstID < 2 ^ 32 := by decide
  have next : (tbl.num + (2 ^ 32 - 1)) % 2 ^ 32 = tbl.limit - 1 := by omega
  simp only [TermTable.drop, TermTable.freeID, base, Nat.sub_zero, if_pos top, next]
  refine ⟨⟨dense.noneFree, .inl rfl, fun j other found => ?_⟩, trivial⟩
  simp only at found ⊢
  obtain rfl | here := eq_or_ne j i
  · simp at found
  · rw [Function.update_of_ne here] at found
    have := dense.live j other found
    omega

section Insert
variable {db : Database} {T : Triple → Prop} (inv : db.Inv T) (t : TripleWithObjType)
include inv

theorem resolveTerms_dense (spare : db.Spare 3) (dense : db.entities.Dense) :
    (db.resolveTerms t).1.entities.Dense := by
  rcases ranS : db.resolveSubject t with ⟨s, db₁⟩
  obtain ⟨growS, spareS, -, -⟩ := resolveSubject_spec inv t spare ranS
  rcases ranP : db₁.resolvePredicate t with ⟨p, db₂⟩
  obtain ⟨growP, spareP, -, -⟩ := resolvePredicate_spec (inv.grow growS) t spareS ranP
  rcases ranO : db₂.resolveObject t with ⟨o, db₃⟩
  have first : db₁.entities.Dense := by
    cases ranS
    exact resolve_dense inv.entities (spare.1.mono (by decide)) dense t.subject
  have second : db₂.entities.Dense := by
    cases ranP
    exact first
  have third : db₃.entities.Dense := by
    unfold Database.resolveObject at ranO
    cases kind : t.isObjEntity with
    | true =>
      simp only [kind, if_true] at ranO
      cases ranO
      have kept := resolve_dense (inv.grow (growS.trans growP)).entities spareP.1 second t.object
      split <;> exact kept
    | false =>
      simp only [kind, Bool.false_eq_true, if_false] at ranO
      cases ranO
      exact second
  simp only [Database.resolveTerms, ranS, ranP, ranO]
  cases s.ok with
  | false => exact first
  | true =>
    cases p.ok with
    | false => exact second
    | true => cases o.ok <;> exact third

theorem insertTriple_dense (spare : db.Spare 3) (dense : db.entities.Dense) :
    (db.insertTriple t).2.entities.Dense := by
  have resolved := resolveTerms_dense inv t spare dense
  rcases insertTriple_cases inv t spare with ⟨refused, -⟩ | ⟨ids, -, -, stored⟩
  · rwa [refused]
  · rwa [stored]

end Insert

variable (db : Database) (t : TripleWithObjType)

/-- The entities that lose their last triple have the largest ids: the subject the largest of all,
the object the largest that is left then. A self-loop is not the last triple of its entity. -/
def Database.FreesTop : Prop :=
  let s := db.entities.getID t.subject
  let o := db.entities.getID t.object
  db.stores t = true →
    db.isLastLoop t = false ∧ (db.kvstore.getEntityDegree s = 1 → s + 1 = db.entities.limit) ∧
      (t.isObjEntity = true → db.kvstore.getEntityDegree o = 1 →
        o + 1 + (if db.kvstore.getEntityDegree s = 1 then 1 else 0) = db.entities.limit)

instance (db : Database) (t : TripleWithObjType) : Decidable (db.FreesTop t) :=
  inferInstanceAs (Decidable (_ → _ ∧ (_ → _) ∧ (_ → _ → _)))

theorem represents_one {k : Side} {value : Option (List Nat)} {R : Nat → Nat → Prop}
    (shown : Represents k value R)
    (one : (match value with
      | none => 0
      | some tmp =>
        word tmp 0) = 1) {p x q y : Nat} (here : R p x) (there : R q y) : q = p ∧ y = x := by
  obtain ⟨gs, whole, rfl, members⟩ := shown
  have count : (pairs gs).length = 1 := by
    obtain rfl | empty := eq_or_ne gs []
    · simp [stored] at one
    · simp only [stored, if_neg empty, word_pack_zero] at one
      rw [length_pairs]
      exact one
  obtain ⟨pair, single⟩ := List.length_eq_one_iff.mp count
  have first := (members p x).mpr here
  have second := (members q y).mpr there
  rw [single, List.mem_singleton] at first second
  have same := second.trans first.symm
  exact ⟨congrArg Prod.fst same, congrArg Prod.snd same⟩

section Degree
variable {kv kv' : KVstore} {T : Triple → Prop} {s p o : Nat} (holds : kv.Holds T)
    (present : T ⟨s, p, o⟩)
  (taken : kv'.Holds fun u => u ≠ ⟨s, p, o⟩ ∧ T u) (apart : s ≠ o)
include holds present taken apart

theorem subject_isolated : kv'.getEntityDegree s = 0 ↔ kv.getEntityDegree s = 1 := by
  rw [degree_eq_zero taken]
  constructor
  · intro none
    have out : kv.getEntityOutDegree s = 1 :=
      (represents_count (holds.subjects s)).2 p o present fun q y h => by
        by_contra other
        exact (none ⟨s, q, y⟩ ⟨fun same => other (by simpa using same), h⟩).1 rfl
    have into : kv.getEntityInDegree s = 0 := (inDegree_eq_zero holds s).mpr fun q u h =>
      (none ⟨u, q, s⟩ ⟨fun same => apart (by simpa using (congrArg Triple.obj same)), h⟩).2 rfl
    rw [KVstore.getEntityDegree, out, into]
  · rintro one ⟨a, q, b⟩ kept
    have some : kv.getEntityOutDegree s ≠ 0 :=
      fun zero => (outDegree_eq_zero holds s).mp zero p o present
    rw [KVstore.getEntityDegree] at one
    have out : kv.getEntityOutDegree s = 1 := by omega
    have into : kv.getEntityInDegree s = 0 := by omega
    refine ⟨fun same => kept.1 ?_, fun same => (inDegree_eq_zero holds s).mp into q a
        (same ▸ kept.2)⟩
    have other : T ⟨s, q, b⟩ := same ▸ kept.2
    have only := represents_one (holds.subjects s) out present other
    rw [show a = s from same, only.1, only.2]

theorem object_isolated : kv'.getEntityDegree o = 0 ↔ kv.getEntityDegree o = 1 := by
  rw [degree_eq_zero taken]
  constructor
  · intro none
    have into : kv.getEntityInDegree o = 1 :=
      (represents_count (holds.objects o)).2 p s present fun q y h => by
        by_contra other
        refine (none ⟨y, q, o⟩ ⟨fun same => other ?_, h⟩).2 rfl
        simp only [Triple.mk.injEq, and_true] at same
        exact ⟨same.2, same.1⟩
    have out : kv.getEntityOutDegree o = 0 := (outDegree_eq_zero holds o).mpr fun q u h =>
      (none ⟨o, q, u⟩ ⟨fun same => apart (by simpa using (congrArg Triple.sub same).symm), h⟩).1 rfl
    rw [KVstore.getEntityDegree, out, into]
  · rintro one ⟨a, q, b⟩ kept
    have some : kv.getEntityInDegree o ≠ 0 :=
      fun zero => (inDegree_eq_zero holds o).mp zero p s present
    rw [KVstore.getEntityDegree] at one
    have out : kv.getEntityOutDegree o = 0 := by omega
    have into : kv.getEntityInDegree o = 1 := by omega
    refine ⟨fun same => (outDegree_eq_zero holds o).mp out q b (same ▸ kept.2),
        fun same => kept.1 ?_⟩
    have other : T ⟨a, q, o⟩ := same ▸ kept.2
    have only := represents_one (holds.objects o) into present other
    rw [show b = o from same, only.1, only.2]

end Degree

theorem dropSubject_entities (s : Nat) :
    (db.dropSubject t s).kvstore = db.kvstore ∧ (db.dropSubject t s).entities =
      if db.kvstore.getEntityDegree s = 0 then db.entities.drop s t.subject else db.entities := by
  unfold Database.dropSubject
  split
  · exact ⟨rfl, rfl⟩
  · split <;> exact ⟨rfl, rfl⟩

theorem dropObject_entities (o : Nat) : (db.dropObject t o).entities =
      if t.isObjEntity = true ∧
          db.kvstore.getEntityDegree o = 0 then db.entities.drop o t.object else db.entities := by
  unfold Database.dropObject
  cases kind : t.isObjEntity with
  | true =>
    simp only [if_true, true_and]
    split <;> rfl
  | false =>
    simp only [Bool.false_eq_true, if_false, false_and]
    split <;> rfl

theorem dropPredicate_entities (p : Nat) : (db.dropPredicate t p).entities = db.entities := by
  unfold Database.dropPredicate
  split <;> rfl

section Remove
variable {db : Database} {T : Triple → Prop} (inv : db.Inv T) (t : TripleWithObjType)
include inv

theorem removal_dense (dense : db.entities.Dense) (top : db.FreesTop t) {s p o : Nat} {kv : KVstore}
    (sub : db.entities.strs s = some t.subject) (pre : db.predicates.strs p = some t.predicate)
    (obj : db.ObjectLive t.isObjEntity t.object o) (present : T ⟨s, p, o⟩)
    (stored : db.kvstore.existTriple s p o = true)
    (holds : kv.Holds fun u => u ≠ ⟨s, p, o⟩ ∧ T u) : db.isLastLoop t = false ∧
      (((((db.unstore kv).dropSubject t s).dropObject t o).uncountType t).dropPredicate t
        p).entities.Dense := by
  obtain ⟨kept, objID⟩ := stores_of_live inv t sub pre obj stored
  obtain ⟨subID, -⟩ := inv.entities.getID_live sub
  rw [inv.entityBase, Nat.add_zero] at subID
  obtain ⟨several, topSubject, topObject⟩ := top kept
  rw [subID] at topSubject topObject
  refine ⟨several, ?_⟩
  rw [dropPredicate_entities, (uncountType_frame _ t).2.1, dropObject_entities]
  rw [(dropSubject_entities (db.unstore kv) t s).1, (dropSubject_entities (db.unstore kv) t s).2]
  show TermTable.Dense (if t.isObjEntity = true ∧ kv.getEntityDegree o = 0 then
    (if kv.getEntityDegree s = 0 then db.entities.drop s t.subject else db.entities).drop o
    t.object else
    (if kv.getEntityDegree s = 0 then db.entities.drop s t.subject else db.entities))
  by_cases loop : s = o
  · -- the entity of a loop that is not its last triple stays
    subst loop
    have entity := isEntityEle_of_lt (inv.entities.live _ _ sub).2.2
    have kind : t.isObjEntity = true := by
      cases kind : t.isObjEntity with
      | true => rfl
      | false =>
        rw [kind] at obj
        exact absurd (entity.symm.trans obj.2.1) (by decide)
    rw [kind] at obj
    have linked : kv.getEntityDegree s ≠ 0 := fun isolated =>
      absurd (isLastLoop_of_isolated inv t kind sub obj.1 pre present holds isolated)
      (by simp [several])
    rw [if_neg linked, if_neg fun both => linked both.2]
    exact dense
  · simp only [subject_isolated inv.holds present holds loop,
        object_isolated inv.holds present holds loop]
    by_cases goneSubject : db.kvstore.getEntityDegree s = 1
    · obtain ⟨first, limit⟩ :=
        drop_dense inv.entities inv.entityBase dense sub (topSubject goneSubject)
      have dropped := drop_spec inv.entities sub
      rw [inv.entityBase, Nat.add_zero] at dropped
      simp only [if_pos goneSubject] at topObject ⊢
      by_cases goneObject : t.isObjEntity = true ∧ db.kvstore.getEntityDegree o = 1
      · rw [if_pos goneObject]
        obtain ⟨kind, one⟩ := goneObject
        rw [kind] at obj
        have back : (db.entities.drop s t.subject).strs o = some t.object := by
          rw [dropped.2.2.2, Function.update_of_ne (Ne.symm loop)]
          exact obj.1
        have height := topObject kind (by rw [objID kind]; exact one)
        rw [objID kind] at height
        exact (drop_dense dropped.1 dropped.2.1 first back (by omega)).1
      · rw [if_neg goneObject]
        exact first
    · simp only [if_neg goneSubject, Nat.add_zero] at topObject ⊢
      by_cases goneObject : t.isObjEntity = true ∧ db.kvstore.getEntityDegree o = 1
      · rw [if_pos goneObject]
        obtain ⟨kind, one⟩ := goneObject
        rw [kind] at obj
        have height := topObject kind (by rw [objID kind]; exact one)
        rw [objID kind] at height
        exact (drop_dense inv.entities inv.entityBase dense obj.1 height).1
      · rw [if_neg goneObject]
        exact dense

end Remove

/-- A removal frees only the largest entity ids, and no call wraps a limit or a list around. -/
def Database.DenseEdit : Edit → Prop
  | .insert t => db.Fits 0 t
  | .remove t => db.FreesTop t ∧ db.Fits 0 t

instance (db : Database) (e : Edit) : Decidable (db.DenseEdit e) :=
  match e with
  | .insert t => inferInstanceAs (Decidable (db.Fits 0 t))
  | .remove t => inferInstanceAs (Decidable (db.FreesTop t ∧ db.Fits 0 t))

theorem edit_dense (e : Edit) (kept : (∃ T, db.Inv T) ∧ db.entities.Dense)
    (guard : db.DenseEdit e) :
    ∃ next, db.edit e = some next ∧ (∃ T, next.Inv T) ∧ next.entities.Dense := by
  obtain ⟨⟨T, inv⟩, dense⟩ := kept
  cases e with
  | insert t =>
    exact ⟨_, rfl, (insertTriple_inv inv t guard).1, insertTriple_dense inv t guard.1 dense⟩
  | remove t =>
    rcases removeTriple_cases inv t guard.2.2 with refused |
      ⟨s, p, o, kv, -, sub, pre, obj, present, stored, holds, removed⟩
    · exact ⟨db, by simp [Database.edit, refused], ⟨T, inv⟩, dense⟩
    · obtain ⟨several, after⟩ := removal_dense inv t dense guard.1 sub pre obj present stored holds
      exact ⟨_, by simp [Database.edit, removed], ⟨_, removal_inv inv t several sub pre obj present holds⟩, after⟩

end GStore
