import GStore.KVstore.Store
import Mathlib.Data.List.Dedup
import Mathlib.Data.Finset.Insert

/-! The triple set that the three indexes stand for, and the run theorem of the single-triple
updates: the indexes decode to the set obtained by the same insertions and deletions. -/
namespace GStore
open Lib Function List

@[ext] structure Triple where
  sub : Nat
  pre : Nat
  obj : Nat
  deriving DecidableEq, Repr

structure IdTriple extends Triple where
  subFits : sub < maxKeyNum
  preFits : pre < maxKeyNum
  objFits : obj < literalFirstID + maxKeyNum
  deriving DecidableEq

/-- A subject or object value stands for the relation `R` between predicates and partners. -/
def Represents (k : Side) (value : Option (List Nat)) (R : Nat → Nat → Prop) : Prop :=
  ∃ gs, Grouped gs ∧ value = stored k gs ∧ ∀ p x, (p, x) ∈ pairs gs ↔ R p x

def RepresentsColumns (value : Option (List Nat)) (R : Nat → Nat → Prop) : Prop :=
  ∃ ps, Increasing ps ∧ value = storedColumns ps ∧ ∀ s o, toLex (s, o) ∈ ps ↔ R s o

structure KVstore.Holds (kv : KVstore) (T : Triple → Prop) : Prop where
  allocated : kv.Allocated
  subjects : ∀ s, Represents .sub (kv.getValueByKey ⟨.subject, s⟩) fun p o => T ⟨s, p, o⟩
  objects : ∀ o, Represents .obj (kv.getValueByKey ⟨.object, o⟩) fun p s => T ⟨s, p, o⟩
  predicates : ∀ p, RepresentsColumns (kv.getValueByKey ⟨.predicate, p⟩) fun s o => T ⟨s, p, o⟩

/-- The words of a list, none for a key that has no list. -/
def valuesLen (value : Option (List Nat)) : Nat := (value.getD []).length

/-- One more pair of the predicate can be written with positions below `2 ^ 32`. -/
def KVstore.Room (kv : KVstore) (p : Nat) : Prop :=
  valuesLen (kv.getValueByKey ⟨.predicate, p⟩) + 2 < 2 ^ 32

instance (kv : KVstore) (p : Nat) : Decidable (kv.Room p) := inferInstanceAs (Decidable (_ < _))

variable {value : Option (List Nat)} {k : Side}

theorem represents_congr {R Q : Nat → Nat → Prop}
    (shown : Represents k value R) (same : ∀ p x, R p x ↔ Q p x) : Represents k value Q := by
  obtain ⟨gs, whole, layout, members⟩ := shown
  exact ⟨gs, whole, layout, fun p x => (members p x).trans (same p x)⟩

theorem representsColumns_congr {R Q : Nat → Nat → Prop}
    (shown : RepresentsColumns value R) (same : ∀ s o, R s o ↔ Q s o) :
    RepresentsColumns value Q := by
  obtain ⟨ps, sorted, layout, members⟩ := shown
  exact ⟨ps, sorted, layout, fun s o => (members s o).trans (same s o)⟩

variable {R : Nat → Nat → Prop}

theorem represents_insert {p x : Nat} (shown : Represents k value R) (absent : ¬ R p x) :
    Represents k (some (updateInsertValues k value p x)) fun q y => (q = p ∧ y = x) ∨ R q y := by
  obtain ⟨gs, whole, rfl, members⟩ := shown
  obtain ⟨hs, spliced, grouped, added⟩ :=
    updateInsertValues_spec k whole (fun h => absent ((members p x).mp h))
  have nonempty : hs ≠ [] := by
    rintro rfl
    simpa using (added p x).mpr (.inl ⟨rfl, rfl⟩)
  refine ⟨hs, grouped, by rw [spliced, stored, if_neg nonempty], fun q y => ?_⟩
  rw [added, members]

theorem represents_remove {p x : Nat} (shown : Represents k value R) (present : R p x) :
    ∃ tmp next, value = some tmp ∧ updateRemoveValues k tmp p x = some next ∧
      Represents k next fun q y => ¬ (q = p ∧ y = x) ∧ R q y := by
  obtain ⟨gs, whole, rfl, members⟩ := shown
  have member := (members p x).mpr present
  obtain ⟨hs, spliced, grouped, kept⟩ := updateRemoveValues_spec k whole member
  have nonempty : gs ≠ [] := by
    rintro rfl
    cases member
  refine ⟨pack k gs, stored k
      hs, by rw [stored, if_neg nonempty], spliced, hs, grouped, rfl, fun q y => ?_⟩
  rw [kept, members]

theorem pairs_lt_of_room {ps : List (Nat ×ₗ Nat)}
    (room : valuesLen (storedColumns ps) + 2 < 2 ^ 32) :
    ps.length + 1 < 2 ^ 31 := by
  obtain rfl | some := eq_or_ne ps []
  · decide
  · rw [storedColumns, if_neg some] at room
    simp [valuesLen, columns] at room
    omega

theorem representsColumns_insert {s o : Nat} (shown : RepresentsColumns value R) (absent : ¬ R s o)
    (room : valuesLen value + 2 < 2 ^ 32) :
    RepresentsColumns (some (updateInsertP2values value s o)) fun a b => (a = s ∧ b = o) ∨
    R a b := by
  obtain ⟨ps, sorted, rfl, members⟩ := shown
  obtain ⟨qs, spliced, increasing, added⟩ :=
    updateInsertP2values_spec sorted (fun h => absent ((members s o).mp h)) (pairs_lt_of_room room)
  have nonempty : qs ≠ [] := by
    rintro rfl
    simpa using (added (toLex (s, o))).mpr (.inl rfl)
  refine ⟨qs, increasing, by rw [spliced, storedColumns, if_neg nonempty], fun a b => ?_⟩
  rw [added, members, toLex_inj, Prod.mk.injEq]

theorem representsColumns_remove {s o : Nat} (shown : RepresentsColumns value R) (present : R s o)
    (room : valuesLen value + 2 < 2 ^ 32) :
    ∃ tmp next, value = some tmp ∧ updateRemoveP2values tmp s o = some next ∧
      RepresentsColumns next fun a b => ¬ (a = s ∧ b = o) ∧ R a b := by
  obtain ⟨ps, sorted, rfl, members⟩ := shown
  have member := (members s o).mpr present
  obtain ⟨qs, spliced, increasing, kept⟩ :=
    updateRemoveP2values_spec sorted member (Nat.lt_of_succ_lt (pairs_lt_of_room room))
  refine ⟨columns ps, storedColumns
      qs, by rw [storedColumns, if_neg (ne_nil_of_mem member)], spliced,
    qs, increasing, rfl, fun a b => ?_⟩
  rw [kept, members, ne_eq, toLex_inj, Prod.mk.injEq]

theorem empty_holds : KVstore.empty.Holds fun _ => False where
  allocated := empty_allocated_store
  subjects _ := ⟨[], grouped_nil, rfl, by simp⟩
  objects o := ⟨[], grouped_nil, by rw [KVstore.getValueByKey, search_eq (empty_allocated_store _)]; rfl, by simp⟩
  predicates _ := ⟨[], List.Pairwise.nil, rfl, by simp⟩

theorem IdTriple.subKey_fits (t : IdTriple) : Key.Fits ⟨.subject, t.sub⟩ := t.subFits
theorem IdTriple.preKey_fits (t : IdTriple) : Key.Fits ⟨.predicate, t.pre⟩ := t.preFits

theorem IdTriple.objKey_fits (t : IdTriple) : Key.Fits ⟨.object, t.obj⟩ := by
  have bound := t.objFits
  have first : literalFirstID < maxKeyNum := by decide
  by_cases literal : isLiteralEle t.obj = true
  · simp only [Key.Fits, locate, if_pos literal]
    have := of_decide_eq_true literal
    omega
  · simp only [Key.Fits, locate, if_neg literal]
    have : ¬ literalFirstID ≤ t.obj := fun h => literal (decide_eq_true h)
    omega

theorem holds_of_values {kv kv' : KVstore} {T U : Triple → Prop} {t : Triple}
    {a b c : Option (List Nat)}
    (holds : kv.Holds T) (allocated : kv'.Allocated) (elsewhere : ∀ u, u ≠ t → (U u ↔ T u))
    (values : kv'.getValueByKey = Function.update (Function.update (Function.update kv.getValueByKey
      ⟨.subject, t.sub⟩ a) ⟨.object, t.obj⟩ b) ⟨.predicate, t.pre⟩ c)
    (subject : Represents .sub a fun p o => U ⟨t.sub, p, o⟩)
    (object : Represents .obj b fun p s => U ⟨s, p, t.obj⟩)
    (predicate : RepresentsColumns c fun s o => U ⟨s, t.pre, o⟩) : kv'.Holds U where
  allocated := allocated
  subjects s := by
    rw [values, update_of_ne (by simp), update_of_ne (by simp)]
    obtain rfl | same := eq_or_ne s t.sub
    · rwa [update_self]
    · rw [update_of_ne (by simpa using same)]
      exact represents_congr (holds.subjects s) fun p o =>
        (elsewhere _ (fun h => same (congrArg Triple.sub h))).symm
  objects o := by
    rw [values, update_of_ne (by simp)]
    obtain rfl | same := eq_or_ne o t.obj
    · rwa [update_self]
    · rw [update_of_ne (by simpa using same), update_of_ne (by simp)]
      exact represents_congr (holds.objects o) fun p s =>
        (elsewhere _ (fun h => same (congrArg Triple.obj h))).symm
  predicates p := by
    rw [values]
    obtain rfl | same := eq_or_ne p t.pre
    · rwa [update_self]
    · rw [update_of_ne (by simpa using same), update_of_ne (by simp),
        update_of_ne (by simp)]
      exact representsColumns_congr (holds.predicates p)
        fun s o => (elsewhere _ (fun h => same (congrArg Triple.pre h))).symm

variable {T : Triple → Prop} {kv : KVstore}

theorem updateTupleslistInsert_values (allocated : kv.Allocated) (t : IdTriple) :
    (kv.updateTupleslistInsert t.sub t.pre t.obj).Allocated ∧
      (kv.updateTupleslistInsert t.sub t.pre t.obj).getValueByKey =
        Function.update (Function.update (Function.update kv.getValueByKey
          ⟨.subject, t.sub⟩ (some (updateInsertValues .sub
            (kv.getValueByKey ⟨.subject, t.sub⟩) t.pre t.obj)))
          ⟨.object, t.obj⟩ (some (updateInsertValues .obj
            (kv.getValueByKey ⟨.object, t.obj⟩) t.pre t.sub)))
          ⟨.predicate, t.pre⟩ (some
            (updateInsertP2values (kv.getValueByKey ⟨.predicate, t.pre⟩) t.sub t.obj)) := by
  obtain ⟨first, one⟩ := updateInsert_spec allocated t.subKey_fits
    fun value => updateInsertValues .sub value t.pre t.obj
  obtain ⟨second, two⟩ := updateInsert_spec first t.objKey_fits
    fun value => updateInsertValues .obj value t.pre t.sub
  obtain ⟨third, three⟩ := updateInsert_spec second t.preKey_fits
    fun value => updateInsertP2values value t.sub t.obj
  rw [two, one, update_of_ne (by simp), update_of_ne (by simp), update_of_ne (by simp)] at three
  exact ⟨third, three⟩

/-- An insertion makes the list of the predicate two words longer, or lays out its first pair in
three. -/
theorem updateTupleslistInsert_length (allocated : kv.Allocated) (t : IdTriple) {p m : Nat}
    (pairs : valuesLen (kv.getValueByKey ⟨.predicate, p⟩) ≤ 2 * m + 1) :
    valuesLen ((kv.updateTupleslistInsert t.sub t.pre t.obj).getValueByKey ⟨.predicate, p⟩) ≤
      2 * (m + if p = t.pre then 1 else 0) + 1 := by
  rw [(updateTupleslistInsert_values allocated t).2]
  by_cases own : p = t.pre
  · subst own
    rw [update_self, if_pos rfl]
    cases value : kv.getValueByKey ⟨.predicate, t.pre⟩ with
    | none => exact Nat.add_le_add_right (Nat.mul_le_mul_left 2 (Nat.le_add_left 1 _)) 1
    | some tmp =>
      rw [value] at pairs
      simp only [valuesLen, updateInsertP2values, Option.getD_some, length_written] at pairs ⊢
      omega
  · rw [update_of_ne (by simpa using own), update_of_ne (by simp), update_of_ne (by simp), if_neg own]
    exact pairs

theorem updateTupleslistInsert_holds (holds : kv.Holds T) (t : IdTriple) (absent : ¬ T t.toTriple)
    (room : kv.Room t.pre) :
    (kv.updateTupleslistInsert t.sub t.pre t.obj).Holds fun u => u = t.toTriple ∨ T u := by
  obtain ⟨allocated, values⟩ := updateTupleslistInsert_values holds.allocated t
  refine holds_of_values holds allocated (fun u other => by simp [other]) values ?_ ?_ ?_
  · exact represents_congr (represents_insert (holds.subjects t.sub) absent)
      fun p o => by simp [Triple.ext_iff]
  · exact represents_congr (represents_insert (holds.objects t.obj) absent)
      fun p s => by simp [Triple.ext_iff, and_comm]
  · exact representsColumns_congr (representsColumns_insert (holds.predicates t.pre) absent room)
      fun s o => by simp [Triple.ext_iff]

theorem updateTupleslistRemove_holds (holds : kv.Holds T) (t : Triple) (present : T t)
    (room : kv.Room t.pre) :
    ∃ kv', kv.updateTupleslistRemove t.sub t.pre t.obj = some (true, kv') ∧
    kv'.Holds fun u => u ≠ t ∧ T u := by
  obtain ⟨tmp₁, next₁, value₁, spliced₁, subject⟩ :=
    represents_remove (holds.subjects t.sub) present
  obtain ⟨tmp₂, next₂, value₂, spliced₂, object⟩ := represents_remove (holds.objects t.obj) present
  obtain ⟨tmp₃, next₃, value₃, spliced₃, predicate⟩ :=
    representsColumns_remove (holds.predicates t.pre) present room
  obtain ⟨kv₁, ran₁, first, one⟩ := updateRemove_spec holds.allocated
    (fun tmp => updateRemoveValues .sub tmp t.pre t.obj) value₁ spliced₁
  have read₂ : kv₁.getValueByKey ⟨.object, t.obj⟩ = some tmp₂ := by
    rw [one, update_of_ne (by simp), value₂]
  obtain ⟨kv₂, ran₂, second, two⟩ := updateRemove_spec first
    (fun tmp => updateRemoveValues .obj tmp t.pre t.sub) read₂ spliced₂
  have read₃ : kv₂.getValueByKey ⟨.predicate, t.pre⟩ = some tmp₃ := by
    rw [two, one, update_of_ne (by simp), update_of_ne (by simp), value₃]
  obtain ⟨kv₃, ran₃, third, three⟩ := updateRemove_spec second
    (fun tmp => updateRemoveP2values tmp t.sub t.obj) read₃ spliced₃
  rw [two, one] at three
  refine ⟨kv₃, ?_, holds_of_values holds third (fun u other => by simp [other]) three ?_ ?_ ?_⟩
  · simp [KVstore.updateTupleslistRemove, KVstore.updateRemoveS2values, ran₁, Option.bind_some,
      Bool.not_true, KVstore.updateRemoveO2values, ran₂,
      KVstore.updateRemoveP2values, ran₃]
  · exact represents_congr subject fun p o => by simp [Triple.ext_iff]
  · exact represents_congr object fun p s => by simp [Triple.ext_iff, and_comm]
  · exact representsColumns_congr predicate fun s o => by simp [Triple.ext_iff]

inductive Update where
  | insert (t : IdTriple)
  | remove (t : IdTriple)
  deriving DecidableEq

/-- The update of the code; `none` is undefined behaviour. -/
def KVstore.update (kv : KVstore) : Update → Option KVstore
  | .insert t => some (kv.updateTupleslistInsert t.sub t.pre t.obj)
  | .remove t => (kv.updateTupleslistRemove t.sub t.pre t.obj).map Prod.snd

def updateSet (S : Finset Triple) : Update → Option (Finset Triple)
  | .insert t => if t.toTriple ∈ S then none else some (insert t.toTriple S)
  | .remove t => if t.toTriple ∈ S then some (S.erase t.toTriple) else none

theorem holds_congr {T U : Triple → Prop} (holds : kv.Holds T) (same : ∀ t, T t ↔ U t) :
    kv.Holds U where
  allocated := holds.allocated
  subjects s := represents_congr (holds.subjects s) fun _ _ => same _
  objects o := represents_congr (holds.objects o) fun _ _ => same _
  predicates p := representsColumns_congr (holds.predicates p) fun _ _ => same _

/-- The lists of the triple's keys have positions below `2 ^ 32` also when the triple is added to
them. -/
def KVstore.roomFor (kv : KVstore) (t : Triple) : Prop :=
  kv.Room t.pre ∧ valuesLen (kv.getValueByKey ⟨.subject, t.sub⟩) + 6 < 2 ^ 32 ∧
    valuesLen (kv.getValueByKey ⟨.object, t.obj⟩) + 6 < 2 ^ 32

instance (kv : KVstore) (t : Triple) : Decidable (kv.roomFor t) :=
  inferInstanceAs (Decidable (_ ∧ _ ∧ _))

def KVstore.updateRoom (kv : KVstore) : Update → Prop
  | .insert t => kv.roomFor t.toTriple
  | .remove t => kv.roomFor t.toTriple

instance (kv : KVstore) (u : Update) : Decidable (kv.updateRoom u) :=
  match u with
  | .insert t => inferInstanceAs (Decidable (kv.roomFor t.toTriple))
  | .remove t => inferInstanceAs (Decidable (kv.roomFor t.toTriple))

theorem update_simulates (kv : KVstore) (S : Finset Triple) (u : Update) (S' : Finset Triple)
    (holds : kv.Holds (· ∈ S)) (room : kv.updateRoom u) (legal : updateSet S u = some S') :
    ∃ kv', kv.update u = some kv' ∧ kv'.Holds (· ∈ S') := by
  cases u with
  | insert t =>
    simp only [updateSet] at legal
    split at legal
    · cases legal
    · rename_i absent
      cases Option.some.inj legal
      exact ⟨_, rfl, holds_congr (updateTupleslistInsert_holds holds t absent room.1)
          fun u => by simp⟩
  | remove t =>
    simp only [updateSet] at legal
    split at legal
    · rename_i present
      cases Option.some.inj legal
      obtain ⟨kv', ran, removed⟩ := updateTupleslistRemove_holds holds t.toTriple present room.1
      exact ⟨kv', by simp [KVstore.update, ran], holds_congr removed fun u => by simp⟩
    · cases legal

def KVstore.insertAll (kv : KVstore) (ts : List IdTriple) : KVstore :=
  ts.foldl (fun kv t => kv.updateTupleslistInsert t.sub t.pre t.obj) kv

theorem idTriple_ext {t u : IdTriple} (same : t.toTriple = u.toTriple) : t = u := by
  cases t
  cases u
  simp_all

/-- Distinct triples inserted one by one; `m` bounds the pairs that the predicates have before. -/
theorem insertAll_holds {T : Triple → Prop} (holds : kv.Holds T) {ts : List IdTriple}
    (nodup : ts.Nodup)
    (absent : ∀ t ∈ ts, ¬ T t.toTriple) {m : Nat → Nat}
    (pairs : ∀ p, valuesLen (kv.getValueByKey ⟨.predicate, p⟩) ≤ 2 * m p + 1)
    (few : ∀ p, m p + ts.countP (fun t => t.pre = p) < 2 ^ 31) :
    (kv.insertAll ts).Holds fun t => T t ∨ t ∈ ts.map IdTriple.toTriple := by
  induction ts generalizing kv T m with
  | nil => exact holds_congr holds fun t => by simp
  | cons u ts ih =>
    obtain ⟨fresh, rest⟩ := nodup_cons.mp nodup
    have own := few u.pre
    have here := pairs u.pre
    rw [countP_cons_of_pos (by simp)] at own
    have one := updateTupleslistInsert_holds holds u
      (absent u (by simp)) (by unfold KVstore.Room; omega)
    refine holds_congr (ih one rest (fun t member => ?_)
        (m := fun p => m p + if p = u.pre then 1 else 0) ?_ ?_) fun t => ?_
    · rintro (same | present)
      · exact fresh (idTriple_ext same ▸ member)
      · exact absent t (mem_cons_of_mem u member) present
    · exact fun p => updateTupleslistInsert_length holds.allocated u (pairs p)
    · intro p
      have bound := few p
      rw [countP_cons] at bound
      by_cases other : p = u.pre
      · simp only [other, decide_true, if_true] at bound ⊢
        omega
      · rw [if_neg (by simpa using Ne.symm other)] at bound
        rwa [if_neg other]
    · simp only [map_cons, mem_cons]
      tauto

/-- A subject or object list as the code lays it out: exact counters, increasing predicates,
offsets that cut the words behind the header into non-empty increasing sublists. -/
structure WellFormedList (k : Side) (l : List Nat) : Prop where
  nonempty : 0 < word l 1
  length : l.length = endOf k l
  distinct : (listPairs k l).Nodup
  triples : word l 0 = (listPairs k l).length
  kinds : word l 1 = ((listPairs k l).map Prod.fst).dedup.length
  entities : k = .sub → word l 2 = (listPairs k l).countP fun q => isEntityEle q.2
  predicates : ∀ i j, i < j → j < word l 1 → preAt k l i < preAt k l j
  first : offAt k l 0 = k.base + 2 * word l 1
  sublists : ∀ i, i < word l 1 → offAt k l i < nextOff k l i
  inside : ∀ i, i < word l 1 → nextOff k l i ≤ l.length
  increasing : ∀ i, i < word l 1 → ∀ a b, offAt k l i ≤ a → a < b → b < nextOff k l i →
    word l a < word l b

structure WellFormedColumns (l : List Nat) : Prop where
  nonempty : 0 < word l 0
  length : l.length = 1 + 2 * word l 0
  triples : word l 0 = (columnPairs l).length
  increasing : Increasing (columnPairs l)

variable {gs : List (Nat × List Nat)}

theorem sublist_pack (k : Side) {i : Nat} (inside : i < gs.length) :
    nextOff k (pack k gs) i = offAt k (pack k gs) i + gs[i].2.length ∧
      ∀ j (h : j < gs[i].2.length), word (pack k gs) (offAt k (pack k gs) i + j) = gs[i].2[j] := by
  have split := take_get_drop inside
  have size : (gs.take i).length = i := length_take_of_le inside.le
  have start := offAt_pack k (gs.take i) (gs.drop (i + 1)) gs[i].1 gs[i].2
  have stop := nextOff_pack k (gs.take i) (gs.drop (i + 1)) gs[i].1 gs[i].2
  rw [← split, size] at start stop
  refine ⟨by rw [start, stop], fun j h => ?_⟩
  have content : body gs = body (gs.take i) ++ (gs[i].2 ++ body (gs.drop (i + 1))) := by
    conv => lhs; rw [split]
    exact body_middle _ _ _ _
  rw [start, pack_head, content, ← head_length k gs, Nat.add_assoc, word_right, word_right,
      word_left h, word,
    getD_eq_getElem _ _ h]

theorem pairs_nodup (whole : Grouped gs) : (pairs gs).Nodup := by
  induction gs with
  | nil => exact nodup_nil
  | cons g gs ih =>
    obtain ⟨below, ⟨-, sorted⟩, rest⟩ := grouped_cons.mp whole
    rw [pairs_cons, nodup_append]
    refine ⟨List.Nodup.map (fun a b h => (Prod.mk.inj h).2) (sorted.imp ne_of_lt), ih rest, ?_⟩
    rintro ⟨p, x⟩ left ⟨q, y⟩ right same
    obtain ⟨xs, member, -⟩ := mem_pairs.mp right
    have key : p = g.1 := by
      obtain ⟨z, -, h⟩ := mem_map.mp left
      exact (congrArg Prod.fst h).symm
    exact absurd (congrArg Prod.fst same) (by rw [key]; exact (below _ member).ne)

theorem map_fst_pairs_dedup (whole : Grouped gs) :
    ((pairs gs).map Prod.fst).dedup.length = gs.length := by
  have distinct : (gs.map Prod.fst).Nodup := whole.keys.imp ne_of_lt
  have same : ((pairs gs).map Prod.fst).dedup.Perm (gs.map Prod.fst) := by
    rw [perm_ext_iff_of_nodup (nodup_dedup _) distinct]
    intro p
    simp only [mem_dedup, mem_map]
    constructor
    · rintro ⟨⟨q, x⟩, member, rfl⟩
      obtain ⟨xs, h, -⟩ := mem_pairs.mp member
      exact ⟨(q, xs), h, rfl⟩
    · rintro ⟨g, member, rfl⟩
      obtain ⟨x, hx⟩ := exists_mem_of_ne_nil _ (whole.members g member).1
      exact ⟨(g.1, x), mem_pairs.mpr ⟨g.2, member, hx⟩, rfl⟩
  rw [same.length_eq, length_map]

theorem countP_pairs (gs : List (Nat × List Nat)) (f : Nat → Bool) :
    (pairs gs).countP (fun q => f q.2) = (body gs).countP f := by
  induction gs with
  | nil => rfl
  | cons g gs ih =>
    rw [pairs_cons, body_cons, countP_append, countP_append, ih, countP_map]
    rfl

theorem pack_wellFormed (k : Side) (whole : Grouped gs) (nonempty : gs ≠ []) :
    WellFormedList k (pack k gs) where
  nonempty := length_pos_of_ne_nil nonempty
  length := by rw [length_pack, endOf_pack]
  distinct := by rw [listPairs_pack]; exact pairs_nodup whole
  triples := by rw [listPairs_pack, word_pack_zero, length_pairs]; rfl
  kinds := by rw [listPairs_pack, word_pack_one, map_fst_pairs_dedup whole]
  entities side := by
    subst side
    rw [listPairs_pack, word_pack_two, countP_pairs]
  predicates := increasing_preAt whole
  first := by
    obtain ⟨g, rest, rfl⟩ := exists_cons_of_ne_nil nonempty
    exact offAt_pack k [] rest g.1 g.2
  sublists i bound := by
    rw [(sublist_pack k bound).1]
    have := length_pos_of_ne_nil (whole.members _ (getElem_mem bound)).1
    omega
  inside i bound := by
    have stop := nextOff_pack k (gs.take i) (gs.drop (i + 1)) gs[i].1 gs[i].2
    rw [← take_get_drop bound, length_take_of_le bound.le] at stop
    have total : (body gs).length = (body (gs.take i)).length +
        (gs[i].2.length + (body (gs.drop (i + 1))).length) := by
      conv => lhs; rw [take_get_drop bound, body_middle]
      simp [length_append]
    rw [stop, length_pack]
    omega
  increasing i bound a b low less high := by
    obtain ⟨stop, content⟩ := sublist_pack k bound
    obtain ⟨c, rfl⟩ := Nat.exists_eq_add_of_le low
    obtain ⟨d, rfl⟩ := Nat.exists_eq_add_of_le (low.trans less.le)
    rw [content c (by omega), content d (by omega)]
    exact pairwise_iff_getElem.mp (whole.members _ (getElem_mem bound)).2 c d _ _ (by omega)

theorem columns_wellFormed {ps : List (Nat ×ₗ Nat)} (sorted : Increasing ps) (nonempty : ps ≠ []) :
    WellFormedColumns (columns ps) where
  nonempty := length_pos_of_ne_nil nonempty
  length := by simp [columns]; omega
  triples := by rw [columnPairs_columns]; rfl
  increasing := by rwa [columnPairs_columns]

def KVstore.subTriples (kv : KVstore) : Set Triple :=
  {t | ∃ l, kv.getValueByKey ⟨.subject, t.sub⟩ = some l ∧ (t.pre, t.obj) ∈ listPairs .sub l}

def KVstore.objTriples (kv : KVstore) : Set Triple :=
  {t | ∃ l, kv.getValueByKey ⟨.object, t.obj⟩ = some l ∧ (t.pre, t.sub) ∈ listPairs .obj l}

def KVstore.preTriples (kv : KVstore) : Set Triple :=
  {t | ∃ l, kv.getValueByKey ⟨.predicate, t.pre⟩ = some l ∧ toLex (t.sub, t.obj) ∈ columnPairs l}

structure KVstore.WellFormed (kv : KVstore) : Prop where
  subjects : ∀ s l, kv.getValueByKey ⟨.subject, s⟩ = some l → WellFormedList .sub l
  objects : ∀ o l, kv.getValueByKey ⟨.object, o⟩ = some l → WellFormedList .obj l
  predicates : ∀ p l, kv.getValueByKey ⟨.predicate, p⟩ = some l → WellFormedColumns l

theorem represents_decodes (shown : Represents k value R) :
    (∀ p x, (∃ l, value = some l ∧ (p, x) ∈ listPairs k l) ↔ R p x) ∧
      (∀ l, value = some l → WellFormedList k l) ∧ (value.isSome = true ↔ ∃ p x, R p x) := by
  obtain ⟨gs, whole, rfl, members⟩ := shown
  obtain rfl | empty := eq_or_ne gs []
  · have none : ∀ p x, ¬ R p x := fun p x h => by simpa using (members p x).mpr h
    simp [stored, none]
  · rw [stored, if_neg empty]
    refine ⟨fun p x => by simp [listPairs_pack, members], ?_, ?_⟩
    · intro l found
      exact Option.some.inj found ▸ pack_wellFormed k whole empty
    · obtain ⟨g, member⟩ := exists_mem_of_ne_nil gs empty
      obtain ⟨x, hx⟩ := exists_mem_of_ne_nil _ (whole.members g member).1
      exact ⟨fun _ => ⟨g.1, x, (members _ _).mp (mem_pairs.mpr ⟨g.2, member, hx⟩)⟩, fun _ => rfl⟩

theorem representsColumns_decodes (shown : RepresentsColumns value R) :
    (∀ s o, (∃ l, value = some l ∧ toLex (s, o) ∈ columnPairs l) ↔ R s o) ∧
      (∀ l, value = some l → WellFormedColumns l) ∧ (value.isSome = true ↔ ∃ s o, R s o) := by
  obtain ⟨ps, sorted, rfl, members⟩ := shown
  obtain rfl | empty := eq_or_ne ps []
  · have none : ∀ s o, ¬ R s o := fun s o h => by simpa using (members s o).mpr h
    simp [storedColumns, none]
  · rw [storedColumns, if_neg empty]
    refine ⟨fun s o => by simp [columnPairs_columns, members], ?_, ?_⟩
    · intro l found
      exact Option.some.inj found ▸ columns_wellFormed sorted empty
    · obtain ⟨q, member⟩ := exists_mem_of_ne_nil ps empty
      exact ⟨fun _ => ⟨(ofLex q).1, (ofLex q).2, (members _ _).mp member⟩, fun _ => rfl⟩

theorem KVstore.Holds.wellFormed (holds : kv.Holds T) : kv.WellFormed where
  subjects s := (represents_decodes (holds.subjects s)).2.1
  objects o := (represents_decodes (holds.objects o)).2.1
  predicates p := (representsColumns_decodes (holds.predicates p)).2.1

theorem KVstore.Holds.subTriples_eq (holds : kv.Holds T) : kv.subTriples = {t | T t} :=
  Set.ext fun t => (represents_decodes (holds.subjects t.sub)).1 t.pre t.obj

theorem KVstore.Holds.objTriples_eq (holds : kv.Holds T) : kv.objTriples = {t | T t} :=
  Set.ext fun t => (represents_decodes (holds.objects t.obj)).1 t.pre t.sub

theorem KVstore.Holds.preTriples_eq (holds : kv.Holds T) : kv.preTriples = {t | T t} :=
  Set.ext fun t => (representsColumns_decodes (holds.predicates t.pre)).1 t.sub t.obj

/-- The three indexes decode to the set, every list is well formed, and a key has a list exactly
when a triple uses it. -/
structure KVstore.Decodes (kv : KVstore) (S : Finset Triple) : Prop where
  subTriples : kv.subTriples = S
  objTriples : kv.objTriples = S
  preTriples : kv.preTriples = S
  wellFormed : kv.WellFormed
  subjects : ∀ s, (kv.getValueByKey ⟨.subject, s⟩).isSome = true ↔ ∃ t ∈ S, t.sub = s
  objects : ∀ o, (kv.getValueByKey ⟨.object, o⟩).isSome = true ↔ ∃ t ∈ S, t.obj = o
  predicates : ∀ p, (kv.getValueByKey ⟨.predicate, p⟩).isSome = true ↔ ∃ t ∈ S, t.pre = p

section Wrap

theorem run_inserts (kv : KVstore) (ts : List IdTriple) :
    run KVstore.update kv (ts.map .insert) = some (kv.insertAll ts) := by
  induction ts generalizing kv with
  | nil => rfl
  | cons t ts ih => exact run_cons.mpr ⟨_, rfl, ih _⟩

theorem run_updateSet_inserts {S : Finset Triple} {ts : List IdTriple} (nodup : ts.Nodup)
    (absent : ∀ t ∈ ts, t.toTriple ∉ S) :
    run updateSet S (ts.map .insert) = some (S ∪ (ts.map IdTriple.toTriple).toFinset) := by
  induction ts generalizing S with
  | nil => simp [run]
  | cons t ts ih =>
    obtain ⟨fresh, rest⟩ := nodup_cons.mp nodup
    refine run_cons.mpr ⟨insert t.toTriple S, if_neg (absent t mem_cons_self), ?_⟩
    rw [ih rest fun u member => ?_]
    · simp
    · rw [Finset.mem_insert, not_or]
      exact ⟨fun same => fresh (idTriple_ext same ▸ member), absent u (mem_cons_of_mem t member)⟩

/-- The pairs of one predicate in their order, with the objects 0 and 1: `(0, 1)`, `(1, 0)`, `(1,
1)`, `(2, 0)` and so on. -/
def pairTriple (i : Nat) : IdTriple :=
  ⟨⟨(i + 1) / 2 % maxKeyNum, 0, (i + 1) % 2⟩, Nat.mod_lt _ (by decide), Nat.two_pow_pos 31,
    (Nat.mod_lt (i + 1) two_pos).trans (by decide)⟩

theorem pairTriple_sub {i : Nat} (small : i < 2 ^ 31) : (pairTriple i).sub = (i + 1) / 2 :=
  Nat.mod_eq_of_lt (lt_of_lt_of_le (show (i + 1) / 2 < 2 ^ 31 by omega) (by decide))

theorem pairTriple_lt {i j : Nat} (small : j < 2 ^ 31) (less : i < j) :
    toLex ((pairTriple i).sub, (pairTriple i).obj) < toLex
    ((pairTriple j).sub, (pairTriple j).obj) := by
  rw [Prod.Lex.toLex_lt_toLex, pairTriple_sub (less.trans small), pairTriple_sub small]
  simp only [pairTriple]
  omega

theorem pairTriples_nodup {n : Nat} (small : n ≤ 2 ^ 31) :
    ((List.range n).map pairTriple).Nodup := by
  refine pairwise_map.mpr (pairwise_lt_range.imp_of_mem fun {i j} _ inside less same => ?_)
  have strict := pairTriple_lt ((mem_range.mp inside).trans_le small) less
  rw [same] at strict
  exact lt_irrefl _ strict

/-- The inserted pairs before the last are in the list of the predicate, and are as many as were
inserted. -/
theorem pairTriples_columns {n : Nat} (small : n < 2 ^ 31) : ∃ ps, Increasing ps ∧ ps.length = n ∧
    (KVstore.empty.insertAll ((List.range n).map pairTriple)).Allocated ∧
    (KVstore.empty.insertAll ((List.range n).map pairTriple)).getValueByKey ⟨.predicate, 0⟩ =
    storedColumns ps ∧
    ∀ q ∈ ps, q < toLex ((pairTriple n).sub, (pairTriple n).obj) := by
  have nodup := pairTriples_nodup small.le
  have holds := insertAll_holds empty_holds nodup
      (by simp) (m := fun _ => 0) (fun p => Nat.zero_le _) fun p => by
    have := countP_le_length (l := (List.range n).map pairTriple) (p := fun t => t.pre = p)
    rw [length_map, length_range] at this
    omega
  obtain ⟨ps, sorted, layout, members⟩ := holds.predicates 0
  have listed : ∀ q, q ∈ ps ↔ q ∈ (List.range n).map fun i => toLex
      ((pairTriple i).sub, (pairTriple i).obj) := by
    intro q
    have member := members (ofLex q).1 (ofLex q).2
    rw [Prod.mk.eta, toLex_ofLex] at member
    rw [member]
    dsimp only
    rw [false_or, map_map, mem_map, mem_map]
    refine exists_congr fun i => and_congr_right fun _ => ?_
    rw [← toLex_ofLex q, toLex_inj, Triple.ext_iff, Prod.ext_iff]
    simp [pairTriple]
  have ordered : ((List.range n).map fun i =>
        toLex ((pairTriple i).sub, (pairTriple i).obj)).Nodup := by
    refine pairwise_map.mpr (pairwise_lt_range.imp_of_mem fun {i j} _ inside less => ?_)
    exact (pairTriple_lt ((mem_range.mp inside).trans small) less).ne
  refine ⟨ps, sorted, ?_, holds.allocated, layout, fun q member => ?_⟩
  · rw [((perm_ext_iff_of_nodup (increasing_nodup sorted) ordered).mpr listed).length_eq,
        length_map, length_range]
  · obtain ⟨i, inside, rfl⟩ := mem_map.mp ((listed q).mp member)
    exact pairTriple_lt small (mem_range.mp inside)

end Wrap

end GStore
