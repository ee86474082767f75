import GStore.Database.Database
import GStore.KVstore.BatchUpdates
import GStore.KVstore.KeyLists
import GStore.Lib.Chunks
import Mathlib.Data.Set.Card

/-! `Database::sub_batch_update` outside a transaction: one pass over the sorted id tuples for each
index, which collects the pairs of a key and updates the list of the key when the next tuple has
another one. -/
namespace GStore
open Lib List Triple

def spoCmpIdtuple (a b : Triple) : Bool :=
  if a.sub ≠ b.sub then decide (a.sub < b.sub)
  else if a.pre ≠ b.pre then decide (a.pre < b.pre)
  else if a.obj ≠ b.obj then decide (a.obj < b.obj) else false

def opsCmpIdtuple (a b : Triple) : Bool :=
  if a.obj ≠ b.obj then decide (a.obj < b.obj)
  else if a.pre ≠ b.pre then decide (a.pre < b.pre)
  else if a.sub ≠ b.sub then decide (a.sub < b.sub) else false

def psoCmpIdtuple (a b : Triple) : Bool :=
  if a.pre ≠ b.pre then decide (a.pre < b.pre)
  else if a.sub ≠ b.sub then decide (a.sub < b.sub)
  else if a.obj ≠ b.obj then decide (a.obj < b.obj) else false

variable (kv : KVstore)

/-- `updateInsert_s2values`, `updateInsert_o2values` and `updateInsert_p2values` with a pair vector.
-/
def KVstore.updateInsertList (key : Key) (list : List VData) : Option (Nat × KVstore) :=
  if list = [] then some (0, kv)
  else
    (GStore.insertValues key.type list (kv.getValueByKey key)).map fun r =>
      if r.updateNum = 0 then (0, kv)
      else
        match kv.getValueByKey key with
        | none => (r.updateNum, kv.addValueByKey key (r.values.getD []))
        | some _ => (r.updateNum, kv.setValueByKey key (r.values.getD []))

/-- `updateRemove_s2values`, `updateRemove_o2values` and `updateRemove_p2values` with a pair vector.
For a key without a list the first two return before the removal; `Remove_p2values` returns 0 and
the caller with it. -/
def KVstore.updateRemoveList (key : Key) (list : List VData) : Nat × KVstore :=
  if list = [] then (0, kv)
  else
    match kv.getValueByKey key with
    | none => (0, kv)
    | some tmp =>
      match GStore.removeValues key.type list (some tmp) with
      | none => (0, kv)
      | some r =>
        if r.updateNum = 0 then (0, kv)
        else
          match r.values with
          | none => (r.updateNum, kv.removeKey key)
          | some values => (r.updateNum, kv.setValueByKey key values)

def KVstore.updateList (insert : Bool) (key : Key) (list : List VData) : Option (Nat × KVstore) :=
  if insert then kv.updateInsertList key list else some (kv.updateRemoveList key list)

def TermTable.getStr (tbl : TermTable) (id : Nat) : String := (tbl.strs (id - tbl.base)).getD ""

variable (db : Database) (insert : Bool)

/-- The class statistics for the tuples of one predicate, before its list is updated: an insertion
counts the new pairs only, a removal counts every pair of the vector. -/
def Database.updateUmap (list : List VData) (preId : Nat) : Database :=
  if list = [] then db
  else if !db.checkIsTypePredicate (db.predicates.getStr preId) then db
  else
    let old := pairsIn .predicate (db.kvstore.getValueByKey ⟨.predicate, preId⟩)
    list.foldl (fun db q =>
      let obj := db.entities.getStr (ofLex q).2
      if !isEntityEle (ofLex q).2 || obj == "" then db
      else if insert then (if q ∈ old then db else db.countClass obj)
      else db.uncountClass obj) db

def Database.updateKey (s : Option (Nat × Database)) (key : Key) (list : List VData) :
    Option (Nat × Database) :=
  s.bind fun (num, db) =>
    let db := if key.type = .predicate then db.updateUmap insert list key.id else db
    (db.kvstore.updateList insert key list).map fun (n, kv) => (num + n, { db with kvstore := kv })

def subBatchLoop {σ : Type} (type : IDType) (update : σ → Key → List VData → σ) :
    σ → Nat → List VData → List Triple → σ
  | s, id, data, [] => update s ⟨type, id⟩ data
  | s, id, data, t :: ts =>
    if (t.key type).id = id then subBatchLoop type update s id (data ++ [t.pair type]) ts
    else subBatchLoop type update (update s ⟨type, id⟩ data) (t.key type).id [t.pair type] ts

def cmpIdtuple : IDType → Triple → Triple → Bool
  | .subject => spoCmpIdtuple
  | .predicate => psoCmpIdtuple
  | .object => opsCmpIdtuple

def sortTuples (type : IDType) (tuples : List Triple) : List Triple :=
  tuples.mergeSort fun a b => !cmpIdtuple type b a

/-- The subject pass takes the tuples in the order of the caller. `none` is `id_tuples[0]` of an
empty vector, or an overrun in an insertion. -/
def Database.subBatchUpdate (type : IDType) (tuples : List Triple) :
    Option (Nat × Database) :=
  match if type = .subject then tuples else sortTuples type tuples with
  | [] => none
  | t :: ts =>
    subBatchLoop type (Database.updateKey insert) (some (0, db)) (t.key type).id [] (t :: ts)

def Database.updateIndexes (tuples : List Triple) :
    Option (Nat × Nat × Nat × Database) :=
  (db.subBatchUpdate insert .subject tuples).bind fun (s, db) =>
    (db.subBatchUpdate insert .predicate tuples).bind fun (p, db) =>
      (db.subBatchUpdate insert .object tuples).map fun (o, db) => (s, p, o, db)

def edited (old new : Prop) : Prop := if insert then old ∨ new else old ∧ ¬ new

def alters (old : Prop) : Prop := if insert then ¬ old else old

instance alters_decidable {insert : Bool} {old : Prop} [Decidable old] :
    Decidable (alters insert old) :=
  inferInstanceAs (Decidable (if insert = true then ¬ old else old))

section Keys

variable {kv : KVstore} {key : Key} {S : VData → Prop} {list : List VData}

section

variable [DecidablePred S] (allocated : kv.Allocated)
    (shown : Lists key.type (kv.getValueByKey key) S)
  (filled : list ≠ [])
include allocated shown filled

theorem updateInsertList_spec (sorted : Increasing list) (fits : key.Fits) :
    ∃ kv' v, kv.updateInsertList key list = some (list.countP (fun q => decide (¬ S q)), kv') ∧
    kv'.Allocated ∧
      kv'.getValueByKey = Function.update kv.getValueByKey key v ∧ Lists key.type v fun q => S q ∨
      q ∈ list := by
  obtain ⟨v, inserted, lists⟩ := insertValues_counts shown sorted
  have number : list.countP (· ∉ pairsIn key.type (kv.getValueByKey key)) = list.countP fun q =>
      decide (¬ S q) := by
    simp [mem_pairsIn shown]
  rw [KVstore.updateInsertList, if_neg filled, inserted, number, Option.map_some]
  by_cases none_new : (list.countP fun q => decide (¬ S q)) = 0
  · refine ⟨kv, kv.getValueByKey
        key, by rw [if_pos none_new, none_new], allocated, (Function.update_eq_self _ _).symm, ?_⟩
    refine lists_congr shown fun q => ⟨.inl, ?_⟩
    rintro (old | new)
    · exact old
    · simpa using countP_eq_zero.mp none_new q new
  · obtain ⟨values, rfl⟩ : ∃ values, v = some values := by
      refine Option.ne_none_iff_exists'.mp fun none_left => ?_
      obtain ⟨q, new⟩ := exists_mem_of_ne_nil list filled
      exact (lists_none_iff lists).mp none_left q (.inr new)
    simp only [none_new, if_false, Option.getD_some]
    cases found : kv.getValueByKey key with
    | none =>
      obtain ⟨next, written⟩ := addValueByKey_spec allocated fits found values
      exact ⟨_, some values, rfl, next, written, lists⟩
    | some tmp =>
      obtain ⟨next, written⟩ := setValueByKey_spec allocated found values
      exact ⟨_, some values, rfl, next, written, lists⟩

theorem updateRemoveList_spec (sorted : Increasing list) :
    ∃ kv' v, kv.updateRemoveList key list = (list.countP (fun q => decide (S q)), kv') ∧
    kv'.Allocated ∧
      kv'.getValueByKey = Function.update kv.getValueByKey key v ∧ Lists key.type v fun q => S q ∧
      q ∉ list := by
  rw [KVstore.updateRemoveList, if_neg filled]
  cases found : kv.getValueByKey key with
  | none =>
    have bare := (lists_none_iff shown).mp found
    refine ⟨kv, none, ?_, allocated, by rw [← found, Function.update_eq_self], ?_⟩
    · rw [countP_eq_zero.mpr fun q _ => decide_eq_false (bare q) ▸ Bool.false_ne_true]
    · rw [found] at shown
      exact lists_congr shown fun q => iff_of_false (bare q) fun hit => bare q hit.1
  | some tmp =>
    rw [found] at shown
    have defined : RemovalDefined key.type list (some tmp) := by
      unfold RemovalDefined
      split <;> simp [filled]
    obtain ⟨v, removed, lists⟩ := removeValues_counts shown sorted defined
    have number : list.countP (· ∈ pairsIn key.type (some tmp)) = list.countP fun q => decide
        (S q) := by
      simp [mem_pairsIn shown]
    simp only [removed, number]
    by_cases none_old : (list.countP fun q => decide (S q)) = 0
    · refine ⟨kv, some tmp, by rw [if_pos none_old, none_old], allocated, by rw [← found, Function.update_eq_self], ?_⟩
      refine lists_congr shown fun q => ⟨fun old => ⟨old, fun new => ?_⟩, And.left⟩
      simpa [old] using countP_eq_zero.mp none_old q new
    · simp only [none_old, if_false]
      cases v with
      | none =>
        obtain ⟨next, written⟩ := removeKey_spec allocated found
        exact ⟨_, none, rfl, next, written, lists⟩
      | some values =>
        obtain ⟨next, written⟩ := setValueByKey_spec allocated found values
        exact ⟨_, some values, rfl, next, written, lists⟩

end

theorem updateList_spec [DecidablePred S] (insert : Bool) (allocated : kv.Allocated)
    (shown : Lists key.type (kv.getValueByKey key) S) (filled : list ≠ [])
    (sorted : Increasing list)
    (fits : insert = true → key.Fits) :
    ∃ kv' v, kv.updateList insert key list = some
    (list.countP (fun q => decide (alters insert (S q))), kv') ∧
      kv'.Allocated ∧ kv'.getValueByKey = Function.update kv.getValueByKey key v ∧
      Lists key.type v fun q => edited insert (S q) (q ∈ list) := by
  cases insert with
  | true => exact updateInsertList_spec allocated shown filled sorted (fits rfl)
  | false =>
    obtain ⟨kv', v, removed, rest⟩ := updateRemoveList_spec allocated shown filled sorted
    exact ⟨kv', v, congrArg some removed, rest⟩

end Keys

structure Database.SameTerms (db next : Database) : Prop where
  entities : next.entities = db.entities
  literals : next.literals = db.literals
  predicates : next.predicates = db.predicates
  subNum : next.subNum = db.subNum
  triplesNum : next.triplesNum = db.triplesNum
  names : next.typePredicateName = db.typePredicateName

theorem Database.SameTerms.trans {a b c : Database} (left : a.SameTerms b) (right : b.SameTerms c) :
    a.SameTerms c where
  entities := right.entities.trans left.entities
  literals := right.literals.trans left.literals
  predicates := right.predicates.trans left.predicates
  subNum := right.subNum.trans left.subNum
  triplesNum := right.triplesNum.trans left.triplesNum
  names := right.names.trans left.names

theorem updateUmap_frame (list : List VData) (preId : Nat) :
    db.SameTerms (db.updateUmap insert list preId) ∧
    (db.updateUmap insert list preId).kvstore = db.kvstore := by
  have same : db.SameTerms db ∧ db.kvstore = db.kvstore := ⟨⟨rfl, rfl, rfl, rfl, rfl, rfl⟩, rfl⟩
  unfold Database.updateUmap
  split
  · exact same
  · split
    · exact same
    · refine List.foldlRecOn (motive := fun next => db.SameTerms next ∧ next.kvstore = db.kvstore)
        list _ same ?_
      rintro next ⟨terms, kvstore⟩ q -
      have counts : ∀ obj, db.SameTerms (next.countClass obj) ∧
          (next.countClass obj).kvstore = db.kvstore := fun obj =>
        ⟨terms.trans ⟨rfl, rfl, rfl, rfl, rfl, rfl⟩, kvstore⟩
      have uncounts : ∀ obj, db.SameTerms (next.uncountClass obj) ∧
          (next.uncountClass obj).kvstore = db.kvstore := by
        intro obj
        unfold Database.uncountClass
        split
        · exact ⟨terms, kvstore⟩
        · exact ⟨terms.trans ⟨rfl, rfl, rfl, rfl, rfl, rfl⟩, kvstore⟩
      dsimp only
      split
      · exact ⟨terms, kvstore⟩
      · split
        · split
          · exact ⟨terms, kvstore⟩
          · exact counts _
        · exact uncounts _

variable {insert : Bool} {num : Nat} {s : Option (Nat × Database)}

theorem updateKey_frame {key : Key} {list : List VData}
    {next : Database} (ran : Database.updateKey insert s key list = some (num, next)) :
    ∃ n db, s = some (n, db) ∧ db.SameTerms next := by
  obtain ⟨⟨n, db⟩, rfl, ran⟩ := Option.bind_eq_some_iff.mp ran
  obtain ⟨⟨m, kv⟩, -, same⟩ := Option.map_eq_some_iff.mp ran
  obtain ⟨-, rfl⟩ := Prod.mk.inj same
  refine ⟨n, db, rfl, ?_⟩
  split
  · exact (updateUmap_frame db insert list key.id).1.trans ⟨rfl, rfl, rfl, rfl, rfl, rfl⟩
  · exact ⟨rfl, rfl, rfl, rfl, rfl, rfl⟩

variable {type : IDType} {ts : List Triple}

theorem subBatchLoop_frame {id : Nat} {data : List VData} {next : Database}
    (ran : subBatchLoop type (Database.updateKey insert) s id data ts = some (num, next)) :
    ∃ n db, s = some (n, db) ∧ db.SameTerms next := by
  induction ts generalizing s id data with
  | nil => exact updateKey_frame ran
  | cons t ts ih =>
    rw [subBatchLoop] at ran
    split at ran
    · exact ih ran
    · obtain ⟨m, db, written, later⟩ := ih ran
      obtain ⟨n, db', start, first⟩ := updateKey_frame written
      exact ⟨n, db', start, first.trans later⟩

variable {tuples : List Triple} {db next : Database}

theorem subBatchUpdate_frame (ran : db.subBatchUpdate insert type tuples = some (num, next)) :
    db.SameTerms next := by
  unfold Database.subBatchUpdate at ran
  split at ran
  · cases ran
  · obtain ⟨n, db', same, terms⟩ := subBatchLoop_frame ran
    obtain ⟨-, rfl⟩ := Prod.mk.inj (Option.some.inj same)
    exact terms

theorem updateIndexes_frame {s p o : Nat}
    (ran : db.updateIndexes insert tuples = some (s, p, o, next)) : db.SameTerms next := by
  obtain ⟨⟨s', db₁⟩, first, ran⟩ := Option.bind_eq_some_iff.mp ran
  obtain ⟨⟨p', db₂⟩, second, ran⟩ := Option.bind_eq_some_iff.mp ran
  obtain ⟨⟨o', db₃⟩, third, same⟩ := Option.map_eq_some_iff.mp ran
  simp only [Prod.mk.injEq] at same
  obtain ⟨-, -, -, rfl⟩ := same
  exact (subBatchUpdate_frame first).trans
    ((subBatchUpdate_frame second).trans (subBatchUpdate_frame third))

variable {chunk : List (Nat ×ₗ VData)}

theorem subBatchLoop_chunks {σ : Type} {update : σ → Key → List VData → σ} {t : Triple}
    {s : σ} (sorted : Increasing ((t :: ts).map (entry type))) :
    subBatchLoop type update s (t.key type).id
    ((chunk ++ [t.entry type]).map fun e => (ofLex e).2) ts =
      storeChunks (fun e => (ofLex e).1)
      (fun s id chunk => update s ⟨type, id⟩ (chunk.map fun e => (ofLex e).2)) s chunk
        ((t :: ts).map (entry type)) := by
  induction ts generalizing t s chunk with
  | nil => simp [subBatchLoop, storeChunks, entry]
  | cons u ts ih =>
    obtain ⟨first, rest⟩ := pairwise_cons.mp sorted
    have differs : u.entry type ≠ t.entry type := (first (u.entry type) (by simp)).ne'
    rw [map_cons, map_cons, storeChunks, ← map_cons, if_neg (by simpa using differs), subBatchLoop]
    by_cases same : (u.key type).id = (t.key type).id
    · rw [if_pos same, if_neg (by simp [entry, same]), ← ih rest, same]
      simp [entry]
    · rw [if_neg same, if_pos (by simp [entry, same]), ← ih rest]
      simp [entry]

theorem ncard_members {α : Type} {l : List α} (nodup : l.Nodup) (c : α → Prop) [DecidablePred c] :
    {e | e ∈ l ∧ c e}.ncard = l.countP fun e => decide (c e) := by
  classical
  have set : {e | e ∈ l ∧ c e} = ↑(l.filter fun e => decide (c e)).toFinset := by
    ext e
    simp
  rw [set, Set.ncard_coe_finset, toFinset_card_of_nodup (nodup.filter _), countP_eq_length_filter]

/-- The state of a pass over one index after the entries in `D`, from a database that holds the
entries `E`. -/
structure Database.Passed (db : Database) (insert : Bool) (type : IDType) (E : Nat ×ₗ VData → Prop)
    (next : Database)
    (num : Nat) (D : Set (Nat ×ₗ VData)) : Prop where
  terms : db.SameTerms next
  allocated : next.kvstore.Allocated
  others : ∀ key, key.type ≠ type → next.kvstore.getValueByKey key = db.kvstore.getValueByKey key
  lists : ∀ id, Lists type (next.kvstore.getValueByKey ⟨type, id⟩) fun q =>
    edited insert (E (toLex (id, q))) (toLex (id, q) ∈ D)
  finite : D.Finite
  counted : num = {e | e ∈ D ∧ alters insert (E e)}.ncard

variable {E : Nat ×ₗ VData → Prop}

theorem Database.Passed.updateKey {D : Set (Nat ×ₗ VData)}
    (passed : db.Passed insert type E next num D) {id : Nat}
    (fresh : ∀ u ∈ D, (ofLex u).1 ≠ id) (fits : insert = true → Key.Fits ⟨type, id⟩)
    (nonempty : chunk ≠ [])
    (sorted : Increasing chunk) (own : ∀ u ∈ chunk, (ofLex u).1 = id) :
    ∃ num' next', Database.updateKey insert (some (num, next)) ⟨type, id⟩
    (chunk.map fun e => (ofLex e).2) =
      some (num', next') ∧ db.Passed insert type E next' num' (D ∪ {u | u ∈ chunk}) := by
  classical
  obtain ⟨list, pairs⟩ : ∃ list, chunk.map (fun e => (ofLex e).2) = list := ⟨_, rfl⟩
  rw [pairs]
  obtain ⟨ready, prepared, arrays, terms⟩ : ∃ ready : Database,
      (if type = .predicate then next.updateUmap insert list id else next) = ready ∧
      ready.kvstore = next.kvstore ∧
        next.SameTerms ready := by
    refine ⟨_, rfl, ?_⟩
    split
    · exact (updateUmap_frame next insert list id).symm
    · exact ⟨rfl, rfl, rfl, rfl, rfl, rfl, rfl⟩
  have entry : ∀ q, q ∈ list ↔ toLex (id, q) ∈ chunk := by
    intro q
    rw [← pairs, mem_map]
    constructor
    · rintro ⟨e, he, rfl⟩
      rw [← own e he]
      exact he
    · intro he
      exact ⟨_, he, rfl⟩
  have outside : ∀ q, toLex (id, q) ∉ D := fun q inside => fresh _ inside rfl
  have shown : Lists type (ready.kvstore.getValueByKey ⟨type, id⟩) fun q => E (toLex (id, q)) := by
    rw [arrays]
    refine lists_congr (passed.lists id) fun q => ?_
    cases insert <;> simp [edited, outside q]
  obtain ⟨kv', v, updated, allocated, values, lists⟩ :=
    updateList_spec insert (arrays ▸ passed.allocated) shown
    (by simpa [← pairs] using nonempty) (pairs ▸ increasing_second sorted own) fits
  have number : {e | e ∈ D ∪ {u | u ∈ chunk} ∧ alters insert (E e)}.ncard =
      num + list.countP fun q => decide (alters insert (E (toLex (id, q)))) := by
    have split : {e | e ∈ D ∪ {u | u ∈ chunk} ∧ alters insert (E e)} =
        {e | e ∈ D ∧ alters insert (E e)} ∪ {e | e ∈ chunk ∧ alters insert (E e)} := by
      ext e
      simp [Set.mem_union, Set.mem_ofPred_eq, or_and_right]
    have disjoint : Disjoint {e | e ∈ D ∧ alters insert (E e)}
        {e | e ∈ chunk ∧ alters insert (E e)} :=
      Set.disjoint_left.mpr fun e old new => fresh e old.1 (own e new.1)
    rw [split, Set.ncard_union_eq disjoint (passed.finite.subset fun e h => h.1)
      ((finite_toSet chunk).subset fun e h => h.1), ← passed.counted, ncard_members
      (increasing_nodup sorted), ← pairs,
      countP_map]
    refine congrArg (num + ·) (countP_congr fun e he => ?_)
    have same : toLex (id, (ofLex e).2) = e := by
      rw [← own e he]
      rfl
    simp [Function.comp, same]
  refine ⟨num + list.countP fun q => decide (alters insert (E (toLex (id, q)))),
      { ready with kvstore := kv' }, ?_, ?_⟩
  · simp [Database.updateKey, Option.bind_some, prepared, updated, Option.map_some]
  · refine ⟨passed.terms.trans (terms.trans ⟨rfl, rfl, rfl, rfl, rfl, rfl⟩), allocated,
        fun key elsewhere => ?_, fun other => ?_,
      passed.finite.union (finite_toSet chunk), number.symm⟩
    · rw [values, Function.update_of_ne fun same => elsewhere
          (by rw [same]), arrays, passed.others key elsewhere]
    · rw [values]
      obtain rfl | same := eq_or_ne other id
      · rw [Function.update_self]
        refine lists_congr lists fun q => ?_
        simp [edited, entry q, Set.mem_union, outside q, false_or, Set.mem_ofPred_eq]
      · rw [Function.update_of_ne (by simpa using same), arrays]
        refine lists_congr (passed.lists other) fun q => ?_
        have apart : toLex (other, q) ∉ chunk := fun inside => same (own _ inside)
        simp [edited, Set.mem_union, Set.mem_ofPred_eq, apart, or_false]

section Compare

variable {type : IDType}

theorem entry_lt_iff {a b : Triple} : a.entry type < b.entry type ↔
    (a.key type).id < (b.key type).id ∨ (a.key type).id = (b.key type).id ∧
      ((ofLex (a.pair type)).1 < (ofLex (b.pair type)).1 ∨
        (ofLex (a.pair type)).1 = (ofLex (b.pair type)).1 ∧
        (ofLex (a.pair type)).2 < (ofLex (b.pair type)).2) := by
  rw [Prod.Lex.lt_iff, entry, entry]
  exact or_congr_right (and_congr_right' Prod.Lex.lt_iff)

theorem spoCmpIdtuple_iff (a b : Triple) :
    spoCmpIdtuple a b = true ↔ a.entry .subject < b.entry .subject := by
  rw [entry_lt_iff]
  simp only [spoCmpIdtuple, key, pair, ofLex_toLex]
  grind

theorem opsCmpIdtuple_iff (a b : Triple) :
    opsCmpIdtuple a b = true ↔ a.entry .object < b.entry .object := by
  rw [entry_lt_iff]
  simp only [opsCmpIdtuple, key, pair, ofLex_toLex]
  grind

theorem psoCmpIdtuple_iff (a b : Triple) :
    psoCmpIdtuple a b = true ↔ a.entry .predicate < b.entry .predicate := by
  rw [entry_lt_iff]
  simp only [psoCmpIdtuple, key, pair, ofLex_toLex]
  grind

end Compare

theorem cmpIdtuple_iff (type : IDType) (a b : Triple) :
    cmpIdtuple type a b = true ↔ a.entry type < b.entry type := by
  cases type with
  | subject => exact spoCmpIdtuple_iff a b
  | predicate => exact psoCmpIdtuple_iff a b
  | object => exact opsCmpIdtuple_iff a b

theorem sortTuples_sorted (type : IDType) (tuples : List Triple) :
    ((sortTuples type tuples).map (entry type)).Pairwise (· ≤ ·) := by
  have order : ∀ a b, (!cmpIdtuple type b a) = true ↔ a.entry type ≤ b.entry type := fun a b => by
    rw [Bool.not_eq_true', ← Bool.not_eq_true, cmpIdtuple_iff, not_lt]
  have sorted := @List.pairwise_mergeSort _ (fun a b => !cmpIdtuple type b a)
    (fun a b c ab bc => (order a c).mpr (((order a b).mp ab).trans ((order b c).mp bc)))
    (fun a b => by simpa [order] using le_total (a.entry type) (b.entry type)) tuples
  exact pairwise_map.mpr (sorted.imp fun {a b} le => (order a b).mp le)

theorem mem_sortTuples (type : IDType) (tuples : List Triple) (t : Triple) :
    t ∈ sortTuples type tuples ↔ t ∈ tuples :=
  mem_mergeSort

theorem sortTuples_increasing (type : IDType) (nodup : tuples.Nodup) :
    Increasing ((sortTuples type tuples).map (entry type)) := by
  have distinct : ((sortTuples type tuples).map (entry type)).Nodup :=
    ((mergeSort_perm tuples _).nodup_iff.mpr nodup).map (entry_injective type)
  exact (sortTuples_sorted type tuples).imp₂ (fun _ _ le ne => lt_of_le_of_ne le ne) distinct

theorem subBatchUpdate_passed (db : Database) (insert : Bool) (allocated : db.kvstore.Allocated)
    (shown : ∀ id, Lists type (db.kvstore.getValueByKey ⟨type, id⟩) fun q => E (toLex (id, q)))
    (filled : tuples ≠ []) (sorted : Increasing (tuples.map (entry .subject)))
    (fits : insert = true → ∀ t ∈ tuples, (t.key type).Fits) :
    ∃ num next, db.subBatchUpdate insert type tuples = some (num, next) ∧
      db.Passed insert type E next num {e | e ∈ tuples.map (entry type)} := by
  obtain ⟨ordered, same, increasing, members⟩ : ∃ ordered,
      (if type = .subject then tuples else sortTuples type tuples) = ordered ∧
        Increasing (ordered.map (entry type)) ∧ ∀ t, t ∈ ordered ↔ t ∈ tuples := by
    refine ⟨_, rfl, ?_⟩
    split_ifs with subject
    · exact ⟨subject ▸ sorted, fun t => Iff.rfl⟩
    · exact ⟨sortTuples_increasing type (List.Nodup.of_map _ (increasing_nodup sorted)),
          mem_sortTuples type tuples⟩
  have entries : {e | e ∈ tuples.map (entry type)} = {e | e ∈ ordered.map (entry type)} := by
    ext e
    simp [members]
  have start : db.Passed insert type E db 0 ∅ :=
    ⟨⟨rfl, rfl, rfl, rfl, rfl, rfl⟩, allocated, fun _ _ => rfl,
      fun id => lists_congr (shown id)
        fun q => by cases insert <;> simp [edited], Set.finite_empty, by simp⟩
  have mono : Monotone fun e : Nat ×ₗ VData => (ofLex e).1 := Prod.Lex.monotone_fst
  rw [Database.subBatchUpdate, same, entries]
  cases ordered with
  | nil =>
    obtain ⟨t, member⟩ := exists_mem_of_ne_nil _ filled
    exact absurd ((members t).mpr member) not_mem_nil
  | cons t ts =>
    have stores : ∀ (s : Option (Nat × Database)) (D : Set (Nat ×ₗ VData)) (id : Nat)
      (chunk : List (Nat ×ₗ VData)),
        (∃ num next, s = some (num, next) ∧ db.Passed insert type E next num D) →
        (∀ u ∈ D, (ofLex u).1 ≠ id) →
        (∀ u ∈ chunk, insert = true → Key.Fits ⟨type, (ofLex u).1⟩) → chunk ≠ [] →
        Increasing chunk → (∀ u ∈ chunk, (ofLex u).1 = id) →
        ∃ num next, Database.updateKey insert s ⟨type, id⟩ (chunk.map fun e => (ofLex e).2) = some
        (num, next) ∧
          db.Passed insert type E next num (D ∪ {u | u ∈ chunk}) := by
      rintro s D id chunk ⟨num, next, rfl, passed⟩ fresh fits nonempty sorted own
      obtain ⟨u, inside⟩ := exists_mem_of_ne_nil chunk nonempty
      exact passed.updateKey fresh (own u inside ▸ fits u inside) nonempty sorted own
    have stored := storeChunks_stores mono stores ⟨0, db, rfl, start⟩
      (collected_nil (increasing.imp le_of_lt)) (by simp) fun e member insertion => by
        obtain ⟨u, hu, rfl⟩ := mem_map.mp member
        have here := fits insertion u ((members u).mp hu)
        cases type <;> exact here
    rw [← subBatchLoop_chunks increasing] at stored
    simpa [subBatchLoop, entry] using stored

theorem holds_of_lists {kv : KVstore} {T : Triple → Prop} (allocated : kv.Allocated)
    (lists : ∀ type id,
    Lists type (kv.getValueByKey ⟨type, id⟩) fun q => ∃ t, T t ∧ t.entry type = toLex (id, q)) :
    kv.Holds T where
  allocated := allocated
  subjects s := represents_congr (lists .subject s) fun p o =>
    ⟨fun ⟨t, present, same⟩ => @entry_injective .subject t ⟨s, p, o⟩ same ▸ present,
      fun h => ⟨_, h, rfl⟩⟩
  objects o := represents_congr (lists .object o) fun p s =>
    ⟨fun ⟨t, present, same⟩ => @entry_injective .object t ⟨s, p, o⟩ same ▸ present,
      fun h => ⟨_, h, rfl⟩⟩
  predicates p := representsColumns_congr (lists .predicate p) fun s o =>
    ⟨fun ⟨t, present, same⟩ => @entry_injective .predicate t ⟨s, p, o⟩ same ▸ present,
      fun h => ⟨_, h, rfl⟩⟩

def KVstore.ListsOf (type : IDType) (T : Triple → Prop) : Prop :=
  ∀ id, Lists type (kv.getValueByKey ⟨type, id⟩) fun q => ∃ t, T t ∧ t.entry type = toLex (id, q)

section Passes

variable {T : Triple → Prop} [DecidablePred T] (insert : Bool) {tuples : List Triple}
    (filled : tuples ≠ [])
  (sorted : Increasing (tuples.map (entry .subject)))
include filled sorted

theorem subBatchUpdate_spec (allocated : db.kvstore.Allocated)
    (shown : db.kvstore.ListsOf type T) (fits : insert = true → ∀ t ∈ tuples, (t.key type).Fits) :
    ∃ next, db.subBatchUpdate insert type tuples = some
    (tuples.countP fun t => decide (alters insert (T t)), next) ∧
      db.SameTerms next ∧ next.kvstore.Allocated ∧
      (∀ key, key.type ≠ type → next.kvstore.getValueByKey key = db.kvstore.getValueByKey key) ∧
      next.kvstore.ListsOf type fun t => edited insert (T t) (t ∈ tuples) := by
  obtain ⟨num, next, ran, passed⟩ :=
    subBatchUpdate_passed (E := fun e => ∃ t, T t ∧ t.entry type = e) db insert
    allocated shown filled sorted fits
  have inside : ∀ t, (∃ u, T u ∧ u.entry type = t.entry type) ↔ T t := fun t => by
    simp [(entry_injective type).eq_iff]
  have number : num = tuples.countP fun t => decide (alters insert (T t)) := by
    rw [passed.counted, ← ncard_members (List.Nodup.of_map _ (increasing_nodup sorted)),
      ← Set.ncard_image_of_injective _ (entry_injective type)]
    congr 1
    ext e
    simp only [Set.mem_ofPred_eq, mem_map, Set.mem_image]
    constructor
    · rintro ⟨⟨t, member, rfl⟩, changes⟩
      exact ⟨t, ⟨member, by rwa [inside] at changes⟩, rfl⟩
    · rintro ⟨t, ⟨member, changes⟩, rfl⟩
      exact ⟨⟨t, member, rfl⟩, by rwa [inside]⟩
  refine ⟨next, number ▸ ran, passed.terms, passed.allocated, passed.others, fun id => ?_⟩
  refine lists_congr (passed.lists id) fun q => ?_
  cases insert with
  | true =>
    simp only [edited, if_true, Set.mem_ofPred_eq, mem_map]
    constructor
    · rintro (⟨t, old, same⟩ | ⟨t, new, same⟩)
      · exact ⟨t, .inl old, same⟩
      · exact ⟨t, .inr new, same⟩
    · rintro ⟨t, old | new, same⟩
      · exact .inl ⟨t, old, same⟩
      · exact .inr ⟨t, new, same⟩
  | false =>
    simp only [edited, Bool.false_eq_true, if_false, Set.mem_ofPred_eq, mem_map]
    constructor
    · rintro ⟨⟨t, old, same⟩, kept⟩
      exact ⟨t, ⟨old, fun new => kept ⟨t, new, same⟩⟩, same⟩
    · rintro ⟨t, ⟨old, kept⟩, same⟩
      refine ⟨⟨t, old, same⟩, ?_⟩
      rintro ⟨u, new, equal⟩
      exact kept (entry_injective type (equal.trans same.symm) ▸ new)

theorem updateIndexes_spec (holds : db.kvstore.Holds T)
    (fits : insert = true → ∀ t ∈ tuples, ∀ type, (t.key type).Fits) :
    let num := tuples.countP fun t => decide (alters insert (T t))
    ∃ next, db.updateIndexes insert tuples = some (num, num, num, next) ∧ db.SameTerms next ∧
      next.kvstore.Holds fun t => edited insert (T t) (t ∈ tuples) := by
  intro num
  obtain ⟨db₁, ran₁, terms₁, allocated₁, others₁, subjects⟩ :=
    subBatchUpdate_spec insert filled sorted
    holds.allocated (holds_lists holds .subject) fun h t member => fits h t member .subject
  have predicates : db₁.kvstore.ListsOf .predicate T := fun id =>
    others₁ ⟨.predicate, id⟩ (by simp) ▸ holds_lists holds .predicate id
  obtain ⟨db₂, ran₂, terms₂, allocated₂, others₂, predicates⟩ :=
    subBatchUpdate_spec insert filled sorted
    allocated₁ predicates fun h t member => fits h t member .predicate
  have objects : db₂.kvstore.ListsOf .object T := fun id =>
    others₂ ⟨.object, id⟩ (by simp) ▸ others₁ ⟨.object, id⟩ (by simp) ▸ holds_lists holds .object id
  obtain ⟨db₃, ran₃, terms₃, allocated₃, others₃, objects⟩ :=
    subBatchUpdate_spec insert filled sorted
    allocated₂ objects fun h t member => fits h t member .object
  refine ⟨db₃, by simp [Database.updateIndexes, ran₁, ran₂, ran₃, num], terms₁.trans (terms₂.trans terms₃), ?_⟩
  refine holds_of_lists allocated₃ fun type id => ?_
  cases type with
  | subject =>
    exact others₃ ⟨.subject, id⟩ (by simp) ▸ others₂ ⟨.subject, id⟩ (by simp) ▸ subjects id
  | predicate => exact others₃ ⟨.predicate, id⟩ (by simp) ▸ predicates id
  | object => exact objects id

end Passes

end GStore
