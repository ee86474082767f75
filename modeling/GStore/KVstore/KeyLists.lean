import GStore.KVstore.Batch
import GStore.KVstore.Triples

/-! The list of a key, whatever the kind of the key: which pairs it holds, that the pairs determine
it, and what its first word counts. -/
namespace GStore
open Lib

def Triple.key (t : Triple) : IDType → Key
  | .subject => ⟨.subject, t.sub⟩
  | .predicate => ⟨.predicate, t.pre⟩
  | .object => ⟨.object, t.obj⟩

def Triple.pair (t : Triple) : IDType → VData
  | .subject => toLex (t.pre, t.obj)
  | .predicate => toLex (t.sub, t.obj)
  | .object => toLex (t.pre, t.sub)

def Side.type : Side → IDType
  | .sub => .subject
  | .obj => .object

def Side.partner : Side → Triple → Nat
  | .sub, t => t.obj
  | .obj, t => t.sub

variable (type : IDType)

def Triple.entry (t : Triple) : Nat ×ₗ VData := toLex ((t.key type).id, t.pair type)

theorem entry_injective : Function.Injective (Triple.entry type) := by
  intro a b same
  cases type <;> simp_all [Triple.entry, Triple.key, Triple.pair, Triple.ext_iff]

def Lists (value : Option (List Nat)) (S : VData → Prop) : Prop :=
  match type with
  | .subject => Represents .sub value fun p x => S (toLex (p, x))
  | .object => Represents .obj value fun p x => S (toLex (p, x))
  | .predicate => RepresentsColumns value fun s o => S (toLex (s, o))

/-- The pairs in a list, as the loops of `getpreIDobjIDlistBysubID`, `getpreIDsubIDlistByobjID` and
`getsubIDobjIDlistBypreID` go through them. -/
def pairsIn (value : Option (List Nat)) : List VData :=
  match value with
  | none => []
  | some l =>
    match type with
    | .subject => (listPairs .sub l).map toLex
    | .object => (listPairs .obj l).map toLex
    | .predicate => columnPairs l

variable {value : Option (List Nat)} {type : IDType} {S : VData → Prop}

theorem mem_pairsIn (shown : Lists type value S) (q : VData) : q ∈ pairsIn type value ↔ S q := by
  have packed : ∀ k : Side, Represents k value (fun p x => S (toLex (p, x))) →
      ((∃ l, value = some l ∧ q ∈ (listPairs k l).map toLex) ↔ S q) := by
    intro k shown
    refine Iff.trans ?_ ((represents_decodes shown).1 (ofLex q).1 (ofLex q).2)
    simp only [List.mem_map]
    constructor
    · rintro ⟨l, rfl, p, member, rfl⟩
      exact ⟨l, rfl, member⟩
    · rintro ⟨l, rfl, member⟩
      exact ⟨l, rfl, _, member, rfl⟩
  cases type with
  | subject =>
    rw [← packed .sub shown]
    cases value <;> simp [pairsIn]
  | object =>
    rw [← packed .obj shown]
    cases value <;> simp [pairsIn]
  | predicate =>
    refine Iff.trans ?_ ((representsColumns_decodes shown).1 (ofLex q).1 (ofLex q).2)
    cases value with
    | none => simp [pairsIn]
    | some l => exact ⟨fun h => ⟨l, rfl, h⟩, fun ⟨l, same, h⟩ => Option.some.inj same ▸ h⟩

theorem lists_congr {S R : VData → Prop} (shown : Lists type value S)
    (same : ∀ q, S q ↔ R q) : Lists type value R := by
  cases type with
  | subject => exact represents_congr shown fun p x => same _
  | object => exact represents_congr shown fun p x => same _
  | predicate => exact representsColumns_congr shown fun p x => same _

theorem lists_none_iff (shown : Lists type value S) : value = none ↔ ∀ q, ¬ S q := by
  have filled : value.isSome = true ↔ ∃ q, S q := by
    cases type with
    | subject =>
      exact (represents_decodes shown).2.2.trans
        ⟨fun ⟨p, x, h⟩ => ⟨_, h⟩, fun ⟨q, h⟩ => ⟨(ofLex q).1, (ofLex q).2, h⟩⟩
    | object =>
      exact (represents_decodes shown).2.2.trans
        ⟨fun ⟨p, x, h⟩ => ⟨_, h⟩, fun ⟨q, h⟩ => ⟨(ofLex q).1, (ofLex q).2, h⟩⟩
    | predicate =>
      exact (representsColumns_decodes shown).2.2.trans
        ⟨fun ⟨s, o, h⟩ => ⟨_, h⟩, fun ⟨q, h⟩ => ⟨(ofLex q).1, (ofLex q).2, h⟩⟩
  rw [← not_exists, ← filled]
  simp

theorem lists_unique {v w : Option (List Nat)} (left : Lists type v S) (right : Lists type w S) :
    v = w := by
  have packed : ∀ k : Side, Represents k v (fun p x => S (toLex (p, x))) →
      Represents k w (fun p x => S (toLex (p, x))) → v = w := by
    rintro k ⟨gs, whole, rfl, members⟩ ⟨hs, grouped, rfl, others⟩
    rw [grouped_ext whole grouped fun p x => (members p x).trans (others p x).symm]
  cases type with
  | subject => exact packed .sub left right
  | object => exact packed .obj left right
  | predicate =>
    obtain ⟨ps, sorted, rfl, members⟩ := left
    obtain ⟨qs, increasing, rfl, others⟩ := right
    rw [increasing_ext sorted increasing fun q => (members (ofLex q).1 (ofLex q).2).trans
        (others _ _).symm]

def firstWord (value : Option (List Nat)) : Nat := value.elim 0 fun l => word l 0

theorem pairsIn_sorted (shown : Lists type value S) :
    Increasing (pairsIn type value) ∧ firstWord value = (pairsIn type value).length := by
  have packed : ∀ k : Side, ∀ gs, Grouped gs → gs ≠ [] →
    Increasing ((listPairs k (pack k gs)).map toLex) ∧
      word (pack k gs) 0 = ((listPairs k (pack k gs)).map toLex).length := by
    intro k gs whole filled
    rw [listPairs_pack, word_pack_zero, List.length_map, length_pairs]
    exact ⟨pairs_increasing whole, rfl⟩
  cases type with
  | subject =>
    obtain ⟨gs, whole, rfl, -⟩ := shown
    by_cases empty : gs = []
    · simp [stored, empty, pairsIn, firstWord]
    · rw [stored, if_neg empty]
      exact packed .sub gs whole empty
  | object =>
    obtain ⟨gs, whole, rfl, -⟩ := shown
    by_cases empty : gs = []
    · simp [stored, empty, pairsIn, firstWord]
    · rw [stored, if_neg empty]
      exact packed .obj gs whole empty
  | predicate =>
    obtain ⟨ps, sorted, rfl, -⟩ := shown
    by_cases empty : ps = []
    · simp [storedColumns, empty, pairsIn, firstWord]
    · simp only [storedColumns, if_neg empty, pairsIn, columnPairs_columns]
      exact ⟨sorted, rfl⟩

theorem holds_lists {kv : KVstore} {T : Triple → Prop} (holds : kv.Holds T) (type : IDType)
    (id : Nat) :
    Lists type (kv.getValueByKey ⟨type, id⟩) fun q => ∃ t, T t ∧ t.entry type = toLex (id, q) := by
  cases type with
  | subject =>
    refine represents_congr (holds.subjects id) fun p o => ⟨fun h => ⟨_, h, rfl⟩, ?_⟩
    rintro ⟨t, present, same⟩
    rwa [← @entry_injective .subject t ⟨id, p, o⟩ same]
  | object =>
    refine represents_congr (holds.objects id) fun p s => ⟨fun h => ⟨_, h, rfl⟩, ?_⟩
    rintro ⟨t, present, same⟩
    rwa [← @entry_injective .object t ⟨s, p, id⟩ same]
  | predicate =>
    refine representsColumns_congr (holds.predicates id) fun s o => ⟨fun h => ⟨_, h, rfl⟩, ?_⟩
    rintro ⟨t, present, same⟩
    rwa [← @entry_injective .predicate t ⟨s, id, o⟩ same]

theorem holds_unique {kv : KVstore} {T U : Triple → Prop} (left : kv.Holds T) (right : kv.Holds U)
    (t : Triple) :
    T t ↔ U t := by
  have first := mem_pairsIn (holds_lists left .subject t.sub) (t.pair .subject)
  have second := mem_pairsIn (holds_lists right .subject t.sub) (t.pair .subject)
  have own : ∀ u : Triple, u.entry .subject = toLex (t.sub, t.pair .subject) ↔ u = t := fun u =>
    (entry_injective .subject).eq_iff (a := u) (b := t)
  simpa only [own, exists_eq_right] using first.symm.trans second

end GStore
