import GStore.KVstore.IVArray
import GStore.KVstore.Predicate
import GStore.Lib.Run
import Mathlib.Data.Finset.Basic

/-! The four value indexes of `KVstore` and the single-triple updates outside a transaction. The
store is read through `getValueByKey`; a list of pairs per key represents a set of triples. -/
namespace GStore
open Lib

inductive Index where
  | sub
  | obj
  | lit
  | pre
  deriving DecidableEq, Repr

structure KVstore where
  array : Index → IVArray

def KVstore.empty : KVstore := ⟨fun _ => IVArray.empty⟩

/-- The entry of a key: object ids from `LITERAL_FIRST_ID` on live in `objID2values_literal`. -/
def locate (key : Key) : Index × Nat :=
  match key.type with
  | .subject => (.sub, key.id)
  | .predicate => (.pre, key.id)
  | .object => if isLiteralEle key.id then (.lit, key.id - literalFirstID) else (.obj, key.id)

variable (kv : KVstore)

def KVstore.setArray (ix : Index) (a : IVArray) : KVstore :=
  ⟨Function.update kv.array ix a⟩

def KVstore.getValueByKey (key : Key) : Option (List Nat) :=
  (kv.array (locate key).1).search (locate key).2

def KVstore.addValueByKey (key : Key) (value : List Nat) : KVstore :=
  kv.setArray (locate key).1 ((kv.array (locate key).1).insert (locate key).2 value).2

def KVstore.setValueByKey (key : Key) (value : List Nat) : KVstore :=
  kv.setArray (locate key).1 ((kv.array (locate key).1).modify (locate key).2 value).2

def KVstore.removeKey (key : Key) : KVstore :=
  kv.setArray (locate key).1 ((kv.array (locate key).1).remove (locate key).2).2

def KVstore.updateInsert (key : Key) (splice : Option (List Nat) → List Nat) : KVstore :=
  match kv.getValueByKey key with
  | none => kv.addValueByKey key (splice none)
  | some tmp => kv.setValueByKey key (splice (some tmp))

def KVstore.updateRemove (key : Key) (splice : List Nat → Option (Option (List Nat))) :
    Option (Bool × KVstore) :=
  match kv.getValueByKey key with
  | none => some (false, kv)
  | some tmp =>
    (splice tmp).map fun
      | none => (true, kv.removeKey key)
      | some values => (true, kv.setValueByKey key values)

variable (s p o : Nat)

def KVstore.updateInsertS2values : KVstore :=
  kv.updateInsert ⟨.subject, s⟩ fun value => updateInsertValues .sub value p o

def KVstore.updateInsertO2values : KVstore :=
  kv.updateInsert ⟨.object, o⟩ fun value => updateInsertValues .obj value p s

def KVstore.updateInsertP2values : KVstore :=
  kv.updateInsert ⟨.predicate, p⟩ fun value => GStore.updateInsertP2values value s o

def KVstore.updateRemoveS2values : Option (Bool × KVstore) :=
  kv.updateRemove ⟨.subject, s⟩ fun tmp => updateRemoveValues .sub tmp p o

def KVstore.updateRemoveO2values : Option (Bool × KVstore) :=
  kv.updateRemove ⟨.object, o⟩ fun tmp => updateRemoveValues .obj tmp p s

def KVstore.updateRemoveP2values : Option (Bool × KVstore) :=
  kv.updateRemove ⟨.predicate, p⟩ fun tmp => GStore.updateRemoveP2values tmp s o

def KVstore.updateTupleslistInsert : KVstore :=
  ((kv.updateInsertS2values s p o).updateInsertO2values s p o).updateInsertP2values s p o

def KVstore.updateTupleslistRemove : Option (Bool × KVstore) :=
  (kv.updateRemoveS2values s p o).bind fun (done, kv) =>
    if !done then some (false, kv)
    else (kv.updateRemoveO2values s p o).bind fun (done, kv) =>
      if !done then some (false, kv) else kv.updateRemoveP2values s p o

def KVstore.Allocated : Prop := ∀ ix, (kv.array ix).Allocated

def Key.Fits (key : Key) : Prop := (locate key).2 < maxKeyNum

def keyAt : Index × Nat → Key
  | (.sub, i) => ⟨.subject, i⟩
  | (.pre, i) => ⟨.predicate, i⟩
  | (.obj, i) => ⟨.object, i⟩
  | (.lit, i) => ⟨.object, i + literalFirstID⟩

theorem keyAt_locate (key : Key) : keyAt (locate key) = key := by
  obtain ⟨type, id⟩ := key
  cases type with
  | subject => rfl
  | predicate => rfl
  | object =>
    by_cases literal : isLiteralEle id = true
    · simp only [locate, if_pos literal, keyAt]
      rw [Nat.sub_add_cancel (of_decide_eq_true literal)]
    · simp [locate, if_neg literal, keyAt]

theorem locate_injective : Function.Injective locate := Function.LeftInverse.injective keyAt_locate

theorem empty_allocated_store : KVstore.empty.Allocated := fun _ => empty_allocated

@[simp] theorem setArray_array (ix : Index) (a : IVArray) :
    (kv.setArray ix a).array = Function.update kv.array ix a := rfl

variable {kv : KVstore}

theorem setArray_allocated (allocated : kv.Allocated) (ix : Index) {a : IVArray}
    (own : a.Allocated) : (kv.setArray ix a).Allocated := by
  intro other
  rw [setArray_array]
  obtain rfl | same := eq_or_ne other ix
  · simpa using own
  · simpa [Function.update_of_ne same] using allocated other

theorem getValueByKey_setArray (allocated : kv.Allocated) (key : Key) {a : IVArray}
    (own : a.Allocated) (e : IVEntry)
    (entries : a.entry = Function.update (kv.array (locate key).1).entry (locate key).2 e) :
    (kv.setArray (locate key).1 a).getValueByKey =
    Function.update kv.getValueByKey key e.value := by
  funext other
  have whole := setArray_allocated allocated (locate key).1 own
  rw [KVstore.getValueByKey, search_eq (whole _), setArray_array]
  obtain rfl | same := eq_or_ne other key
  · simp [entries]
  · rw [Function.update_of_ne same, KVstore.getValueByKey, search_eq (allocated _)]
    by_cases index : (locate other).1 = (locate key).1
    · have apart : (locate other).2 ≠ (locate key).2 :=
        fun position => same (locate_injective (Prod.ext index position))
      rw [index, Function.update_self, entries, Function.update_of_ne apart]
    · rw [Function.update_of_ne index]

variable {key : Key}

theorem addValueByKey_spec (allocated : kv.Allocated) (fits : key.Fits)
    (absent : kv.getValueByKey key = none) (value : List Nat) :
    (kv.addValueByKey key value).Allocated ∧
      (kv.addValueByKey key value).getValueByKey = Function.update kv.getValueByKey key
      (some value) := by
  have own := allocated (locate key).1
  rw [KVstore.getValueByKey, search_eq own] at absent
  have inserted : ((kv.array (locate key).1).insert (locate key).2 value).2 =
      ((kv.array (locate key).1).expand (locate key).2).setEntry (locate key).2
        (((kv.array (locate key).1).entry (locate key).2).setValue (some value)) := by
    rw [IVArray.insert, if_neg (by simp [IVEntry.isUsed, absent]), if_neg (Nat.not_le_of_lt fits)]
    simp
  have grown := setEntry_allocated (expand_allocated own (locate key).2) (lt_expand _ _)
    (((kv.array (locate key).1).entry (locate key).2).setValue (some value))
  rw [KVstore.addValueByKey, inserted]
  refine ⟨setArray_allocated allocated _ grown, ?_⟩
  apply getValueByKey_setArray allocated key grown
    (((kv.array (locate key).1).entry (locate key).2).setValue (some value))
  rw [setEntry_entry, expand_entry]

variable {old : List Nat}

section

variable (allocated : kv.Allocated) (present : kv.getValueByKey key = some old)
include allocated present

theorem writeValue_spec (value : Option (List Nat)) :
    let e := ((kv.array (locate key).1).entry (locate key).2).setValue value
    let kv' := kv.setArray (locate key).1 ((kv.array (locate key).1).setEntry (locate key).2 e)
    kv'.Allocated ∧ kv'.getValueByKey = Function.update kv.getValueByKey key value := by
  have own := allocated (locate key).1
  rw [KVstore.getValueByKey, search_eq own] at present
  have used : ((kv.array (locate key).1).entry (locate key).2).isUsed = true := by
    simp [IVEntry.isUsed, present]
  have inside := used_lt own used
  have written := setEntry_allocated own inside
    (((kv.array (locate key).1).entry (locate key).2).setValue value)
  exact ⟨setArray_allocated allocated _ written, getValueByKey_setArray allocated key written _ rfl⟩

theorem setValueByKey_spec (value : List Nat) : (kv.setValueByKey key value).Allocated ∧
      (kv.setValueByKey key value).getValueByKey = Function.update kv.getValueByKey key
      (some value) := by
  have written := writeValue_spec allocated present (some value)
  rw [KVstore.getValueByKey, search_eq (allocated _)] at present
  rwa [KVstore.setValueByKey, IVArray.modify, if_neg (by simp [IVEntry.isUsed, present])]

theorem removeKey_spec : (kv.removeKey key).Allocated ∧
      (kv.removeKey key).getValueByKey = Function.update kv.getValueByKey key none := by
  have written := writeValue_spec allocated present none
  rw [KVstore.getValueByKey, search_eq (allocated _)] at present
  rwa [KVstore.removeKey, IVArray.remove, if_neg (by simp [IVEntry.isUsed, present])]

end

theorem updateInsert_spec (allocated : kv.Allocated) (fits : key.Fits)
    (splice : Option (List Nat) → List Nat) :
    (kv.updateInsert key splice).Allocated ∧ (kv.updateInsert key splice).getValueByKey =
      Function.update kv.getValueByKey key (some (splice (kv.getValueByKey key))) := by
  unfold KVstore.updateInsert
  cases value : kv.getValueByKey key with
  | none => exact addValueByKey_spec allocated fits value (splice none)
  | some tmp => exact setValueByKey_spec allocated value (splice (some tmp))

theorem updateRemove_spec (allocated : kv.Allocated) {tmp : List Nat}
    {value : Option (List Nat)} (splice : List Nat → Option (Option (List Nat)))
    (present : kv.getValueByKey key = some tmp) (spliced : splice tmp = some value) :
    ∃ kv', kv.updateRemove key splice = some (true, kv') ∧ kv'.Allocated ∧
      kv'.getValueByKey = Function.update kv.getValueByKey key value := by
  rw [KVstore.updateRemove, present]
  simp only [spliced, Option.map_some]
  cases value with
  | none => exact ⟨_, rfl, removeKey_spec allocated present⟩
  | some values => exact ⟨_, rfl, setValueByKey_spec allocated present values⟩

end GStore
