import Mathlib.Data.List.Nodup
import Mathlib.Order.Nat

/-! `IDListWithAppending::Intersect`. Its three methods append to the vectors that the old contents
share with a new map of the common keys, but the new map is never stored. -/
namespace GStore
open List

/-- `contents_`: the keys of the map, and the vectors that its entries point to. -/
structure IDListWithAppending where
  keys : List Nat
  attached : Nat → List Nat
  sorted : keys.Pairwise (· < ·)

namespace IDListWithAppending

def mainKey (pos : Nat) (record : List Nat) : Nat := record.getD pos 0

/-- `push_back` of the fields of a record beside its main key to the vector of the key. -/
def append (pos : Nat) (attached : Nat → List Nat) (record : List Nat) : Nat → List Nat :=
  Function.update attached (mainKey pos record)
    (attached (mainKey pos record) ++ record.eraseIdx pos)

/-! The records that the methods append, in their order. -/

def equalIntersect (pos : Nat) : List Nat → List (List Nat) → List (List Nat)
  | [], _ => []
  | _, [] => []
  | key :: self, record :: other =>
    if key < mainKey pos record then equalIntersect pos self (record :: other)
    else if mainKey pos record = key then record :: equalIntersect pos self other
    else equalIntersect pos (key :: self) other
  termination_by self other => self.length + other.length

def searchMyself (pos : Nat) (keys : List Nat) (other : List (List Nat)) : List (List Nat) :=
  other.filter (mainKey pos · ∈ keys)

def searchInput (pos : Nat) (self : List Nat) (other : List (List Nat)) : List (List Nat) :=
  self.filterMap fun key => other.find? (mainKey pos · = key)

variable (close : Nat → Nat → Bool)

/-- `close` is the comparison of the ratio of the sizes with the limit, both floating-point numbers.
-/
def matching (pos : Nat) (keys : List Nat) (records : List (List Nat)) : List (List Nat) :=
  if pos ≠ 0 then searchMyself pos keys records
  else if max keys.length records.length ≤ 2 ∨
    close keys.length records.length then equalIntersect pos keys records
  else if keys.length < records.length then searchInput pos keys records
  else searchMyself pos keys records

def intersect (pos : Nat) (list : IDListWithAppending) (records : List (List Nat)) :
    IDListWithAppending :=
  { list with attached := (matching close pos list.keys records).foldl (append pos) list.attached }

/-- The common keys are left, each with its data and then the other fields of its record. -/
structure Intersected (pos : Nat) (list : IDListWithAppending) (records : List (List Nat))
    (new : IDListWithAppending) :
    Prop where
  keys : ∀ k, k ∈ new.keys ↔ k ∈ list.keys ∧ k ∈ records.map (mainKey pos)
  data : ∀ record ∈ records, mainKey pos record ∈ new.keys →
    new.attached (mainKey pos record) = list.attached (mainKey pos record) ++ record.eraseIdx pos

variable {pos : Nat} {keys : List Nat} {record : List Nat} {other : List (List Nat)}

theorem foldl_append_other {k : Nat} (absent : k ∉ other.map (mainKey pos))
    (attached : Nat → List Nat) :
    other.foldl (append pos) attached k = attached k := by
  induction other generalizing attached with
  | nil => rfl
  | cons r other ih =>
    obtain ⟨apart, absent⟩ := not_or.mp (mt mem_cons.mpr absent)
    rw [foldl_cons, ih absent]
    exact Function.update_of_ne apart _ _

theorem foldl_append_mem (distinct : (other.map (mainKey pos)).Nodup) (there : record ∈ other)
    (attached : Nat → List Nat) :
    other.foldl (append pos) attached (mainKey pos record) = attached
    (mainKey pos record) ++ record.eraseIdx pos := by
  induction other generalizing attached with
  | nil => cases there
  | cons r other ih =>
    obtain ⟨fresh, distinct⟩ := nodup_cons.mp distinct
    rw [foldl_cons]
    rcases mem_cons.mp there with rfl | later
    · rw [foldl_append_other fresh]
      exact Function.update_self _ _ _
    · have apart : mainKey pos record ≠ mainKey pos r :=
        fun same => fresh (same ▸ mem_map_of_mem later)
      rw [ih distinct later, append, Function.update_of_ne apart]

theorem equalIntersect_sublist : (equalIntersect pos keys other).Sublist other := by
  fun_induction equalIntersect pos keys other with
  | case1 => exact nil_sublist _
  | case2 => exact nil_sublist _
  | case3 key self r other less ih => exact ih
  | case4 self r other less ih => exact ih.cons_cons r
  | case5 key self r other less different ih => exact ih.cons r

theorem mem_equalIntersect (sorted : keys.Pairwise (· < ·))
    (order : (other.map (mainKey pos)).Pairwise (· < ·))
    (there : record ∈ other) (inside : mainKey pos record ∈ keys) :
    record ∈ equalIntersect pos keys other := by
  fun_induction equalIntersect pos keys other with
  | case1 => cases inside
  | case2 => cases there
  | case3 key self r other less ih =>
    refine ih sorted.of_cons order there ((mem_cons.mp inside).resolve_left fun same => ?_)
    rcases mem_cons.mp there with rfl | later
    · omega
    · have above := (pairwise_cons.mp order).1 _ (mem_map_of_mem later)
      omega
  | case4 self r other less ih =>
    rcases mem_cons.mp there with rfl | later
    · exact mem_cons_self
    · have above := (pairwise_cons.mp order).1 _ (mem_map_of_mem later)
      exact mem_cons_of_mem r (ih sorted.of_cons order.of_cons later
          ((mem_cons.mp inside).resolve_left (by omega)))
  | case5 key self r other less different ih =>
    refine ih sorted order.of_cons ((mem_cons.mp there).resolve_left ?_) inside
    rintro rfl
    have below : key ≤ mainKey pos record := by
      rcases mem_cons.mp inside with same | later
      · exact same.ge
      · exact ((pairwise_cons.mp sorted).1 _ later).le
    omega

theorem searchInput_keys : ((searchInput pos keys other).map (mainKey pos)).Sublist keys := by
  induction keys with
  | nil => exact List.Sublist.refl _
  | cons key keys ih =>
    rw [searchInput, filterMap_cons, ← searchInput]
    cases search : other.find? (mainKey pos · = key) with
    | none => exact ih.cons key
    | some r =>
      have main : mainKey pos r = key := by simpa using find?_some search
      rw [map_cons, main]
      exact ih.cons_cons key

theorem mem_searchInput (distinct : (other.map (mainKey pos)).Nodup) (there : record ∈ other)
    (inside : mainKey pos record ∈ keys) : record ∈ searchInput pos keys other := by
  obtain ⟨r, search⟩ := Option.isSome_iff_exists.mp
    (@List.find?_isSome _ other (mainKey pos · = mainKey pos record) |>.mpr
      ⟨record, there, by simp⟩)
  have same : r = record := inj_on_of_nodup_map distinct (mem_of_find?_eq_some search) there
    (by simpa using find?_some search)
  exact mem_filterMap.mpr ⟨_, inside, same ▸ search⟩

theorem matching_spec {close : Nat → Nat → Bool} (sorted : keys.Pairwise (· < ·))
    (order : (other.map (mainKey pos)).Pairwise (· < ·)) :
    ((matching close pos keys other).map (mainKey pos)).Nodup ∧
      ∀ r ∈ other, mainKey pos r ∈ keys → r ∈ matching close pos keys other := by
  have distinct : (other.map (mainKey pos)).Nodup := order.imp ne_of_lt
  have filtered : ((searchMyself pos keys other).map (mainKey pos)).Nodup ∧
      ∀ r ∈ other, mainKey pos r ∈ keys → r ∈ searchMyself pos keys other :=
    ⟨distinct.sublist (filter_sublist.map _),
      fun r there inside => mem_filter.mpr ⟨there, by simpa using inside⟩⟩
  unfold matching
  split
  · exact filtered
  · split
    · exact ⟨distinct.sublist (equalIntersect_sublist.map _),
          fun r => mem_equalIntersect sorted order⟩
    · split
      · exact ⟨(sorted.imp ne_of_lt).sublist searchInput_keys, fun r => mem_searchInput distinct⟩
      · exact filtered

theorem intersect_exact_iff (close : Nat → Nat → Bool) (pos : Nat) (list : IDListWithAppending)
    (records : List (List Nat))
    (order : (records.map (mainKey pos)).Pairwise (· < ·)) :
    Intersected pos list records (intersect close pos list records) ↔
    ∀ k ∈ list.keys, k ∈ records.map (mainKey pos) := by
  constructor
  · exact fun done k inside => ((done.keys k).mp inside).2
  · intro all
    obtain ⟨distinct, found⟩ := @matching_spec pos list.keys records close list.sorted order
    exact ⟨fun k => ⟨fun inside => ⟨inside, all k inside⟩, And.left⟩,
      fun record there inside => foldl_append_mem distinct
        (found record there inside) list.attached⟩

def twoKeys : IDListWithAppending := ⟨[1, 2], fun _ => [], by decide⟩

theorem lost_key_kept : ¬ Intersected 1 twoKeys [[7, 1]]
    (intersect (fun _ _ => true) 1 twoKeys [[7, 1]]) := by
  intro done
  exact absurd ((done.keys 2).mp (by decide)).2 (by decide)

theorem both_keys_matched :
    Intersected 1 twoKeys [[7, 1], [8, 2]]
    (intersect (fun _ _ => true) 1 twoKeys [[7, 1], [8, 2]]) :=
  (intersect_exact_iff _ 1 twoKeys [[7, 1], [8, 2]] (by decide)).mpr (by decide)

end IDListWithAppending
end GStore
