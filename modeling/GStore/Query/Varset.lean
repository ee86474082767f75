import Mathlib.Data.List.Basic
import Mathlib.Data.List.Nodup
import Mathlib.Tactic

/-! `Varset`, a list of distinct variables, and rows of values in its order: where a value of one
row goes in another one, and what is found under a variable afterwards. -/
namespace GStore
open List

/-- All variables enter through `addVar`, which asks `findVar` first. -/
structure Varset (V : Type) where
  vars : List V
  distinct : vars.Nodup

namespace Varset

variable {V : Type}

instance : Membership V (Varset V) := ⟨fun s v => v ∈ s.vars⟩

instance : EmptyCollection (Varset V) := ⟨⟨[], nodup_nil⟩⟩

def size (s : Varset V) : Nat := s.vars.length

variable {v : V}

theorem mem_def {s : Varset V} : v ∈ s ↔ v ∈ s.vars := Iff.rfl

@[simp] theorem not_mem_empty (v : V) : v ∉ (∅ : Varset V) := not_mem_nil

variable [DecidableEq V]

instance (s : Varset V) (v : V) : Decidable (v ∈ s) := inferInstanceAs (Decidable (v ∈ s.vars))

def addVar (s : Varset V) (v : V) : Varset V :=
  if known : v ∈ s.vars then s
  else ⟨s.vars ++ [v], nodup_append.mpr ⟨s.distinct, nodup_singleton v, fun _ ha _ hb same =>
    known (mem_singleton.mp hb ▸ same ▸ ha)⟩⟩

instance : Add (Varset V) := ⟨fun s t => t.vars.foldl addVar s⟩

/-- `addVar` meets no variable twice in the next two. -/
instance : Mul (Varset V) := ⟨fun s t => ⟨s.vars.filter (· ∈ t), s.distinct.filter _⟩⟩

instance : Sub (Varset V) := ⟨fun s t => ⟨s.vars.filter (· ∉ t), s.distinct.filter _⟩⟩

def hasCommonVar (s t : Varset V) : Bool := s.vars.any (· ∈ t)

/-- The positions in `t` of the variables of `s`; the size of `t` stands for `-1`. -/
def mapTo (s t : Varset V) : List Nat := s.vars.map t.vars.idxOf

@[simp] theorem mem_addVar {s : Varset V} {w : V} : w ∈ s.addVar v ↔ w ∈ s ∨ w = v := by
  unfold addVar
  split_ifs with known
  · exact ⟨.inl, fun h => h.elim id fun same => same ▸ known⟩
  · simp [mem_def]

variable {s t : Varset V}

@[simp] theorem mem_add : v ∈ s + t ↔ v ∈ s ∨ v ∈ t := by
  have fold : ∀ (vs : List V) (s : Varset V), v ∈ vs.foldl addVar s ↔ v ∈ s ∨ v ∈ vs := by
    intro vs
    induction vs with
    | nil => simp
    | cons w vs ih =>
      intro s
      rw [foldl_cons, ih, mem_addVar, mem_cons, or_assoc]
  exact fold t.vars s

@[simp] theorem mem_mul : v ∈ s * t ↔ v ∈ s ∧ v ∈ t := by
  change v ∈ s.vars.filter (· ∈ t) ↔ _
  simp [mem_def]

@[simp] theorem mem_sub : v ∈ s - t ↔ v ∈ s ∧ v ∉ t := by
  change v ∈ s.vars.filter (· ∉ t) ↔ _
  simp [mem_def]

theorem add_vars (disjoint : ∀ v ∈ s, v ∉ t) : (s + t).vars = s.vars ++ t.vars := by
  have fold : ∀ (vs : List V) (s : Varset V), vs.Nodup → (∀ v ∈ vs, v ∉ s) →
      (vs.foldl addVar s).vars = s.vars ++ vs := by
    intro vs
    induction vs with
    | nil => simp
    | cons w vs ih =>
      intro s distinct apart
      obtain ⟨fresh, distinct⟩ := nodup_cons.mp distinct
      have added : (s.addVar w).vars = s.vars ++ [w] := by
        have unknown : w ∉ s.vars := apart w mem_cons_self
        rw [addVar, dif_neg unknown]
      rw [foldl_cons, ih _ distinct, added, append_assoc, singleton_append]
      intro v member inside
      rcases mem_addVar.mp inside with inside | same
      · exact apart v (mem_cons_of_mem w member) inside
      · exact fresh (same ▸ member)
  exact fold t.vars s t.distinct fun v member inside => disjoint v inside member

theorem hasCommonVar_iff : s.hasCommonVar t = true ↔ ∃ v, v ∈ s ∧ v ∈ t := by
  simp [hasCommonVar, mem_def]

variable {α : Type}

def column (s : Varset V) (row : List α) (v : V) : Option α := row[s.vars.idxOf v]?

variable {row : List α}

theorem column_isSome (length : row.length = s.size) : (s.column row v).isSome = true ↔ v ∈ s := by
  rw [column, Option.isSome_iff_ne_none, ne_eq, getElem?_eq_none_iff, not_le, length]
  exact idxOf_lt_length_iff

theorem column_none (length : row.length = s.size) (absent : v ∉ s) : s.column row v = none := by
  rw [← Option.not_isSome_iff_eq_none, column_isSome length]
  exact absent

theorem row_ext {new : List α} (length : row.length = s.size) (length' : new.length = s.size)
    (columns : ∀ v ∈ s, s.column row v = s.column new v) : row = new := by
  apply ext_getElem? fun i => ?_
  by_cases inside : i < s.size
  · have position : s.vars.idxOf (s.vars.get ⟨i, inside⟩) = i := s.distinct.idxOf_getElem i inside
    have found := columns (s.vars.get ⟨i, inside⟩) (getElem_mem inside)
    rwa [column, column, position] at found
  · rw [getElem?_eq_none (by omega), getElem?_eq_none (by omega)]

def copyTo : List Nat → List α → List α → List α
  | p :: pos, x :: row, target => copyTo pos row (target.set p x)
  | _, _, target => target

@[simp] theorem copyTo_length (pos : List Nat) (row target : List α) :
    (copyTo pos row target).length = target.length := by
  induction pos generalizing row target with
  | nil => rfl
  | cons p pos ih =>
    cases row with
    | nil => rfl
    | cons x row => rw [copyTo, ih, length_set]

theorem column_copyTo {target : List α} (length : row.length = s.size)
    (length' : target.length = t.size) (there : v ∈ t) :
    t.column (copyTo (s.mapTo t) row target) v =
    if v ∈ s then s.column row v else t.column target v := by
  have copies : ∀ (vs : List V) (row target : List α), vs.Nodup → row.length = vs.length →
    target.length = t.size →
      t.column (copyTo (vs.map t.vars.idxOf) row target) v =
        if v ∈ vs then row[vs.idxOf v]? else t.column target v := by
    intro vs
    induction vs with
    | nil => intros; simp [copyTo]
    | cons w vs ih =>
      intro row target distinct length length'
      obtain ⟨fresh, distinct⟩ := nodup_cons.mp distinct
      cases row with
      | nil => simp at length
      | cons x row =>
        have position : t.vars.idxOf v < target.length := length' ▸ idxOf_lt_length_iff.mpr there
        rw [map_cons, copyTo, ih row _ distinct (by simpa using length) (by rwa [length_set])]
        obtain rfl | here := eq_or_ne v w
        · simp [fresh, column, position]
        · have apart : t.vars.idxOf w ≠ t.vars.idxOf v :=
            fun same => here (((idxOf_inj there).mp same.symm))
          simp [here, column, idxOf_cons_ne _ (Ne.symm here), getElem?_set_ne apart]
  exact copies s.vars row target s.distinct length length'

theorem column_place {blank : α} (length : row.length = s.size) (same : ∀ v, v ∈ t ↔ v ∈ s) :
    t.column (copyTo (s.mapTo t) row (List.replicate t.size blank)) = s.column row := by
  funext v
  by_cases inside : v ∈ s
  · rw [column_copyTo length length_replicate ((same v).mpr inside), if_pos inside]
  · rw [column_none length inside, column_none (by simp) (mt (same v).mp inside)]

omit [DecidableEq V] in
theorem filterMap_zip_length {β : Type} (out : V → Prop) [DecidablePred out] (f : V → α → β)
    {vs : List V}
    (length : row.length = vs.length) :
    ((vs.zip row).filterMap fun p => if out p.1 then none else some (f p.1 p.2)).length =
    (vs.filter (¬ out ·)).length := by
  induction vs generalizing row with
  | nil => simp
  | cons w vs ih =>
    cases row with
    | nil => simp at length
    | cons x row =>
      have rest := ih (by simpa using length)
      by_cases kept : out w <;> simpa [kept] using rest

theorem filterMap_zip_getElem? {β : Type} (out : V → Prop) [DecidablePred out] (f : V → α → β)
    {vs : List V}
    (length : row.length = vs.length) (dropped : ¬ out v) :
    ((vs.zip row).filterMap fun p => if out p.1 then none else some
      (f p.1 p.2))[(vs.filter (¬ out ·)).idxOf v]? =
      (row[vs.idxOf v]?).map (f v) := by
  induction vs generalizing row with
  | nil => simp_all
  | cons w vs ih =>
    cases row with
    | nil => simp at length
    | cons x row =>
      have rest := ih (by simpa using length)
      obtain rfl | same := eq_or_ne w v
      · simp [dropped]
      · by_cases kept : out w
        · simpa [kept, idxOf_cons_ne _ same] using rest
        · simpa [kept, idxOf_cons_ne _ same] using rest

end Varset

end GStore
