import GStore.Query.TempResult
import Mathlib.Data.Multiset.Bind
import Mathlib.Data.Multiset.Filter

/-! What the rows of a `TempResult` stand for: each binds the variables of its columns to terms. The
comparison of rows and the copying of columns are read in these terms. -/
namespace GStore.Results

open Lib List Varset

instance : Ord Cell where
  compare
    | .id m, .id n => Ord.compare m n
    | .str s, .str t => Ord.compare s t
    | .id _, .str _ => .lt
    | .str _, .id _ => .gt

instance : Std.TransOrd Cell where
  eq_swap := by
    rintro (m | s) (n | t)
    · exact @Std.OrientedCmp.eq_swap Nat Ord.compare _ m n
    · rfl
    · rfl
    · exact @Std.OrientedCmp.eq_swap String Ord.compare _ s t
  isLE_trans := by
    rintro (a | a) (b | b) (c | c) <;> intro first second
    · exact @Std.TransCmp.isLE_trans Nat Ord.compare _ a b c first second
    · rfl
    · cases second
    · rfl
    · cases first
    · cases first
    · cases second
    · exact @Std.TransCmp.isLE_trans String Ord.compare _ a b c first second

instance : Std.LawfulEqOrd Cell where
  compare_self := by
    rintro (a | a)
    · exact @Std.ReflCmp.compare_self Nat Ord.compare _ a
    · exact @Std.ReflCmp.compare_self String Ord.compare _ a
  eq_of_compare := by
    rintro (a | a) (b | b) equal
    · exact congrArg Cell.id (@Std.LawfulEqCmp.eq_of_compare Nat Ord.compare _ a b equal)
    · cases equal
    · cases equal
    · exact congrArg Cell.str (@Std.LawfulEqCmp.eq_of_compare String Ord.compare _ a b equal)

def Cell.isId : Cell → Bool
  | .id _ => true
  | .str _ => false

theorem Cell.compare_eq {x y : Cell} (alike : x.isId = y.isId) : x.compare y = Ord.compare x y := by
  cases x <;> cases y
  · rfl
  · cases alike
  · cases alike
  · rfl

theorem isLE_iff_not_lt (x y : List Cell) :
    (Ord.compare x y).isLE = true ↔ Ord.compare y x ≠ .lt := by
  rw [@Std.OrientedCmp.eq_swap (List Cell) Ord.compare _ x y]
  cases Ord.compare y x <;> simp

/-- Key columns with the same representation, at whatever positions. -/
theorem compareRow_cells {xIdCols yIdCols : Nat} {xPos yPos : List Nat}
    (alike : List.Forall₂ (fun p q => p < xIdCols ↔ q < yIdCols) xPos yPos) (x y : ResultPair) :
    compareRow x xIdCols xPos y yIdCols yPos =
      Ord.compare (xPos.map (x.cell xIdCols)) (yPos.map (y.cell yIdCols)) := by
  induction alike with
  | nil => rfl
  | @cons p q xPos yPos same rest ih =>
    have kind : (x.cell xIdCols p).isId = (y.cell yIdCols q).isId := by
      by_cases id : p < xIdCols
      · simp [ResultPair.cell, id, same.mp id, Cell.isId]
      · simp [ResultPair.cell, id, mt same.mpr id, Cell.isId]
    rw [List.map_cons, List.map_cons, List.compare_cons_cons, ← ih, ← Cell.compare_eq kind]
    rfl

theorem compareRow_strictWeak (idCols : Nat) (pos : List Nat) :
    StrictWeak fun x y => compareRow x idCols pos y idCols pos == .lt := by
  have order := compareRow_cells (forall₂_same.mpr fun p (_ : p ∈ pos) => @Iff.rfl (p < idCols))
  refine ⟨fun x y less => ?_, fun x y z first second => ?_⟩
  · rw [order, beq_iff_eq] at less
    rw [order, beq_eq_false_iff_ne]
    exact Std.OrientedCmp.not_lt_of_lt less
  · rw [order, beq_eq_false_iff_ne, ← isLE_iff_not_lt] at *
    exact Std.TransCmp.isLE_trans first second

variable {V : Type} [DecidableEq V]

namespace TempResult

variable (a : TempResult V)

def cellAt (row : ResultPair) (v : V) : Cell := row.cell a.idCols (a.getAllVarset.vars.idxOf v)

def key (vars : Varset V) (row : ResultPair) : List Cell := vars.vars.map (a.cellAt row)

def AlikeOn (a b : TempResult V) (vars : Varset V) : Prop :=
  ∀ v ∈ vars, ∀ row other, (a.cellAt row v).isId = (b.cellAt other v).isId

theorem alikeOn_self (vars : Varset V) : a.AlikeOn a vars := by
  intro v _ row other
  unfold cellAt ResultPair.cell
  split <;> rfl

theorem compareRow_eq {a b : TempResult V} {vars : Varset V} (alike : a.AlikeOn b vars)
    (row other : ResultPair) :
    compareRow row a.idCols (vars.mapTo a.getAllVarset) other b.idCols (vars.mapTo b.getAllVarset) =
      Ord.compare (a.key vars row) (b.key vars other) := by
  have fold : ∀ vs : List V, (∀ v ∈ vs, v ∈ vars) →
      compareRow row a.idCols (vs.map a.getAllVarset.vars.idxOf) other b.idCols
      (vs.map b.getAllVarset.vars.idxOf) =
        Ord.compare (vs.map (a.cellAt row)) (vs.map (b.cellAt other)) := by
    intro vs
    induction vs with
    | nil => intro _; rfl
    | cons v vs ih =>
      intro inside
      have rest := ih fun w member => inside w (mem_cons_of_mem v member)
      simp only [List.map_cons, List.compare_cons_cons, ← rest,
        ← Cell.compare_eq (alike v (inside v List.mem_cons_self) row other)]
      rfl
  exact fold vars.vars fun v member => member

theorem strictWeak (vars : Varset V) :
    StrictWeak fun x y => compareRow x a.idCols (vars.mapTo a.getAllVarset) y a.idCols
    (vars.mapTo a.getAllVarset) == .lt :=
  compareRow_strictWeak a.idCols _

end TempResult

abbrev Solution (V : Type) := V → Option String

def merge (β γ : Solution V) : Solution V := fun v => (β v).or (γ v)

@[ext] structure Reading (V : Type) where
  id : V → Option String
  str : V → Option String

namespace Reading

def solution (ρ : Reading V) : Solution V := fun v => (ρ.id v).or (ρ.str v)

def convert (strs : Varset V) (ρ : Reading V) : Reading V :=
  ⟨fun v => if v ∈ strs then none else ρ.id v,
      fun v => if v ∈ strs then (ρ.id v).or (ρ.str v) else ρ.str v⟩

theorem solution_convert (strs : Varset V) (ρ : Reading V) :
    (ρ.convert strs).solution = ρ.solution := by
  funext v
  unfold solution convert
  by_cases inside : v ∈ strs <;> simp [inside]

end Reading

namespace TempResult

structure Fits (a : TempResult V) (row : ResultPair) : Prop where
  ids : row.id.length = a.idVarset.size
  strs : row.str.length = a.strVarset.size

def Disjoint (a : TempResult V) : Prop := ∀ v ∈ a.idVarset, v ∉ a.strVarset

def reading (term : V → Nat → String) (a : TempResult V) (row : ResultPair) : Reading V :=
  ⟨fun v => (a.idVarset.column row.id v).map (term v), a.strVarset.column row.str⟩

variable {term : V → Nat → String} {a x r : TempResult V} {row other : ResultPair} {v : V}

theorem cellAt_id (disjoint : a.Disjoint) (fits : a.Fits row) (there : v ∈ a.idVarset) :
    ∃ n, a.idVarset.column row.id v = some n ∧ a.cellAt row v = .id n := by
  have position : a.idVarset.vars.idxOf v < row.id.length :=
    fits.ids ▸ idxOf_lt_length_iff.mpr there
  refine ⟨row.id.get ⟨_, position⟩, by simp [column, position], ?_⟩
  have inAll : a.getAllVarset.vars.idxOf v = a.idVarset.vars.idxOf v := by
    rw [getAllVarset, add_vars disjoint, idxOf_append_of_mem there]
  have low : a.idVarset.vars.idxOf v < a.idCols := idxOf_lt_length_iff.mpr there
  rw [cellAt, ResultPair.cell, inAll, if_pos low, getD_eq_getElem?_getD]
  simp [position]

theorem cellAt_str (disjoint : a.Disjoint) (fits : a.Fits row) (there : v ∈ a.strVarset) :
    ∃ s, a.strVarset.column row.str v = some s ∧ a.cellAt row v = .str s := by
  have position : a.strVarset.vars.idxOf v < row.str.length :=
    fits.strs ▸ idxOf_lt_length_iff.mpr there
  have out : v ∉ a.idVarset.vars := fun inside => disjoint v inside there
  refine ⟨row.str.get ⟨_, position⟩, by simp [column, position], ?_⟩
  have inAll : a.getAllVarset.vars.idxOf v = a.idCols + a.strVarset.vars.idxOf v := by
    rw [getAllVarset, add_vars disjoint, idxOf_append_of_notMem out]
    rfl
  rw [cellAt, ResultPair.cell, inAll,
      if_neg (by omega), Nat.add_sub_cancel_left, getD_eq_getElem?_getD]
  simp [position]

theorem placeRow_fits (a r : TempResult V) (row : ResultPair) : r.Fits (a.placeRow r row) :=
  ⟨by simp [placeRow], by simp [placeRow]⟩

/-- Every variable has one column, and every row binds all variables. -/
structure Valid (a : TempResult V) : Prop where
  disjoint : a.Disjoint
  rows : ∀ row ∈ a.result, a.Fits row

variable {strs : Varset V}

theorem mem_unconverted : v ∈ a.idVarset - a.idVarset * strs ↔ v ∈ a.idVarset ∧ v ∉ strs := by
  rw [mem_sub, mem_mul, not_and]
  exact ⟨fun h => ⟨h.1, h.2 h.1⟩, fun h => ⟨h.1, fun _ => h.2⟩⟩

theorem converted_vars : (a.idVarset * strs).vars = a.idVarset.vars.filter
    (¬ · ∈ a.idVarset - a.idVarset * strs) := by
  apply filter_congr
  intro w there
  rw [decide_eq_decide, mem_unconverted, not_and, not_not]
  exact ⟨fun h _ => h, fun h => h there⟩

theorem convertedStr_vars (disjoint : a.Disjoint) :
    (a.strVarset + a.idVarset * strs).vars = a.strVarset.vars ++ (a.idVarset * strs).vars :=
  add_vars fun w there converted => disjoint w (mem_mul.mp converted).1 there

theorem convertId2Str_fits (term : V → Nat → String) (strs : Varset V) (disjoint : a.Disjoint)
    (fits : a.Fits row) :
    ∀ new ∈ ({ a with result := [row] }.convertId2Str term (a.idVarset * strs)).result,
      (a.convertId2Str term (a.idVarset * strs)).Fits new := by
  intro new member
  obtain rfl := mem_singleton.mp member
  refine ⟨by simp [convertId2Str], ?_⟩
  simp only [convertId2Str, length_append, filterMap_zip_length _ _ fits.ids, fits.strs, size,
    convertedStr_vars disjoint, converted_vars]

theorem convertId2Str_valid (valid : a.Valid) :
    (a.convertId2Str term (a.idVarset * strs)).Valid := by
  refine ⟨fun w inId inStr => ?_, fun new member => ?_⟩
  · obtain ⟨there, unconverted⟩ := mem_unconverted.mp inId
    rcases mem_add.mp inStr with old | converted
    · exact valid.disjoint w there old
    · exact unconverted (mem_mul.mp converted).2
  · obtain ⟨row, there, rfl⟩ := mem_map.mp member
    exact convertId2Str_fits term strs valid.disjoint (valid.rows row there) _ List.mem_cons_self

theorem convertId2Str_rows (valid : a.Valid) :
    (a.convertId2Str term (a.idVarset * strs)).result.map
    ((a.convertId2Str term (a.idVarset * strs)).reading term) =
      a.result.map fun row => (a.reading term row).convert strs := by
  have disjoint := valid.disjoint
  rw [convertId2Str, map_map]
  apply map_congr_left
  intro row member
  have fits := valid.rows row member
  have new := convertId2Str_fits term strs disjoint fits _ List.mem_cons_self
  refine Reading.ext (funext fun v => ?_) (funext fun v => ?_)
  · change Option.map _ (column _ _ v) = if v ∈ strs then none else Option.map _
      (a.idVarset.column row.id v)
    by_cases kept : v ∈ a.idVarset - a.idVarset * strs
    · obtain ⟨there, unconverted⟩ := mem_unconverted.mp kept
      rw [column_copyTo fits.ids (by simp) kept, if_pos there, if_neg unconverted]
    · rw [column_none (by simp) kept]
      split
      · rfl
      · rename_i unconverted
        rw [column_none fits.ids fun there => kept (mem_unconverted.mpr ⟨there, unconverted⟩)]
  · change column _ _ v = if v ∈ strs then (Option.map _ (a.idVarset.column row.id v)).or
      (a.strVarset.column row.str v) else a.strVarset.column row.str v
    by_cases old : v ∈ a.strVarset
    · have position : a.strVarset.vars.idxOf v < row.str.length :=
        fits.strs ▸ idxOf_lt_length_iff.mpr old
      rw [column_none fits.ids fun there => disjoint v there old]
      simp only [Option.map_none, Option.none_or, ite_self, column, convertedStr_vars disjoint]
      rw [idxOf_append_of_mem old, getElem?_append_left position]
    · rw [column_none fits.strs old, Option.or_none]
      by_cases converted : v ∈ a.idVarset * strs
      · obtain ⟨there, inside⟩ := mem_mul.mp converted
        have unkept : v ∉ a.idVarset - a.idVarset * strs :=
          fun kept => (mem_unconverted.mp kept).2 inside
        rw [if_pos inside, column, convertedStr_vars disjoint, idxOf_append_of_notMem old,
          ← size, ← fits.strs, getElem?_append_right
          (by omega), Nat.add_sub_cancel_left, converted_vars]
        exact filterMap_zip_getElem? _ term fits.ids unkept
      · have outside : v ∉ a.strVarset + a.idVarset * strs :=
          fun h => (mem_add.mp h).elim old converted
        refine (column_none new.strs outside).trans ?_
        split_ifs with inside
        · rw [column_none fits.ids fun there => converted (mem_mul.mpr ⟨there, inside⟩)]
          rfl
        · rfl

end TempResult

end GStore.Results
