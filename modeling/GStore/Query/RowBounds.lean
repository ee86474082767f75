import GStore.Lib.Bounds
import GStore.Query.Solutions

/-! `TempResult::sort`, `findLeftBounder` and `findRightBounder`, for any key columns. The code
keeps row numbers and midpoints in an `int`; a table is taken to have fewer than `2 ^ 30` rows, so
that the sum of two of them is one. -/
namespace GStore.Results.TempResult

open Lib

variable {V : Type}

section

variable (a : TempResult V) (thisPos : List Nat) (x : ResultPair) (xIdCols : Nat) (xPos : List Nat)

def compareAt (i : Nat) : Ordering :=
  compareRow (a.result.getD i default) a.idCols thisPos x xIdCols xPos

def findLeftBounder : Option Nat :=
  bounder leftBound (a.compareAt thisPos x xIdCols xPos) a.result.length

def findRightBounder : Option Nat :=
  bounder rightBound (a.compareAt thisPos x xIdCols xPos) a.result.length

def Sorted : Prop := a.result.Pairwise fun row next =>
    (compareRow row a.idCols thisPos next a.idCols thisPos).isLE

/-- The row at the index has the keys of `x`, a row of a table with `xIdCols` id columns. -/
def HasKeys (i : Nat) : Prop :=
  ∃ row, a.result[i]? = some row ∧ thisPos.map (row.cell a.idCols) = xPos.map (x.cell xIdCols)

end

variable {a : TempResult V} {thisPos xPos : List Nat} {x : ResultPair} {xIdCols : Nat}

theorem compareRow_self_cells (pos : List Nat) (row next : ResultPair) :
    compareRow row a.idCols pos next a.idCols pos = Ord.compare (pos.map (row.cell a.idCols))
    (pos.map (next.cell a.idCols)) :=
  compareRow_cells (List.forall₂_same.mpr fun _ _ => Iff.rfl) row next

theorem sort_sorted (a : TempResult V) (pos : List Nat) : (a.sort pos).Sorted pos := by
  refine ((compareRow_strictWeak a.idCols pos).quickSortList_sorted a.result).imp
    fun {row next} order => ?_
  rw [beq_eq_false_iff_ne, compareRow_self_cells, ← isLE_iff_not_lt] at order
  exact (congrArg (·.isLE) (compareRow_self_cells pos row next)).trans order

theorem getD_isLE (sorted : a.Sorted thisPos) {i j : Nat} (before : i ≤ j)
    (bound : j < a.result.length) :
    (Ord.compare (thisPos.map ((a.result.getD i default).cell a.idCols))
      (thisPos.map ((a.result.getD j default).cell a.idCols))).isLE := by
  rcases Nat.eq_or_lt_of_le before with rfl | less
  · exact Std.ReflCmp.isLE_rfl
  · rw [← compareRow_self_cells, List.getD_eq_getElem _ _ (less.trans bound),
        List.getD_eq_getElem _ _ bound]
    exact List.pairwise_iff_getElem.mp sorted i j (less.trans bound) bound less

theorem compareAt_ascends (sorted : a.Sorted thisPos)
    (alike : List.Forall₂ (fun p q => p < a.idCols ↔ q < xIdCols) thisPos xPos) :
    Ascends (a.compareAt thisPos x xIdCols xPos) a.result.length := by
  refine ⟨fun i j before bound less => ?_, fun i j before bound more => ?_⟩
  · rw [compareAt, compareRow_cells alike] at *
    exact Std.TransCmp.lt_of_isLE_of_lt (getD_isLE sorted before bound) less
  · rw [compareAt, compareRow_cells alike, Std.OrientedCmp.gt_iff_lt] at *
    exact Std.TransCmp.lt_of_lt_of_isLE more (getD_isLE sorted before bound)

theorem hasKeys_iff (alike : List.Forall₂ (fun p q => p < a.idCols ↔ q < xIdCols) thisPos xPos) :
    a.HasKeys thisPos x xIdCols xPos = fun i => i < a.result.length ∧
    a.compareAt thisPos x xIdCols xPos i = .eq := by
  funext i
  rw [compareAt, compareRow_cells alike, Std.LawfulEqCmp.compare_eq_iff_eq, HasKeys]
  by_cases bound : i < a.result.length
  · simp [bound]
  · simp [bound]

theorem sort_fuel (a : TempResult V) (pos : List Nat) {fuel : Nat}
    (enough : a.result.length ≤ fuel) :
    (List.range a.result.length).map
    (quickSort (fun x y => compareRow x a.idCols pos y a.idCols pos == .lt) fuel
      (fun i => a.result.getD i default) 0 (a.result.length - 1)) = (a.sort pos).result := by
  rcases Nat.eq_zero_or_pos a.result.length with none | some
  · simp [sort, quickSortList, none]
  · rw [(compareRow_strictWeak a.idCols pos).quickSort_fuel (by omega) enough]
    rfl

theorem rows_sorted_bounded (a : TempResult V) (pos : List Nat) :
    (∀ fuel, a.result.length ≤ fuel → (List.range a.result.length).map
      (quickSort (fun x y => compareRow x a.idCols pos y a.idCols pos == .lt) fuel
        (fun i => a.result.getD i default) 0
        (a.result.length - 1)) = (a.sort pos).result) ∧
    (a.sort pos).result.Perm a.result ∧ (a.sort pos).Sorted pos ∧ (a.Sorted pos → ∀ x xIdCols xPos,
      List.Forall₂ (fun p q => p < a.idCols ↔ q < xIdCols) pos xPos →
        First (a.HasKeys pos x xIdCols xPos) (a.findLeftBounder pos x xIdCols xPos) ∧
        Last (a.HasKeys pos x xIdCols xPos) (a.findRightBounder pos x xIdCols xPos)) := by
  refine ⟨fun fuel enough => sort_fuel a pos enough,
      (compareRow_strictWeak a.idCols pos).quickSortList_perm a.result,
    sort_sorted a pos, ?_⟩
  intro sorted x xIdCols xPos alike
  rw [hasKeys_iff alike]
  exact ⟨bounder_leftBound (compareAt_ascends sorted alike),
      bounder_rightBound (compareAt_ascends sorted alike)⟩

def twiceTwo : TempResult Nat := ⟨⟨[0], by decide⟩, ∅, [⟨[1], []⟩, ⟨[2], []⟩, ⟨[2], []⟩]⟩

theorem rows_bounded_twice : twiceTwo.findLeftBounder [0] ⟨[2], []⟩ 1 [0] = some 1 ∧
    twiceTwo.findRightBounder [0] ⟨[2], []⟩ 1 [0] = some 2 ∧
      First (twiceTwo.HasKeys [0] ⟨[2], []⟩ 1 [0]) (some 1) ∧
      Last (twiceTwo.HasKeys [0] ⟨[2], []⟩ 1 [0]) (some 2) :=
  ⟨by decide, by decide,
    (rows_sorted_bounded twiceTwo [0]).2.2.2
    (by unfold Sorted; decide) ⟨[2], []⟩ 1 [0] (.cons (by decide) .nil)⟩

end GStore.Results.TempResult
