import Mathlib.Tactic
import Mathlib.Logic.Relation

/-! Disjoint sets as a list of parents, with path compression and without ranks: the root of each
element, and the sets after a list of unions. -/
namespace GStore.Lib
open List

def parentOf (ps : List Nat) (x : Nat) : Nat := ps.getD x x

/-- The root of `x`, and the parents with the path to it compressed. `none` when `fuel` is used up.
-/
def findRoot : Nat → List Nat → Nat → Option (Nat × List Nat)
  | 0, _, _ => none
  | fuel + 1, ps, x =>
    if parentOf ps x = x then some (x, ps)
    else (findRoot fuel ps (parentOf ps x)).map fun (r, qs) => (r, qs.set x r)

def union (fuel : Nat) (ps : List Nat) (x y : Nat) : Option (List Nat) :=
  (findRoot fuel ps x).bind fun (px, qs) => (findRoot fuel qs y).map fun (py, rs) => rs.set px py

def unionAll (fuel : Nat) : List Nat → List (Nat × Nat) → Option (List Nat)
  | ps, [] => some ps
  | ps, (x, y) :: pairs => (union fuel ps x y).bind fun qs => unionAll fuel qs pairs

def roots (n : Nat) (ps : List Nat) : Finset Nat :=
  (Finset.range n).filter fun x => parentOf ps x = x

/-- `ps` is a forest of `n` elements; `root` is the root of each and `depth` bounds its path to it.
-/
structure Forest (n : Nat) (ps : List Nat) (root depth : Nat → Nat) : Prop where
  size : ps.length = n
  root_inside : ∀ x < n, root x < n
  root_isRoot : ∀ x, parentOf ps (root x) = root x
  root_self : ∀ x, parentOf ps x = x → root x = x
  root_parent : ∀ x, root (parentOf ps x) = root x
  flat : ∀ x, parentOf ps x = x → depth x = 0
  shallower : ∀ x, parentOf ps x ≠ x → depth (parentOf ps x) < depth x
  shallow : ∀ x, depth x + (roots n ps).card ≤ n

variable {n fuel : Nat} {ps qs : List Nat} {root depth : Nat → Nat} {x y : Nat}

theorem parentOf_set (inside : x < ps.length) (r y : Nat) :
    parentOf (ps.set x r) y = if y = x then r else parentOf ps y := by
  unfold parentOf
  rw [getD_eq_getElem?_getD, getD_eq_getElem?_getD, getElem?_set]
  obtain rfl | same := eq_or_ne y x
  · rw [if_pos rfl, if_pos inside, if_pos rfl]
    rfl
  · rw [if_neg (Ne.symm same), if_neg same]

theorem parentOf_outside (outside : ps.length ≤ x) : parentOf ps x = x := by
  rw [parentOf, getD_eq_getElem?_getD, getElem?_eq_none outside]
  rfl

theorem lt_length_of_parentOf_ne (child : parentOf ps x ≠ x) : x < ps.length := by
  by_contra outside
  exact child (parentOf_outside (by omega))

theorem forest_range (n : Nat) : Forest n (List.range n) id fun _ => 0 := by
  have self : ∀ x, parentOf (List.range n) x = x := by
    intro x
    by_cases inside : x < n
    · simp [parentOf, getD_eq_getElem?_getD, getElem?_range inside]
    · exact parentOf_outside (by simpa using inside)
  refine ⟨length_range, fun _ inside => inside, fun x => self x, fun _ _ => rfl, fun x => self x,
      fun _ _ => rfl,
    fun x child => absurd (self x) child, fun x => ?_⟩
  rw [Nat.zero_add]
  exact (Finset.card_filter_le _ _).trans (Finset.card_range n).le

namespace Forest

variable (forest : Forest n ps root depth)
include forest

theorem depth_lt (inside : x < n) : depth x < n := by
  have hasRoot : root x ∈ roots n ps :=
    Finset.mem_filter.mpr ⟨Finset.mem_range.mpr (forest.root_inside x inside), forest.root_isRoot x⟩
  have positive := Finset.card_pos.mpr ⟨_, hasRoot⟩
  have bound := forest.shallow x
  omega

theorem compress (child : parentOf ps x ≠ x) : Forest n (ps.set x (root x)) root depth := by
  have inside := lt_length_of_parentOf_ne child
  have parents := parentOf_set inside (root x)
  have notRoot : root x ≠ x := fun same => child (by rw [← same]; exact forest.root_isRoot x)
  have sameRoots : ∀ y, parentOf (ps.set x (root x)) y = y ↔ parentOf ps y = y := by
    intro y
    rw [parents]
    split_ifs with same
    · subst same
      exact iff_of_false notRoot child
    · exact Iff.rfl
  have sameSet : roots n (ps.set x (root x)) = roots n ps :=
    Finset.filter_congr fun y _ => sameRoots y
  refine ⟨by rw [length_set, forest.size], forest.root_inside, ?_, ?_, ?_, ?_, ?_, ?_⟩
  · intro y
    rw [parents, forest.root_isRoot y, ite_eq_right_iff]
    intro same
    exact absurd (by rw [← same]; exact forest.root_isRoot y) child
  · exact fun y isRoot => forest.root_self y ((sameRoots y).mp isRoot)
  · intro y
    rw [parents]
    split_ifs with same
    · rw [same]
      exact forest.root_self _ (forest.root_isRoot x)
    · exact forest.root_parent y
  · exact fun y isRoot => forest.flat y ((sameRoots y).mp isRoot)
  · intro y isChild
    have childBefore : parentOf ps y ≠ y := fun isRoot => isChild ((sameRoots y).mpr isRoot)
    have above := forest.shallower y childBefore
    rw [parents]
    split_ifs with same
    · rw [forest.flat _ (forest.root_isRoot x)]
      omega
    · exact above
  · intro y
    rw [sameSet]
    exact forest.shallow y

theorem findRoot (enough : depth x < fuel) :
    ∃ qs, Lib.findRoot fuel ps x = some (root x, qs) ∧ Forest n qs root depth ∧
    (∀ y, parentOf ps y ≠ y → parentOf qs y ≠ y) := by
  induction fuel generalizing x with
  | zero => omega
  | succ fuel ih =>
    unfold Lib.findRoot
    by_cases isRoot : parentOf ps x = x
    · rw [if_pos isRoot]
      exact ⟨ps, by rw [forest.root_self x isRoot], forest, fun _ child => child⟩
    · have above := forest.shallower x isRoot
      have enough' : depth (parentOf ps x) < fuel := by omega
      obtain ⟨qs, found, kept, children⟩ := ih enough'
      rw [if_neg isRoot, found, forest.root_parent x]
      refine ⟨qs.set x (root x), rfl, kept.compress (children x isRoot), ?_⟩
      intro y child
      rw [parentOf_set (lt_length_of_parentOf_ne (children x isRoot))]
      split_ifs with same
      · subst same
        exact fun same => isRoot (by rw [← same]; exact forest.root_isRoot y)
      · exact children y child

theorem findRoot_fst (inside : x < n) : (Lib.findRoot n ps x).map Prod.fst = some (root x) := by
  obtain ⟨_, found, -⟩ := forest.findRoot (forest.depth_lt inside)
  rw [found, Option.map_some]

theorem link (insideX : x < n) (insideY : y < n) :
    ∃ depth', Forest n (ps.set (root x) (root y))
    (fun z => if root z = root x then root y else root z) depth' := by
  have inside : root x < ps.length := by rw [forest.size]; exact forest.root_inside x insideX
  have parents := parentOf_set inside (root y)
  have rootRoot : ∀ z, root (root z) = root z := fun z => forest.root_self _ (forest.root_isRoot z)
  by_cases same : root x = root y
  · have unchanged : ps.set (root x) (root y) = ps := by
      have self := forest.root_isRoot x
      rw [parentOf, getD_eq_getElem?_getD, getElem?_eq_getElem inside, Option.getD_some] at self
      rw [← same]
      nth_rewrite 2 [← self]
      exact set_getElem_self inside
    have sameRoot : (fun z => if root z = root x then root y else root z) = root := by
      funext z
      split
      · rename_i equal
        rw [equal, same]
      · rfl
    exact ⟨depth, by rwa [unchanged, sameRoot]⟩
  · refine ⟨fun z => if root z = root x then depth z + 1 else depth z, ?_⟩
    have removed : roots n (ps.set (root x) (root y)) = (roots n ps).erase (root x) := by
      ext z
      simp only [roots, Finset.mem_filter, Finset.mem_erase, parents]
      by_cases isX : z = root x
      · simp only [isX, if_true, ne_eq, not_true_eq_false, false_and, iff_false, not_and]
        exact fun _ equal => same equal.symm
      · simp [isX, ne_eq, not_false_eq_true, true_and]
    have member : root x ∈ roots n ps :=
      Finset.mem_filter.mpr ⟨Finset.mem_range.mpr (forest.root_inside x insideX),
        forest.root_isRoot x⟩
    have fewer : (roots n (ps.set (root x) (root y))).card + 1 = (roots n ps).card := by
      rw [removed]
      exact Finset.card_erase_add_one member
    refine ⟨by rw [length_set, forest.size], ?_, ?_, ?_, ?_, ?_, ?_, ?_⟩
    · intro z insideZ
      split
      · exact forest.root_inside y insideY
      · exact forest.root_inside z insideZ
    · intro z
      rw [parents]
      split
      · rw [if_neg (Ne.symm same), forest.root_isRoot y]
      · exact forest.root_isRoot z
    · intro z
      rw [parents]
      split
      · rename_i isX
        rw [isX, rootRoot, if_pos rfl]
        exact id
      · rename_i other
        intro isRoot
        rw [forest.root_self z isRoot, if_neg other]
    · intro z
      rw [parents]
      split
      · rename_i isX
        rw [isX, rootRoot, rootRoot, if_neg (Ne.symm same), if_pos rfl]
      · rw [forest.root_parent z]
    · intro z
      rw [parents]
      split
      · rename_i isX
        intro equal
        exact absurd (equal.trans isX).symm same
      · rename_i other
        intro isRoot
        rw [forest.root_self z isRoot, if_neg other]
        exact forest.flat z isRoot
    · intro z
      rw [parents]
      split
      · rename_i isX
        intro _
        rw [isX, rootRoot, rootRoot, if_neg (Ne.symm same), if_pos rfl,
            forest.flat _ (forest.root_isRoot y)]
        omega
      · intro child
        rw [forest.root_parent z]
        have above := forest.shallower z child
        split <;> omega
    · intro z
      have bound := forest.shallow z
      split <;> omega

theorem union (insideX : x < n) (insideY : y < n) : ∃ qs depth', Lib.union n ps x y = some qs ∧
      Forest n qs (fun z => if root z = root x then root y else root z) depth' := by
  obtain ⟨qs, foundX, kept, _⟩ := forest.findRoot (forest.depth_lt insideX)
  obtain ⟨rs, foundY, final, _⟩ := kept.findRoot (kept.depth_lt insideY)
  obtain ⟨depth', linked⟩ := final.link insideX insideY
  exact ⟨_, depth', by simp [Lib.union, foundX, Option.bind_some, foundY, Option.map_some], linked⟩

end Forest

def Joined (pairs : List (Nat × Nat)) : Nat → Nat → Prop :=
  Relation.EqvGen fun x y => (x, y) ∈ pairs

variable {R : Nat → Nat → Prop}

theorem eqvGen_agree {β : Type} (f : Nat → β) {a b : Nat} (agree : ∀ a b, R a b → f a = f b)
    (joined : Relation.EqvGen R a b) : f a = f b :=
  (eq_equivalence.comap f).eqvGen_iff.mp (joined.mono agree)

theorem joined_cons (classes : ∀ a b, root a = root b ↔ Relation.EqvGen R a b) (x y a b : Nat) :
    (if root a = root x then root y else root a) = (if root b = root x then root y else root b) ↔
      Relation.EqvGen (fun a b => R a b ∨ (a = x ∧ b = y)) a b := by
  have lift : ∀ {a b}, root a = root b →
      Relation.EqvGen (fun a b => R a b ∨ (a = x ∧ b = y)) a b := by
    intro a b same
    exact ((classes a b).mp same).mono fun _ _ => Or.inl
  have new : Relation.EqvGen (fun a b => R a b ∨ (a = x ∧ b = y)) x y :=
    .rel _ _ (Or.inr ⟨rfl, rfl⟩)
  constructor
  · intro same
    by_cases ax : root a = root x
    · by_cases bx : root b = root x
      · exact lift (ax.trans bx.symm)
      · rw [if_pos ax, if_neg bx] at same
        exact ((lift ax).trans _ _ _ new).trans _ _ _ (lift same)
    · by_cases bx : root b = root x
      · rw [if_neg ax, if_pos bx] at same
        exact (lift same).trans _ _ _ ((lift bx).trans _ _ _ new).symm
      · rw [if_neg ax, if_neg bx] at same
        exact lift same
  · refine eqvGen_agree (fun a => if root a = root x then root y else root a) fun a b related => ?_
    rcases related with related | ⟨rfl, rfl⟩
    · rw [(classes a b).mpr (.rel _ _ related)]
    · rw [if_pos rfl]
      split <;> rfl

variable {pairs : List (Nat × Nat)}

/-- Unions, and roots looked up between them. -/
def unionCalls (fuel : Nat) : List Nat → List (Nat × Option Nat) → Option (List Nat)
  | ps, [] => some ps
  | ps, (x, some y) :: calls => (union fuel ps x y).bind fun qs => unionCalls fuel qs calls
  | ps, (x, none) :: calls => (findRoot fuel ps x).bind fun found => unionCalls fuel found.2 calls

def unionsOf (calls : List (Nat × Option Nat)) : List (Nat × Nat) :=
  calls.filterMap fun (x, y) => y.map (x, ·)

variable {calls : List (Nat × Option Nat)}

theorem Forest.unionCalls (forest : Forest n ps root depth)
    (classes : ∀ a b, root a = root b ↔ Relation.EqvGen R a b)
    (inside : ∀ call ∈ calls, call.1 < n ∧ ∀ y ∈ call.2, y < n) :
    ∃ qs root' depth', Lib.unionCalls n ps calls = some qs ∧ Forest n qs root' depth' ∧
      ∀ a b, root' a = root' b ↔
      Relation.EqvGen (fun a b => R a b ∨ (a, b) ∈ unionsOf calls) a b := by
  induction calls generalizing ps root depth R with
  | nil => exact ⟨ps, root, depth, rfl, forest, by simpa [unionsOf] using classes⟩
  | cons call calls ih =>
    obtain ⟨x, y⟩ := call
    obtain ⟨insideX, insideY⟩ := inside (x, y) mem_cons_self
    have later : ∀ call ∈ calls, call.1 < n ∧ ∀ y ∈ call.2, y < n :=
      fun call h => inside call (mem_cons_of_mem _ h)
    cases y with
    | none =>
      obtain ⟨qs, found, kept, -⟩ := forest.findRoot (forest.depth_lt insideX)
      obtain ⟨rs, root', depth', rest, final, all⟩ := ih kept classes later
      exact ⟨rs, root', depth', by rw [Lib.unionCalls, found, Option.bind_some, rest], final, all⟩
    | some y =>
      obtain ⟨qs, depth', joined, linked⟩ := forest.union insideX (insideY y rfl)
      obtain ⟨rs, root', depth'', rest, final, all⟩ := ih linked (joined_cons classes x y) later
      refine ⟨rs, root', depth'', by rw [Lib.unionCalls, joined, Option.bind_some, rest], final, fun a b => ?_⟩
      rw [all]
      simp [unionsOf, or_assoc]

theorem unionCalls_range (inside : ∀ call ∈ calls, call.1 < n ∧ ∀ y ∈ call.2, y < n) :
    ∃ qs root depth, unionCalls n (List.range n) calls = some qs ∧ Forest n qs root depth ∧
      ∀ a b, root a = root b ↔ Joined (unionsOf calls) a b := by
  have alone : ∀ a b : Nat, id a = id b ↔ Relation.EqvGen (fun _ _ => False) a b := by
    intro a b
    constructor
    · rintro rfl
      exact .refl _
    · exact eqvGen_agree id fun _ _ => False.elim
  obtain ⟨qs, root, depth, done, forest, classes⟩ := (forest_range n).unionCalls alone inside
  exact ⟨qs, root, depth, done, forest, by simpa [Joined] using classes⟩

theorem unionAll_eq (pairs : List (Nat × Nat)) :
    unionAll fuel ps pairs = unionCalls fuel ps (pairs.map fun pair => (pair.1, some pair.2)) := by
  induction pairs generalizing ps with
  | nil => rfl
  | cons pair pairs ih => simp only [unionAll, map_cons, unionCalls, ih]

theorem unionAll_range (inside : ∀ pair ∈ pairs, pair.1 < n ∧ pair.2 < n) :
    ∃ qs root depth, unionAll n (List.range n) pairs = some qs ∧ Forest n qs root depth ∧
      ∀ a b, root a = root b ↔ Joined pairs a b := by
  have unions : unionsOf (pairs.map fun pair => (pair.1, some pair.2)) = pairs := by
    simp [unionsOf, filterMap_map]
  have calls := @unionCalls_range n (pairs.map fun pair => (pair.1, some pair.2)) fun call h => by
    obtain ⟨pair, there, rfl⟩ := mem_map.mp h
    simpa using inside pair there
  rwa [unions, ← unionAll_eq] at calls

end GStore.Lib
