import GStore.Lib.UnionFind

/-! The block ids of the triple patterns of a group: `initPatternBlockid`, and the calls of
`mergePatternBlockID` and `getRootPatternBlockID` that the two branches of `queryEvaluation` make.
-/
namespace GStore
open Lib List

/-- `kleene`: the predicate is a closure `iri*`. -/
structure BlockPattern (V : Type) where
  subjectObjectVarset : List V
  kleene : Bool

namespace BlockPattern

variable {V : Type} {ps : List (BlockPattern V)} {i j : Nat}

def plain (ps : List (BlockPattern V)) (k : Nat) : Bool := ps[k]?.any (!·.kleene)

/-- `st` of the branch without `UNION`s. -/
def runStart (ps : List (BlockPattern V)) : Nat → Nat
  | 0 => 0
  | st + 1 => if plain ps st then runStart ps st else st + 1

theorem lt_of_plain (yes : plain ps i) : i < ps.length := by
  by_contra outside
  simp [plain, getElem?_eq_none (Nat.le_of_not_lt outside)] at yes

theorem runStart_le (below : j ≤ i) : runStart ps i ≤ j ↔ ∀ k, j ≤ k → k < i → plain ps k := by
  induction i generalizing j with
  | zero => simp [runStart]
  | succ i ih =>
    rw [runStart]
    split_ifs with yes
    · have start : runStart ps i ≤ i := (ih le_rfl).mpr fun k h h' => by omega
      by_cases last : j = i + 1
      · exact iff_of_true (by omega) fun k h h' => by omega
      · rw [ih (by omega)]
        refine ⟨fun all k h h' => ?_, fun all k h h' => all k h (by omega)⟩
        by_cases here : k = i
        · exact here ▸ yes
        · exact all k h (by omega)
    · refine ⟨fun late k h h' => by omega, fun all => ?_⟩
      by_contra early
      exact yes (all i (by omega) (by omega))

variable [DecidableEq V] (ps)

def hasCommonVar (i j : Nat) : Bool :=
  ps[i]?.any fun p => ps[j]?.any fun q => p.subjectObjectVarset.any (· ∈ q.subjectObjectVarset)

/-- The pairs for which `mergePatternBlockID` is called, where the pattern `i` is compared from
`start i` on. -/
def mergePairs (start : Nat → Nat) : List (Nat × Nat) :=
  (List.range ps.length).flatMap fun i =>
    ((List.range i).filter fun j => start i ≤ j ∧ plain ps i ∧ plain ps j ∧ hasCommonVar ps i j).map
    (i, ·)

/-- Whatever `getRootPatternBlockID` is called for between the merges, it ends from then on, and
after the last merge it gives two patterns the same id when they are linked. -/
def Blocks (pairs : List (Nat × Nat)) (link : Nat → Nat → Prop) : Prop :=
  ∀ calls, unionsOf calls <+: pairs → (∀ x, (x, none) ∈ calls → x < ps.length) →
    ∃ parents, unionCalls ps.length (List.range ps.length) calls = some parents ∧
      (∀ x < ps.length, (findRoot ps.length parents x).isSome) ∧
      (unionsOf calls = pairs → ∀ a < ps.length, ∀ b < ps.length,
        ((findRoot ps.length parents a).map Prod.fst = (findRoot ps.length parents b).map Prod.fst ↔
          Relation.EqvGen link a b))

def Neighbours (i j : Nat) : Prop := plain ps i ∧ plain ps j ∧ hasCommonVar ps i j

/-- Nor is there a closure between the two. -/
def RunNeighbours (i j : Nat) : Prop :=
  (∀ k, min i j ≤ k → k ≤ max i j → plain ps k) ∧ hasCommonVar ps i j

variable {ps}

theorem hasCommonVar_symm (common : hasCommonVar ps i j) : hasCommonVar ps j i := by
  simp only [hasCommonVar, Option.any_eq_true, any_eq_true, decide_eq_true_eq] at *
  obtain ⟨p, atI, q, atJ, x, inP, inQ⟩ := common
  exact ⟨q, atJ, p, atI, x, inQ, inP⟩

theorem mem_mergePairs {start : Nat → Nat} : (i, j) ∈ mergePairs ps start ↔
    j < i ∧ start i ≤ j ∧ plain ps i ∧ plain ps j ∧ hasCommonVar ps i j := by
  simp only [mergePairs, mem_flatMap, mem_range, mem_map, mem_filter, Prod.mk.injEq,
      decide_eq_true_eq]
  constructor
  · rintro ⟨_, -, _, rest, rfl, rfl⟩
    exact rest
  · intro rest
    exact ⟨i, lt_of_plain rest.2.2.1, j, rest, rfl, rfl⟩

theorem blocks_of_link {start : Nat → Nat} {link : Nat → Nat → Prop}
    (symm : ∀ i j, link i j → link j i)
    (pairs : ∀ i j, j < i → ((i, j) ∈ mergePairs ps start ↔ link i j)) :
    Blocks ps (mergePairs ps start) link := by
  intro calls merges roots
  have inside : ∀ call ∈ calls, call.1 < ps.length ∧ ∀ y ∈ call.2, y < ps.length := by
    rintro ⟨x, y⟩ there
    cases y with
    | none => exact ⟨roots x there, by simp⟩
    | some y =>
      have pair : (x, y) ∈ mergePairs ps start :=
        merges.subset (mem_filterMap.mpr ⟨(x, some y), there, rfl⟩)
      obtain ⟨-, -, here, there, -⟩ := mem_mergePairs.mp pair
      exact ⟨lt_of_plain here, by simpa using lt_of_plain there⟩
  obtain ⟨parents, root, depth, done, forest, classes⟩ := unionCalls_range inside
  refine ⟨parents, done, fun x below => ?_, fun all a belowA b belowB => ?_⟩
  · rw [← Option.isSome_map, forest.findRoot_fst below, Option.isSome_some]
  · rw [forest.findRoot_fst belowA, forest.findRoot_fst belowB, Option.some_inj, classes, all]
    constructor
    · exact fun joined => joined.mono fun i j pair => (pairs i j (mem_mergePairs.mp pair).1).mp pair
    · have agree : ∀ i j, link i j → root i = root j := by
        intro i j linked
        rcases Nat.lt_trichotomy i j with less | rfl | more
        · exact (classes _ _).mpr
            (.symm _ _ (.rel _ _ (all ▸ (pairs j i less).mpr (symm i j linked))))
        · rfl
        · exact (classes _ _).mpr (.rel _ _ (all ▸ (pairs i j more).mpr linked))
      exact fun linked => all ▸ (classes a b).mp (eqvGen_agree root agree linked)

theorem blocks_exact (ps : List (BlockPattern V)) :
    Blocks ps (mergePairs ps fun _ => 0) (Neighbours ps) ∧ Blocks ps (mergePairs ps (runStart ps))
    (RunNeighbours ps) := by
  constructor
  · refine blocks_of_link (fun i j ⟨here, there, common⟩ => ⟨there, here, hasCommonVar_symm common⟩)
      fun i j below => ?_
    rw [mem_mergePairs, Neighbours]
    simp [below]
  · refine blocks_of_link (fun i j ⟨run, common⟩ => ?_) fun i j below => ?_
    · exact ⟨by rwa [min_comm, max_comm], hasCommonVar_symm common⟩
    · rw [mem_mergePairs, RunNeighbours, runStart_le below.le, min_eq_right below.le,
          max_eq_left below.le]
      constructor
      · rintro ⟨-, run, here, -, common⟩
        refine ⟨fun k h h' => ?_, common⟩
        rcases Nat.eq_or_lt_of_le h' with rfl | less
        · exact here
        · exact run k h less
      · rintro ⟨run, common⟩
        exact ⟨below, fun k h h' => run k h h'.le, run i below.le le_rfl, run j le_rfl below.le,
            common⟩

theorem closure_apart : hasCommonVar
    [(⟨['x', 'y'], false⟩ : BlockPattern Char), ⟨['y', 'z'], true⟩] 0 1 ∧
    mergePairs [(⟨['x', 'y'], false⟩ : BlockPattern Char), ⟨['y', 'z'], true⟩] (fun _ => 0) = [] ∧
    (findRoot 2 (List.range 2) 0).map Prod.fst ≠ (findRoot 2 (List.range 2) 1).map Prod.fst := by
  decide

end BlockPattern

end GStore
