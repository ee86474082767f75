import GStore.Lib.Triangles
import GStore.Query.LabelledGraph

/-! `triangleCounting`: for every vertex the walks of two steps that end in its in-neighbours
(neighbours, if the mode is undirected), where the neighbourhoods of the undirected mode are sets
and the out-lists of the directed mode are not. -/
namespace GStore
open Lib List

variable (csr : CSR × CSR)

def inSet (directed : Bool) (predSet : List Nat) (vid : Int) : Finset Int :=
  (predSet.flatMap fun pred => csr.2.verts vid pred ++
      if directed then [] else csr.1.verts vid pred).toFinset

def nbrs (predSet : List Nat) (outNode : Int) : Finset Int :=
  (predSet.flatMap fun pred => csr.1.verts outNode pred ++ csr.2.verts outNode pred).toFinset

def numTriangleOf (directed : Bool) (predSet : List Nat) (vid : Int) : Nat :=
  if directed then
    ((predSet.flatMap (csr.1.verts vid)).map fun outNode =>
      (predSet.flatMap (csr.1.verts outNode)).countP (· ∈ inSet csr directed predSet vid)).sum
  else
    ∑ outNode ∈ inSet csr directed predSet vid,
      ((nbrs csr predSet outNode).filter (· ∈ inSet csr directed predSet vid)).card

def triangleCounting (directed : Bool) (predSet : List Nat) : Int :=
  if predSet = [] then -1
  else
    let numTriangle := ((List.range csr.2.n).map fun vid : Nat =>
        numTriangleOf csr directed predSet vid).sum
    let dupNum := if directed then 3 else 6
    if numTriangle % dupNum ≠ 0 then -1 else ((numTriangle / dupNum : Nat) : Int)

section Count

open Classical

variable {G : LabelledGraph} {csr : CSR × CSR} {predSet : List Nat}

/-- The number of triangles: directed cycles of three vertices up to rotation, or sets of three
adjacent vertices. -/
noncomputable def LabelledGraph.triangleNumber (G : LabelledGraph) (directed : Bool)
    (predSet : List Nat) : Nat :=
  if directed then (directedCycles G.vertices (G.Step true predSet)).card
  else (triangles G.vertices (G.Step false predSet)).card

noncomputable def LabelledGraph.labelNumber (G : LabelledGraph) (predSet : List Nat) (v w : Int) :
    Nat :=
  predSet.countP fun p => G.edge p v w

/-- No allowed edge is a loop, and in directed mode every edge on a directed cycle of three vertices
has one allowed label. -/
def LabelledGraph.SingleEdges (G : LabelledGraph) (directed : Bool) (predSet : List Nat) : Prop :=
  (∀ v, ¬ G.Step directed predSet v v) ∧ (directed = true → ∀ a b c, a ≠ b → b ≠ c → c ≠ a →
    G.Step true predSet a b → G.Step true predSet b c → G.Step true predSet c a →
    G.labelNumber predSet a b = 1)

theorem labelNumber_pos {v w : Int} : 1 ≤ G.labelNumber predSet v w ↔ G.Step true predSet v w := by
  rw [LabelledGraph.labelNumber, Nat.one_le_iff_ne_zero, ← Nat.pos_iff_ne_zero, countP_pos_iff,
      step_directed]
  simp

theorem sum_map_count {V : Finset Int} {l : List Int} (inside : ∀ x ∈ l, x ∈ V) (f : Int → Nat) :
    (l.map f).sum = ∑ x ∈ V, l.count x * f x := by
  rw [Finset.sum_list_map_count]
  refine Finset.sum_subset (fun x listed => inside x (mem_toFinset.mp listed)) fun x _ missing => ?_
  rw [count_eq_zero_of_not_mem (mt mem_toFinset.mpr missing), zero_smul]

theorem countP_count {V : Finset Int} {l : List Int} (inside : ∀ x ∈ l, x ∈ V) (P : Int → Prop)
    [DecidablePred P] :
    l.countP (fun x => P x) = ∑ x ∈ V, if P x then l.count x else 0 := by
  have ones : l.countP (fun x => P x) = (l.map fun x => if P x then 1 else 0).sum := by
    induction l with
    | nil => rfl
    | cons x l ih =>
      rw [countP_cons, ih fun y listed => inside y (mem_cons_of_mem x listed), map_cons, sum_cons,
          Nat.add_comm]
      simp
  rw [ones, sum_map_count inside]
  refine Finset.sum_congr rfl fun x _ => ?_
  split <;> simp

section

variable (stores : Stores csr G)
include stores

theorem count_verts {v : Int} (vertex : v ∈ G.vertices) (w : Int) :
    (predSet.flatMap (csr.1.verts v)).count w = G.labelNumber predSet v w := by
  rw [LabelledGraph.labelNumber]
  induction predSet with
  | nil => rfl
  | cons p predSet ih =>
    rw [flatMap_cons, count_append, ih, countP_cons, Nat.add_comm]
    congr 1
    by_cases joined : G.edge p v w
    · simp [count_eq_one_of_mem (stores.outOnce p v vertex) ((stores.out vertex).mpr joined),
          joined]
    · simp [count_eq_zero_of_not_mem (mt (stores.out vertex).mp joined), joined]

theorem mem_inSet {directed : Bool} {v w : Int} (vertex : v ∈ G.vertices) :
    w ∈ inSet csr directed predSet v ↔ G.Step directed predSet w v := by
  rw [inSet, mem_toFinset, ← stores.mem_directions_back vertex, directions]
  cases directed with
  | true => simp
  | false =>
    simp only [Bool.false_eq_true, if_false, mem_flatMap, mem_append, and_or_left, exists_or]
    exact or_comm

theorem mem_nbrs {v w : Int} (vertex : v ∈ G.vertices) :
    w ∈ nbrs csr predSet v ↔ G.Step false predSet v w := by
  rw [nbrs, mem_toFinset, ← stores.mem_directions vertex, directions]
  simp only [Bool.false_eq_true, if_false, mem_flatMap, mem_append, and_or_left, exists_or]
  exact or_comm

noncomputable def LabelledGraph.weight (G : LabelledGraph) (directed : Bool) (predSet : List Nat)
    (t : Int × Int × Int) : Nat :=
  if directed then G.labelNumber predSet t.1 t.2.1 * G.labelNumber predSet t.2.1 t.2.2 else 1

theorem numTriangleOf_directed {a : Int} (vertex : a ∈ G.vertices) :
    numTriangleOf csr true predSet a = ∑ b ∈ G.vertices, ∑ c ∈ G.vertices,
      if G.Step true predSet a b ∧ G.Step true predSet b c ∧ G.Step true predSet c a
      then G.weight true predSet (a, b, c) else 0 := by
  have heads : ∀ v ∈ G.vertices, ∀ w ∈ predSet.flatMap (csr.1.verts v), w ∈ G.vertices := by
    intro v inside w listed
    obtain ⟨p, -, head⟩ := mem_flatMap.mp listed
    exact G.target ((stores.out inside).mp head)
  rw [numTriangleOf, if_pos rfl, sum_map_count (heads a vertex)]
  refine Finset.sum_congr rfl fun b inside => ?_
  rw [countP_count (heads b inside), count_verts stores vertex, Finset.mul_sum]
  refine Finset.sum_congr rfl fun c _ => ?_
  rw [count_verts stores inside]
  simp only [mem_inSet stores vertex, LabelledGraph.weight, if_true]
  by_cases first : G.Step true predSet a b
  · by_cases second : G.Step true predSet b c
    · simp [first, second]
    · have none : G.labelNumber predSet b c = 0 := by have := mt labelNumber_pos.mp second; omega
      simp [none]
  · have none : G.labelNumber predSet a b = 0 := by have := mt labelNumber_pos.mp first; omega
    simp [none]

theorem numTriangleOf_undirected {a : Int} (vertex : a ∈ G.vertices) :
    numTriangleOf csr false predSet a = ∑ b ∈ G.vertices, ∑ c ∈ G.vertices,
      if G.Step false predSet a b ∧ G.Step false predSet b c ∧ G.Step false predSet c a
      then G.weight false predSet (a, b, c) else 0 := by
  have set : inSet csr false predSet a = G.vertices.filter fun b => G.Step false predSet a b := by
    ext b
    rw [mem_inSet stores vertex, Finset.mem_filter]
    exact ⟨fun step => ⟨step.source, step_symm step⟩, fun step => step_symm step.2⟩
  simp only [numTriangleOf, Bool.false_eq_true, if_false]
  rw [set, Finset.sum_filter]
  refine Finset.sum_congr rfl fun b inside => ?_
  split_ifs with first
  · have both : (nbrs csr predSet b).filter
      (· ∈ G.vertices.filter fun b => G.Step false predSet a b) =
        G.vertices.filter fun c => G.Step false predSet b c ∧ G.Step false predSet c a := by
      ext c
      simp only [Finset.mem_filter, mem_nbrs stores inside]
      exact ⟨fun found => ⟨found.2.1, found.1, step_symm found.2.2⟩,
          fun found => ⟨found.2.1, found.1, step_symm found.2.2⟩⟩
    rw [both, Finset.card_filter]
    refine Finset.sum_congr rfl fun c _ => ?_
    simp [first, LabelledGraph.weight]
  · simp [first]

omit stores in
theorem numTriangleOf_outside (vacant : Vacant csr G) (directed : Bool) {a : Int} (nonneg : 0 ≤ a)
    (below : a < csr.2.n)
    (outside : a ∉ G.vertices) : numTriangleOf csr directed predSet a = 0 := by
  have int := vacant.int
  have none := fun p => vacant.verts p a nonneg (by omega) outside
  have nobody : inSet csr false predSet a = ∅ := by simp [inSet, none]
  have nowhere : predSet.flatMap (csr.1.verts a) = [] :=
    flatMap_eq_nil_iff.mpr fun p _ => (none p).1
  cases directed with
  | true => simp [numTriangleOf, nowhere]
  | false => simp [numTriangleOf, nobody]

theorem numTriangle_eq (vacant : Vacant csr G) (directed : Bool) :
    ((List.range csr.2.n).map fun vid : Nat => numTriangleOf csr directed predSet vid).sum =
      ∑ t ∈ (closedTriples G.vertices (G.Step directed predSet)).filter (·.1 < (csr.2.n : Int)),
        G.weight directed predSet t := by
  have turns : ((List.range csr.2.n).map fun vid : Nat =>
      numTriangleOf csr directed predSet vid).sum =
      ∑ a ∈ G.vertices.filter (· < (csr.2.n : Int)), numTriangleOf csr directed predSet a := by
    have visited : ((List.range csr.2.n).map fun vid : Nat =>
        numTriangleOf csr directed predSet vid).sum =
        ∑ a ∈ (Finset.range csr.2.n).map Nat.castEmbedding,
        numTriangleOf csr directed predSet a := by
      rw [Finset.sum_map]
      rfl
    rw [visited]
    refine (Finset.sum_subset (fun a member => ?_) fun a member missing => ?_).symm
    · obtain ⟨vertex, below⟩ := Finset.mem_filter.mp member
      have nonneg := G.nonneg vertex
      exact Finset.mem_map.mpr ⟨a.toNat,
          Finset.mem_range.mpr (by omega), Int.toNat_of_nonneg nonneg⟩
    · obtain ⟨i, low, rfl⟩ := Finset.mem_map.mp member
      have below : (i : Int) < csr.2.n := Int.ofNat_lt.mpr (Finset.mem_range.mp low)
      exact numTriangleOf_outside vacant directed (Int.natCast_nonneg i) below fun vertex =>
        missing (Finset.mem_filter.mpr ⟨vertex, below⟩)
  rw [turns, closedTriples, Finset.filter_filter, Finset.sum_filter, Finset.sum_filter,
      Finset.sum_product]
  refine Finset.sum_congr rfl fun a inside => ?_
  rw [Finset.sum_product]
  by_cases below : a < (csr.2.n : Int)
  · simp only [below, if_true, and_true]
    cases directed with
    | true => exact numTriangleOf_directed stores inside
    | false => exact numTriangleOf_undirected stores inside
  · simp [below]

end

theorem dupNum_mul_triangleNumber (directed : Bool) :
    (if directed then 3 else 6) * G.triangleNumber directed predSet =
      (properTriples G.vertices (G.Step directed predSet)).card := by
  cases directed with
  | true => exact card_properTriples.symm
  | false => exact (card_properTriples_of_symm fun a b => step_symm).symm

/-- What a walk that closes after three steps from a vertex below `n` adds, less one for each order
of a triangle. -/
noncomputable def LabelledGraph.surplus (G : LabelledGraph) (directed : Bool) (predSet : List Nat)
    (n : Nat) : Nat :=
  ∑ t ∈ (closedTriples G.vertices (G.Step directed predSet)).filter (·.1 < (n : Int)),
    (G.weight directed predSet t - if t ∈ properTriples G.vertices
      (G.Step directed predSet) then 1 else 0)

/-- The orders of a triangle, or rotations of a cycle, that start at an id from `n` on. -/
noncomputable def LabelledGraph.missing (G : LabelledGraph) (directed : Bool) (predSet : List Nat)
    (n : Nat) : Nat :=
  ((properTriples G.vertices (G.Step directed predSet)).filter ((n : Int) ≤ ·.1)).card

theorem weight_pos {directed : Bool} {t : Int × Int × Int}
    (closed : t ∈ closedTriples G.vertices (G.Step directed predSet)) :
    1 ≤ G.weight directed predSet t := by
  obtain ⟨a, b, c⟩ := t
  obtain ⟨-, ab, bc, -⟩ := mem_closedTriples.mp closed
  cases directed with
  | false => exact le_rfl
  | true => exact Nat.mul_pos (labelNumber_pos.mpr ab) (labelNumber_pos.mpr bc)

theorem sum_weight_eq (directed : Bool) (n : Nat) :
    (∑ t ∈ (closedTriples G.vertices (G.Step directed predSet)).filter (·.1 < (n : Int)),
      G.weight directed predSet t) +
        G.missing directed predSet n =
      G.surplus directed predSet n + (properTriples G.vertices (G.Step directed predSet)).card := by
  have split := Finset.card_filter_add_card_filter_not
    (s := properTriples G.vertices (G.Step directed predSet))
    fun t => t.1 < (n : Int)
  have started : ((properTriples G.vertices (G.Step directed predSet)).filter
      (·.1 < (n : Int))).card =
      ∑ t ∈ (closedTriples G.vertices (G.Step directed predSet)).filter (·.1 < (n : Int)),
        if t ∈ properTriples G.vertices (G.Step directed predSet) then 1 else 0 := by
    rw [← Finset.card_filter, Finset.filter_filter]
    congr 1
    ext t
    simp only [Finset.mem_filter]
    exact ⟨fun both => ⟨properTriples_subset both.1, both.2, both.1⟩, fun all => ⟨all.2.2, all.2.1⟩⟩
  have rest : G.missing directed predSet n =
      ((properTriples G.vertices (G.Step directed predSet)).filter fun t => ¬ t.1 <
        (n : Int)).card := by
    simp only [LabelledGraph.missing, not_lt]
  have each : (∑ t ∈ (closedTriples G.vertices (G.Step directed predSet)).filter (·.1 < (n : Int)),
      G.weight directed predSet t) = G.surplus directed predSet n +
        ((properTriples G.vertices (G.Step directed predSet)).filter (·.1 < (n : Int))).card := by
    rw [started, LabelledGraph.surplus, ← Finset.sum_add_distrib]
    refine Finset.sum_congr rfl fun t member => (Nat.sub_add_cancel ?_).symm
    have positive := weight_pos (Finset.mem_filter.mp member).1
    split_ifs <;> omega
  omega

theorem surplus_eq_zero {directed : Bool} (single : G.SingleEdges directed predSet) (n : Nat) :
    G.surplus directed predSet n = 0 := by
  obtain ⟨noLoop, single⟩ := single
  refine Finset.sum_eq_zero fun t member => ?_
  have proper := (Finset.mem_filter.mp member).1
  rw [closedTriples_eq_proper fun v _ => noLoop v] at proper
  obtain ⟨a, b, c⟩ := t
  obtain ⟨⟨-, ab, bc, ca⟩, neAB, neBC, neCA⟩ := mem_properTriples.mp proper
  rw [if_pos proper, LabelledGraph.weight]
  cases directed with
  | false => rfl
  | true =>
    rw [if_pos rfl, single rfl a b c neAB neBC neCA ab bc ca,
        single rfl b c a neBC neCA neAB bc ca ab]
    rfl

section Below

variable {n : Nat} (below : ∀ v ∈ G.vertices, v < (n : Int)) (directed : Bool)
include below

theorem missing_eq_zero : G.missing directed predSet n = 0 := by
  refine Finset.card_eq_zero.mpr (Finset.filter_eq_empty_iff.mpr ?_)
  rintro ⟨a, b, c⟩ proper
  exact not_le.mpr (below a (mem_properTriples.mp proper).1.1.1)

theorem surplus_eq_zero_iff :
    G.surplus directed predSet n = 0 ↔ G.SingleEdges directed predSet := by
  refine ⟨fun none => ?_, fun single => surplus_eq_zero single n⟩
  have each : ∀ t ∈ closedTriples G.vertices (G.Step directed predSet),
    G.weight directed predSet t -
      (if t ∈ properTriples G.vertices (G.Step directed predSet) then 1 else 0) = 0 := by
    rintro ⟨a, b, c⟩ closed
    exact Finset.sum_eq_zero_iff.mp none (a, b, c)
      (Finset.mem_filter.mpr ⟨closed, below a (mem_closedTriples.mp closed).1.1⟩)
  refine ⟨fun v loop => ?_, ?_⟩
  · have closed : (v, v, v) ∈ closedTriples G.vertices (G.Step directed predSet) :=
      mem_closedTriples.mpr ⟨⟨loop.source, loop.source, loop.source⟩, loop, loop, loop⟩
    have zero := each _ closed
    have some := weight_pos closed
    rw [if_neg fun proper => (mem_properTriples.mp proper).2.1 rfl] at zero
    omega
  · rintro rfl a b c neAB neBC neCA ab bc ca
    have proper : (a, b, c) ∈ properTriples G.vertices (G.Step true predSet) :=
      mem_properTriples.mpr ⟨⟨⟨ab.source, bc.source, ca.source⟩, ab, bc, ca⟩, neAB, neBC, neCA⟩
    have zero := each _ (properTriples_subset proper)
    have some := weight_pos (properTriples_subset proper)
    rw [if_pos proper] at zero
    exact Nat.eq_one_of_mul_eq_one_right (show G.weight true predSet (a, b, c) = 1 by omega)

end Below

end Count

/-- The answer is the number of triangles if and only if the walks counted too much, through a loop
or by a second label, are as many as the orders of triangles that start at an id the loop does not
come to. The first number is 0 where no allowed edge is a loop and no edge of a cycle has two
allowed labels; the second is 0 where all ids are below `getVertNum`, and then the first is 0 only
so. -/
theorem triangleCounting_eq_iff {G : LabelledGraph} {csr : CSR × CSR} {predSet : List Nat}
    (stores : Stores csr G)
    (vacant : Vacant csr G) (labels : predSet ≠ []) (directed : Bool) :
    (triangleCounting csr directed predSet = G.triangleNumber directed predSet ↔
      G.surplus directed predSet csr.2.n = G.missing directed predSet csr.2.n) ∧
    (G.SingleEdges directed predSet → G.surplus directed predSet csr.2.n = 0) ∧
    ((∀ v ∈ G.vertices, v < (csr.2.n : Int)) → G.missing directed predSet csr.2.n = 0 ∧
      (G.surplus directed predSet csr.2.n = 0 ↔ G.SingleEdges directed predSet)) := by
  refine ⟨?_, fun single => surplus_eq_zero single _, fun below =>
    ⟨missing_eq_zero below directed, surplus_eq_zero_iff below directed⟩⟩
  have balance := @sum_weight_eq G predSet directed csr.2.n
  rw [← numTriangle_eq stores vacant directed, ← dupNum_mul_triangleNumber] at balance
  rw [triangleCounting, if_neg labels]
  dsimp only
  generalize ((List.range csr.2.n).map fun vid : Nat => numTriangleOf csr directed predSet vid).sum
    = total at balance
  generalize G.triangleNumber directed predSet = number at balance
  have positive : 0 < (if directed = true then 3 else 6) := by cases directed <;> decide
  generalize (if directed = true then 3 else 6) = dupNum at positive balance
  have exact_iff : total = dupNum * number ↔
      G.surplus directed predSet csr.2.n = G.missing directed predSet csr.2.n := by omega
  rw [← exact_iff]
  split
  · rename_i remainder
    refine iff_of_false (by omega) fun total_eq => remainder ?_
    rw [total_eq, Nat.mul_mod_right]
  · rename_i divisible
    rw [Nat.cast_inj]
    have parts := Nat.div_add_mod total dupNum
    constructor
    · intro quotient
      rw [quotient] at parts
      omega
    · rintro rfl
      exact Nat.mul_div_cancel_left number positive

/-- The undirected count is not affected by the second label. -/
theorem twoLabels_undirected : triangleCounting (twoLabels.loadCSR 2) false [0, 1] =
    (entityGraph {0, 1, 2} {⟨0, 0, 1⟩, ⟨1, 0, 2⟩, ⟨2, 0, 0⟩, ⟨0, 1, 1⟩}).triangleNumber false
    [0, 1] := by
  obtain ⟨exact_iff, -, below⟩ :=
    @triangleCounting_eq_iff _ _ [0, 1] twoLabels_stores twoLabels_vacant (by decide) false
  obtain ⟨missing, surplus⟩ := below fun v vertex => ((twoLabels_vertices v).mp vertex).2
  refine exact_iff.mpr ((surplus.mpr ⟨?_, fun wrong => absurd wrong Bool.false_ne_true⟩).trans
      missing.symm)
  rintro v ⟨p, -, ⟨s, -, o, -, rfl, same, stored⟩ | ⟨-, s, -, o, -, rfl, same, stored⟩⟩ <;>
    obtain rfl := Int.ofNat.inj same <;> simp at stored <;> omega

/-- With a loop the number is no multiple of 6 or 3. -/
theorem loop_not_divisible : Stores (selfLoop.loadCSR 1) (entityGraph {0} {⟨0, 0, 0⟩}) ∧
    (selfLoop.loadCSR 1).2.n = 1 ∧
    triangleCounting (selfLoop.loadCSR 1) false [0] = -1 ∧
    triangleCounting (selfLoop.loadCSR 1) true [0] = -1 :=
  ⟨selfLoop_stores, by decide +kernel, by decide +kernel, by decide +kernel⟩

end GStore
