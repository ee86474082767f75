import GStore.Lib.Distance
import GStore.Query.EntityGraph

/-! The graph that the two halves of a loaded CSR show to the path queries: labelled edges between
non-negative ids, with loops and several labels on one pair allowed. -/
namespace GStore
open Lib List

structure LabelledGraph where
  vertices : Finset Int
  edge : Nat → Int → Int → Prop
  nonneg : ∀ {v}, v ∈ vertices → 0 ≤ v
  source : ∀ {p v w}, edge p v w → v ∈ vertices
  target : ∀ {p v w}, edge p v w → w ∈ vertices

variable (G : LabelledGraph)

def LabelledGraph.Step (directed : Bool) (predSet : List Nat) (v w : Int) : Prop :=
  ∃ p ∈ predSet, G.edge p v w ∨ (directed = false ∧ G.edge p w v)

def LabelledGraph.LabelStep (directed : Bool) (predSet : List Nat) (p : Nat) (v w : Int) : Prop :=
  p ∈ predSet ∧ (G.edge p v w ∨ (directed = false ∧ G.edge p w v))

def LabelledGraph.Plain (directed : Bool) (predSet : List Nat) (c v w : Int) : Prop :=
  ∃ p : Nat, c = p ∧ G.LabelStep directed predSet p v w

/-- A walk of `n` steps written out as vertices with the labels between them. -/
inductive Written (R : Int → Int → Int → Prop) (u : Int) : List Int → Nat → Int → Prop where
  | single : Written R u [u] 0 u
  | snoc {path : List Int} {n : Nat} {c v w : Int} : Written R u path n v → R c v w → Written R u (path ++ [c, w]) (n + 1) w

/-- `csr[0]` lists the heads of the edges of a vertex and `csr[1]` the tails, each once for each
label. -/
structure Stores (csr : CSR × CSR) (G : LabelledGraph) : Prop where
  outOnce : ∀ p, ∀ v ∈ G.vertices, (csr.1.verts v p).Nodup
  out : ∀ {p v w}, v ∈ G.vertices → (w ∈ csr.1.verts v p ↔ G.edge p v w)
  intoOnce : ∀ p, ∀ v ∈ G.vertices, (csr.2.verts v p).Nodup
  into : ∀ {p v w}, v ∈ G.vertices → (w ∈ csr.2.verts v p ↔ G.edge p w v)

/-- The rows list nothing for an id that is no vertex, and the number of vertices is an `int`. -/
structure Vacant (csr : CSR × CSR) (G : LabelledGraph) : Prop where
  int : csr.2.n < 2 ^ 31
  verts : ∀ p v, 0 ≤ v → v < 2 ^ 31 → v ∉ G.vertices → csr.1.verts v p = [] ∧ csr.2.verts v p = []

section Step

variable {G : LabelledGraph} {csr : CSR × CSR} {directed : Bool} {predSet : List Nat} {v w : Int}

theorem LabelledGraph.Step.source (step : G.Step directed predSet v w) : v ∈ G.vertices := by
  obtain ⟨p, -, forward | ⟨-, backward⟩⟩ := step
  · exact G.source forward
  · exact G.target backward

theorem LabelledGraph.Step.target (step : G.Step directed predSet v w) : w ∈ G.vertices := by
  obtain ⟨p, -, forward | ⟨-, backward⟩⟩ := step
  · exact G.target forward
  · exact G.source backward

theorem reach_vertex {u : Int} (source : u ∈ G.vertices)
    (reach : Reach (G.Step directed predSet) u v) : v ∈ G.vertices :=
  reach.walk.inside source fun _ _ step => step.target

theorem step_iff_label : G.Step directed predSet v w ↔ ∃ p, G.LabelStep directed predSet p v w :=
  Iff.rfl

theorem step_directed : G.Step true predSet v w ↔ ∃ p ∈ predSet, G.edge p v w := by
  simp [LabelledGraph.Step]

theorem step_symm (step : G.Step false predSet v w) : G.Step false predSet w v := by
  obtain ⟨p, allowed, forward | ⟨-, backward⟩⟩ := step
  · exact ⟨p, allowed, .inr ⟨rfl, forward⟩⟩
  · exact ⟨p, allowed, .inl backward⟩

theorem Stores.mem_directions (stores : Stores csr G) (vertex : v ∈ G.vertices) :
    w ∈ directions csr.1 csr.2 directed predSet v ↔ G.Step directed predSet v w := by
  simp only [directions, mem_append, mem_flatMap, LabelledGraph.Step]
  cases directed with
  | true => simp [stores.out vertex]
  | false =>
    simp only [Bool.false_eq_true, if_false, mem_flatMap, stores.out vertex, stores.into vertex,
        true_and, and_or_left,
      exists_or]
    exact or_comm

theorem Stores.mem_directions_back (stores : Stores csr G) (vertex : v ∈ G.vertices) :
    w ∈ directions csr.2 csr.1 directed predSet v ↔ G.Step directed predSet w v := by
  simp only [directions, mem_append, mem_flatMap, LabelledGraph.Step]
  cases directed with
  | true => simp [stores.into vertex]
  | false =>
    simp only [Bool.false_eq_true, if_false, mem_flatMap, stores.out vertex, stores.into vertex,
        true_and, and_or_left,
      exists_or]
    exact or_comm

end Step

def entityGraph (E : Finset Nat) (S : Finset Triple) : LabelledGraph where
  vertices := E.image Int.ofNat
  edge p v w := ∃ s ∈ E, ∃ o ∈ E, v = s ∧ w = o ∧ ⟨s, p, o⟩ ∈ S
  nonneg vertex := by
    obtain ⟨a, -, rfl⟩ := Finset.mem_image.mp vertex
    exact Int.natCast_nonneg a
  source edge := by
    obtain ⟨s, inside, -, -, rfl, -⟩ := edge
    exact Finset.mem_image_of_mem _ inside
  target edge := by
    obtain ⟨-, -, o, inside, -, rfl, -⟩ := edge
    exact Finset.mem_image_of_mem _ inside

theorem verts_of_laid {row : CSRRow} {nb : Nat → List Nat} {ws : List Nat} (laid : row.Laid nb ws)
    (all : ∀ v, v ∈ ws ↔ nb v ≠ []) {v : Nat} (small : v < 2 ^ 32) :
    (List.range (row.size v)).map (row.vertID v) = (nb v).map Int.ofNat := by
  obtain ⟨size, slice⟩ := laid.slice all small
  refine ext_getElem (by simp [size]) fun i below _ => ?_
  have inside : i < (nb v).length := by simpa [size] using below
  simp [slice, getElem?_eq_getElem inside]

section Loaded

variable {db : Database} {S : Finset Triple} {preNum : Nat} (consistent : db.kvstore.Consistent S)
  (named : ∀ t ∈ S, t.pre < preNum)
include consistent named

/-- A label without a row has no triples. -/
theorem loadCSR_verts (p : Nat) {v : Nat} (small : v < 2 ^ 32) :
    (db.loadCSR preNum).1.verts v p = (db.kvstore.outList p v).map Int.ofNat ∧
      (db.loadCSR preNum).2.verts v p = (db.kvstore.inList p v).map Int.ofNat := by
  by_cases below : p < preNum
  · obtain ⟨outs, outLaid, outAll⟩ := outRow_laid consistent p
    obtain ⟨ins, inLaid, inAll⟩ := inRow_laid consistent p
    have outRow : (db.loadCSR preNum).1.rows p = db.kvstore.outRow p := if_pos below
    have inRow : (db.loadCSR preNum).2.rows p = db.kvstore.inRow p := if_pos below
    rw [CSR.verts, CSR.verts, outRow, inRow]
    exact ⟨verts_of_laid outLaid outAll small, verts_of_laid inLaid inAll small⟩
  · have outRow : (db.loadCSR preNum).1.rows p = .empty := if_neg below
    have inRow : (db.loadCSR preNum).2.rows p = .empty := if_neg below
    have noOut : db.kvstore.outList p v = [] := eq_nil_iff_forall_not_mem.mpr fun o listed =>
      below (named _ (((outList_spec consistent p v).2 o).mp listed).1)
    have noIn : db.kvstore.inList p v = [] := eq_nil_iff_forall_not_mem.mpr fun s listed =>
      below (named _ (((inList_spec consistent p v).2 s).mp listed).1)
    rw [CSR.verts, CSR.verts, outRow, inRow, noOut, noIn]
    exact ⟨rfl, rfl⟩

variable {E : Finset Nat} (entities : ∀ v ∈ E, v < literalFirstID)
  (subjects : ∀ t ∈ S, t.obj < literalFirstID → t.sub ∈ E ∧ t.obj ∈ E)
include subjects

theorem loadCSR_vacant (int : (db.loadCSR preNum).2.n < 2 ^ 31) :
    Vacant (db.loadCSR preNum) (entityGraph E S) := by
  refine ⟨int, fun p v nonneg below outside => ?_⟩
  obtain ⟨a, rfl⟩ := Int.eq_ofNat_of_zero_le nonneg
  have missing : a ∉ E := fun inside => outside (Finset.mem_image_of_mem _ inside)
  obtain ⟨outs, ins⟩ := loadCSR_verts consistent named p (v := a) (by omega)
  rw [outs, ins, map_eq_nil_iff, map_eq_nil_iff, eq_nil_iff_forall_not_mem,
      eq_nil_iff_forall_not_mem]
  refine ⟨fun o listed => ?_, fun s listed => ?_⟩
  · obtain ⟨stored, entity⟩ := ((outList_spec consistent p a).2 o).mp listed
    exact missing (subjects _ stored entity).1
  · obtain ⟨stored, entity⟩ := ((inList_spec consistent p a).2 s).mp listed
    exact missing (subjects _ stored entity).2

include entities

theorem loadCSR_stores : Stores (db.loadCSR preNum) (entityGraph E S) := by
  have cast : ∀ l : List Nat, l.Nodup → (l.map Int.ofNat).Nodup := fun l nodup =>
    nodup.map fun a b same => Int.ofNat.inj same
  have outs : ∀ p, ∀ v ∈ E, (db.loadCSR preNum).1.verts v p =
      (db.kvstore.outList p v).map Int.ofNat :=
    fun p v inside => (loadCSR_verts consistent named p ((entities v inside).trans (by decide))).1
  have ins : ∀ p, ∀ v ∈ E, (db.loadCSR preNum).2.verts v p =
      (db.kvstore.inList p v).map Int.ofNat :=
    fun p v inside => (loadCSR_verts consistent named p ((entities v inside).trans (by decide))).2
  constructor
  · intro p v vertex
    obtain ⟨a, inside, rfl⟩ := Finset.mem_image.mp vertex
    exact outs p a inside ▸ cast _ (outList_spec consistent p a).1
  · intro p v w vertex
    obtain ⟨a, inside, rfl⟩ := Finset.mem_image.mp vertex
    rw [Int.ofNat_eq_natCast, outs p a inside, mem_map]
    constructor
    · rintro ⟨o, listed, rfl⟩
      obtain ⟨stored, entity⟩ := ((outList_spec consistent p a).2 o).mp listed
      exact ⟨a, inside, o, (subjects _ stored entity).2, rfl, rfl, stored⟩
    · rintro ⟨s, -, o, object, same, rfl, stored⟩
      obtain rfl := Int.ofNat.inj same
      exact ⟨o, ((outList_spec consistent p a).2 o).mpr ⟨stored, entities o object⟩, rfl⟩
  · intro p v vertex
    obtain ⟨a, inside, rfl⟩ := Finset.mem_image.mp vertex
    exact ins p a inside ▸ cast _ (inList_spec consistent p a).1
  · intro p v w vertex
    obtain ⟨a, inside, rfl⟩ := Finset.mem_image.mp vertex
    rw [Int.ofNat_eq_natCast, ins p a inside, mem_map]
    constructor
    · rintro ⟨s, listed, rfl⟩
      obtain ⟨stored, entity⟩ := ((inList_spec consistent p a).2 s).mp listed
      exact ⟨s, (subjects _ stored entity).1, a, inside, rfl, rfl, stored⟩
    · rintro ⟨s, -, o, object, rfl, same, stored⟩
      obtain rfl := Int.ofNat.inj same
      exact ⟨s, ((inList_spec consistent p a).2 s).mpr ⟨stored, entities a inside⟩, rfl⟩

end Loaded

def selfLoop : Database := (Database.empty []).insert [⟨"<a>", "<p>", "<a>", true⟩]

theorem selfLoop_stores : Stores (selfLoop.loadCSR 1) (entityGraph {0} {⟨0, 0, 0⟩}) := by
  have holds := updateTupleslistInsert_holds empty_holds
    ⟨⟨0, 0, 0⟩, by decide, by decide, by decide⟩ (by simp) (by decide)
  have consistent : selfLoop.kvstore.Consistent {⟨0, 0, 0⟩} :=
    ⟨holds_congr holds fun t => by simp, by decide, by decide⟩
  exact loadCSR_stores consistent (by decide) (by decide) (by decide)

def twoLabels : Database := (Database.empty []).insert
  [⟨"<a>", "<p>", "<b>", true⟩, ⟨"<b>", "<p>", "<c>", true⟩, ⟨"<c>", "<p>", "<a>", true⟩,
      ⟨"<a>", "<q>", "<b>", true⟩]

theorem twoLabels_consistent :
    twoLabels.kvstore.Consistent {⟨0, 0, 1⟩, ⟨1, 0, 2⟩, ⟨2, 0, 0⟩, ⟨0, 1, 1⟩} := by
  have first := updateTupleslistInsert_holds empty_holds
    ⟨⟨0, 0, 1⟩, by decide, by decide, by decide⟩ (by simp) (by decide)
  have second := updateTupleslistInsert_holds first
    ⟨⟨1, 0, 2⟩, by decide, by decide, by decide⟩ (by simp) (by decide)
  have third := updateTupleslistInsert_holds second
    ⟨⟨2, 0, 0⟩, by decide, by decide, by decide⟩ (by simp) (by decide)
  have all := updateTupleslistInsert_holds third
    ⟨⟨0, 1, 1⟩, by decide, by decide, by decide⟩ (by simp) (by decide)
  exact ⟨holds_congr all fun t => by simp; tauto, by decide, by decide⟩

theorem twoLabels_stores : Stores (twoLabels.loadCSR 2)
    (entityGraph {0, 1, 2} {⟨0, 0, 1⟩, ⟨1, 0, 2⟩, ⟨2, 0, 0⟩, ⟨0, 1, 1⟩}) :=
  loadCSR_stores twoLabels_consistent (by decide) (by decide) (by decide)

theorem twoLabels_vacant : Vacant (twoLabels.loadCSR 2)
    (entityGraph {0, 1, 2} {⟨0, 0, 1⟩, ⟨1, 0, 2⟩, ⟨2, 0, 0⟩, ⟨0, 1, 1⟩}) :=
  loadCSR_vacant twoLabels_consistent (by decide) (by decide) (by decide)

theorem twoLabels_vertices (v : Int) :
    v ∈ (entityGraph {0, 1, 2} {⟨0, 0, 1⟩, ⟨1, 0, 2⟩, ⟨2, 0, 0⟩, ⟨0, 1, 1⟩}).vertices ↔
    IsVertex (twoLabels.loadCSR 2).2.n v := by
  have three : (twoLabels.loadCSR 2).2.n = 3 := rfl
  rw [three, IsVertex]
  simp only [entityGraph, Finset.image_insert, Finset.image_singleton, Finset.mem_insert,
      Finset.mem_singleton,
    Int.ofNat_eq_natCast]
  omega

end GStore
