import GStore.Lib.Traversal
import GStore.Query.LabelledGraph

/-! `PathQueryHandler::WCC`: the classes of the vertices that allowed edges connect, whatever their
direction. -/
namespace GStore
open Lib Relation List

def allNeighbours (csr : CSR × CSR) (predSet : List Nat) (uid : Int) : List Int :=
  predSet.flatMap fun pred => csr.2.verts uid pred ++ csr.1.verts uid pred

def markVertex (wccid : Nat) (vid2wccid : List (Int × Nat)) (vid : Int) : List (Int × Nat) :=
  vid2wccid.filter (·.1 ≠ vid) ++ [(vid, wccid)]

def wccTurn (csr : CSR × CSR) (predSet : List Nat) (turns : Nat) (st : List (Int × Nat) × Nat)
    (vertexid : Int) :
    Option (List (Int × Nat) × Nat) :=
  if vertexid ∈ st.1.map Prod.fst then some st
  else (traverse (allNeighbours csr predSet) turns [vertexid] [vertexid]).map fun visited =>
    (visited.foldl (markVertex st.2) st.1, st.2 + 1)

def WCC (turns : Nat) (order : List (Int × Nat) → List (Int × Nat)) (csr : CSR × CSR)
    (predSet : List Nat) :
    Option (List (List Int)) :=
  (((List.range csr.2.n).map Int.ofNat).foldlM (wccTurn csr predSet turns) ([], 0)).map
      fun (vid2wccid, wccid) =>
    (List.range wccid).map fun i => ((order vid2wccid).filter (·.2 = i)).map Prod.fst

section Marks

variable {R : Int → Int → Prop} {marks : List (Int × Nat)} {wccid : Nat}

structure Classed (R : Int → Int → Prop) (marks : List (Int × Nat)) (wccid : Nat) : Prop where
  nodup : (marks.map Prod.fst).Nodup
  closed : ∀ p ∈ marks, ∀ b, ReflTransGen R p.1 b → b ∈ marks.map Prod.fst
  bound : ∀ p ∈ marks, p.2 < wccid
  used : ∀ i < wccid, ∃ p ∈ marks, p.2 = i
  same : ∀ p ∈ marks, ∀ q ∈ marks, p.2 = q.2 ↔ ReflTransGen R p.1 q.1

theorem foldl_markVertex {visited : List Int} (new : ∀ v ∈ visited, v ∉ marks.map Prod.fst)
    (nodup : visited.Nodup) :
    visited.foldl (markVertex wccid) marks = marks ++ visited.map (·, wccid) := by
  induction visited generalizing marks with
  | nil => simp
  | cons v visited ih =>
    obtain ⟨fresh, nodup⟩ := nodup_cons.mp nodup
    have kept : marks.filter (·.1 ≠ v) = marks := filter_eq_self.mpr fun p member => by
      have other : p.1 ≠ v := fun here => new v mem_cons_self (here ▸ mem_map_of_mem member)
      simpa using other
    rw [foldl_cons, markVertex, kept, ih _ nodup]
    · simp
    · intro w later
      have other : w ≠ v := fun here => fresh (here ▸ later)
      simpa [other] using new w (mem_cons_of_mem v later)

theorem Classed.append (classed : Classed R marks wccid) (symm : ∀ a b, R a b → R b a) {v : Int}
    (new : v ∉ marks.map Prod.fst) {visited : List Int} (nodup : visited.Nodup)
    (reached : ∀ b, b ∈ visited ↔ ReflTransGen R v b) :
    visited.foldl (markVertex wccid) marks = marks ++ visited.map (·, wccid) ∧
      Classed R (marks ++ visited.map (·, wccid)) (wccid + 1) := by
  have back : ∀ {a b}, ReflTransGen R a b → ReflTransGen R b a := fun path =>
    ReflTransGen.mono (fun a b => symm b a) _ _ (ReflTransGen.swap _ _ path)
  have apart : ∀ p ∈ marks, ∀ b, ReflTransGen R v b → ¬ ReflTransGen R p.1 b :=
      fun p member b found path =>
    new (classed.closed p member v (path.trans (back found)))
  have fresh : ∀ b ∈ visited, b ∉ marks.map Prod.fst := by
    intro b found known
    obtain ⟨p, member, rfl⟩ := mem_map.mp known
    exact apart p member p.1 ((reached _).mp found) .refl
  have first : v ∈ visited := (reached v).mpr .refl
  refine ⟨foldl_markVertex fresh nodup, ?_, ?_, ?_, ?_, ?_⟩
  · rw [List.map_append, List.map_map, List.nodup_append]
    refine ⟨classed.nodup, by simpa [Function.comp_def] using nodup, ?_⟩
    rintro a old b now rfl
    exact fresh a (by simpa [Function.comp_def] using now) old
  · intro p member b path
    rw [List.map_append, List.map_map, List.mem_append]
    rcases List.mem_append.mp member with old | now
    · exact .inl (classed.closed p old b path)
    · obtain ⟨a, found, rfl⟩ := mem_map.mp now
      exact .inr (by simpa [Function.comp_def] using (reached b).mpr (((reached a).mp found).trans path))
  · intro p member
    rcases List.mem_append.mp member with old | now
    · exact Nat.lt_succ_of_lt (classed.bound p old)
    · obtain ⟨a, -, rfl⟩ := mem_map.mp now
      exact Nat.lt_succ_self wccid
  · intro i below
    rcases Nat.lt_succ_iff_lt_or_eq.mp below with before | rfl
    · obtain ⟨p, member, here⟩ := classed.used i before
      exact ⟨p, mem_append_left _ member, here⟩
    · exact ⟨(v, i), mem_append_right _ (mem_map_of_mem first), rfl⟩
  · intro p member q member'
    rcases List.mem_append.mp member with old | now
      <;> rcases List.mem_append.mp member' with old' | now'
    · exact classed.same p old q old'
    · obtain ⟨b, found, rfl⟩ := mem_map.mp now'
      exact iff_of_false (Nat.ne_of_lt (classed.bound p old)) (apart p old b ((reached b).mp found))
    · obtain ⟨a, found, rfl⟩ := mem_map.mp now
      exact iff_of_false (Nat.ne_of_gt (classed.bound q old')) fun path => apart q old' a
        ((reached a).mp found) (back path)
    · obtain ⟨a, found, rfl⟩ := mem_map.mp now
      obtain ⟨b, found', rfl⟩ := mem_map.mp now'
      exact iff_of_true rfl ((back ((reached a).mp found)).trans ((reached b).mp found'))

theorem Classed.classes (classed : Classed R marks wccid) {listed : List (Int × Nat)}
    (listing : listed.Perm marks) :
    let classes := (List.range wccid).map fun i => (listed.filter (·.2 = i)).map Prod.fst
    classes.flatten.Perm (marks.map Prod.fst) ∧ (∀ c ∈ classes, c ≠ []) ∧
      ∀ u ∈ marks.map Prod.fst, ∀ v, (∃ c ∈ classes, u ∈ c ∧ v ∈ c) ↔ ReflTransGen R u v := by
  intro classes
  have mem_class : ∀ {c}, c ∈ classes ↔ ∃ i < wccid, (listed.filter (·.2 = i)).map Prod.fst =
      c := by
    simp [classes]
  have mem_listed : ∀ {v i}, v ∈ (listed.filter (·.2 = i)).map Prod.fst ↔ (v, i) ∈ marks := by
    intro v i
    simp [listing.mem_iff]
  have unique : ∀ {v i j}, (v, i) ∈ marks → (v, j) ∈ marks → i = j := fun one two =>
    (classed.same _ one _ two).mpr .refl
  refine ⟨(perm_ext_iff_of_nodup ?_ classed.nodup).mpr fun v => ?_, ?_, ?_⟩
  · refine nodup_flatten.mpr ⟨fun c member => ?_, ?_⟩
    · obtain ⟨i, -, rfl⟩ := mem_class.mp member
      exact ((listing.map Prod.fst).nodup_iff.mpr classed.nodup).sublist (filter_sublist.map _)
    · refine pairwise_map.mpr (pairwise_lt_range.imp fun less v one two => ?_)
      exact Nat.ne_of_lt less (unique (mem_listed.mp one) (mem_listed.mp two))
  · rw [mem_flatten, mem_map]
    constructor
    · rintro ⟨c, member, inside⟩
      obtain ⟨i, -, rfl⟩ := mem_class.mp member
      exact ⟨(v, i), mem_listed.mp inside, rfl⟩
    · rintro ⟨⟨v, i⟩, member, rfl⟩
      exact ⟨_, mem_class.mpr ⟨i, classed.bound _ member, rfl⟩, mem_listed.mpr member⟩
  · intro c member
    obtain ⟨i, below, rfl⟩ := mem_class.mp member
    obtain ⟨⟨v, i⟩, marks, rfl⟩ := classed.used i below
    exact ne_nil_of_mem (mem_listed.mpr marks)
  · intro u known v
    obtain ⟨⟨u, i⟩, member, rfl⟩ := mem_map.mp known
    constructor
    · rintro ⟨c, isClass, one, two⟩
      obtain ⟨j, -, rfl⟩ := mem_class.mp isClass
      exact (classed.same _ (mem_listed.mp one) _ (mem_listed.mp two)).mp rfl
    · intro path
      obtain ⟨⟨v, j⟩, member', rfl⟩ := mem_map.mp (classed.closed _ member v path)
      obtain rfl : i = j := (classed.same _ member _ member').mpr path
      exact ⟨_, mem_class.mpr ⟨i, classed.bound _ member, rfl⟩, mem_listed.mpr member,
          mem_listed.mpr member'⟩

end Marks

section Graph

variable {csr : CSR × CSR} {G : LabelledGraph} {predSet : List Nat}

theorem Stores.mem_allNeighbours (stores : Stores csr G) {v w : Int} (vertex : v ∈ G.vertices) :
    w ∈ allNeighbours csr predSet v ↔ G.Step false predSet v w := by
  simp only [allNeighbours, mem_flatMap, List.mem_append, stores.out vertex, stores.into vertex,
      LabelledGraph.Step]
  simp [true_and, or_comm]

theorem vertex_of_path {v b : Int} (vertex : v ∈ G.vertices)
    (path : ReflTransGen (G.Step false predSet) v b) :
    b ∈ G.vertices := by
  rcases path.cases_tail with rfl | ⟨c, -, step⟩
  · exact vertex
  · exact step.target

variable (stores : Stores csr G) {turns : Nat} (enough : G.vertices.card < turns)
include stores enough

theorem Stores.traverse_neighbours {v : Int}
    (vertex : v ∈ G.vertices) :
    ∃ visited, traverse (allNeighbours csr predSet) turns [v] [v] = some visited ∧
      visited.Nodup ∧ ∀ b, b ∈ visited ↔ ReflTransGen (G.Step false predSet) v b := by
  obtain ⟨visited, ended, nodup, reached⟩ :=
      @traverse_ends _ _ (allNeighbours csr predSet) _ _ vertex fun a inside b near =>
    ((stores.mem_allNeighbours inside).mp near).target
  refine ⟨visited, ended turns enough, nodup,
      fun b => (reached b).trans ⟨fun path => ?_, fun path => ?_⟩⟩
  · induction path with
    | refl => exact .refl
    | tail _ near ih =>
      exact ih.tail ((stores.mem_allNeighbours (vertex_of_path vertex ih)).mp near)
  · exact ReflTransGen.mono
      (fun a b step => (stores.mem_allNeighbours step.source).mpr step) _ _ path

theorem wccTurns_spec {vs : List Int} (vertices : ∀ v ∈ vs, v ∈ G.vertices)
    {marks : List (Int × Nat)} {wccid : Nat}
    (classed : Classed (G.Step false predSet) marks wccid)
    (inside : ∀ p ∈ marks, p.1 ∈ G.vertices) :
    ∃ marks' wccid', vs.foldlM (wccTurn csr predSet turns) (marks, wccid) = some (marks', wccid') ∧
      Classed (G.Step false predSet) marks' wccid' ∧ (∀ p ∈ marks', p.1 ∈ G.vertices) ∧
        ∀ v, v ∈ marks.map Prod.fst ∨ v ∈ vs → v ∈ marks'.map Prod.fst := by
  induction vs generalizing marks wccid with
  | nil => exact ⟨marks, wccid, rfl, classed, inside, by simp⟩
  | cons v vs ih =>
    obtain ⟨vertex, vertices⟩ := forall_mem_cons.mp vertices
    rw [foldlM_cons]
    by_cases known : v ∈ marks.map Prod.fst
    · obtain ⟨marks', wccid', done, classed', inside', all⟩ := ih vertices classed inside
      refine ⟨marks', wccid', by rw [wccTurn, if_pos known]; exact done, classed', inside', fun w => ?_⟩
      rintro (old | here)
      · exact all w (.inl old)
      · rcases mem_cons.mp here with rfl | later
        · exact all w (.inl known)
        · exact all w (.inr later)
    · obtain ⟨visited, ended, nodup, reached⟩ :=
        @Stores.traverse_neighbours _ _ predSet stores _ enough _ vertex
      obtain ⟨same, classed⟩ := classed.append (fun _ _ => step_symm) known nodup reached
      obtain ⟨marks', wccid', done, classed', inside', all⟩ := ih vertices classed (by
        intro p member
        rcases List.mem_append.mp member with old | now
        · exact inside p old
        · obtain ⟨a, found, rfl⟩ := mem_map.mp now
          exact vertex_of_path vertex ((reached a).mp found))
      refine ⟨marks', wccid', ?_, classed', inside', fun w => ?_⟩
      · rw [wccTurn, if_neg known, ended, Option.map_some, same]
        exact done
      · rw [List.map_append, List.map_map] at all
        rintro (old | here)
        · exact all w (.inl (mem_append_left _ old))
        · rcases mem_cons.mp here with rfl | later
          · exact all w (.inl (mem_append_right _
                (by simpa [Function.comp_def] using (reached w).mpr .refl)))
          · exact all w (.inr later)

end Graph

/-- The lists are a partition of the vertices into classes of connected ones. -/
structure IsPartition (n : Nat) (connected : Int → Int → Prop) (classes : List (List Int)) :
    Prop where
  all : classes.flatten.Perm ((List.range n).map Int.ofNat)
  nonempty : ∀ c ∈ classes, c ≠ []
  together : ∀ u v, IsVertex n u → IsVertex n v → ((∃ c ∈ classes, u ∈ c ∧ v ∈ c) ↔ connected u v)

theorem wcc_components {csr : CSR × CSR} {G : LabelledGraph} (stores : Stores csr G)
    (vertices : ∀ v, v ∈ G.vertices ↔ IsVertex csr.2.n v) (predSet : List Nat)
    {order : List (Int × Nat) → List (Int × Nat)}
    (listing : ∀ l, (order l).Perm l) {turns : Nat} (enough : csr.2.n < turns) :
    ∃ classes, WCC turns order csr predSet = some classes ∧
      IsPartition csr.2.n (ReflTransGen (G.Step false predSet)) classes := by
  have listed : ∀ v, v ∈ (List.range csr.2.n).map Int.ofNat ↔ v ∈ G.vertices := by
    intro v
    rw [vertices, IsVertex, mem_map]
    constructor
    · rintro ⟨i, below, rfl⟩
      exact isVertex_cast (mem_range.mp below)
    · rintro ⟨nonneg, below⟩
      exact ⟨v.toNat, mem_range.mpr (by omega), Int.toNat_of_nonneg nonneg⟩
  have nodup : ((List.range csr.2.n).map Int.ofNat).Nodup :=
    nodup_range.map fun a b same => Int.ofNat.inj same
  have same : ((List.range csr.2.n).map Int.ofNat).toFinset = G.vertices :=
    Finset.ext fun v => mem_toFinset.trans (listed v)
  have card : G.vertices.card = csr.2.n := by
    rw [← same, toFinset_card_of_nodup nodup, length_map, length_range]
  have start : Classed (G.Step false predSet) [] 0 :=
    ⟨nodup_nil, by simp, by simp, fun i below => absurd below (Nat.not_lt_zero i), by simp⟩
  obtain ⟨marks, wccid, done, classed, inside, all⟩ := wccTurns_spec stores (card ▸ enough)
    (fun v member => (listed v).mp member) start (by simp)
  have keys : ∀ v, v ∈ marks.map Prod.fst ↔ v ∈ (List.range csr.2.n).map Int.ofNat := by
    refine fun v => ⟨fun known => ?_, fun member => all v (.inr member)⟩
    obtain ⟨p, member, rfl⟩ := mem_map.mp known
    exact (listed _).mpr (inside p member)
  obtain ⟨flat, nonempty, together⟩ := classed.classes (listing marks)
  refine ⟨_, by rw [WCC, done]; rfl, flat.trans ((perm_ext_iff_of_nodup classed.nodup nodup).mpr keys), nonempty, ?_⟩
  exact fun u v vertex _ => together u ((keys u).mpr ((listed u).mpr ((vertices u).mpr vertex))) v

theorem twoLabels_wcc : ∃ classes, WCC 4 id (twoLabels.loadCSR 2) [1] = some classes ∧
    IsPartition 3 (ReflTransGen
      ((entityGraph {0, 1, 2} {⟨0, 0, 1⟩, ⟨1, 0, 2⟩, ⟨2, 0, 0⟩, ⟨0, 1, 1⟩}).Step false [1]))
      classes :=
  wcc_components twoLabels_stores twoLabels_vertices [1] (fun _ => List.Perm.refl _)
    (show 3 < 4 by decide)

end GStore
