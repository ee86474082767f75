import GStore.Lib.Distance
import GStore.Lib.Loop
import GStore.Query.ShortestPath

/-! `kHopShortestPaths`: a breadth-first search records for each vertex the vertices before it on
shortest paths, `djstl_dfs` goes back along them from the goal, and then each vertex path is written
out with all choices of labels. -/
namespace GStore
open Lib List

structure Predecessors where
  queue : List Int
  visited : List Int
  disU : Int → Option Int
  disPre : Int → List Int

def recordEdge (tempU distance : Int) (st : (Int → Option Int) × (Int → List Int)) (t : Int) :
    (Int → Option Int) × (Int → List Int) :=
  match st.1 t with
  | none => (Function.update st.1 t (some distance), Function.update st.2 t (st.2 t ++ [tempU]))
  | some d =>
    if distance < d then (Function.update st.1 t (some distance), Function.update st.2 t [tempU])
    else if d = distance then
      if tempU ∈ st.2 t then st else (st.1, Function.update st.2 t (st.2 t ++ [tempU]))
    else st

def Predecessors.push (st : Predecessors) (m : Int) : Predecessors :=
  if m ∈ st.visited then st else { st with queue := st.queue ++ [m], visited := st.visited ++ [m] }

def Predecessors.turn (csr : CSR × CSR) (directed : Bool) (predSet : List Nat) (st : Predecessors) :
    Option Predecessors :=
  match st.queue with
  | [] => none
  | tempU :: queue =>
    let next := (around csr.1 csr.2 directed predSet tempU).foldl
      (recordEdge tempU ((st.disU tempU).getD 0 + 1))
      (st.disU, st.disPre)
    some (((around csr.1 csr.2 directed predSet tempU).toFinset.sort (· ≤ ·)).foldl
        Predecessors.push
      ⟨queue, st.visited, next.1, next.2⟩)

/-- The paths that the call adds to `path_l`; `temp` has the vertices from the goal on, and is as
before on return. -/
def djstlDfs (uid : Int) (disL : Int → List Int) : Nat → Int → List Int → Option (List (List Int))
  | 0, _, _ => none
  | turns + 1, vid, temp =>
    if uid = vid then some [(temp ++ [vid]).reverse]
    else ((disL vid).mapM fun x => djstlDfs uid disL turns x (temp ++ [vid])).map List.flatten

def predL (csr : CSR × CSR) (directed : Bool) (predSet : List Nat) (u v : Int) : List Nat :=
  ((predSet.filter fun x => decide (v ∈ csr.1.verts u x) ||
      (!directed && decide (v ∈ csr.2.verts u x))).toFinset).sort (· ≤ ·)

def addLabels (preds : List Nat) (v : Int) (ans : List (List Int)) : List (List Int) :=
  if preds = [] then ans else preds.flatMap fun pred : Nat => ans.map (· ++ [(pred : Int), v])

def writeLabels (preds : Int → Int → List Nat) (vid : Int) :
    List Int → List (List Int) → List (List Int)
  | u :: v :: rest, ans =>
    if u = vid then ans else writeLabels preds vid (v :: rest) (addLabels (preds u v) v ans)
  | _, ans => ans

def kHopShortestPaths (csr : CSR × CSR) (turns : Nat) (uid vid : Int) (directed : Bool)
    (predSet : List Nat) :
    Option (List (List Int)) :=
  if uid = vid then some []
  else do
    let st ← loop (Predecessors.turn csr directed predSet) turns
      ⟨[uid], [uid], Function.update (fun _ => none) uid (some 0), fun _ => []⟩
    let pathL ← djstlDfs uid st.disPre turns vid []
    return pathL.flatMap fun path => writeLabels (predL csr directed predSet) vid path [[uid]]

section Predecessors

variable {G : LabelledGraph} {csr : CSR × CSR} {directed : Bool} {predSet : List Nat} {u : Int}

theorem foldl_predecessorsPush (ms : List Int) (st : Predecessors) : ms.foldl Predecessors.push st =
      { st with queue := st.queue ++ unseen st.visited ms, visited := st.visited ++ unseen st.visited ms } := by
  induction ms generalizing st with
  | nil => simp [unseen]
  | cons m ms ih =>
    rw [foldl_cons, unseen, Predecessors.push]
    split
    · exact ih st
    · rw [ih]
      simp

/-- `dis_u` has the distances of the vertices found, and `dis_pre` their finished predecessors. -/
structure Predecessors.Sound (r : Int → Int → Prop) (u : Int) (st : Predecessors)
    (done : List Int) : Prop where
  bfs : Bfs r (fun _ => True) u done st.queue
  visited : st.visited = done ++ st.queue
  known : ∀ w ∈ st.visited, st.disU w = some (distance r u w : Int)
  unknown : ∀ w, w ∉ st.visited → st.disU w = none
  once : ∀ w, (st.disPre w).Nodup
  preds : ∀ w x, x ∈ st.disPre w ↔ x ∈ done ∧ r x w ∧ distance r u w = distance r u x + 1

/-- The loops over the edges of `v`, when the vertices `seen` have been looked at. -/
structure EdgesRecorded (r : Int → Int → Prop) (u v : Int) (done seen : List Int)
    (before : Int → Option Int)
    (st : (Int → Option Int) × (Int → List Int)) : Prop where
  known : ∀ w, st.1 w = if before w = none ∧
    w ∈ seen then some ((distance r u v : Int) + 1) else before w
  once : ∀ w, (st.2 w).Nodup
  preds : ∀ w x, x ∈ st.2 w ↔ (x ∈ done ∧ r x w ∧ distance r u w = distance r u x + 1) ∨
    (x = v ∧ w ∈ seen ∧ distance r u w = distance r u v + 1)

section Edges

variable {r : Int → Int → Prop} {v : Int} {done seen : List Int} {before : Int → Option Int}
  {st : (Int → Option Int) × (Int → List Int)} (fresh : v ∉ done)
  (values : ∀ w d, before w = some d → d = distance r u w)

include fresh in
theorem EdgesRecorded.add (recorded : EdgesRecorded r u v done seen before st) {t : Int}
    (absent : v ∉ st.2 t)
    (further : distance r u t = distance r u v + 1) {dis : Int → Option Int}
    (known : ∀ w, dis w = if before w = none ∧
        w ∈ seen ++ [t] then some ((distance r u v : Int) + 1) else before w) :
    EdgesRecorded r u v done (seen ++ [t]) before
      (dis, Function.update st.2 t (st.2 t ++ [v])) where
  known := known
  once w := by
    obtain rfl | same := eq_or_ne w t
    · simp only [Function.update_self]
      exact nodup_append.mpr ⟨recorded.once w, nodup_singleton v, fun a old b new equal =>
        absent (mem_singleton.mp new ▸ equal ▸ old)⟩
    · simp only [Function.update_of_ne same]
      exact recorded.once w
  preds w x := by
    obtain rfl | same := eq_or_ne w t
    · simp only [Function.update_self, mem_append, mem_singleton, recorded.preds, or_true, true_and]
      constructor
      · rintro ((old | ⟨rfl, -, away⟩) | rfl)
        · exact .inl old
        · exact .inr ⟨rfl, away⟩
        · exact .inr ⟨rfl, further⟩
      · rintro (old | ⟨rfl, -⟩)
        · exact .inl (.inl old)
        · exact .inr rfl
    · simp [mem_append, recorded.preds, same, or_false]

include fresh values in
theorem EdgesRecorded.edge (recorded : EdgesRecorded r u v done seen before st) {t : Int}
    (upper : distance r u t ≤ distance r u v + 1)
      (new : before t = none → distance r u t = distance r u v + 1) :
    EdgesRecorded r u v done (seen ++ [t]) before
        (recordEdge v ((distance r u v : Int) + 1) st t) := by
  have value := recorded.known t
  -- a vertex with a record keeps it
  have keeps : ∀ d, st.1 t = some d → ∀ w,
      st.1 w = if before w = none ∧ w ∈ seen ++ [t] then some
          ((distance r u v : Int) + 1) else before w := by
    intro d record w
    rw [recorded.known w]
    obtain rfl | same := eq_or_ne w t
    · by_cases none : before w = none
      · by_cases listed : w ∈ seen
        · simp [none, listed]
        · rw [value, if_neg (fun both => listed both.2), none] at record
          cases record
      · simp [none]
    · simp [same]
  unfold recordEdge
  cases record : st.1 t with
  | none =>
    have none : before t = none := by
      rw [value] at record
      split at record
      · cases record
      · exact record
    have unlisted : t ∉ seen := by
      intro listed
      rw [value, if_pos ⟨none, listed⟩] at record
      cases record
    refine recorded.add fresh (fun member => ?_) (new none) fun w => ?_
    · rcases (recorded.preds t v).mp member with ⟨old, -⟩ | ⟨-, listed, -⟩
      · exact fresh old
      · exact unlisted listed
    · obtain rfl | same := eq_or_ne w t
      · simp [none]
      · rw [Function.update_of_ne same, recorded.known w]
        simp [same]
  | some d =>
    have exactly : d = distance r u t := by
      rw [value] at record
      split_ifs at record with both
      · rw [new both.1, ← Option.some.inj record]
        push_cast
        rfl
      · exact values t d record
    dsimp only
    rw [if_neg (by omega)]
    split
    · rename_i away
      have further : distance r u t = distance r u v + 1 := by omega
      split
      · rename_i member
        refine ⟨keeps d record, recorded.once, fun w x => ?_⟩
        rw [recorded.preds]
        obtain rfl | same := eq_or_ne w t
        · have listed := (recorded.preds w v).mp member
          simp only [mem_append, mem_singleton, or_true, true_and]
          constructor
          · rintro (old | ⟨rfl, -, away⟩)
            · exact .inl old
            · exact .inr ⟨rfl, away⟩
          · rintro (old | ⟨rfl, -⟩)
            · exact .inl old
            · exact listed
        · simp [same]
      · rename_i absent
        exact recorded.add fresh absent further (keeps d record)
    · rename_i nearer
      refine ⟨keeps d record, recorded.once, fun w x => ?_⟩
      rw [recorded.preds]
      obtain rfl | same := eq_or_ne w t
      · have no : ¬ distance r u w = distance r u v + 1 := by omega
        simp [no]
      · simp [same]

include fresh values in
theorem EdgesRecorded.edges (recorded : EdgesRecorded r u v done seen before st) (ns : List Int)
    (upper : ∀ t ∈ ns, distance r u t ≤ distance r u v + 1)
    (new : ∀ t ∈ ns, before t = none → distance r u t = distance r u v + 1) :
    EdgesRecorded r u v done (seen ++ ns) before
        (ns.foldl (recordEdge v ((distance r u v : Int) + 1)) st) := by
  induction ns generalizing st seen with
  | nil => simpa using recorded
  | cons t ns ih =>
    have next := ih (recorded.edge fresh values (upper t mem_cons_self) (new t mem_cons_self))
      (fun w later => upper w (mem_cons_of_mem t later)) fun w later => new w
        (mem_cons_of_mem t later)
    rw [append_assoc, singleton_append] at next
    exact next

end Edges

theorem Predecessors.Sound.turn (stores : Stores csr G) (source : u ∈ G.vertices)
    {st next : Predecessors} {done : List Int}
    (sound : st.Sound (G.Step directed predSet) u done)
      (taken : st.turn csr directed predSet = some next) :
    ∃ v, next.Sound (G.Step directed predSet) u (done ++ [v]) := by
  unfold Predecessors.turn at taken
  cases shape : st.queue with
  | nil => simp [shape] at taken
  | cons v queue =>
    rw [shape] at taken
    have bfs := sound.bfs
    have visited := sound.visited
    rw [shape] at bfs visited
    have reachV := bfs.reach v (by simp)
    have vertex := reach_vertex source reachV
    have here := sound.known v (by simp [visited])
    have heads : ∀ w, w ∈ around csr.1 csr.2 directed predSet v ↔ G.Step directed predSet v w :=
        fun w =>
      stores.mem_around vertex
    have fresh : v ∉ done := fun old => (nodup_append.mp bfs.nodup).2.2 v old v mem_cons_self rfl
    have further : ∀ t, G.Step directed predSet v t → st.disU t = none →
        distance (G.Step directed predSet) u t = distance (G.Step directed predSet) u v + 1 := by
      intro t step none
      refine bfs.new_distance (fun _ _ _ _ => trivial) step fun found => ?_
      rw [← visited] at found
      rw [sound.known t found] at none
      cases none
    have values : ∀ w d, st.disU w = some d → d = distance (G.Step directed predSet) u w := by
      intro w d record
      by_cases found : w ∈ st.visited
      · rw [sound.known w found] at record
        exact (Option.some.inj record).symm
      · rw [sound.unknown w found] at record
        cases record
    have start : EdgesRecorded (G.Step directed predSet) u v done [] st.disU (st.disU, st.disPre) :=
      ⟨fun w => by simp, sound.once, fun w x => by simp [sound.preds]⟩
    have recorded := start.edges fresh values (around csr.1 csr.2 directed predSet v)
      (fun t listed => reachV.distance_succ_le ((heads t).mp listed)) fun t listed => further t
        ((heads t).mp listed)
    simp only [here, Option.getD_some, foldl_predecessorsPush, Option.some.injEq] at taken
    obtain ⟨after, same⟩ : ∃ after, (around csr.1 csr.2 directed predSet v).foldl
        (recordEdge v ((distance (G.Step directed predSet) u v : Int) + 1))
          (st.disU, st.disPre) = after := ⟨_, rfl⟩
    rw [same] at recorded taken
    obtain ⟨ms, listed, members⟩ :
      ∃ ms, (around csr.1 csr.2 directed predSet v).toFinset.sort (· ≤ ·) = ms ∧
        ∀ w, w ∈ ms ↔ G.Step directed predSet v w :=
      ⟨_, rfl, fun w => by rw [Finset.mem_sort, mem_toFinset, heads]⟩
    rw [listed, visited] at taken
    have none_iff : ∀ w, st.disU w = none ↔ w ∉ done ++ v :: queue := by
      intro w
      rw [← visited]
      constructor
      · intro none found
        rw [sound.known w found] at none
        cases none
      · exact sound.unknown w
    rw [← taken]
    refine ⟨v, bfs.step_unseen
        members, by simp, fun w found => ?_, fun w missing => ?_, recorded.once, fun w x => ?_⟩
    · dsimp only at found ⊢
      rw [recorded.known w, nil_append]
      rcases mem_append.mp found with old | new
      · rw [if_neg (fun both => (none_iff w).mp both.1 old), sound.known w (visited ▸ old)]
      · obtain ⟨listed, away⟩ := mem_unseen.mp new
        have step := (members w).mp listed
        have none := (none_iff w).mpr away
        rw [if_pos ⟨none, (heads w).mpr step⟩, further w step none]
        push_cast
        rfl
    · dsimp only at missing ⊢
      rw [mem_append, not_or] at missing
      rw [recorded.known w, nil_append, if_neg]
      · exact (none_iff w).mpr missing.1
      · rintro ⟨-, listed⟩
        exact missing.2 (mem_unseen.mpr ⟨(members w).mpr ((heads w).mp listed), missing.1⟩)
    · dsimp only
      rw [recorded.preds, nil_append, heads, mem_append, mem_singleton]
      constructor
      · rintro (⟨old, step, away⟩ | ⟨rfl, step, away⟩)
        · exact ⟨.inl old, step, away⟩
        · exact ⟨.inr rfl, step, away⟩
      · rintro ⟨old | rfl, step, away⟩
        · exact .inl ⟨old, step, away⟩
        · exact .inr ⟨rfl, step, away⟩

theorem predecessors_spec (stores : Stores csr G) (source : u ∈ G.vertices) {turns : Nat}
    (enough : G.vertices.card < turns) :
    ∃ st, loop (Predecessors.turn csr directed predSet) turns
        ⟨[u], [u], Function.update (fun _ => none) u (some 0), fun _ => []⟩ = some st ∧
          (∀ w, (st.disPre w).Nodup) ∧
      ∀ w x, x ∈ st.disPre w ↔ Reach (G.Step directed predSet) u x ∧ G.Step directed predSet x w ∧
        distance (G.Step directed predSet) u w = distance (G.Step directed predSet) u x + 1 := by
  have closed : ∀ v w, G.Step directed predSet v w → w ∈ G.vertices := fun _ _ step => step.target
  have start : Predecessors.Sound (G.Step directed predSet) u
      ⟨[u], [u], Function.update (fun _ => none) u (some 0), fun _ => []⟩ [] := by
    refine ⟨.init trivial, rfl, fun w found => ?_, fun w missing => ?_, fun w => nodup_nil,
        fun w x => by simp⟩
    · rw [mem_singleton.mp found, distance_self]
      simp
    · have apart : w ≠ u := fun same => missing (mem_singleton.mpr same)
      simp [apart]
  obtain ⟨st, ended, ⟨done, sound⟩, stopped⟩ :=
    @loop_ends _ (Predecessors.turn csr directed predSet)
    (fun st => ∃ done, Predecessors.Sound (G.Step directed predSet) u st done)
    (fun st => G.vertices.card - (st.visited.length - st.queue.length))
    (fun st next ⟨done, sound⟩ taken => by
      obtain ⟨v, after⟩ := sound.turn stores source taken
      have room := after.bfs.length_le source closed
      refine ⟨⟨_, after⟩, ?_⟩
      rw [sound.visited, after.visited]
      simp only [length_append, length_singleton] at room ⊢
      omega)
    _ ⟨[], start⟩ turns (by simpa using enough)
  have empty : st.queue = [] := by
    cases shape : st.queue with
    | nil => rfl
    | cons v queue => simp [Predecessors.turn, shape] at stopped
  have bfs := sound.bfs
  rw [empty] at bfs
  refine ⟨st, ended, sound.once, fun w x => ?_⟩
  rw [sound.preds, bfs.complete fun _ _ _ _ => trivial, and_true]

end Predecessors

inductive Visits (r : Int → Int → Prop) (u : Int) : List Int → Nat → Int → Prop where
  | single : Visits r u [u] 0 u
  | snoc {path : List Int} {n : Nat} {v w : Int} : Visits r u path n v → r v w → Visits r u (path ++ [w]) (n + 1) w

section Dfs

variable {r : Int → Int → Prop} {u : Int} {path : List Int} {n : Nat} {v : Int}

theorem Visits.walk (visits : Visits r u path n v) : Walk r u n v := by
  induction visits with
  | single => exact .refl
  | snoc _ step ih => exact ih.tail step

theorem Visits.last (visits : Visits r u path n v) : path.getLast? = some v := by
  cases visits <;> simp

theorem djstlDfs_spec {pre : Int → List Int} (once : ∀ w, (pre w).Nodup)
    (preds : ∀ w x, x ∈ pre w ↔ Reach r u x ∧ r x w ∧ distance r u w = distance r u x + 1)
      {turns : Nat} {w : Int}
    (reach : Reach r u w) (enough : distance r u w < turns) (temp : List Int) :
    ∃ L : List (List Int), djstlDfs u pre turns w temp = some (L.map (· ++ temp.reverse)) ∧
      L.Nodup ∧
      ∀ p, p ∈ L ↔ Visits r u p (distance r u w) w := by
  induction turns generalizing w temp with
  | zero => omega
  | succ turns ih =>
    rw [djstlDfs]
    split
    · rename_i same
      subst same
      refine ⟨[[u]], by simp, nodup_singleton _, fun p => ?_⟩
      rw [distance_self, mem_singleton]
      constructor
      · rintro rfl
        exact .single
      · intro visits
        cases visits
        rfl
    · rename_i ne
      have ne : w ≠ u := fun same => ne same.symm
      have calls : ∀ x, ∃ L : List (List Int), x ∈ pre w →
        djstlDfs u pre turns x (temp ++ [w]) = some (L.map (· ++ (temp ++ [w]).reverse)) ∧
          L.Nodup ∧ ∀ p, p ∈ L ↔ Visits r u p (distance r u x) x := by
        intro x
        by_cases member : x ∈ pre w
        · obtain ⟨reachX, -, away⟩ := (preds w x).mp member
          obtain ⟨L, spec⟩ := ih reachX (by omega) (temp ++ [w])
          exact ⟨L, fun _ => spec⟩
        · exact ⟨[], fun again => absurd again member⟩
      choose L spec using calls
      have ran : (pre w).mapM (fun x => djstlDfs u pre turns x (temp ++ [w])) =
          some ((pre w).map fun x => (L x).map (· ++ (temp ++ [w]).reverse)) :=
        mapM_eq_map fun x member => (spec x member).1
      refine ⟨(pre w).flatMap fun x => (L x).map (· ++ [w]), ?_, ?_, fun p => ?_⟩
      · rw [ran, Option.map_some, flatMap_def, map_flatten, map_map]
        congr 2
        refine map_congr_left fun x _ => ?_
        simp
      · refine nodup_flatMap.mpr
          ⟨fun x member => ?_, (once w).pairwise_of_forall_ne fun x member y other apart => ?_⟩
        · exact (spec x member).2.1.map fun a b same => append_cancel_right same
        · intro p left right
          obtain ⟨a, inX, rfl⟩ := mem_map.mp left
          obtain ⟨b, inY, same⟩ := mem_map.mp right
          have lastX := (((spec x member).2.2 a).mp inX).last
          have lastY := (((spec y other).2.2 b).mp inY).last
          rw [append_cancel_right same, lastX] at lastY
          exact apart (Option.some.inj lastY)
      · rw [mem_flatMap]
        constructor
        · rintro ⟨x, member, listed⟩
          obtain ⟨a, inX, rfl⟩ := mem_map.mp listed
          obtain ⟨-, step, away⟩ := (preds w x).mp member
          rw [away]
          exact (((spec x member).2.2 a).mp inX).snoc step
        · intro visits
          obtain ⟨m, positive⟩ : ∃ m, distance r u w = m + 1 :=
            ⟨distance r u w - 1, by have := mt reach.distance_eq_zero.mp ne; omega⟩
          rw [positive] at visits
          cases visits with
          | @snoc a _ x _ before step =>
            have reachX : Reach r u x := ⟨_, before.walk⟩
            have upper := before.walk.distance_le
            have lower := reachX.distance_succ_le step
            have member : x ∈ pre w := (preds w x).mpr ⟨reachX, step, by omega⟩
            have exactly : distance r u x = m := by omega
            exact ⟨x, member, mem_map.mpr ⟨a, ((spec x member).2.2 a).mpr (exactly ▸ before), rfl⟩⟩

theorem djstlDfs_unreached {pre : Int → List Int}
    (preds : ∀ w x, x ∈ pre w ↔ Reach r u x ∧ r x w ∧ distance r u w = distance r u x + 1)
      {turns : Nat} {w : Int}
    (far : ¬ Reach r u w) (enough : 0 < turns) : djstlDfs u pre turns w [] = some [] := by
  obtain ⟨turns, rfl⟩ : ∃ t, turns = t + 1 := ⟨turns - 1, by omega⟩
  have none : pre w = [] := eq_nil_iff_forall_not_mem.mpr fun x member =>
    far (((preds w x).mp member).1.tail ((preds w x).mp member).2.1)
  rw [djstlDfs, if_neg, none]
  · rfl
  · rintro rfl
    exact far .refl

end Dfs

section Labels

def verticesOf : List Int → List Int
  | [] => []
  | [v] => [v]
  | v :: _ :: rest => v :: verticesOf rest

variable {R : Int → Int → Int → Prop} {u v : Int} {q : List Int} {n : Nat}

theorem Written.verticesOf_snoc (written : Written R u q n v) (c w : Int) :
    verticesOf (q ++ [c, w]) = verticesOf q ++ [w] := by
  have odd : ∀ q : List Int, q.length % 2 = 1 → verticesOf (q ++ [c, w]) = verticesOf q ++ [w] := by
    intro q
    induction q using verticesOf.induct with
    | case1 => simp
    | case2 v => simp [verticesOf]
    | case3 v c' rest ih =>
      intro length
      simp only [length_cons] at length
      simp [cons_append, verticesOf, ih (by omega)]
  refine odd q ?_
  induction written with
  | single => rfl
  | snoc _ _ ih =>
    simp only [length_append, length_cons, length_nil]
    omega

theorem Written.verticesOf_last (written : Written R u q n v) :
    (verticesOf q).getLast? = some v := by
  cases written with
  | single => rfl
  | snoc before _ => simp [before.verticesOf_snoc]

theorem Written.visits {r : Int → Int → Prop} (steps : ∀ c x w, R c x w → r x w)
    (written : Written R u q n v) :
    Visits r u (verticesOf q) n v := by
  induction written with
  | single => exact .single
  | snoc before step ih =>
    rw [before.verticesOf_snoc]
    exact ih.snoc (steps _ _ _ step)

theorem addLabels_spec {preds : List Nat} {path : List Int} {w : Int} {ans : List (List Int)}
    (filled : preds ≠ [])
    (labels : ∀ c, R c v w ↔ ∃ p : Nat, p ∈ preds ∧ c = p) (distinct : preds.Nodup)
      (end_ : path.getLast? = some v)
    (once : ans.Nodup) (members : ∀ q, q ∈ ans ↔ Written R u q n v ∧ verticesOf q = path) :
    (addLabels preds w ans).Nodup ∧
      ∀ q, q ∈ addLabels preds w ans ↔ Written R u q (n + 1) w ∧ verticesOf q = path ++ [w] := by
  rw [addLabels, if_neg filled]
  constructor
  · refine nodup_flatMap.mpr ⟨fun p _ => once.map fun a b same => append_cancel_right same, ?_⟩
    refine distinct.imp ?_
    intro p p' ne q left right
    obtain ⟨a, -, rfl⟩ := mem_map.mp left
    obtain ⟨b, -, same⟩ := mem_map.mp right
    have tails := append_inj_right' same rfl
    simp only [List.cons.injEq, Nat.cast_inj, and_true] at tails
    exact ne tails.symm
  · intro q
    rw [mem_flatMap]
    constructor
    · rintro ⟨p, member, listed⟩
      obtain ⟨a, inside, rfl⟩ := mem_map.mp listed
      obtain ⟨written, vertices⟩ := (members a).mp inside
      exact ⟨written.snoc ((labels p).mpr
          ⟨p, member, rfl⟩), by rw [written.verticesOf_snoc, vertices]⟩
    · rintro ⟨written, vertices⟩
      cases written with
      | @snoc a _ c x _ before step =>
        rw [before.verticesOf_snoc] at vertices
        have front := append_cancel_right vertices
        have same : x = v := by
          have last := before.verticesOf_last
          rw [front, end_] at last
          exact (Option.some.inj last).symm
        subst same
        obtain ⟨p, member, rfl⟩ := (labels c).mp step
        exact ⟨p, member, mem_map.mpr ⟨a, (members a).mpr ⟨before, front⟩, rfl⟩⟩

theorem writeLabels_spec {preds : Int → Int → List Nat} {r : Int → Int → Prop} {goal : Int}
    (rest : List Int) {v : Int}
    {path : List Int} {ans : List (List Int)} (filled : ∀ x w, r x w → preds x w ≠ [])
    (labels : ∀ x w c, r x w → (R c x w ↔ ∃ p : Nat, p ∈ preds x w ∧ c = p))
      (distinct : ∀ x w, (preds x w).Nodup)
    (chain : (v :: rest).IsChain r) (inner : ∀ x ∈ (v :: rest).dropLast, x ≠ goal)
      (end_ : path.getLast? = some v)
    (once : ans.Nodup) (members : ∀ q, q ∈ ans ↔ Written R u q n v ∧ verticesOf q = path) :
    (writeLabels preds goal (v :: rest) ans).Nodup ∧ ∀ q, q ∈ writeLabels preds goal
      (v :: rest) ans ↔
      Written R u q (n + rest.length)
          ((v :: rest).getLast (by simp)) ∧ verticesOf q = path ++ rest := by
  induction rest generalizing v path n ans with
  | nil => simpa [writeLabels] using ⟨once, members⟩
  | cons w rest ih =>
    obtain ⟨step, later⟩ := isChain_cons_cons.mp chain
    have away : v ≠ goal := inner v (by simp)
    obtain ⟨nodup, spec⟩ := @addLabels_spec R u v n (preds v w) path w ans (filled v w step)
      (fun c => labels v w c step)
      (distinct v w) end_ once members
    have next := @ih (n + 1) w (path ++ [w]) _ later
      (fun x member => inner x (by simp [dropLast_cons_of_ne_nil, member]))
      (by simp) nodup spec
    rw [writeLabels, if_neg away]
    simpa only [append_assoc, singleton_append, length_cons, Nat.add_assoc, Nat.add_comm 1,
      getLast_cons_cons] using next

end Labels

theorem predL_spec {G : LabelledGraph} {csr : CSR × CSR} {directed : Bool} {predSet : List Nat}
    (stores : Stores csr G) {x w : Int}
    (vertex : x ∈ G.vertices) : (predL csr directed predSet x w).Nodup ∧
      ∀ p, p ∈ predL csr directed predSet x w ↔ G.LabelStep directed predSet p x w := by
  refine ⟨Finset.sort_nodup _ _, fun p => ?_⟩
  rw [predL, Finset.mem_sort, mem_toFinset, mem_filter, LabelledGraph.LabelStep]
  simp [stores.out vertex, stores.into vertex]

theorem Visits.chain {r : Int → Int → Prop} {u v : Int} {path : List Int} {n : Nat}
    (visits : Visits r u path n v) :
    ∃ rest, path = u :: rest ∧ path.IsChain r ∧ rest.length = n := by
  induction visits with
  | single => exact ⟨[], rfl, by simp, rfl⟩
  | @snoc path n v w before step ih =>
    obtain ⟨rest, rfl, chain, length⟩ := ih
    refine ⟨rest ++ [w], rfl, ?_, by simp [length]⟩
    refine isChain_append.mpr ⟨chain, by simp, fun x last y first => ?_⟩
    rw [before.last] at last
    cases last
    cases first
    exact step

theorem Visits.inner {r : Int → Int → Prop} {u v : Int} {path : List Int} {n : Nat}
    (visits : Visits r u path n v) :
    ∀ x ∈ path.dropLast, Reach r u x ∧ distance r u x < n := by
  induction visits with
  | single => simp
  | @snoc path n v w before step ih =>
    rw [dropLast_concat]
    intro x member
    obtain ⟨front, last⟩ : ∃ front, path = front ++ [v] := by
      obtain ⟨front, shape⟩ := getLast?_eq_some_iff.mp before.last
      exact ⟨front, shape⟩
    subst last
    rcases mem_append.mp member with inside | same
    · obtain ⟨reach, less⟩ := ih x (by simpa using inside)
      exact ⟨reach, by omega⟩
    · rw [mem_singleton.mp same]
      exact ⟨⟨_, before.walk⟩, Nat.lt_succ_of_le before.walk.distance_le⟩

/-- Each shortest path is returned once, as a sequence of vertices and labels, and nothing else; all
loops and the recursion end. -/
theorem kHopShortestPaths_correct {G : LabelledGraph} {csr : CSR × CSR} (stores : Stores csr G)
    {u v : Int}
    (first : u ∈ G.vertices) (ne : u ≠ v) (directed : Bool) (predSet : List Nat) {turns : Nat}
    (enough : G.vertices.card < turns) :
    ∃ ans, kHopShortestPaths csr turns u v directed predSet = some ans ∧ ans.Nodup ∧
      ∀ path, path ∈ ans ↔ Reach (G.Step directed predSet) u v ∧
        Written (G.Plain directed predSet) u path (distance (G.Step directed predSet) u v) v := by
  have closed : ∀ x w, G.Step directed predSet x w → w ∈ G.vertices := fun _ _ step => step.target
  obtain ⟨st, ended, once, preds⟩ :=
    @predecessors_spec G csr directed predSet u stores first turns enough
  rw [kHopShortestPaths, if_neg ne, ended]
  simp only [Option.bind_eq_bind, Option.bind_some]
  by_cases reach : Reach (G.Step directed predSet) u v
  · obtain ⟨L, ran, nodup, members⟩ := djstlDfs_spec once preds reach
      ((reach.distance_lt_card first closed).trans enough) []
    -- what the choice of labels makes of one vertex path
    have written : ∀ p ∈ L, (writeLabels (predL csr directed predSet) v p [[u]]).Nodup ∧
        ∀ q, q ∈ writeLabels (predL csr directed predSet) v p [[u]] ↔
          Written (G.Plain directed predSet) u q (distance (G.Step directed predSet) u v) v ∧
              verticesOf q = p := by
      intro p member
      have visits := (members p).mp member
      obtain ⟨rest, rfl, chain, length⟩ := visits.chain
      have spec := @writeLabels_spec (G.Plain directed predSet) u 0 (predL csr directed predSet)
        (G.Step directed predSet) v rest u
        [u] [[u]] (fun x w step => ?_) (fun x w c step => ?_)
          (fun x w => Finset.sort_nodup _ _) chain (fun x inside same => ?_) rfl
        (nodup_singleton _) (fun q => ?_)
      · have last := visits.last
        rw [getLast?_eq_getLast_of_ne_nil (by simp)] at last
        rw [Nat.zero_add, length, Option.some.inj last, singleton_append] at spec
        exact spec
      · obtain ⟨c, labelled⟩ := step_iff_label.mp step
        exact ne_nil_of_mem (((predL_spec stores step.source).2 c).mpr labelled)
      · constructor
        · rintro ⟨p, rfl, labelled⟩
          exact ⟨p, ((predL_spec stores step.source).2 p).mpr labelled, rfl⟩
        · rintro ⟨p, listed, rfl⟩
          exact ⟨p, rfl, ((predL_spec stores step.source).2 p).mp listed⟩
      · have := (visits.inner x inside).2
        rw [same] at this
        omega
      · rw [mem_singleton]
        constructor
        · rintro rfl
          exact ⟨.single, rfl⟩
        · rintro ⟨empty, -⟩
          cases empty
          rfl
    refine ⟨L.flatMap fun p => writeLabels (predL csr directed predSet) v p [[u]], ?_, ?_,
        fun path => ?_⟩
    · simp [ran]
    · refine nodup_flatMap.mpr ⟨fun p member => (written p member).1, ?_⟩
      refine nodup.pairwise_of_forall_ne fun p one p' two apart q left right => ?_
      exact apart ((((written p one).2 q).mp left).2.symm.trans (((written p' two).2 q).mp right).2)
    · rw [mem_flatMap]
      constructor
      · rintro ⟨p, member, listed⟩
        exact ⟨reach, (((written p member).2 path).mp listed).1⟩
      · rintro ⟨-, whole⟩
        have visits : Visits (G.Step directed predSet) u (verticesOf path) _ v :=
          whole.visits fun c x w ⟨p, _, step⟩ => step_iff_label.mpr ⟨p, step⟩
        have member := (members _).mpr visits
        exact ⟨verticesOf path, member, ((written _ member).2 path).mpr ⟨whole, rfl⟩⟩
  · rw [djstlDfs_unreached preds reach (by omega)]
    exact ⟨[], rfl, nodup_nil, fun path => iff_of_false not_mem_nil fun met => reach met.1⟩

theorem twoLabels_kHopShortestPaths :
    ∃ ans, kHopShortestPaths (twoLabels.loadCSR 2) 4 0 2 true [0, 1] = some ans ∧ ans.Nodup ∧
    ∀ path, path ∈ ans ↔
      Reach ((entityGraph {0, 1, 2} {⟨0, 0, 1⟩, ⟨1, 0, 2⟩, ⟨2, 0, 0⟩, ⟨0, 1, 1⟩}).Step true [0, 1])
        0 2 ∧
      Written ((entityGraph {0, 1, 2} {⟨0, 0, 1⟩, ⟨1, 0, 2⟩, ⟨2, 0, 0⟩, ⟨0, 1, 1⟩}).Plain true
          [0, 1]) 0 path
        (distance ((entityGraph {0, 1, 2} {⟨0, 0, 1⟩, ⟨1, 0, 2⟩, ⟨2, 0, 0⟩, ⟨0, 1, 1⟩}).Step true
              [0, 1]) 0 2) 2 :=
  kHopShortestPaths_correct twoLabels_stores (by decide) (by decide) true [0, 1] (by decide)

end GStore
