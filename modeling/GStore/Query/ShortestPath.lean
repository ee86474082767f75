import GStore.Lib.Distance
import GStore.Lib.Loop
import GStore.Query.LabelledGraph

/-! `shortestPath`: two searches, one from each end, take turns level by level and stop at the first
vertex that both have recorded, in the middle of a level. The path is found again from the recorded
distances. -/
namespace GStore
open Lib Function List

/-- The neighbours of a vertex in the order of the loops: for each label those of the main
direction, then the others. -/
def around (main other : CSR) (directed : Bool) (predSet : List Nat) (v : Int) : List Int :=
  predSet.flatMap fun x => main.verts v x ++ if directed then [] else other.verts v x

structure HalfSearch where
  dis : Int → Option Int
  newQ : List Int
  meetNode : Option Int

def HalfSearch.visit (otherDis : Int → Option Int) (temp : Int) (st : HalfSearch) (t : Int) :
    HalfSearch :=
  if st.meetNode.isSome then st
  else if (otherDis t).isSome then
    { st with meetNode := some t, dis := Function.update st.dis t (some ((st.dis temp).getD 0 + 1)) }
  else if (st.dis t).isSome then st
  else { st with newQ := st.newQ ++ [t], dis := Function.update st.dis t (some ((st.dis temp).getD 0 + 1)) }

def HalfSearch.expand (nbrs : Int → List Int) (otherDis : Int → Option Int) (q : List Int)
    (dis : Int → Option Int) :
    HalfSearch :=
  q.foldl (fun st temp => (nbrs temp).foldl (HalfSearch.visit otherDis temp) st) ⟨dis, [], none⟩

structure Meeting where
  disU : Int → Option Int
  disV : Int → Option Int
  qU : List Int
  qV : List Int
  meetNode : Option Int

def Meeting.turn (csr : CSR × CSR) (directed : Bool) (predSet : List Nat) (st : Meeting) :
    Option Meeting :=
  if st.meetNode.isSome ∨ (st.qU = [] ∧ st.qV = []) then none
  else
    let su := HalfSearch.expand (around csr.1 csr.2 directed predSet) st.disV st.qU st.disU
    if su.meetNode.isSome then some ⟨su.dis, st.disV, su.newQ, [], su.meetNode⟩
    else
      let sv := HalfSearch.expand (around csr.2 csr.1 directed predSet) su.dis st.qV st.disV
      some ⟨su.dis, sv.dis, su.newQ, sv.newQ, sv.meetNode⟩

/-- The loop that goes on to a vertex with the distance one less, until `goal`. Without such a
vertex it turns forever. -/
def route (edges : Int → List (Int × Int)) (dis : Int → Option Int) (goal : Int) :
    Nat → Int → Option (List (Int × Int))
  | 0, _ => none
  | turns + 1, temp =>
    if temp = goal then some []
    else
      match (edges temp).find? fun e => (dis e.2).isSome && (dis e.2).getD 0 == (dis temp).getD 0 - 1 with
      | none => route edges dis goal turns temp
      | some e => (route edges dis goal turns e.2).map (e :: ·)

/-- The stacks put the part behind the meeting point below it and the part before it, found from
behind, on top. -/
def shortestPath (csr : CSR × CSR) (turns : Nat) (uid vid : Int) (directed : Bool)
    (predSet : List Nat) : Option (List Int) :=
  if uid < 0 ∨ vid < 0 then some []
  else do
    let st ← loop (Meeting.turn csr directed predSet) turns
      ⟨Function.update (fun _ => none) uid (some 0), Function.update (fun _ => none) vid (some 0),
          [uid], [vid], none⟩
    match st.meetNode with
    | none => return []
    | some meetNode =>
      let behind ← route (signedEdges csr.1 csr.2 directed predSet) st.disV vid turns meetNode
      let before ← route (signedEdges csr.2 csr.1 directed predSet) st.disU uid turns meetNode
      return (before.reverse.flatMap fun e => [e.2, e.1]) ++ [meetNode] ++ behind.flatMap fun e =>
        [e.1, e.2]

def LabelledGraph.Signed (G : LabelledGraph) (directed : Bool) (predSet : List Nat) (c v w : Int) :
    Prop :=
  ∃ p ∈ predSet, (c = p ∧ G.edge p v w) ∨ (directed = false ∧ c = -(p : Int) - 1 ∧ G.edge p w v)

section Half

variable {r : Int → Int → Prop} {u : Int} {a : Nat} {nbrs : Int → List Int}
    {otherDis dis : Int → Option Int}

/-- The distances up to `a` have been recorded, and perhaps some of the next level. -/
structure Recorded (r : Int → Int → Prop) (u : Int) (a : Nat) (dis : Int → Option Int) : Prop where
  all : ∀ w, Reach r u w → distance r u w ≤ a → dis w = some (distance r u w : Int)
  sound : ∀ w d, dis w = some d → Reach r u w ∧ d = distance r u w ∧ distance r u w ≤ a + 1

/-- Exactly the distances up to `a` have been recorded, and the queue is the level `a`. -/
structure AtLevel (r : Int → Int → Prop) (u : Int) (a : Nat) (dis : Int → Option Int)
    (q : List Int) : Prop where
  recorded : ∀ w d, dis w = some d ↔ Reach r u w ∧ d = distance r u w ∧ distance r u w ≤ a
  queue : ∀ w, w ∈ q ↔ Reach r u w ∧ distance r u w = a

theorem AtLevel.toRecorded {q : List Int} (level : AtLevel r u a dis q) : Recorded r u a dis where
  all w reach close := (level.recorded w _).mpr ⟨reach, rfl, close⟩
  sound w d record := by
    obtain ⟨reach, same, close⟩ := (level.recorded w d).mp record
    exact ⟨reach, same, close.trans (Nat.le_succ a)⟩

theorem atLevel_zero (r : Int → Int → Prop) (u : Int) :
    AtLevel r u 0 (Function.update (fun _ => none) u (some 0)) [u] where
  recorded w d := by
    obtain rfl | same := eq_or_ne w u
    · simp [distance_self, Reach.refl, eq_comm]
    · rw [update_of_ne same]
      refine iff_of_false (by simp) ?_
      rintro ⟨reach, -, close⟩
      exact same (reach.distance_eq_zero.mp (Nat.le_zero.mp close))
  queue w := by
    rw [mem_singleton]
    constructor
    · rintro rfl
      exact ⟨.refl, distance_self⟩
    · exact fun met => met.1.distance_eq_zero.mp met.2

/-- A level in the middle of its expansion; `seen` are the vertices that have been looked at. -/
structure HalfSearch.Sound (r : Int → Int → Prop) (u : Int) (a : Nat) (otherDis : Int → Option Int)
    (seen : Int → Prop)
    (st : HalfSearch) : Prop where
  recorded : Recorded r u a st.dis
  newQ : st.meetNode = none → ∀ w, w ∈ st.newQ ↔ st.dis w = some ((a : Int) + 1)
  apart : st.meetNode = none → ∀ w, (st.dis w).isSome → otherDis w = none
  met : ∀ t, st.meetNode = some t → (otherDis t).isSome ∧ st.dis t = some ((a : Int) + 1)
  looked : st.meetNode = none → ∀ w, seen w → (st.dis w).isSome

theorem Recorded.extend {t : Int} (recorded : Recorded r u a dis) (reach : Reach r u t)
    (away : distance r u t = a + 1) :
    Recorded r u a (Function.update dis t (some ((a : Int) + 1))) where
  all w reachW close := by
    have ne : w ≠ t := by
      rintro rfl
      omega
    rw [update_of_ne ne]
    exact recorded.all w reachW close
  sound w d record := by
    obtain rfl | same := eq_or_ne w t
    · rw [update_self] at record
      cases record
      exact ⟨reach, by rw [away]; push_cast; rfl, away.le⟩
    · rw [update_of_ne same] at record
      exact recorded.sound w d record

variable {seen : Int → Prop} {st : HalfSearch}

section

variable (sound : st.Sound r u a otherDis seen)
include sound

theorem HalfSearch.Sound.visit {temp t : Int} (here : Reach r u temp ∧ distance r u temp = a)
    (step : r temp t) :
    (st.visit otherDis temp t).Sound r u a otherDis fun w => seen w ∨ w = t := by
  have value : (st.dis temp).getD 0 = a := by
    rw [sound.recorded.all temp here.1 here.2.le, here.2]
    rfl
  have reach := here.1.tail step
  have upper := here.1.distance_succ_le step
  have new : st.dis t = none → distance r u t = a + 1 := by
    intro absent
    by_contra nearer
    have stored := sound.recorded.all t reach (by omega)
    rw [absent] at stored
    cases stored
  unfold HalfSearch.visit
  rw [value]
  split
  · rename_i ended
    have not_none : st.meetNode ≠ none := Option.isSome_iff_ne_none.mp ended
    exact { sound with looked := fun none => absurd none not_none }
  · rename_i going
    have going : st.meetNode = none := by simpa using going
    split
    · rename_i other
      have absent : st.dis t = none := by
        cases record : st.dis t with
        | none => rfl
        | some d =>
          rw [sound.apart going t (by simp [record])] at other
          cases other
      refine ⟨sound.recorded.extend reach (new absent), fun none => ?_, fun none => ?_,
          fun w met => ?_, fun none => ?_⟩
      · cases none
      · cases none
      · obtain rfl := Option.some.inj met
        exact ⟨other, update_self ..⟩
      · cases none
    · rename_i other
      split
      · rename_i known
        refine { sound with looked := fun none w looked => ?_ }
        rcases looked with before | rfl
        · exact sound.looked none w before
        · exact known
      · rename_i unknown
        have absent : st.dis t = none := by simpa using unknown
        refine ⟨sound.recorded.extend reach (new absent), fun none w => ?_, fun none w record => ?_,
            fun w met => ?_, fun none w looked => ?_⟩
        · rw [mem_append, mem_singleton, sound.newQ going]
          by_cases same : w = t
          · simp [same]
          · simp [same]
        · obtain rfl | same := eq_or_ne w t
          · simpa using other
          · dsimp only at record
            rw [update_of_ne same] at record
            exact sound.apart going w record
        · rw [going] at met
          cases met
        · by_cases same : w = t
          · simp [same]
          · dsimp only
            rw [update_of_ne same]
            exact sound.looked going w (looked.resolve_right same)

theorem HalfSearch.Sound.visits {temp : Int}
    (here : Reach r u temp ∧ distance r u temp = a) (ns : List Int) (steps : ∀ t ∈ ns, r temp t) :
    (ns.foldl (HalfSearch.visit otherDis temp) st).Sound r u a otherDis fun w => seen w ∨
        w ∈ ns := by
  induction ns generalizing st seen with
  | nil => simpa using sound
  | cons t ns ih =>
    have next := ih (sound.visit here (steps t mem_cons_self)) fun w later => steps w
      (mem_cons_of_mem t later)
    rw [foldl_cons]
    simpa only [mem_cons, or_assoc] using next

theorem HalfSearch.Sound.levels (q : List Int)
    (level : ∀ v ∈ q, Reach r u v ∧ distance r u v = a) (steps : ∀ v ∈ q, ∀ t ∈ nbrs v, r v t) :
    (q.foldl (fun st temp => (nbrs temp).foldl (HalfSearch.visit otherDis temp) st) st).Sound r u a
      otherDis
      fun w => seen w ∨ ∃ v ∈ q, w ∈ nbrs v := by
  induction q generalizing st seen with
  | nil => simpa using sound
  | cons v q ih =>
    have next := ih (sound.visits (level v mem_cons_self) (nbrs v) (steps v mem_cons_self))
      (fun w later => level w (mem_cons_of_mem v later)) fun w later => steps w
        (mem_cons_of_mem v later)
    rw [foldl_cons]
    simpa only [exists_mem_cons_iff, or_assoc] using next

end

theorem expand_spec {q : List Int} (level : AtLevel r u a dis q)
    (nbrs_iff : ∀ v, Reach r u v → ∀ w, w ∈ nbrs v ↔ r v w)
    (apart : ∀ w, (dis w).isSome → otherDis w = none) :
    let st := HalfSearch.expand nbrs otherDis q dis
    (st.meetNode = none → AtLevel r u (a + 1) st.dis st.newQ ∧ ∀ w, (st.dis w).isSome →
        otherDis w = none) ∧
      ∀ t, st.meetNode = some t → Recorded r u a st.dis ∧ (otherDis t).isSome ∧
          st.dis t = some ((a : Int) + 1) := by
  have start : HalfSearch.Sound r u a otherDis (fun _ => False) ⟨dis, [], none⟩ := by
    refine ⟨level.toRecorded, fun _ w => ?_, fun _ => apart, fun t met => ?_,
        fun _ w false => false.elim⟩
    · refine iff_of_false not_mem_nil fun record => ?_
      obtain ⟨-, same, close⟩ := (level.recorded w _).mp record
      omega
    · cases met
  have sound := start.levels q (fun v member => (level.queue v).mp member) fun v member t listed =>
    (nbrs_iff v ((level.queue v).mp member).1 t).mp listed
  -- the last but one vertex of a shortest walk to the next level is in the queue
  have next : (HalfSearch.expand nbrs otherDis q dis).meetNode = none → ∀ w, Reach r u w →
    distance r u w = a + 1 →
      (HalfSearch.expand nbrs otherDis q dis).dis w = some ((a : Int) + 1) := by
    intro none w reach away
    have ne : w ≠ u := by
      rintro rfl
      rw [distance_self] at away
      omega
    obtain ⟨v, reachV, step, pred⟩ := reach.exists_pred ne
    have queued : v ∈ q := (level.queue v).mpr ⟨reachV, by omega⟩
    have stored := sound.looked none w (.inr ⟨v, queued, (nbrs_iff v reachV w).mpr step⟩)
    obtain ⟨d, record⟩ := Option.isSome_iff_exists.mp stored
    have value := (sound.recorded.sound w d record).2.1
    rw [away] at value
    rw [HalfSearch.expand, record, value]
    push_cast
    rfl
  refine ⟨fun none => ⟨⟨fun w d => ⟨fun record => ?_, ?_⟩, fun w => ?_⟩, sound.apart none⟩,
      fun t met => ?_⟩
  · exact sound.recorded.sound w d record
  · rintro ⟨reach, rfl, close⟩
    rcases Nat.lt_or_eq_of_le close with nearer | away
    · exact sound.recorded.all w reach (by omega)
    · rw [next none w reach away, away]
      push_cast
      rfl
  · refine Iff.trans (sound.newQ none w) ⟨fun record => ?_, fun met => next none w met.1 met.2⟩
    obtain ⟨reach, value, -⟩ := sound.recorded.sound w _ record
    exact ⟨reach, by omega⟩
  · exact ⟨sound.recorded, sound.met t met⟩

inductive Leads (R : Int → Int → Int → Prop) (goal : Int) : Int → List (Int × Int) → Prop where
  | done : Leads R goal goal []
  | go {c x v : Int} {es : List (Int × Int)} : R c x v → Leads R goal x es → Leads R goal v ((c, x) :: es)

theorem route_spec {edges : Int → List (Int × Int)} {R : Int → Int → Int → Prop}
    (recorded : Recorded r u a dis)
    (edges_iff : ∀ v, Reach r u v → ∀ c x, (c, x) ∈ edges v ↔ R c x v)
      (labels : ∀ x v, r x v → ∃ c, R c x v)
    {n turns : Nat} {temp : Int} (value : dis temp = some (n : Int)) (enough : n < turns) :
    ∃ es, route edges dis u turns temp = some es ∧ es.length = n ∧ Leads R u temp es := by
  induction turns generalizing n temp with
  | zero => omega
  | succ turns ih =>
    obtain ⟨reach, same, close⟩ := recorded.sound temp _ value
    rw [route]
    split_ifs with goal
    · have zero : n = 0 := by
        rw [goal, distance_self] at same
        omega
      exact ⟨[], rfl, zero.symm, goal ▸ .done⟩
    · obtain ⟨x, reachX, step, pred⟩ := reach.exists_pred goal
      obtain ⟨m, rfl⟩ : ∃ m, n = m + 1 := ⟨n - 1, by omega⟩
      have stored := recorded.all x reachX (by omega)
      obtain ⟨c, labelled⟩ := labels x temp step
      cases found : (edges temp).find? fun e => (dis e.2).isSome && (dis e.2).getD 0 ==
        (dis temp).getD 0 - 1 with
      | none =>
        have missed := find?_eq_none.mp found (c, x) ((edges_iff temp reach c x).mpr labelled)
        simp [stored, value] at missed
        omega
      | some e =>
        have chosen := find?_some found
        have joined := (edges_iff temp reach e.1 e.2).mp (mem_of_find?_eq_some found)
        simp only [Bool.and_eq_true, beq_iff_eq, value, Option.getD_some] at chosen
        obtain ⟨d, record⟩ := Option.isSome_iff_exists.mp chosen.1
        have less : dis e.2 = some (m : Int) := by
          have one := chosen.2
          rw [record, Option.getD_some] at one
          rw [record, one]
          push_cast
          simp
        obtain ⟨es, rest, length, leads⟩ := ih less (by omega)
        exact ⟨e :: es, by simp [rest, Option.map_some], by simp [length], .go joined leads⟩

end Half

section Path

variable {R : Int → Int → Int → Prop} {u v : Int} {es : List (Int × Int)}

theorem Leads.written (leads : Leads R u v es) :
    Written R u ((es.reverse.flatMap fun e => [e.2, e.1]) ++ [v]) es.length v := by
  induction leads with
  | done => exact .single
  | @go c x v es joined _ ih =>
    have next := ih.snoc joined
    rw [append_assoc] at next
    rw [reverse_cons, flatMap_append, append_assoc]
    exact next

theorem Written.leads {path : List Int} {n : Nat} {goal : Int} (written : Written R u path n v)
    (leads : Leads (fun c x v => R c v x) goal v es) :
    Written R u (path ++ es.flatMap fun e => [e.1, e.2]) (n + es.length) goal := by
  induction leads generalizing path n with
  | done => simpa using written
  | @go c x v es joined _ ih =>
    have next := ih (written.snoc joined)
    rw [append_assoc] at next
    rw [flatMap_cons, length_cons, ← Nat.add_assoc, Nat.add_right_comm]
    exact next

end Path

section Search

variable {G : LabelledGraph} {csr : CSR × CSR} {directed : Bool} {predSet : List Nat} {u v : Int}

theorem Stores.mem_around (stores : Stores csr G) {x w : Int} (vertex : x ∈ G.vertices) :
    w ∈ around csr.1 csr.2 directed predSet x ↔ G.Step directed predSet x w := by
  simp only [around, mem_flatMap, mem_append, LabelledGraph.Step]
  cases directed <;> simp [stores.out vertex, stores.into vertex]

theorem Stores.mem_around_back (stores : Stores csr G) {x w : Int} (vertex : x ∈ G.vertices) :
    w ∈ around csr.2 csr.1 directed predSet x ↔ G.Step directed predSet w x := by
  simp only [around, mem_flatMap, mem_append, LabelledGraph.Step]
  cases directed <;> simp [stores.out vertex, stores.into vertex]

theorem signedEdges_iff {main other : CSR} {edge : Nat → Int → Prop} {back : Nat → Int → Prop}
    {x : Int}
    (forward : ∀ p w, w ∈ main.verts x p ↔ edge p w)
      (backward : ∀ p w, w ∈ other.verts x p ↔ back p w) (c w : Int) :
    (c, w) ∈ signedEdges main other directed predSet x ↔
      ∃ p ∈ predSet, (c = p ∧ edge p w) ∨ (directed = false ∧ c = -(p : Int) - 1 ∧ back p w) := by
  simp only [signedEdges, mem_flatMap, mem_append]
  refine exists_congr fun p => and_congr_right fun _ => or_congr ?_ ?_
  · simp [forward, eq_comm, and_comm]
  · cases directed <;> simp [backward, eq_comm, and_comm]

theorem step_of_signed {c x w : Int} (signed : G.Signed directed predSet c x w) :
    G.Step directed predSet x w := by
  obtain ⟨p, allowed, ⟨-, forward⟩ | ⟨mode, -, backward⟩⟩ := signed
  · exact ⟨p, allowed, .inl forward⟩
  · exact ⟨p, allowed, .inr ⟨mode, backward⟩⟩

theorem signed_of_step {x w : Int} (step : G.Step directed predSet x w) :
    ∃ c, G.Signed directed predSet c x w := by
  obtain ⟨p, allowed, forward | ⟨mode, backward⟩⟩ := step
  · exact ⟨p, p, allowed, .inl ⟨rfl, forward⟩⟩
  · exact ⟨-(p : Int) - 1, p, allowed, .inr ⟨mode, rfl, backward⟩⟩

/-- After `i` rounds both ends are at the level `i` and have nothing in common, or they have met on
a shortest walk. -/
structure Meeting.Sound (r : Int → Int → Prop) (u v : Int) (i : Nat) (st : Meeting) : Prop where
  apart : st.meetNode = none → AtLevel r u i st.disU st.qU ∧
    AtLevel (fun a b => r b a) v i st.disV st.qV ∧
    ∀ w, (st.disU w).isSome → st.disV w = none
  met : ∀ t, st.meetNode = some t → ∃ a b m n :
    Nat, Recorded r u a st.disU ∧ Recorded (fun a b => r b a) v b st.disV ∧
    st.disU t = some (m : Int) ∧ st.disV t = some (n : Int) ∧ distance r u v = m + n

theorem meets_shortest {r : Int → Int → Prop} {a b m n : Nat}
    {disU disV disU' disV' : Int → Option Int} {qU qV : List Int} {t : Int}
    (levelU : AtLevel r u a disU qU) (levelV : AtLevel (fun a b => r b a) v b disV qV)
    (apart : ∀ w, (disU w).isSome → disV w = none) {a' b' : Nat} (recordedU : Recorded r u a' disU')
    (recordedV : Recorded (fun a b => r b a) v b' disV') (left : disU' t = some (m : Int))
      (right : disV' t = some (n : Int))
    (bound : m + n ≤ a + b + 1) : distance r u v = m + n := by
  obtain ⟨reachU, valueU, -⟩ := recordedU.sound t _ left
  obtain ⟨reachV, valueV, -⟩ := recordedV.sound t _ right
  have walk : Walk r u (m + n) v := by
    have first := reachU.walk
    have second := reachV.walk.back
    rw [← Int.ofNat.inj valueU] at first
    rw [← Int.ofNat.inj valueV] at second
    exact first.append second
  have reach : Reach r u v := ⟨_, walk⟩
  have longer := reach.walk.longer (a := a) (b := b) fun x reach near reach' near' => by
    have one := (levelU.recorded x _).mpr ⟨reach, rfl, near⟩
    have two := (levelV.recorded x _).mpr ⟨reach', rfl, near'⟩
    rw [apart x (by rw [one]; rfl)] at two
    cases two
  have upper := walk.distance_le
  omega

theorem Meeting.Sound.turn (stores : Stores csr G) (first : u ∈ G.vertices) (last : v ∈ G.vertices)
    {i : Nat}
    {st next : Meeting} (sound : st.Sound (G.Step directed predSet) u v i)
      (taken : st.turn csr directed predSet = some next) :
    next.Sound (G.Step directed predSet) u v (i + 1) ∧ i < G.vertices.card := by
  unfold Meeting.turn at taken
  split at taken
  · cases taken
  · rename_i going
    rw [not_or] at going
    have none : st.meetNode = none := by simpa using going.1
    obtain ⟨levelU, levelV, apart⟩ := sound.apart none
    have closedU : ∀ x w, G.Step directed predSet x w → w ∈ G.vertices :=
      fun _ _ step => step.target
    have closedV : ∀ x w, G.Step directed predSet w x → w ∈ G.vertices :=
      fun _ _ step => step.source
    refine ⟨?_, ?_⟩
    · have spec := @expand_spec _ u i
        (around csr.1 csr.2 directed predSet) st.disV st.disU st.qU levelU
        (fun x reach w => stores.mem_around (reach.walk.inside first closedU)) apart
      obtain ⟨su, same⟩ : ∃ su, HalfSearch.expand
        (around csr.1 csr.2 directed predSet) st.disV st.qU st.disU = su := ⟨_, rfl⟩
      rw [same] at spec taken
      dsimp only at spec taken
      obtain ⟨onwards, meets⟩ := spec
      cases met : su.meetNode with
      | some t =>
        rw [met] at taken
        simp only [Option.isSome_some, if_true, Option.some.injEq] at taken
        obtain ⟨recorded, other, value⟩ := meets t met
        obtain ⟨d, right⟩ := Option.isSome_iff_exists.mp other
        obtain ⟨-, rfl, close⟩ := (levelV.recorded t d).mp right
        rw [← taken]
        refine ⟨fun none => ?_, fun t' found => ?_⟩
        · cases none
        · obtain rfl := Option.some.inj found
          have left : su.dis t = some ((i + 1 : Nat) : Int) := by rw [value]; push_cast; rfl
          exact ⟨i, i, i + 1, _, recorded, levelV.toRecorded, left, right,
            meets_shortest levelU levelV apart recorded levelV.toRecorded left right (by omega)⟩
      | none =>
        rw [met] at taken
        simp only [Option.isSome_none, Bool.false_eq_true, if_false, Option.some.injEq] at taken
        obtain ⟨nextU, apartU⟩ := onwards met
        have away : ∀ w, (st.disV w).isSome → su.dis w = Option.none := by
          intro w stored
          by_contra both
          rw [apartU w (Option.isSome_iff_ne_none.mpr both)] at stored
          cases stored
        have specV := @expand_spec _ v i
          (around csr.2 csr.1 directed predSet) su.dis st.disV st.qV levelV
          (fun x reach w => stores.mem_around_back (reach.walk.inside last closedV)) away
        obtain ⟨sv, same⟩ : ∃ sv, HalfSearch.expand
          (around csr.2 csr.1 directed predSet) su.dis st.qV st.disV = sv := ⟨_, rfl⟩
        rw [same] at specV taken
        dsimp only at specV taken
        obtain ⟨onwardsV, meetsV⟩ := specV
        rw [← taken]
        refine ⟨fun none => ?_, fun t found => ?_⟩
        · obtain ⟨nextV, apartV⟩ := onwardsV none
          refine ⟨nextU, nextV, fun w stored => ?_⟩
          dsimp only at stored ⊢
          by_contra both
          rw [apartV w (Option.isSome_iff_ne_none.mpr both)] at stored
          cases stored
        · obtain ⟨recorded, other, value⟩ := meetsV t found
          obtain ⟨d, left⟩ := Option.isSome_iff_exists.mp other
          obtain ⟨-, rfl, close⟩ := (nextU.recorded t d).mp left
          have right : sv.dis t = some ((i + 1 : Nat) : Int) := by rw [value]; push_cast; rfl
          exact ⟨i + 1, i, _, i + 1, nextU.toRecorded, recorded, left, right,
            meets_shortest nextU levelV apartU nextU.toRecorded recorded left right (by omega)⟩
    · -- a queue that is not empty has a vertex at the distance `i`
      by_cases empty : st.qU = []
      · obtain ⟨x, queued⟩ := exists_mem_of_ne_nil _ fun none => going.2 ⟨empty, none⟩
        obtain ⟨reach, here⟩ := (levelV.queue x).mp queued
        exact here ▸ reach.distance_lt_card last closedV
      · obtain ⟨x, queued⟩ := exists_mem_of_ne_nil _ empty
        obtain ⟨reach, here⟩ := (levelU.queue x).mp queued
        exact here ▸ reach.distance_lt_card first closedU

end Search

/-- The path is empty exactly if there is none, and otherwise it is written out with its labels and
has the least number of edges; all loops end within one turn more than there are vertices. -/
theorem shortestPath_correct {G : LabelledGraph} {csr : CSR × CSR} (stores : Stores csr G)
    {u v : Int} (first : u ∈ G.vertices)
    (last : v ∈ G.vertices) (ne : u ≠ v) (directed : Bool) (predSet : List Nat) {turns : Nat}
    (enough : G.vertices.card < turns) :
    ∃ path, shortestPath csr turns u v directed predSet = some path ∧
      (path = [] ↔ ¬ Reach (G.Step directed predSet) u v) ∧
      (Reach (G.Step directed predSet) u v →
        Written (G.Signed directed predSet) u path (distance (G.Step directed predSet) u v) v) := by
  have closedU : ∀ x w, G.Step directed predSet x w → w ∈ G.vertices := fun _ _ step => step.target
  have closedV : ∀ x w, G.Step directed predSet w x → w ∈ G.vertices := fun _ _ step => step.source
  have start : Meeting.Sound (G.Step directed predSet) u v 0
      ⟨Function.update (fun _ => none) u (some 0), Function.update (fun _ => none) v (some 0), [u],
            [v], none⟩ := by
    refine ⟨fun _ => ⟨atLevel_zero _ u, atLevel_zero _ v, fun w stored => ?_⟩, fun t met => ?_⟩
    · have same : w = u := by
        by_contra other
        simp [other] at stored
      simp [same, ne]
    · cases met
  obtain ⟨i, st, ended, sound, stopped⟩ := loop_counts (fun i st next sound taken =>
    Meeting.Sound.turn stores first last sound taken) start enough
  rw [shortestPath, if_neg (not_or.mpr ⟨not_lt.mpr (G.nonneg first), not_lt.mpr (G.nonneg last)⟩),
      ended]
  simp only [Option.bind_eq_bind, Option.bind_some]
  cases met : st.meetNode with
  | none =>
    -- both queues are empty, so that no vertex has the distance `i`
    obtain ⟨levelU, levelV, apart⟩ := sound.apart met
    have empty : st.qU = [] := by
      unfold Meeting.turn at stopped
      split_ifs at stopped with finished
      · exact (finished.resolve_left (by simp [met])).1
      · dsimp only at stopped
        split at stopped <;> cases stopped
    have unreachable : ¬ Reach (G.Step directed predSet) u v := by
      intro reach
      by_cases near : distance (G.Step directed predSet) u v ≤ i
      · have one := (levelU.recorded v _).mpr ⟨reach, rfl, near⟩
        have two := (levelV.recorded v _).mpr
          ⟨.refl, rfl, by rw [distance_self]; exact Nat.zero_le i⟩
        rw [apart v (by rw [one]; rfl)] at two
        cases two
      · obtain ⟨x, reachX, here⟩ := reach.exists_at (Nat.le_of_not_le near)
        have queued := (levelU.queue x).mpr ⟨reachX, here⟩
        rw [empty] at queued
        cases queued
    exact ⟨[], rfl, by simp [unreachable], fun reach => absurd reach unreachable⟩
  | some t =>
    obtain ⟨a, b, m, n, recordedU, recordedV, left, right, shortest⟩ := sound.met t met
    obtain ⟨reachU, valueU, -⟩ := recordedU.sound t _ left
    obtain ⟨reachV, valueV, -⟩ := recordedV.sound t _ right
    have boundU := reachU.distance_lt_card first closedU
    have boundV := reachV.distance_lt_card last closedV
    obtain ⟨behind, ranV, lengthV, leadsV⟩ :=
      @route_spec _ v b st.disV (signedEdges csr.1 csr.2 directed predSet)
      (fun c x w => G.Signed directed predSet c w x) recordedV
      (fun w reach c x => signedEdges_iff
        (fun p x => stores.out (reach.walk.inside last closedV))
          (fun p x => stores.into (reach.walk.inside last closedV)) c x)
      (fun x w step => signed_of_step step) n turns t right (by omega)
    obtain ⟨before, ranU, lengthU, leadsU⟩ :=
      @route_spec _ u a st.disU (signedEdges csr.2 csr.1 directed predSet)
      (G.Signed directed predSet) recordedU
      (fun w reach c x => signedEdges_iff
        (fun p x => stores.into (reach.walk.inside first closedU))
          (fun p x => stores.out (reach.walk.inside first closedU)) c x)
      (fun x w step => signed_of_step step) m turns t left (by omega)
    have reach : Reach (G.Step directed predSet) u v := ⟨_, reachU.walk.append reachV.walk.back⟩
    refine ⟨(before.reverse.flatMap fun e => [e.2, e.1]) ++ [t] ++ behind.flatMap fun e =>
        [e.1, e.2], ?_, ?_, fun _ => ?_⟩
    · simp [ranV, ranU, Option.bind_some, Option.pure_def]
    · simp [reach]
    · rw [shortest, ← lengthU, ← lengthV]
      exact leadsU.written.leads leadsV

theorem twoLabels_shortestPath :
    ∃ path, shortestPath (twoLabels.loadCSR 2) 4 0 2 true [0, 1] = some path ∧
      (path = [] ↔ ¬ Reach ((entityGraph {0, 1, 2}
          {⟨0, 0, 1⟩, ⟨1, 0, 2⟩, ⟨2, 0, 0⟩, ⟨0, 1, 1⟩}).Step true [0, 1]) 0 2) ∧
      (Reach ((entityGraph {0, 1, 2} {⟨0, 0, 1⟩, ⟨1, 0, 2⟩, ⟨2, 0, 0⟩, ⟨0, 1, 1⟩}).Step true [0, 1])
          0 2 →
        Written ((entityGraph {0, 1, 2} {⟨0, 0, 1⟩, ⟨1, 0, 2⟩, ⟨2, 0, 0⟩, ⟨0, 1, 1⟩}).Signed true
            [0, 1]) 0 path
          (distance ((entityGraph {0, 1, 2} {⟨0, 0, 1⟩, ⟨1, 0, 2⟩, ⟨2, 0, 0⟩, ⟨0, 1, 1⟩}).Step true
                [0, 1]) 0 2) 2) :=
  shortestPath_correct twoLabels_stores (by decide) (by decide) (by decide) true [0, 1] (by decide)

end GStore
