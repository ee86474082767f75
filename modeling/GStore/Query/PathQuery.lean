import GStore.Lib.Checked
import GStore.Database.CSR
import GStore.Database.Dense

/-! `CSRQueryHandler` and three searches of `PathQueryHandler`, with the vectors of length
`getVertNum` that they index by vertex ids. -/
namespace GStore
open Lib List

/-- `getOutIndexByID` and `getInIndexByID`; the key of the map is an `unsigned`. -/
def CSRRow.indexByID (row : CSRRow) (vid : Int) : Option Nat := row.vid2id (vid % 2 ^ 32).toNat

def CSRRow.size (row : CSRRow) (vid : Int) : Nat :=
  match row.indexByID vid with
  | none => 0
  | some i =>
    if i + 1 = row.offsetList.length then row.adjacencyList.length - word row.offsetList i
    else word row.offsetList (i + 1) - word row.offsetList i

def CSRRow.vertID (row : CSRRow) (vid : Int) (pos : Nat) : Int :=
  if row.size vid ≤ pos then -1
  else
    match row.indexByID vid with
    | none => -1
    | some i => word row.adjacencyList (word row.offsetList i + pos)

def CSR.verts (csr : CSR) (vid : Int) (pred : Nat) : List Int :=
  (List.range ((csr.rows pred).size vid)).map ((csr.rows pred).vertID vid)

def directions (main other : CSR) (directed : Bool) (predSet : List Nat) (v : Int) : List Int :=
  (if directed then [] else predSet.flatMap (other.verts v)) ++ predSet.flatMap (main.verts v)

/-! `kHopNeighbor` -/

structure Hops where
  cnt : List Int
  visited : List Bool
  next : List Int
  returned : Bool

def Hops.visit (k retNum : Int) (st : Hops) (n : Int) : Except Fault Hops := do
  if st.returned then return st
  let seen ← readAt st.visited n
  if seen then return st
  if k = 1 then
    let cnt := st.cnt ++ [n]
    if 0 ≤ retNum ∧ retNum ≤ cnt.length then return { st with cnt := cnt, returned := true }
    let visited ← writeAt st.visited n true
    return { st with cnt := cnt, visited := visited }
  else
    let visited ← writeAt st.visited n true
    return { st with next := st.next ++ [n], visited := visited }

/-- The `while` loop; a negative `k` does not stop it. -/
def hopLevels (csr : CSR × CSR) (directed : Bool) (predSet : List Nat) (retNum : Int) :
    Nat → Int → List Int → Hops → Except Fault (List Int)
  | 0, _, _, _ => .error .outOfTurns
  | turns + 1, k, queue, st =>
    if k = 0 ∨ queue = [] then .ok st.cnt
    else do
      let st ← queue.foldlM (fun st v => (directions csr.1 csr.2 directed predSet v).foldlM
          (Hops.visit k retNum) st)
        { st with next := [] }
      if st.returned then return st.cnt
      hopLevels csr directed predSet retNum turns (k - 1) st.next st

def kHopNeighbor (csr : CSR × CSR) (turns : Nat) (uid : Int) (directed : Bool) (k : Int)
    (predSet : List Nat) (retNum : Int) :
    Except Fault (List Int) :=
  if uid < 0 then .ok []
  else do
    let visited ← writeAt (List.replicate csr.2.n false) uid true
    hopLevels csr directed predSet retNum turns k [uid] ⟨[], visited, [], false⟩

/-! `shortestPathCount` -/

/-- The vectors of the side that is expanded (`cnt`, `dist`), and the counts of the other side. -/
structure Sides where
  cnt : List Int
  dist : List Int
  other : List Int
  joint : List Int
  isMeet : Bool
  next : List Int

def Sides.visit (vcnt vd : Int) (st : Sides) (n : Int) : Except Fault Sides := do
  let c ← readAt st.cnt n
  if c = 0 then
    let met ← readAt st.other n
    let st := if met ≠ 0 then { st with isMeet := true, joint := st.joint ++ [n] } else st
    let st := if st.isMeet then st else { st with next := st.next ++ [n] }
    let cnt ← writeAt st.cnt n vcnt
    let dist ← writeAt st.dist n (vd + 1)
    return { st with cnt := cnt, dist := dist }
  else
    let d ← readAt st.dist n
    if d = vd + 1 then
      let cnt ← writeAt st.cnt n (c + vcnt)
      return { st with cnt := cnt }
    else return st

def Sides.expand (neighbours : Int → List Int) (queue : List Int) (st : Sides) :
    Except Fault Sides :=
  queue.foldlM (fun st v => do
    let vcnt ← readAt st.cnt v
    let vd ← readAt st.dist v
    (neighbours v).foldlM (Sides.visit vcnt vd) st) { st with next := [] }

structure PathCounts where
  scnt : List Int
  sd : List Int
  tcnt : List Int
  td : List Int
  joint : List Int
  isMeet : Bool

def countLevels (csr : CSR × CSR) (directed : Bool) (predSet : List Nat) :
    Nat → List Int → List Int → PathCounts → Except Fault PathCounts
  | 0, _, _, _ => .error .outOfTurns
  | turns + 1, q, tq, st =>
    if st.isMeet ∨ q = [] ∨ tq = [] then .ok st
    else if q.length < tq.length then do
      let r ← Sides.expand (directions csr.1 csr.2 directed predSet) q
        ⟨st.scnt, st.sd, st.tcnt, st.joint, st.isMeet, []⟩
      countLevels csr directed predSet turns r.next tq
        { st with scnt := r.cnt, sd := r.dist, joint := r.joint, isMeet := r.isMeet }
    else do
      let r ← Sides.expand (directions csr.2 csr.1 directed predSet) tq
        ⟨st.tcnt, st.td, st.scnt, st.joint, st.isMeet, []⟩
      countLevels csr directed predSet turns q r.next
        { st with tcnt := r.cnt, td := r.dist, joint := r.joint, isMeet := r.isMeet }

def shortestPathCount (csr : CSR × CSR) (turns : Nat) (uid vid : Int) (directed : Bool)
    (predSet : List Nat) :
    Except Fault Int := do
  let zeros := List.replicate csr.2.n (0 : Int)
  let scnt ← writeAt zeros uid 1
  let tcnt ← writeAt zeros vid 1
  let st ← countLevels csr directed predSet turns [uid] [vid] ⟨scnt, zeros, tcnt, zeros, [], false⟩
  if !st.isMeet then return 0
  st.joint.foldlM (fun pathNum jt => do
    let s ← readAt st.scnt jt
    let t ← readAt st.tcnt jt
    return pathNum + s * t) 0

/-! `kHopEnumeratePath` -/

/-- The reverse search that fills `bar`: a vertex is marked once, the destination never. -/
def barVisit (vid level : Int) (st : List Int × List Int) (dst : Int) :
    Except Fault (List Int × List Int) := do
  if dst < 0 then return st
  let b ← readAt st.1 dst
  if b = 0 ∧ dst ≠ vid then
    let bar ← writeAt st.1 dst (level + 1)
    return (bar, st.2 ++ [dst])
  else return st

/-- `bar[cur]` is read again at every neighbour; it does not change, as `cur` is marked or the
destination. -/
def barSearch (csr : CSR × CSR) (directed : Bool) (predSet : List Nat) (vid k : Int) :
    Nat → List Int × List Int → Except Fault (List Int)
  | 0, _ => .error .outOfTurns
  | _ + 1, (bar, []) => .ok bar
  | turns + 1, (bar, cur :: q) =>
    if cur < 0 then barSearch csr directed predSet vid k turns (bar, q)
    else do
      let level ← readAt bar cur
      if k ≤ level then barSearch csr directed predSet vid k turns (bar, q)
      else
        let st ← (predSet.flatMap fun p => csr.2.verts cur p ++
            if directed then [] else csr.1.verts cur p).foldlM
          (fun st dst => do
            let level ← readAt st.1 cur
            barVisit vid level st dst) (bar, q)
        barSearch csr directed predSet vid k turns st

structure Paths where
  stack : List (Int × Int)
  retBudget : Int
  paths : List (List Int)

def pathOf : List (Int × Int) → List Int
  | [] => []
  | (v, _) :: rest => v :: rest.flatMap fun pr => [pr.2, pr.1]

/-- The edges of a vertex with their labels; the label of an edge that is gone backwards is `-x -
1`. -/
def signedEdges (main other : CSR) (directed : Bool) (predSet : List Nat) (v : Int) :
    List (Int × Int) :=
  predSet.flatMap fun x => (main.verts v x).map (Prod.mk (x : Int)) ++
    if directed then [] else (other.verts v x).map (Prod.mk (-(x : Int) - 1))

def labelledSteps (csr : CSR × CSR) (directed : Bool) (predSet : List Nat) (uid : Int) :
    List (Int × Int) :=
  (signedEdges csr.1 csr.2 directed predSet uid).map Prod.swap

def bcDfs (csr : CSR × CSR) (directed : Bool) (predSet : List Nat) (vid k : Int) (bar : List Int) :
    Nat → Int → Paths → Except Fault (Int × Paths)
  | 0, _, _ => .error .outOfTurns
  | turns + 1, uid, st =>
    if uid = vid then
      .ok (0, { stack := st.stack.dropLast
                retBudget := if 0 < st.retBudget then st.retBudget - 1 else st.retBudget
                paths := st.paths ++ [pathOf st.stack] })
    else do
      let steps := if (st.stack.length : Int) - 1 <
        k then labelledSteps csr directed predSet uid else []
      let r ← steps.foldlM (fun (acc : Int × Paths) step => do
        if step.1 < 0 ∨ (bar.length : Int) ≤ step.1 then return acc
        if acc.2.stack.any (fun pr => pr.1 == step.1) then return acc
        let b ← readAt bar step.1
        if (acc.2.stack.length : Int) + b ≤ k ∧ acc.2.retBudget ≠ 0 then
          let r ← bcDfs csr directed predSet vid k bar turns step.1
            { acc.2 with stack := acc.2.stack ++ [step] }
          return (if r.1 ≠ k + 1 ∧ acc.1 < r.1 + 1 then r.1 + 1 else acc.1, r.2)
        else return acc) (k + 1, st)
      return (r.1, { r.2 with stack := r.2.stack.dropLast })

def kHopEnumeratePath (csr : CSR × CSR) (turns : Nat) (uid vid retNum : Int) (directed : Bool)
    (k : Int) (predSet : List Nat) :
    Except Fault (List (List Int)) :=
  if uid < 0 ∨ vid < 0 then .ok []
  else if csr.2.n = 0 then .ok []
  else do
    let bar ← barSearch csr directed predSet vid k turns (List.replicate csr.2.n 0, [vid])
    let r ← bcDfs csr directed predSet vid k bar turns uid ⟨[(uid, -1)], retNum, []⟩
    return r.2.paths

def IsVertex (n : Nat) (v : Int) : Prop := 0 ≤ v ∧ v < n

theorem isVertex_cast {n v : Nat} (below : v < n) : IsVertex n v :=
  ⟨Int.natCast_nonneg v, Int.ofNat_lt.mpr below⟩

theorem vertID_mem {row : CSRRow} (shaped : row.Shaped) {vid : Int} {pos : Nat}
    (inside : pos < row.size vid) :
    ∃ x ∈ row.adjacencyList, row.vertID vid pos = (x : Int) := by
  unfold CSRRow.vertID
  rw [if_neg (Nat.not_le_of_lt inside)]
  unfold CSRRow.size at inside
  cases found : row.indexByID vid with
  | none => simp [found] at inside
  | some i =>
    simp only [found] at inside ⊢
    have known : i < row.offsetList.length := shaped.known _ i found
    have bound : word row.offsetList i + pos < row.adjacencyList.length := by
      split at inside
      · omega
      · rename_i more
        have next : i + 1 < row.offsetList.length := by omega
        obtain ⟨-, -, below⟩ := pairwise_append.mp shaped.sorted
        have last := below row.offsetList[i + 1] (getElem_mem next) _ (mem_singleton_self _)
        rw [word, word, getD_eq_getElem _ _ next, getD_eq_getElem _ _ known] at inside
        rw [word, getD_eq_getElem _ _ known]
        omega
    refine ⟨row.adjacencyList[word row.offsetList i + pos], getElem_mem bound, ?_⟩
    rw [word, getD_eq_getElem _ _ bound]

structure CSR.Bounded (csr : CSR) (n : Nat) : Prop where
  shaped : ∀ p, (csr.rows p).Shaped
  below : ∀ p v, (csr.rows p).Occurs v → v < n

theorem CSR.Bounded.verts {csr : CSR} {n : Nat} (bounded : csr.Bounded n) {v w : Int} {p : Nat}
    (listed : w ∈ csr.verts v p) :
    IsVertex n w := by
  obtain ⟨pos, inside, rfl⟩ := mem_map.mp listed
  obtain ⟨x, adjacent, same⟩ := vertID_mem (bounded.shaped p) (mem_range.mp inside)
  rw [same]
  exact isVertex_cast (bounded.below p x (.inr (.inr adjacent)))

section Searches
variable {csr : CSR × CSR} {n : Nat} (out : csr.1.Bounded n) (into : csr.2.Bounded n)
    (directed : Bool) (predSet : List Nat)

theorem directions_isVertex {main other : CSR} (first : main.Bounded n) (second : other.Bounded n)
    {v w : Int}
    (listed : w ∈ directions main other directed predSet v) : IsVertex n w := by
  rcases mem_append.mp listed with back | forth
  · cases directed with
    | true => cases back
    | false =>
      obtain ⟨p, -, there⟩ := mem_flatMap.mp back
      exact second.verts there
  · obtain ⟨p, -, there⟩ := mem_flatMap.mp forth
    exact first.verts there

def Hops.Fits (n : Nat) (st : Hops) : Prop := st.visited.length = n ∧ ∀ v ∈ st.next, IsVertex n v

theorem visit_hops {k retNum w : Int} {st : Hops} (fits : st.Fits n) (vertex : IsVertex n w) :
    InBounds (Hops.visit k retNum st w) (Hops.Fits n) := by
  obtain ⟨length, queued⟩ := fits
  have below : w < st.visited.length := length ▸ vertex.2
  unfold Hops.visit
  split
  · exact inBounds_ok ⟨length, queued⟩
  refine (inBounds_readAt vertex.1 below).bind fun seen _ => ?_
  split
  · exact inBounds_ok ⟨length, queued⟩
  split
  · dsimp only
    split
    · exact inBounds_ok ⟨length, queued⟩
    · exact (inBounds_writeAt vertex.1 below).bind fun visited same =>
        inBounds_ok ⟨same.trans length, queued⟩
  · refine (inBounds_writeAt vertex.1 below).bind fun visited same =>
      inBounds_ok ⟨same.trans length, fun v there => ?_⟩
    rcases mem_append.mp there with before | new
    · exact queued v before
    · exact mem_singleton.mp new ▸ vertex

include out into

theorem hopLevels_inBounds {retNum : Int} (turns : Nat) (k : Int) (queue : List Int) (st : Hops)
    (vertices : ∀ v ∈ queue, IsVertex n v)
    (length : st.visited.length = n) :
        InBounds (hopLevels csr directed predSet retNum turns k queue st) fun _ => True := by
  induction turns generalizing k queue st with
  | zero => exact inBounds_outOfTurns
  | succ turns ih =>
    unfold hopLevels
    split
    · exact inBounds_ok trivial
    · have level : InBounds (queue.foldlM
          (fun st v => (directions csr.1 csr.2 directed predSet v).foldlM (Hops.visit k retNum) st)
          { st with next := [] }) (Hops.Fits n) :=
        inBounds_foldlM ⟨length, fun v there => by cases there⟩ fun st v _ fits =>
          inBounds_foldlM fits fun st w listed fits => visit_hops fits
            (directions_isVertex directed predSet out into listed)
      refine level.bind fun st fits => ?_
      split
      · exact inBounds_ok trivial
      · exact ih (k - 1) st.next st fits.2 fits.1

theorem kHopNeighbor_inBounds (turns : Nat) {uid : Int} (vertex : IsVertex n uid) (k retNum : Int)
    (num : csr.2.n = n) :
    InBounds (kHopNeighbor csr turns uid directed k predSet retNum) fun _ => True := by
  unfold kHopNeighbor
  rw [if_neg (not_lt.mpr vertex.1)]
  have length : (List.replicate csr.2.n false).length = n := by rw [length_replicate, num]
  refine (inBounds_writeAt vertex.1 (length ▸ vertex.2)).bind fun visited same => ?_
  refine hopLevels_inBounds out into directed predSet turns k [uid] _ (fun v there => ?_)
    (same.trans length)
  exact mem_singleton.mp there ▸ vertex

end Searches

/-- The three vectors have their length; the queue and the meeting points are vertices. -/
structure Sides.Fits (n : Nat) (st : Sides) : Prop where
  cnt : st.cnt.length = n
  dist : st.dist.length = n
  other : st.other.length = n
  joint : ∀ v ∈ st.joint, IsVertex n v
  next : ∀ v ∈ st.next, IsVertex n v

theorem mem_append_vertex {n : Nat} {vs : List Int} {w : Int} (all : ∀ v ∈ vs, IsVertex n v)
    (vertex : IsVertex n w) :
    ∀ v ∈ vs ++ [w], IsVertex n v := by
  intro v there
  rcases mem_append.mp there with before | new
  · exact all v before
  · exact mem_singleton.mp new ▸ vertex

theorem visit_sides {n : Nat} {vcnt vd w : Int} {st : Sides} (fits : st.Fits n)
    (vertex : IsVertex n w) :
    InBounds (Sides.visit vcnt vd st w) (Sides.Fits n) := by
  unfold Sides.visit
  refine (inBounds_readAt vertex.1 (fits.cnt ▸ vertex.2)).bind fun c _ => ?_
  split
  · refine (inBounds_readAt vertex.1 (fits.other ▸ vertex.2)).bind fun met _ => ?_
    have joined : (if met ≠ 0 then { st with isMeet := true, joint := st.joint ++ [w] } else
          st).Fits n := by
      split
      · exact { fits with joint := mem_append_vertex fits.joint vertex }
      · exact fits
    generalize (if met ≠ 0 then { st with isMeet := true, joint := st.joint ++ [w] } else st) =
      st at joined
    have queued : (if st.isMeet then st else { st with next := st.next ++ [w] }).Fits n := by
      split
      · exact joined
      · exact { joined with next := mem_append_vertex joined.next vertex }
    dsimp only
    generalize (if st.isMeet then st else { st with next := st.next ++ [w] }) = st at queued
    refine (inBounds_writeAt vertex.1 (queued.cnt ▸ vertex.2)).bind fun cnt sameCnt => ?_
    refine (inBounds_writeAt vertex.1 (queued.dist ▸ vertex.2)).bind fun dist sameDist => ?_
    exact inBounds_ok { queued with cnt := sameCnt.trans queued.cnt, dist := sameDist.trans queued.dist }
  · refine (inBounds_readAt vertex.1 (fits.dist ▸ vertex.2)).bind fun d _ => ?_
    split
    · refine (inBounds_writeAt vertex.1 (fits.cnt ▸ vertex.2)).bind fun cnt same => ?_
      exact inBounds_ok { fits with cnt := same.trans fits.cnt }
    · exact inBounds_ok fits

theorem expand_inBounds {n : Nat} {neighbours : Int → List Int}
    (adjacent : ∀ v, ∀ w ∈ neighbours v, IsVertex n w)
    {queue : List Int} (vertices : ∀ v ∈ queue, IsVertex n v) {st : Sides} (fits : st.Fits n) :
    InBounds (Sides.expand neighbours queue st) (Sides.Fits n) := by
  have start : ({ st with next := [] } : Sides).Fits n :=
    { fits with next := fun v there => by cases there }
  refine inBounds_foldlM start fun st v queued fits => ?_
  have vertex := vertices v queued
  refine (inBounds_readAt vertex.1 (fits.cnt ▸ vertex.2)).bind fun vcnt _ => ?_
  refine (inBounds_readAt vertex.1 (fits.dist ▸ vertex.2)).bind fun vd _ => ?_
  exact inBounds_foldlM fits fun st w listed fits => visit_sides fits (adjacent v w listed)

structure PathCounts.Fits (n : Nat) (st : PathCounts) : Prop where
  scnt : st.scnt.length = n
  sd : st.sd.length = n
  tcnt : st.tcnt.length = n
  td : st.td.length = n
  joint : ∀ v ∈ st.joint, IsVertex n v

section Counts
variable {csr : CSR × CSR} {n : Nat} (out : csr.1.Bounded n) (into : csr.2.Bounded n)
    (directed : Bool) (predSet : List Nat)
include out into

theorem countLevels_inBounds (turns : Nat) (q tq : List Int) (st : PathCounts)
    (source : ∀ v ∈ q, IsVertex n v)
    (target : ∀ v ∈ tq, IsVertex n v) (fits : st.Fits n) :
    InBounds (countLevels csr directed predSet turns q tq st) (PathCounts.Fits n) := by
  induction turns generalizing q tq st with
  | zero => exact inBounds_outOfTurns
  | succ turns ih =>
    unfold countLevels
    split
    · exact inBounds_ok fits
    split
    · have forth : ∀ v, ∀ w ∈ directions csr.1 csr.2 directed predSet v, IsVertex n w :=
        fun v w listed => directions_isVertex directed predSet out into listed
      refine (expand_inBounds forth source
          ⟨fits.scnt, fits.sd, fits.tcnt, fits.joint, fun v there => by cases there⟩).bind
        fun r expanded => ?_
      exact ih r.next tq _ expanded.next target
        ⟨expanded.cnt, expanded.dist, fits.tcnt, fits.td, expanded.joint⟩
    · have back : ∀ v, ∀ w ∈ directions csr.2 csr.1 directed predSet v, IsVertex n w :=
        fun v w listed => directions_isVertex directed predSet into out listed
      refine (expand_inBounds back target
          ⟨fits.tcnt, fits.td, fits.scnt, fits.joint, fun v there => by cases there⟩).bind
        fun r expanded => ?_
      exact ih q r.next _ source expanded.next
        ⟨fits.scnt, fits.sd, expanded.cnt, expanded.dist, expanded.joint⟩

theorem shortestPathCount_inBounds (turns : Nat) {uid vid : Int} (source : IsVertex n uid)
    (target : IsVertex n vid)
    (num : csr.2.n = n) : InBounds (shortestPathCount csr turns uid vid directed predSet) fun _ =>
        True := by
  have length : (List.replicate csr.2.n (0 : Int)).length = n := by rw [length_replicate, num]
  unfold shortestPathCount
  refine (inBounds_writeAt source.1 (length ▸ source.2)).bind fun scnt sameS => ?_
  refine (inBounds_writeAt target.1 (length ▸ target.2)).bind fun tcnt sameT => ?_
  refine (countLevels_inBounds out into directed predSet turns [uid] [vid] _ (fun v there => ?_)
      (fun v there => ?_)
    ⟨sameS.trans length, length, sameT.trans length, length,
        fun v there => by cases there⟩).bind fun st fits => ?_
  · exact mem_singleton.mp there ▸ source
  · exact mem_singleton.mp there ▸ target
  split
  · exact inBounds_ok trivial
  · refine inBounds_foldlM trivial fun pathNum jt there _ => ?_
    have vertex := fits.joint jt there
    refine (inBounds_readAt vertex.1 (fits.scnt ▸ vertex.2)).bind fun s _ => ?_
    exact (inBounds_readAt vertex.1 (fits.tcnt ▸ vertex.2)).bind fun t _ => inBounds_ok trivial

def BarFits (n : Nat) (st : List Int × List Int) : Prop :=
  st.1.length = n ∧ ∀ v ∈ st.2, IsVertex n v

omit out into in
theorem barVisit_inBounds {vid level w : Int} {st : List Int × List Int} (fits : BarFits n st)
    (vertex : IsVertex n w) :
    InBounds (barVisit vid level st w) (BarFits n) := by
  obtain ⟨length, queued⟩ := fits
  unfold barVisit
  split
  · exact inBounds_ok ⟨length, queued⟩
  refine (inBounds_readAt vertex.1 (length ▸ vertex.2)).bind fun b _ => ?_
  split
  · refine (inBounds_writeAt vertex.1 (length ▸ vertex.2)).bind fun bar same => ?_
    exact inBounds_ok ⟨same.trans length, mem_append_vertex queued vertex⟩
  · exact inBounds_ok ⟨length, queued⟩

theorem barSearch_inBounds {vid k : Int} (turns : Nat) (st : List Int × List Int)
    (fits : BarFits n st) :
    InBounds (barSearch csr directed predSet vid k turns st) fun bar => bar.length = n := by
  induction turns generalizing st with
  | zero => exact inBounds_outOfTurns
  | succ turns ih =>
    obtain ⟨bar, queue⟩ := st
    obtain ⟨length, queued⟩ := fits
    cases queue with
    | nil => exact inBounds_ok length
    | cons cur q =>
      have vertex := queued cur mem_cons_self
      have rest : BarFits n (bar, q) :=
        ⟨length, fun v there => queued v (mem_cons_of_mem cur there)⟩
      simp only [barSearch, if_neg (not_lt.mpr vertex.1)]
      refine (inBounds_readAt vertex.1 (length ▸ vertex.2)).bind fun level _ => ?_
      split
      · exact ih _ rest
      · refine InBounds.bind (P := BarFits n) (inBounds_foldlM rest fun st w listed fits => ?_)
          fun st fits => ih st fits
        have adjacent : IsVertex n w := by
          obtain ⟨p, -, there⟩ := mem_flatMap.mp listed
          rcases mem_append.mp there with back | forth
          · exact into.verts back
          · cases directed with
            | true => cases forth
            | false => exact out.verts forth
        exact (inBounds_readAt vertex.1 (fits.1 ▸ vertex.2)).bind fun level _ =>
          barVisit_inBounds fits adjacent

omit out into in
theorem bcDfs_inBounds {vid k : Int} {bar : List Int} (turns : Nat) (uid : Int) (st : Paths) :
    InBounds (bcDfs csr directed predSet vid k bar turns uid st) fun _ => True := by
  induction turns generalizing uid st with
  | zero => exact inBounds_outOfTurns
  | succ turns ih =>
    unfold bcDfs
    split
    · exact inBounds_ok trivial
    refine InBounds.bind (P := fun _ => True)
      (inBounds_foldlM trivial fun acc step _ _ => ?_) fun r _ => inBounds_ok trivial
    split
    · exact inBounds_ok trivial
    rename_i inside
    split
    · exact inBounds_ok trivial
    refine (inBounds_readAt (by omega) (by omega)).bind fun b _ => ?_
    split
    · exact (ih step.1 _).bind fun r _ => inBounds_ok trivial
    · exact inBounds_ok trivial

theorem kHopEnumeratePath_inBounds (turns : Nat) {uid vid : Int} (target : IsVertex n vid)
    (retNum k : Int) (num : csr.2.n = n) :
    InBounds (kHopEnumeratePath csr turns uid vid retNum directed k predSet) fun _ => True := by
  unfold kHopEnumeratePath
  split
  · exact inBounds_ok trivial
  split
  · exact inBounds_ok trivial
  have fits : BarFits n (List.replicate csr.2.n 0, [vid]) :=
    ⟨by rw [length_replicate, num], fun v there => mem_singleton.mp there ▸ target⟩
  refine (barSearch_inBounds out into directed predSet turns _ fits).bind fun bar _ => ?_
  exact (bcDfs_inBounds directed predSet turns uid _).bind fun r _ => inBounds_ok trivial

end Counts

theorem loadCSR_bounded {db : Database} {T : Triple → Prop} (inv : db.Inv T)
    (dense : db.entities.Dense) (preNum : Nat) :
    (db.loadCSR preNum).1.Bounded db.entities.num ∧
        (db.loadCSR preNum).2.Bounded db.entities.num := by
  have live : ∀ w, (∃ t, T t ∧ (t.sub = w ∨ t.obj = w ∧ w < literalFirstID)) →
      w < db.entities.num := by
    rintro w ⟨t, present, rfl | ⟨rfl, entity⟩⟩
    · obtain ⟨str, back⟩ := inv.subLive t present
      exact dense.live _ str back
    · obtain ⟨str, back⟩ := inv.objEntity t present (decide_eq_true entity)
      exact dense.live _ str back
  have rows : ∀ row : Nat → CSRRow, (∀ p, (row p).Shaped ∧ ∀ w, (row p).Occurs w →
      ∃ t, T t ∧ (t.sub = w ∨ t.obj = w ∧ w < literalFirstID)) →
      ∀ p, (rowsBelow preNum row p).Shaped ∧ ∀ w, (rowsBelow preNum row p).Occurs w →
          w < db.entities.num := by
    intro row spec p
    unfold rowsBelow
    split
    · exact ⟨(spec p).1, fun w occurs => live w ((spec p).2 w occurs)⟩
    · exact ⟨empty_shaped, fun w occurs => absurd occurs empty_occurs⟩
  have out := rows db.kvstore.outRow (outRow_spec inv.holds)
  have into := rows db.kvstore.inRow (inRow_spec inv.holds)
  exact ⟨⟨fun p => (out p).1, fun p => (out p).2⟩, fun p => (into p).1, fun p => (into p).2⟩

end GStore
