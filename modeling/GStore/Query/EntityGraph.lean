import GStore.KVstore.Reads
import GStore.Query.PathQuery

/-! The readers of `CSRQueryHandler` on a loaded graph. The loops of `loadCSR` lay the neighbour
lists of the vertices end to end, so that the slice of a vertex is its list; the number of edges is
kept in an `unsigned`. -/
namespace GStore
open Lib List

/-- The neighbour lists of the vertices `ws` laid end to end. -/
structure CSRRow.Laid (row : CSRRow) (nb : Nat → List Nat) (ws : List Nat) : Prop where
  nodup : ws.Nodup
  index : row.index = ws.length
  offset : row.offset = (ws.flatMap nb).length
  adjacency : row.adjacencyList = ws.flatMap nb
  offsets : row.offsetList = (List.range ws.length).map fun i => ((ws.take i).flatMap nb).length
  known : ∀ v, row.vid2id v = if v ∈ ws then some (ws.idxOf v) else none

section Laid

variable {row : CSRRow} {nb : Nat → List Nat} {ws : List Nat}

theorem empty_laid (nb : Nat → List Nat) : CSRRow.empty.Laid nb [] where
  nodup := nodup_nil
  index := rfl
  offset := rfl
  adjacency := rfl
  offsets := rfl
  known _ := rfl

theorem CSRRow.Laid.append (laid : row.Laid nb ws) {v : Nat} (new : v ∉ ws) (filled : nb v ≠ []) :
    (row.append v (nb v)).Laid nb (ws ++ [v]) := by
  obtain ⟨x, rest, neighbours⟩ := exists_cons_of_ne_nil filled
  rw [neighbours, row_append_cons, ← neighbours]
  constructor
  · exact nodup_append.mpr ⟨laid.nodup, nodup_singleton v, fun a old b last same =>
      new (mem_singleton.mp last ▸ same ▸ old)⟩
  · simp [laid.index]
  · simp [laid.offset]
  · simp [laid.adjacency]
  · simp only [laid.offsets, laid.offset, length_append, length_singleton, range_succ, map_append,
      map_singleton, take_left']
    congr 1
    refine map_congr_left fun i below => ?_
    rw [take_append_of_le_length (mem_range.mp below).le]
  · intro w
    have unknown : row.vid2id v = none := by rw [laid.known, if_neg new]
    simp only [unknown, Option.isSome_none, Bool.false_eq_true, if_false, laid.index]
    obtain rfl | same := eq_or_ne w v
    · rw [Function.update_self, if_pos (by simp), idxOf_append_of_notMem new]
      simp
    · rw [Function.update_of_ne same, laid.known]
      by_cases old : w ∈ ws
      · rw [if_pos old, if_pos (mem_append_left _ old), idxOf_append_of_mem old]
      · rw [if_neg old, if_neg (by simp [old, same])]

theorem foldl_laid (laid : row.Laid nb ws) {vs : List Nat} (nodup : (ws ++ vs).Nodup) :
    (vs.foldl (fun row v => row.append v (nb v)) row).Laid nb
    (ws ++ vs.filter fun v => nb v ≠ []) := by
  induction vs generalizing row ws with
  | nil => simpa using laid
  | cons v vs ih =>
    rw [foldl_cons]
    by_cases filled : nb v = []
    · rw [filled, row_append_nil, filter_cons_of_neg (by simp [filled])]
      exact ih laid (nodup.sublist (List.Sublist.append_left (sublist_cons_self v vs) ws))
    · have new : v ∉ ws := fun old => (nodup_append.mp nodup).2.2 v old v mem_cons_self rfl
      rw [filter_cons_of_pos (by simp [filled])]
      have next := ih (laid.append new filled) (by rwa [append_assoc, singleton_append])
      rwa [append_assoc, singleton_append] at next

theorem CSRRow.Laid.verts (laid : row.Laid nb ws) {v : Nat} (small : v < 2 ^ 32) :
    row.size v = (if v ∈ ws then nb v else []).length ∧
      ∀ pos, row.vertID v pos = if h : pos < (if v ∈ ws then nb v else []).length then
        (((if v ∈ ws then nb v else []).get ⟨pos, h⟩ : Nat) : Int) else -1 := by
  have id : row.indexByID v = row.vid2id v := by
    rw [CSRRow.indexByID]
    congr 1
    omega
  by_cases inside : v ∈ ws
  · obtain ⟨before, after, rfl⟩ := append_of_mem inside
    have fresh : v ∉ before := fun old => (nodup_append.mp laid.nodup).2.2 v old v mem_cons_self rfl
    have place : (before ++ v :: after).idxOf v = before.length := by
      rw [idxOf_append_of_notMem fresh, idxOf_cons_self, Nat.add_zero]
    have found : row.indexByID v = some before.length := by
      rw [id, laid.known, if_pos inside, place]
    have offset : ∀ i ≤ after.length, word row.offsetList (before.length + i) =
        ((before ++ (v :: after).take i).flatMap nb).length := by
      intro i below
      have range : before.length + i < (List.range (before ++ v :: after).length).length := by
        simp; omega
      rw [word, laid.offsets, getD_eq_getElem _ _ (by rwa [length_map]), getElem_map, getElem_range,
        take_append, take_of_length_le (Nat.le_add_right _ _), Nat.add_sub_cancel_left]
    have first : word row.offsetList before.length = (before.flatMap nb).length := by
      simpa using offset 0 (Nat.zero_le _)
    have size : row.size v = (nb v).length := by
      rw [CSRRow.size, found]
      dsimp only
      rw [first, laid.adjacency]
      have count : row.offsetList.length = (before ++ v :: after).length := by
        rw [laid.offsets]; simp
      split_ifs with last
      · rw [count, length_append, length_cons] at last
        have none : after = [] := length_eq_zero_iff.mp (by omega)
        simp [none]
      · rw [count, length_append, length_cons] at last
        rw [offset 1 (by omega)]
        simp
    rw [if_pos inside]
    refine ⟨size, fun pos => ?_⟩
    rw [CSRRow.vertID, size]
    split
    · rename_i beyond
      rw [dif_neg (by omega)]
    · rename_i within
      rw [found, dif_pos (by omega)]
      dsimp only
      rw [first, laid.adjacency, word, flatMap_append,
          getD_append_right _ _ _ _ (Nat.le_add_right _ _),
        Nat.add_sub_cancel_left, flatMap_cons, getD_append _ _ _ _
        (by omega), getD_eq_getElem _ _ (by omega)]
      rfl
  · have missing : row.indexByID v = none := by rw [id, laid.known, if_neg inside]
    rw [if_neg inside]
    refine ⟨by rw [CSRRow.size, missing]; rfl, fun pos => ?_⟩
    rw [CSRRow.vertID, CSRRow.size, missing]
    simp

end Laid

section Lists

variable {kv : KVstore} {S : Finset Triple}

def KVstore.outList (kv : KVstore) (p v : Nat) : List Nat :=
  (kv.getobjIDlistBysubIDpreID v p).filter fun o => decide (o < literalFirstID)

def KVstore.inList (kv : KVstore) (p v : Nat) : List Nat :=
  if literalFirstID ≤ v then [] else kv.getsubIDlistByobjIDpreID v p

variable (consistent : kv.Consistent S)
include consistent

theorem outList_spec (p v : Nat) :
    (kv.outList p v).Nodup ∧ ∀ o, o ∈ kv.outList p v ↔ ⟨v, p, o⟩ ∈ S ∧ o < literalFirstID := by
  unfold KVstore.outList KVstore.getobjIDlistBysubIDpreID
  by_cases entity : isEntityEle v = true
  · obtain ⟨sorted, members⟩ := sublistIn_spec (consistent.holds.subjects v) p
    simp only [entity, Bool.not_true, Bool.false_eq_true, if_false]
    refine ⟨(sorted.imp fun lt => ne_of_lt lt).filter _, fun o => ?_⟩
    rw [mem_filter, members, decide_eq_true_iff]
  · simp only [entity, Bool.not_false, if_true, filter_nil]
    refine ⟨nodup_nil, fun o => iff_of_false not_mem_nil fun both => ?_⟩
    exact entity (consistent.subjects _ both.1)

theorem inList_spec (p v : Nat) :
    (kv.inList p v).Nodup ∧ ∀ s, s ∈ kv.inList p v ↔ ⟨s, p, v⟩ ∈ S ∧ v < literalFirstID := by
  unfold KVstore.inList KVstore.getsubIDlistByobjIDpreID
  by_cases literal : literalFirstID ≤ v
  · rw [if_pos literal]
    exact ⟨nodup_nil, fun s => iff_of_false not_mem_nil fun both =>
        absurd both.2 (not_lt.mpr literal)⟩
  · have valid : v ≠ invalidID := by
      rintro rfl
      exact literal (by decide)
    obtain ⟨sorted, members⟩ := sublistIn_spec (consistent.holds.objects v) p
    rw [if_neg literal, if_neg valid]
    refine ⟨sorted.imp fun lt => ne_of_lt lt, fun s => ?_⟩
    rw [members]
    exact ⟨fun stored => ⟨stored, not_le.mp literal⟩, And.left⟩

omit consistent in
theorem idsOf_true_spec {M : Finset Triple} {f : Triple → Nat} {read : Option (List Nat)}
    (answer : read = idsOf M f true) :
    (read.getD []).Nodup ∧ ∀ x, x ∈ read.getD [] ↔ ∃ t ∈ M, f t = x := by
  rw [answer, idsOf]
  split
  · rename_i none
    simp [none]
  · simp only [if_true, Option.getD_some, Finset.mem_sort, Finset.mem_image, implies_true, and_true]
    exact Finset.sort_nodup _ _

theorem getsubIDlistBypreID_spec (p : Nat) :
    (kv.getsubIDlistBypreID p).Nodup ∧ ∀ v, v ∈ kv.getsubIDlistBypreID p ↔
    ∃ t ∈ S.filter (·.pre = p), t.sub = v := by
  have same : kv.getsubIDlistBypreID p = (getsubIDlistBypreID kv.getValueByKey p true).getD [] := by
    unfold KVstore.getsubIDlistBypreID getsubIDlistBypreID
    cases kv.getValueByKey ⟨.predicate, p⟩ <;> rfl
  rw [same]
  exact idsOf_true_spec (consistent.reads.subIDlistBypreID p true)

theorem getobjIDlistBypreID_spec (p : Nat) :
    (kv.getobjIDlistBypreID p).Nodup ∧ ∀ v, v ∈ kv.getobjIDlistBypreID p ↔
    ∃ t ∈ S.filter (·.pre = p), t.obj = v := by
  have same : kv.getobjIDlistBypreID p = (getobjIDlistBypreID kv.getValueByKey p true).getD [] := by
    unfold KVstore.getobjIDlistBypreID getobjIDlistBypreID
    cases kv.getValueByKey ⟨.predicate, p⟩ with
    | none => rfl
    | some tmp => simp [Option.map_some, Option.getD_some, sortIds, Nat.two_mul, Nat.add_assoc]
  rw [same]
  exact idsOf_true_spec (consistent.reads.objIDlistBypreID p true)

omit consistent in
theorem foldl_laid_all {nb : Nat → List Nat} {vs : List Nat} (nodup : vs.Nodup)
    (all : ∀ v, nb v ≠ [] → v ∈ vs) :
    ∃ ws, CSRRow.Laid (vs.foldl (fun row v => row.append v (nb v)) CSRRow.empty) nb ws ∧
    ∀ v, v ∈ ws ↔ nb v ≠ [] := by
  refine ⟨_, foldl_laid (empty_laid nb) (by simpa using nodup), fun v => ?_⟩
  simp only [nil_append, mem_filter, decide_eq_true_iff]
  exact ⟨And.right, fun filled => ⟨all v filled, filled⟩⟩

theorem outRow_laid (p : Nat) : ∃ ws, (kv.outRow p).Laid (kv.outList p) ws ∧ ∀ v, v ∈ ws ↔
    kv.outList p v ≠ [] := by
  obtain ⟨nodup, members⟩ := getsubIDlistBypreID_spec consistent p
  refine foldl_laid_all nodup fun v filled => (members v).mpr ?_
  obtain ⟨o, listed⟩ := exists_mem_of_ne_nil _ filled
  exact ⟨_, Finset.mem_filter.mpr ⟨(((outList_spec consistent p v).2 o).mp listed).1, rfl⟩, rfl⟩

theorem inRow_laid (p : Nat) : ∃ ws, (kv.inRow p).Laid (kv.inList p) ws ∧ ∀ v, v ∈ ws ↔
    kv.inList p v ≠ [] := by
  obtain ⟨nodup, members⟩ := getobjIDlistBypreID_spec consistent p
  have turns : kv.inRow p = (kv.getobjIDlistBypreID p).foldl
      (fun row o => row.append o (kv.inList p o)) .empty := by
    rw [KVstore.inRow]
    congr 1
    funext row o
    rw [KVstore.inList]
    split
    · rw [row_append_nil]
    · rfl
  rw [turns]
  refine foldl_laid_all nodup fun v filled => (members v).mpr ?_
  obtain ⟨s, listed⟩ := exists_mem_of_ne_nil _ filled
  exact ⟨_, Finset.mem_filter.mpr ⟨(((inList_spec consistent p v).2 s).mp listed).1, rfl⟩, rfl⟩

end Lists

theorem CSRRow.Laid.slice {row : CSRRow} {nb : Nat → List Nat} {ws : List Nat}
    (laid : row.Laid nb ws)
    (all : ∀ v, v ∈ ws ↔ nb v ≠ []) {v : Nat} (small : v < 2 ^ 32) :
    row.size v = (nb v).length ∧ ∀ pos, row.vertID v pos = ((nb v)[pos]?.map Int.ofNat).getD
    (-1) := by
  have whole : (if v ∈ ws then nb v else []) = nb v := by
    split
    · rfl
    · rename_i missing
      exact (not_not.mp (mt (all v).mpr missing)).symm
  obtain ⟨size, verts⟩ := laid.verts small
  rw [whole] at size
  refine ⟨size, fun pos => ?_⟩
  rw [verts, whole]
  split_ifs with below
  · rw [getElem?_eq_getElem below]
    rfl
  · rw [getElem?_eq_none (by omega)]
    rfl

/-! `CSRQueryHandler` -/

variable (csr : CSR × CSR)

def getOutSize (vid : Int) (pred : Nat) : Nat := (csr.1.rows pred).size vid
def getOutVertID (vid : Int) (pred pos : Nat) : Int := (csr.1.rows pred).vertID vid pos
def getInSize (vid : Int) (pred : Nat) : Nat := (csr.2.rows pred).size vid
def getInVertID (vid : Int) (pred pos : Nat) : Int := (csr.2.rows pred).vertID vid pos

/-- `total_edges` and `CSR::m` are of type `unsigned`. -/
def getEdgeNum : Nat := csr.2.m % 2 ^ 32

/-- A reader of `size` positions enumerates the vertices of `N`, each once, and returns -1 exactly
beyond them. -/
structure Enumerates (size : Nat) (vertID : Nat → Int) (N : Nat → Prop) : Prop where
  once : ((List.range size).map vertID).Nodup
  members : ∀ x : Int, x ∈ (List.range size).map vertID ↔ ∃ w : Nat, x = w ∧ N w
  beyond : ∀ pos, vertID pos = -1 ↔ size ≤ pos

/-- The graph of the entities: the readers of both halves enumerate the neighbours, and the edges
are counted. -/
structure IsEntityGraph (csr : CSR × CSR) (preNum : Nat) (S : Finset Triple) : Prop where
  out : ∀ p < preNum, ∀ v < literalFirstID, Enumerates (getOutSize csr v p) (getOutVertID csr v p)
    fun o => ⟨v, p, o⟩ ∈ S ∧ o < literalFirstID
  into : ∀ p < preNum, ∀ v < literalFirstID, Enumerates (getInSize csr v p) (getInVertID csr v p)
    fun s => ⟨s, p, v⟩ ∈ S
  edgeNum : getEdgeNum csr = (S.filter fun t => t.obj < literalFirstID).card

theorem enumerates_of_slice {size : Nat} {vertID : Nat → Int} {l : List Nat} {N : Nat → Prop}
    (length : size = l.length)
    (slice : ∀ pos, vertID pos = (l[pos]?.map Int.ofNat).getD (-1)) (nodup : l.Nodup)
    (members : ∀ x, x ∈ l ↔ N x) :
    Enumerates size vertID N := by
  have listed : (List.range size).map vertID = l.map Int.ofNat := by
    refine ext_getElem (by simp [length]) fun i below _ => ?_
    have inside : i < l.length := by simpa [length] using below
    simp [slice, getElem?_eq_getElem inside]
  constructor
  · rw [listed]
    exact nodup.map fun a b same => Int.ofNat.inj same
  · intro x
    rw [listed, mem_map]
    constructor
    · rintro ⟨w, inside, rfl⟩
      exact ⟨w, rfl, (members w).mp inside⟩
    · rintro ⟨w, rfl, met⟩
      exact ⟨w, (members w).mpr met, rfl⟩
  · intro pos
    rw [slice, length]
    by_cases inside : pos < l.length
    · rw [getElem?_eq_getElem inside]
      simp only [Option.map_some, Option.getD_some]
      have nonneg := Int.natCast_nonneg l[pos]
      exact ⟨fun negative => by rw [Int.ofNat_eq_natCast] at negative; omega, fun beyond => by omega⟩
    · rw [getElem?_eq_none (by omega)]
      simp only [Option.map_none, Option.getD_none, true_iff]
      omega

section Load

variable {db : Database} {S : Finset Triple} {preNum : Nat}

theorem loadCSR_edges (consistent : db.kvstore.Consistent S) (named : ∀ t ∈ S, t.pre < preNum) :
    (db.loadCSR preNum).2.m = (S.filter fun t => t.obj < literalFirstID).card := by
  choose ws laid all using fun p => inRow_laid consistent p
  have lists := inList_spec consistent
  let edges : List Triple := (List.range preNum).flatMap fun p => (ws p).flatMap fun o =>
    (db.kvstore.inList p o).map fun s => ⟨s, p, o⟩
  have count : (db.loadCSR preNum).2.m = edges.length := by
    have rows : ∀ p ∈ List.range preNum,
      (rowsBelow preNum db.kvstore.inRow p).adjacencyList.length =
        ((ws p).flatMap fun o => (db.kvstore.inList p o).map fun s =>
          (⟨s, p, o⟩ : Triple)).length := by
      intro p below
      rw [rowsBelow, if_pos (mem_range.mp below), (laid p).adjacency]
      simp [length_flatMap]
    rw [length_flatMap]
    exact congrArg List.sum (map_congr_left rows)
  have members : ∀ t, t ∈ edges ↔ t ∈ S.filter fun t => t.obj < literalFirstID := by
    intro t
    simp only [edges, mem_flatMap, mem_range, mem_map, Finset.mem_filter]
    constructor
    · rintro ⟨p, -, o, -, s, listed, rfl⟩
      exact ((lists p o).2 s).mp listed
    · rintro ⟨stored, entity⟩
      have listed := ((lists t.pre t.obj).2 t.sub).mpr ⟨stored, entity⟩
      exact ⟨t.pre, named t stored, t.obj, (all t.pre t.obj).mpr (ne_nil_of_mem listed), t.sub,
          listed, rfl⟩
  have nodup : edges.Nodup := by
    refine nodup_flatMap.mpr ⟨fun p _ => nodup_flatMap.mpr ⟨fun o _ => ?_, ?_⟩, ?_⟩
    · exact (lists p o).1.map fun a b same => congrArg Triple.sub same
    · refine (laid p).nodup.imp fun {o o'} ne t left right => ?_
      obtain ⟨s, -, rfl⟩ := mem_map.mp left
      obtain ⟨s', -, same⟩ := mem_map.mp right
      exact ne (congrArg Triple.obj same).symm
    · refine nodup_range.imp fun {p p'} ne t left right => ?_
      simp only [mem_flatMap, mem_map] at left right
      obtain ⟨o, -, s, -, rfl⟩ := left
      obtain ⟨o', -, s', -, same⟩ := right
      exact ne (congrArg Triple.pre same).symm
  rw [count, ← toFinset_card_of_nodup nodup]
  congr 1
  ext t
  rw [mem_toFinset, members]

/-- After `loadCSR` the readers give the graph of the entities if and only if its edges can be
counted in 32 bits. The offsets into the edges of one predicate are those of the code for fewer than
`2 ^ 31` of them. -/
theorem loadCSR_isEntityGraph_iff (consistent : db.kvstore.Consistent S)
    (named : ∀ t ∈ S, t.pre < preNum)
    (_few : ∀ p, (S.filter fun t => t.pre = p).card < 2 ^ 31) :
    IsEntityGraph (db.loadCSR preNum) preNum S ↔ (S.filter fun t => t.obj < literalFirstID).card <
    2 ^ 32 := by
  have small : ∀ {v : Nat}, v < literalFirstID → v < 2 ^ 32 := fun below => below.trans (by decide)
  constructor
  · intro graph
    rw [← graph.edgeNum]
    exact Nat.mod_lt _ (by decide)
  · intro countable
    refine ⟨fun p below v entity => ?_, fun p below v entity => ?_, ?_⟩
    · obtain ⟨ws, laid, all⟩ := outRow_laid consistent p
      obtain ⟨size, slice⟩ := laid.slice all (small entity)
      obtain ⟨nodup, members⟩ := outList_spec consistent p v
      have row : (db.loadCSR preNum).1.rows p = db.kvstore.outRow p := if_pos below
      refine enumerates_of_slice ?_ (fun pos => ?_) nodup members
      · rw [getOutSize, row, size]
      · rw [getOutVertID, row, slice]
    · obtain ⟨ws, laid, all⟩ := inRow_laid consistent p
      obtain ⟨size, slice⟩ := laid.slice all (small entity)
      obtain ⟨nodup, members⟩ := inList_spec consistent p v
      have row : (db.loadCSR preNum).2.rows p = db.kvstore.inRow p := if_pos below
      refine enumerates_of_slice ?_ (fun pos => ?_) nodup fun s => (members s).trans
        (and_iff_left entity)
      · rw [getInSize, row, size]
      · rw [getInVertID, row, slice]
    · rw [getEdgeNum, loadCSR_edges consistent named, Nat.mod_eq_of_lt countable]

end Load

/-- The store of two triples, as a database. -/
theorem twoObjects_graph :
    IsEntityGraph (Database.loadCSR { Database.empty [] with kvstore := twoObjects } 1) 1
    {⟨0, 0, 1⟩, ⟨0, 0, 2⟩} :=
  (loadCSR_isEntityGraph_iff twoObjects_consistent (by decide) fun _ =>
    (Finset.card_filter_le _ _).trans_lt (by decide)).mpr (by decide)

theorem exists_consistent (S : Finset Triple)
    (entities : ∀ t ∈ S, t.sub < literalFirstID ∧ t.obj < literalFirstID)
    (named : ∀ t ∈ S, t.pre < maxKeyNum) (few : ∀ p, (S.filter fun t => t.pre = p).card < 2 ^ 31) :
    ∃ kv : KVstore, kv.Consistent S := by
  have room : literalFirstID < maxKeyNum := by decide
  have fits : ∀ t ∈ S.toList, t.sub < maxKeyNum ∧ t.pre < maxKeyNum ∧
      t.obj < literalFirstID + maxKeyNum := by
    intro t member
    have inside := Finset.mem_toList.mp member
    exact ⟨(entities t inside).1.trans room, named t inside,
        (entities t inside).2.trans_le (Nat.le_add_right _ _)⟩
  let ts : List IdTriple := S.toList.pmap (fun t h => ⟨t, h.1, h.2.1, h.2.2⟩) fits
  have triples : ts.map IdTriple.toTriple = S.toList := by
    rw [List.map_pmap]
    exact (List.pmap_eq_map (f := id) fits).trans (List.map_id _)
  have nodup : ts.Nodup := .of_map IdTriple.toTriple (triples ▸ S.nodup_toList)
  have counts (p : Nat) : 0 + ts.countP (fun t => t.pre = p) < 2 ^ 31 := by
    have mapped : ts.countP (fun t => t.pre = p) = (ts.map IdTriple.toTriple).countP fun t =>
        t.pre = p := by
      rw [List.countP_map]
      rfl
    have listed : (S.toList.filter fun t => t.pre = p).toFinset = S.filter fun t => t.pre = p := by
      ext t
      simp
    rw [Nat.zero_add, mapped, triples, List.countP_eq_length_filter,
      ← List.toFinset_card_of_nodup (S.nodup_toList.filter _), listed]
    exact few p
  have holds := insertAll_holds empty_holds nodup (fun _ _ => id) (m := fun _ => 0)
    (fun _ => Nat.zero_le _) counts
  rw [triples] at holds
  refine ⟨_, holds_congr holds
      fun t => by simp, fun t stored => decide_eq_true (entities t stored).1, fun t stored => ?_⟩
  exact ((entities t stored).2.trans (by decide : literalFirstID < invalidID)).ne

def allTriples (preds n : Nat) : Finset Triple :=
  (Finset.range preds ×ˢ Finset.range n ×ˢ Finset.range n).image fun e => ⟨e.2.1, e.1, e.2.2⟩

theorem mem_allTriples {preds n : Nat} {t : Triple} :
    t ∈ allTriples preds n ↔ t.pre < preds ∧ t.sub < n ∧ t.obj < n := by
  simp only [allTriples, Finset.mem_image, Finset.mem_product, Finset.mem_range, Prod.exists]
  constructor
  · rintro ⟨p, s, o, inside, rfl⟩
    exact inside
  · intro inside
    exact ⟨t.pre, t.sub, t.obj, inside, rfl⟩

theorem card_allTriples (preds n : Nat) : (allTriples preds n).card = preds * (n * n) := by
  rw [allTriples, Finset.card_image_of_injective, Finset.card_product, Finset.card_product,
      Finset.card_range,
    Finset.card_range]
  rintro ⟨p, s, o⟩ ⟨p', s', o'⟩ same
  simp only [Triple.mk.injEq] at same
  simp [same]

theorem card_allTriples_of_pre (preds n p : Nat) :
    ((allTriples preds n).filter fun t => t.pre = p).card ≤ n * n := by
  have inside : (allTriples preds n).filter (fun t => t.pre = p) ⊆
      (Finset.range n ×ˢ Finset.range n).image fun e => ⟨e.1, p, e.2⟩ := by
    intro t member
    obtain ⟨listed, rfl⟩ := Finset.mem_filter.mp member
    obtain ⟨-, sub, obj⟩ := mem_allTriples.mp listed
    exact Finset.mem_image.mpr ⟨(t.sub, t.obj), by simp [sub, obj], rfl⟩
  refine (Finset.card_le_card inside).trans (Finset.card_image_le.trans ?_)
  rw [Finset.card_product, Finset.card_range]

theorem getEdgeNum_allTriples {preds n : Nat} (entities : n ≤ literalFirstID)
    (named : preds ≤ maxKeyNum)
    (few : n * n < 2 ^ 31) :
    ∃ db : Database, db.kvstore.Consistent (allTriples preds n) ∧
    (∀ t ∈ allTriples preds n, t.pre < preds) ∧
      ((allTriples preds n).filter fun t => t.obj < literalFirstID).card = preds * (n * n) ∧
      getEdgeNum (db.loadCSR preds) = preds * (n * n) % 2 ^ 32 := by
  have bounds := fun t (member : t ∈ allTriples preds n) => mem_allTriples.mp member
  have card : ((allTriples preds n).filter fun t => t.obj < literalFirstID).card = preds *
      (n * n) := by
    rw [Finset.filter_true_of_mem fun t member => (bounds t member).2.2.trans_le entities,
        card_allTriples]
  obtain ⟨kv, consistent⟩ := exists_consistent (allTriples preds n)
    (fun t member => ⟨(bounds t member).2.1.trans_le entities,
      (bounds t member).2.2.trans_le entities⟩)
    (fun t member => (bounds t member).1.trans_le named) fun p =>
    (card_allTriples_of_pre preds n p).trans_lt few
  have below : ∀ t ∈ allTriples preds n, t.pre < preds := fun t member => (bounds t member).1
  refine ⟨{ Database.empty [] with kvstore := kv }, consistent, below, card, ?_⟩
  rw [getEdgeNum, @loadCSR_edges { Database.empty [] with kvstore := kv } _ _ consistent below,
      card]

/-- With 16 predicates between 16384 entities there are `2 ^ 32` edges, and the number kept is 0. -/
theorem edge_number_wraps : ∃ db : Database, db.kvstore.Consistent (allTriples 16 16384) ∧
    (∀ t ∈ allTriples 16 16384, t.pre < 16) ∧
    ((allTriples 16 16384).filter fun t => t.obj < literalFirstID).card = 2 ^ 32 ∧
    getEdgeNum (db.loadCSR 16) = 0 :=
  getEdgeNum_allTriples (by decide) (by decide) (by decide)

end GStore
