import GStore.Query.EdgeFilter
import GStore.Query.IDList

/-! `Executor::ExtendRecordOneNode`: the values of a new node for one record, as the intersection of
the lists of the edges, and how often each value is among them. -/
namespace GStore.Executor

open Lib List

def updateIDList (close : Nat → Nat → Bool) (valid list : List Nat) (prepared : Bool) : List Nat :=
  if prepared then (IDList.intersectList close valid list).1 else valid ++ list

/-- One turn of the loop over the edges, on `record_candidate_list` and `record_candidate_prepared`.
-/
def extendByEdge (values : Key → Option (List Nat)) (close : Nat → Nat → Bool) (cols : List Nat)
    (distinct : Bool)
    (record : List Nat) (state : List Nat × Bool) (e : EdgeInfo) :
    Except String (List Nat × Bool) :=
  if state.2 = true ∧ state.1 = [] then .ok state
  else match e.method with
    | .one m =>
      .ok (updateIDList close state.1
        (candidatesOfEdge values distinct m (e.idInRecord cols record)) state.2, true)
    | .two _ => .error "ExtendRecordOneNode only support add 1 node each time"

def extendRecordOneNode (values : Key → Option (List Nat)) (close : Nat → Nat → Bool)
    (cols : List Nat)
    (edges : List EdgeInfo) (idCaches : Nat → Option (List Nat)) (newId : Nat) (distinct : Bool)
    (record : List Nat) :
    Except String (List Nat) :=
  (edges.foldlM (extendByEdge values close cols distinct record) ([], false)).map fun state =>
    match idCaches newId with
    | some cache => (IDList.intersectList close state.1 cache).1
    | none => state.1

namespace EdgeInfo

/-- The triples that match the edge with the values of the record and `v` for the new node. -/
def matching (S : Finset Triple) (cols : List Nat) (newId : Nat) (record : List Nat) (v : Nat)
    (e : EdgeInfo) :
    Finset Triple :=
  S.filter fun t => ∀ q ∈ e.positions, idAt q t =
    if e.constant q then e.id q else (record ++ [v]).getD ((cols ++ [newId]).idxOf (e.id q)) 0

def Extends (cols : List Nat) (newId : Nat) (e : EdgeInfo) : Prop :=
  ∃ m, e.method = .one m ∧ e.constant m.found = false ∧ e.id m.found = newId ∧
    ∀ q ∈ m.given, e.constant q = false → e.id q ∈ cols

def FindsPredicates (e : EdgeInfo) : Prop := e.method = .one .s2p ∨ e.method = .one .o2p

end EdgeInfo

/-- A value that every edge matches does so with one triple per edge where there are several edges,
or where the edge lists a predicate, and is in the candidates of the node often enough. -/
def OneTripleEach (S : Finset Triple) (cols : List Nat) (edges : List EdgeInfo)
    (idCaches : Nat → Option (List Nat))
    (newId : Nat) (record : List Nat) : Prop :=
  edges ≠ [] ∧ ∀ v, (∀ e ∈ edges, e.matching S cols newId record v ≠ ∅) → ∀ e ∈ edges,
    (1 < edges.length ∨ e.FindsPredicates → (e.matching S cols newId record v).card = 1) ∧
      ∀ cache ∈ idCaches newId, (e.matching S cols newId record v).card ≤ cache.count v

theorem idsOf_count {M : Finset Triple} {f : Triple → Nat} {nd : Bool} {read : Option (List Nat)}
    (answer : read = idsOf M f nd) : (read.getD []).Pairwise (· ≤ ·) ∧ ∀ v, (read.getD []).count v =
      if nd then min 1 (M.filter (f · = v)).card else (M.filter (f · = v)).card := by
  rw [answer, idsOf]
  by_cases none : M = ∅
  · simp [none]
  · rw [if_neg none, Option.getD_some]
    cases nd with
    | false =>
      refine ⟨Multiset.pairwise_sort _ _, fun v => ?_⟩
      simp only [Bool.false_eq_true, if_false]
      rw [← Multiset.coe_count, Multiset.sort_eq, Multiset.count_map, Finset.card_def,
          Finset.filter_val]
      simp [eq_comm]
    | true =>
      refine ⟨Finset.pairwise_sort _ _, fun v => ?_⟩
      simp only [if_true]
      rw [(Finset.sort_nodup _ _).count]
      simp only [Finset.mem_sort]
      by_cases inside : v ∈ M.image f
      · obtain ⟨t, member, same⟩ := Finset.mem_image.mp inside
        have some : 0 < (M.filter (f · = v)).card :=
          Finset.card_pos.mpr ⟨t, Finset.mem_filter.mpr ⟨member, same⟩⟩
        rw [if_pos inside]
        omega
      · rw [if_neg inside, Finset.filter_eq_empty_iff.mpr fun t member same =>
            inside (Finset.mem_image.mpr ⟨t, member, same⟩)]
        rfl

section Record

variable {values : Key → Option (List Nat)} {S : Finset Triple} {cols : List Nat} {newId : Nat}
    {record : List Nat}
  {close : Nat → Nat → Bool} {edges : List EdgeInfo} {idCaches : Nat → Option (List Nat)}
    {e : EdgeInfo}

theorem candidatesOfEdge_spec (reads : ReadsExactly values S) (m : JoinMethod)
    (id : Position → Nat) :
    (candidatesOfEdge values false m id).Pairwise (· ≤ ·) ∧
    ∀ v, (candidatesOfEdge values false m id).count v =
      let matched := (S.filter fun t => idAt m.found t = v ∧ ∀ q ∈ m.given, idAt q t = id q).card
      if m.listsOnce then min 1 matched else matched := by
  obtain ⟨M, members, read, eq, answer⟩ := @candidatesOfEdge_read values S reads false m id
  obtain ⟨sorted, counts⟩ := idsOf_count answer
  rw [eq]
  refine ⟨sorted, fun v => ?_⟩
  have same : M.filter (idAt m.found · = v) = S.filter fun t => idAt m.found t = v ∧
      ∀ q ∈ m.given, idAt q t = id q := by
    ext t
    simp only [Finset.mem_filter, members]
    tauto
  rw [counts, same]
  cases m.listsOnce with
  | true => rfl
  | false => rfl

def listed (S : Finset Triple) (cols : List Nat) (newId : Nat) (record : List Nat) (v : Nat)
    (e : EdgeInfo) : Nat :=
  match e.method with
  | .one m => if m.listsOnce then min 1 (e.matching S cols newId record v).card
    else (e.matching S cols newId record v).card
  | .two _ => 0

theorem listed_le (v : Nat) :
    listed S cols newId record v e ≤ (e.matching S cols newId record v).card := by
  unfold listed
  split
  · split
    · exact Nat.min_le_right _ _
    · exact Nat.le_refl _
  · exact Nat.zero_le _

theorem listed_eq_iff (leads : e.Extends cols newId) {v : Nat}
    (some : e.matching S cols newId record v ≠ ∅) :
    listed S cols newId record v e = (e.matching S cols newId record v).card ↔
      (e.FindsPredicates → (e.matching S cols newId record v).card = 1) := by
  obtain ⟨m, method, -⟩ := leads
  have one := Finset.card_pos.mpr (Finset.nonempty_iff_ne_empty.mpr some)
  simp only [listed, EdgeInfo.FindsPredicates, method, EdgeMethod.one.injEq]
  cases m with
  | s2p | o2p => simp [JoinMethod.listsOnce]; omega
  | _ => simp [JoinMethod.listsOnce]

variable (fits : record.length = cols.length) (fresh : newId ∉ cols)
include fits fresh

theorem matching_eq {m : JoinMethod} (method : e.method = .one m)
    (free : e.constant m.found = false)
    (new : e.id m.found = newId) (bound : ∀ q ∈ m.given, e.constant q = false → e.id q ∈ cols)
    (v : Nat) :
    e.matching S cols newId record v =
      S.filter fun t => idAt m.found t = v ∧
      ∀ q ∈ m.given, idAt q t = e.idInRecord cols record q := by
  unfold EdgeInfo.matching
  refine Finset.filter_congr fun t _ => ?_
  simp only [EdgeInfo.positions, method, forall_mem_cons, free, new, Bool.false_eq_true, if_false]
  rw [idxOf_append_of_notMem fresh]
  refine and_congr (by simp [fits]) (forall₂_congr fun q given => ?_)
  unfold EdgeInfo.idInRecord
  cases constant : e.constant q with
  | true => rfl
  | false =>
    have inside := bound q given constant
    rw [idxOf_append_of_mem inside, positionOf_eq inside, if_neg Bool.false_ne_true,
        if_neg Bool.false_ne_true,
      getD_append _ _ _ _ (by rw [fits]; exact idxOf_lt_length_of_mem inside)]

theorem candidates_listed (reads : ReadsExactly values S) (leads : e.Extends cols newId) :
    ∃ m, e.method = .one m ∧ (candidatesOfEdge values false m (e.idInRecord cols record)).Pairwise
    (· ≤ ·) ∧
      ∀ v, (candidatesOfEdge values false m (e.idInRecord cols record)).count v =
      listed S cols newId record v e := by
  obtain ⟨m, method, free, new, bound⟩ := leads
  obtain ⟨sorted, counts⟩ := candidatesOfEdge_spec reads m (e.idInRecord cols record)
  refine ⟨m, method, sorted, fun v => ?_⟩
  rw [counts, listed, method, matching_eq fits fresh method free new bound v]

variable (reads : ReadsExactly values S) (joins : ∀ e ∈ edges, e.Extends cols newId)
include reads joins

theorem extendByEdges_spec {list : List Nat} (sorted : list.Pairwise (· ≤ ·)) :
    ∃ new, edges.foldlM (extendByEdge values close cols false record) (list, true) = .ok
    (new, true) ∧
      new.Pairwise (· ≤ ·) ∧
        ∀ v n, n ≤ new.count v ↔ n ≤ list.count v ∧
        ∀ e ∈ edges, n ≤ listed S cols newId record v e := by
  induction edges generalizing list with
  | nil => exact ⟨list, rfl, sorted, by simp⟩
  | cons e edges ih =>
    obtain ⟨now, later⟩ := forall_mem_cons.mp joins
    rw [foldlM_cons]
    by_cases empty : list = []
    · obtain ⟨new, done, order, counts⟩ := ih later sorted
      refine ⟨new, by rw [extendByEdge, if_pos ⟨rfl, empty⟩]; exact done, order, fun v n => ?_⟩
      rw [counts, empty, count_nil, forall_mem_cons]
      refine and_congr_right fun zero => (and_iff_right ?_).symm
      omega
    · obtain ⟨m, method, order, listedTimes⟩ := candidates_listed fits fresh reads now
      have meet := @IDList.intersectList_spec close _ _ sorted order
      obtain ⟨new, done, order, counts⟩ := ih later meet.sorted
      refine ⟨new, ?_, order, fun v n => ?_⟩
      · rw [extendByEdge, if_neg fun both => empty both.2, method]
        exact done
      · rw [counts, meet.count, listedTimes, Nat.le_min, forall_mem_cons, and_assoc]

theorem extendRecordOneNode_spec (ordered : ∀ cache ∈ idCaches newId, cache.Pairwise (· ≤ ·))
    (some : edges ≠ []) :
    ∃ new, extendRecordOneNode values close cols edges idCaches newId false record = .ok new ∧
      ∀ v n, n ≤ new.count v ↔ (∀ e ∈ edges, n ≤ listed S cols newId record v e) ∧
        ∀ cache ∈ idCaches newId, n ≤ cache.count v := by
  cases edges with
  | nil => exact absurd rfl some
  | cons e edges =>
    obtain ⟨now, later⟩ := forall_mem_cons.mp joins
    obtain ⟨m, method, sorted, listedTimes⟩ := candidates_listed fits fresh reads now
    obtain ⟨list, done, order, counts⟩ :=
      @extendByEdges_spec _ _ _ _ _ close _ fits fresh reads later _ sorted
    have run : (e :: edges).foldlM (extendByEdge values close cols false record) ([], false) = .ok
        (list, true) := by
      rw [foldlM_cons, extendByEdge, if_neg (by simp), method]
      exact done
    unfold extendRecordOneNode
    rw [run]
    cases cached : idCaches newId with
    | none =>
      refine ⟨list, rfl, fun v n => ?_⟩
      simp [counts, listedTimes]
    | some cache =>
      have meet := @IDList.intersectList_spec close _ _ order (ordered cache cached)
      refine ⟨_, rfl, fun v n => ?_⟩
      simp [meet.count, counts, listedTimes]

end Record

theorem eq_one_of_prod {l : List Nat} (same : ∀ n ∈ l, n = l.prod) (positive : 0 < l.prod)
    (several : 1 < l.length) :
    l.prod = 1 := by
  match l with
  | a :: b :: l =>
    obtain ⟨first, second, -⟩ : a = _ ∧ b = _ ∧ _ := by simpa only [forall_mem_cons] using same
    rw [prod_cons] at first positive ⊢
    have rest : (b :: l).prod = 1 :=
      Nat.eq_of_mul_eq_mul_left (Nat.pos_of_mul_pos_right positive) (by rw [← first, mul_one])
    rw [prod_cons, ← first] at second
    rw [rest, mul_one, ← second]
    rw [prod_cons] at rest
    exact Nat.eq_one_of_mul_eq_one_right rest

theorem count_eq_prod_iff {S : Finset Triple} {cols : List Nat} {newId : Nat} {record : List Nat}
    {edges : List EdgeInfo}
    {idCaches : Nat → Option (List Nat)} (joins : ∀ e ∈ edges, e.Extends cols newId)
    (nonempty : edges ≠ []) {v count : Nat}
    (counts : ∀ n, n ≤ count ↔ (∀ e ∈ edges, n ≤ listed S cols newId record v e) ∧
      ∀ cache ∈ idCaches newId, n ≤ cache.count v) :
    count = (edges.map fun e => (e.matching S cols newId record v).card).prod ↔
      ((∀ e ∈ edges, e.matching S cols newId record v ≠ ∅) → ∀ e ∈ edges,
        (1 < edges.length ∨ e.FindsPredicates → (e.matching S cols newId record v).card = 1) ∧
          ∀ cache ∈ idCaches newId, (e.matching S cols newId record v).card ≤ cache.count v) := by
  set P := (edges.map fun e => (e.matching S cols newId record v).card).prod with product
  have some_iff : (∀ e ∈ edges, e.matching S cols newId record v ≠ ∅) ↔ 0 < P := by
    rw [Nat.pos_iff_ne_zero, ne_eq, product, prod_eq_zero_iff]
    simp
  constructor
  · intro same some e member
    have positive : 0 < P := some_iff.mp some
    obtain ⟨lists, caches⟩ := (counts P).mp same.ge
    have each : ∀ e ∈ edges, (e.matching S cols newId record v).card = P := fun e member =>
      le_antisymm (Nat.le_of_dvd positive (dvd_prod (mem_map_of_mem member)))
      ((lists e member).trans (listed_le v))
    refine ⟨?_, fun cache cached => each e member ▸ caches cache cached⟩
    rintro (several | finds)
    · rw [each e member, product]
      exact eq_one_of_prod (by simpa using each) positive (by simpa using several)
    · refine (listed_eq_iff (joins e member) (some e member)).mp
        (le_antisymm (listed_le v) ?_) finds
      exact (each e member).trans_le (lists e member)
  · intro one
    obtain ⟨e, member⟩ := exists_mem_of_ne_nil edges nonempty
    by_cases some : ∀ e ∈ edges, e.matching S cols newId record v ≠ ∅
    · have each : ∀ e ∈ edges, (e.matching S cols newId record v).card = P := by
        by_cases several : 1 < edges.length
        · have ones : ∀ e ∈ edges, (e.matching S cols newId record v).card = 1 := fun e member =>
            (one some e member).1 (.inl several)
          rw [product, prod_eq_one (by simpa using ones)]
          exact ones
        · have single : edges.length = 1 :=
            Nat.le_antisymm (not_lt.mp several) (length_pos_of_mem member)
          obtain ⟨e, rfl⟩ := length_eq_one_iff.mp single
          simp [product]
      have full : ∀ e ∈ edges, listed S cols newId record v e = P := fun e member =>
        ((listed_eq_iff (joins e member) (some e member)).mpr fun finds =>
          (one some e member).1 (.inr finds)).trans
          (each e member)
      refine le_antisymm ((((counts count).mp le_rfl).1 e member).trans (full e member).le)
        ((counts P).mpr ⟨?_, ?_⟩)
      · exact fun e member => (full e member).ge
      · exact fun cache cached => each e member ▸ (one some e member).2 cache cached
    · have zero : P = 0 := by
        rw [some_iff] at some
        omega
      simp only [not_forall, not_not] at some
      obtain ⟨e, member, empty⟩ := some
      have least := (((counts count).mp le_rfl).1 e member).trans (listed_le v)
      rw [empty, Finset.card_empty] at least
      omega

theorem extension_counts_iff (kv : KVstore) (S : Finset Triple) (consistent : kv.Consistent S)
    (close : Nat → Nat → Bool) (cols : List Nat) (edges : List EdgeInfo)
    (idCaches : Nat → Option (List Nat)) (newId : Nat)
    (record : List Nat) (fits : record.length = cols.length) (fresh : newId ∉ cols)
    (joins : ∀ e ∈ edges, e.Extends cols newId)
    (ordered : ∀ cache ∈ idCaches newId, cache.Pairwise (· ≤ ·)) :
    (∃ new, extendRecordOneNode kv.getValueByKey close cols edges idCaches newId false record =
      .ok new ∧
      ∀ v, new.count v = (edges.map fun e => (e.matching S cols newId record v).card).prod) ↔
        OneTripleEach S cols edges idCaches newId record := by
  obtain rfl | none := eq_or_ne edges []
  · refine iff_of_false ?_ fun h => h.1 rfl
    rintro ⟨new, done, counts⟩
    have empty : new = [] := by
      cases cached : idCaches newId with
      | none =>
        simpa [extendRecordOneNode, cached, Except.map, pure, Except.pure, eq_comm] using done
      | some cache =>
        have meet := @IDList.intersectList_spec close [] cache List.Pairwise.nil
          (ordered cache cached)
        have same : (IDList.intersectList close [] cache).1 = new := by
          simpa [extendRecordOneNode, cached, Except.map, pure, Except.pure] using done
        refine eq_nil_iff_forall_not_mem.mpr fun v inside => ?_
        have times := meet.count v
        rw [same, count_nil, Nat.zero_min, count_eq_zero] at times
        exact times inside
    simpa [empty] using counts 0
  · obtain ⟨new, done, counts⟩ :=
      @extendRecordOneNode_spec _ S _ _ _ close _ idCaches fits fresh consistent.reads joins
      ordered none
    rw [OneTripleEach, and_iff_right none]
    have exact_iff : (∃ list,
        extendRecordOneNode kv.getValueByKey close cols edges idCaches newId false record =
        .ok list ∧
        ∀ v, list.count v = (edges.map fun e => (e.matching S cols newId record v).card).prod) ↔
          ∀ v, new.count v = (edges.map fun e => (e.matching S cols newId record v).card).prod := by
      simp [done]
    rw [exact_iff]
    exact forall_congr' fun v => count_eq_prod_iff joins none (counts v)

/-- `0 ?p ?9`, where the predicate is not selected, and `0 0 ?9`. -/
def fromSubject (m : JoinMethod) : EdgeInfo where
  id q := if q = .object then 9 else if q = .predicate ∧ m = .s2o then 8 else 0
  constant q := q ≠ .object ∧ (q = .predicate → m ≠ .s2o)
  method := .one m

def twoPredicates : KVstore :=
  (KVstore.empty.updateTupleslistInsert 0 0 1).updateTupleslistInsert 0 1 1

theorem twoPredicates_consistent : twoPredicates.Consistent {⟨0, 0, 1⟩, ⟨0, 1, 1⟩} := by
  have first := updateTupleslistInsert_holds empty_holds
    ⟨⟨0, 0, 1⟩, by decide, by decide, by decide⟩ (by simp) (by decide)
  have both := updateTupleslistInsert_holds first
    ⟨⟨0, 1, 1⟩, by decide, by decide, by decide⟩ (by simp) (by decide)
  exact ⟨holds_congr both fun t => by simp [or_comm], by decide, by decide⟩

/-- The first pattern matches two triples with the object 1 and the second one, but the intersection
has 1 once. -/
theorem extension_counts_wrong : let S : Finset Triple := {⟨0, 0, 1⟩, ⟨0, 1, 1⟩}
    let edges := [fromSubject .s2o, fromSubject .sp2o]
    twoPredicates.Consistent S ∧ (edges.map fun e => (e.matching S [] 9 [] 1).card).prod = 2 ∧
      ∃ new, extendRecordOneNode twoPredicates.getValueByKey (fun _ _ => false) [] edges
      (fun _ => none) 9 false [] =
        .ok new ∧ new.count 1 = 1 := by
  intro S edges
  have joins : ∀ e ∈ edges, e.Extends [] 9 := by
    simpa [edges] using ⟨⟨.s2o,
        rfl, by decide, by decide, by decide⟩, ⟨.sp2o, rfl, by decide, by decide, by decide⟩⟩
  obtain ⟨new, done, counts⟩ :=
    @extendRecordOneNode_spec twoPredicates.getValueByKey S [] 9 [] (fun _ _ => false) edges
    (fun _ => none) rfl (by simp) twoPredicates_consistent.reads joins (by simp) (by simp [edges])
  refine ⟨twoPredicates_consistent, by decide, new, done, ?_⟩
  have once : ∀ n, n ≤ new.count 1 ↔ n ≤ 2 ∧ n ≤ 1 := by
    intro n
    rw [counts 1 n]
    simp only [edges, forall_mem_cons, Option.mem_def, reduceCtorEq]
    rw [show listed S [] 9 [] 1 (fromSubject .s2o) =
        2 by decide, show listed S [] 9 [] 1 (fromSubject .sp2o) = 1 by decide]
    simp
  have least := (once 1).mpr (by decide)
  have most := (once (new.count 1)).mp le_rfl
  omega

theorem extension_counts_two :
    ∃ new, extendRecordOneNode twoPredicates.getValueByKey (fun _ _ => false) []
    [fromSubject .s2o] (fun _ => none) 9 false [] = .ok new ∧ new.count 1 = 2 := by
  obtain ⟨new, done, counts⟩ :=
    (extension_counts_iff twoPredicates _ twoPredicates_consistent (fun _ _ => false) []
    [fromSubject .s2o] (fun _ => none) 9 [] rfl
    (by simp) (by simpa using ⟨.s2o, rfl, by decide, by decide, by decide⟩)
    (by simp)).mpr ⟨by simp, by simp [EdgeInfo.FindsPredicates, fromSubject]⟩
  exact ⟨new, done, (counts 1).trans (by decide)⟩

end GStore.Executor
