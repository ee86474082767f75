import GStore.KVstore.Reads
import GStore.Lib.Run
import GStore.Lib.Traversal
import GStore.Query.TempResult

/-! `GeneralEvaluation::kleeneClosure`: the pairs of nodes that a pattern `s p* o` connects, found
by a breadth-first search from the nodes at one end. Where the nodes are drawn from the previous
result only one part of it is read, by positions that are not always those of the variable, and
nothing looks at the other end. -/
namespace GStore.Results
open Lib List

variable {V : Type} [DecidableEq V]

structure PathEnd (V : Type) where
  text : V
  const : Option Nat

section Search

variable (values : Key → Option (List Nat))

/-- The nodes that `BFS` looks at from a node of its queue; a failing read leaves an empty list. -/
def neighbours (pred : Nat) (forward : Bool) (curr : Nat) : List Nat :=
  let list :=
    if forward then getobjIDlistBysubIDpreID values curr pred false else getsubIDlistByobjIDpreID
      values curr pred false
  (list.getD []).filter (· < literalFirstID)

def pathRow (forward : Bool) (numCol sid found : Nat) : ResultPair :=
  ⟨if numCol = 1 then [found] else if forward then [sid, found] else [found, sid], []⟩

def bfs (turns sid pred : Nat) (forward : Bool) (numCol : Nat) : Option (List ResultPair) :=
  (traverse (neighbours values pred forward) turns [sid] [sid]).map
    (·.map (pathRow forward numCol sid))

end Search

structure AllEntityId where
  freelistEntity : List Nat
  entityNum : Nat

namespace AllEntityId

def skip (nextId : Nat) : List Nat → Nat × List Nat
  | [] => (nextId, [])
  | num :: head => if num = nextId then skip (nextId + 1) head else (nextId, num :: head)

def iterate : Nat → Nat → List Nat → List Nat
  | 0, _, _ => []
  | count + 1, nextId, head =>
    (skip nextId head).1 :: iterate count ((skip nextId head).1 + 1) (skip nextId head).2

def ids (all : AllEntityId) : Finset Nat := (iterate all.entityNum 0 all.freelistEntity).toFinset

end AllEntityId

/-- The part of the previous result that `queryEvaluation` passes on: the first, or the second where
that is empty. -/
def firstPart : List (TempResult V) → Option (TempResult V)
  | [] => none
  | part :: parts => if part.result = [] then parts.head?.filter (·.result ≠ []) else some part

def stackPart (stack : List (List (TempResult V))) : Option (TempResult V) :=
  stack.findSome? fun results => results.head?.filter (·.result ≠ [])

def candidatePart (last : List (TempResult V)) (stack : List (List (TempResult V))) :
    Option (TempResult V) :=
  (firstPart last).orElse fun _ => stackPart stack

section Starts

variable (getIDByString : String → Nat) (allEntityId : AllEntityId)

/-- The values in a column, where `inId` tells that the position may be one of an id. -/
def TempResult.idsAt (cand : TempResult V) (inId : Bool) (k : Nat) : Finset Nat :=
  if inId ∧ k < cand.idVarset.size then (cand.result.map fun row => row.id.getD k 0).toFinset
  else if k < cand.strVarset.size then
    (cand.result.map fun row => getIDByString (row.str.getD k "")).toFinset
  else ∅

def idSets (x y : V) : Option (TempResult V) → Finset Nat × Finset Nat
  | none => (allEntityId.ids, ∅)
  | some cand =>
    if cand.result = [] then (allEntityId.ids, ∅)
    else
      let subjectIdx := cand.idVarset.vars.idxOf x
      let objectIdx := cand.idVarset.vars.idxOf y
      if subjectIdx = cand.idVarset.size ∧ objectIdx = cand.idVarset.size then
        let subjectIdx := cand.strVarset.vars.idxOf x
        let objectIdx := cand.strVarset.vars.idxOf y
        if subjectIdx < cand.strVarset.size then
          (cand.idsAt getIDByString false subjectIdx, cand.idsAt getIDByString true objectIdx)
        else if objectIdx < cand.strVarset.size then
          (cand.idsAt getIDByString true subjectIdx, cand.idsAt getIDByString false objectIdx)
        else (allEntityId.ids, ∅)
      else (cand.idsAt getIDByString true subjectIdx, cand.idsAt getIDByString true objectIdx)

/-- The direction of the search between two variables and the nodes it starts from; without any
there is only an error message. -/
def smallerSet (sets : Finset Nat × Finset Nat) : Bool × Finset Nat :=
  if 0 < sets.1.card ∧ (sets.1.card ≤ sets.2.card ∨ sets.2.card = 0) then (true, sets.1)
  else if 0 < sets.2.card ∧ (sets.2.card ≤ sets.1.card ∨ sets.1.card = 0) then (false, sets.2)
  else (true, ∅)

def startNodes (s o : PathEnd V) (cand : Option (TempResult V)) : Bool × Finset Nat :=
  match s.const, o.const with
  | some id, _ => (true, {id})
  | none, some id => (false, {id})
  | none, none => smallerSet (idSets getIDByString allEntityId s.text o.text cand)

def pathColumns (s o : PathEnd V) : Varset V :=
  let vars := if s.const.isSome then [o.text] else if o.const.isSome then [s.text] else
    [s.text, o.text]
  vars.foldl Varset.addVar ∅

def kleeneClosure (values : Key → Option (List Nat)) (turns : Nat) (s : PathEnd V) (pred : Nat)
    (o : PathEnd V)
    (cand : Option (TempResult V)) : Option (TempResult V) :=
  let start := startNodes getIDByString allEntityId s o cand
  let numCol := if s.const.isSome ∨ o.const.isSome then 1 else 2
  ((start.2.sort (· ≤ ·)).mapM fun id => bfs values turns id pred start.1 numCol).map fun rows =>
    ⟨pathColumns s o, ∅, rows.flatten⟩

end Starts

def PathEnd.pair (s o : PathEnd V) (row : ResultPair) : Nat × Nat :=
  match s.const, o.const with
  | some id, _ => (id, row.id.getD 0 0)
  | none, some id => (row.id.getD 0 0, id)
  | none, none => (row.id.getD 0 0, row.id.getD 1 0)

/-! What the rows ought to be -/

def Reaches (S : Finset Triple) (pred : Nat) : Nat → Nat → Prop :=
  Relation.ReflTransGen fun a b => ⟨a, pred, b⟩ ∈ S ∧ a < literalFirstID ∧ b < literalFirstID

def Allows (getIDByString : String → Nat) (part : TempResult V) (row : ResultPair) (e : PathEnd V)
    (n : Nat) : Prop :=
  e.const = none → (∀ i, part.idVarset.column row.id e.text = some i → i = n) ∧
    ∀ str, part.strVarset.column row.str e.text = some str → getIDByString str = n

/-- A pair agrees with the constants, with a shared variable and with some row of the previous
result, if there is one. -/
structure Agrees (getIDByString : String → Nat) (last : List (TempResult V)) (s o : PathEnd V)
    (a b : Nat) : Prop where
  subject : ∀ id, s.const = some id → a = id
  object : ∀ id, o.const = some id → b = id
  shared : s.const = none → o.const = none → s.text = o.text → a = b
  row : last = [] ∨ ∃ part ∈ last, ∃ row ∈ part.result,
    Allows getIDByString part row s a ∧ Allows getIDByString part row o b

/-- The result that a pattern extends: that of the group, or of the nearest level that has one. -/
def previousResult (last : List (TempResult V)) (stack : List (List (TempResult V))) :
    List (TempResult V) :=
  if last = [] then (stack.find? fun results => (results.head?.filter (·.result ≠ [])).isSome).getD
    [] else last

/-- Triples between the entities of `E`, and to literals. -/
structure StoreOver (E : Finset Nat) (S : Finset Triple) : Prop where
  subjects : ∀ t ∈ S, t.sub ∈ E
  objects : ∀ t ∈ S, t.obj < literalFirstID → t.obj ∈ E

/-- In every store over the entities `E` the search ends, and its rows are the pairs that agree and
are connected, each once. -/
def KleeneExact (getIDByString : String → Nat) (allEntityId : AllEntityId) (E : Finset Nat)
    (pred : Nat)
    (last : List (TempResult V)) (stack : List (List (TempResult V))) (s o : PathEnd V) : Prop :=
  ∀ (kv : KVstore) (S : Finset Triple), kv.Consistent S → StoreOver E S →
    ∃ temp : TempResult V, (∃ bound, ∀ turns, bound ≤ turns →
      kleeneClosure getIDByString allEntityId kv.getValueByKey turns s pred o
      (candidatePart last stack) = some temp) ∧
      (temp.result.map (s.pair o)).Nodup ∧ ∀ a b, (a, b) ∈ temp.result.map (s.pair o) ↔
        a ∈ E ∧ b ∈ E ∧ Reaches S pred a b ∧
        Agrees getIDByString (previousResult last stack) s o a b

/-- The nodes that the search starts from are entities; each agrees with every entity at the other
end, and no other node agrees with any. -/
structure StartsRight (getIDByString : String → Nat) (allEntityId : AllEntityId) (E : Finset Nat)
    (last : List (TempResult V)) (stack : List (List (TempResult V))) (s o : PathEnd V) : Prop where
  entities : (startNodes getIDByString allEntityId s o (candidatePart last stack)).2 ⊆ E
  agree : ∀ a ∈ E, ∀ b ∈ E, Agrees getIDByString (previousResult last stack) s o a b ↔
    (if (startNodes getIDByString allEntityId s o (candidatePart last stack)).1 then a else b) ∈
      (startNodes getIDByString allEntityId s o (candidatePart last stack)).2

section Rows

variable {E : Finset Nat} {S : Finset Triple} {kv : KVstore} {pred : Nat}

theorem mem_neighbours (consistent : kv.Consistent S) (forward : Bool) {curr n : Nat} :
    n ∈ neighbours kv.getValueByKey pred forward curr ↔
      (if forward then ⟨curr, pred, n⟩ ∈ S else ⟨n, pred, curr⟩ ∈ S) ∧ n < literalFirstID := by
  have reads := consistent.reads
  have listed : ∀ {M : Finset Triple} {f : Triple → Nat}, n ∈ (idsOf M f false).getD [] ↔
      ∃ t ∈ M, f t = n := by
    intro M f
    rw [idsOf]
    split
    · rename_i none
      simp [none]
    · simp
  unfold neighbours
  cases forward with
  | true =>
    rw [if_pos rfl, if_pos rfl, mem_filter, reads.objIDlistBysubIDpreID, listed, decide_eq_true_iff]
    refine and_congr_left fun _ =>
      ⟨?_, fun member => ⟨_, Finset.mem_filter.mpr ⟨member, rfl, rfl⟩, rfl⟩⟩
    rintro ⟨t, member, rfl⟩
    obtain ⟨inS, rfl, rfl⟩ := Finset.mem_filter.mp member
    exact inS
  | false =>
    rw [if_neg Bool.false_ne_true, if_neg Bool.false_ne_true, mem_filter,
        reads.subIDlistByobjIDpreID, listed,
      decide_eq_true_iff]
    refine and_congr_left fun _ =>
      ⟨?_, fun member => ⟨_, Finset.mem_filter.mpr ⟨member, rfl, rfl⟩, rfl⟩⟩
    rintro ⟨t, member, rfl⟩
    obtain ⟨inS, rfl, rfl⟩ := Finset.mem_filter.mp member
    exact inS

theorem neighbours_inside (consistent : kv.Consistent S) (within : StoreOver E S) (forward : Bool)
    {curr n : Nat}
    (edge : n ∈ neighbours kv.getValueByKey pred forward curr) : n ∈ E := by
  rw [mem_neighbours consistent] at edge
  cases forward with
  | true => exact within.objects _ edge.1 edge.2
  | false => exact within.subjects _ edge.1

theorem reached_iff (consistent : kv.Consistent S) (forward : Bool) {a b : Nat}
    (entity : (if forward then a else b) < literalFirstID) :
    Relation.ReflTransGen (fun x y => y ∈ neighbours kv.getValueByKey pred forward x)
    (if forward then a else b)
      (if forward then b else a) ↔ Reaches S pred a b := by
  cases forward with
  | true =>
    have same : (fun x y => y ∈ neighbours kv.getValueByKey pred true x) =
        fun x y => ⟨x, pred, y⟩ ∈ S ∧ x < literalFirstID ∧ y < literalFirstID := by
      funext x y
      rw [mem_neighbours consistent]
      refine propext (and_congr_right fun inS => (and_iff_right ?_).symm)
      exact of_decide_eq_true (consistent.subjects _ inS)
    rw [same]
    rfl
  | false =>
    refine Iff.trans ?_ Relation.reflTransGen_swap
    constructor
    · intro path
      -- every node on the way is an entity, as the first one is
      have kept : ∀ y, Relation.ReflTransGen
        (fun x y => y ∈ neighbours kv.getValueByKey pred false x) b y →
          y < literalFirstID ∧ Relation.ReflTransGen
            (Function.swap fun x y => ⟨x, pred, y⟩ ∈ S ∧ x < literalFirstID ∧ y < literalFirstID) b
            y := by
        intro y path
        induction path with
        | refl => exact ⟨entity, .refl⟩
        | tail _ edge ih =>
          rw [mem_neighbours consistent] at edge
          exact ⟨edge.2, ih.2.tail ⟨edge.1, edge.2, ih.1⟩⟩
      exact (kept a path).2
    · intro path
      refine Relation.ReflTransGen.mono (fun x y edge => ?_) _ _ path
      rw [mem_neighbours consistent]
      exact ⟨edge.1, edge.2.1⟩

variable {getIDByString : String → Nat} {allEntityId : AllEntityId} {s o : PathEnd V}
    {cand : Option (TempResult V)}

def oriented (forward : Bool) (start found : Nat) : Nat × Nat :=
  if forward then (start, found) else (found, start)

theorem oriented_eq_iff {forward : Bool} {id n a b : Nat} :
    oriented forward id n = (a, b) ↔ id = (if forward then a else b) ∧
    n = if forward then b else a := by
  cases forward <;> simp [oriented, and_comm]

theorem pair_pathRow {id : Nat} (start : id ∈ (startNodes getIDByString allEntityId s o cand).2)
    (found : Nat) :
    s.pair o (pathRow (startNodes getIDByString allEntityId s o cand).1
      (if s.const.isSome ∨ o.const.isSome then 1 else 2) id found) =
      oriented (startNodes getIDByString allEntityId s o cand).1 id found := by
  unfold startNodes at start ⊢
  unfold PathEnd.pair pathRow oriented
  cases sub : s.const with
  | some c =>
    rw [sub] at start
    simp [Finset.mem_singleton.mp start]
  | none =>
    cases obj : o.const with
    | some c =>
      rw [sub, obj] at start
      simp [Finset.mem_singleton.mp start]
    | none =>
      dsimp only
      cases (smallerSet (idSets getIDByString allEntityId s.text o.text cand)).1 <;> simp

theorem kleeneClosure_spec (consistent : kv.Consistent S) (within : StoreOver E S) :
    ∃ temp : TempResult V, (∃ bound, ∀ turns, bound ≤ turns →
      kleeneClosure getIDByString allEntityId kv.getValueByKey turns s pred o cand = some temp) ∧
      (temp.result.map (s.pair o)).Nodup ∧ ∀ a b, (a, b) ∈ temp.result.map (s.pair o) ↔
        (if (startNodes getIDByString allEntityId s o cand).1 then a else b) ∈
          (startNodes getIDByString allEntityId s o cand).2 ∧ Relation.ReflTransGen
          (fun x y => y ∈ neighbours kv.getValueByKey pred
            (startNodes getIDByString allEntityId s o cand).1 x)
          (if (startNodes getIDByString allEntityId s o cand).1 then a else b)
          (if (startNodes getIDByString allEntityId s o cand).1 then b else a) := by
  have each : ∀ (forward : Bool) (id : Nat), ∃ found, (∀ turns, E.card + 2 ≤ turns →
      traverse (neighbours kv.getValueByKey pred forward) turns [id] [id] = some found) ∧
      found.Nodup ∧
      ∀ b, b ∈ found ↔ Relation.ReflTransGen
      (fun x y => y ∈ neighbours kv.getValueByKey pred forward x) id b := by
    intro forward id
    obtain ⟨found, ended, spec⟩ :=
      @traverse_ends _ _ (neighbours kv.getValueByKey pred forward) id (insert id E)
      (Finset.mem_insert_self id E)
      fun a _ b edge => Finset.mem_insert_of_mem (neighbours_inside consistent within forward edge)
    have card := Finset.card_insert_le id E
    exact ⟨found, fun turns enough => ended turns (by omega), spec⟩
  choose found ended nodup reached using each
  obtain ⟨start, start_eq⟩ : ∃ start, startNodes getIDByString allEntityId s o cand = start :=
    ⟨_, rfl⟩
  obtain ⟨numCol, numCol_eq⟩ : ∃ n, (if s.const.isSome ∨ o.const.isSome then 1 else 2) = n :=
    ⟨_, rfl⟩
  have pairs : ((start.2.sort (· ≤ ·)).map fun id =>
      (found start.1 id).map (pathRow start.1 numCol id)).flatten.map
      (s.pair o) = (start.2.sort (· ≤ ·)).flatMap fun id => (found start.1 id).map
      (oriented start.1 id) := by
    rw [map_flatten, map_map, flatMap_def]
    congr 1
    refine map_congr_left fun id member => ?_
    rw [Function.comp_apply, map_map]
    refine map_congr_left fun n _ => ?_
    rw [← start_eq] at member ⊢
    rw [← numCol_eq]
    exact pair_pathRow ((Finset.mem_sort _).mp member) n
  refine ⟨⟨pathColumns s o, ∅,
      ((start.2.sort (· ≤ ·)).map fun id =>
        (found start.1 id).map (pathRow start.1 numCol id)).flatten⟩,
    ⟨E.card + 2, fun turns enough => ?_⟩, ?_, fun a b => ?_⟩
  · unfold kleeneClosure bfs
    dsimp only
    rw [start_eq, numCol_eq, mapM_eq_map
        fun id _ => by rw [ended start.1 id turns enough, Option.map_some],
      Option.map_some]
  · rw [pairs]
    refine nodup_flatMap.mpr ⟨fun id _ => (nodup start.1 id).map fun n m same => ?_, ?_⟩
    · exact (oriented_eq_iff.mp same).2.trans (oriented_eq_iff.mp rfl).2.symm
    · refine (start.2.sort_nodup (· ≤ ·)).imp fun {id other} ne => ?_
      rintro ⟨a, b⟩ first second
      obtain ⟨n, _, left⟩ := mem_map.mp first
      obtain ⟨m, _, right⟩ := mem_map.mp second
      exact ne ((oriented_eq_iff.mp left).1.trans (oriented_eq_iff.mp right).1.symm)
  · rw [pairs, start_eq]
    simp only [mem_flatMap, mem_map, Finset.mem_sort, reached]
    constructor
    · rintro ⟨id, member, n, path, same⟩
      rw [oriented_eq_iff] at same
      rw [← same.1, ← same.2]
      exact ⟨member, path⟩
    · rintro ⟨member, path⟩
      exact ⟨_, member, _, path, oriented_eq_iff.mpr ⟨rfl, rfl⟩⟩

end Rows

section Exact

variable {getIDByString : String → Nat} {allEntityId : AllEntityId} {E : Finset Nat} {pred : Nat}
  {last : List (TempResult V)} {stack : List (List (TempResult V))} {s o : PathEnd V}

theorem empty_consistent : KVstore.empty.Consistent ∅ where
  holds := holds_congr empty_holds fun t => by simp
  subjects := by simp
  objects := by simp

theorem single_edge_consistent {a b : Nat} (subject : a < literalFirstID)
    (object : b < literalFirstID)
    (named : pred < maxKeyNum) : ∃ kv : KVstore, kv.Consistent {⟨a, pred, b⟩} := by
  have below : literalFirstID < maxKeyNum := by decide
  have holds := updateTupleslistInsert_holds empty_holds
    ⟨⟨a, pred, b⟩, subject.trans below, named, object.trans_le (Nat.le_add_right _ _)⟩
    (by simp) (by decide : 0 + 2 < 2 ^ 32)
  refine ⟨_, holds_congr holds fun t => by simp, ?_, ?_⟩
  · intro t member
    rw [Finset.mem_singleton.mp member]
    exact decide_eq_true subject
  · intro t member
    rw [Finset.mem_singleton.mp member]
    exact (object.trans (by decide : literalFirstID < invalidID)).ne

theorem Reaches.mem_iff {S : Finset Triple} (within : StoreOver E S) {a b : Nat}
    (path : Reaches S pred a b) :
    a ∈ E ↔ b ∈ E := by
  induction path with
  | refl => exact Iff.rfl
  | tail _ edge ih =>
    exact ih.trans ⟨fun _ => within.objects _ edge.1 edge.2.2, fun _ => within.subjects _ edge.1⟩

theorem KleeneExact.rows (exactly : KleeneExact getIDByString allEntityId E pred last stack s o)
    {kv : KVstore}
    {S : Finset Triple} (consistent : kv.Consistent S) (within : StoreOver E S) (a b : Nat) :
    (if (startNodes getIDByString allEntityId s o (candidatePart last stack)).1 then a else b) ∈
        (startNodes getIDByString allEntityId s o (candidatePart last stack)).2 ∧
      Relation.ReflTransGen (fun x y => y ∈ neighbours kv.getValueByKey pred
          (startNodes getIDByString allEntityId s o (candidatePart last stack)).1 x)
        (if (startNodes getIDByString allEntityId s o (candidatePart last stack)).1 then a else b)
        (if (startNodes getIDByString allEntityId s o (candidatePart last stack)).1 then b else a) ↔
    a ∈ E ∧ b ∈ E ∧ Reaches S pred a b ∧
    Agrees getIDByString (previousResult last stack) s o a b := by
  obtain ⟨temp, ⟨bound, ends⟩, _, pairs⟩ := exactly kv S consistent within
  obtain ⟨temp', ⟨bound', ends'⟩, _, pairs'⟩ :=
    @kleeneClosure_spec V _ E S kv pred getIDByString allEntityId s o
    (candidatePart last stack) consistent within
  have same := (ends _ (le_max_left bound bound')).symm.trans (ends' _ (le_max_right bound bound'))
  rw [← pairs', ← pairs, Option.some.inj same]

/-- The rows are exact in every store if and only if the search starts right. -/
theorem kleeneExact_iff (entities : ∀ e ∈ E, e < literalFirstID) (named : pred < maxKeyNum) :
    KleeneExact getIDByString allEntityId E pred last stack s o ↔
      StartsRight getIDByString allEntityId E last stack s o := by
  constructor
  · intro exactly
    constructor
    · intro id start
      have row := (exactly.rows empty_consistent ⟨by simp, by simp⟩ id id).mp
      simp only [ite_self] at row
      exact (row ⟨start, .refl⟩).1
    · intro a inA b inB
      obtain ⟨kv, consistent⟩ := single_edge_consistent (entities a inA) (entities b inB) named
      have within : StoreOver E {⟨a, pred, b⟩} := by
        constructor
        · intro t member
          rwa [Finset.mem_singleton.mp member]
        · intro t member _
          rwa [Finset.mem_singleton.mp member]
      have edge : Reaches {⟨a, pred, b⟩} pred a b :=
        .single ⟨Finset.mem_singleton_self _, entities a inA, entities b inB⟩
      have rows := exactly.rows consistent within a b
      rw [reached_iff consistent _
          (by split <;> [exact entities a inA; exact entities b inB])] at rows
      exact ⟨fun agrees => (rows.mpr ⟨inA, inB, edge, agrees⟩).1,
          fun start => (rows.mp ⟨start, edge⟩).2.2.2⟩
  · intro right kv S consistent within
    obtain ⟨temp, ends, nodup, pairs⟩ :=
      @kleeneClosure_spec V _ E S kv pred getIDByString allEntityId s o
      (candidatePart last stack) consistent within
    refine ⟨temp, ends, nodup, fun a b => (pairs a b).trans ?_⟩
    constructor
    · rintro ⟨start, path⟩
      have entity := right.entities start
      rw [reached_iff consistent _ (entities _ entity)] at path
      have inE : a ∈ E ∧ b ∈ E := by
        split at entity
        · exact ⟨entity, (path.mem_iff within).mp entity⟩
        · exact ⟨(path.mem_iff within).mpr entity, entity⟩
      exact ⟨inE.1, inE.2, path, (right.agree a inE.1 b inE.2).mpr start⟩
    · rintro ⟨inA, inB, path, agrees⟩
      have start := (right.agree a inA b inB).mp agrees
      exact ⟨start, (reached_iff consistent _ (entities _ (right.entities start))).mpr path⟩

end Exact

section Cases

def pathVar (x : Fin 3) : PathEnd (Fin 3) := ⟨x, none⟩

theorem agrees_of_row {getIDByString : String → Nat} {last : List (TempResult (Fin 3))}
    {ids : Varset (Fin 3)}
    {rows : List ResultPair} {row : List Nat} {x y : Fin 3} {a b : Nat}
    (inLast : ⟨ids, ∅, rows⟩ ∈ last)
    (inPart : ⟨row, []⟩ ∈ rows) (distinct : x ≠ y) (left : ∀ i ∈ ids.column row x, i = a)
    (right : ∀ i ∈ ids.column row y, i = b) :
    Agrees getIDByString last (pathVar x) (pathVar y) a b where
  subject := by simp [pathVar]
  object := by simp [pathVar]
  shared _ _ same := absurd same distinct
  row := .inr ⟨_, inLast, _, inPart,
      fun _ => ⟨left, by simp [Varset.column]⟩, fun _ => ⟨right, by simp [Varset.column]⟩⟩

/-- The previous result has only the subject, with two of the three entities. -/
def subjectBound : List (TempResult (Fin 3)) := [⟨⟨[0], by decide⟩, ∅, [⟨[0], []⟩, ⟨[1], []⟩]⟩]

theorem subjectBound_exact :
    KleeneExact (fun _ => 0) ⟨[], 3⟩ {0, 1, 2} 0 subjectBound [] (pathVar 0) (pathVar 1) := by
  have start : startNodes (fun _ => 0) ⟨[], 3⟩ (pathVar 0) (pathVar 1)
      (candidatePart subjectBound []) = (true, {0, 1}) := by
    decide
  refine (kleeneExact_iff (by decide) (by decide)).mpr ⟨by rw [start]; decide, fun a _ b _ => ?_⟩
  rw [start, if_pos rfl]
  constructor
  · rintro ⟨_, _, _, none | ⟨part, inLast, row, inPart, left, _⟩⟩
    · cases none
    · rw [previousResult, if_neg (by simp [subjectBound]), subjectBound, mem_singleton] at inLast
      subst inLast
      simp only [mem_cons, not_mem_nil, or_false] at inPart
      rcases inPart with rfl | rfl
      · simp [← (left rfl).1 0 rfl]
      · simp [← (left rfl).1 1 rfl]
  · intro bound
    have inPart : (⟨[a], []⟩ : ResultPair) ∈ [⟨[0], []⟩, ⟨[1], []⟩] := by
      rcases Finset.mem_insert.mp bound with rfl | last
      · simp
      · simp [Finset.mem_singleton.mp last]
    refine agrees_of_row (mem_singleton_self _) inPart (by decide) ?_ ?_
    · simp [Varset.column]
    · simp [Varset.column]

/-- The parts of a union: the one has only the subject, the other a further column. -/
def unionParts : List (TempResult (Fin 3)) :=
  [⟨⟨[0], by decide⟩, ∅, [⟨[0], []⟩]⟩, ⟨⟨[0, 2], by decide⟩, ∅, [⟨[1, 2], []⟩]⟩]

/-- The subject of the second part is not a start node, so that it has no row, not even the one
without an edge. -/
theorem second_part_not_searched :
    (kleeneClosure (fun _ => 0) ⟨[], 3⟩ KVstore.empty.getValueByKey 3 (pathVar 0) 0 (pathVar 1)
      (candidatePart unionParts [])).map TempResult.result = some [⟨[0, 0], []⟩] ∧
    Agrees (fun _ => 0) (previousResult unionParts []) (pathVar 0) (pathVar 1) 1 1 ∧
    ¬KleeneExact (fun _ => 0) ⟨[], 3⟩ {0, 1, 2} 0 unionParts [] (pathVar 0) (pathVar 1) := by
  have agrees : Agrees (fun _ => 0) (previousResult unionParts []) (pathVar 0) (pathVar 1) 1 1 := by
    refine agrees_of_row (mem_cons_of_mem _ (mem_singleton_self _)) (mem_singleton_self _)
      (by decide) ?_ ?_
    · simp [Varset.column]
    · simp [Varset.column]
  refine ⟨by decide +kernel, agrees, fun exactly => ?_⟩
  have rows := (exactly.rows empty_consistent
      ⟨by simp, by simp⟩ 1 1).mpr ⟨by decide, by decide, .refl, agrees⟩
  exact absurd rows.1 (by decide)

end Cases

end GStore.Results
