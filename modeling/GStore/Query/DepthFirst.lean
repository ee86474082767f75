import Mathlib.Tactic

/-! The loops of `Optimizer::DepthSearchOneLayer` and `ExecutionDepthFirst` over the records of a
layer, for any search of the next layer, with the number of results found so far. -/
namespace GStore
open List

variable {Rec : Type}

/-- The loop of `DepthSearchOneLayer` over the records of a layer; `search` is the next layer. -/
def searchRecords (limit : Nat) (search : Rec → Nat → Option (Bool × List Rec × Nat)) :
    List Rec → Nat → Option (List Rec × Nat)
  | [], till => some ([], till)
  | one :: table, till =>
    (search one till).bind fun (success, extended, now) =>
      if !success || extended.isEmpty then searchRecords limit search table now
      else if limit ≤ now then some (extended, now)
      else (searchRecords limit search table now).map fun (rows, final) => (extended ++ rows, final)

/-- The loop of `ExecutionDepthFirst` over the candidates of the first operation; its result is
`result_container`. -/
def searchCandidates (limit : Nat) (search : Rec → Nat → Option (Bool × List Rec × Nat)) :
    List Rec → Nat → Option (List (List Rec))
  | [], _ => some []
  | r :: candidates, till =>
    if limit < till then some []
    else (search r till).bind fun (success, rows, now) =>
      if success && decide (limit ≤ now) then some [rows]
      else (searchCandidates limit search candidates now).map fun results => rows :: results

/-- The merge of the results. Its `break` at `limit` leaves only the inner loop. -/
def mergeResults (limit : Nat) : Nat → List (List Rec) → List Rec
  | _, [] => []
  | counter, rows :: results =>
    let taken := if counter < limit then rows.take (limit - counter) else rows
    taken ++ mergeResults limit (counter + taken.length) results

section Limit

variable {limit till : Nat} {search : Rec → Nat → Option (Bool × List Rec × Nat)}
    {g : Nat → Rec → List Rec}

/-- The records of a table one after the other: `g m` gives those of one record while `m` more are
wanted. -/
def chain (g : Nat → Rec → List Rec) : Nat → List Rec → List Rec
  | _, [] => []
  | m, r :: table => g m r ++ if m ≤ (g m r).length then [] else chain g (m - (g m r).length) table

def Finds (limit : Nat) (search : Rec → Nat → Option (Bool × List Rec × Nat))
    (g : Nat → Rec → List Rec) : Prop :=
  ∀ r till, till < limit → ∃ success, search r till =
    some (success, g (limit - till) r, till + (g (limit - till) r).length) ∧
    (success = false → g (limit - till) r = [])

theorem chain_append {m : Nat} (wanted : 0 < m) (a b : List Rec) : chain g m (a ++ b) =
    chain g m a ++ if m ≤ (chain g m a).length then [] else chain g
    (m - (chain g m a).length) b := by
  induction a generalizing m with
  | nil =>
    rw [nil_append, chain, nil_append, if_neg (by simpa using wanted.ne')]
    rfl
  | cons r a ih =>
    rw [cons_append, chain, chain]
    by_cases full : m ≤ (g m r).length
    · rw [if_pos full, if_pos full, append_nil, if_pos full, append_nil]
    · rw [if_neg full, if_neg full, ih (by omega), append_assoc, length_append]
      congr 2
      by_cases rest : m - (g m r).length ≤ (chain g (m - (g m r).length) a).length
      · rw [if_pos rest, if_pos (by omega)]
      · rw [if_neg rest, if_neg (by omega), Nat.sub_sub]

theorem chain_flatMap (f : Rec → List Rec) {m : Nat} (wanted : 0 < m) (table : List Rec) :
    chain (fun m r => chain g m (f r)) m table = chain g m (table.flatMap f) := by
  induction table generalizing m with
  | nil => rfl
  | cons r table ih =>
    rw [flatMap_cons, chain_append wanted, chain]
    congr 1
    split
    · rfl
    · rw [ih (by omega)]

theorem chain_take (f : Rec → List Rec) (m : Nat) (table : List Rec) :
    chain (fun m r => (f r).take m) m table = (table.flatMap f).take m := by
  induction table generalizing m with
  | nil => simp [chain]
  | cons r table ih =>
    rw [chain, flatMap_cons, take_append, ih, length_take]
    congr 1
    by_cases full : m ≤ (f r).length
    · rw [if_pos (by omega), Nat.sub_eq_zero_of_le full, take_zero]
    · rw [if_neg (by omega), Nat.min_eq_right (by omega)]

theorem Finds.searchRecords (finds : Finds limit search g) (table : List Rec)
    (below : till < limit) :
    searchRecords limit search table till =
      some (chain g (limit - till) table, till + (chain g (limit - till) table).length) := by
  induction table generalizing till with
  | nil => rfl
  | cons r table ih =>
    obtain ⟨success, found, failed⟩ := finds r till below
    rw [GStore.searchRecords, found, Option.bind_some, chain]
    dsimp only
    by_cases none' : g (limit - till) r = []
    · rw [none', isEmpty_nil, Bool.or_true, if_pos rfl, length_nil, Nat.add_zero, nil_append,
        if_neg (by omega), Nat.sub_zero]
      exact ih below
    · have ok : success = true := by
        cases success with
        | true => rfl
        | false => exact absurd (failed rfl) none'
      rw [ok, isEmpty_eq_false_iff.mpr none', Bool.not_true, Bool.or_self,
          if_neg Bool.false_ne_true]
      by_cases full : limit - till ≤ (g (limit - till) r).length
      · -- the limit is reached with this record
        rw [if_pos (by omega), if_pos full, append_nil]
      · rw [if_neg (by omega), if_neg full, ih (by omega), Nat.sub_add_eq, Option.map_some]
        simp [length_append, Nat.add_assoc]

theorem Finds.layer {f : Rec → List Rec} {search' : Rec → Nat → Option (Bool × List Rec × Nat)}
    (finds : Finds limit search g)
    (layer : ∀ r till, search' r till = if (f r).isEmpty then some (false, [], till)
      else (GStore.searchRecords limit search (f r) till).map fun (rows, now) => (true, rows, now))
        :
    Finds limit search' fun m r => chain g m (f r) := by
  intro r till below
  rw [layer]
  by_cases empty : f r = []
  · exact ⟨false, by simp [empty, chain], fun _ => by simp [empty, chain]⟩
  · refine ⟨true, ?_, fun no => by cases no⟩
    rw [if_neg (by simpa using empty), finds.searchRecords (f r) below]
    rfl

theorem Finds.searchCandidates (finds : Finds limit search g)
    (few : ∀ m r, 0 < m → (g m r).length ≤ m)
    (candidates : List Rec) (below : till < limit) :
    ∃ results, searchCandidates limit search candidates till = some results ∧
      mergeResults limit till results = chain g (limit - till) candidates := by
  induction candidates generalizing till with
  | nil => exact ⟨[], rfl, rfl⟩
  | cons r candidates ih =>
    obtain ⟨success, found, failed⟩ := finds r till below
    have short := few (limit - till) r (by omega)
    rw [GStore.searchCandidates, if_neg (by omega), found, Option.bind_some, chain]
    dsimp only
    by_cases full : limit - till ≤ (g (limit - till) r).length
    · have ok : success = true := by
        cases success with
        | true => rfl
        | false =>
          rw [failed rfl, length_nil] at full
          omega
      refine ⟨_, by rw [ok, if_pos (by simp; omega)], ?_⟩
      rw [mergeResults, if_pos below, if_pos full, take_of_length_le short]
      rfl
    · obtain ⟨results, rest, merged⟩ := @ih (till + (g (limit - till) r).length) (by omega)
      refine ⟨g (limit - till) r :: results, ?_, ?_⟩
      · rw [if_neg (by simp; omega), rest]
        rfl
      · rw [mergeResults, if_pos below, if_neg full, take_of_length_le short, merged,
            Nat.sub_add_eq]

end Limit

end GStore
