import GStore.KVstore.KeyLists

/-! The batch updates with the number they return, against the single-triple routine applied to one
pair after another. `insertTriple` and `removeTriple` ask whether the triple exists before they
update the indexes, so a pair that is already there is not inserted and one that is not there is not
removed. -/
namespace GStore
open Lib List

variable (type : IDType) (value : Option (List Nat))

def insertSingle (q : VData) : List Nat :=
  match type with
  | .subject => updateInsertValues .sub value (ofLex q).1 (ofLex q).2
  | .object => updateInsertValues .obj value (ofLex q).1 (ofLex q).2
  | .predicate => updateInsertP2values value (ofLex q).1 (ofLex q).2

def removeSingle (tmp : List Nat) (q : VData) : Option (Option (List Nat)) :=
  match type with
  | .subject => updateRemoveValues .sub tmp (ofLex q).1 (ofLex q).2
  | .object => updateRemoveValues .obj tmp (ofLex q).1 (ofLex q).2
  | .predicate => updateRemoveP2values tmp (ofLex q).1 (ofLex q).2

variable (batch : List VData)

def insertEach : Option (List Nat) :=
  batch.foldl (fun v q => if q ∈ pairsIn type v then v else some (insertSingle type v q)) value

/-- `none` is a removal that overruns its buffer. -/
def removeEach : Option (Option (List Nat)) :=
  run (fun v q => if q ∈ pairsIn type v then v.bind fun tmp => removeSingle type tmp q else some v)
    value batch

/-- The output parameter `values` (`none` with `values_len` 0) and the return value of a batch
update. -/
structure BatchResult where
  values : Option (List Nat)
  updateNum : Nat

variable (value : Option (List Nat))

/-- `Insert_s2values`, `Insert_o2values`, `Insert_p2values`: `values[0]`, less `_tmp[0]` where there
was a list. -/
def insertValues : Option BatchResult :=
  let inserted := match type with
    | .subject => insertBatch .sub batch value
    | .object => insertBatch .obj batch value
    | .predicate => some (insertP2values batch value)
  inserted.map fun v => ⟨v, firstWord v - firstWord value⟩

/-- `Remove_s2values`, `Remove_o2values`, `Remove_p2values`: `_tmp[0] - values[0]`, and 0 for an
empty pair vector. The outer `none` is a return that leaves the output parameters as they were. -/
def removeValues : Option BatchResult :=
  let removed := match type with
    | .subject => removeS2values batch value
    | .object => removeO2values batch value
    | .predicate => removeP2values batch value
  removed.map fun v => ⟨v, if batch = [] then 0 else firstWord value - firstWord v⟩

/-- Both batch updates of a list do what the single updates do one after another, and count what
they change. -/
structure MatchesSingles (type : IDType) (batch : List VData) (value : Option (List Nat)) :
    Prop where
  inserts : ∃ v, insertValues type batch value = some ⟨v, batch.countP (· ∉ pairsIn type value)⟩ ∧
    v = insertEach type value batch ∧
    (∀ q, q ∈ pairsIn type v ↔ q ∈ pairsIn type value ∨ q ∈ batch) ∧
    (valuesLen v = 0 ↔ pairsIn type v = [])
  removes : ∃ v, removeValues type batch value = some ⟨v, batch.countP (· ∈ pairsIn type value)⟩ ∧
    some v = removeEach type value batch ∧
    (∀ q, q ∈ pairsIn type v ↔ q ∈ pairsIn type value ∧ q ∉ batch) ∧
    (valuesLen v = 0 ↔ pairsIn type v = [])

/-- `Remove_s2values` returns length 0 for an empty pair vector, and neither it nor
`Remove_p2values` sets its output parameters for an empty list. -/
def RemovalDefined : Prop :=
  match type with
  | .subject => batch = [] ↔ value = none
  | .object => True
  | .predicate => value = none → batch = []

variable {value : Option (List Nat)} {S : VData → Prop} {type : IDType}

theorem insertSingle_length (pre : type = .predicate) (value : Option (List Nat)) (q : VData) :
    valuesLen (some (insertSingle type value q)) ≤ valuesLen value + 3 := by
  subst pre
  cases value with
  | none => exact le_rfl
  | some tmp => simp [valuesLen, insertSingle, updateInsertP2values, length_written]

theorem removeSingle_length {q : VData} {next : Option (List Nat)} (pre : type = .predicate)
    (removed : (value.bind fun tmp => removeSingle type tmp q) = some next) :
    valuesLen next ≤ valuesLen value := by
  subst pre
  obtain ⟨tmp, rfl, made⟩ := Option.bind_eq_some_iff.mp removed
  simp only [removeSingle, updateRemoveP2values] at made
  split_ifs at made
  · cases made
    exact Nat.zero_le _
  · cases made
    simp [valuesLen, length_written]

section

variable (shown : Lists type value S)
include shown

theorem insertSingle_lists {q : VData} (absent : ¬ S q)
    (room : type = .predicate → valuesLen value + 2 < 2 ^ 32) :
    Lists type (some (insertSingle type value q)) fun x => x = q ∨ S x := by
  have pair : ∀ p x, toLex (p, x) = q ↔ p = (ofLex q).1 ∧ x = (ofLex q).2 := fun p x =>
    Prod.ext_iff (x := (p, x)) (y := ofLex q)
  cases type with
  | subject =>
    exact represents_congr (represents_insert shown absent) fun p x => or_congr_left (pair p x).symm
  | object =>
    exact represents_congr (represents_insert shown absent) fun p x => or_congr_left (pair p x).symm
  | predicate =>
    exact representsColumns_congr (representsColumns_insert shown absent (room rfl)) fun s o =>
      or_congr_left (pair s o).symm

theorem removeSingle_lists {q : VData} (present : S q)
    (room : type = .predicate → valuesLen value + 2 < 2 ^ 32) :
    ∃ v, (value.bind fun tmp => removeSingle type tmp q) = some v ∧ Lists type v fun x => x ≠ q ∧
    S x := by
  have pair : ∀ p x, toLex (p, x) = q ↔ p = (ofLex q).1 ∧ x = (ofLex q).2 := fun p x =>
    Prod.ext_iff (x := (p, x)) (y := ofLex q)
  cases type with
  | subject =>
    obtain ⟨tmp, next, rfl, removed, left⟩ := represents_remove shown present
    exact ⟨next, removed, represents_congr left fun p x =>
        and_congr_left' (not_congr (pair p x).symm)⟩
  | object =>
    obtain ⟨tmp, next, rfl, removed, left⟩ := represents_remove shown present
    exact ⟨next, removed, represents_congr left fun p x =>
        and_congr_left' (not_congr (pair p x).symm)⟩
  | predicate =>
    obtain ⟨tmp, next, rfl, removed, left⟩ := representsColumns_remove shown present (room rfl)
    exact ⟨next, removed, representsColumns_congr left fun s o =>
        and_congr_left' (not_congr (pair s o).symm)⟩

theorem insertEach_lists (batch : List VData)
    (room : type = .predicate → valuesLen value + 3 * batch.length < 2 ^ 32) :
    Lists type (insertEach type value batch) fun q => S q ∨ q ∈ batch := by
  induction batch generalizing value S with
  | nil => exact lists_congr shown fun q => by simp
  | cons p batch ih =>
    have member := mem_pairsIn shown p
    by_cases present : S p
    · have next := ih shown fun pre => by
        have := room pre
        rw [length_cons] at this
        omega
      rw [insertEach, foldl_cons, if_pos (member.mpr present)]
      refine lists_congr next fun q => ?_
      by_cases same : q = p
      · simp [same, present]
      · simp [same]
    · have few := fun pre => length_cons ▸ room pre
      have next := ih (insertSingle_lists shown present
            fun pre => by have := few pre; omega) fun pre => by
        have grown := insertSingle_length pre value p
        have := few pre
        omega
      rw [insertEach, foldl_cons, if_neg (fun hit => present (member.mp hit))]
      refine lists_congr next fun q => ?_
      rw [mem_cons, or_assoc, or_left_comm]

theorem removeEach_lists (batch : List VData)
    (room : type = .predicate → valuesLen value + 2 < 2 ^ 32) :
    ∃ v, removeEach type value batch = some v ∧ Lists type v fun q => S q ∧ q ∉ batch := by
  induction batch generalizing value S with
  | nil => exact ⟨value, rfl, lists_congr shown fun q => by simp⟩
  | cons p batch ih =>
    have member := mem_pairsIn shown p
    by_cases present : S p
    · obtain ⟨next, removed, left⟩ := removeSingle_lists shown present room
      obtain ⟨v, rest, final⟩ := ih left fun pre => by
        have shrunk := removeSingle_length pre removed
        have := room pre
        omega
      refine ⟨v, run_cons.mpr ⟨next, by rw [if_pos (member.mpr present), removed], rest⟩, lists_congr final fun q => ?_⟩
      simp only [mem_cons, not_or]
      tauto
    · obtain ⟨v, rest, final⟩ := ih shown room
      refine ⟨v, run_cons.mpr ⟨value, if_neg fun hit => present (member.mp hit), rest⟩,
          lists_congr final fun q => ?_⟩
      simp only [mem_cons, not_or]
      exact ⟨fun ⟨here, out⟩ => ⟨here, fun same => present (same ▸ here), out⟩,
          fun ⟨here, _, out⟩ => ⟨here, out⟩⟩

end

variable {batch : List VData}

theorem firstWord_add {small large : Option (List Nat)}
    {new : VData → Bool} (some_pairs : Lists type small S) (sorted : Increasing batch)
    (apart : ∀ q ∈ batch, new q = true → ¬ S q)
    (all_pairs : Lists type large fun q => S q ∨ q ∈ batch ∧ new q = true) :
    firstWord large = firstWord small + batch.countP new := by
  obtain ⟨ordered, counted⟩ := pairsIn_sorted some_pairs
  obtain ⟨increasing, total⟩ := pairsIn_sorted all_pairs
  have distinct : (pairsIn type small ++ batch.filter new).Nodup := by
    refine nodup_append.mpr ⟨increasing_nodup ordered, (increasing_nodup sorted).filter _, ?_⟩
    rintro a left b right rfl
    obtain ⟨member, fresh⟩ := mem_filter.mp right
    exact apart a member fresh ((mem_pairsIn some_pairs a).mp left)
  have perm : (pairsIn type large).Perm (pairsIn type small ++ batch.filter new) := by
    refine (perm_ext_iff_of_nodup (increasing_nodup increasing) distinct).mpr fun q => ?_
    rw [mem_append, mem_pairsIn all_pairs, mem_pairsIn some_pairs, mem_filter]
  rw [total, counted, perm.length_eq, length_append, countP_eq_length_filter]

theorem valuesLen_eq_zero (shown : Lists type value S) :
    valuesLen value = 0 ↔ pairsIn type value = [] := by
  obtain ⟨-, counted⟩ := pairsIn_sorted shown
  cases value with
  | none => simp [valuesLen, pairsIn]
  | some l =>
    have filled : ∃ q, S q := by
      by_contra none
      simpa using (lists_none_iff shown).mpr fun q h => none ⟨q, h⟩
    obtain ⟨q, hq⟩ := filled
    have member := (mem_pairsIn shown q).mpr hq
    have listed : pairsIn type (some l) ≠ [] := ne_nil_of_mem member
    have positive : l ≠ [] := by
      rintro rfl
      exact listed (length_eq_zero_iff.mp counted.symm)
    simp [valuesLen, listed, positive]

section

variable (shown : Lists type value S) (sorted : Increasing batch)
include shown sorted

theorem insertValues_lists :
    ∃ v, insertValues type batch value = some ⟨v, firstWord v - firstWord value⟩ ∧
      Lists type v fun q => S q ∨ q ∈ batch := by
  have packed : ∀ k : Side, Represents k value (fun p x => S (toLex (p, x))) →
      ∃ v, insertBatch k batch value = some v ∧ Represents k v fun p x => S (toLex (p, x)) ∨
      toLex (p, x) ∈ batch := by
    rintro k ⟨gs, whole, rfl, members⟩
    obtain ⟨hs, inserted, grouped, union⟩ := insertBatch_spec k whole sorted
    exact ⟨stored k hs, inserted, hs, grouped, rfl, fun p x => by rw [union, members, or_comm]⟩
  cases type with
  | subject =>
    obtain ⟨v, inserted, lists⟩ := packed .sub shown
    exact ⟨v, by simp [insertValues, inserted], lists⟩
  | object =>
    obtain ⟨v, inserted, lists⟩ := packed .obj shown
    exact ⟨v, by simp [insertValues, inserted], lists⟩
  | predicate =>
    obtain ⟨ps, whole, rfl, members⟩ := shown
    obtain ⟨qs, inserted, increasing, union⟩ := insertP2values_spec whole sorted
    exact ⟨storedColumns qs, by simp [insertValues, inserted], qs, increasing, rfl,
      fun s o => by rw [union, members, or_comm]⟩

theorem removeValues_lists (defined : RemovalDefined type batch value) :
    ∃ v, removeValues type batch value = some ⟨v, firstWord value - firstWord v⟩ ∧
      Lists type v fun q => S q ∧ q ∉ batch := by
  have packed : ∀ (k : Side) tmp, Represents k (some tmp) (fun p x => S (toLex (p, x))) →
      Represents k (removePairs k batch tmp) fun p x => S (toLex (p, x)) ∧
      toLex (p, x) ∉ batch := by
    rintro k tmp ⟨gs, whole, layout, members⟩
    obtain ⟨hs, removed, grouped, difference⟩ := removePairs_spec k whole sorted
    have same : tmp = pack k gs := by
      unfold stored at layout
      split at layout
      · cases layout
      · exact Option.some.inj layout
    exact ⟨hs, grouped, by rw [same, removed], fun p x => by rw [difference, members]⟩
  have bare : value = none → ∀ q, (S q ↔ S q ∧ q ∉ batch) := fun absent q =>
    iff_of_false ((lists_none_iff shown).mp absent q) fun hit =>
    (lists_none_iff shown).mp absent q hit.1
  cases type with
  | subject =>
    by_cases empty : batch = []
    · have absent := defined.mp empty
      exact ⟨none, by simp [removeValues, removeS2values, empty, absent], absent ▸ lists_congr shown (bare absent)⟩
    · obtain ⟨tmp, rfl⟩ := Option.ne_none_iff_exists'.mp fun absent => empty (defined.mpr absent)
      exact ⟨_, by simp [removeValues, removeS2values, empty], packed .sub tmp shown⟩
  | object =>
    cases value with
    | none => exact ⟨none, by simp [removeValues, removeO2values], lists_congr shown (bare rfl)⟩
    | some tmp =>
      have lists : Lists .object (removePairs .obj batch tmp) fun q => S q ∧ q ∉ batch :=
        packed .obj tmp shown
      refine ⟨_, ?_, lists⟩
      by_cases empty : batch = []
      · -- Without pairs the pass copies the list.
        have unchanged := lists_unique lists (lists_congr shown fun q => by simp [empty])
        simp [removeValues, removeO2values, unchanged]
      · simp [removeValues, removeO2values, empty]
  | predicate =>
    by_cases empty : batch = []
    · exact ⟨value, by simp [removeValues, removeP2values, empty], lists_congr shown fun q => by simp [empty]⟩
    · obtain ⟨ps, whole, rfl, members⟩ := shown
      have nonempty : ps ≠ [] := fun absent => empty (defined (by simp [storedColumns, absent]))
      obtain ⟨qs, removed, increasing, difference⟩ :=
        removeP2values_spec whole sorted empty nonempty
      exact ⟨storedColumns qs, by simp [removeValues, removed, empty], qs, increasing, rfl,
        fun s o => by rw [difference, members]⟩

theorem insertValues_counts :
    ∃ v, insertValues type batch value = some ⟨v, batch.countP (· ∉ pairsIn type value)⟩ ∧
      Lists type v fun q => S q ∨ q ∈ batch := by
  obtain ⟨v, inserted, lists⟩ := insertValues_lists shown sorted
  have counted : firstWord v = firstWord value + batch.countP (· ∉ pairsIn type value) := by
    refine firstWord_add shown sorted (fun q _ new hit => ?_) (lists_congr lists fun q => ?_)
    · exact of_decide_eq_true new ((mem_pairsIn shown q).mpr hit)
    · have member := mem_pairsIn shown q
      by_cases present : S q <;> simp [present, member]
  exact ⟨v, by rw [inserted, counted, Nat.add_sub_cancel_left], lists⟩

theorem removeValues_counts (defined : RemovalDefined type batch value) :
    ∃ v, removeValues type batch value = some ⟨v, batch.countP (· ∈ pairsIn type value)⟩ ∧
      Lists type v fun q => S q ∧ q ∉ batch := by
  obtain ⟨v, removed, lists⟩ := removeValues_lists shown sorted defined
  have counted : firstWord value = firstWord v + batch.countP (· ∈ pairsIn type value) := by
    refine firstWord_add lists sorted (fun q member _ hit => hit.2 member)
      (lists_congr shown fun q => ?_)
    have member := mem_pairsIn shown q
    by_cases inside : q ∈ batch <;> simp [inside, member]
  exact ⟨v, by rw [removed, counted, Nat.add_sub_cancel_left], lists⟩

theorem inserts_as_singles
    (room : type = .predicate → valuesLen value + 3 * batch.length < 2 ^ 32) :
    ∃ v, insertValues type batch value = some ⟨v, batch.countP (· ∉ pairsIn type value)⟩ ∧
      v = insertEach type value batch ∧
      (∀ q, q ∈ pairsIn type v ↔ q ∈ pairsIn type value ∨ q ∈ batch) ∧
      (valuesLen v = 0 ↔ pairsIn type v = []) := by
  obtain ⟨v, inserted, lists⟩ := insertValues_counts shown sorted
  refine ⟨v, inserted, lists_unique lists (insertEach_lists shown batch room), fun q => ?_,
      valuesLen_eq_zero lists⟩
  rw [mem_pairsIn lists, mem_pairsIn shown]

theorem removes_as_singles (defined : RemovalDefined type batch value)
    (room : type = .predicate → valuesLen value + 2 < 2 ^ 32) :
    ∃ v, removeValues type batch value = some ⟨v, batch.countP (· ∈ pairsIn type value)⟩ ∧
      some v = removeEach type value batch ∧
      (∀ q, q ∈ pairsIn type v ↔ q ∈ pairsIn type value ∧ q ∉ batch) ∧
      (valuesLen v = 0 ↔ pairsIn type v = []) := by
  obtain ⟨v, removed, lists⟩ := removeValues_counts shown sorted defined
  obtain ⟨w, each, final⟩ := removeEach_lists shown batch room
  refine ⟨v, removed, ?_, fun q => ?_, valuesLen_eq_zero lists⟩
  · rw [each, lists_unique lists final]
  · rw [mem_pairsIn lists, mem_pairsIn shown]

end

/-- The old list, the pairs and the merged list have positions below `2 ^ 31`: the batch routines
keep them in an `int`. -/
def BatchFits (batch : List VData) (value : Option (List Nat)) : Prop :=
  valuesLen value + 3 * batch.length + 6 < 2 ^ 31

/-- A batch update of a well-formed list is the sequence of the single updates of its pairs exactly
when the removal sets its output parameters: not for an empty subject or predicate list and some
pairs, and not for a subject list and no pairs. -/
theorem batch_updates_match_singles_iff {type : IDType} {value : Option (List Nat)}
    {S : VData → Prop}
    (shown : Lists type value S) {batch : List VData} (sorted : Increasing batch)
    (fits : BatchFits batch value) :
    MatchesSingles type batch value ↔ RemovalDefined type batch value := by
  constructor
  · rintro ⟨-, v, removed, -, difference, -⟩
    cases type with
    | subject =>
      constructor
      · rintro rfl
        have none_left : none = v := congrArg BatchResult.values (Option.some.inj removed)
        refine (lists_none_iff shown).mpr fun q hit => ?_
        have := (difference q).mpr ⟨(mem_pairsIn shown q).mpr hit, by simp⟩
        simp [← none_left, pairsIn] at this
      · rintro rfl
        by_contra filled
        simp [removeValues, removeS2values, filled] at removed
    | object => trivial
    | predicate =>
      rintro rfl
      by_contra filled
      simp [removeValues, removeP2values, filled] at removed
  · intro defined
    unfold BatchFits at fits
    exact ⟨inserts_as_singles shown sorted
        fun _ => by omega, removes_as_singles shown sorted defined fun _ => by omega⟩

/-- A subject list with one pair, and a batch of this pair and a second one. -/
theorem batch_updates_match_singles_known_and_new :
    MatchesSingles .subject [toLex (0, 1), toLex (0, 2)] (some [1, 1, 1, 0, 5, 1]) := by
  have grouped : Grouped [(0, [1])] := ⟨by simp, by simp⟩
  have shown : Lists .subject (some [1, 1, 1, 0, 5, 1]) fun q => q = toLex (0, 1) :=
    ⟨[(0, [1])], grouped, by decide, fun p x => by simp⟩
  exact (batch_updates_match_singles_iff shown
      (by decide) (by unfold BatchFits; decide)).mpr (by simp [RemovalDefined])

/-- The removal of a pair from an empty subject list leaves the length of the result unset. -/
theorem removal_from_no_list_undefined :
    Lists .subject none (fun _ => False) ∧ ¬ MatchesSingles .subject [toLex (0, 1)] none := by
  refine ⟨⟨[], grouped_nil, rfl, by simp⟩, ?_⟩
  rintro ⟨-, v, removed, -⟩
  simp [removeValues, removeS2values] at removed

end GStore
