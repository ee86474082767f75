import GStore.KVstore.BlockManager

/-! The free maps of a block manager: what taking the front of a run and giving a run back do to the
set of free blocks. -/
namespace GStore

open Lib

namespace FreeMaps

/-- The two maps list the same runs of blocks up to `bound`. Two runs may touch only in front of
`fresh`. -/
structure Fits (f : FreeMaps) (fresh : Nat × Nat) (bound : Nat) : Prop where
  ordered : Ordered f.byIndex
  sorted : Increasing f.byLen
  mirrored : ∀ index len, toLex (len, index) ∈ f.byLen ↔ (index, len) ∈ f.byIndex
  filled : ∀ r ∈ f.byIndex, 0 < r.2
  inside : ∀ r ∈ f.byIndex, 0 < r.1 ∧ r.1 + r.2 ≤ bound + 1
  disjoint : ∀ r ∈ f.byIndex, ∀ s ∈ f.byIndex, r.1 < s.1 → r.1 + r.2 ≤ s.1
  gap : ∀ r ∈ f.byIndex, ∀ s ∈ f.byIndex, r.1 < s.1 → s ≠ fresh → r.1 + r.2 < s.1

/-- The two maps list the same runs of blocks up to `bound`, none of which touch. -/
structure Sound (f : FreeMaps) (bound : Nat) : Prop where
  separated : Separated f.byIndex
  sorted : Increasing f.byLen
  mirrored : ∀ index len, toLex (len, index) ∈ f.byLen ↔ (index, len) ∈ f.byIndex
  inside : ∀ r ∈ f.byIndex, 0 < r.1 ∧ r.1 + r.2 ≤ bound + 1

variable {f : FreeMaps} {bound : Nat}

theorem Sound.fits (sound : f.Sound bound) (fresh : Nat × Nat) : f.Fits fresh bound where
  ordered := sound.separated.ordered
  __ := sound
  filled := sound.separated.filled
  disjoint r left s right below := (sound.separated.gap r left s right below).le
  gap r left s right below _ := sound.separated.gap r left s right below

variable {index len : Nat}

theorem mem_add_byIndex (absent : ∀ r ∈ f.byIndex, r.1 ≠ index) {r : Nat × Nat} :
    r ∈ (f.add index len).byIndex ↔ r = (index, len) ∨ r ∈ f.byIndex := mem_assign absent

variable {x : Nat ×ₗ Nat}

@[simp] theorem mem_add_byLen :
    x ∈ (f.add index len).byLen ↔ x = toLex (len, index) ∨ x ∈ f.byLen := mem_insertSorted

@[simp] theorem mem_erase_byIndex {r : Nat × Nat} :
    r ∈ (f.erase index len).byIndex ↔ r ∈ f.byIndex ∧ r.1 ≠ index := mem_eraseKey

@[simp] theorem mem_erase_byLen :
    x ∈ (f.erase index len).byLen ↔ x ∈ f.byLen ∧ x ≠ toLex (len, index) := by
  simp [erase]

theorem add_ordered (ordered : Ordered f.byIndex) : Ordered (f.add index len).byIndex :=
  assign_ordered ordered

theorem add_sorted (sorted : Increasing f.byLen) :
    Increasing (f.add index len).byLen := insertSorted_increasing sorted

theorem erase_ordered (ordered : Ordered f.byIndex) :
    Ordered (f.erase index len).byIndex := eraseKey_ordered ordered

theorem erase_sorted (sorted : Increasing f.byLen) :
    Increasing (f.erase index len).byLen := List.Pairwise.filter _ sorted

theorem toLex_mirror {index len : Nat} {r : Nat × Nat} :
    toLex (len, index) = toLex (r.2, r.1) ↔ (index, len) = r := by
  constructor
  · intro same
    obtain ⟨left, right⟩ := Prod.mk.inj (toLex.injective same)
    exact Prod.ext right left
  · rintro rfl
    rfl

variable {fresh : Nat × Nat}

theorem Fits.erase_mirrored {run : Nat × Nat} (fits : f.Fits fresh bound)
    (member : run ∈ f.byIndex) (index len : Nat) :
    toLex (len, index) ∈ (f.erase run.1 run.2).byLen ↔
    (index, len) ∈ (f.erase run.1 run.2).byIndex := by
  rw [mem_erase_byLen, mem_erase_byIndex, fits.mirrored, ne_eq, toLex_mirror]
  constructor
  · rintro ⟨there, differs⟩
    exact ⟨there, fun same => differs (fits.ordered.unique there member same)⟩
  · rintro ⟨there, differs⟩
    exact ⟨there, fun same => differs (same ▸ rfl)⟩

variable {run : Nat × Nat}

theorem Sound.erase (sound : f.Sound bound) (member : run ∈ f.byIndex) :
    (f.erase run.1 run.2).Sound bound where
  separated := sound.separated.sublist (erase_ordered sound.separated.ordered) fun _ there =>
    (mem_erase_byIndex.mp there).1
  sorted := erase_sorted sound.sorted
  mirrored := (sound.fits run).erase_mirrored member
  inside r there := sound.inside r (mem_erase_byIndex.mp there).1

theorem covers_erase (fits : f.Fits fresh bound) (member : run ∈ f.byIndex) (b : Nat) :
    Covers (f.erase run.1 run.2).byIndex b ↔ Covers f.byIndex b ∧ ¬ Within run b := by
  constructor
  · rintro ⟨r, there, inside⟩
    obtain ⟨old, differs⟩ := mem_erase_byIndex.mp there
    refine ⟨⟨r, old, inside⟩, fun also => ?_⟩
    rcases Nat.lt_or_gt_of_ne differs with below | above
    · have := fits.disjoint r old run member below
      exact absurd (lt_of_lt_of_le inside.2 this) (Nat.not_lt_of_le also.1)
    · have := fits.disjoint run member r old above
      exact absurd (lt_of_lt_of_le also.2 this) (Nat.not_lt_of_le inside.1)
  · rintro ⟨⟨r, there, inside⟩, outside⟩
    refine ⟨r, mem_erase_byIndex.mpr ⟨there, fun same => outside ?_⟩, inside⟩
    exact fits.ordered.unique there member same ▸ inside

theorem Sound.insert (sound : f.Sound bound) (positive : 0 < index)
    (filled : 0 < len) (inside : index + len ≤ bound + 1)
    (distant : ∀ r ∈ f.byIndex, r.1 + r.2 < index ∨ index + len < r.1) :
    (f.add index len).Sound bound ∧ ∀ b, Covers (f.add index len).byIndex b ↔
    Within (index, len) b ∨ Covers f.byIndex b := by
  have absent : ∀ r ∈ f.byIndex, r.1 ≠ index := fun r there => by
    have := sound.separated.filled r there
    rcases distant r there with before | after <;> omega
  refine ⟨⟨?_, add_sorted sound.sorted, fun i n => ?_, fun r there => ?_⟩, fun b => ?_⟩
  · exact sound.separated.add (add_ordered sound.separated.ordered)
      (fun r there => (mem_add_byIndex absent).mp there)
      filled fun r _ old => distant r old
  · rw [mem_add_byLen, mem_add_byIndex absent, sound.mirrored]
    exact or_congr_left (@toLex_mirror i n (index, len))
  · rcases (mem_add_byIndex absent).mp there with rfl | old
    · exact ⟨positive, inside⟩
    · exact sound.inside r old
  · constructor
    · rintro ⟨r, there, within⟩
      rcases (mem_add_byIndex absent).mp there with rfl | old
      · exact .inl within
      · exact .inr ⟨r, old, within⟩
    · rintro (within | ⟨r, old, within⟩)
      · exact ⟨(index, len), (mem_add_byIndex absent).mpr (.inl rfl), within⟩
      · exact ⟨r, (mem_add_byIndex absent).mpr (.inr old), within⟩

theorem Sound.append {f : FreeMaps} {len bound : Nat} (sound : f.Sound bound) (filled : 0 < len) :
    (f.add (bound + 1) len).Fits (bound + 1, len) (bound + len) ∧
      ∀ r, r ∈ (f.add (bound + 1) len).byIndex ↔ r = (bound + 1, len) ∨ r ∈ f.byIndex := by
  have before : ∀ r ∈ f.byIndex, r.1 < bound + 1 ∧ r.1 + r.2 ≤ bound + 1 := fun r there => by
    have := sound.separated.filled r there
    have := sound.inside r there
    omega
  have members : ∀ r, r ∈ (f.add (bound + 1) len).byIndex ↔ r = (bound + 1, len) ∨ r ∈ f.byIndex :=
    fun r => mem_add_byIndex fun r there => (before r there).1.ne
  refine ⟨⟨add_ordered sound.separated.ordered, add_sorted sound.sorted, fun i n => ?_,
      fun r there => ?_,
    fun r there => ?_, fun r left s right below => ?_, fun r left s right below differs => ?_⟩,
      members⟩
  · rw [mem_add_byLen, members, sound.mirrored]
    exact or_congr_left (@toLex_mirror i n (bound + 1, len))
  · rcases (members r).mp there with rfl | old
    · exact filled
    · exact sound.separated.filled r old
  · rcases (members r).mp there with rfl | old
    · simp only
      omega
    · have := sound.inside r old
      omega
  · rcases (members r).mp left with rfl | oldLeft
    · rcases (members s).mp right with rfl | oldRight
      · exact absurd below (lt_irrefl _)
      · exact absurd below (not_lt_of_gt (before s oldRight).1)
    · rcases (members s).mp right with rfl | oldRight
      · exact (before r oldLeft).2
      · exact (sound.separated.gap r oldLeft s oldRight below).le
  · rcases (members s).mp right with same | oldRight
    · exact absurd same differs
    · rcases (members r).mp left with rfl | oldLeft
      · exact absurd below (not_lt_of_gt (before s oldRight).1)
      · exact sound.separated.gap r oldLeft s oldRight below

theorem covers_absorb {piece whole : Nat × Nat} {b : Nat} (fits : f.Fits fresh bound)
    (member : run ∈ f.byIndex)
    (joined : Within whole b ↔ Within piece b ∨ Within run b) :
    Within whole b ∨ Covers (f.erase run.1 run.2).byIndex b ↔ Within piece b ∨
    Covers f.byIndex b := by
  rw [covers_erase fits member, joined]
  have covered : Within run b → Covers f.byIndex b := fun within => ⟨run, member, within⟩
  tauto

theorem mergeBefore_spec (sound : f.Sound bound) (positive : 0 < index)
    (filled : 0 < len) (small : index + len < 2 ^ 32)
    (disjoint : ∀ r ∈ f.byIndex, r.1 + r.2 ≤ index ∨ index + len ≤ r.1) :
    ∃ g i n, f.mergeBefore index len = (g, i, n) ∧ g.Sound bound ∧ 0 < i ∧ i + n = index + len ∧
    i ≤ index ∧
      (∀ r ∈ g.byIndex, r.1 + r.2 < i ∨ i + n ≤ r.1) ∧
      ∀ b, Within (i, n) b ∨ Covers g.byIndex b ↔ Within (index, len) b ∨ Covers f.byIndex b := by
  unfold mergeBefore
  cases found : entryBefore index f.byIndex with
  | none =>
    refine ⟨f, index, len, rfl, sound, positive, rfl, le_rfl, fun r there => .inr ?_,
        fun b => Iff.rfl⟩
    have above := entryBefore_none found r there
    rcases disjoint r there with before | after
    · have := sound.separated.filled r there
      omega
    · exact after
  | some run =>
    obtain ⟨member, below, last⟩ := entryBefore_some sound.separated.ordered found
    have reach : run.1 + run.2 ≤ index := by
      rcases disjoint run member with before | after
      · exact before
      · omega
    have others : ∀ r ∈ f.byIndex, r.1 < index → r = run ∨ r.1 + r.2 < run.1 := by
      intro r there low
      rcases Nat.lt_or_eq_of_le (last r there low) with lower | same
      · exact .inr (sound.separated.gap r there run member lower)
      · exact .inl (sound.separated.ordered.unique there member same)
    have wrap : (run.1 + run.2) % 2 ^ 32 = run.1 + run.2 := Nat.mod_eq_of_lt (by omega)
    simp only [wrap]
    split_ifs with touches
    · have length : (len + run.2) % 2 ^ 32 = len + run.2 := Nat.mod_eq_of_lt (by omega)
      refine ⟨f.erase run.1 run.2, run.1,
          len + run.2, by rw [length], sound.erase member, (sound.inside run member).1,
        by omega, below.le, fun r there => ?_, fun b => ?_⟩
      · obtain ⟨old, differs⟩ := mem_erase_byIndex.mp there
        rcases disjoint r old with before | after
        · have low : r.1 < index := by
            have := sound.separated.filled r old
            omega
          rcases others r old low with same | lower
          · exact absurd (congrArg Prod.fst same) differs
          · exact .inl lower
        · exact .inr (by omega)
      · refine covers_absorb (sound.fits run) member ?_
        simp only [Within]
        omega
    · refine ⟨f, index, len, rfl, sound, positive, rfl, le_rfl, fun r there => ?_, fun b => Iff.rfl⟩
      rcases disjoint r there with before | after
      · have low : r.1 < index := by
          have := sound.separated.filled r there
          omega
        rcases others r there low with rfl | lower
        · exact .inl (by omega)
        · exact .inl (by omega)
      · exact .inr after

theorem mergeAfter_spec (sound : f.Sound bound)
    (filled : 0 < len) (small : index + len < 2 ^ 32) (below : bound < 2 ^ 32)
    (inside : index + len ≤ bound + 1)
    (distant : ∀ r ∈ f.byIndex, r.1 + r.2 < index ∨ index + len ≤ r.1) (positive : 0 < index) :
    ∃ g n, f.mergeAfter index len = (g, n) ∧ g.Sound bound ∧ 0 < n ∧ index + n ≤ bound + 1 ∧
      (∀ r ∈ g.byIndex, r.1 + r.2 < index ∨ index + n < r.1) ∧
      ∀ b, Within (index, n) b ∨ Covers g.byIndex b ↔ Within (index, len) b ∨
      Covers f.byIndex b := by
  unfold mergeAfter
  have wrap : (len + index) % 2 ^ 32 = len + index := Nat.mod_eq_of_lt (by omega)
  cases found : entryAfter index f.byIndex with
  | none =>
    refine ⟨f, len, rfl, sound, filled, inside, fun r there => .inl ?_, fun b => Iff.rfl⟩
    have low := entryAfter_none found r there
    rcases distant r there with before | after
    · exact before
    · omega
  | some run =>
    obtain ⟨member, above, first⟩ := entryAfter_some sound.separated.ordered found
    have start : index + len ≤ run.1 := by
      rcases distant run member with before | after
      · omega
      · exact after
    have others : ∀ r ∈ f.byIndex, index < r.1 → r = run ∨ run.1 + run.2 < r.1 := by
      intro r there high
      rcases Nat.lt_or_eq_of_le (first r there high) with higher | same
      · exact .inr (sound.separated.gap run member r there higher)
      · exact .inl (sound.separated.ordered.unique there member same.symm)
    have runFilled := sound.separated.filled run member
    have runInside := sound.inside run member
    simp only [wrap]
    split_ifs with touches
    · have length : (len + run.2) % 2 ^ 32 = len + run.2 := Nat.mod_eq_of_lt (by omega)
      refine ⟨f.erase run.1 run.2,
          len + run.2, by rw [length], sound.erase member, by omega, by omega,
        fun r there => ?_, fun b => ?_⟩
      · obtain ⟨old, differs⟩ := mem_erase_byIndex.mp there
        rcases distant r old with before | after
        · exact .inl before
        · rcases others r old (by omega) with same | higher
          · exact absurd (congrArg Prod.fst same) differs
          · exact .inr (by omega)
      · refine covers_absorb (sound.fits run) member ?_
        simp only [Within]
        omega
    · refine ⟨f, len, rfl, sound, filled, inside, fun r there => ?_, fun b => Iff.rfl⟩
      rcases distant r there with before | after
      · exact .inl before
      · rcases others r there (by omega) with rfl | higher
        · exact .inr (by omega)
        · exact .inr (by omega)

theorem release_spec (sound : f.Sound bound) (positive : 0 < index)
    (filled : 0 < len) (small : index + len < 2 ^ 32) (below : bound < 2 ^ 32)
    (inside : index + len ≤ bound + 1)
    (disjoint : ∀ r ∈ f.byIndex, r.1 + r.2 ≤ index ∨ index + len ≤ r.1) :
    (f.release index len).Sound bound ∧
      ∀ b, Covers (f.release index len).byIndex b ↔ Within (index, len) b ∨ Covers f.byIndex b := by
  obtain ⟨g, i, n, merged, soundLeft, positiveLeft, ends, left, distantLeft, coversLeft⟩ :=
    mergeBefore_spec sound positive filled small disjoint
  obtain ⟨h, m, mergedToo, soundRight, filledRight, insideRight, distant, coversRight⟩ :=
    mergeAfter_spec soundLeft (by omega) (by omega) below (by omega) distantLeft positiveLeft
  have absent : ∀ r ∈ h.byIndex, r.1 ≠ i := fun r there => by
    have := soundRight.separated.filled r there
    rcases distant r there with before | after <;> omega
  have result : f.release index len = h.add i m := by
    simp [release, merged, mergedToo, enter_absent absent, add]
  obtain ⟨soundAll, coversAll⟩ := soundRight.insert positiveLeft filledRight insideRight distant
  rw [result]
  refine ⟨soundAll, fun b => ?_⟩
  rw [coversAll, coversRight, coversLeft]

theorem Fits.findRun_some {num : Nat} (fits : f.Fits fresh bound)
    (found : f.findRun num = some run) : run ∈ f.byIndex ∧ num ≤ run.2 := by
  obtain ⟨x, chosen, rfl⟩ := Option.map_eq_some_iff.mp found
  have member := List.mem_of_find?_eq_some chosen
  have enough := List.find?_some chosen
  simp only [decide_eq_true_eq] at enough
  refine ⟨(fits.mirrored (ofLex x).2 (ofLex x).1).mp member, ?_⟩
  rcases Prod.Lex.le_iff.mp enough with below | ⟨same, -⟩
  · exact below.le
  · exact same.le

theorem Fits.findRun_none {num : Nat} (fits : f.Fits fresh bound)
    (missing : f.findRun num = none) : ∀ r ∈ f.byIndex, r.2 < num := by
  intro r there
  have refused := List.find?_eq_none.mp (Option.map_eq_none_iff.mp missing) (toLex (r.2, r.1))
    ((fits.mirrored r.1 r.2).mpr there)
  by_contra enough
  refine refused (decide_eq_true ?_)
  rw [Prod.Lex.toLex_le_toLex]
  rcases Nat.lt_or_eq_of_le (Nat.le_of_not_lt enough) with below | same
  · exact .inl below
  · exact .inr ⟨same, Nat.zero_le _⟩

theorem Sound.findRun_new {f : FreeMaps} {len bound num : Nat} (sound : f.Sound bound)
    (some : 0 < num)
    (enough : num ≤ len) (lacking : ∀ r ∈ f.byIndex, r.2 < num) :
    (f.add (bound + 1) len).findRun num = .some (bound + 1, len) := by
  obtain ⟨fits, members⟩ := @Sound.append f len bound sound (Nat.lt_of_lt_of_le some enough)
  cases found : (f.add (bound + 1) len).findRun num with
  | none =>
    exact absurd (fits.findRun_none found _ ((members _).mpr (.inl rfl))) (Nat.not_lt_of_le enough)
  | some run =>
    obtain ⟨member, fitting⟩ := fits.findRun_some found
    rcases (members run).mp member with rfl | old
    · rfl
    · exact absurd fitting (Nat.not_le_of_lt (lacking run old))

theorem Fits.take_spec {num : Nat} (fits : f.Fits run bound)
    (member : run ∈ f.byIndex) (some : 0 < num) (enough : num ≤ run.2) (below : bound < 2 ^ 32) :
    (f.take run num).Sound bound ∧
      ∀ b, Covers (f.take run num).byIndex b ↔ Covers f.byIndex b ∧ ¬ Within (run.1, num) b := by
  obtain ⟨runPositive, runInside⟩ := fits.inside run member
  have erased : (f.erase run.1 run.2).Sound bound := by
    refine ⟨⟨erase_ordered fits.ordered,
        fun r there => fits.filled r (mem_erase_byIndex.mp there).1,
      fun r left s right lower => ?_⟩, erase_sorted fits.sorted, fits.erase_mirrored member,
      fun r there => fits.inside r (mem_erase_byIndex.mp there).1⟩
    have old := mem_erase_byIndex.mp right
    exact fits.gap r (mem_erase_byIndex.mp left).1 s old.1 lower fun same => old.2
      (congrArg Prod.fst same)
  have outer := covers_erase fits member
  have within : ∀ b, Within run b → Covers f.byIndex b := fun b inside => ⟨run, member, inside⟩
  unfold take
  by_cases rest : 0 < run.2 - num
  · -- the rest is entered while the old run is still there, under another key
    have wrap : (run.1 + num) % 2 ^ 32 = run.1 + num := Nat.mod_eq_of_lt (by omega)
    have absent : ∀ r ∈ f.byIndex, r.1 ≠ run.1 + num := by
      intro r there same
      have := fits.disjoint run member r there (by omega)
      omega
    have distant : ∀ r ∈ (f.erase run.1 run.2).byIndex, r.1 + r.2 < run.1 + num ∨
        run.1 + num + (run.2 - num) < r.1 := by
      intro r there
      obtain ⟨old, differs⟩ := mem_erase_byIndex.mp there
      rcases Nat.lt_or_gt_of_ne differs with lower | higher
      · have := fits.disjoint r old run member lower
        exact .inl (by omega)
      · have := fits.gap run member r old higher fun same => differs (congrArg Prod.fst same)
        exact .inr (by omega)
    have away : ∀ r ∈ (f.erase run.1 run.2).byIndex, r.1 ≠ run.1 + num :=
      fun r there => absent r (mem_erase_byIndex.mp there).1
    obtain ⟨entered, covers⟩ := erased.insert (by omega) rest (by omega) distant
    have swap : (f.add (run.1 + num) (run.2 - num)).erase run.1 run.2 = (f.erase run.1 run.2).add
        (run.1 + num) (run.2 - num) := by
      have keys : ((f.add (run.1 + num) (run.2 - num)).erase run.1 run.2).byIndex
          = ((f.erase run.1 run.2).add (run.1 + num) (run.2 - num)).byIndex := by
        refine Ordered.ext (erase_ordered (add_ordered fits.ordered)) entered.separated.ordered
          fun r => ?_
        rw [mem_erase_byIndex, mem_add_byIndex absent, mem_add_byIndex away, mem_erase_byIndex]
        constructor
        · rintro ⟨rfl | old, differs⟩
          · exact .inl rfl
          · exact .inr ⟨old, differs⟩
        · rintro (rfl | old)
          · exact ⟨.inl rfl, by simp only [ne_eq]; omega⟩
          · exact ⟨.inr old.1, old.2⟩
      have lens : ((f.add (run.1 + num) (run.2 - num)).erase run.1 run.2).byLen
          = ((f.erase run.1 run.2).add (run.1 + num) (run.2 - num)).byLen := by
        refine increasing_ext (erase_sorted (add_sorted fits.sorted)) entered.sorted fun x => ?_
        rw [mem_erase_byLen, mem_add_byLen, mem_add_byLen, mem_erase_byLen]
        constructor
        · rintro ⟨rfl | old, differs⟩
          · exact .inl rfl
          · exact .inr ⟨old, differs⟩
        · rintro (rfl | old)
          · refine ⟨.inl rfl, fun same => ?_⟩
            have := congrArg Prod.snd (toLex.injective same)
            simp only at this
            omega
          · exact ⟨.inr old.1, old.2⟩
      exact congrArg₂ FreeMaps.mk keys lens
    simp only [if_pos rest, wrap, swap]
    refine ⟨entered, fun b => ?_⟩
    rw [covers, outer]
    have cut : Within (run.1 + num, run.2 - num) b ↔ Within run b ∧ ¬ Within (run.1, num) b := by
      simp only [Within]
      omega
    have front : Within (run.1, num) b → Within run b := by
      simp only [Within]
      omega
    have := within b
    rw [cut]
    tauto
  · simp only [if_neg rest]
    refine ⟨erased, fun b => ?_⟩
    rw [outer]
    have same : Within run b ↔ Within (run.1, num) b := by
      simp only [Within]
      omega
    rw [same]

end FreeMaps
end GStore
