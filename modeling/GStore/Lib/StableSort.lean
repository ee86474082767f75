import Mathlib.Tactic

/-! A stable sort that asks of a later element and an earlier one whether the later one has to come
first. When the answer is no on ties, ties stay in their order; when it is yes, each group of ties
is turned around. -/
namespace GStore.Lib
open List

variable {α : Type} (first : α → α → Bool)

/-- `x` goes behind the last element that it does not come before. The sorted part is given last
element first. -/
def place (x : α) : List α → List α
  | [] => [x]
  | y :: sorted => if first x y then y :: place x sorted else x :: y :: sorted

def stableSort (xs : List α) : List α :=
  (xs.foldl (fun sorted x => place first x sorted) []).reverse

theorem perm_place (x : α) (sorted : List α) : (place first x sorted).Perm (x :: sorted) := by
  induction sorted with
  | nil => exact .refl _
  | cons y sorted ih =>
    unfold place
    split
    · exact (ih.cons y).trans (.swap x y sorted)
    · exact .refl _

theorem perm_foldl_place (xs sorted : List α) :
    (xs.foldl (fun sorted x => place first x sorted) sorted).Perm (xs.reverse ++ sorted) := by
  induction xs generalizing sorted with
  | nil => exact .refl _
  | cons x xs ih =>
    rw [foldl_cons, reverse_cons, append_assoc]
    exact (ih _).trans ((perm_place first x sorted).append_left _)

theorem perm_stableSort (xs : List α) : (stableSort first xs).Perm xs := by
  refine (reverse_perm _).trans ((perm_foldl_place first xs []).trans ?_)
  rw [append_nil]
  exact reverse_perm xs

theorem sublist_place (x : α) (sorted : List α) : sorted.Sublist (place first x sorted) := by
  induction sorted with
  | nil => exact nil_sublist _
  | cons y sorted ih =>
    unfold place
    split
    · exact ih.cons_cons y
    · exact sublist_cons_self x _

theorem sublist_foldl_place (xs sorted : List α) :
    sorted.Sublist (xs.foldl (fun sorted x => place first x sorted) sorted) := by
  induction xs generalizing sorted with
  | nil => exact .refl _
  | cons x xs ih => exact (sublist_place first x sorted).trans (ih _)

variable {first}

theorem sublist_stableSort {a b : α} (stays : first b a = false) (xs : List α) :
    [a, b].Sublist (stableSort first (a :: b :: xs)) := by
  have start : place first b (place first a []) = [b, a] := by simp [place, stays]
  have kept := (sublist_foldl_place first xs [b, a]).reverse
  rw [← start] at kept
  simpa [stableSort, start] using kept

section Blocks

/-! A block is a set of elements that come before one another and that no other element tells apart.
-/

structure IsBlock (first : α → α → Bool) (block : α → Prop) : Prop where
  inside : ∀ x y, block x → block y → first x y = true
  asks : ∀ x y z, block x → block y → ¬ block z → first x z = first y z
  asked : ∀ x y z, block x → block y → ¬ block z → first z x = first z y

variable {block : α → Prop}

theorem place_past {x : α} {passed : List α} (past : ∀ y ∈ passed, first x y = true)
    (sorted : List α) :
    place first x (passed ++ sorted) = passed ++ place first x sorted := by
  induction passed with
  | nil => rfl
  | cons y passed ih =>
    rw [cons_append, place, if_pos (past y mem_cons_self),
        ih fun z later => past z (mem_cons_of_mem y later)]
    rfl

theorem place_stop {x : α} {sorted : List α} (stop : ∀ y ∈ sorted.head?, first x y = false) :
    place first x sorted = x :: sorted := by
  cases sorted with
  | nil => rfl
  | cons y sorted => rw [place, stop y rfl, if_neg Bool.false_ne_true]

variable (first) in
theorem place_splits (x : α) (sorted : List α) :
    ∃ passed rest, sorted = passed ++ rest ∧ place first x sorted = passed ++ x :: rest ∧
      (∀ y ∈ passed, first x y = true) ∧ ∀ y ∈ rest.head?, first x y = false := by
  induction sorted with
  | nil => exact ⟨[], [], rfl, rfl, by simp, by simp⟩
  | cons y sorted ih =>
    by_cases past : first x y = true
    · obtain ⟨passed, rest, split, placed, all, stop⟩ := ih
      refine ⟨y :: passed, rest, by rw [split]; rfl, by rw [place, if_pos past, placed]; rfl, ?_, stop⟩
      intro z there
      rcases mem_cons.mp there with rfl | later
      · exact past
      · exact all z later
    · refine ⟨[], y :: sorted, rfl, by rw [place, if_neg past]; rfl, by simp, ?_⟩
      simpa using past

variable (isBlock : IsBlock first block)
include isBlock

theorem IsBlock.foldl_members {ms before passed rest : List α}
    (members : ∀ m ∈ ms, block m) (placed : ∀ m ∈ before, block m)
    (outside : ∀ y ∈ passed ++ rest, ¬ block y)
    {t : α} (chosen : block t) (past : ∀ y ∈ passed, first t y = true)
    (stop : ∀ y ∈ rest.head?, first t y = false) :
    ms.foldl (fun sorted x => place first x sorted) (passed ++ before ++ rest) = passed ++
    (before ++ ms) ++ rest := by
  induction ms generalizing before with
  | nil => simp
  | cons m ms ih =>
    have member := members m mem_cons_self
    have pastPassed : ∀ y ∈ passed ++ before, first m y = true := by
      intro y there
      rcases mem_append.mp there with there | there
      · rw [isBlock.asks m t y member chosen (outside y (mem_append_left _ there))]
        exact past y there
      · exact isBlock.inside m y member (placed y there)
    have stopped : ∀ y ∈ rest.head?, first m y = false := by
      intro y there
      rw [isBlock.asks m t y member chosen
          (outside y (mem_append_right _ (mem_of_mem_head? there)))]
      exact stop y there
    rw [foldl_cons, place_past pastPassed, place_stop stopped]
    have grown : ∀ y ∈ before ++ [m], block y := by
      intro y there
      rcases mem_append.mp there with there | there
      · exact placed y there
      · rw [mem_singleton.mp there]
        exact member
    have next := ih (fun y there => members y (mem_cons_of_mem m there)) grown
    simpa using next

theorem IsBlock.foldl_place {ms sorted : List α} (members : ∀ m ∈ ms, block m)
    (outside : ∀ y ∈ sorted, ¬ block y) :
    ∃ passed rest, ms.foldl (fun sorted x => place first x sorted) sorted = passed ++ ms ++ rest ∧
      sorted = passed ++ rest := by
  cases ms with
  | nil => exact ⟨sorted, [], by simp, by simp⟩
  | cons m ms =>
    have member := members m mem_cons_self
    obtain ⟨passed, rest, split, placed, past, stop⟩ := place_splits first m sorted
    refine ⟨passed, rest, ?_, split⟩
    have all : ms.foldl (fun sorted x => place first x sorted) (passed ++ [m] ++ rest) = passed ++
        ([m] ++ ms) ++ rest :=
      isBlock.foldl_members (fun y there => members y (mem_cons_of_mem m there))
      (by simpa using member)
        (split ▸ outside) member past stop
    rw [foldl_cons, placed]
    simpa using all

theorem IsBlock.place_outside {ms passed rest : List α} {x : α}
    (members : ∀ m ∈ ms, block m) (outside : ∀ y ∈ passed ++ rest, ¬ block y) (other : ¬ block x) :
    ∃ passed' rest', place first x (passed ++ ms ++ rest) = passed' ++ ms ++ rest' ∧
      ∀ y ∈ passed' ++ rest', ¬ block y := by
  have landed : ∀ z ∈ passed ++ rest ++ [x], ¬ block z := by
    intro z there
    rcases mem_append.mp there with there | there
    · exact outside z there
    · rw [mem_singleton.mp there]
      exact other
  induction passed with
  | nil =>
    cases ms with
    | nil =>
      refine ⟨[], place first x rest, rfl, fun y there => landed y ?_⟩
      have inside := (perm_place first x rest).mem_iff.mp there
      simpa [or_comm] using inside
    | cons m ms =>
      have alike : ∀ y ∈ m :: ms, first x y = first x m := fun y there =>
        isBlock.asked y m x (members y there) (members m mem_cons_self) other
      cases answer : first x m with
      | true =>
        refine ⟨[], place first x rest,
            place_past (fun y there => (alike y there).trans answer) rest,
            fun y there => landed y ?_⟩
        have inside := (perm_place first x rest).mem_iff.mp there
        simpa [or_comm] using inside
      | false =>
        refine ⟨[x], rest, place_stop (by simpa using answer), fun y there => landed y ?_⟩
        simpa [or_comm] using there
  | cons p passed ih =>
    by_cases past : first x p = true
    · obtain ⟨passed', rest', placed, free⟩ :=
        ih (fun y there => outside y (mem_cons_of_mem p there))
        (fun y there => landed y (mem_cons_of_mem p there))
      refine ⟨p :: passed', rest', ?_, ?_⟩
      · simp only [cons_append, place, if_pos past]
        rw [placed]
      · intro y there
        rcases mem_cons.mp there with rfl | later
        · exact outside y mem_cons_self
        · exact free y later
    · refine ⟨x :: p :: passed, rest, ?_, fun y there => landed y ?_⟩
      · simp [cons_append, place, if_neg past]
      · simp only [cons_append, mem_cons, mem_append, not_mem_nil, or_false] at there ⊢
        tauto

theorem IsBlock.foldl_outside {xs ms passed rest : List α} (members : ∀ m ∈ ms, block m)
    (outside : ∀ y ∈ passed ++ rest, ¬ block y) (others : ∀ x ∈ xs, ¬ block x) :
    ∃ passed' rest', xs.foldl (fun sorted x => place first x sorted) (passed ++ ms ++ rest) =
    passed' ++ ms ++ rest' ∧
      ∀ y ∈ passed' ++ rest', ¬ block y := by
  induction xs generalizing passed rest with
  | nil => exact ⟨passed, rest, rfl, outside⟩
  | cons x xs ih =>
    obtain ⟨passed', rest', placed, free⟩ :=
      isBlock.place_outside members outside (others x mem_cons_self)
    rw [foldl_cons, placed]
    exact ih free fun y there => others y (mem_cons_of_mem x there)

theorem IsBlock.stableSort_reverses (before after : List α) {ms : List α}
    (members : ∀ m ∈ ms, block m) (outside : ∀ y ∈ before ++ after, ¬ block y) :
    ∃ before' after', stableSort first (before ++ ms ++ after) = before' ++ ms.reverse ++ after' ∧
      ∀ y ∈ before' ++ after', ¬ block y := by
  have outsideBefore : ∀ y ∈ before.foldl (fun sorted x => place first x sorted) [], ¬ block y := by
    intro y there
    have inside := (perm_foldl_place first before []).mem_iff.mp there
    exact outside y (mem_append_left _ (by simpa using inside))
  obtain ⟨passed, rest, placed, split⟩ := isBlock.foldl_place members outsideBefore
  obtain ⟨passed', rest', final, free⟩ := isBlock.foldl_outside members (split ▸ outsideBefore)
    (fun x there => outside x (mem_append_right _ there))
  refine ⟨rest'.reverse, passed'.reverse, ?_, ?_⟩
  · rw [stableSort, foldl_append, foldl_append, placed, final]
    simp
  · intro y there
    simp only [mem_append, mem_reverse] at there
    exact free y (mem_append.mpr there.symm)

end Blocks

section Order

/-! Sorting by an ordering of which `first` is the answer on different elements. -/

/-- A strict ordering of the elements of `xs` in which ties may occur. -/
structure WeakOrderOn (before : α → α → Prop) (xs : List α) : Prop where
  asymm : ∀ x ∈ xs, ∀ y ∈ xs, before x y → ¬ before y x
  weak : ∀ x ∈ xs, ∀ y ∈ xs, ∀ z ∈ xs, ¬ before x y → ¬ before y z → ¬ before x z

variable {before : α → α → Prop} {xs ys : List α}

section

variable (order : WeakOrderOn before xs)
include order

theorem WeakOrderOn.mono (sub : ys ⊆ xs) : WeakOrderOn before ys :=
  ⟨fun x inX y inY => order.asymm x (sub inX) y (sub inY),
    fun x inX y inY z inZ => order.weak x (sub inX) y (sub inY) z (sub inZ)⟩

theorem WeakOrderOn.pairwise_of_chain (chain : xs.IsChain fun x y => ¬ before y x) :
    xs.Pairwise fun x y => ¬ before y x := by
  induction xs with
  | nil => exact .nil
  | cons x xs ih =>
    have rest := ih (order.mono (subset_cons_self x xs)) chain.tail
    refine pairwise_cons.mpr ⟨fun z there => ?_, rest⟩
    cases xs with
    | nil => cases there
    | cons w xs =>
      have next : ¬ before w x := (isChain_cons_cons.mp chain).1
      rcases mem_cons.mp there with rfl | later
      · exact next
      · have behind := (pairwise_cons.mp rest).1 z later
        exact order.weak z (by simp [later]) w (by simp) x (by simp) behind next

/-- On the elements of `xs`, `first` tells what comes before what, and says yes of an element and
itself. -/
def Tells (first : α → α → Bool) (before : α → α → Prop) (xs : List α) : Prop :=
  ∀ x ∈ xs, ∀ y ∈ xs, first x y = true ↔ x = y ∨ before x y

omit order in
theorem Tells.mono (tells : Tells first before xs) (sub : ys ⊆ xs) : Tells first before ys :=
  fun x inX y inY => tells x (sub inX) y (sub inY)

theorem pairwise_place (tells : Tells first before xs) {x : α} {sorted : List α}
    (inX : x ∈ xs) (inside : ∀ y ∈ sorted, y ∈ xs)
    (inOrder : sorted.Pairwise fun x y => ¬ before x y) :
    (place first x sorted).Pairwise fun x y => ¬ before x y := by
  induction sorted with
  | nil => simp [place]
  | cons y sorted ih =>
    obtain ⟨behind, rest⟩ := pairwise_cons.mp inOrder
    have inY := inside y mem_cons_self
    have insideRest : ∀ z ∈ sorted, z ∈ xs := fun z there => inside z (mem_cons_of_mem y there)
    unfold place
    split_ifs with answer
    · refine pairwise_cons.mpr ⟨fun z there => ?_, ih insideRest rest⟩
      rcases mem_cons.mp ((perm_place first x sorted).mem_iff.mp there) with rfl | there
      · rcases (tells z inX y inY).mp answer with rfl | earlier
        · exact fun same => order.asymm z inX z inX same same
        · exact order.asymm z inX y inY earlier
      · exact behind z there
    · have notBefore : ¬ before x y :=
        fun earlier => answer ((tells x inX y inY).mpr (Or.inr earlier))
      refine pairwise_cons.mpr ⟨fun z there => ?_, inOrder⟩
      rcases mem_cons.mp there with rfl | there
      · exact notBefore
      · exact order.weak x inX y inY z (insideRest z there) notBefore (behind z there)

theorem pairwise_stableSort (tells : Tells first before xs) :
    (stableSort first xs).Pairwise fun x y => ¬ before y x := by
  have all : ∀ ys sorted : List α, (∀ y ∈ ys, y ∈ xs) → (∀ y ∈ sorted, y ∈ xs) →
      (sorted.Pairwise fun x y => ¬ before x y) →
      (ys.foldl (fun sorted x => place first x sorted) sorted).Pairwise fun x y =>
      ¬ before x y := by
    intro ys
    induction ys with
    | nil => exact fun sorted _ _ inOrder => inOrder
    | cons y ys ih =>
      intro sorted insideYs inside inOrder
      have inY := insideYs y mem_cons_self
      refine ih _ (fun z there => insideYs z (mem_cons_of_mem y there)) (fun z there => ?_)
        (pairwise_place order tells inY inside inOrder)
      rcases mem_cons.mp ((perm_place first y sorted).mem_iff.mp there) with rfl | there
      · exact inY
      · exact inside z there
  exact pairwise_reverse.mpr (all xs [] (fun _ there => there) (by simp) .nil)

end

theorem place_eq_cons {x : α} {sorted : List α} (only : ∀ y ∈ sorted, first x y = true → x = y) :
    place first x sorted = x :: sorted := by
  induction sorted with
  | nil => rfl
  | cons y sorted ih =>
    unfold place
    split_ifs with answer
    · rw [ih fun z there => only z (mem_cons_of_mem y there), only y mem_cons_self answer]
    · rfl

theorem stableSort_of_pairwise (tells : Tells first before xs)
    (inOrder : xs.Pairwise fun x y => ¬ before y x) :
    stableSort first xs = xs := by
  have all : ∀ ys sorted : List α, (∀ y ∈ ys, y ∈ xs) → (∀ y ∈ sorted, y ∈ xs) →
      ((sorted.reverse ++ ys).Pairwise fun x y => ¬ before y x) →
      ys.foldl (fun sorted x => place first x sorted) sorted = ys.reverse ++ sorted := by
    intro ys
    induction ys with
    | nil => exact fun sorted _ _ _ => rfl
    | cons y ys ih =>
      intro sorted insideYs inside inOrder
      have inY := insideYs y mem_cons_self
      have only : ∀ z ∈ sorted, first y z = true → y = z := by
        intro z there answer
        have apart : ¬ before y z :=
          (pairwise_append.mp inOrder).2.2 z (mem_reverse.mpr there) y mem_cons_self
        exact ((tells y inY z (inside z there)).mp answer).resolve_right apart
      rw [foldl_cons, place_eq_cons only]
      have next := ih (y :: sorted) (fun z there => insideYs z (mem_cons_of_mem y there))
        (fun z there => by
          rcases mem_cons.mp there with rfl | there
          · exact inY
          · exact inside z there)
        (by simpa using inOrder)
      simpa using next
  have whole := all xs [] (fun _ there => there) (by simp) (by simpa using inOrder)
  rw [stableSort, whole]
  simp

end Order

end GStore.Lib
