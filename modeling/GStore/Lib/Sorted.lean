import Mathlib.Data.List.Destutter
import Mathlib.Data.List.TakeWhile
import Mathlib.Tactic

/-! Strictly increasing lists as finite sets: insertion, union and difference by one pass
over both lists, and the index facts that loops over such lists need. -/
namespace GStore.Lib
open List

abbrev Increasing {α : Type} [LT α] (l : List α) : Prop := l.Pairwise (· < ·)

variable {α : Type} [LinearOrder α]

def insertSorted (a : α) : List α → List α
  | [] => [a]
  | b :: l => if b < a then b :: insertSorted a l else if a < b then a :: b :: l else b :: l

/-- One pass of the union for a fixed head of the left list; `rest` goes on with its tail. -/
def unionInto (x : α) (rest : List α → List α) : List α → List α
  | [] => x :: rest []
  | y :: ys =>
    if y < x then y :: unionInto x rest ys
    else if x < y then x :: rest (y :: ys)
    else y :: rest ys

def unionSorted : List α → List α → List α
  | [] => fun ys => ys
  | x :: xs => unionInto x (unionSorted xs)

def diffFrom (x : α) (rest : List α → List α) : List α → List α
  | [] => x :: rest []
  | d :: ds =>
    if x = d then rest ds
    else if d < x then diffFrom x rest ds
    else x :: rest (d :: ds)

def diffSorted : List α → List α → List α
  | [] => fun _ => []
  | x :: xs => diffFrom x (diffSorted xs)

def interInto (x : α) (rest : List α → List α) : List α → List α
  | [] => []
  | y :: ys => if x < y then rest (y :: ys) else if y < x then interInto x rest ys else x :: rest ys

def interSorted : List α → List α → List α
  | [] => fun _ => []
  | x :: xs => interInto x (interSorted xs)

variable {l : List α} {x : α}

@[simp] theorem mem_insertSorted {a : α} : x ∈ insertSorted a l ↔ x = a ∨ x ∈ l := by
  induction l with
  | nil => simp [insertSorted]
  | cons b l ih =>
    unfold insertSorted
    split
    · simp only [mem_cons, ih]
      tauto
    · split
      · simp
      · have same : a = b := le_antisymm (not_lt.mp ‹_›) (not_lt.mp ‹_›)
        simp [same]

theorem insertSorted_increasing {a : α} (sorted : Increasing l) :
    Increasing (insertSorted a l) := by
  induction l with
  | nil => simp [insertSorted]
  | cons b l ih =>
    obtain ⟨first, rest⟩ := pairwise_cons.mp sorted
    unfold insertSorted
    split
    · rename_i below
      refine pairwise_cons.mpr ⟨?_, ih rest⟩
      intro x hx
      rcases mem_insertSorted.mp hx with hx | hx
      · exact hx ▸ below
      · exact first x hx
    · split
      · rename_i above
        refine pairwise_cons.mpr ⟨?_, sorted⟩
        intro x hx
        rcases mem_cons.mp hx with hx | hx
        · exact hx ▸ above
        · exact above.trans (first x hx)
      · exact sorted

@[simp] theorem mem_unionSorted (xs ys : List α) : x ∈ unionSorted xs ys ↔ x ∈ xs ∨ x ∈ ys := by
  induction xs generalizing ys with
  | nil => simp [unionSorted]
  | cons a xs ih =>
    induction ys with
    | nil => simp [unionSorted, unionInto, ih]
    | cons b ys ihy =>
      simp only [unionSorted, unionInto] at ihy ⊢
      split
      · simp only [mem_cons, ihy]
        tauto
      · split
        · simp only [mem_cons, ih]
          tauto
        · have same : a = b := le_antisymm (not_lt.mp ‹_›) (not_lt.mp ‹_›)
          simp only [mem_cons, ih, same]
          tauto

variable {xs ys : List α}

theorem unionSorted_increasing (left : Increasing xs) (right : Increasing ys) :
    Increasing (unionSorted xs ys) := by
  induction xs generalizing ys with
  | nil => exact right
  | cons a xs ih =>
    obtain ⟨firstLeft, restLeft⟩ := pairwise_cons.mp left
    induction ys with
    | nil =>
      refine pairwise_cons.mpr ⟨?_, ih restLeft List.Pairwise.nil⟩
      intro x hx
      exact firstLeft x (by simpa using hx)
    | cons b ys ihy =>
      obtain ⟨firstRight, restRight⟩ := pairwise_cons.mp right
      have step := ihy restRight
      simp only [unionSorted, unionInto] at step ⊢
      split
      · rename_i below
        refine pairwise_cons.mpr ⟨?_, step⟩
        intro x hx
        have member : x ∈ a :: xs ∨ x ∈ ys := (mem_unionSorted (a :: xs) ys).mp hx
        rcases member with hx | hx
        · rcases mem_cons.mp hx with hx | hx
          · exact hx ▸ below
          · exact below.trans (firstLeft x hx)
        · exact firstRight x hx
      · split
        · rename_i above
          refine pairwise_cons.mpr ⟨?_, ih restLeft right⟩
          intro x hx
          rcases (mem_unionSorted xs (b :: ys)).mp hx with hx | hx
          · exact firstLeft x hx
          · rcases mem_cons.mp hx with hx | hx
            · exact hx ▸ above
            · exact above.trans (firstRight x hx)
        · have same : a = b := le_antisymm (not_lt.mp ‹_›) (not_lt.mp ‹_›)
          refine pairwise_cons.mpr ⟨?_, ih restLeft restRight⟩
          intro x hx
          rcases (mem_unionSorted xs ys).mp hx with hx | hx
          · exact same ▸ firstLeft x hx
          · exact firstRight x hx

theorem diffSorted_sublist (xs ds : List α) : (diffSorted xs ds).Sublist xs := by
  induction xs generalizing ds with
  | nil => exact List.Sublist.refl []
  | cons x xs ih =>
    induction ds with
    | nil => exact (ih []).cons_cons x
    | cons d ds ihd =>
      simp only [diffSorted, diffFrom] at ihd ⊢
      split
      · exact (ih ds).cons x
      · split
        · exact ihd
        · exact (ih (d :: ds)).cons_cons x

theorem diffSorted_increasing {xs : List α} (ds : List α) (sorted : Increasing xs) :
    Increasing (diffSorted xs ds) := sorted.sublist (diffSorted_sublist xs ds)

@[simp] theorem mem_diffSorted {xs ds : List α} (left : Increasing xs) (right : Increasing ds) :
    x ∈ diffSorted xs ds ↔ x ∈ xs ∧ x ∉ ds := by
  induction xs generalizing ds with
  | nil => simp [diffSorted]
  | cons a xs ih =>
    obtain ⟨firstLeft, restLeft⟩ := pairwise_cons.mp left
    induction ds with
    | nil => simp [diffSorted, diffFrom, ih restLeft List.Pairwise.nil]
    | cons d ds ihd =>
      obtain ⟨firstRight, restRight⟩ := pairwise_cons.mp right
      have step := ihd restRight
      simp only [diffSorted, diffFrom] at step ⊢
      split
      · rename_i same
        rw [ih restLeft restRight]
        simp only [mem_cons, not_or]
        constructor
        · rintro ⟨hx, hd⟩
          exact ⟨.inr hx, same ▸ (firstLeft x hx).ne', hd⟩
        · rintro ⟨hx, hne, hd⟩
          exact ⟨hx.resolve_left (same ▸ hne), hd⟩
      · split
        · rename_i differs below
          rw [step]
          simp only [mem_cons, not_or]
          constructor
          · rintro ⟨hx, hd⟩
            refine ⟨hx, ?_, hd⟩
            rcases hx with hx | hx
            · exact hx ▸ below.ne'
            · exact (below.trans (firstLeft x hx)).ne'
          · rintro ⟨hx, -, hd⟩
            exact ⟨hx, hd⟩
        · rename_i differs notBelow
          have above : a < d := lt_of_le_of_ne (not_lt.mp notBelow) differs
          rw [mem_cons, ih restLeft right]
          simp only [mem_cons, not_or]
          constructor
          · rintro (hx | ⟨hx, hd⟩)
            · subst hx
              exact ⟨.inl rfl, differs, fun hx => (above.trans (firstRight x hx)).false⟩
            · exact ⟨.inr hx, hd⟩
          · rintro ⟨hx | hx, hd⟩
            · exact .inl hx
            · exact .inr ⟨hx, hd⟩

theorem interSorted_sublist (xs ys : List α) : (interSorted xs ys).Sublist xs := by
  induction xs generalizing ys with
  | nil => exact List.Sublist.refl []
  | cons x xs ih =>
    induction ys with
    | nil => exact nil_sublist _
    | cons y ys ihy =>
      simp only [interSorted, interInto] at ihy ⊢
      split
      · exact (ih (y :: ys)).cons x
      · split
        · exact ihy
        · exact (ih ys).cons_cons x

theorem mem_interSorted (left : Increasing xs) (right : Increasing ys) :
    x ∈ interSorted xs ys ↔ x ∈ xs ∧ x ∈ ys := by
  induction xs generalizing ys with
  | nil => simp [interSorted]
  | cons a xs ih =>
    obtain ⟨firstLeft, restLeft⟩ := pairwise_cons.mp left
    induction ys with
    | nil => simp [interSorted, interInto]
    | cons b ys ihy =>
      obtain ⟨firstRight, restRight⟩ := pairwise_cons.mp right
      have step := ihy restRight
      simp only [interSorted, interInto] at step ⊢
      split
      · rename_i less
        have out : a ∉ b :: ys := by
          intro member
          rcases mem_cons.mp member with same | later
          · exact less.ne same
          · exact (less.trans (firstRight a later)).false
        rw [ih restLeft right, mem_cons (b := a)]
        exact and_congr_left fun member =>
          ⟨.inr, fun h => h.resolve_left fun same => out (same ▸ member)⟩
      · split
        · rename_i less
          have out : b ∉ a :: xs := by
            intro member
            rcases mem_cons.mp member with same | later
            · exact less.ne same
            · exact (less.trans (firstLeft b later)).false
          rw [step, mem_cons (b := b)]
          exact and_congr_right fun member =>
            ⟨.inr, fun h => h.resolve_left fun same => out (same ▸ member)⟩
        · have same : a = b := le_antisymm (not_lt.mp ‹_›) (not_lt.mp ‹_›)
          subst same
          rw [mem_cons, ih restLeft restRight, mem_cons, mem_cons]
          tauto

theorem increasing_nodup (sorted : Increasing l) : l.Nodup := sorted.imp ne_of_lt

theorem increasing_ext (left : Increasing xs) (right : Increasing ys)
    (same : ∀ x, x ∈ xs ↔ x ∈ ys) : xs = ys := by
  have perm : xs.Perm ys :=
    (perm_ext_iff_of_nodup (increasing_nodup left) (increasing_nodup right)).mpr same
  exact perm.eq_of_pairwise (fun a b _ _ hab hba => absurd hba (not_lt_of_gt hab)) left right

theorem increasing_split (sorted : Increasing l) (a : α) :
    ∃ low high, l = low ++ high ∧ (∀ x ∈ low, x < a) ∧ ∀ x ∈ high, a ≤ x := by
  induction l with
  | nil => exact ⟨[], [], rfl, by simp, by simp⟩
  | cons b l ih =>
    obtain ⟨first, rest⟩ := pairwise_cons.mp sorted
    by_cases below : b < a
    · obtain ⟨low, high, hl, hlow, hhigh⟩ := ih rest
      refine ⟨b :: low, high, by simp [hl], ?_, hhigh⟩
      intro x hx
      rcases mem_cons.mp hx with hx | hx
      · exact hx ▸ below
      · exact hlow x hx
    · refine ⟨[], b :: l, rfl, by simp, ?_⟩
      intro x hx
      rcases mem_cons.mp hx with hx | hx
      · exact hx ▸ not_lt.mp below
      · exact (not_lt.mp below).trans (first x hx).le

theorem false_of_mem_dropWhile {β : Type} {test : β → Bool} {l : List β}
    (closed : l.Pairwise fun a b => test b = true → test a = true) :
    ∀ x ∈ l.dropWhile test, test x = false := by
  induction l with
  | nil => simp
  | cons a l ih =>
    obtain ⟨first, rest⟩ := pairwise_cons.mp closed
    cases pass : test a with
    | true =>
      rw [dropWhile_cons_of_pos pass]
      exact ih rest
    | false =>
      rw [dropWhile_cons_of_neg (by simp [pass])]
      intro x hx
      rcases mem_cons.mp hx with rfl | hx
      · exact pass
      · cases later : test x with
        | false => rfl
        | true => exact absurd (first x hx later) (by simp [pass])

theorem length_takeWhile_range' {p : Nat → Bool} {start n m : Nat} (bound : m ≤ n)
    (holds : ∀ i, i < m → p (start + i) = true) (stops : m < n → p (start + m) = false) :
    ((List.range' start n).takeWhile p).length = m := by
  induction m generalizing start n with
  | zero =>
    cases n with
    | zero => rfl
    | succ n =>
      have first : p start = false := by simpa using stops (Nat.succ_pos n)
      simp [range'_succ, first]
  | succ m ih =>
    cases n with
    | zero => omega
    | succ n =>
      have first : p start = true := by simpa using holds 0 (Nat.succ_pos m)
      have rest := @ih (start + 1) n (by omega)
        (fun i hi => by simpa [Nat.add_assoc, Nat.add_comm 1] using holds (i + 1) (by omega))
        (fun hm => by simpa [Nat.add_assoc, Nat.add_comm 1] using stops (by omega))
      simp [range'_succ, first, rest]

theorem mem_destutter_ne {β : Type} [DecidableEq β] {l : List β} {x : β} :
    x ∈ l.destutter (· ≠ ·) ↔ x ∈ l := by
  have inside : ∀ (l : List β) (a : β), x ∈ a :: l → x ∈ l.destutter' (· ≠ ·) a := by
    intro l
    induction l with
    | nil => exact fun a member => by simpa using member
    | cons b l ih =>
      intro a member
      rw [destutter'_cons]
      split
      · rcases mem_cons.mp member with rfl | later
        · exact mem_cons_self
        · exact mem_cons_of_mem a (ih b later)
      · rename_i same
        have equal : a = b := not_not.mp same
        exact ih a (by simpa [equal] using member)
  cases l with
  | nil => simp
  | cons a l => exact ⟨fun member => (destutter_sublist _ _).mem member, inside l a⟩

theorem destutter_increasing (sorted : l.Pairwise (· ≤ ·)) : Increasing (l.destutter (· ≠ ·)) := by
  have ordered := pairwise_iff_getElem.mp (sorted.sublist (destutter_sublist (· ≠ ·) l))
  refine isChain_iff_pairwise.mp (isChain_iff_getElem.mpr fun i bound => ?_)
  have differs := isChain_iff_getElem.mp (isChain_destutter (· ≠ ·) l) i bound
  exact lt_of_le_of_ne (ordered i (i + 1) (Nat.lt_of_succ_lt bound) bound (Nat.lt_succ_self i))
    differs

theorem destutter_nodup {β : Type} [DecidableEq β] {le : β → β → Prop} {l : List β}
    (sorted : l.Pairwise le)
    (antisymm : ∀ x ∈ l, ∀ y ∈ l, le x y → le y x → x = y) : (l.destutter (· ≠ ·)).Nodup := by
  have inside : ∀ x ∈ l.destutter (· ≠ ·), x ∈ l := fun x => (destutter_sublist _ _).mem
  have ordered := pairwise_iff_getElem.mp (sorted.sublist (destutter_sublist (· ≠ ·) l))
  refine pairwise_iff_getElem.mpr fun i j hi hj before same => ?_
  have bound : i + 1 < (l.destutter (· ≠ ·)).length := by omega
  have differs := isChain_iff_getElem.mp (isChain_destutter (· ≠ ·) l) i bound
  rcases Nat.eq_or_lt_of_le (Nat.succ_le_of_lt before) with next | later
  · subst next
    exact differs same
  · -- the element between the two equal ones is at most and at least as large
    have up := ordered i (i + 1) hi bound (Nat.lt_succ_self i)
    have down := ordered (i + 1) j bound hj later
    rw [← same] at down
    exact differs (antisymm _ (inside _ (getElem_mem hi)) _ (inside _ (getElem_mem bound)) up down)

end GStore.Lib
