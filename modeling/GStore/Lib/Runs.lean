import GStore.Lib.Sorted

/-! Ordered maps as the lists of their entries in increasing order of the keys, and maps of runs of
consecutive numbers (first number to length) that neither overlap nor touch each other. -/
namespace GStore.Lib
open List

section OrderedMap

variable {κ ν : Type} [LinearOrder κ]

def assign (key : κ) (value : ν) : List (κ × ν) → List (κ × ν)
  | [] => [(key, value)]
  | e :: rest =>
    if key < e.1 then (key, value) :: e :: rest
    else if e.1 < key then e :: assign key value rest
    else (key, value) :: rest

/-- Give `key` the value if it has none. -/
def enter (key : κ) (value : ν) (l : List (κ × ν)) : List (κ × ν) :=
  if key ∈ l.map Prod.fst then l else assign key value l

def eraseKey (key : κ) (l : List (κ × ν)) : List (κ × ν) := l.filter fun e => e.1 ≠ key

def entryBefore (key : κ) (l : List (κ × ν)) : Option (κ × ν) :=
  (l.filter fun e => e.1 < key).getLast?

def entryAfter (key : κ) (l : List (κ × ν)) : Option (κ × ν) := l.find? fun e => key < e.1

abbrev Ordered (l : List (κ × ν)) : Prop := Increasing (l.map Prod.fst)

variable {l : List (κ × ν)}

theorem Ordered.unique (ordered : Ordered l) {e f : κ × ν} (left : e ∈ l) (right : f ∈ l)
    (same : e.1 = f.1) : e = f := by
  have injective := inj_on_of_nodup_map (ordered.imp ne_of_lt)
  exact injective left right same

theorem Ordered.ext {l m : List (κ × ν)} (left : Ordered l) (right : Ordered m)
    (same : ∀ e, e ∈ l ↔ e ∈ m) : l = m := by
  have leftKeys := pairwise_map.mp left
  have rightKeys := pairwise_map.mp right
  have perm : l.Perm m := (perm_ext_iff_of_nodup
      (leftKeys.imp fun below same => below.ne (congrArg Prod.fst same))
    (rightKeys.imp fun below same => below.ne (congrArg Prod.fst same))).mpr same
  exact perm.eq_of_pairwise
    (fun a b _ _ below above => absurd above (not_lt_of_gt below)) leftKeys rightKeys

variable {key : κ} {e : κ × ν} {value : ν}

theorem mem_assign (absent : ∀ e ∈ l, e.1 ≠ key) :
    e ∈ assign key value l ↔ e = (key, value) ∨ e ∈ l := by
  induction l with
  | nil => simp [assign]
  | cons f rest ih =>
    have away := absent f mem_cons_self
    have later := ih fun e inside => absent e (mem_cons_of_mem f inside)
    unfold assign
    split
    · simp
    · rename_i notBelow
      rw [if_pos (lt_of_le_of_ne (not_lt.mp notBelow) away)]
      simp only [mem_cons, later]
      tauto

theorem key_mem_assign {x : κ} (inside : x ∈ (assign key value l).map Prod.fst) :
    x = key ∨ x ∈ l.map Prod.fst := by
  induction l with
  | nil => simpa [assign] using inside
  | cons f rest ih =>
    unfold assign at inside
    split at inside
    · simpa using inside
    · split at inside
      · rcases mem_cons.mp inside with first | later
        · exact .inr (by simp [first])
        · rcases ih later with same | there
          · exact .inl same
          · exact .inr (mem_cons_of_mem _ there)
      · rcases mem_cons.mp inside with first | later
        · exact .inl first
        · exact .inr (mem_cons_of_mem _ later)

theorem assign_ordered (ordered : Ordered l) : Ordered (assign key value l) := by
  induction l with
  | nil => exact pairwise_singleton _ _
  | cons f rest ih =>
    obtain ⟨first, later⟩ := pairwise_cons.mp ordered
    unfold assign
    split
    · rename_i below
      refine pairwise_cons.mpr ⟨fun x inside => ?_, ordered⟩
      rcases mem_cons.mp inside with same | inside
      · exact same ▸ below
      · exact below.trans (first x inside)
    · split
      · rename_i above
        refine pairwise_cons.mpr ⟨fun x inside => ?_, ih later⟩
        rcases key_mem_assign inside with same | inside
        · exact same ▸ above
        · exact first x inside
      · rename_i notBelow notAbove
        have same : key = f.1 := le_antisymm (not_lt.mp notAbove) (not_lt.mp notBelow)
        refine pairwise_cons.mpr ⟨fun x inside => ?_, later⟩
        exact same ▸ first x inside

theorem enter_absent (absent : ∀ e ∈ l, e.1 ≠ key) : enter key value l = assign key value l := by
  apply if_neg
  rintro present
  obtain ⟨e, inside, same⟩ := mem_map.mp present
  exact absent e inside same

@[simp] theorem mem_eraseKey : e ∈ eraseKey key l ↔ e ∈ l ∧ e.1 ≠ key := by
  simp [eraseKey]

theorem eraseKey_ordered (ordered : Ordered l) : Ordered (eraseKey key l) :=
  List.Pairwise.sublist (filter_sublist.map Prod.fst) ordered

theorem entryBefore_some (ordered : Ordered l)
    (found : entryBefore key l = some e) : e ∈ l ∧ e.1 < key ∧ ∀ f ∈ l, f.1 < key → f.1 ≤ e.1 := by
  unfold entryBefore at found
  have inside := mem_filter.mp (mem_of_getLast? found)
  refine ⟨inside.1, of_decide_eq_true inside.2, fun f there below => ?_⟩
  obtain ⟨init, split⟩ := getLast?_eq_some_iff.mp found
  have sorted : Ordered (init ++ [e]) :=
    split ▸ List.Pairwise.sublist (filter_sublist.map Prod.fst) ordered
  have member : f ∈ init ++ [e] := split ▸ mem_filter.mpr ⟨there, decide_eq_true below⟩
  rw [Ordered, map_append, map_singleton, Increasing, pairwise_append] at sorted
  rcases mem_append.mp member with earlier | last
  · exact (sorted.2.2 f.1 (mem_map_of_mem earlier) e.1 (mem_singleton_self _)).le
  · rw [mem_singleton.mp last]

theorem entryBefore_none (missing : entryBefore key l = none) : ∀ f ∈ l, key ≤ f.1 := by
  intro f there
  unfold entryBefore at missing
  have empty := getLast?_eq_none_iff.mp missing
  by_contra below
  have member : f ∈ l.filter fun e => e.1 < key :=
    mem_filter.mpr ⟨there, decide_eq_true (not_le.mp below)⟩
  rw [empty] at member
  cases member

theorem entryAfter_some (ordered : Ordered l)
    (found : entryAfter key l = some e) : e ∈ l ∧ key < e.1 ∧ ∀ f ∈ l, key < f.1 → e.1 ≤ f.1 := by
  obtain ⟨passes, front, back, split, refused⟩ := find?_eq_some_iff_append.mp found
  refine ⟨split ▸ mem_append_right _ mem_cons_self, of_decide_eq_true passes,
      fun f there above => ?_⟩
  rw [split] at ordered there
  rw [Ordered, map_append, map_cons, Increasing, pairwise_append] at ordered
  rcases mem_append.mp there with earlier | later
  · have stays := refused f earlier
    simp [above] at stays
  · rcases mem_cons.mp later with same | behind
    · rw [same]
    · exact ((pairwise_cons.mp ordered.2.1).1 f.1 (mem_map_of_mem behind)).le

theorem entryAfter_none (missing : entryAfter key l = none) : ∀ f ∈ l, f.1 ≤ key := by
  intro f there
  simpa using find?_eq_none.mp missing f there

end OrderedMap

structure Separated (l : List (Nat × Nat)) : Prop where
  ordered : Ordered l
  filled : ∀ r ∈ l, 0 < r.2
  gap : ∀ r ∈ l, ∀ s ∈ l, r.1 < s.1 → r.1 + r.2 < s.1

def Within (r : Nat × Nat) (b : Nat) : Prop := r.1 ≤ b ∧ b < r.1 + r.2

def Covers (l : List (Nat × Nat)) (b : Nat) : Prop := ∃ r ∈ l, Within r b

theorem Separated.add {l m : List (Nat × Nat)} {new : Nat × Nat} (old : Separated l)
    (ordered : Ordered m)
    (members : ∀ r ∈ m, r = new ∨ r ∈ l) (filled : 0 < new.2)
    (distant : ∀ r ∈ m, r ∈ l → r.1 + r.2 < new.1 ∨ new.1 + new.2 < r.1) : Separated m := by
  refine ⟨ordered, fun r inside => ?_, fun r left s right below => ?_⟩
  · rcases members r inside with rfl | there
    · exact filled
    · exact old.filled r there
  · rcases members r left with same | leftOld
    · rcases members s right with also | rightOld
      · rw [same, also] at below
        exact absurd below (lt_irrefl _)
      · subst same
        rcases distant s right rightOld with before | after
        · omega
        · exact after
    · rcases members s right with also | rightOld
      · subst also
        rcases distant r left leftOld with before | after
        · exact before
        · omega
      · exact old.gap r leftOld s rightOld below

theorem Separated.sublist {l m : List (Nat × Nat)} (old : Separated l) (ordered : Ordered m)
    (members : ∀ r ∈ m, r ∈ l) : Separated m :=
  ⟨ordered, fun r inside => old.filled r (members r inside),
    fun r left s right => old.gap r (members r left) s (members s right)⟩

end GStore.Lib
