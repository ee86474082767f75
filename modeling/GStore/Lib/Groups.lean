import GStore.Lib.Sorted
import Mathlib.Data.Prod.Lex
import Mathlib.Data.List.Induction

/-! A finite set of pairs stored as groups: strictly increasing keys, each with its
non-empty strictly increasing members. -/
namespace GStore.Lib
open List

variable {α β : Type}

def pairs (gs : List (α × List β)) : List (α × β) := gs.flatMap fun g => g.2.map (Prod.mk g.1)

@[simp] theorem pairs_nil : pairs ([] : List (α × List β)) = [] := rfl

@[simp] theorem pairs_cons (g : α × List β) (gs : List (α × List β)) :
    pairs (g :: gs) = g.2.map (Prod.mk g.1) ++ pairs gs := rfl

@[simp] theorem pairs_append (gs hs : List (α × List β)) :
    pairs (gs ++ hs) = pairs gs ++ pairs hs := by
  simp [pairs, flatMap_append]

variable {gs : List (α × List β)} {x : β} {p : α}

theorem mem_pairs : (p, x) ∈ pairs gs ↔ ∃ xs, (p, xs) ∈ gs ∧ x ∈ xs := by
  simp only [pairs, mem_flatMap, mem_map, Prod.mk.injEq]
  constructor
  · rintro ⟨⟨q, xs⟩, member, y, hy, rfl, rfl⟩
    exact ⟨xs, member, hy⟩
  · rintro ⟨xs, member, hx⟩
    exact ⟨(p, xs), member, x, hx, rfl, rfl⟩

variable {g : α × List β}

theorem mem_pairs_cons : (p, x) ∈ pairs (g :: gs) ↔ p = g.1 ∧ x ∈ g.2 ∨ (p, x) ∈ pairs gs := by
  simp only [pairs_cons, mem_append, mem_map, Prod.mk.injEq]
  constructor
  · rintro (⟨y, member, rfl, rfl⟩ | member)
    · exact .inl ⟨rfl, member⟩
    · exact .inr member
  · rintro (⟨rfl, member⟩ | member)
    · exact .inl ⟨x, member, rfl, rfl⟩
    · exact .inr member

theorem length_pairs (gs : List (α × List β)) :
    (pairs gs).length = (gs.flatMap Prod.snd).length := by
  simp [pairs, length_flatMap]

variable {low high : List (α × List β)}

theorem mem_pairs_middle {q : α} {xs : List β} {y : β} :
    (q, y) ∈ pairs (low ++ (p, xs) :: high) ↔ (q, y) ∈ pairs (low ++ high) ∨ q = p ∧ y ∈ xs := by
  simp only [pairs_append, pairs_cons, mem_append, mem_map, Prod.mk.injEq]
  constructor
  · rintro (h | ⟨z, hz, rfl, rfl⟩ | h)
    · exact .inl (.inl h)
    · exact .inr ⟨rfl, hz⟩
    · exact .inl (.inr h)
  · rintro ((h | h) | ⟨rfl, hy⟩)
    · exact .inl h
    · exact .inr (.inr h)
    · exact .inr (.inl ⟨y, hy, rfl, rfl⟩)

variable [LinearOrder α]

theorem not_mem_pairs_around {p : α} {y : β}
    (before : ∀ g ∈ low, g.1 < p) (after : ∀ g ∈ high, p < g.1) : (p, y) ∉ pairs (low ++ high) := by
  intro member
  obtain ⟨xs, hxs, -⟩ := mem_pairs.mp member
  rcases mem_append.mp hxs with h | h
  · exact (before _ h).false
  · exact (after _ h).false

theorem lt_key_of_mem_pairs {k : α} (below : ∀ g ∈ gs, k < g.1) (member : (p, x) ∈ pairs gs) :
    k < p := by
  obtain ⟨xs, hit, -⟩ := mem_pairs.mp member
  exact below _ hit

theorem mem_pairs_dropWhile (ds : List (α × List β)) {k : α} (above : k ≤ p) :
    (p, x) ∈ pairs (ds.dropWhile fun d => decide (d.1 < k)) ↔ (p, x) ∈ pairs ds := by
  induction ds with
  | nil => rfl
  | cons d ds ih =>
    by_cases less : d.1 < k
    · rw [dropWhile_cons_of_pos (by simpa using less), ih, pairs_cons, mem_append, or_iff_right]
      intro hit
      obtain ⟨y, -, same⟩ := mem_map.mp hit
      exact absurd (congrArg Prod.fst same) (less.trans_le above).ne
    · rw [dropWhile_cons_of_neg (by simpa using less)]

theorem le_of_dropWhile_eq_cons {ds es : List (α × List β)} {d : α × List β} {k : α}
    (drops : ds.dropWhile (fun d => decide (d.1 < k)) = d :: es) : k ≤ d.1 := by
  have stop := head_dropWhile_not (p := fun d : α × List β => decide (d.1 < k)) (l := ds)
    (by simp [drops])
  simpa [drops] using stop

variable [LinearOrder β]

structure Grouped (gs : List (α × List β)) : Prop where
  keys : Increasing (gs.map Prod.fst)
  members : ∀ g ∈ gs, g.2 ≠ [] ∧ Increasing g.2

theorem grouped_nil : Grouped ([] : List (α × List β)) :=
  ⟨List.Pairwise.nil, by simp⟩

theorem grouped_cons : Grouped (g :: gs) ↔ (∀ h ∈ gs, g.1 < h.1) ∧ (g.2 ≠ [] ∧ Increasing g.2) ∧
    Grouped gs := by
  constructor
  · intro whole
    have keys := pairwise_cons.mp whole.keys
    refine ⟨fun h hh => keys.1 h.1 (mem_map_of_mem hh), whole.members g (by simp), keys.2, ?_⟩
    exact fun h hh => whole.members h (mem_cons_of_mem g hh)
  · rintro ⟨below, own, rest⟩
    refine ⟨pairwise_cons.mpr ⟨?_, rest.keys⟩, ?_⟩
    · intro k hk
      obtain ⟨h, hh, rfl⟩ := mem_map.mp hk
      exact below h hh
    · intro h hh
      rcases mem_cons.mp hh with hh | hh
      · exact hh ▸ own
      · exact rest.members h hh

theorem increasing_second {l : List (α ×ₗ β)} (sorted : Increasing l) {a : α}
    (same : ∀ e ∈ l, (ofLex e).1 = a) :
    Increasing (l.map fun e => (ofLex e).2) := by
  refine pairwise_map.mpr (sorted.imp_of_mem fun {x y} hx hy less => ?_)
  rcases Prod.Lex.lt_iff.mp less with less | ⟨-, less⟩
  · exact absurd ((same x hx).trans (same y hy).symm) less.ne
  · exact less

theorem pairs_increasing (whole : Grouped gs) : Increasing ((pairs gs).map toLex) := by
  induction gs with
  | nil => exact List.Pairwise.nil
  | cons g gs ih =>
    obtain ⟨below, ⟨-, sorted⟩, rest⟩ := grouped_cons.mp whole
    rw [pairs_cons, map_append, map_map]
    refine pairwise_append.mpr ⟨pairwise_map.mpr (sorted.imp fun less => ?_), ih rest, ?_⟩
    · exact Prod.Lex.lt_iff.mpr (.inr ⟨rfl, less⟩)
    · intro a left b right
      obtain ⟨x, -, rfl⟩ := mem_map.mp left
      obtain ⟨q, member, rfl⟩ := mem_map.mp right
      exact Prod.Lex.lt_iff.mpr (.inl (lt_key_of_mem_pairs below member))

theorem first_key_le (whole : Grouped (g :: gs)) (member : (p, x) ∈ pairs (g :: gs)) : g.1 ≤ p := by
  rcases mem_pairs_cons.mp member with ⟨rfl, -⟩ | later
  · exact le_refl _
  · exact (lt_key_of_mem_pairs (grouped_cons.mp whole).1 later).le

variable {hs : List (α × List β)}

theorem grouped_ext (left : Grouped gs) (right : Grouped hs)
    (same : ∀ p x, (p, x) ∈ pairs gs ↔ (p, x) ∈ pairs hs) : gs = hs := by
  induction gs generalizing hs with
  | nil =>
    cases hs with
    | nil => rfl
    | cons h hs =>
      obtain ⟨x, hx⟩ := exists_mem_of_ne_nil _ (grouped_cons.mp right).2.1.1
      exact absurd ((same h.1 x).mpr (mem_pairs_cons.mpr (.inl ⟨rfl, hx⟩))) (by simp)
  | cons g gs ih =>
    obtain ⟨below, ⟨filled, sorted⟩, rest⟩ := grouped_cons.mp left
    obtain ⟨x, hx⟩ := exists_mem_of_ne_nil _ filled
    have first : (g.1, x) ∈ pairs (g :: gs) := mem_pairs_cons.mpr (.inl ⟨rfl, hx⟩)
    cases hs with
    | nil => exact absurd ((same g.1 x).mp first) (by simp)
    | cons h hs =>
      obtain ⟨above, ⟨full, ordered⟩, others⟩ := grouped_cons.mp right
      obtain ⟨y, hy⟩ := exists_mem_of_ne_nil _ full
      have key : g.1 = h.1 := le_antisymm
        (first_key_le left ((same h.1 y).mpr (mem_pairs_cons.mpr (.inl ⟨rfl, hy⟩))))
        (first_key_le right ((same g.1 x).mp first))
      have own : ∀ z, z ∈ g.2 ↔ z ∈ h.2 := by
        intro z
        have late : (g.1, z) ∉ pairs gs := fun hit => (lt_key_of_mem_pairs below hit).false
        have early : (g.1, z) ∉ pairs hs := fun hit => (key ▸ lt_key_of_mem_pairs above hit).false
        have here := same g.1 z
        rw [mem_pairs_cons, mem_pairs_cons, or_iff_left late, or_iff_left early] at here
        simpa [key] using here
      have later : ∀ p z, (p, z) ∈ pairs gs ↔ (p, z) ∈ pairs hs := by
        intro p z
        have here := same p z
        rw [mem_pairs_cons, mem_pairs_cons, ← key, own z] at here
        by_cases head : p = g.1
        · have late : (p, z) ∉ pairs gs := fun hit => (head ▸ lt_key_of_mem_pairs below hit).false
          have early : (p, z) ∉ pairs hs :=
            fun hit => (head.trans key ▸ lt_key_of_mem_pairs above hit).false
          exact iff_of_false late early
        · simpa [head] using here
      rw [ih rest others later, Prod.ext key (increasing_ext sorted ordered own)]

theorem grouped_append : Grouped (gs ++ hs) ↔ Grouped gs ∧ Grouped hs ∧
    ∀ g ∈ gs, ∀ h ∈ hs, g.1 < h.1 := by
  induction gs with
  | nil => simp [grouped_nil]
  | cons g gs ih =>
    rw [cons_append, grouped_cons, ih, grouped_cons]
    simp only [mem_append, mem_cons]
    constructor
    · rintro ⟨below, own, left, right, between⟩
      refine ⟨⟨fun h hh => below h (.inl hh), own, left⟩, right, ?_⟩
      rintro k (rfl | hk) h hh
      · exact below h (.inr hh)
      · exact between k hk h hh
    · rintro ⟨⟨below, own, left⟩, right, between⟩
      refine ⟨?_, own, left, right, fun k hk => between k (.inr hk)⟩
      rintro h (hh | hh)
      · exact below h hh
      · exact between g (.inl rfl) h hh

theorem grouped_split (whole : Grouped gs) (p : α) :
    (∃ low high, gs = low ++ high ∧ (∀ g ∈ low, g.1 < p) ∧ ∀ g ∈ high, p < g.1) ∨
    ∃ low xs high, gs = low ++ (p, xs) :: high ∧ (∀ g ∈ low, g.1 < p) ∧ ∀ g ∈ high, p < g.1 := by
  induction gs with
  | nil => exact .inl ⟨[], [], rfl, by simp, by simp⟩
  | cons g gs ih =>
    obtain ⟨below, own, rest⟩ := grouped_cons.mp whole
    rcases lt_trichotomy g.1 p with before | same | after
    · have extend : ∀ low : List (α × List β), (∀ h ∈ low, h.1 < p) → ∀ h ∈ g :: low, h.1 < p := by
        intro low hlow h hh
        rcases mem_cons.mp hh with hh | hh
        · exact hh ▸ before
        · exact hlow h hh
      rcases ih rest with ⟨low, high, split, hlow, hhigh⟩ | ⟨low, xs, high, split, hlow, hhigh⟩
      · exact .inl ⟨g :: low, high, by simp [split], extend low hlow, hhigh⟩
      · exact .inr ⟨g :: low, xs, high, by simp [split], extend low hlow, hhigh⟩
    · exact .inr ⟨[], g.2, gs, by simp [← same], by simp, same ▸ below⟩
    · refine .inl ⟨[], g :: gs, rfl, by simp, ?_⟩
      intro h hh
      rcases mem_cons.mp hh with hh | hh
      · exact hh ▸ after
      · exact after.trans (below h hh)

theorem grouped_middle {xs : List β} : Grouped (low ++ (p, xs) :: high) ↔
      Grouped low ∧ Grouped high ∧ (xs ≠ [] ∧ Increasing xs) ∧
      (∀ g ∈ low, g.1 < p) ∧ (∀ g ∈ high, p < g.1) ∧ ∀ g ∈ low, ∀ h ∈ high, g.1 < h.1 := by
  rw [grouped_append, grouped_cons]
  simp only [mem_cons]
  constructor
  · rintro ⟨left, ⟨below, own, right⟩, between⟩
    exact ⟨left, right, own, fun g hg => between g hg _ (.inl rfl), below,
      fun g hg h hh => between g hg h (.inr hh)⟩
  · rintro ⟨left, right, own, before, after, between⟩
    refine ⟨left, ⟨after, own, right⟩, ?_⟩
    rintro g hg h (rfl | hh)
    · exact before g hg
    · exact between g hg h hh

def unionGroupsInto (g : α × List β) (rest : List (α × List β) → List (α × List β)) :
    List (α × List β) → List (α × List β)
  | [] => g :: rest []
  | h :: hs =>
    if h.1 < g.1 then h :: unionGroupsInto g rest hs
    else if g.1 < h.1 then g :: rest (h :: hs)
    else (h.1, unionSorted g.2 h.2) :: rest hs

def unionGroups : List (α × List β) → List (α × List β) → List (α × List β)
  | [] => fun hs => hs
  | g :: gs => unionGroupsInto g (unionGroups gs)

theorem unionGroups_keys (gs hs : List (α × List β)) :
    (unionGroups gs hs).map Prod.fst = unionSorted (gs.map Prod.fst) (hs.map Prod.fst) := by
  induction gs generalizing hs with
  | nil => rfl
  | cons g gs ih =>
    induction hs with
    | nil => simp only [unionGroups, unionGroupsInto, map_cons, ih]; rfl
    | cons h hs ihh =>
      simp only [unionGroups, unionGroupsInto, map_cons, unionSorted, unionInto] at ihh ⊢
      split
      · simp [map_cons, ihh]
      · split
        · simp [map_cons, ih]
        · simp [map_cons, ih]

theorem mem_unionGroups_members (left : Grouped gs) (right : Grouped hs) :
    ∀ k ∈ unionGroups gs hs, k.2 ≠ [] ∧ Increasing k.2 := by
  induction gs generalizing hs with
  | nil => exact right.members
  | cons g gs ih =>
    obtain ⟨-, ownLeft, restLeft⟩ := grouped_cons.mp left
    induction hs with
    | nil =>
      intro k hk
      rcases mem_cons.mp hk with hk | hk
      · exact hk ▸ ownLeft
      · exact ih restLeft grouped_nil k hk
    | cons h hs ihh =>
      obtain ⟨-, ownRight, restRight⟩ := grouped_cons.mp right
      have step := ihh restRight
      simp only [unionGroups, unionGroupsInto] at step ⊢
      intro k hk
      split at hk
      · rcases mem_cons.mp hk with hk | hk
        · exact hk ▸ ownRight
        · exact step k hk
      · split at hk
        · rcases mem_cons.mp hk with hk | hk
          · exact hk ▸ ownLeft
          · exact ih restLeft right k hk
        · rcases mem_cons.mp hk with hk | hk
          · subst hk
            refine ⟨?_, unionSorted_increasing ownLeft.2 ownRight.2⟩
            obtain ⟨x, hx⟩ := exists_mem_of_ne_nil _ ownLeft.1
            exact ne_nil_of_mem ((mem_unionSorted _ _).mpr (.inl hx))
          · exact ih restLeft restRight k hk

theorem unionGroups_grouped (left : Grouped gs) (right : Grouped hs) :
    Grouped (unionGroups gs hs) :=
  ⟨unionGroups_keys gs hs ▸ unionSorted_increasing left.keys right.keys,
    mem_unionGroups_members left right⟩

theorem mem_pairs_unionGroups : (p, x) ∈ pairs (unionGroups gs hs) ↔ (p, x) ∈ pairs gs ∨
    (p, x) ∈ pairs hs := by
  induction gs generalizing hs with
  | nil => simp [unionGroups]
  | cons g gs ih =>
    induction hs with
    | nil => simp [unionGroups, unionGroupsInto, ih]
    | cons h hs ihh =>
      simp only [unionGroups, unionGroupsInto] at ihh ⊢
      split
      · simp only [pairs_cons, mem_append, ihh]
        tauto
      · split
        · simp only [pairs_cons, mem_append, ih]
          tauto
        · have same : g.1 = h.1 := le_antisymm (not_lt.mp ‹_›) (not_lt.mp ‹_›)
          simp only [pairs_cons, mem_append, ih, mem_map, mem_unionSorted, same]
          constructor
          · rintro (⟨y, hy | hy, eq⟩ | hg | hh)
            · exact .inl (.inl ⟨y, hy, eq⟩)
            · exact .inr (.inl ⟨y, hy, eq⟩)
            · exact .inl (.inr hg)
            · exact .inr (.inr hh)
          · rintro ((⟨y, hy, eq⟩ | hg) | ⟨y, hy, eq⟩ | hh)
            · exact .inl ⟨y, .inl hy, eq⟩
            · exact .inr (.inl hg)
            · exact .inl ⟨y, .inr hy, eq⟩
            · exact .inr (.inr hh)

/-- Take the members of `ds` out of the groups; a group that loses all members goes. -/
def diffGroups : List (α × List β) → List (α × List β) → List (α × List β)
  | [], _ => []
  | g :: gs, ds =>
    match ds.dropWhile fun d => decide (d.1 < g.1) with
    | [] => g :: diffGroups gs []
    | d :: rest =>
      if d.1 = g.1 then
        if diffSorted g.2 d.2 = [] then diffGroups gs rest else
          (g.1, diffSorted g.2 d.2) :: diffGroups gs rest
      else g :: diffGroups gs (d :: rest)

variable {ds : List (α × List β)}

theorem dropWhile_grouped (whole : Grouped ds) (k : α) :
    Grouped (ds.dropWhile fun d => decide (d.1 < k)) := by
  have split := takeWhile_append_dropWhile (p := fun d => decide (d.1 < k)) (l := ds)
  rw [← split] at whole
  exact (grouped_append.mp whole).2.1

theorem diffGroups_keys : ∀ k ∈ diffGroups gs ds, ∃ g ∈ gs, g.1 = k.1 := by
  induction gs generalizing ds with
  | nil => simp [diffGroups]
  | cons g gs ih =>
    have later : ∀ es, ∀ k ∈ diffGroups gs es, ∃ h ∈ g :: gs, h.1 = k.1 := by
      intro es k hk
      obtain ⟨h, hh, same⟩ := ih k hk
      exact ⟨h, mem_cons_of_mem g hh, same⟩
    have first : ∀ es own, ∀ k ∈ (g.1, own) :: diffGroups gs es, ∃ h ∈ g :: gs, h.1 = k.1 := by
      intro es own k hk
      rcases mem_cons.mp hk with rfl | hk
      · exact ⟨g, by simp, rfl⟩
      · exact later es k hk
    unfold diffGroups
    split
    · exact first [] g.2
    · split
      · split
        · exact later _
        · exact first _ _
      · exact first _ g.2

theorem diffGroups_grouped (ds : List (α × List β)) (whole : Grouped gs) :
    Grouped (diffGroups gs ds) := by
  induction gs generalizing ds with
  | nil => exact grouped_nil
  | cons g gs ih =>
    obtain ⟨below, own, rest⟩ := grouped_cons.mp whole
    have extend : ∀ es members, members ≠ [] → Increasing members →
        Grouped ((g.1, members) :: diffGroups gs es) := by
      intro es members nonempty sorted
      refine grouped_cons.mpr ⟨fun k hk => ?_, ⟨nonempty, sorted⟩, ih es rest⟩
      obtain ⟨h, hh, same⟩ := diffGroups_keys k hk
      exact same ▸ below h hh
    unfold diffGroups
    split
    · exact extend [] g.2 own.1 own.2
    · split
      · split
        · exact ih _ rest
        · rename_i nonempty
          exact extend _ _ nonempty (diffSorted_increasing _ own.2)
      · exact extend _ g.2 own.1 own.2

theorem mem_pairs_diffGroups (left : Grouped gs) (right : Grouped ds) :
    (p, x) ∈ pairs (diffGroups gs ds) ↔ (p, x) ∈ pairs gs ∧ (p, x) ∉ pairs ds := by
  induction gs generalizing ds with
  | nil => simp [diffGroups]
  | cons g gs ih =>
    obtain ⟨below, own, rest⟩ := grouped_cons.mp left
    have tail := dropWhile_grouped right g.1
    have above : (p, x) ∈ pairs gs → g.1 < p := lt_key_of_mem_pairs below
    -- neither the group of `g` nor the later ones lose a pair to the dropped groups
    have cut : ∀ es, ds.dropWhile (fun d => decide (d.1 < g.1)) = es → g.1 ≤ p →
        ((p, x) ∈ pairs ds ↔ (p, x) ∈ pairs es) := by
      rintro es rfl less
      exact (mem_pairs_dropWhile ds less).symm
    unfold diffGroups
    split
    · rename_i drops
      rw [drops] at tail
      rw [pairs_cons, mem_append, ih rest tail, pairs_cons, mem_append, mem_map]
      constructor
      · rintro (⟨y, hy, hit⟩ | ⟨h, -⟩)
        · exact ⟨.inl ⟨y, hy, hit⟩, by rw [cut [] drops (congrArg Prod.fst hit).le]; simp⟩
        · exact ⟨.inr h, by rw [cut [] drops (above h).le]; simp⟩
      · rintro ⟨h, -⟩
        exact h.imp id fun h => ⟨h, by simp⟩
    · rename_i d es drops
      rw [drops] at tail
      obtain ⟨before, ownD, restD⟩ := grouped_cons.mp tail
      have least := le_of_dropWhile_eq_cons drops
      have outside : g.1 ≤ p → ((p, x) ∉ pairs ds ↔ ¬ (p = d.1 ∧ x ∈ d.2) ∧ (p, x) ∉ pairs es) := by
        intro less
        rw [cut _ drops less, pairs_cons, mem_append, not_or, mem_map]
        simp [eq_comm, and_comm]
      split
      · rename_i same
        have kept : ((p, x) ∈ (diffSorted g.2 d.2).map (Prod.mk g.1) ∨
            (p, x) ∈ pairs (diffGroups gs es)) ↔
            (p, x) ∈ pairs (g :: gs) ∧ (p, x) ∉ pairs ds := by
          rw [ih rest restD, pairs_cons, mem_append, mem_map, mem_map]
          constructor
          · rintro (⟨y, hy, hit⟩ | ⟨h, away⟩)
            · obtain ⟨rfl, rfl⟩ := Prod.mk.inj hit
              rw [mem_diffSorted own.2 ownD.2] at hy
              refine ⟨.inl ⟨y, hy.1, rfl⟩,
                  (outside le_rfl).mpr ⟨fun hit => hy.2 hit.2, fun hit => ?_⟩⟩
              exact absurd (lt_key_of_mem_pairs before hit) (by simp [same])
            · exact ⟨.inr h, (outside (above h).le).mpr
                  ⟨fun hit => absurd (above h) (by simp [hit.1, same]), away⟩⟩
          · rintro ⟨⟨y, hy, hit⟩ | h, away⟩
            · obtain ⟨rfl, rfl⟩ := Prod.mk.inj hit
              have apart := ((outside le_rfl).mp away).1
              exact .inl ⟨y, (mem_diffSorted own.2 ownD.2).mpr
                  ⟨hy, fun hd => apart ⟨same.symm, hd⟩⟩, rfl⟩
            · exact .inr ⟨h, ((outside (above h).le).mp away).2⟩
        split
        · rename_i empty
          rw [← kept, empty]
          simp
        · rw [← kept, pairs_cons, mem_append]
      · rename_i differs
        have strict : g.1 < d.1 := lt_of_le_of_ne least (Ne.symm differs)
        rw [pairs_cons, mem_append, ih rest tail, pairs_cons g gs, mem_append, mem_map]
        constructor
        · rintro (⟨y, hy, hit⟩ | ⟨h, away⟩)
          · obtain ⟨rfl, rfl⟩ := Prod.mk.inj hit
            refine ⟨.inl ⟨y, hy, rfl⟩,
                (outside le_rfl).mpr ⟨fun hit => strict.ne hit.1, fun hit => ?_⟩⟩
            exact (strict.trans (lt_key_of_mem_pairs before hit)).false
          · exact ⟨.inr h, by rw [cut _ drops (above h).le]; exact away⟩
        · rintro ⟨h | h, away⟩
          · exact .inl h
          · exact .inr ⟨h, by rw [← cut _ drops (above h).le]; exact away⟩

def putInto (put : β → List β → List β) (p : α) (x : β) : List (α × List β) → List (α × List β)
  | [] => [(p, put x [])]
  | g :: gs =>
    if g.1 < p then g :: putInto put p x gs
    else if p < g.1 then (p, put x []) :: g :: gs
    else (g.1, put x g.2) :: gs

def collect (put : β → List β → List β) (ps : List (α × β)) : List (α × List β) :=
  ps.foldl (fun gs q => putInto put q.1 q.2 gs) []

variable {put : β → List β → List β}

variable (append : ∀ x l, (∀ y ∈ l, y < x) → put x l = l ++ [x])
include append

theorem putInto_last (whole : Grouped gs)
    (last : ∀ q y, (q, y) ∈ pairs gs → q < p ∨ q = p ∧ y < x) :
    Grouped (putInto put p x gs) ∧ (∀ k ∈ putInto put p x gs, k.1 = p ∨ ∃ g ∈ gs, g.1 = k.1) ∧
      pairs (putInto put p x gs) = pairs gs ++ [(p, x)] := by
  have single : put x [] = [x] := append x [] (by simp)
  induction gs with
  | nil =>
    rw [putInto, single]
    exact ⟨grouped_cons.mpr ⟨by simp, ⟨by simp, by simp⟩, grouped_nil⟩, by simp, by simp⟩
  | cons g gs ih =>
    obtain ⟨below, own, rest⟩ := grouped_cons.mp whole
    obtain ⟨y, hy⟩ := exists_mem_of_ne_nil _ own.1
    have first := last g.1 y (by simp [hy])
    unfold putInto
    split
    · rename_i less
      obtain ⟨grouped, named, listed⟩ := ih rest (fun q y h => last q y (by simp [h]))
      refine ⟨grouped_cons.mpr ⟨?_, own, grouped⟩, ?_, by simp [listed]⟩
      · intro k hk
        rcases named k hk with same | ⟨h, hh, same⟩
        · exact same ▸ less
        · exact same ▸ below h hh
      · intro k hk
        rcases mem_cons.mp hk with rfl | hk
        · exact .inr ⟨k, by simp, rfl⟩
        · exact (named k hk).imp id fun ⟨h, hh, same⟩ => ⟨h, mem_cons_of_mem g hh, same⟩
    · rename_i notLess
      have same : g.1 = p := first.elim (fun less => absurd less notLess) And.left
      have none : gs = [] := by
        rw [eq_nil_iff_forall_not_mem]
        intro h hh
        obtain ⟨z, hz⟩ := exists_mem_of_ne_nil _ (rest.members h hh).1
        have after := same ▸ below h hh
        rcases last h.1 z (mem_pairs.mpr ⟨h.2, mem_cons_of_mem g hh, hz⟩) with less | ⟨equal, -⟩
        · exact (less.trans after).false
        · exact after.ne' equal
      subst none
      have smaller : ∀ z ∈ g.2, z < x := by
        intro z hz
        rcases last g.1 z (by simp [hz]) with less | ⟨-, less⟩
        · exact absurd less notLess
        · exact less
      rw [if_neg (by rw [same]; exact lt_irrefl p), append x g.2 smaller]
      refine ⟨grouped_cons.mpr ⟨by simp, ⟨by simp, ?_⟩, grouped_nil⟩, ?_, ?_⟩
      · exact pairwise_append.mpr ⟨own.2, pairwise_singleton _ _, by simpa using smaller⟩
      · intro k hk
        exact .inl (by rw [mem_singleton.mp hk, same])
      · simp [same]

theorem collect_spec {ps : List (α ×ₗ β)} (sorted : Increasing ps) :
    Grouped (collect put (ps.map ofLex)) ∧ pairs (collect put (ps.map ofLex)) = ps.map ofLex := by
  induction ps using List.reverseRecOn with
  | nil => exact ⟨grouped_nil, rfl⟩
  | append_singleton ps q ih =>
    obtain ⟨front, -, before⟩ := pairwise_append.mp sorted
    obtain ⟨grouped, listed⟩ := ih front
    have last : ∀ p y, (p, y) ∈ pairs (collect put (ps.map ofLex)) → p < (ofLex q).1 ∨
        p = (ofLex q).1 ∧ y < (ofLex q).2 := by
      intro p y member
      rw [listed] at member
      obtain ⟨r, hr, same⟩ := mem_map.mp member
      have less := before r hr q (by simp)
      rw [Prod.Lex.lt_iff, same] at less
      exact less
    have put_last := putInto_last append grouped last
    rw [map_append, map_singleton, collect, foldl_append]
    refine ⟨put_last.1, ?_⟩
    exact put_last.2.2.trans (by rw [listed])

end GStore.Lib
