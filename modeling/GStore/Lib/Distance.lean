import GStore.Lib.Traversal
import Mathlib.Order.ConditionallyCompleteLattice.Basic
import Mathlib.Tactic

/-! Distances in a relation, and what a breadth-first search knows about them: the nodes found stand
in the order of their distances, and those that have left the queue have their neighbours among
them. -/
namespace GStore.Lib
open List

variable {α : Type} {r : α → α → Prop} {u v w : α} {n : Nat}

/-- A walk of `n` steps. -/
inductive Walk (r : α → α → Prop) (u : α) : Nat → α → Prop where
  | refl : Walk r u 0 u
  | tail {n : Nat} {v w : α} : Walk r u n v → r v w → Walk r u (n + 1) w

def Reach (r : α → α → Prop) (u v : α) : Prop := ∃ n, Walk r u n v

noncomputable def distance (r : α → α → Prop) (u v : α) : Nat := sInf {n | Walk r u n v}

theorem Walk.distance_le (walk : Walk r u n v) : distance r u v ≤ n := Nat.sInf_le walk

theorem Reach.refl : Reach r u u := ⟨0, .refl⟩

theorem Reach.walk (reach : Reach r u v) : Walk r u (distance r u v) v := Nat.sInf_mem reach

theorem Reach.tail (reach : Reach r u v) (step : r v w) : Reach r u w := ⟨_, reach.walk.tail step⟩

theorem Reach.distance_succ_le (reach : Reach r u v) (step : r v w) :
    distance r u w ≤ distance r u v + 1 :=
  (reach.walk.tail step).distance_le

theorem distance_self : distance r u u = 0 := Nat.le_zero.mp Walk.refl.distance_le

theorem Walk.inside {U : Finset α} (source : u ∈ U) (closed : ∀ v w, r v w → w ∈ U)
    (walk : Walk r u n v) : v ∈ U := by
  cases walk with
  | refl => exact source
  | tail _ step => exact closed _ _ step

theorem Reach.distance_eq_zero (reach : Reach r u v) : distance r u v = 0 ↔ v = u := by
  constructor
  · intro zero
    have walk := reach.walk
    rw [zero] at walk
    cases walk
    rfl
  · rintro rfl
    exact distance_self

theorem Reach.exists_pred (reach : Reach r u w) (ne : w ≠ u) :
    ∃ v, Reach r u v ∧ r v w ∧ distance r u w = distance r u v + 1 := by
  have walk := reach.walk
  obtain ⟨n, positive⟩ : ∃ n, distance r u w = n + 1 :=
    ⟨distance r u w - 1, by have := mt reach.distance_eq_zero.mp ne; omega⟩
  rw [positive] at walk
  cases walk with
  | @tail _ v _ before step =>
    have reachV : Reach r u v := ⟨n, before⟩
    have upper := before.distance_le
    have lower := reachV.distance_succ_le step
    exact ⟨v, reachV, step, by omega⟩

theorem Reach.exists_at (reach : Reach r u w) (le : n ≤ distance r u w) :
    ∃ v, Reach r u v ∧ distance r u v = n := by
  induction gap : distance r u w - n generalizing w with
  | zero => exact ⟨w, reach, by omega⟩
  | succ k ih =>
    have ne : w ≠ u := by
      rintro rfl
      rw [distance_self] at gap
      omega
    obtain ⟨v, reachV, -, next⟩ := reach.exists_pred ne
    exact ih reachV (by omega) (by omega)

theorem Reach.distance_lt_card {U : Finset α} (source : u ∈ U) (closed : ∀ v w, r v w → w ∈ U)
    (reach : Reach r u w) :
    distance r u w < U.card := by
  have : Nonempty α := ⟨u⟩
  choose! node reached at_ using fun n (le : n ≤ distance r u w) => reach.exists_at le
  have injective : Set.InjOn node (Finset.range (distance r u w + 1) : Set Nat) := by
    intro i below j other same
    rw [Finset.coe_range, Set.mem_Iio] at below other
    rw [← at_ i (by omega), ← at_ j (by omega), same]
  have count := Finset.card_le_card_of_injOn (t := U) node
    (fun i below => (reached i
      (by have := Finset.mem_range.mp below; omega)).walk.inside source closed) injective
  rw [Finset.card_range] at count
  omega

theorem Walk.append {m : Nat} (first : Walk r u m v) (second : Walk r v n w) :
    Walk r u (m + n) w := by
  induction second with
  | refl => exact first
  | tail _ step ih => exact ih.tail step

theorem Walk.split (walk : Walk r u n w) {i : Nat} (le : i ≤ n) :
    ∃ v, Walk r u i v ∧ Walk r v (n - i) w := by
  induction walk with
  | refl =>
    obtain rfl : i = 0 := by omega
    exact ⟨u, .refl, .refl⟩
  | @tail n x y before step ih =>
    obtain rfl | last := eq_or_ne i (n + 1)
    · exact ⟨y, before.tail step, by rw [Nat.sub_self]; exact .refl⟩
    · obtain ⟨v, first, second⟩ := ih (by omega)
      exact ⟨v, first, by rw [show n + 1 - i = (n - i) + 1 by omega]; exact second.tail step⟩

theorem Walk.back (walk : Walk r u n w) : Walk (fun a b => r b a) w n u := by
  induction walk with
  | refl => exact .refl
  | @tail n x y _ step ih =>
    have first : Walk (fun a b => r b a) y 1 x := Walk.refl.tail step
    rw [Nat.add_comm]
    exact first.append ih

theorem Walk.longer {a b : Nat}
    (apart : ∀ x, Reach r u x → distance r u x ≤ a → Reach (fun a b => r b a) w x →
    distance (fun a b => r b a) w x ≤ b → False) (walk : Walk r u n w) : a + b < n := by
  by_contra short
  obtain ⟨x, first, second⟩ := walk.split (Nat.min_le_right a n)
  have near : distance r u x ≤ a := first.distance_le.trans (Nat.min_le_left a n)
  have far : distance (fun a b => r b a) w x ≤ b := second.back.distance_le.trans (by omega)
  exact apart x ⟨_, first⟩ near ⟨_, second.back⟩ far

/-- The state of a breadth-first search that expands only to distances `within`. -/
structure Bfs (r : α → α → Prop) (within : Nat → Prop) (u : α) (done queue : List α) : Prop where
  nodup : (done ++ queue).Nodup
  source : u ∈ done ++ queue
  reach : ∀ v ∈ done ++ queue, Reach r u v
  inside : ∀ v ∈ done ++ queue, within (distance r u v)
  sorted : (done ++ queue).Pairwise fun a b => distance r u a ≤ distance r u b
  near : ∀ v ∈ queue.head?, ∀ w ∈ queue, distance r u w ≤ distance r u v + 1
  closed : ∀ v ∈ done, within (distance r u v + 1) → ∀ w, r v w → w ∈ done ++ queue

section Bfs

variable {within : Nat → Prop} {done queue new : List α}

theorem Bfs.init (zero : within 0) : Bfs r within u [] [u] where
  nodup := nodup_singleton u
  source := mem_singleton_self u
  reach v found := by
    rw [mem_singleton.mp found]
    exact .refl
  inside v found := by
    rw [mem_singleton.mp found, distance_self]
    exact zero
  sorted := pairwise_singleton _ _
  near v first w found := by
    rw [mem_singleton.mp found, distance_self]
    exact Nat.zero_le _
  closed v found := by cases found

variable (down : ∀ m n, m ≤ n → within n → within m)
include down

section

variable (bfs : Bfs r within u done (v :: queue))
include bfs

theorem Bfs.before (reach : Reach r u w) (nearer : distance r u w < distance r u v) : w ∈ done := by
  have headWithin := bfs.inside v (by simp)
  -- a found node that is nearer than the head does not stand behind it
  have left : ∀ x ∈ done ++ v :: queue, distance r u x < distance r u v → x ∈ done := by
    intro x found less
    rcases mem_append.mp found with before | behind
    · exact before
    · have sorted := (pairwise_append.mp bfs.sorted).2.1
      rcases mem_cons.mp behind with rfl | later
      · omega
      · have := rel_of_pairwise_cons sorted later
        omega
  induction away : distance r u w generalizing w with
  | zero =>
    rw [reach.distance_eq_zero.mp away] at nearer ⊢
    exact left u bfs.source nearer
  | succ n ih =>
    have ne : w ≠ u := by
      rintro rfl
      rw [distance_self] at away
      omega
    obtain ⟨x, reachX, step, next⟩ := reach.exists_pred ne
    have behind : x ∈ done := ih reachX (by omega) (by omega)
    exact left w (bfs.closed x behind (down _ _ (by omega) headWithin) w step) nearer

theorem Bfs.new_distance (step : r v w) (new : w ∉ done ++ v :: queue) :
    distance r u w = distance r u v + 1 := by
  have reachV := bfs.reach v (by simp)
  have upper := reachV.distance_succ_le step
  by_contra ne
  have other : w ≠ u := by
    rintro rfl
    exact new bfs.source
  obtain ⟨x, reachX, edge, next⟩ := (reachV.tail step).exists_pred other
  have behind := bfs.before down reachX (by omega)
  exact new (bfs.closed x behind (down _ _ (by omega) (bfs.inside v (by simp))) w edge)

theorem Bfs.step (once : new.Nodup)
    (fresh : ∀ w ∈ new, r v w ∧ w ∉ done ++ v :: queue ∧ within (distance r u v + 1))
    (all : within (distance r u v + 1) → ∀ w, r v w → w ∈ done ++ v :: queue ∨ w ∈ new) :
    Bfs r within u (done ++ [v]) (queue ++ new) := by
  have shape : (done ++ [v]) ++ (queue ++ new) = (done ++ v :: queue) ++ new := by simp
  have further : ∀ w ∈ new, distance r u w = distance r u v + 1 := fun w member =>
    bfs.new_distance down (fresh w member).1 (fresh w member).2.1
  have headSorted : ∀ w ∈ queue, distance r u v ≤ distance r u w := fun w later =>
    rel_of_pairwise_cons (pairwise_append.mp bfs.sorted).2.1 later
  have bounded : ∀ a ∈ done ++ v :: queue, distance r u a ≤ distance r u v + 1 := by
    intro a found
    rcases mem_append.mp found with before | behind
    · have := (pairwise_append.mp bfs.sorted).2.2 a before v mem_cons_self
      omega
    · exact bfs.near v rfl a behind
  constructor
  · rw [shape]
    exact nodup_append.mpr ⟨bfs.nodup, once, fun a old b member same =>
        (fresh b member).2.1 (same ▸ old)⟩
  · rw [shape]
    exact mem_append_left _ bfs.source
  · rw [shape]
    intro w found
    rcases mem_append.mp found with old | member
    · exact bfs.reach w old
    · exact (bfs.reach v (by simp)).tail (fresh w member).1
  · rw [shape]
    intro w found
    rcases mem_append.mp found with old | member
    · exact bfs.inside w old
    · rw [further w member]
      exact (fresh w member).2.2
  · rw [shape]
    refine pairwise_append.mpr ⟨bfs.sorted, ?_, fun a old b member => ?_⟩
    · exact pairwise_of_forall_mem_list fun a one b two => by rw [further a one, further b two]
    · rw [further b member]
      exact bounded a old
  · intro first isFirst w listed
    have lower : distance r u v ≤ distance r u first := by
      rcases mem_append.mp (mem_of_mem_head? isFirst) with later | member
      · exact headSorted _ later
      · rw [further first member]
        omega
    rcases mem_append.mp listed with later | member
    · exact (bounded w (by simp [later])).trans (by omega)
    · rw [further w member]
      omega
  · rw [shape]
    intro a left reached w edge
    rcases mem_append.mp left with before | now
    · exact mem_append_left _ (bfs.closed a before reached w edge)
    · rw [mem_singleton.mp now] at reached edge
      exact mem_append.mpr (all reached w edge)

end

theorem Bfs.complete (bfs : Bfs r within u done []) :
    w ∈ done ↔ Reach r u w ∧ within (distance r u w) := by
  constructor
  · intro found
    exact ⟨bfs.reach w (mem_append_left [] found), bfs.inside w (mem_append_left [] found)⟩
  · rintro ⟨reach, reached⟩
    induction away : distance r u w generalizing w with
    | zero =>
      rw [reach.distance_eq_zero.mp away]
      simpa using bfs.source
    | succ n ih =>
      have ne : w ≠ u := by
        rintro rfl
        rw [distance_self] at away
        omega
      obtain ⟨x, reachX, step, next⟩ := reach.exists_pred ne
      have behind : x ∈ done := ih reachX (down _ _ (by omega) reached) (by omega)
      have found := bfs.closed x behind (next ▸ reached) w step
      rwa [append_nil] at found

omit down in
theorem Bfs.step_unseen [DecidableEq α] (bfs : Bfs r (fun _ => True) u done (v :: queue))
    {ns : List α}
    (neighbours : ∀ w, w ∈ ns ↔ r v w) :
    Bfs r (fun _ => True) u (done ++ [v]) (queue ++ unseen (done ++ v :: queue) ns) := by
  refine bfs.step (fun _ _ _ _ => trivial) (unseen_nodup _ _) (fun w member => ?_) fun _ w edge =>
    ?_
  · obtain ⟨listed, new⟩ := mem_unseen.mp member
    exact ⟨(neighbours w).mp listed, new, trivial⟩
  · by_cases found : w ∈ done ++ v :: queue
    · exact .inl found
    · exact .inr (mem_unseen.mpr ⟨(neighbours w).mpr edge, found⟩)

omit down in
theorem Bfs.length_le {U : Finset α} (bfs : Bfs r within u done queue) (source : u ∈ U)
    (closed : ∀ v w, r v w → w ∈ U) :
    done.length + queue.length ≤ U.card := by
  classical
  rw [← length_append, ← toFinset_card_of_nodup bfs.nodup]
  refine Finset.card_le_card fun w found => ?_
  exact (bfs.reach w (mem_toFinset.mp found)).walk.inside source closed

end Bfs

end GStore.Lib
