import Mathlib.Data.List.Nodup
import Mathlib.Data.List.Perm.Basic
import Mathlib.Tactic

/-! Filtering in place: an element that is dropped is exchanged with the last one that is left. No
element is lost, but the order is kept only if at most one element is kept behind the first that is
dropped. -/
namespace GStore.Lib
open List

variable {α β ε : Type}

def lastFirst (l : List α) : List α :=
  match l.getLast? with
  | none => []
  | some x => x :: l.dropLast

def swapLoop (keep : α → Except ε Bool) (limit : Nat) : Nat → List α → List α → Except ε (List α)
  | 0, saved, _ => .ok saved
  | _ + 1, saved, [] => .ok saved
  | turns + 1, saved, x :: rest =>
    if saved.length < limit then
      (keep x).bind fun kept =>
        if kept then swapLoop keep limit turns
          (saved ++ [x]) rest else swapLoop keep limit turns saved (lastFirst rest)
    else .ok saved

def swapFilter (keep : α → Bool) : Nat → List α → List α
  | 0, _ => []
  | _ + 1, [] => []
  | turns + 1, x :: rest =>
    if keep x then x :: swapFilter keep turns rest else swapFilter keep turns (lastFirst rest)

def accepted : Except ε Bool → Bool
  | .ok b => b
  | .error _ => false

def OneBehind (keep : α → Bool) (l : List α) : Prop :=
  ∀ before x behind, l = before ++ x :: behind → keep x = false → (behind.filter keep).length ≤ 1

theorem lastFirst_append (l : List α) (x : α) : lastFirst (l ++ [x]) = x :: l := by
  simp [lastFirst]

theorem lastFirst_perm (l : List α) : (lastFirst l).Perm l := by
  induction l using List.reverseRecOn with
  | nil => exact .refl []
  | append_singleton l x _ =>
    rw [lastFirst_append]
    exact (perm_append_singleton x l).symm

theorem lastFirst_map (f : α → β) (l : List α) : lastFirst (l.map f) = (lastFirst l).map f := by
  induction l using List.reverseRecOn with
  | nil => rfl
  | append_singleton l x _ =>
    rw [map_append, map_singleton, lastFirst_append, lastFirst_append, map_cons]

theorem swapLoop_map (f : α → β) (keep : β → Except ε Bool) (limit turns : Nat)
    (saved rest : List α) :
    swapLoop keep limit turns (saved.map f) (rest.map f) =
      (swapLoop (fun x => keep (f x)) limit turns saved rest).map (List.map f) := by
  induction turns generalizing saved rest with
  | zero => rfl
  | succ turns ih =>
    cases rest with
    | nil => rfl
    | cons x rest =>
      rw [map_cons, swapLoop, swapLoop, length_map]
      split
      · cases keep (f x) with
        | error e => rfl
        | ok kept =>
          have whole := ih (saved ++ [x]) rest
          rw [map_append, map_singleton] at whole
          cases kept with
          | true => exact whole
          | false =>
            have moved := ih saved (lastFirst rest)
            rw [← lastFirst_map] at moved
            exact moved
      · rfl

theorem swapLoop_eq_ok_iff {keep : α → Except ε Bool} {limit turns : Nat} {saved rest out : List α}
    (enough : rest.length ≤ turns) (room : saved.length + rest.length ≤ limit) :
    swapLoop keep limit turns saved rest = .ok out ↔
      (∀ x ∈ rest, ∃ b, keep x = .ok b) ∧
      saved ++ swapFilter (fun x => accepted (keep x)) turns rest = out := by
  induction turns generalizing saved rest with
  | zero =>
    obtain rfl := length_eq_zero_iff.mp (Nat.le_zero.mp enough)
    simp [swapLoop, swapFilter]
  | succ turns ih =>
    cases rest with
    | nil => simp [swapLoop, swapFilter]
    | cons x rest =>
      rw [length_cons] at enough room
      rw [swapLoop, if_pos (by omega), swapFilter, forall_mem_cons]
      have same := (lastFirst_perm rest).length_eq
      cases answer : keep x with
      | error e => simp [Except.bind]
      | ok kept =>
        have goesOn := @ih (saved ++ [x]) rest
          (by omega) (by rw [length_append, length_singleton]; omega)
        have moved := @ih saved (lastFirst rest) (by omega) (by omega)
        cases kept with
        | true => simpa [Except.bind, accepted] using goesOn
        | false => simpa [Except.bind, accepted, (lastFirst_perm rest).mem_iff] using moved

variable {l : List α} {turns : Nat}

theorem swapFilter_perm (keep : α → Bool) (enough : l.length ≤ turns) :
    (swapFilter keep turns l).Perm (l.filter keep) := by
  induction turns generalizing l with
  | zero =>
    obtain rfl := length_eq_zero_iff.mp (Nat.le_zero.mp enough)
    exact .refl []
  | succ turns ih =>
    cases l with
    | nil => exact .refl []
    | cons x l =>
      rw [length_cons] at enough
      rw [swapFilter, filter_cons]
      split
      · exact (ih (by omega)).cons x
      · have same := (lastFirst_perm l).length_eq
        exact (ih (by omega)).trans ((lastFirst_perm l).filter keep)

variable {keep : α → Bool}

theorem filter_length_le_of_lastFirst (nodup : l.Nodup)
    (enough : l.length ≤ turns) (same : swapFilter keep turns (lastFirst l) = l.filter keep) :
    (l.filter keep).length ≤ 1 := by
  induction l using List.reverseRecOn generalizing turns with
  | nil => simp
  | append_singleton l x ih =>
    obtain ⟨turns, rfl⟩ : ∃ k, turns = k + 1 := by
      rw [length_append, length_singleton] at enough
      exact ⟨turns - 1, by omega⟩
    rw [length_append, length_singleton] at enough
    rw [lastFirst_append, swapFilter, filter_append] at same
    rw [filter_append]
    obtain ⟨alone, _, apart⟩ := nodup_append.mp nodup
    by_cases kept : keep x = true
    · rw [if_pos kept, filter_cons_of_pos kept, filter_nil] at same
      rw [filter_cons_of_pos kept, filter_nil]
      cases others : l.filter keep with
      | nil => simp
      | cons y ys =>
        rw [others, cons_append, List.cons.injEq] at same
        have inL : y ∈ l := (mem_filter.mp (others ▸ mem_cons_self)).1
        exact absurd same.1.symm (apart y inL x (mem_singleton_self x))
    · rw [if_neg kept, filter_cons_of_neg kept, filter_nil, append_nil] at same
      rw [filter_cons_of_neg kept, filter_nil, append_nil]
      exact ih alone (by omega) same

theorem oneBehind_cons {x : α} :
    OneBehind keep (x :: l) ↔ (keep x = false → (l.filter keep).length ≤ 1) ∧ OneBehind keep l := by
  constructor
  · intro all
    refine ⟨all [] x l rfl, fun before y behind eq => all (x :: before) y behind ?_⟩
    rw [eq, cons_append]
  · rintro ⟨first, rest⟩ before y behind eq
    cases before with
    | nil =>
      obtain ⟨rfl, rfl⟩ := List.cons.inj eq
      exact first
    | cons z before => exact rest before y behind (List.cons.inj eq).2

theorem oneBehind_of_length (few : (l.filter keep).length ≤ 1) : OneBehind keep l := by
  rintro before x behind rfl _
  rw [filter_append, length_append, filter_cons] at few
  split at few
  · rw [length_cons] at few
    omega
  · omega

theorem swapFilter_eq_filter_iff (nodup : l.Nodup)
    (enough : l.length ≤ turns) : swapFilter keep turns l = l.filter keep ↔ OneBehind keep l := by
  induction turns generalizing l with
  | zero =>
    obtain rfl := length_eq_zero_iff.mp (Nat.le_zero.mp enough)
    exact ⟨fun _ => oneBehind_of_length (by simp), fun _ => rfl⟩
  | succ turns ih =>
    cases l with
    | nil => exact ⟨fun _ => oneBehind_of_length (by simp), fun _ => rfl⟩
    | cons x l =>
      rw [length_cons] at enough
      have alone := (nodup_cons.mp nodup).2
      rw [swapFilter, oneBehind_cons]
      by_cases kept : keep x = true
      · rw [if_pos kept, filter_cons_of_pos kept, List.cons.injEq, eq_self_iff_true, true_and,
            ih alone (by omega)]
        simp [kept]
      · rw [if_neg kept, filter_cons_of_neg kept]
        constructor
        · intro same
          have few := filter_length_le_of_lastFirst alone (by omega) same
          exact ⟨fun _ => few, oneBehind_of_length few⟩
        · rintro ⟨few, _⟩
          have length := (lastFirst_perm l).length_eq
          have perm := (swapFilter_perm keep (by omega : (lastFirst l).length ≤ turns)).trans
            ((lastFirst_perm l).filter keep)
          have short := few (Bool.eq_false_of_not_eq_true kept)
          cases found : l.filter keep with
          | nil => exact perm_nil.mp (found ▸ perm)
          | cons y ys =>
            rw [found, length_cons] at short
            obtain rfl := length_eq_zero_iff.mp (by omega : ys.length = 0)
            exact perm_singleton.mp (found ▸ perm)

theorem oneBehind_congr {keep want : α → Bool} (same : ∀ x ∈ l, keep x = want x) :
    OneBehind keep l ↔ OneBehind want l := by
  refine forall₄_congr fun before x behind eq => ?_
  subst eq
  rw [same x (by simp), filter_congr fun y later => same y (by simp [later])]

theorem oneBehind_map {keep : β → Bool} {f : α → β} :
    OneBehind keep (l.map f) ↔ OneBehind (fun x => keep (f x)) l := by
  have lengths : ∀ l : List α, ((l.map f).filter keep).length =
      (l.filter fun x => keep (f x)).length := by
    intro l
    rw [filter_map, length_map]
    rfl
  constructor
  · rintro behind before x rest rfl dropped
    rw [← lengths]
    exact behind (before.map f) (f x) (rest.map f) (by simp) dropped
  · intro behind before y rest eq dropped
    obtain ⟨first, others, rfl, rfl, tail⟩ := map_eq_append_iff.mp eq
    obtain ⟨x, last, rfl, rfl, rfl⟩ := map_eq_cons_iff.mp tail
    rw [lengths]
    exact behind first x last rfl dropped

theorem swapFilter_eq_iff {keep want : α → Bool} (nodup : l.Nodup) (enough : l.length ≤ turns) :
    swapFilter keep turns l = l.filter want ↔ (∀ x ∈ l, keep x = want x) ∧ OneBehind want l := by
  constructor
  · intro eq
    have same : ∀ x ∈ l, keep x = want x := by
      intro x inside
      have member := (swapFilter_perm keep enough).mem_iff (a := x)
      rw [eq, mem_filter, mem_filter, and_iff_right inside, and_iff_right inside] at member
      exact Bool.eq_iff_iff.mpr member.symm
    rw [← filter_congr same, swapFilter_eq_filter_iff nodup enough] at eq
    exact ⟨same, (oneBehind_congr same).mp eq⟩
  · rintro ⟨same, behind⟩
    rw [← filter_congr same, swapFilter_eq_filter_iff nodup enough]
    exact (oneBehind_congr same).mpr behind

end GStore.Lib
