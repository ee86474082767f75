import Mathlib.Algebra.BigOperators.Ring.Finset
import Mathlib.Data.Finset.Powerset
import Mathlib.Data.Finset.Prod
import Mathlib.Tactic

/-! Closed walks of three steps in a finite relation, against the triangles and the directed cycles
among them. A triangle is found in six orders, a directed cycle in three rotations, and with a loop
there are walks that are neither. -/
namespace GStore.Lib

open Classical Finset

variable {α : Type} (V : Finset α) (r : α → α → Prop)

/-- The triples that close: a step to the second, from there to the third, and from there back. -/
noncomputable def closedTriples : Finset (α × α × α) :=
  (V ×ˢ V ×ˢ V).filter fun t => r t.1 t.2.1 ∧ r t.2.1 t.2.2 ∧ r t.2.2 t.1

noncomputable def properTriples : Finset (α × α × α) :=
  (closedTriples V r).filter fun t => t.1 ≠ t.2.1 ∧ t.2.1 ≠ t.2.2 ∧ t.2.2 ≠ t.1

noncomputable def triangles : Finset (Finset α) :=
  (V.powersetCard 3).filter fun s => ∀ a ∈ s, ∀ b ∈ s, a ≠ b → r a b

noncomputable def rotations (t : α × α × α) : Finset (α × α × α) :=
  {t, (t.2.1, t.2.2, t.1), (t.2.2, t.1, t.2.1)}

noncomputable def directedCycles : Finset (Finset (α × α × α)) :=
  (properTriples V r).image rotations

variable {V : Finset α} {r : α → α → Prop}

theorem mem_closedTriples {a b c : α} :
    (a, b, c) ∈ closedTriples V r ↔ (a ∈ V ∧ b ∈ V ∧ c ∈ V) ∧ r a b ∧ r b c ∧ r c a := by
  simp [closedTriples]

theorem mem_properTriples {a b c : α} : (a, b, c) ∈ properTriples V r ↔
    ((a ∈ V ∧ b ∈ V ∧ c ∈ V) ∧ r a b ∧ r b c ∧ r c a) ∧ a ≠ b ∧ b ≠ c ∧ c ≠ a := by
  rw [properTriples, mem_filter, mem_closedTriples]

theorem properTriples_subset : properTriples V r ⊆ closedTriples V r := filter_subset _ _

theorem closedTriples_eq_proper (irreflexive : ∀ a ∈ V, ¬ r a a) :
    closedTriples V r = properTriples V r := by
  refine (filter_true_of_mem ?_).symm
  rintro ⟨a, b, c⟩ closed
  obtain ⟨⟨inA, inB, inC⟩, ab, bc, ca⟩ := mem_closedTriples.mp closed
  refine ⟨?_, ?_, ?_⟩ <;> dsimp only
  · rintro rfl
    exact irreflexive _ inA ab
  · rintro rfl
    exact irreflexive _ inB bc
  · rintro rfl
    exact irreflexive _ inC ca

theorem card_properTriples_of_symm (symm : ∀ a b, r a b → r b a) :
    (properTriples V r).card = 6 * (triangles V r).card := by
  have maps : ∀ t ∈ properTriples V r, ({t.1, t.2.1, t.2.2} : Finset α) ∈ triangles V r := by
    rintro ⟨a, b, c⟩ proper
    obtain ⟨⟨⟨inA, inB, inC⟩, ab, bc, ca⟩, neAB, neBC, neCA⟩ := mem_properTriples.mp proper
    have three : ({a, b, c} : Finset α).card = 3 :=
      card_eq_three.mpr ⟨a, b, c, neAB, neCA.symm, neBC, rfl⟩
    refine mem_filter.mpr ⟨mem_powersetCard.mpr ⟨?_, three⟩, ?_⟩
    · simp [insert_subset_iff, inA, inB, inC]
    · have ba := symm a b ab
      have cb := symm b c bc
      have ac := symm c a ca
      intro x inX y inY ne
      simp only [mem_insert, mem_singleton] at inX inY
      rcases inX with rfl | rfl | rfl <;> rcases inY with rfl | rfl | rfl <;>
        first | assumption | exact absurd rfl ne
  rw [card_eq_sum_card_fiberwise maps, mul_comm, ← smul_eq_mul, ← sum_const]
  refine sum_congr rfl fun s member => ?_
  obtain ⟨inside, related⟩ := mem_filter.mp member
  obtain ⟨subset, three⟩ := mem_powersetCard.mp inside
  obtain ⟨a, b, c, neAB, neAC, neBC, rfl⟩ := card_eq_three.mp three
  -- the fibre of a triangle is the set of its six orders
  have fibre : ((properTriples V r).filter fun t => ({t.1, t.2.1, t.2.2} : Finset α) = {a, b, c}) =
      {(a, b, c), (a, c, b), (b, a, c), (b, c, a), (c, a, b), (c, b, a)} := by
    have inA : a ∈ V := subset (by simp)
    have inB : b ∈ V := subset (by simp)
    have inC : c ∈ V := subset (by simp)
    have rel : ∀ x ∈ ({a, b, c} : Finset α), ∀ y ∈ ({a, b, c} : Finset α), x ≠ y → r x y := related
    ext ⟨x, y, z⟩
    rw [mem_filter, mem_properTriples]
    constructor
    · rintro ⟨⟨-, neXY, neYZ, neZX⟩, same⟩
      have inX : x ∈ ({a, b, c} : Finset α) := same ▸ by simp
      have inY : y ∈ ({a, b, c} : Finset α) := same ▸ by simp
      have inZ : z ∈ ({a, b, c} : Finset α) := same ▸ by simp
      simp only [mem_insert, mem_singleton] at inX inY inZ
      rcases inX with rfl | rfl | rfl <;> rcases inY with rfl | rfl | rfl
        <;> rcases inZ with rfl | rfl | rfl <;>
        first | exact absurd rfl neXY | exact absurd rfl neYZ | exact absurd rfl neZX | simp
    · intro order
      have inS : (x ∈ ({a, b, c} : Finset α) ∧ y ∈ ({a, b, c} : Finset α) ∧
          z ∈ ({a, b, c} : Finset α)) ∧
          (x ≠ y ∧ y ≠ z ∧ z ≠ x) ∧ ({x, y, z} : Finset α) = {a, b, c} := by
        simp only [mem_insert, mem_singleton, Prod.mk.injEq] at order
        rcases order with ⟨rfl, rfl, rfl⟩ | ⟨rfl, rfl, rfl⟩ | ⟨rfl, rfl, rfl⟩ | ⟨rfl, rfl, rfl⟩ |
          ⟨rfl, rfl, rfl⟩ |
          ⟨rfl, rfl, rfl⟩ <;>
          refine ⟨by simp, ⟨?_, ?_, ?_⟩, by ext; grind⟩ <;> first | assumption | (apply Ne.symm; assumption)
      obtain ⟨⟨hx, hy, hz⟩, ⟨xy, yz, zx⟩, same⟩ := inS
      exact ⟨⟨⟨⟨subset hx, subset hy, subset hz⟩, rel x hx y hy xy, rel y hy z hz yz,
          rel z hz x hx zx⟩, xy, yz, zx⟩, same⟩
  rw [fibre]
  simp [card_insert_of_notMem, neAB, neAC, neBC, neAB.symm, neAC.symm, neBC.symm]

theorem rotations_eq_iff {t u : α × α × α} : rotations t = rotations u ↔ t ∈ rotations u := by
  obtain ⟨a, b, c⟩ := t
  obtain ⟨x, y, z⟩ := u
  constructor
  · intro same
    rw [← same]
    simp [rotations]
  · intro member
    simp only [rotations, mem_insert, mem_singleton, Prod.mk.injEq] at member
    rcases member with ⟨rfl, rfl, rfl⟩ | ⟨rfl, rfl, rfl⟩ | ⟨rfl, rfl, rfl⟩
    · rfl
    all_goals
      ext
      simp only [rotations, mem_insert, mem_singleton]
      tauto

theorem card_properTriples : (properTriples V r).card = 3 * (directedCycles V r).card := by
  rw [card_eq_sum_card_image rotations, mul_comm, ← smul_eq_mul, ← sum_const]
  refine sum_congr rfl fun s member => ?_
  obtain ⟨⟨a, b, c⟩, proper, rfl⟩ := mem_image.mp member
  obtain ⟨⟨⟨inA, inB, inC⟩, ab, bc, ca⟩, neAB, neBC, neCA⟩ := mem_properTriples.mp proper
  have fibre : ((properTriples V r).filter fun t => rotations t = rotations (a, b, c)) = rotations
      (a, b, c) := by
    ext t
    rw [mem_filter, rotations_eq_iff]
    refine ⟨And.right, fun rotation => ⟨?_, rotation⟩⟩
    simp only [rotations, mem_insert, mem_singleton] at rotation
    rcases rotation with rfl | rfl | rfl
    · exact proper
    · exact mem_properTriples.mpr ⟨⟨⟨inB, inC, inA⟩, bc, ca, ab⟩, neBC, neCA, neAB⟩
    · exact mem_properTriples.mpr ⟨⟨⟨inC, inA, inB⟩, ca, ab, bc⟩, neCA, neAB, neBC⟩
  rw [fibre]
  simp [rotations, card_insert_of_notMem, neAB, neBC, neCA, neAB.symm, neBC.symm, neCA.symm]

end GStore.Lib
