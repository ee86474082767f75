import Mathlib.Data.Finset.Card
import Mathlib.Data.List.Nodup
import Mathlib.Logic.Relation
import Mathlib.Tactic

/-! Breadth-first search over lists of neighbours. The nodes found stand in the order in which they
are queued, so the nodes of the queue are the last of them. -/
namespace GStore.Lib
open List

variable {α : Type} [DecidableEq α]

def unseen (seen : List α) : List α → List α
  | [] => []
  | n :: ns => if n ∈ seen then unseen seen ns else n :: unseen (seen ++ [n]) ns

/-- `none` is a search that has not ended. -/
def traverse (next : α → List α) : Nat → List α → List α → Option (List α)
  | 0, _, _ => none
  | _ + 1, [], seen => some seen
  | turns + 1, curr :: queue, seen =>
    traverse next turns (queue ++ unseen seen (next curr)) (seen ++ unseen seen (next curr))

theorem mem_unseen {seen ns : List α} {b : α} : b ∈ unseen seen ns ↔ b ∈ ns ∧ b ∉ seen := by
  induction ns generalizing seen with
  | nil => simp [unseen]
  | cons n ns ih =>
    unfold unseen
    split_ifs with known
    · rw [ih, mem_cons]
      constructor
      · exact fun found => ⟨.inr found.1, found.2⟩
      · rintro ⟨rfl | later, new⟩
        · exact absurd known new
        · exact ⟨later, new⟩
    · rw [mem_cons, ih, mem_cons, mem_append, mem_singleton]
      by_cases same : b = n
      · simp [same, known]
      · simp [same]

theorem unseen_nodup (seen ns : List α) : (unseen seen ns).Nodup := by
  induction ns generalizing seen with
  | nil => exact nodup_nil
  | cons n ns ih =>
    unfold unseen
    split
    · exact ih seen
    · refine nodup_cons.mpr ⟨fun again => ?_, ih _⟩
      exact (mem_unseen.mp again).2 (by simp)

theorem traverse_mono {next : α → List α} {turns more : Nat} {queue seen found : List α}
    (ended : traverse next turns queue seen = some found) (le : turns ≤ more) :
    traverse next more queue seen = some found := by
  induction turns generalizing more queue seen with
  | zero => simp [traverse] at ended
  | succ turns ih =>
    obtain ⟨more, rfl⟩ : ∃ k, more = k + 1 := ⟨more - 1, by omega⟩
    cases queue with
    | nil => exact ended
    | cons curr queue =>
      rw [traverse] at ended ⊢
      exact ih ended (by omega)

section Frontier

variable {next : α → List α} {start : α} {done queue : List α}

structure Frontier (next : α → List α) (start : α) (done queue : List α) : Prop where
  nodup : (done ++ queue).Nodup
  first : start ∈ done ++ queue
  closed : ∀ a ∈ done, ∀ b ∈ next a, b ∈ done ++ queue
  reached : ∀ b ∈ done ++ queue, Relation.ReflTransGen (fun a b => b ∈ next a) start b

omit [DecidableEq α] in
theorem Frontier.init : Frontier next start [] [start] where
  nodup := nodup_singleton start
  first := mem_singleton_self start
  closed := by simp
  reached := by
    intro b found
    rw [nil_append, mem_singleton] at found
    rw [found]

theorem Frontier.step {curr : α} (frontier : Frontier next start done (curr :: queue)) :
    Frontier next start (done ++ [curr]) (queue ++ unseen (done ++ curr :: queue) (next curr)) := by
  have split : ∀ l, (done ++ [curr]) ++ (queue ++ l) = (done ++ curr :: queue) ++ l := by simp
  constructor
  · rw [split]
    refine nodup_append.mpr ⟨frontier.nodup, unseen_nodup _ _, ?_⟩
    rintro a old b new rfl
    exact (mem_unseen.mp new).2 old
  · rw [split]
    exact mem_append_left _ frontier.first
  · intro a left b edge
    rw [split, mem_append, mem_unseen]
    rcases mem_append.mp left with before | now
    · exact .inl (frontier.closed a before b edge)
    · rw [mem_singleton.mp now] at edge
      by_cases known : b ∈ done ++ curr :: queue
      · exact .inl known
      · exact .inr ⟨edge, known⟩
  · intro b found
    rw [split, mem_append] at found
    rcases found with old | new
    · exact frontier.reached b old
    · exact (frontier.reached curr (by simp)).tail (mem_unseen.mp new).1

omit [DecidableEq α] in
theorem Frontier.complete (frontier : Frontier next start done []) {b : α} :
    b ∈ done ↔ Relation.ReflTransGen (fun a b => b ∈ next a) start b := by
  constructor
  · intro found
    exact frontier.reached b (mem_append_left [] found)
  · intro path
    induction path with
    | refl => simpa using frontier.first
    | tail _ edge ih => simpa using frontier.closed _ ih _ edge

variable {U : Finset α} (inside : ∀ b, Relation.ReflTransGen (fun a b => b ∈ next a) start b →
      b ∈ U)
include inside

theorem Frontier.length_le (frontier : Frontier next start done queue) :
    done.length + queue.length ≤ U.card := by
  rw [← length_append, ← toFinset_card_of_nodup frontier.nodup]
  refine Finset.card_le_card fun b found => ?_
  exact inside b (frontier.reached b (mem_toFinset.mp found))

theorem Frontier.traverse_spec
    {turns : Nat} (frontier : Frontier next start done queue)
    (enough : U.card < turns + done.length) :
    ∃ found, traverse next turns queue (done ++ queue) = some found ∧ found.Nodup ∧
      ∀ b, b ∈ found ↔ Relation.ReflTransGen (fun a b => b ∈ next a) start b := by
  induction turns generalizing done queue with
  | zero =>
    have below := frontier.length_le inside
    omega
  | succ turns ih =>
    cases queue with
    | nil =>
      exact ⟨done ++ [], rfl, frontier.nodup, fun b => by rw [append_nil]; exact frontier.complete⟩
    | cons curr queue =>
      obtain ⟨found, ends, spec⟩ :=
        ih frontier.step (by rw [length_append, length_singleton]; omega)
      refine ⟨found, ?_, spec⟩
      rw [traverse, ← ends]
      simp

end Frontier

theorem traverse_ends {next : α → List α} {start : α} {U : Finset α} (first : start ∈ U)
    (inside : ∀ a ∈ U, ∀ b ∈ next a, b ∈ U) :
    ∃ found, (∀ turns, U.card < turns → traverse next turns [start] [start] = some found) ∧
    found.Nodup ∧
      ∀ b, b ∈ found ↔ Relation.ReflTransGen (fun a b => b ∈ next a) start b := by
  have within : ∀ b, Relation.ReflTransGen (fun a b => b ∈ next a) start b → b ∈ U := by
    intro b path
    induction path with
    | refl => exact first
    | tail _ edge ih => exact inside _ ih _ edge
  obtain ⟨found, ended, spec⟩ := Frontier.init.traverse_spec within (Nat.lt_succ_self U.card)
  exact ⟨found, fun turns enough => traverse_mono ended enough, spec⟩

end GStore.Lib
