import Mathlib.Data.List.Induction
import Mathlib.Tactic

/-! A counter with the three values minus one, zero and one, moved by a word of increments (`true`)
and decrements (`false`) and stopped at both ends. Its value after a word is decided by the longest
suffix of the word in which the letters alternate. -/
namespace GStore.Lib

/-- `none` is zero; a move against the sign cancels it, a move with the sign changes nothing. -/
def toggle (state : Option Bool) (b : Bool) : Option Bool :=
  match state with
  | none => some b
  | some c => if c = b then some b else none

variable (word : List Bool)

def toggles : Option Bool := word.foldl toggle none

def alternatingPrefix : List Bool → Nat
  | [] => 0
  | [_] => 1
  | a :: b :: rest => if a = b then 1 else alternatingPrefix (b :: rest) + 1

def alternatingSuffix : Nat := alternatingPrefix word.reverse

theorem alternatingSuffix_concat (b : Bool) :
    alternatingSuffix (word ++ [b]) = if word.getLast? = some
    (!b) then alternatingSuffix word + 1 else 1 := by
  unfold alternatingSuffix
  rw [List.reverse_append, List.reverse_singleton, List.singleton_append]
  rcases flipped : word.reverse with _ | ⟨a, rest⟩
  · have empty : word = [] := by simpa using flipped
    simp [empty, alternatingPrefix]
  · have last : word.getLast? =
      some a := by rw [List.getLast?_eq_head?_reverse, flipped, List.head?_cons]
    rw [last, alternatingPrefix]
    cases a <;> cases b <;> simp

theorem toggles_eq : toggles word = if Odd
    (alternatingSuffix word) then word.getLast? else none := by
  induction word using List.reverseRecOn with
  | nil => rfl
  | append_singleton word b ih =>
    have next : toggles (word ++ [b]) = toggle (toggles word) b := by
      simp [toggles, List.foldl_append]
    rw [next, ih, alternatingSuffix_concat, List.getLast?_concat]
    rcases last : word.getLast? with _ | c
    · simp [toggle]
    · by_cases parity : Odd (alternatingSuffix word)
      · have even := parity.add_one
        cases b <;> cases c <;> simp [toggle, parity, Nat.not_odd_iff_even.mpr even]
      · have odd := (Nat.not_odd_iff_even.mp parity).add_one
        cases b <;> cases c <;> simp [toggle, parity, odd]

end GStore.Lib
