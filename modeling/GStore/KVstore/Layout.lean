import GStore.Lib.Search
import GStore.Lib.Groups
import Mathlib.Data.List.GetD

/-! The packed `unsigned` lists of `subID2values` and `objID2values`: counters, then one
(predicate, offset) pair per predicate, then the sublists back to back. `pack` writes a
list of groups in that layout; the remaining facts say what an index read finds in it. -/
namespace GStore
open Lib List

def literalFirstID : Nat := 2 * 1000 * 1000 * 1000

/-- `INVALID`, also the value of `INVALID_ENTITY_LITERAL_ID` and, as an unsigned, of
`INVALID_PREDICATE_ID`. -/
def invalidID : Nat := 2 ^ 32 - 1

def isEntityEle (id : Nat) : Bool := decide (id < literalFirstID)
def isLiteralEle (id : Nat) : Bool := decide (literalFirstID ≤ id)

def word (l : List Nat) (i : Nat) : Nat := l.getD i 0

theorem word_left {a b : List Nat} {i : Nat} (inside : i < a.length) :
    word (a ++ b) i = word a i := by
  unfold word
  rw [getD_append _ _ _ _ inside]

theorem word_right (a b : List Nat) (i : Nat) : word (a ++ b) (a.length + i) = word b i := by
  unfold word
  rw [getD_append_right _ _ _ _ (by omega)]
  simp

@[simp] theorem word_cons_zero (a : Nat) (l : List Nat) : word (a :: l) 0 = a := rfl
@[simp] theorem word_cons_succ (a : Nat) (l : List Nat) (i : Nat) :
  word (a :: l) (i + 1) = word l i := rfl

theorem map_word_segment (before segment after : List Nat) :
    (List.range' before.length segment.length).map (word (before ++ segment ++ after)) =
    segment := by
  apply ext_getElem
  · simp
  · intro i _ inside
    simp only [getElem_map, getElem_range', Nat.one_mul, append_assoc, word_right]
    rw [word_left inside, word, getD_eq_getElem _ _ inside]

theorem copy_inserting (before left right : List Nat) (x : Nat) :
    (List.range' before.length (left ++ right).length).flatMap
    (fun j => if j = before.length + left.length
          then [x, word (before ++ (left ++ right)) j] else [word (before ++ (left ++ right)) j]) ++
      (if before.length + (left ++ right).length = before.length + left.length then [x] else []) =
    left ++ x :: right := by
  have first := map_word_segment before left right
  have second := map_word_segment (before ++ left) right []
  have split : List.range' before.length (left ++ right).length =
      List.range' before.length left.length ++ List.range'
      (before ++ left).length right.length := by
    rw [length_append, length_append, range'_append_1]
  have copies : (List.range' before.length left.length).flatMap
      (fun j => if j = before.length + left.length
        then [x, word (before ++ (left ++ right)) j] else [word (before ++ (left ++ right)) j]) =
            left := by
    conv => rhs; rw [← first]
    rw [← flatMap_singleton' (List.map _ _), flatMap_map]
    apply flatMap_congr
    intro j hj
    have bound := mem_range'_1.mp hj
    rw [if_neg (by omega), append_assoc]
  rw [split, flatMap_append, copies, append_assoc]
  congr 1
  cases right with
  | nil => simp
  | cons y ys =>
    have rest : (List.range' (before.length + left.length + 1) ys.length).flatMap
        (fun j => if j = before.length + left.length
          then [x, word (before ++ (left ++ y :: ys)) j] else
            [word (before ++ (left ++ y :: ys)) j]) =
        (List.range' (before.length + left.length + 1) ys.length).map
          (word (before ++ (left ++ y :: ys))) := by
      rw [← flatMap_singleton' (List.map _ _), flatMap_map]
      apply flatMap_congr
      intro j hj
      have bound := mem_range'_1.mp hj
      rw [if_neg (by omega)]
    simp only [length_append, length_cons, range'_succ, map_cons, append_nil,
      append_assoc, List.cons.injEq] at second
    simp only [length_append, length_cons, range'_succ, flatMap_cons, if_true,
      rest, second.1, second.2]
    rw [if_neg (by omega)]
    simp

theorem copy_skipping (before left right : List Nat) (y : Nat) :
    (List.range' before.length (left ++ y :: right).length).flatMap
        (fun j => if j = before.length + left.length then []
          else [word (before ++ (left ++ y :: right)) j]) = left ++ right := by
  have first := map_word_segment before left (y :: right)
  have second := map_word_segment (before ++ (left ++ [y])) right []
  have split : List.range' before.length (left ++ y :: right).length =
      List.range' before.length left.length ++ (before.length + left.length) ::
        List.range' (before.length + left.length + 1) right.length := by
    rw [length_append, length_cons, ← range'_append_1, range'_succ]
  have keep : ∀ (start n : Nat),
    (∀ j, start ≤ j → j < start + n → j ≠ before.length + left.length) →
      (List.range' start n).flatMap (fun j => if j = before.length + left.length then []
        else [word (before ++ (left ++ y :: right)) j]) =
      (List.range' start n).map (word (before ++ (left ++ y :: right))) := by
    intro start n away
    rw [← flatMap_singleton' (List.map _ _), flatMap_map]
    apply flatMap_congr
    intro j hj
    have bound := mem_range'_1.mp hj
    rw [if_neg (away j bound.1 bound.2)]
  rw [split, flatMap_append, flatMap_cons, if_pos rfl, keep _ _ (by omega),
    keep _ _ (by omega), nil_append]
  simp only [append_assoc] at first
  simp only [length_append, length_singleton, append_nil, append_assoc,
    singleton_append, ← Nat.add_assoc] at second
  rw [first, second]

inductive Side where
  | sub
  | obj
  deriving DecidableEq, Repr

def Side.base : Side → Nat
  | .sub => 3
  | .obj => 2

/-- Subject lists count the entities among their objects in `_tmp[2]`; object lists have no such
word. -/
def Side.entityWord : Side → Nat → List Nat
  | .sub, n => [n]
  | .obj, _ => []

def header (start : Nat) : List (Nat × List Nat) → List Nat
  | [] => []
  | (p, xs) :: gs => p :: start :: header (start + xs.length) gs

def body (gs : List (Nat × List Nat)) : List Nat := gs.flatMap Prod.snd

@[simp] theorem body_nil : body [] = [] := rfl
@[simp] theorem body_cons (g : Nat × List Nat) (gs : List (Nat × List Nat)) :
  body (g :: gs) = g.2 ++ body gs := rfl
@[simp] theorem body_append (gs hs : List (Nat × List Nat)) :
    body (gs ++ hs) = body gs ++ body hs := by
  simp [body, flatMap_append]

theorem header_append (start : Nat) (gs hs : List (Nat × List Nat)) :
    header start (gs ++ hs) = header start gs ++ header (start + (body gs).length) hs := by
  induction gs generalizing start with
  | nil => rfl
  | cons g gs ih => simp [header, ih, Nat.add_assoc]

@[simp] theorem header_length (start : Nat) (gs : List (Nat × List Nat)) :
    (header start gs).length = 2 * gs.length := by
  induction gs generalizing start with
  | nil => rfl
  | cons g gs ih => simp [header, ih]; omega

variable (k : Side)

def pack (gs : List (Nat × List Nat)) : List Nat :=
  (body gs).length :: gs.length :: k.entityWord ((body gs).countP isEntityEle) ++
    header (k.base + 2 * gs.length) gs ++ body gs

def preAt (l : List Nat) (i : Nat) : Nat := word l (k.base + 2 * i)
def offAt (l : List Nat) (i : Nat) : Nat := word l (k.base + 1 + 2 * i)

def endOf (l : List Nat) : Nat := k.base + 2 * word l 1 + word l 0

def nextOff (l : List Nat) (i : Nat) : Nat :=
  if i + 1 = word l 1 then endOf k l else offAt k l (i + 1)

def Side.front (gs : List (Nat × List Nat)) : List Nat :=
  (body gs).length :: gs.length :: k.entityWord ((body gs).countP isEntityEle)

section

variable (gs : List (Nat × List Nat))
include gs

@[simp] theorem front_length : (k.front gs).length = k.base := by
  cases k <;> rfl

theorem pack_eq : pack k gs = k.front gs ++ (header (k.base + 2 * gs.length) gs ++ body gs) := by
  simp [pack, Side.front]

@[simp] theorem word_pack_zero : word (pack k gs) 0 = (body gs).length := rfl
@[simp] theorem word_pack_one : word (pack k gs) 1 = gs.length := rfl
@[simp] theorem word_pack_two : word (pack .sub gs) 2 = (body gs).countP isEntityEle := rfl

theorem length_pack : (pack k gs).length = k.base + 2 * gs.length + (body gs).length := by
  rw [pack_eq]
  simp only [length_append, front_length, header_length]
  omega

theorem endOf_pack : endOf k (pack k gs) = k.base + 2 * gs.length + (body gs).length := rfl

end

variable (lo hi : List (Nat × List Nat))

theorem preAt_pack (p : Nat) (xs : List Nat) :
    preAt k (pack k (lo ++ (p, xs) :: hi)) lo.length = p := by
  rw [preAt, pack_eq]
  conv => lhs; arg 2; rw [← front_length k (lo ++ (p, xs) :: hi)]
  rw [word_right, header_append]
  simp only [append_assoc]
  conv => lhs; arg 2; rw [← header_length (k.base + 2 * (lo ++ (p, xs) :: hi).length) lo,
      ← Nat.add_zero (header _ lo).length]
  rw [word_right]
  rfl

theorem offAt_pack (p : Nat) (xs : List Nat) : offAt k (pack k (lo ++ (p, xs) :: hi)) lo.length =
      k.base + 2 * (lo ++ (p, xs) :: hi).length + (body lo).length := by
  have place : k.base + 1 + 2 * lo.length =
      (k.front (lo ++ (p, xs) :: hi)).length +
        ((header (k.base + 2 * (lo ++ (p, xs) :: hi).length) lo).length + 1) := by
    rw [front_length, header_length]
    omega
  rw [offAt, pack_eq, place, word_right, header_append]
  simp only [append_assoc]
  rw [word_right]
  rfl

theorem nextOff_pack (p : Nat) (xs : List Nat) :
    nextOff k (pack k (lo ++ (p, xs) :: hi)) lo.length =
      k.base + 2 * (lo ++ (p, xs) :: hi).length + (body lo).length + xs.length := by
  unfold nextOff
  cases hi with
  | nil =>
    rw [if_pos (by simp), endOf_pack]
    simp [Nat.add_assoc]
  | cons g hi =>
    rw [if_neg (by simp)]
    have shifted := offAt_pack k (lo ++ [(p, xs)]) hi g.1 g.2
    simp only [append_assoc, singleton_append, length_append, length_singleton,
      body_append, body_cons, body_nil, append_nil] at shifted
    rw [shifted]
    simp only [length_append, length_cons]
    omega

theorem header_rewrite (lo mid hi : List (Nat × List Nat)) (f : Nat → Nat → Nat) (start : Nat)
    (moved : ∀ j t, lo.length ≤ j → j < lo.length + mid.length →
      f j (k.base + 2 * (lo ++ mid ++ hi).length + (body lo).length + t) = start + t) :
    (List.range' lo.length mid.length).flatMap
        (fun j => [preAt k (pack k (lo ++ mid ++ hi)) j,
          f j (offAt k (pack k (lo ++ mid ++ hi)) j)]) =
      header start mid := by
  induction mid generalizing lo start with
  | nil => rfl
  | cons g mid ih =>
    have whole : lo ++ g :: mid ++ hi = (lo ++ [g]) ++ mid ++ hi := by simp
    have here : lo ++ g :: mid ++ hi = lo ++ (g.1, g.2) :: (mid ++ hi) := by simp
    have rest := ih (lo ++ [g]) (start + g.2.length) (by
      intro j t low high
      have h := moved j (g.2.length + t) (by simp at low; omega) (by simp at high ⊢; omega)
      rw [whole] at h
      simp only [body_append, body_cons, body_nil, append_nil, length_append] at h ⊢
      rw [← Nat.add_assoc, ← Nat.add_assoc] at h
      rw [← Nat.add_assoc, h, Nat.add_assoc])
    have first := moved lo.length 0 (Nat.le_refl _) (by simp)
    rw [here] at first
    rw [length_cons, range'_succ, flatMap_cons, header]
    rw [show lo.length + 1 = (lo ++ [g]).length by simp, whole, rest, ← whole, here, preAt_pack,
      offAt_pack, show k.base + 2 * (lo ++ (g.1, g.2) :: (mid ++ hi)).length + (body lo).length =
        k.base + 2 * (lo ++ (g.1, g.2) :: (mid ++ hi)).length + (body lo).length + 0 from rfl,
        first]
    rfl

def Side.head (gs : List (Nat × List Nat)) : List Nat :=
  k.front gs ++ header (k.base + 2 * gs.length) gs

theorem head_length (gs : List (Nat × List Nat)) : (k.head gs).length = k.base + 2 * gs.length := by
  simp [Side.head]

theorem pack_head (gs : List (Nat × List Nat)) : pack k gs = k.head gs ++ body gs := by
  simp [pack_eq, Side.head]

end GStore
