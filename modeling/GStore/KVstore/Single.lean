import GStore.KVstore.Layout
import Mathlib.Data.Nat.Basic

/-! The splice routines of the single-triple updates: `updateInsert_s2values`,
`updateInsert_o2values`, `updateRemove_s2values`, `updateRemove_o2values` on one packed list. -/
namespace GStore
open Lib List

/-- `KVstore::binarySearch`; `none` is `INVALID`. The bound `_list_len - 1` is unsigned, so the
model is the code for a positive length, which every stored list has. -/
def binarySearch (key : Nat) (list : Nat → Nat) (len : Nat) : Option Nat :=
  bisect key list len 0 len

def copyWords (tmp : List Nat) (first last : Nat) : List Nat :=
  (List.range' first (last - first)).map (word tmp)

variable (k : Side)

/-- The (predicate, value) pairs in list order: the loops of `getpreIDobjIDlistBysubID` and
`getpreIDsubIDlistByobjID`, whose running position is carried over from one predicate to the next.
-/
def listPairs (tmp : List Nat) : List (Nat × Nat) :=
  ((List.range' 0 (word tmp 1)).foldl
    (fun (state : Nat × List (Nat × Nat)) i =>
      (max state.1 (nextOff k tmp i),
        state.2 ++ (copyWords tmp state.1 (nextOff k tmp i)).map (Prod.mk (preAt k tmp i))))
    (k.base + 2 * word tmp 1, [])).2

def insertPredicate (tmp : List Nat) (pre x : Nat) : List Nat :=
  let n := word tmp 1
  let i := ((List.range' 0 n).takeWhile (fun j => decide (preAt k tmp j < pre))).length
  let offsetOld := if i = n then endOf k tmp else offAt k tmp i
  (word tmp 0 + 1) :: (n + 1) :: k.entityWord (word tmp 2 + if isEntityEle x then 1 else 0) ++
    (List.range' 0 i).flatMap (fun j => [preAt k tmp j, offAt k tmp j + 2]) ++
    [pre, offsetOld + 2] ++
    (List.range' i (n - i)).flatMap (fun j => [preAt k tmp j, offAt k tmp j + 3]) ++
    ((List.range' (k.base + 2 * n) (word tmp 0)).flatMap
        (fun j => if j = offsetOld then [x, word tmp j] else [word tmp j]) ++
      if endOf k tmp = offsetOld then [x] else [])

/-- The branch "preID exists" of an insertion: the header is copied and the later offsets are
incremented, then the value goes in front of the first larger one of its sublist. -/
def insertIntoSublist (tmp : List Nat) (position x : Nat) : List Nat :=
  let n := word tmp 1
  let offset := offAt k tmp position
  let right := nextOff k tmp position
  let i := offset +
    ((List.range' offset (right - offset)).takeWhile (fun j => decide (word tmp j < x))).length
  (word tmp 0 + 1) :: n :: k.entityWord (word tmp 2 + if isEntityEle x then 1 else 0) ++
    (List.range' 0 n).flatMap
      (fun j => [preAt k tmp j, if position < j then offAt k tmp j + 1 else offAt k tmp j]) ++
    copyWords tmp (k.base + 2 * n) offset ++
    (copyWords tmp offset i ++ x :: copyWords tmp i (endOf k tmp))

/-- The list that an insertion stores for its key; `none` is a key without a list. -/
def updateInsertValues (value : Option (List Nat)) (pre x : Nat) : List Nat :=
  match value with
  | none => 1 :: 1 :: k.entityWord (if isEntityEle x then 1 else 0) ++ [pre, k.base + 2, x]
  | some tmp =>
    match binarySearch pre (preAt k tmp) (word tmp 1) with
    | none => insertPredicate k tmp pre x
    | some position => insertIntoSublist k tmp position x

def removePredicate (tmp : List Nat) (position x : Nat) : List Nat :=
  let n := word tmp 1
  (word tmp 0 - 1) :: (n - 1) :: k.entityWord (word tmp 2 - if isEntityEle x then 1 else 0) ++
    (List.range' 0 position).flatMap (fun j => [preAt k tmp j, offAt k tmp j - 2]) ++
    (List.range' (position + 1) (n - (position + 1))).flatMap
      (fun j => [preAt k tmp j, offAt k tmp j - 3]) ++
    (List.range' (k.base + 2 * n) (word tmp 0)).flatMap
      (fun j => if j = offAt k tmp position then [] else [word tmp j])

/-- The branch "preID still exists after removal"; the scan is bounded by the end of the list,
not by the end of the sublist. A scan that reaches the end leaves nothing out and overruns the
shorter buffer (`none`). -/
def removeFromSublist (tmp : List Nat) (position x : Nat) : Option (List Nat) :=
  let n := word tmp 1
  let offset := offAt k tmp position
  let i := offset + ((List.range' offset (endOf k tmp - offset)).takeWhile
    (fun j => decide (word tmp j < x))).length
  if i = endOf k tmp then none
  else
    some ((word tmp 0 - 1) :: n :: k.entityWord (word tmp 2 - if isEntityEle x then 1 else 0) ++
      (List.range' 0 n).flatMap
        (fun j => [preAt k tmp j, if position < j then offAt k tmp j - 1 else offAt k tmp j]) ++
      copyWords tmp (k.base + 2 * n) offset ++
      (copyWords tmp offset i ++ copyWords tmp (i + 1) (endOf k tmp)))

/-- The value of the key after a removal: `some none` removes the key. `none` is a predicate that
the list does not have: the code goes on with position `INVALID`, whose index wraps around to the
counter words, and stores a buffer it has not filled. -/
def updateRemoveValues (tmp : List Nat) (pre x : Nat) : Option (Option (List Nat)) :=
  if word tmp 0 = 1 then some none
  else
    match binarySearch pre (preAt k tmp) (word tmp 1) with
    | none => none
    | some position =>
      if nextOff k tmp position - offAt k tmp position = 1 then some
        (some (removePredicate k tmp position x))
      else (removeFromSublist k tmp position x).map some

theorem copyWords_segment (before segment after : List Nat) {first last : Nat}
    (start : first = before.length) (stop : last = first + segment.length) :
    copyWords (before ++ segment ++ after) first last = segment := by
  subst stop
  rw [copyWords, Nat.add_sub_cancel_left, start]
  exact map_word_segment before segment after

variable {gs : List (Nat × List Nat)} {k : Side}

theorem copyWords_pack (before segment after : List Nat)
    {first last : Nat} (split : body gs = before ++ (segment ++ after))
    (start : first = k.base + 2 * gs.length + before.length)
    (stop : last = first + segment.length) :
    copyWords (pack k gs) first last = segment := by
  rw [pack_head, split, ← append_assoc, ← append_assoc]
  apply copyWords_segment (k.head gs ++ before) segment after _ stop
  rw [start, length_append, head_length]

theorem take_get_drop {i : Nat} (inside : i < gs.length) :
    gs = gs.take i ++ (gs[i].1, gs[i].2) :: gs.drop (i + 1) := by
  rw [Prod.eta, ← drop_eq_getElem_cons inside, take_append_drop]

theorem preAt_pack_get (k : Side) {i : Nat} (inside : i < gs.length) :
    preAt k (pack k gs) i = gs[i].1 := by
  have read := preAt_pack k (gs.take i) (gs.drop (i + 1)) gs[i].1 gs[i].2
  rw [← take_get_drop inside, length_take_of_le (by omega)] at read
  exact read

theorem increasing_preAt {k : Side} {gs : List (Nat × List Nat)} (whole : Grouped gs) :
    ∀ i j, i < j → j < gs.length → preAt k (pack k gs) i < preAt k (pack k gs) j := by
  intro i j less bound
  rw [preAt_pack_get k (by omega), preAt_pack_get k bound]
  have ordered := pairwise_iff_getElem.mp whole.keys i j (by simp; omega) (by simpa) less
  simpa using ordered

theorem binarySearch_found {k : Side} {lo hi : List (Nat × List Nat)} {p : Nat} {xs : List Nat}
    (whole : Grouped (lo ++ (p, xs) :: hi)) :
    binarySearch p (preAt k (pack k (lo ++ (p, xs) :: hi))) (lo ++ (p, xs) :: hi).length =
    some lo.length := by
  apply (bisect_eq_some_iff (increasing_preAt whole) lo.length).mpr
  exact ⟨by simp, preAt_pack k lo hi p xs⟩

variable {lo hi : List (Nat × List Nat)}

theorem binarySearch_missed {p : Nat}
    (whole : Grouped (lo ++ hi)) (before : ∀ g ∈ lo, g.1 < p) (after : ∀ g ∈ hi, p < g.1) :
    binarySearch p (preAt k (pack k (lo ++ hi))) (lo ++ hi).length = none := by
  apply (bisect_eq_none_iff (increasing_preAt whole)).mpr
  intro i bound hit
  rw [preAt_pack_get k bound] at hit
  rcases mem_append.mp (getElem_mem bound) with h | h
  · exact absurd hit (before _ h).ne
  · exact absurd hit (after _ h).ne'

theorem entityWord_pack (k : Side) (gs hs : List (Nat × List Nat)) (n : Nat → Nat)
    (count : (body hs).countP isEntityEle = n ((body gs).countP isEntityEle)) :
    k.entityWord (n (word (pack k gs) 2)) = k.entityWord ((body hs).countP isEntityEle) := by
  rw [count]
  cases k <;> rfl

theorem scan_predicates {p : Nat} (before : ∀ g ∈ lo, g.1 < p) (after : ∀ g ∈ hi, p < g.1) :
    ((List.range' 0 (lo ++ hi).length).takeWhile
      (fun j => decide (preAt k (pack k (lo ++ hi)) j < p))).length = lo.length := by
  apply length_takeWhile_range' (by simp)
  · intro i less
    rw [Nat.zero_add, preAt_pack_get k (by simp; omega), getElem_append_left less]
    exact decide_eq_true (before _ (getElem_mem less))
  · intro more
    rw [Nat.zero_add, preAt_pack_get k more, getElem_append_right (Nat.le_refl _)]
    exact decide_eq_false (not_lt_of_gt (after _ (getElem_mem _)))

theorem offset_between (k : Side) (lo hi : List (Nat × List Nat)) :
    (if lo.length = (lo ++ hi).length then endOf k (pack k (lo ++ hi)) else offAt k
      (pack k (lo ++ hi)) lo.length) =
      k.base + 2 * (lo ++ hi).length + (body lo).length := by
  cases hi with
  | nil => rw [if_pos (by simp), endOf_pack, append_nil]
  | cons g hi =>
    rw [if_neg (by simp)]
    exact offAt_pack k lo hi g.1 g.2

theorem insertPredicate_pack {p : Nat} (x : Nat) (before : ∀ g ∈ lo, g.1 < p)
    (after : ∀ g ∈ hi, p < g.1) :
    insertPredicate k (pack k (lo ++ hi)) p x = pack k (lo ++ (p, [x]) :: hi) := by
  have low := header_rewrite k [] lo hi (fun _ t => t + 2) (k.base + 2 * (lo ++ hi).length + 2)
    (by intro j t _ _; simp; omega)
  have high := header_rewrite k lo hi [] (fun _ t => t + 3)
    (k.base + 2 * (lo ++ hi).length + (body lo).length + 3) (by intro j t _ _; simp; omega)
  have copied := copy_inserting (k.head (lo ++ hi)) (body lo) (body hi) x
  simp only [nil_append, append_nil, length_nil] at low high
  rw [← body_append, ← pack_head, head_length] at copied
  have entities := entityWord_pack k (lo ++ hi) (lo ++ (p, [x]) :: hi)
    (· + if isEntityEle x then 1 else 0) (by simp [countP_cons]; omega)
  simp only [insertPredicate, word_pack_one, word_pack_zero, scan_predicates before after,
      offset_between]
  rw [endOf_pack, copied, low, show (lo ++ hi).length - lo.length = hi.length by simp, high]
  rw [entities]
  simp only [pack, header_append, header, append_assoc, cons_append, nil_append]
  have total : (body (lo ++ (p, [x]) :: hi)).length = (body (lo ++ hi)).length + 1 := by simp; omega
  have size : (lo ++ (p, [x]) :: hi).length = (lo ++ hi).length + 1 := by simp; omega
  rw [total, size, body_append lo ((p, [x]) :: hi), body_cons]
  simp only [cons_append, nil_append, length_singleton]
  rw [show k.base + 2 * ((lo ++ hi).length + 1) = k.base + 2 * (lo ++ hi).length + 2 by omega,
    show k.base + 2 * (lo ++ hi).length + (body lo).length + 2 =
      k.base + 2 * (lo ++ hi).length + 2 + (body lo).length by omega,
    show k.base + 2 * (lo ++ hi).length + (body lo).length + 3 =
      k.base + 2 * (lo ++ hi).length + 2 + (body lo).length + 1 by omega]

theorem header_shift (k : Side) (lo hi : List (Nat × List Nat)) (g : Nat × List Nat) (f : Nat → Nat)
    (start : Nat) (moved : ∀ t,
      f (k.base + 2 * (lo ++ g :: hi).length + (body lo).length + g.2.length + t) = start + t) :
    (List.range' 0 (lo ++ g :: hi).length).flatMap (fun j => [preAt k (pack k (lo ++ g :: hi)) j,
          if lo.length < j then f (offAt k (pack k (lo ++ g :: hi)) j) else offAt k
            (pack k (lo ++ g :: hi)) j]) =
      header (k.base + 2 * (lo ++ g :: hi).length) lo ++
        g.1 :: (k.base + 2 * (lo ++ g :: hi).length + (body lo).length) :: header start hi := by
  have whole : lo ++ g :: hi = (lo ++ [g]) ++ hi := by simp
  have low := header_rewrite k [] (lo ++ [g]) hi (fun j t => if lo.length < j then f t else t)
    (k.base + 2 * (lo ++ g :: hi).length) (by
      intro j t _ high
      simp only [length_nil, length_append, length_singleton] at high
      rw [if_neg (by omega), nil_append, ← whole, body_nil, length_nil, Nat.add_zero])
  have high := header_rewrite k (lo ++ [g]) hi []
    (fun j t => if lo.length < j then f t else t) start (by
      intro j t less _
      simp only [length_append, length_singleton] at less
      rw [if_pos (by omega), append_nil, ← whole, ← moved t]
      simp [body_append, body_cons, body_nil, append_nil, length_append, Nat.add_assoc])
  rw [nil_append, length_nil, ← whole] at low
  rw [append_nil, ← whole] at high
  have size : List.range' 0 (lo ++ g :: hi).length =
      List.range' 0 (lo ++ [g]).length ++ List.range' (lo ++ [g]).length hi.length := by
    rw [whole, length_append, ← range'_append_1, Nat.zero_add]
  rw [size, flatMap_append, low, high, header_append]
  simp [header]

theorem scan_sublist {before ys rest : List Nat} {start n x : Nat}
    (split : body gs = before ++ (ys ++ rest))
    (place : start = k.base + 2 * gs.length + before.length)
    (bound : ys.length ≤ n) (below : ∀ y ∈ ys, y < x) (stop : ys.length < n → x ≤ word rest 0) :
    ((List.range' start n).takeWhile (fun j => decide (word (pack k gs) j < x))).length =
    ys.length := by
  have cut : pack k gs = (k.head gs ++ before) ++ (ys ++ rest) := by
    rw [pack_head, split, append_assoc]
  have size : start = (k.head gs ++ before).length := by rw [place, length_append, head_length]
  rw [cut, size]
  apply length_takeWhile_range' bound
  · intro i less
    rw [word_right, word_left less, word, getD_eq_getElem _ _ less]
    exact decide_eq_true (below _ (getElem_mem less))
  · intro more
    rw [word_right, show ys.length = ys.length + 0 from rfl, word_right]
    exact decide_eq_false (not_lt_of_ge (stop more))

theorem body_middle (lo hi : List (Nat × List Nat)) (p : Nat) (xs : List Nat) :
    body (lo ++ (p, xs) :: hi) = body lo ++ (xs ++ body hi) := by
  rw [body_append, body_cons]

variable {p x : Nat}

theorem insertIntoSublist_pack {ys zs : List Nat} (below : ∀ y ∈ ys, y < x)
    (above : ∀ z ∈ zs, x < z) :
    insertIntoSublist k (pack k (lo ++ (p, ys ++ zs) :: hi)) lo.length x =
      pack k (lo ++ (p, ys ++ x :: zs) :: hi) := by
  have content : body (lo ++ (p, ys ++ zs) :: hi) = body lo ++ (ys ++ (zs ++ body hi)) := by
    rw [body_middle, append_assoc]
  have scan := scan_sublist (k := k) (n := (ys ++ zs).length) content rfl (by simp) below (by
    intro more
    cases zs with
    | nil => simp at more
    | cons z zs => exact (above z (by simp)).le)
  have earlier : copyWords (pack k (lo ++ (p, ys ++ zs) :: hi)) _ _ = body lo :=
    copyWords_pack [] (body lo) _ content rfl rfl
  have smaller : copyWords (pack k (lo ++ (p, ys ++ zs) :: hi)) _ _ = ys :=
    copyWords_pack (body lo) ys _ content rfl rfl
  have larger : copyWords (pack k (lo ++ (p, ys ++ zs) :: hi))
      (k.base + 2 * (lo ++ (p, ys ++ zs) :: hi).length + (body lo).length + ys.length)
      (endOf k (pack k (lo ++ (p, ys ++ zs) :: hi))) = zs ++ body hi := by
    apply copyWords_pack (body lo ++ ys) (zs ++ body hi) []
    · rw [content]; simp
    · simp only [length_append]; omega
    · rw [endOf_pack, content]; simp only [length_append]; omega
  have entities := entityWord_pack k (lo ++ (p, ys ++ zs) :: hi) (lo ++ (p, ys ++ x :: zs) :: hi)
    (· + if isEntityEle x then 1 else 0) (by simp [countP_cons]; omega)
  have offsets := header_shift k lo hi (p, ys ++ zs) (· + 1)
    (k.base + 2 * (lo ++ (p, ys ++ zs) :: hi).length + (body lo).length + (ys ++ zs).length + 1)
    (by intro t; simp only; omega)
  have total : (body (lo ++ (p, ys ++ x :: zs) :: hi)).length =
      (body (lo ++ (p, ys ++ zs) :: hi)).length + 1 := by simp; omega
  have size : (lo ++ (p, ys ++ x :: zs) :: hi).length = (lo ++ (p, ys ++ zs) :: hi).length := by
    simp
  simp only [length_nil, Nat.add_zero] at earlier
  simp only [insertIntoSublist, word_pack_one, word_pack_zero, offAt_pack, nextOff_pack,
    Nat.add_sub_cancel_left, scan, offsets]
  rw [earlier, smaller, larger, entities, pack, total, size, header_append, header,
    body_middle lo hi p (ys ++ x :: zs), show (ys ++ x :: zs).length =
    (ys ++ zs).length + 1 by simp; omega]
  simp [append_assoc, cons_append, Nat.add_assoc]

theorem removePredicate_pack (lo hi : List (Nat × List Nat)) (p x : Nat) :
    removePredicate k (pack k (lo ++ (p, [x]) :: hi)) lo.length x = pack k (lo ++ hi) := by
  have size : (lo ++ (p, [x]) :: hi).length = (lo ++ hi).length + 1 := by simp; omega
  have total : (body (lo ++ (p, [x]) :: hi)).length = (body (lo ++ hi)).length + 1 := by simp; omega
  have low := header_rewrite k [] lo ((p, [x]) :: hi) (fun _ t => t - 2)
    (k.base + 2 * (lo ++ hi).length)
    (by intro j t _ _; simp; omega)
  have high := header_rewrite k (lo ++ [(p, [x])]) hi [] (fun _ t => t - 3)
    (k.base + 2 * (lo ++ hi).length + (body lo).length) (by intro j t _ _; simp; omega)
  have copied := copy_skipping (k.head (lo ++ (p, [x]) :: hi)) (body lo) (body hi) x
  have entities := entityWord_pack k (lo ++ (p, [x]) :: hi) (lo ++ hi)
    (· - if isEntityEle x then 1 else 0) (by simp [countP_cons]; omega)
  rw [show body lo ++ x :: body hi = body (lo ++ (p, [x]) :: hi) by simp, ← pack_head,
    head_length] at copied
  simp only [nil_append, append_nil, append_assoc, singleton_append, length_nil,
    length_append, length_singleton] at low high
  have count : (lo ++ (p, [x]) :: hi).length - (lo.length + 1) = hi.length := by simp; omega
  simp only [removePredicate, word_pack_one, word_pack_zero, offAt_pack, count, entities]
  rw [copied, low, high, total, size, pack, header_append, body_append]
  simp

theorem removeFromSublist_pack {ys zs : List Nat} (below : ∀ y ∈ ys, y < x) :
    removeFromSublist k (pack k (lo ++ (p, ys ++ x :: zs) :: hi)) lo.length x =
      some (pack k (lo ++ (p, ys ++ zs) :: hi)) := by
  have content : body (lo ++ (p, ys ++ x :: zs) :: hi) = body lo ++
      (ys ++ (x :: (zs ++ body hi))) := by
    rw [body_middle, append_assoc, cons_append]
  have stop : endOf k (pack k (lo ++ (p, ys ++ x :: zs) :: hi)) =
      k.base + 2 * (lo ++ (p, ys ++ x :: zs) :: hi).length + (body lo).length +
        (ys ++ x :: (zs ++ body hi)).length := by
    rw [endOf_pack, content, Nat.add_assoc _ (body lo).length, ← length_append]
  have scan := scan_sublist (k := k) (n := (ys ++ x :: (zs ++ body hi)).length) content rfl
    (by simp) below
    (fun _ => Nat.le_refl x)
  have earlier : copyWords (pack k (lo ++ (p, ys ++ x :: zs) :: hi)) _ _ = body lo :=
    copyWords_pack [] (body lo) _ content rfl rfl
  have smaller : copyWords (pack k (lo ++ (p, ys ++ x :: zs) :: hi)) _ _ = ys :=
    copyWords_pack (body lo) ys _ content rfl rfl
  have larger : copyWords (pack k (lo ++ (p, ys ++ x :: zs) :: hi))
      (k.base + 2 * (lo ++ (p, ys ++ x :: zs) :: hi).length + (body lo).length + ys.length + 1)
      (endOf k (pack k (lo ++ (p, ys ++ x :: zs) :: hi))) = zs ++ body hi := by
    apply copyWords_pack (body lo ++ (ys ++ [x])) (zs ++ body hi) []
    · rw [content]; simp
    · simp only [length_append, length_singleton]; omega
    · rw [stop]; simp only [length_append, length_cons]; omega
  have entities := entityWord_pack k (lo ++ (p, ys ++ x :: zs) :: hi) (lo ++ (p, ys ++ zs) :: hi)
    (· - if isEntityEle x then 1 else 0) (by simp [countP_cons]; omega)
  have offsets := header_shift k lo hi (p, ys ++ x :: zs) (· - 1)
    (k.base + 2 * (lo ++ (p, ys ++ x :: zs) :: hi).length + (body lo).length + (ys ++ zs).length)
    (by intro t; simp only [length_append, length_cons]; omega)
  have total : (body (lo ++ (p, ys ++ x :: zs) :: hi)).length =
      (body (lo ++ (p, ys ++ zs) :: hi)).length + 1 := by simp; omega
  have size : (lo ++ (p, ys ++ zs) :: hi).length = (lo ++ (p, ys ++ x :: zs) :: hi).length := by
    simp
  simp only [length_nil, Nat.add_zero] at earlier
  simp only [removeFromSublist, word_pack_one, word_pack_zero, offAt_pack, stop,
    Nat.add_sub_cancel_left, scan, offsets]
  rw [if_neg (by simp), ← stop, earlier, smaller, larger, entities, pack, total, Nat.add_sub_cancel, size, header_append, header,
    body_middle lo hi p (ys ++ zs)]
  simp [append_assoc, cons_append]

theorem listPairs_from (k : Side) (lo mid : List (Nat × List Nat)) (found : List (Nat × Nat)) :
    (List.range' lo.length mid.length).foldl (fun (state : Nat × List (Nat × Nat)) i =>
        (max state.1 (nextOff k (pack k (lo ++ mid)) i),
          state.2 ++ (copyWords (pack k (lo ++ mid)) state.1 (nextOff k (pack k (lo ++ mid)) i)).map
            (Prod.mk (preAt k (pack k (lo ++ mid)) i))))
      (k.base + 2 * (lo ++ mid).length + (body lo).length, found) =
    (k.base + 2 * (lo ++ mid).length + (body (lo ++ mid)).length, found ++ pairs mid) := by
  induction mid generalizing lo found with
  | nil => simp
  | cons g mid ih =>
    have whole : lo ++ g :: mid = (lo ++ [g]) ++ mid := by simp
    have next := nextOff_pack k lo mid g.1 g.2
    have name := preAt_pack k lo mid g.1 g.2
    have copied := copyWords_pack (k := k) (body lo) g.2 (body mid)
      (body_middle lo mid g.1 g.2) rfl rfl
    simp only [Prod.eta] at next name copied
    have rest := ih (lo ++ [g]) (found ++ g.2.map (Prod.mk g.1))
    rw [← whole] at rest
    rw [length_cons, range'_succ, foldl_cons, next, name, copied,
      Nat.max_eq_right (Nat.le_add_right _ _), show lo.length + 1 = (lo ++ [g]).length by simp]
    rw [show k.base + 2 * (lo ++ g :: mid).length + (body lo).length + g.2.length =
      k.base + 2 * (lo ++ g :: mid).length +
      (body (lo ++ [g])).length by simp [Nat.add_assoc], rest]
    simp

theorem listPairs_pack (k : Side) (gs : List (Nat × List Nat)) :
    listPairs k (pack k gs) = pairs gs := by
  have whole := listPairs_from k [] gs []
  simp only [nil_append, length_nil, body_nil, Nat.add_zero] at whole
  rw [listPairs, word_pack_one, whole]

/-- The value of a key whose pairs are `pairs gs`; a key without pairs has no list. -/
def stored (k : Side) (gs : List (Nat × List Nat)) : Option (List Nat) :=
  if gs = [] then none else some (pack k gs)

theorem updateInsertValues_spec (k : Side) (whole : Grouped gs) (absent : (p, x) ∉ pairs gs) :
    ∃ hs, updateInsertValues k (stored k gs) p x = pack k hs ∧ Grouped hs ∧
      ∀ q y, (q, y) ∈ pairs hs ↔ (q = p ∧ y = x) ∨ (q, y) ∈ pairs gs := by
  obtain rfl | empty := eq_or_ne gs []
  · refine ⟨[(p, [x])], ?_,
        grouped_cons.mpr ⟨by simp, ⟨by simp, by simp⟩, grouped_nil⟩, by simp [pairs]⟩
    cases k <;> simp [stored, updateInsertValues, pack, header, body, Side.entityWord, Side.base,
      countP_cons]
  rcases grouped_split whole p with ⟨lo, hi, rfl, before, after⟩ | ⟨lo, xs, hi, rfl, before, after⟩
  · refine ⟨lo ++ (p, [x]) :: hi, ?_, ?_, ?_⟩
    · rw [stored, if_neg empty, updateInsertValues, word_pack_one,
          binarySearch_missed whole before after]
      exact insertPredicate_pack x before after
    · obtain ⟨low, high, apart⟩ := grouped_append.mp whole
      exact grouped_middle.mpr ⟨low, high, ⟨by simp, by simp⟩, before, after, apart⟩
    · intro q y
      rw [mem_pairs_middle, mem_singleton, or_comm]
  · obtain ⟨low, high, ⟨-, sorted⟩, -, -, apart⟩ := grouped_middle.mp whole
    have fresh : x ∉ xs := fun h => absent (mem_pairs_middle.mpr (.inr ⟨rfl, h⟩))
    obtain ⟨ys, zs, rfl, below, above⟩ := increasing_split sorted x
    have strict : ∀ z ∈ zs, x < z := fun z hz =>
      lt_of_le_of_ne (above z hz) (fun same => fresh (by simp [same, hz]))
    refine ⟨lo ++ (p, ys ++ x :: zs) :: hi, ?_, ?_, ?_⟩
    · rw [stored, if_neg empty, updateInsertValues, word_pack_one, binarySearch_found whole]
      exact insertIntoSublist_pack below strict
    · refine grouped_middle.mpr ⟨low, high, ⟨by simp, ?_⟩, before, after, apart⟩
      obtain ⟨left, right, -⟩ := pairwise_append.mp sorted
      refine pairwise_append.mpr ⟨left, pairwise_cons.mpr ⟨strict, right⟩, ?_⟩
      intro y hy z hz
      rcases mem_cons.mp hz with rfl | hz
      · exact below y hy
      · exact (below y hy).trans (strict z hz)
    · intro q y
      simp only [mem_pairs_middle, mem_append, mem_cons]
      tauto

theorem body_eq_nil (whole : Grouped gs) (empty : body gs = []) : gs = [] := by
  cases gs with
  | nil => rfl
  | cons g gs =>
    rw [body_cons, append_eq_nil_iff] at empty
    exact absurd empty.1 (whole.members g (by simp)).1

theorem updateRemoveValues_spec (k : Side) (whole : Grouped gs) (present : (p, x) ∈ pairs gs) :
    ∃ hs, updateRemoveValues k (pack k gs) p x = some (stored k hs) ∧ Grouped hs ∧
      ∀ q y, (q, y) ∈ pairs hs ↔ ¬ (q = p ∧ y = x) ∧ (q, y) ∈ pairs gs := by
  rcases grouped_split whole p with ⟨lo, hi, rfl, before, after⟩ | ⟨lo, xs, hi, rfl, before, after⟩
  · exact absurd present (not_mem_pairs_around before after)
  obtain ⟨low, high, ⟨-, sorted⟩, -, -, apart⟩ := grouped_middle.mp whole
  have outside : ∀ y, (p, y) ∉ pairs (lo ++ hi) := fun y => not_mem_pairs_around before after
  have member : x ∈ xs := by
    rcases mem_pairs_middle.mp present with h | h
    · exact absurd h (outside x)
    · exact h.2
  obtain ⟨ys, zs, rfl⟩ := append_of_mem member
  obtain ⟨left, right, across⟩ := pairwise_append.mp sorted
  obtain ⟨above, upper⟩ := pairwise_cons.mp right
  have below : ∀ y ∈ ys, y < x := fun y hy => across y hy x (by simp)
  by_cases single : ys ++ zs = []
  · -- the predicate goes with its only value, and the key when there is no other predicate
    obtain ⟨rfl, rfl⟩ := append_eq_nil_iff.mp single
    rw [nil_append] at whole ⊢
    have rest : Grouped (lo ++ hi) := grouped_append.mpr ⟨low, high, apart⟩
    refine ⟨lo ++ hi, ?_, rest, ?_⟩
    · have total : (body (lo ++ (p, [x]) :: hi)).length =
        (body (lo ++ hi)).length + 1 := by simp; omega
      rw [updateRemoveValues, word_pack_zero, total, stored]
      by_cases last : lo ++ hi = []
      · rw [if_pos last, last]
        rfl
      · have more : (body (lo ++ hi)).length ≠ 0 :=
          fun none => last (body_eq_nil rest (length_eq_zero_iff.mp none))
        rw [if_neg (by omega), if_neg last, word_pack_one, binarySearch_found whole]
        simp [nextOff_pack, offAt_pack, removePredicate_pack]
    · intro q y
      rw [mem_pairs_middle, mem_singleton]
      have away := outside y
      constructor
      · intro h
        exact ⟨fun same => away (same.1 ▸ h), .inl h⟩
      · rintro ⟨other, h | same⟩
        · exact h
        · exact absurd same other
  · refine ⟨lo ++ (p, ys ++ zs) :: hi, ?_, ?_, ?_⟩
    · have more : (ys ++ zs).length ≠ 0 := fun none => single (length_eq_zero_iff.mp none)
      have size : (ys ++ x :: zs).length = (ys ++ zs).length + 1 := by simp; omega
      have total : (body (lo ++ (p, ys ++ x :: zs) :: hi)).length ≠ 1 := by
        rw [body_middle, length_append, length_append, size]
        omega
      rw [updateRemoveValues, word_pack_zero, if_neg total, word_pack_one, binarySearch_found whole]
      simp only [nextOff_pack, offAt_pack, Nat.add_sub_cancel_left]
      rw [if_neg (by omega), removeFromSublist_pack below, Option.map_some, stored, if_neg (by simp)]
    · refine grouped_middle.mpr ⟨low, high, ⟨single, ?_⟩, before, after, apart⟩
      exact pairwise_append.mpr
        ⟨left, upper, fun y hy z hz => across y hy z (mem_cons_of_mem x hz)⟩
    · intro q y
      have fresh : x ∉ ys ++ zs := by
        intro h
        rcases mem_append.mp h with h | h
        · exact (below x h).false
        · exact (above x h).false
      simp only [mem_pairs_middle, mem_append, mem_cons] at fresh ⊢
      constructor
      · rintro (h | ⟨rfl, h⟩)
        · exact ⟨fun same => outside y (same.1 ▸ h), .inl h⟩
        · exact ⟨fun same => fresh (same.2 ▸ h), .inr ⟨rfl, by tauto⟩⟩
      · tauto

end GStore
