import GStore.Lib.StableSort
import GStore.Query.MultitypeValue

/-! `Stream`: the rows of an answer, in memory or in files, sorted for `ORDER BY`. A row has `n` columns. `none` stands
for the use of a null pointer. -/
namespace GStore
open Lib List Option

abbrev Row (n : Nat) := Fin n → List UInt8

structure SortKey (n : Nat) where
  var : Fin n
  descending : Bool

/-- `keys` and `desc`, with the operators `<` and `>` on the values that `EvalMultitypeValue` deduces from terms. -/
structure ResultCmp (n : Nat) where
  keys : List (SortKey n)
  less : List UInt8 → List UInt8 → EffectiveBooleanValue
  greater : List UInt8 → List UInt8 → EffectiveBooleanValue

variable {n : Nat}

def ResultCmp.compareFrom (cmp : ResultCmp n) (a b : Row n) : List (SortKey n) → Bool
  | [] => true
  | k :: keys =>
    if a k.var = b k.var then cmp.compareFrom a b keys
    else if k.descending then cmp.greater (a k.var) (b k.var) != .falseValue
    else cmp.less (a k.var) (b k.var) != .falseValue

def ResultCmp.compare (cmp : ResultCmp n) (a b : Row n) : Bool := cmp.compareFrom a b cmp.keys

inductive StreamMode where
  | write
  | read
  | readEnd
  deriving DecidableEq

structure Element (n : Nat) where
  rest : List (Row n)
  val : Row n

/-- `ansDisk` is a file of records with the number of records before its cursor; `files` are the files of the runs, of
which the last one is still empty while `tempfp` is open; an element of `sortHeap` is `none` once it is released. -/
structure Stream (n : Nat) where
  inMem : Bool
  needSort : Bool
  mode : StreamMode
  rownum : Nat
  xpos : Nat
  ansMem : List (Row n)
  ansDisk : Option (List (Row n) × Nat)
  tempfp : Bool
  tempst : List (Row n)
  space : Nat
  files : List (List (Row n))
  sortHeap : List (Option (Element n))

namespace Stream

def init (inMem needSort : Bool) (rownum : Nat) : Stream n :=
  ⟨inMem, needSort, .write, rownum, 0, if inMem then List.replicate rownum fun _ => [] else [],
    if inMem || needSort then none else some ([], 0), false, [], 0, [], []⟩

variable (cmp : ResultCmp n) (s : Stream n)

def outputCache : Option (Stream n) :=
  match stableSort cmp.compare s.tempst with
  | [] => none
  | val :: rest =>
    some { s with
      tempst := [], files := s.files.dropLast ++ [val :: rest], sortHeap := s.sortHeap ++ [some ⟨rest, val⟩],
      tempfp := false, space := 0 }

def spaceOf (row : Row n) : Nat := (if h : 0 < n then n * (row ⟨0, h⟩).length else 0) + 4 * n + 8 * n

def write (limit : Nat) (cmp : ResultCmp n) (s : Stream n) (bp : Row n) : Option (Stream n) :=
  if s.rownum ≤ s.xpos then some s
  else if s.inMem then some { s with ansMem := s.ansMem.set s.xpos bp, xpos := s.xpos + 1 }
  else if s.needSort then
    let opened := if s.tempfp then s else { s with tempfp := true, files := s.files ++ [[]] }
    let grown := { opened with
      tempst := opened.tempst ++ [bp], space := (opened.space + spaceOf bp) % 2 ^ 32, xpos := opened.xpos + 1 }
    if limit < grown.space then grown.outputCache cmp else some grown
  else
    s.ansDisk.map fun (records, _) =>
      { s with ansDisk := some (records ++ [bp], records.length + 1), xpos := s.xpos + 1 }

/-- The element in front of a heap. `GreaterElement` answers as `ResultCmp` does, so this is a last one in the order. -/
def popHeap (cmp : ResultCmp n) : List (Element n) → Option (Element n × List (Element n))
  | [] => none
  | e :: heap =>
    match popHeap cmp heap with
    | none => some (e, [])
    | some (top, others) => if cmp.compare e.val top.val then some (top, e :: others) else some (e, top :: others)

def mergeRuns (cmp : ResultCmp n) : Nat → List (Element n) → List (Row n)
  | 0, _ => []
  | turns + 1, heap =>
    match popHeap cmp heap with
    | none => []
    | some (top, others) =>
      match top.rest with
      | [] => top.val :: mergeRuns cmp turns others
      | val :: rest => top.val :: mergeRuns cmp turns (others ++ [⟨rest, val⟩])

def mergeSort : Option (Stream n) :=
  (s.sortHeap.mapM id).map fun heap =>
    let merged := mergeRuns cmp (heap.map fun e => e.rest.length + 1).sum heap
    { s with ansDisk := some (merged, merged.length), sortHeap := s.sortHeap.map fun _ => none }

def rewind : Option (Stream n) :=
  s.ansDisk.map fun (records, _) => { s with ansDisk := some (records, 0) }

def sortFiles : Option (Stream n) :=
  match s.files with
  | [] => some s
  | [file] =>
    match s.sortHeap with
    | some _ :: heap => some { s with sortHeap := none :: heap, ansDisk := some (file, 0) }
    | _ => none
  | _ => s.mergeSort cmp

def setEnd : Option (Stream n) :=
  if s.mode = .read then
    if s.inMem then some { s with xpos := 0 } else rewind { s with xpos := 0 }
  else
    let s := { s with mode := .read, xpos := 0 }
    if s.inMem then some (if s.needSort then { s with ansMem := stableSort cmp.compare s.ansMem } else s)
    else if s.needSort then
      (if s.tempfp then s.outputCache cmp else some s).bind fun s => (s.sortFiles cmp).bind rewind
    else s.rewind

def next : Option (Row n × Stream n) :=
  if s.inMem then s.ansMem[s.xpos]?.map fun row => (row, s)
  else s.ansDisk.bind fun (records, pos) => records[pos]?.map fun row => (row, { s with ansDisk := some (records, pos + 1) })

def read : Option (Row n × Stream n) :=
  if s.mode = .readEnd then none
  else s.next.map fun (row, s) =>
    (row, { s with xpos := s.xpos + 1, mode := if s.xpos + 1 = s.rownum then .readEnd else s.mode })

def readRows : Nat → Stream n → Option (List (Row n) × Stream n)
  | 0, s => some ([], s)
  | m + 1, s => s.read.bind fun (row, s) => (readRows m s).map fun (rows, s) => (row :: rows, s)

def filled (limit : Nat) (cmp : ResultCmp n) (inMem : Bool) (rows : List (Row n)) : Option (Stream n) :=
  rows.foldlM (write limit cmp) (init inMem (!cmp.keys.isEmpty) rows.length)

def reading : Option (List (Row n) × Stream n) :=
  (s.setEnd cmp).bind fun s => s.readRows s.rownum

end Stream

/-! ### The requested order -/

section Order

def ResultCmp.keyBefore (cmp : ResultCmp n) (k : SortKey n) (a b : Row n) : Prop :=
  if k.descending then cmp.less (b k.var) (a k.var) = .trueValue else cmp.less (a k.var) (b k.var) = .trueValue

/-- The order that `ORDER BY` asks for: the first key whose values differ decides. -/
def ResultCmp.Before (cmp : ResultCmp n) (a b : Row n) : List (SortKey n) → Prop
  | [] => False
  | k :: keys => cmp.keyBefore k a b ∨ (¬ cmp.keyBefore k a b ∧ ¬ cmp.keyBefore k b a ∧ cmp.Before a b keys)

def ResultCmp.Tie (cmp : ResultCmp n) (a b : Row n) : Prop := ¬ cmp.Before a b cmp.keys ∧ ¬ cmp.Before b a cmp.keys

/-- The comparisons of the keys of `rows` are defined: no error, `>` is `<` turned around, and `<` is an order. -/
structure ResultCmp.Defined (cmp : ResultCmp n) (rows : List (Row n)) : Prop where
  decided : ∀ k ∈ cmp.keys, ∀ a ∈ rows, ∀ b ∈ rows, cmp.less (a k.var) (b k.var) ≠ .errorValue
  mirrored : ∀ k ∈ cmp.keys, ∀ a ∈ rows, ∀ b ∈ rows, cmp.greater (a k.var) (b k.var) = cmp.less (b k.var) (a k.var)
  asymm : ∀ k ∈ cmp.keys, ∀ a ∈ rows, ∀ b ∈ rows,
    cmp.less (a k.var) (b k.var) = .trueValue → cmp.less (b k.var) (a k.var) ≠ .trueValue
  weak : ∀ k ∈ cmp.keys, ∀ a ∈ rows, ∀ b ∈ rows, ∀ c ∈ rows, cmp.less (a k.var) (b k.var) ≠ .trueValue →
    cmp.less (b k.var) (c k.var) ≠ .trueValue → cmp.less (a k.var) (c k.var) ≠ .trueValue

/-- The first key at which the rows are written differently exists, and if its two values are equal then no later key
puts one of the rows before the other. -/
def ResultCmp.Decides (cmp : ResultCmp n) (a b : Row n) : List (SortKey n) → Prop
  | [] => False
  | k :: keys =>
    (a k.var = b k.var ∧ cmp.Decides a b keys) ∨
      (a k.var ≠ b k.var ∧ (¬ cmp.keyBefore k a b → ¬ cmp.keyBefore k b a →
        ¬ cmp.Before a b keys ∧ ¬ cmp.Before b a keys))

variable {cmp : ResultCmp n} {rows : List (Row n)} {keys : List (SortKey n)} {a b c : Row n}

namespace ResultCmp.Defined

variable (defined : cmp.Defined rows)
include defined

theorem keyBefore_weakOrder {k : SortKey n} (key : k ∈ cmp.keys) : WeakOrderOn (cmp.keyBefore k) rows := by
  constructor
  · intro a inA b inB
    unfold keyBefore
    split
    · exact defined.asymm k key b inB a inA
    · exact defined.asymm k key a inA b inB
  · intro a inA b inB c inC
    unfold keyBefore
    split
    · exact fun ab bc => defined.weak k key c inC b inB a inA bc ab
    · exact defined.weak k key a inA b inB c inC

theorem before_weakOrder (sub : keys ⊆ cmp.keys) : WeakOrderOn (cmp.Before · · keys) rows := by
  induction keys with
  | nil => exact ⟨fun _ _ _ _ never => never.elim, fun _ _ _ _ _ _ _ _ => id⟩
  | cons k keys ih =>
    obtain ⟨key, sub⟩ := cons_subset.mp sub
    have order := defined.keyBefore_weakOrder key
    have rest := ih sub
    constructor
    · intro a inA b inB ab ba
      rcases ab with ab | ⟨_, notBa, ab⟩
      · rcases ba with ba | ⟨_, notAb, _⟩
        · exact order.asymm a inA b inB ab ba
        · exact notAb ab
      · rcases ba with ba | ⟨_, _, ba⟩
        · exact notBa ba
        · exact rest.asymm a inA b inB ab ba
    · intro a inA b inB c inC notAb notBc ac
      have keyAb : ¬ cmp.keyBefore k a b := fun earlier => notAb (Or.inl earlier)
      have keyBc : ¬ cmp.keyBefore k b c := fun earlier => notBc (Or.inl earlier)
      have keyAc := order.weak a inA b inB c inC keyAb keyBc
      obtain ⟨_, keyCa, ac⟩ := ac.resolve_left keyAc
      -- the key ties `a` with `c`, hence both with `b`
      have keyBa : ¬ cmp.keyBefore k b a := order.weak b inB c inC a inA keyBc keyCa
      have keyCb : ¬ cmp.keyBefore k c b := order.weak c inC a inA b inB keyCa keyAb
      exact rest.weak a inA b inB c inC (fun ab => notAb (Or.inr ⟨keyAb, keyBa, ab⟩))
        (fun bc => notBc (Or.inr ⟨keyBc, keyCb, bc⟩)) ac

theorem not_keyBefore_same {k : SortKey n} (key : k ∈ cmp.keys) (inB : b ∈ rows)
    (same : a k.var = b k.var) : ¬ cmp.keyBefore k a b := by
  unfold keyBefore
  rw [same]
  split
  · exact fun earlier => defined.asymm k key b inB b inB earlier earlier
  · exact fun earlier => defined.asymm k key b inB b inB earlier earlier

theorem compareFrom_cons (key : SortKey n) (keys : List (SortKey n)) (member : key ∈ cmp.keys) (inA : a ∈ rows) (inB : b ∈ rows)
    (differ : a key.var ≠ b key.var) : cmp.compareFrom a b (key :: keys) = true ↔ cmp.keyBefore key a b := by
  unfold compareFrom keyBefore
  rw [if_neg differ]
  have total : ∀ a ∈ rows, ∀ b ∈ rows, cmp.less (a key.var) (b key.var) ≠ .falseValue ↔
      cmp.less (a key.var) (b key.var) = .trueValue := by
    intro a inA b inB
    have noError := defined.decided key member a inA b inB
    cases answer : cmp.less (a key.var) (b key.var) with
    | falseValue => simp
    | trueValue => simp
    | errorValue => exact absurd answer noError
  split
  · rw [defined.mirrored key member a inA b inB, bne_iff_ne]
    exact total b inB a inA
  · rw [bne_iff_ne]
    exact total a inA b inB

variable (sub : keys ⊆ cmp.keys) (inA : a ∈ rows) (inB : b ∈ rows)
include sub inA inB

theorem compare_of_decides (decides : cmp.Decides a b keys) :
    cmp.compareFrom a b keys = true ↔ cmp.Before a b keys := by
  induction keys with
  | nil => exact decides.elim
  | cons k keys ih =>
    obtain ⟨key, sub⟩ := cons_subset.mp sub
    rcases decides with ⟨same, decides⟩ | ⟨differ, later⟩
    · have noAb := defined.not_keyBefore_same key inB same
      have noBa := defined.not_keyBefore_same key inA same.symm
      rw [compareFrom, if_pos same, ih sub decides]
      simp [Before, noAb, noBa]
    · rw [defined.compareFrom_cons k keys key inA inB differ, Before]
      refine ⟨Or.inl, fun earlier => ?_⟩
      rcases earlier with earlier | ⟨noAb, noBa, earlier⟩
      · exact earlier
      · exact absurd earlier (later noAb noBa).1

theorem of_not_decides (undecided : ¬ cmp.Decides a b keys) : (∀ k ∈ keys, a k.var = b k.var) ∨
      (cmp.compareFrom a b keys = false ∧ cmp.compareFrom b a keys = false ∧ (cmp.Before a b keys ∨ cmp.Before b a keys)) := by
  induction keys with
  | nil => exact Or.inl (by simp)
  | cons k keys ih =>
    obtain ⟨key, sub⟩ := cons_subset.mp sub
    simp only [Decides, not_or, not_and] at undecided
    by_cases same : a k.var = b k.var
    · have noAb := defined.not_keyBefore_same key inB same
      have noBa := defined.not_keyBefore_same key inA same.symm
      rcases ih sub (undecided.1 same) with alike | ⟨ab, ba, ordered⟩
      · exact Or.inl (by simpa [same] using alike)
      · refine Or.inr ⟨by rw [compareFrom, if_pos same, ab], by rw [compareFrom, if_pos same.symm, ba], ?_⟩
        simpa [Before, noAb, noBa] using ordered
    · have hidden := undecided.2 same
      simp only [Classical.not_imp] at hidden
      obtain ⟨noAb, noBa, ordered⟩ := hidden
      have notAb := (defined.compareFrom_cons k keys key inA inB same).not.mpr noAb
      have notBa := (defined.compareFrom_cons k keys key inB inA (Ne.symm same)).not.mpr noBa
      refine Or.inr ⟨by simpa using notAb, by simpa using notBa, ?_⟩
      simp only [Before, noAb, noBa, not_false_eq_true, true_and, false_or]
      tauto

end ResultCmp.Defined

theorem ResultCmp.compareFrom_alike (alike : ∀ k ∈ keys, a k.var = b k.var) : cmp.compareFrom a b keys = true := by
  induction keys with
  | nil => rfl
  | cons k keys ih =>
    rw [compareFrom, if_pos (alike k mem_cons_self)]
    exact ih fun k' later => alike k' (mem_cons_of_mem k later)

theorem ResultCmp.compareFrom_congr {a' b' : Row n} (alikeA : ∀ k ∈ keys, a k.var = a' k.var)
    (alikeB : ∀ k ∈ keys, b k.var = b' k.var) : cmp.compareFrom a b keys = cmp.compareFrom a' b' keys := by
  induction keys with
  | nil => rfl
  | cons k keys ih =>
    rw [compareFrom, compareFrom, alikeA k mem_cons_self, alikeB k mem_cons_self,
      ih (fun k' later => alikeA k' (mem_cons_of_mem k later)) (fun k' later => alikeB k' (mem_cons_of_mem k later))]

theorem ResultCmp.isBlock (cmp : ResultCmp n) (a : Row n) :
    IsBlock cmp.compare fun b => ∀ k ∈ cmp.keys, b k.var = a k.var := by
  constructor
  · exact fun x y sameX sameY => compareFrom_alike fun k key => (sameX k key).trans (sameY k key).symm
  · exact fun x y z sameX sameY _ => compareFrom_congr (fun k key => (sameX k key).trans (sameY k key).symm) fun _ _ => rfl
  · exact fun x y z sameX sameY _ => compareFrom_congr (fun _ _ => rfl) fun k key => (sameX k key).trans (sameY k key).symm

end Order

/-! ### Reading -/

namespace Stream

variable {cmp : ResultCmp n} {limit : Nat} {rows : List (Row n)} {s t : Stream n} {inMem needSort : Bool} {pos : Nat}
  {mode : StreamMode}

/-- `s` has `rows`, with `pos` of them read. -/
structure Serves (inMem needSort : Bool) (rows : List (Row n)) (pos : Nat) (mode : StreamMode) (s : Stream n) : Prop where
  place : s.inMem = inMem
  sort : s.needSort = needSort
  size : s.rownum = rows.length
  position : s.xpos = pos
  phase : s.mode = mode
  memory : inMem = true → s.ansMem = rows
  disk : inMem = false → s.ansDisk = some (rows, pos)

theorem Serves.read (serves : Serves inMem needSort rows pos .read s) (inside : pos < rows.length) :
    ∃ t, s.read = some (rows[pos], t) ∧
      Serves inMem needSort rows (pos + 1) (if pos + 1 = rows.length then .readEnd else .read) t := by
  have open' : s.mode ≠ .readEnd := by rw [serves.phase]; decide
  cases inMem with
  | true =>
    have found : s.next = some (rows[pos], s) := by
      rw [next, if_pos serves.place, serves.memory rfl, serves.position, getElem?_eq_getElem inside]
      rfl
    refine ⟨_, by rw [Stream.read, if_neg open', found]; rfl, ?_⟩
    exact { serves with
      position := by simp [serves.position]
      phase := by simp [serves.position, serves.size, serves.phase]
      disk := fun no => by cases no }
  | false =>
    have onDisk : ¬ s.inMem = true := by rw [serves.place]; decide
    have found : s.next = some (rows[pos], { s with ansDisk := some (rows, pos + 1) }) := by
      rw [next, if_neg onDisk, serves.disk rfl]
      simp [inside]
    refine ⟨_, by rw [Stream.read, if_neg open', found]; rfl, ?_⟩
    exact ⟨serves.place, serves.sort, serves.size, by simp [serves.position], by simp [serves.position, serves.size, serves.phase],
      (fun no => by cases no), fun _ => rfl⟩

theorem Serves.readRows (m : Nat) (serves : Serves inMem needSort rows pos .read s) (bound : pos + m = rows.length) :
    ∃ t, s.readRows m = some (rows.drop pos, t) ∧
      Serves inMem needSort rows rows.length (if m = 0 then .read else .readEnd) t := by
  induction m generalizing s pos with
  | zero =>
    have reached : pos = rows.length := bound
    subst reached
    exact ⟨s, by rw [drop_length]; rfl, serves⟩
  | succ m ih =>
    have inside : pos < rows.length := by omega
    obtain ⟨t, read, served⟩ := serves.read inside
    rw [Stream.readRows, read, drop_eq_getElem_cons inside, if_neg m.succ_ne_zero]
    obtain rfl | last := eq_or_ne m 0
    · have final : pos + 1 = rows.length := bound
      rw [if_pos final, final] at served
      refine ⟨t, ?_, served⟩
      rw [final, drop_length]
      rfl
    · rw [if_neg (by omega : pos + 1 ≠ rows.length)] at served
      obtain ⟨u, rest, ended⟩ := ih served (by omega)
      rw [if_neg last] at ended
      exact ⟨u, by simp [bind_some, rest, map_some], ended⟩

theorem Serves.reading (ended : s.setEnd cmp = some t) (serves : Serves inMem needSort rows 0 .read t) :
    ∃ u, s.reading cmp = some (rows, u) ∧ Serves inMem needSort rows rows.length (if rows.length = 0 then .read else .readEnd) u := by
  obtain ⟨u, read, served⟩ := serves.readRows rows.length (Nat.zero_add _)
  exact ⟨u, by rw [Stream.reading, ended, bind_some, serves.size, read]; rfl, served⟩

theorem setEnd_mem (cmp : ResultCmp n) (place : s.inMem = true) (ready : s.mode ≠ .read) (size : s.rownum = s.ansMem.length) :
    ∃ t, s.setEnd cmp = some t ∧
      Serves true s.needSort (if s.needSort then stableSort cmp.compare s.ansMem else s.ansMem) 0 .read t := by
  cases sort : s.needSort with
  | true =>
    refine ⟨{ s with mode := .read, xpos := 0, ansMem := stableSort cmp.compare s.ansMem }, by simp [setEnd, ready, place, sort], ?_⟩
    exact ⟨place, sort, size.trans (perm_stableSort cmp.compare s.ansMem).length_eq.symm, rfl, rfl, fun _ => rfl, fun no => by cases no⟩
  | false =>
    refine ⟨{ s with mode := .read, xpos := 0 }, by simp [setEnd, ready, place, sort], ?_⟩
    exact ⟨place, sort, size, rfl, rfl, fun _ => rfl, fun no => by cases no⟩

theorem setEnd_disk (cmp : ResultCmp n) (place : s.inMem = false) (sort : s.needSort = false) (content : s.ansDisk = some (rows, pos))
    (size : s.rownum = rows.length) : ∃ t, s.setEnd cmp = some t ∧ Serves false false rows 0 .read t := by
  by_cases reading : s.mode = .read
  · refine ⟨{ s with xpos := 0, ansDisk := some (rows, 0) }, ?_, place, sort, size, rfl, reading, (fun no => by cases no), fun _ => rfl⟩
    simp [setEnd, reading, place, rewind, content]
  · refine ⟨{ s with mode := .read, xpos := 0, ansDisk := some (rows, 0) }, ?_, place, sort, size, rfl, rfl,
      (fun no => by cases no), fun _ => rfl⟩
    simp [setEnd, reading, place, sort, rewind, content]

/-! ### Writing -/

theorem foldlM_write_mem (place : s.inMem = true) {done left : List (Row n)} (content : s.ansMem = done ++ left)
    (position : s.xpos = done.length) (fits : rows.length = left.length) (bound : s.rownum = s.xpos + left.length) :
    ∃ t, rows.foldlM (write limit cmp) s = some t ∧ t.inMem = true ∧ t.needSort = s.needSort ∧ t.mode = s.mode ∧
      t.rownum = s.rownum ∧ t.ansMem = done ++ rows := by
  induction rows generalizing s done left with
  | nil =>
    have empty : left = [] := eq_nil_of_length_eq_zero fits.symm
    subst empty
    exact ⟨s, rfl, place, rfl, rfl, rfl, content⟩
  | cons row rows ih =>
    obtain ⟨old, left, rfl⟩ := exists_cons_of_length_eq_add_one fits.symm
    have room : ¬ s.rownum ≤ s.xpos := by rw [length_cons] at bound; omega
    have set : s.ansMem.set s.xpos row = (done ++ [row]) ++ left := by
      rw [content, position, set_append_right _ _ le_rfl]
      simp
    have first : s.write limit cmp row = some { s with ansMem := (done ++ [row]) ++ left, xpos := s.xpos + 1 } := by
      rw [write, if_neg room, if_pos place, set]
    obtain ⟨t, rest, kept⟩ := ih (s := { s with ansMem := (done ++ [row]) ++ left, xpos := s.xpos + 1 }) place rfl
      (by simp [position]) (by simpa using fits) (by rw [length_cons] at bound; dsimp only; omega)
    rw [foldlM_cons, first]
    exact ⟨t, rest, by simpa using kept⟩

theorem filled_mem (limit : Nat) (cmp : ResultCmp n) (rows : List (Row n)) :
    ∃ s, filled limit cmp true rows = some s ∧ s.inMem = true ∧ s.needSort = !cmp.keys.isEmpty ∧ s.mode = .write ∧
      s.rownum = rows.length ∧ s.ansMem = rows := by
  have blank : (init (n := n) true (!cmp.keys.isEmpty) rows.length).ansMem =
      [] ++ List.replicate rows.length fun _ => [] := rfl
  exact foldlM_write_mem rfl blank rfl (by simp) (by simp [init])

theorem foldlM_write_disk (place : s.inMem = false) (sort : s.needSort = false) {done : List (Row n)}
    (content : s.ansDisk = some (done, s.xpos)) (position : s.xpos = done.length) (bound : s.rownum = s.xpos + rows.length) :
    ∃ t, rows.foldlM (write limit cmp) s = some t ∧ t.inMem = false ∧ t.needSort = false ∧ t.rownum = s.rownum ∧
      t.ansDisk = some (done ++ rows, t.xpos) := by
  induction rows generalizing s done with
  | nil => exact ⟨s, rfl, place, sort, rfl, by simpa using content⟩
  | cons row rows ih =>
    have room : ¬ s.rownum ≤ s.xpos := by rw [length_cons] at bound; omega
    have first : s.write limit cmp row =
        some { s with ansDisk := some (done ++ [row], s.xpos + 1), xpos := s.xpos + 1 } := by
      rw [write, if_neg room, place, sort, content, position]
      rfl
    obtain ⟨t, rest, kept⟩ := ih (s := { s with ansDisk := some (done ++ [row], s.xpos + 1), xpos := s.xpos + 1 }) place sort rfl
      (by simp [position]) (by rw [length_cons] at bound; dsimp only; omega)
    rw [foldlM_cons, first]
    exact ⟨t, rest, by simpa using kept⟩

theorem filled_disk (limit : Nat) (noKeys : cmp.keys = []) (rows : List (Row n)) :
    ∃ s, filled limit cmp false rows = some s ∧ s.inMem = false ∧ s.needSort = false ∧ s.rownum = rows.length ∧
      s.ansDisk = some (rows, s.xpos) := by
  have empty : (init (n := n) false (!cmp.keys.isEmpty) rows.length).ansDisk = some ([], 0) := by simp [init, noKeys]
  exact foldlM_write_disk rfl (by simp [init, noKeys]) empty rfl (by simp [init])

/-! ### Sorting on disk -/

structure Filling (s : Stream n) : Prop where
  place : s.inMem = false
  sort : s.needSort = true
  noResult : s.ansDisk = none
  runs : s.files.length = s.sortHeap.length + if s.tempfp then 1 else 0

def SameProgress (s t : Stream n) : Prop := t.rownum = s.rownum ∧ t.mode = s.mode ∧ t.xpos = s.xpos

section

variable (filling : Filling s)
include filling

theorem Filling.outputCache (opened : s.tempfp = true) (done : s.outputCache cmp = some t) :
    Filling t ∧ t.tempfp = false ∧ SameProgress s t := by
  unfold Stream.outputCache at done
  split at done
  · cases done
  · cases Option.some.inj done
    have runs := filling.runs
    rw [opened, if_pos rfl] at runs
    exact ⟨{ filling with runs := by simp [runs] }, rfl, rfl, rfl, rfl⟩

theorem Filling.opened :
    ∃ o, (if s.tempfp then s else { s with tempfp := true, files := s.files ++ [[]] }) = o ∧ Filling o ∧ o.tempfp = true ∧
      SameProgress s o := by
  have runs := filling.runs
  split
  · exact ⟨s, rfl, filling, ‹_›, rfl, rfl, rfl⟩
  · rw [if_neg ‹_›] at runs
    exact ⟨_, rfl, { filling with runs := by simp [runs] }, rfl, rfl, rfl, rfl⟩

theorem Filling.write {row : Row n} (done : s.write limit cmp row = some t) :
    Filling t ∧ t.rownum = s.rownum ∧ t.mode = s.mode := by
  unfold Stream.write at done
  split at done
  · cases Option.some.inj done
    exact ⟨filling, rfl, rfl⟩
  · obtain ⟨o, isOpened, kept, isOpen, size, phase, _⟩ := filling.opened
    rw [if_neg (by rw [filling.place]; decide), if_pos filling.sort, isOpened] at done
    have grown : Filling { o with tempst := o.tempst ++ [row], space := (o.space + spaceOf row) % 2 ^ 32, xpos := o.xpos + 1 } :=
      { kept with }
    dsimp only at done
    split at done
    · obtain ⟨flushed, _, sameSize, samePhase, _⟩ := grown.outputCache isOpen done
      exact ⟨flushed, sameSize.trans size, samePhase.trans phase⟩
    · cases Option.some.inj done
      exact ⟨grown, size, phase⟩

theorem Filling.foldlM_write (done : rows.foldlM (Stream.write limit cmp) s = some t) :
    Filling t ∧ t.rownum = s.rownum ∧ t.mode = s.mode := by
  induction rows generalizing s with
  | nil =>
    cases Option.some.inj done
    exact ⟨filling, rfl, rfl⟩
  | cons row rows ih =>
    rw [foldlM_cons] at done
    obtain ⟨u, first, rest⟩ := bind_eq_some_iff.mp done
    obtain ⟨kept, size, phase⟩ := filling.write first
    obtain ⟨final, sameSize, samePhase⟩ := ih kept rest
    exact ⟨final, sameSize.trans size, samePhase.trans phase⟩

structure Spent (s : Stream n) : Prop where
  place : s.inMem = false
  sort : s.needSort = true
  closed : s.tempfp = false
  runs : s.files ≠ []
  released : ∃ heap, s.sortHeap = none :: heap

omit filling in
theorem Spent.setEnd (spent : Spent s) (ready : s.mode ≠ .read) : s.setEnd cmp = none := by
  obtain ⟨heap, released⟩ := spent.released
  have noFiles : ({ s with mode := .read, xpos := 0 } : Stream n).sortFiles cmp = none := by
    unfold sortFiles
    split
    · exact absurd ‹_› spent.runs
    · simp [released]
    · simp [mergeSort, released]
  have onDisk : ¬ s.inMem = true := by rw [spent.place]; decide
  have closed : ¬ s.tempfp = true := by rw [spent.closed]; decide
  rw [Stream.setEnd, if_neg ready]
  dsimp only
  rw [if_neg onDisk, if_pos spent.sort, if_neg closed, bind_some, noFiles]
  rfl

omit filling in
theorem rewind_eq_some (done : s.rewind = some t) : ∃ records pos, s.ansDisk = some (records, pos) ∧
    t = { s with ansDisk := some (records, 0) } := by
  unfold rewind at done
  obtain ⟨⟨records, pos⟩, content, same⟩ := map_eq_some_iff.mp done
  exact ⟨records, pos, content, same.symm⟩

theorem Filling.sortFiles (closed : s.tempfp = false)
    (done : (s.sortFiles cmp).bind rewind = some t) : Spent t ∧ SameProgress s t := by
  obtain ⟨u, sorted, back⟩ := bind_eq_some_iff.mp done
  obtain ⟨records, pos, content, rfl⟩ := rewind_eq_some back
  have runs := filling.runs
  rw [closed, if_neg Bool.false_ne_true, Nat.add_zero] at runs
  unfold Stream.sortFiles at sorted
  split at sorted
  · cases Option.some.inj sorted
    rw [filling.noResult] at content
    cases content
  · rename_i file oneFile
    split at sorted
    · cases Option.some.inj sorted
      exact ⟨⟨filling.place, filling.sort, closed, by simp [oneFile], _, rfl⟩, rfl, rfl, rfl⟩
    · cases sorted
  · rename_i several _
    unfold mergeSort at sorted
    obtain ⟨heap, _, rfl⟩ := map_eq_some_iff.mp sorted
    cases released : s.sortHeap with
    | nil => exact absurd (eq_nil_of_length_eq_zero (by rw [runs, released]; rfl)) several
    | cons e rest =>
      exact ⟨⟨filling.place, filling.sort, closed, several, rest.map fun _ => none, by simp⟩, rfl, rfl, rfl⟩

theorem Filling.setEnd (ready : s.mode ≠ .read) (done : s.setEnd cmp = some t) :
    Spent t ∧ t.rownum = s.rownum ∧ t.mode = .read ∧ t.xpos = 0 := by
  have reset : Filling ({ s with mode := .read, xpos := 0 } : Stream n) :=
    { filling with }
  have onDisk : ¬ s.inMem = true := by rw [filling.place]; decide
  rw [Stream.setEnd, if_neg ready] at done
  dsimp only at done
  rw [if_neg onDisk, if_pos filling.sort] at done
  obtain ⟨u, flushed, sorted⟩ := bind_eq_some_iff.mp done
  split at flushed
  · obtain ⟨kept, closed, size, phase, position⟩ := reset.outputCache ‹_› flushed
    obtain ⟨spent, sameSize, samePhase, samePosition⟩ := kept.sortFiles closed sorted
    exact ⟨spent, sameSize.trans size, samePhase.trans phase, samePosition.trans position⟩
  · cases Option.some.inj flushed
    obtain ⟨spent, size, phase, position⟩ := reset.sortFiles (by simpa using ‹¬ s.tempfp = true›) sorted
    exact ⟨spent, size, phase, position⟩

end

theorem Spent.read (spent : Spent s) {row : Row n} (done : s.read = some (row, t)) :
    Spent t ∧ t.rownum = s.rownum ∧ t.xpos = s.xpos + 1 ∧ (t.xpos = s.rownum → t.mode = .readEnd) := by
  unfold Stream.read at done
  split at done
  · cases done
  · obtain ⟨⟨found, u⟩, here, same⟩ := map_eq_some_iff.mp done
    cases same
    rw [next, if_neg (by rw [spent.place]; decide)] at here
    obtain ⟨⟨records, pos⟩, _, moved⟩ := bind_eq_some_iff.mp here
    obtain ⟨_, _, same⟩ := map_eq_some_iff.mp moved
    cases same
    exact ⟨{ spent with }, rfl, rfl, fun last => if_pos last⟩

theorem Spent.readRows {m : Nat} {out : List (Row n)} (spent : Spent s) (some : 0 < m) (bound : s.xpos + m = s.rownum)
    (done : s.readRows m = .some (out, t)) : Spent t ∧ t.mode = .readEnd := by
  induction m generalizing s out with
  | zero => omega
  | succ m ih =>
    rw [Stream.readRows] at done
    obtain ⟨⟨row, u⟩, first, rest⟩ := bind_eq_some_iff.mp done
    obtain ⟨⟨others, v⟩, later, same⟩ := map_eq_some_iff.mp rest
    cases same
    obtain ⟨kept, size, moved, last⟩ := spent.read first
    cases m with
    | zero =>
      cases later
      exact ⟨kept, last (by omega)⟩
    | succ m => exact ih kept (by omega) (by omega) later

theorem reading_disk_once (keys : cmp.keys ≠ []) (isFilled : filled limit cmp false rows = some s) {out : List (Row n)}
    (read : s.reading cmp = some (out, t)) : t.reading cmp = none := by
  have sort : (init (n := n) false (!cmp.keys.isEmpty) rows.length).needSort = true := by simp [init, keys]
  have start : Filling (init (n := n) false (!cmp.keys.isEmpty) rows.length) :=
    ⟨rfl, sort, by simp [init, keys], rfl⟩
  obtain ⟨filling, size, phase⟩ := start.foldlM_write isFilled
  obtain ⟨u, ended, rest⟩ := bind_eq_some_iff.mp read
  obtain ⟨spent, sameSize, reading, position⟩ := filling.setEnd (by rw [phase]; simp [init]) ended
  have total : u.rownum = rows.length := sameSize.trans size
  cases rows with
  | nil =>
    -- without a row there is no file at all
    cases isFilled
    simp [setEnd, init, keys, sortFiles, rewind] at ended
  | cons row rows =>
    obtain ⟨spent, ready⟩ := spent.readRows (by rw [total]; exact Nat.succ_pos _) (by rw [position, Nat.zero_add]) rest
    rw [Stream.reading, spent.setEnd (by rw [ready]; decide)]
    rfl

/-! ### What `ORDER BY` outputs -/

/-- In whatever order `rows` are written: a reading gives them in the requested order, up to ties in the order of a
stream in memory, and so does a second reading after it. -/
def OrderedOutput (limit : Nat) (cmp : ResultCmp n) (inMem : Bool) (rows : List (Row n)) : Prop :=
  ∀ written : List (Row n), written.Perm rows → ∃ s t u out,
    filled limit cmp inMem written = some s ∧ s.reading cmp = some (out, t) ∧
      out.Perm written ∧ (out.IsChain fun a b => ¬ cmp.Before b a cmp.keys) ∧
      (∀ m v inMemory, filled limit cmp true written = some m → m.reading cmp = some (inMemory, v) →
        List.Forall₂ cmp.Tie out inMemory) ∧
      t.reading cmp = some (out, u)

def arranged (cmp : ResultCmp n) (rows : List (Row n)) : List (Row n) :=
  if cmp.keys = [] then rows else stableSort cmp.compare rows

theorem perm_arranged (cmp : ResultCmp n) (rows : List (Row n)) : (arranged cmp rows).Perm rows := by
  unfold arranged
  split
  · exact .refl _
  · exact perm_stableSort _ _

theorem readings_mem (limit : Nat) (cmp : ResultCmp n) (written : List (Row n)) :
    ∃ s t u, filled limit cmp true written = some s ∧ s.reading cmp = some (arranged cmp written, t) ∧
      t.reading cmp = some (arranged cmp (arranged cmp written), u) := by
  have asked : ∀ rows : List (Row n), (if (!cmp.keys.isEmpty) = true then stableSort cmp.compare rows else rows) = arranged cmp rows := by
    intro rows
    unfold arranged
    cases cmp.keys <;> rfl
  obtain ⟨s, isFilled, place, sort, phase, size, content⟩ := filled_mem limit cmp written
  obtain ⟨t, ended, serves⟩ := setEnd_mem cmp place (by rw [phase]; decide) (by rw [size, content])
  rw [content, sort, asked] at serves
  obtain ⟨u, read, served⟩ := Serves.reading ended serves
  refine ⟨s, u, ?_⟩
  by_cases empty : (arranged cmp written).length = 0
  · rw [if_pos empty] at served
    have none' : arranged cmp written = [] := eq_nil_of_length_eq_zero empty
    have again : u.setEnd cmp = some { u with xpos := 0 } := by
      rw [setEnd, if_pos served.phase, if_pos served.place]
    have servesAgain : Serves true (!cmp.keys.isEmpty) (arranged cmp written) 0 .read { u with xpos := 0 } :=
      { served with position := rfl, disk := fun no => by cases no }
    obtain ⟨v, readAgain, _⟩ := Serves.reading again servesAgain
    have same : arranged cmp (arranged cmp written) = arranged cmp written := by
      rw [none']
      unfold arranged
      split <;> rfl
    exact ⟨v, isFilled, read, by rw [same, readAgain]⟩
  · rw [if_neg empty] at served
    obtain ⟨v, endedAgain, servesAgain⟩ := setEnd_mem cmp served.place (by rw [served.phase]; decide)
      (by rw [served.size, served.memory rfl])
    rw [served.memory rfl, served.sort, asked] at servesAgain
    obtain ⟨w, readAgain, _⟩ := Serves.reading endedAgain servesAgain
    exact ⟨w, isFilled, read, readAgain⟩

theorem readings_unsorted (limit : Nat) (noKeys : cmp.keys = []) (inMem : Bool) (written : List (Row n)) :
    ∃ s t u, filled limit cmp inMem written = some s ∧ s.reading cmp = some (written, t) ∧
      t.reading cmp = some (written, u) := by
  cases inMem with
  | false =>
    obtain ⟨s, isFilled, place, sort, size, content⟩ := filled_disk limit noKeys written
    obtain ⟨t, ended, serves⟩ := setEnd_disk cmp place sort content size
    obtain ⟨u, read, served⟩ := Serves.reading ended serves
    obtain ⟨v, endedAgain, servesAgain⟩ := setEnd_disk cmp served.place served.sort (served.disk rfl) served.size
    obtain ⟨w, readAgain, _⟩ := Serves.reading endedAgain servesAgain
    exact ⟨s, u, w, isFilled, read, readAgain⟩
  | true =>
    have same : ∀ rows, arranged cmp rows = rows := fun rows => if_pos noKeys
    have readings := readings_mem limit cmp written
    simpa only [same] using readings

theorem tie_refl (defined : cmp.Defined rows) {a : Row n} (inA : a ∈ rows) : cmp.Tie a a := by
  have irrefl : ¬ cmp.Before a a cmp.keys := fun earlier =>
    (defined.before_weakOrder (List.Subset.refl _)).asymm a inA a inA earlier earlier
  exact ⟨irrefl, irrefl⟩

theorem orderedOutput_mem_iff (defined : cmp.Defined rows) :
    OrderedOutput limit cmp true rows ↔ ∀ written : List (Row n), written.Perm rows →
      ((arranged cmp written).IsChain fun a b => ¬ cmp.Before b a cmp.keys) ∧
        arranged cmp (arranged cmp written) = arranged cmp written := by
  constructor
  · intro output written same
    obtain ⟨s, t, u, isFilled, read, readAgain⟩ := readings_mem limit cmp written
    obtain ⟨s', t', u', out, isFilled', read', _, chain, _, readAgain'⟩ := output written same
    rw [isFilled] at isFilled'
    cases isFilled'
    rw [read] at read'
    cases read'
    rw [readAgain] at readAgain'
    exact ⟨chain, congrArg Prod.fst (Option.some.inj readAgain')⟩
  · intro sorts written same
    obtain ⟨s, t, u, isFilled, read, readAgain⟩ := readings_mem limit cmp written
    obtain ⟨chain, again⟩ := sorts written same
    refine ⟨s, t, u, arranged cmp written, isFilled, read, perm_arranged cmp written, chain, ?_, by rw [readAgain, again]⟩
    intro m v inMemory isFilled' read'
    rw [isFilled] at isFilled'
    cases isFilled'
    rw [read] at read'
    cases read'
    refine forall₂_same.mpr fun a there => tie_refl defined ?_
    exact same.mem_iff.mp ((perm_arranged cmp written).mem_iff.mp there)

theorem orderedOutput_unsorted (limit : Nat) (inMem : Bool) (rows : List (Row n)) (noKeys : cmp.keys = []) :
    OrderedOutput limit cmp inMem rows := by
  intro written _
  obtain ⟨s, t, u, isFilled, read, readAgain⟩ := readings_unsorted limit noKeys inMem written
  obtain ⟨s', t', u', isFilled', read', _⟩ := readings_unsorted limit noKeys true written
  have never : ∀ a b : Row n, ¬ cmp.Before a b cmp.keys := by
    rw [noKeys]
    exact fun a b => id
  refine ⟨s, t, u, written, isFilled, read, .refl _, ?_, ?_, readAgain⟩
  · exact (pairwise_of_forall fun a b => never b a).isChain
  · intro m v inMemory isFilledMem readMem
    rw [isFilled'] at isFilledMem
    cases isFilledMem
    rw [read'] at readMem
    cases readMem
    exact forall₂_same.mpr fun a _ => ⟨never a a, never a a⟩

theorem tells_of_decides (defined : cmp.Defined rows)
    (decides : ∀ a ∈ rows, ∀ b ∈ rows, a ≠ b → cmp.Decides a b cmp.keys) :
    Tells cmp.compare (cmp.Before · · cmp.keys) rows := by
  intro a inA b inB
  obtain rfl | same := eq_or_ne a b
  · exact iff_of_true (ResultCmp.compareFrom_alike fun k _ => rfl) (Or.inl rfl)
  · rw [ResultCmp.compare, defined.compare_of_decides (List.Subset.refl _) inA inB (decides a inA b inB same)]
    simp [same]

theorem orderedOutput_of_decides (limit : Nat) (defined : cmp.Defined rows)
    (decides : ∀ a ∈ rows, ∀ b ∈ rows, a ≠ b → cmp.Decides a b cmp.keys) : OrderedOutput limit cmp true rows := by
  by_cases noKeys : cmp.keys = []
  · exact orderedOutput_unsorted limit true rows noKeys
  · refine (orderedOutput_mem_iff defined).mpr fun written same => ?_
    have tells := (tells_of_decides defined decides).mono same.subset
    have order := (defined.before_weakOrder (List.Subset.refl cmp.keys)).mono same.subset
    have inOrder := pairwise_stableSort order tells
    have again := stableSort_of_pairwise (tells.mono (perm_stableSort _ _).subset) inOrder
    rw [arranged, if_neg noKeys, arranged, if_neg noKeys]
    exact ⟨inOrder.isChain, again⟩

section Necessary

variable {a b : Row n} (defined : cmp.Defined rows) (noKeys : cmp.keys ≠ []) (output : OrderedOutput limit cmp true rows)
include defined noKeys output

theorem sorts_of_output {written : List (Row n)} (same : written.Perm rows) :
    ((stableSort cmp.compare written).Pairwise fun a b => ¬ cmp.Before b a cmp.keys) ∧
      stableSort cmp.compare (stableSort cmp.compare written) = stableSort cmp.compare written := by
  obtain ⟨chain, again⟩ := (orderedOutput_mem_iff defined).mp output written same
  simp only [arranged, if_neg noKeys] at chain again
  have order := (defined.before_weakOrder (List.Subset.refl cmp.keys)).mono ((perm_stableSort cmp.compare written).trans same).subset
  exact ⟨order.pairwise_of_chain chain, again⟩

variable (inA : a ∈ rows) (inB : b ∈ rows) (differ : a ≠ b)
include inA inB differ

theorem keys_differ_of_output : ¬ ∀ k ∈ cmp.keys, a k.var = b k.var := by
  intro alike
  let same (row : Row n) : Bool := decide (∀ k ∈ cmp.keys, row k.var = a k.var)
  have inBlock : ∀ row ∈ rows.filter same, ∀ k ∈ cmp.keys, row k.var = a k.var := fun row there => by
    simpa [same] using (mem_filter.mp there).2
  have hasA : a ∈ rows.filter same := mem_filter.mpr ⟨inA, by simp [same]⟩
  have hasB : b ∈ (rows.filter same).erase a :=
    (mem_erase_of_ne differ.symm).mpr (mem_filter.mpr ⟨inB, by simpa [same] using fun k key => (alike k key).symm⟩)
  have ends : (a :: ((((rows.filter same).erase a).erase b) ++ [b])).Perm (rows.filter same) :=
    ((perm_append_singleton b _).trans (perm_cons_erase hasB).symm).cons a |>.trans (perm_cons_erase hasA).symm
  generalize ((rows.filter same).erase a).erase b = middle at ends
  have members : ∀ row ∈ a :: (middle ++ [b]), ∀ k ∈ cmp.keys, row k.var = a k.var :=
    fun row there => inBlock row (ends.mem_iff.mp there)
  have outside : ∀ row ∈ rows.filter (fun row => !same row), ¬ ∀ k ∈ cmp.keys, row k.var = a k.var := fun row there => by
    simpa [same] using (mem_filter.mp there).2
  have written : (a :: (middle ++ [b]) ++ rows.filter fun row => !same row).Perm rows :=
    (ends.append_right _).trans (filter_append_perm same rows)
  obtain ⟨early, late, once, free⟩ := (cmp.isBlock a).stableSort_reverses [] _ members outside
  obtain ⟨early', late', twice, free'⟩ := (cmp.isBlock a).stableSort_reverses early late
    (fun row there => members row (mem_reverse.mp there)) free
  have fixed := (sorts_of_output defined noKeys output written).2
  rw [nil_append] at once
  rw [once, twice, reverse_reverse] at fixed
  have blocks : ∀ X M Y : List (Row n), (∀ row ∈ M, ∀ k ∈ cmp.keys, row k.var = a k.var) →
      (∀ row ∈ X ++ Y, ¬ ∀ k ∈ cmp.keys, row k.var = a k.var) → (X ++ M ++ Y).filter same = M := by
    intro X M Y inside others
    have noX : X.filter same = [] := filter_eq_nil_iff.mpr fun row there => by
      simpa [same] using others row (mem_append_left _ there)
    have noY : Y.filter same = [] := filter_eq_nil_iff.mpr fun row there => by
      simpa [same] using others row (mem_append_right _ there)
    have allM : M.filter same = M := filter_eq_self.mpr fun row there => by simpa [same] using inside row there
    rw [filter_append, filter_append, noX, noY, allM, nil_append, append_nil]
  have palindrome := congrArg (List.filter same) fixed
  rw [blocks _ _ _ members free', blocks _ _ _ (fun row there => members row (mem_reverse.mp there)) free] at palindrome
  have heads := congrArg List.head? palindrome
  simp at heads
  exact differ heads

theorem not_hidden_of_output (stays : cmp.compare b a = false) : ¬ cmp.Before b a cmp.keys := by
  have hasB : b ∈ rows.erase a := (mem_erase_of_ne differ.symm).mpr inB
  have written : (a :: b :: (rows.erase a).erase b).Perm rows :=
    ((perm_cons_erase hasB).symm.cons a).trans (perm_cons_erase inA).symm
  have inOrder := (sorts_of_output defined noKeys output written).1
  have pair := inOrder.sublist (sublist_stableSort stays _)
  simpa using pair

theorem decides_of_output : cmp.Decides a b cmp.keys := by
  by_contra undecided
  rcases defined.of_not_decides (List.Subset.refl _) inA inB undecided with alike | ⟨ab, ba, ordered⟩
  · exact keys_differ_of_output defined noKeys output inA inB differ alike
  · rcases ordered with ordered | ordered
    · exact not_hidden_of_output defined noKeys output inB inA differ.symm ab ordered
    · exact not_hidden_of_output defined noKeys output inA inB differ ba ordered

end Necessary

/-- Two readings of the rows of an answer agree and are in the requested order exactly when no order is requested, or
the rows are in memory and any two different rows are decided by their keys. -/
theorem orderedOutput_iff (limit : Nat) (inMem : Bool) (defined : cmp.Defined rows) :
    OrderedOutput limit cmp inMem rows ↔
      cmp.keys = [] ∨ (inMem = true ∧ ∀ a ∈ rows, ∀ b ∈ rows, a ≠ b → cmp.Decides a b cmp.keys) := by
  constructor
  · intro output
    by_cases noKeys : cmp.keys = []
    · exact Or.inl noKeys
    refine Or.inr ?_
    cases inMem with
    | false =>
      obtain ⟨s, t, u, out, isFilled, read, _, _, _, readAgain⟩ := output rows (.refl _)
      rw [reading_disk_once noKeys isFilled read] at readAgain
      cases readAgain
    | true => exact ⟨rfl, fun a inA b inB differ => decides_of_output defined noKeys output inA inB differ⟩
  · rintro (noKeys | ⟨rfl, decides⟩)
    · exact orderedOutput_unsorted limit inMem rows noKeys
    · exact orderedOutput_of_decides limit defined decides

/-- Ascending by the first column. The numbers below are written without leading zeros, and compare as their lengths do. -/
def firstColumn : ResultCmp 2 where
  keys := [⟨⟨0, Nat.zero_lt_two⟩, false⟩]
  less x y := if x.length < y.length then .trueValue else .falseValue
  greater x y := if y.length < x.length then .trueValue else .falseValue

theorem firstColumn_defined (rows : List (Row 2)) : firstColumn.Defined rows := by
  constructor
  · intro k _ a _ b _
    simp only [firstColumn]
    split <;> decide
  · exact fun k _ a _ b _ => rfl
  · intro k _ a _ b _
    simp only [firstColumn]
    split <;> split <;> simp
    omega
  · intro k _ a _ b _ c _
    simp only [firstColumn]
    split <;> split <;> split <;> simp
    omega

theorem orderedOutput_of_different_lengths :
    OrderedOutput (2 ^ 30) firstColumn true [fun _ => [50, 50], fun _ => [49]] := by
  refine (orderedOutput_iff _ _ (firstColumn_defined _)).mpr (Or.inr ⟨rfl, ?_⟩)
  have apart : ∀ x y : List UInt8, x.length ≠ y.length → firstColumn.Decides (fun _ => x) (fun _ => y) firstColumn.keys := by
    intro x y differ
    refine Or.inr ⟨fun same => differ (by rw [show x = y from same]), fun notXy notYx => ?_⟩
    simp [ResultCmp.keyBefore, firstColumn] at notXy notYx
    omega
  intro a inA b inB differ
  simp only [mem_cons, not_mem_nil, or_false] at inA inB
  rcases inA with rfl | rfl
  · rcases inB with rfl | rfl
    · exact absurd rfl differ
    · exact apart _ _ (by decide)
  · rcases inB with rfl | rfl
    · exact apart _ _ (by decide)
    · exact absurd rfl differ

/-- Two rows with the same key change places at each `setEnd`, and two runs are merged with the last row first. -/
theorem ties_turn_around :
    ¬ OrderedOutput (2 ^ 30) firstColumn true [fun i => if i = 0 then [49] else [50], fun i => if i = 0 then [49] else [51]] ∧
      ((filled 0 firstColumn false [fun _ => [49], fun _ => [50, 50]]).bind fun s => (s.reading firstColumn).map Prod.fst) =
        some [fun _ => [50, 50], fun _ => [49]] := by
  refine ⟨fun output => ?_, by decide⟩
  refine keys_differ_of_output (firstColumn_defined _) (by decide) output mem_cons_self (mem_cons_of_mem _ mem_cons_self) ?_ ?_
  · decide
  · decide

end Stream

end GStore
