import GStore.Query.MultitypeValue

/-! Filter expressions: `TempResult::doComp` over the expression tree, and its logical connectives
against the truth tables of SPARQL. -/
namespace GStore

open EvalMultitypeValue List

variable {V F D : Type}

inductive UnaryOp where
  | plus
  | minus
  | not
  deriving DecidableEq

inductive BinaryOp where
  | or
  | and
  | equal
  | notEqual
  | less
  | greater
  | lessEqual
  | greaterEqual
  | add
  | subtract
  | multiply
  | divide
  deriving DecidableEq

/-- `CompTreeNode`; every other `oprt` is the call of a built-in function. -/
inductive CompTree (V : Type) where
  | variable (v : V)
  | literal (term : Text)
  | now
  | unary (op : UnaryOp) (child : CompTree V)
  | binary (op : BinaryOp) (left right : CompTree V)
  | call (oprt : String) (children : List (CompTree V))

abbrev Evaluation (F D : Type) := Text → Except Failure (EvalMultitypeValue F D)

/-- What an expression is evaluated with: the terms of the row (`none` for an unbound variable), the
time, and the built-in functions, which evaluate the children they need. -/
structure EvalContext (V F D : Type) where
  num : Numbers F D
  term : V → Option Text
  now : EvalMultitypeValue F D
  builtin : String → List (CompTree V × Evaluation F D) → Except Failure (EvalMultitypeValue F D)

def UnaryOp.apply (num : Numbers F D) :
    UnaryOp → EvalMultitypeValue F D → Except Failure (EvalMultitypeValue F D)
  | .plus, a => .ok a
  | .minus, a => negate num a
  | .not, a => .ok (a.not num)

def BinaryOp.apply (num : Numbers F D) :
    BinaryOp → EvalMultitypeValue F D → EvalMultitypeValue F D →
    Except Failure (EvalMultitypeValue F D)
  | .or, a, b => .ok (a.or num b)
  | .and, a, b => .ok (a.and num b)
  | .equal, a, b => .ok (EvalMultitypeValue.equal num a b)
  | .notEqual, a, b => .ok (EvalMultitypeValue.notEqual num a b)
  | .less, a, b => .ok (EvalMultitypeValue.less num a b)
  | .greater, a, b => .ok (EvalMultitypeValue.greater num a b)
  | .lessEqual, a, b => .ok (EvalMultitypeValue.lessEqual num a b)
  | .greaterEqual, a, b => .ok (EvalMultitypeValue.greaterEqual num a b)
  | .add, a, b => EvalMultitypeValue.add num a b
  | .subtract, a, b => EvalMultitypeValue.subtract num a b
  | .multiply, a, b => EvalMultitypeValue.multiply num a b
  | .divide, a, b => EvalMultitypeValue.divide num a b

def BinaryOp.decided (op : BinaryOp) (left : EvalMultitypeValue F D) : Bool :=
  if left.datatype = .xsdBoolean then
    (op = .or ∧ left.boolValue = .trueValue) ∨ (op = .and ∧ left.boolValue ≠ .trueValue)
  else op = .and

mutual

def doComp (ctx : EvalContext V F D) : CompTree V → Evaluation F D
  | .variable v, sep =>
    match ctx.term v with
    | none => .ok (error ctx.num)
    | some term => ofTerm ctx.num sep term
  | .literal term, sep => ofTerm ctx.num sep term
  | .now, _ => .ok ctx.now
  | .unary op child, _ => (doComp ctx child [',']).bind (op.apply ctx.num)
  | .binary op left right, _ =>
    (doComp ctx left [',']).bind fun lRes =>
      if op.decided lRes then .ok lRes else (doComp ctx right [',']).bind fun rRes =>
        op.apply ctx.num lRes rRes
  | .call oprt children, _ => ctx.builtin oprt (doCompAll ctx children)

def doCompAll (ctx : EvalContext V F D) : List (CompTree V) → List (CompTree V × Evaluation F D)
  | [] => []
  | child :: children => (child, doComp ctx child) :: doCompAll ctx children

end

inductive LogicTree (V : Type) where
  | leaf (e : CompTree V)
  | not (t : LogicTree V)
  | and (l r : LogicTree V)
  | or (l r : LogicTree V)

namespace LogicTree

def toComp : LogicTree V → CompTree V
  | leaf e => e
  | not t => .unary .not t.toComp
  | and l r => .binary .and l.toComp r.toComp
  | or l r => .binary .or l.toComp r.toComp

def subtrees : LogicTree V → List (LogicTree V)
  | leaf e => [leaf e]
  | not t => not t :: t.subtrees
  | and l r => and l r :: (l.subtrees ++ r.subtrees)
  | or l r => or l r :: (l.subtrees ++ r.subtrees)

def truth (value : CompTree V → EffectiveBooleanValue) : LogicTree V → EffectiveBooleanValue
  | leaf e => value e
  | not t => match t.truth value with
    | .trueValue => .falseValue
    | .falseValue => .trueValue
    | .errorValue => .errorValue
  | and l r => match l.truth value, r.truth value with
    | .falseValue, _ | _, .falseValue => .falseValue
    | .trueValue, .trueValue => .trueValue
    | _, _ => .errorValue
  | or l r => match l.truth value, r.truth value with
    | .trueValue, _ | _, .trueValue => .trueValue
    | .falseValue, .falseValue => .falseValue
    | _, _ => .errorValue

variable (ctx : EvalContext V F D)

def Gives (t : LogicTree V) (b : EffectiveBooleanValue) : Prop :=
  ∃ v, doComp ctx t.toComp [','] = .ok v ∧ v.datatype = .xsdBoolean ∧ v.boolValue = b

def Leaves (value : CompTree V → EffectiveBooleanValue) (t : LogicTree V) : Prop :=
  ∀ e, leaf e ∈ t.subtrees → (leaf e).Gives ctx (value e)

def NoErrorBeforeFalse (value : CompTree V → EffectiveBooleanValue) (t : LogicTree V) : Prop :=
  ∀ l r, and l r ∈ t.subtrees → ¬ (l.truth value = .errorValue ∧ r.truth value = .falseValue)

def Agree (s t : LogicTree V) : Prop := ∀ b, s.Gives ctx b ↔ t.Gives ctx b

structure Laws (ctx : EvalContext V F D) (l r : LogicTree V) : Prop where
  andComm : Agree ctx (and l r) (and r l)
  orComm : Agree ctx (or l r) (or r l)
  notAnd : Agree ctx (not (and l r)) (or (not l) (not r))
  notOr : Agree ctx (not (or l r)) (and (not l) (not r))

def evaluated (value : CompTree V → EffectiveBooleanValue) : LogicTree V → EffectiveBooleanValue
  | leaf e => value e
  | not t => (t.evaluated value).not
  | and l r => if l.evaluated value = .trueValue then r.evaluated value else l.evaluated value
  | or l r => (l.evaluated value).or (r.evaluated value)

variable {ctx : EvalContext V F D} {value : CompTree V → EffectiveBooleanValue}
    {l r s t : LogicTree V}

theorem mem_subtrees_self (t : LogicTree V) : t ∈ t.subtrees := by
  cases t <;> exact mem_cons_self

theorem mem_subtrees_trans (inner : s ∈ l.subtrees) (outer : l ∈ t.subtrees) : s ∈ t.subtrees := by
  induction t with
  | leaf e =>
    obtain rfl := mem_singleton.mp outer
    exact inner
  | not t ih =>
    rcases mem_cons.mp outer with rfl | below
    · exact inner
    · exact mem_cons_of_mem _ (ih below)
  | and l r ihl ihr | or l r ihl ihr =>
    rcases mem_cons.mp outer with rfl | below
    · exact inner
    · refine mem_cons_of_mem _ (mem_append.mpr ?_)
      exact (mem_append.mp below).imp ihl ihr

theorem mem_and_left : l ∈ (and l r).subtrees :=
  mem_cons_of_mem _ (mem_append_left _ l.mem_subtrees_self)

theorem mem_and_right : r ∈ (and l r).subtrees :=
  mem_cons_of_mem _ (mem_append_right _ r.mem_subtrees_self)

theorem Leaves.sub (leaves : t.Leaves ctx value) (below : s ∈ t.subtrees) : s.Leaves ctx value :=
  fun e there => leaves e (mem_subtrees_trans there below)

theorem Gives.unique {b b' : EffectiveBooleanValue} (gives : t.Gives ctx b)
    (gives' : t.Gives ctx b') : b = b' := by
  obtain ⟨v, result, _, rfl⟩ := gives
  obtain ⟨v', result', _, rfl⟩ := gives'
  rw [result, Except.ok.injEq] at result'
  rw [result']

theorem truth_datatype (num : Numbers F D) (b : EffectiveBooleanValue) :
    (EvalMultitypeValue.truth num b).datatype = .xsdBoolean ∧
    (EvalMultitypeValue.truth num b).boolValue = b := by
  cases b <;> exact ⟨rfl, rfl⟩

theorem Gives.not {b : EffectiveBooleanValue} (gives : t.Gives ctx b) : t.not.Gives ctx b.not := by
  obtain ⟨v, result, boolean, rfl⟩ := gives
  refine ⟨v.not ctx.num, ?_, ?_⟩
  · rw [toComp, doComp, result]
    rfl
  · rw [EvalMultitypeValue.not, if_neg (not_not.mpr boolean)]
    exact truth_datatype ctx.num _

section

variable {a b : EffectiveBooleanValue} (left : l.Gives ctx a) (right : r.Gives ctx b)
include left right

theorem Gives.or : (l.or r).Gives ctx (a.or b) := by
  obtain ⟨v, result, boolean, rfl⟩ := left
  obtain ⟨w, result', boolean', rfl⟩ := right
  by_cases decided : v.boolValue = .trueValue
  · refine ⟨v, ?_, boolean, ?_⟩
    · rw [toComp, doComp, result]
      simp [Except.bind, BinaryOp.decided, boolean, decided]
    · rw [decided]
      cases w.boolValue <;> rfl
  · refine ⟨v.or ctx.num w, ?_, ?_⟩
    · rw [toComp, doComp, result, result']
      simp [Except.bind, BinaryOp.decided, boolean, decided, BinaryOp.apply]
    · rw [EvalMultitypeValue.or, if_neg (fun both => both.1 boolean)]
      exact truth_datatype ctx.num _

theorem Gives.and : (l.and r).Gives ctx (if a = .trueValue then b else a) := by
  obtain ⟨v, result, boolean, rfl⟩ := left
  obtain ⟨w, result', boolean', rfl⟩ := right
  by_cases goesOn : v.boolValue = .trueValue
  · refine ⟨v.and ctx.num w, ?_, ?_⟩
    · rw [toComp, doComp, result, result']
      simp [Except.bind, BinaryOp.decided, boolean, goesOn, BinaryOp.apply]
    · rw [EvalMultitypeValue.and, if_neg (fun both => both.1 boolean), if_pos goesOn, goesOn]
      obtain ⟨datatype, bool⟩ :=
        truth_datatype ctx.num (EffectiveBooleanValue.trueValue.and w.boolValue)
      refine ⟨datatype, bool.trans ?_⟩
      cases w.boolValue <;> rfl
  · refine ⟨v, ?_, boolean, by rw [if_neg goesOn]⟩
    rw [toComp, doComp, result]
    simp [Except.bind, BinaryOp.decided, boolean, goesOn]

end

theorem gives_evaluated (leaves : t.Leaves ctx value) : t.Gives ctx (t.evaluated value) := by
  induction t with
  | leaf e => exact leaves e mem_cons_self
  | not t ih => exact (ih fun e there => leaves e (mem_cons_of_mem _ there)).not
  | and l r ihl ihr =>
    refine Gives.and (ihl fun e there => leaves e ?_) (ihr fun e there => leaves e ?_)
    · exact mem_cons_of_mem _ (mem_append_left _ there)
    · exact mem_cons_of_mem _ (mem_append_right _ there)
  | or l r ihl ihr =>
    refine Gives.or (ihl fun e there => leaves e ?_) (ihr fun e there => leaves e ?_)
    · exact mem_cons_of_mem _ (mem_append_left _ there)
    · exact mem_cons_of_mem _ (mem_append_right _ there)

theorem gives_iff (leaves : t.Leaves ctx value) {b : EffectiveBooleanValue} :
    t.Gives ctx b ↔ t.evaluated value = b :=
  ⟨fun gives => (gives_evaluated leaves).unique gives, fun same => same ▸ gives_evaluated leaves⟩

section

variable (left : l.evaluated value = l.truth value) (right : r.evaluated value = r.truth value)
include left right

theorem evaluated_and_iff :
    (and l r).evaluated value = (and l r).truth value ↔
    ¬ (l.truth value = .errorValue ∧ r.truth value = .falseValue) := by
  rw [evaluated, truth, left, right]
  cases l.truth value <;> cases r.truth value <;> decide

theorem evaluated_or : (or l r).evaluated value = (or l r).truth value := by
  rw [evaluated, truth, left, right]
  cases l.truth value <;> cases r.truth value <;> rfl

end

theorem evaluated_not (exact : t.evaluated value = t.truth value) :
    (not t).evaluated value = (not t).truth value := by
  rw [evaluated, truth, exact]
  cases t.truth value <;> rfl

theorem evaluated_eq_truth (safe : t.NoErrorBeforeFalse value) :
    t.evaluated value = t.truth value := by
  induction t with
  | leaf e => rfl
  | not t ih => exact evaluated_not (ih fun l r there => safe l r (mem_cons_of_mem _ there))
  | and l r ihl ihr =>
    have left := ihl fun l' r' there => safe l' r' (mem_cons_of_mem _ (mem_append_left _ there))
    have right := ihr fun l' r' there => safe l' r' (mem_cons_of_mem _ (mem_append_right _ there))
    exact (evaluated_and_iff left right).mpr (safe l r mem_cons_self)
  | or l r ihl ihr =>
    have left := ihl fun l' r' there => safe l' r' (mem_cons_of_mem _ (mem_append_left _ there))
    have right := ihr fun l' r' there => safe l' r' (mem_cons_of_mem _ (mem_append_right _ there))
    exact evaluated_or left right

theorem evaluated_subtrees_iff :
    (∀ s ∈ t.subtrees, s.evaluated value = s.truth value) ↔ t.NoErrorBeforeFalse value := by
  constructor
  · intro exact' l r there
    have left := exact' l (mem_subtrees_trans mem_and_left there)
    have right := exact' r (mem_subtrees_trans mem_and_right there)
    exact (evaluated_and_iff left right).mp (exact' _ there)
  · intro safe s below
    exact evaluated_eq_truth fun l r there => safe l r (mem_subtrees_trans there below)

theorem agree_iff (leavesS : s.Leaves ctx value) (leavesT : t.Leaves ctx value) :
    Agree ctx s t ↔ s.evaluated value = t.evaluated value := by
  constructor
  · intro agree
    exact ((gives_iff leavesT).mp ((agree _).mp (gives_evaluated leavesS))).symm
  · intro same b
    rw [gives_iff leavesS, gives_iff leavesT, same]

theorem Leaves.not (leaves : t.Leaves ctx value) : t.not.Leaves ctx value :=
  fun e there => leaves e (mem_of_ne_of_mem (by simp) there)

theorem Leaves.and (left : l.Leaves ctx value) (right : r.Leaves ctx value) :
    (l.and r).Leaves ctx value :=
  fun e there => (mem_append.mp (mem_of_ne_of_mem (by simp) there)).elim (left e) (right e)

theorem Leaves.or (left : l.Leaves ctx value) (right : r.Leaves ctx value) :
    (l.or r).Leaves ctx value :=
  fun e there => (mem_append.mp (mem_of_ne_of_mem (by simp) there)).elim (left e) (right e)

theorem laws_iff (leavesL : l.Leaves ctx value) (leavesR : r.Leaves ctx value)
    (left : l.evaluated value = l.truth value) (right : r.evaluated value = r.truth value) :
    Laws ctx l r ↔ ¬ (l.truth value = .errorValue ∧ r.truth value ≠ .errorValue) ∧
      ¬ (r.truth value = .errorValue ∧ l.truth value = .falseValue) := by
  have andComm := agree_iff (leavesL.and leavesR) (leavesR.and leavesL)
  have orComm := agree_iff (leavesL.or leavesR) (leavesR.or leavesL)
  have notAnd := agree_iff (leavesL.and leavesR).not (leavesL.not.or leavesR.not)
  have notOr := agree_iff (leavesL.or leavesR).not (leavesL.not.and leavesR.not)
  simp only [evaluated, left, right] at andComm orComm notAnd notOr
  have fields : Laws ctx l r ↔ Agree ctx (and l r) (and r l) ∧ Agree ctx (or l r) (or r l) ∧
      Agree ctx (not (and l r)) (or (not l) (not r)) ∧ Agree ctx (not (or l r))
      (and (not l) (not r)) :=
    ⟨fun laws => ⟨laws.1, laws.2, laws.3, laws.4⟩,
      fun laws => ⟨laws.1, laws.2.1, laws.2.2.1, laws.2.2.2⟩⟩
  rw [fields, andComm, orComm, notAnd, notOr]
  cases l.truth value <;> cases r.truth value <;> decide

/-- For every tree of connectives over leaves that are true, false or an error: the tree and its
subtrees get the values of the truth tables exactly if no conjunction has an error on the left and a
false operand on the right, and with them the laws of every two subtrees exactly if no subtree is an
error or all are. -/
theorem connectives_follow_tables_iff (ctx : EvalContext V F D)
    (value : CompTree V → EffectiveBooleanValue)
    (t : LogicTree V) (leaves : t.Leaves ctx value) :
    ((∀ s ∈ t.subtrees, s.Gives ctx (s.truth value)) ↔ t.NoErrorBeforeFalse value) ∧
    ((∀ s ∈ t.subtrees, s.Gives ctx (s.truth value)) ∧
      (∀ l ∈ t.subtrees, ∀ r ∈ t.subtrees, Laws ctx l r) ↔
      (∀ s ∈ t.subtrees, s.truth value ≠ .errorValue) ∨
      ∀ s ∈ t.subtrees, s.truth value = .errorValue) := by
  have given : (∀ s ∈ t.subtrees, s.Gives ctx (s.truth value)) ↔
      ∀ s ∈ t.subtrees, s.evaluated value = s.truth value :=
    forall₂_congr fun s below => gives_iff (leaves.sub below)
  rw [given, evaluated_subtrees_iff]
  refine ⟨Iff.rfl, ?_, fun uniform => ?_⟩
  · rintro ⟨safe, laws⟩
    have exact' := evaluated_subtrees_iff.mpr safe
    by_contra mixed
    push Not at mixed
    obtain ⟨⟨l, below, isError⟩, r, below', isValue⟩ := mixed
    have law := (laws_iff (leaves.sub below) (leaves.sub below') (exact' l below)
        (exact' r below')).mp (laws l below r below')
    exact law.1 ⟨isError, isValue⟩
  · have safe : t.NoErrorBeforeFalse value := by
      rintro l r there ⟨isError, isFalse⟩
      rcases uniform with none' | all
      · exact none' l (mem_subtrees_trans mem_and_left there) isError
      · have same := all r (mem_subtrees_trans mem_and_right there)
        rw [isFalse] at same
        cases same
    have exact' := evaluated_subtrees_iff.mpr safe
    refine ⟨safe, fun l below r below' => ?_⟩
    refine (laws_iff (leaves.sub below) (leaves.sub below') (exact' l below) (exact' r below')).mpr
      ?_
    rcases uniform with none' | all
    · exact ⟨fun clash => none' l below clash.1, fun clash => none' r below' clash.1⟩
    · refine ⟨fun clash => clash.2 (all r below'), fun clash => ?_⟩
      rw [all l below] at clash
      cases clash.2

end LogicTree

def wholeFormat : FloatFormat Int where
  ofInt := id
  parse := strtol
  lt := fun x y => x < y
  le := fun x y => x ≤ y
  eq := fun x y => x = y
  neg := fun x => -x
  add := fun x y => x + y
  sub := fun x y => x - y
  mul := fun x y => x * y
  div := fun x y => x.tdiv y
  toText := decimal
  print := decimal

def wholeNumbers : Numbers Int Int :=
  ⟨wholeFormat, wholeFormat, id, id, fun x y => List.zipWith (· - ·) x y⟩

def unboundContext : EvalContext Unit Int Int :=
  ⟨wholeNumbers, fun _ => none, EvalMultitypeValue.error wholeNumbers,
      fun _ _ => .error .invalidArgument⟩

def falseTerm : Text := typed "\"false\"".toList "boolean"

def unboundValue : CompTree Unit → EffectiveBooleanValue
  | .literal _ => .falseValue
  | _ => .errorValue

theorem unbound_gives : (LogicTree.leaf (.variable ())).Gives unboundContext .errorValue :=
  ⟨_, rfl, rfl, rfl⟩

theorem falseTerm_gives : (LogicTree.leaf (.literal falseTerm)).Gives unboundContext .falseValue :=
  ⟨_, rfl, rfl, rfl⟩

theorem false_and_unbound_follows_tables :
    ((LogicTree.leaf (.literal falseTerm)).and (.leaf (.variable ()))).Gives unboundContext
    .falseValue := by
  have leaves : ((LogicTree.leaf (.literal falseTerm)).and (.leaf (.variable ()))).Leaves
      unboundContext unboundValue := by
    intro e there
    simp only [LogicTree.subtrees, mem_cons, mem_append, reduceCtorEq, LogicTree.leaf.injEq,
        not_mem_nil,
      or_false, false_or] at there
    rcases there with rfl | rfl
    · exact falseTerm_gives
    · exact unbound_gives
  refine (LogicTree.connectives_follow_tables_iff unboundContext unboundValue _ leaves).1.mpr ?_ _
    mem_cons_self
  intro l r there
  simp only [LogicTree.subtrees, mem_cons, mem_append, reduceCtorEq, LogicTree.and.injEq,
      not_mem_nil,
    or_false] at there
  obtain ⟨rfl, rfl⟩ := there
  decide

/-- An error on the left of a conjunction is returned although the right operand is false. -/
theorem unbound_and_false_is_error :
    ((LogicTree.leaf (.variable ())).and (.leaf (.literal falseTerm))).Gives unboundContext
    .errorValue ∧
      ((LogicTree.leaf (.variable ())).and (.leaf (.literal falseTerm))).truth unboundValue =
      .falseValue :=
  ⟨⟨_, rfl, rfl, rfl⟩, rfl⟩

end GStore
