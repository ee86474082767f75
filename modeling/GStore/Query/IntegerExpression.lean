import GStore.Query.TermText

/-! Arithmetic expressions over integer literals: what `doComp` makes of them against their exact value. -/
namespace GStore

open EvalMultitypeValue

variable {V F D : Type}

inductive IntOp where
  | add
  | subtract
  | multiply
  | divide
  deriving DecidableEq

namespace IntOp

/-- The exact result, with a truncated quotient; there is none for a zero divisor. -/
def exact : IntOp → Int → Int → Option Int
  | add, m, n => some (m + n)
  | subtract, m, n => some (m - n)
  | multiply, m, n => some (m * n)
  | divide, m, n => if n = 0 then none else some (m.tdiv n)

def toBinary : IntOp → BinaryOp
  | add => .add
  | subtract => .subtract
  | multiply => .multiply
  | divide => .divide

end IntOp

/-- An expression over literals of type `xsd:integer` with any number of digits. -/
inductive IntExpr where
  | literal (negative : Bool) (digits : Text) (numeral : IsNumeral digits)
  | negate (e : IntExpr)
  | binary (op : IntOp) (left right : IntExpr)

namespace IntExpr

def lexical (negative : Bool) (digits : Text) : Text := if negative then '-' :: digits else digits

def toComp : IntExpr → CompTree V
  | literal negative digits _ => .literal (typed (quote (lexical negative digits)) "integer")
  | negate e => .unary .minus e.toComp
  | binary op left right => .binary op.toBinary left.toComp right.toComp

/-- The exact value; an expression that divides by zero has none. -/
def value : IntExpr → Option Int
  | literal negative digits _ => some (if negative then -(Nat.ofDigitChars 10 digits 0 : Int) else Nat.ofDigitChars 10 digits 0)
  | negate e => e.value.map fun n => -n
  | binary op left right => left.value.bind fun m => right.value.bind fun n => op.exact m n

/-- Every literal and every intermediate result is within `int`, and no divisor is zero. -/
def Fits : IntExpr → Prop
  | literal negative digits numeral => ∃ n, (literal negative digits numeral).value = some n ∧ InInt n
  | negate e => e.Fits ∧ ∃ n, (negate e).value = some n ∧ InInt n
  | binary op left right => left.Fits ∧ right.Fits ∧ ∃ n, (binary op left right).value = some n ∧ InInt n

variable (ctx : EvalContext V F D)

def ExactOrError (e : IntExpr) : Prop :=
  ∃ v, doComp ctx e.toComp [','] = .ok v ∧
    ((v.datatype = .xsdInteger ∧ e.value = some v.intValue) ∨ (v.datatype = .xsdBoolean ∧ v.boolValue = .errorValue))

def Yields (e : IntExpr) : Prop :=
  ∃ v, doComp ctx e.toComp [','] = .ok v ∧ v.datatype = .xsdInteger ∧ e.value = some v.intValue

def Fails (e : IntExpr) : Prop := ∃ f, doComp ctx e.toComp [','] = .error f

variable {ctx : EvalContext V F D}

theorem lexical_plain (negative : Bool) {digits : Text} (numeral : IsNumeral digits) :
    '"' ∉ lexical negative digits ∧ (lexical negative digits).head? ≠ some '^' := by
  have quotes : '"' ∉ digits := fun member => absurd (numeral.2 _ member) (by decide)
  cases negative with
  | true => exact ⟨by simpa [lexical] using quotes, by simp [lexical]⟩
  | false =>
    refine ⟨quotes, fun start => ?_⟩
    exact absurd (numeral.2 _ (List.mem_of_mem_head? start)) (by decide)

theorem strtol_lexical (negative : Bool) {digits : Text} (numeral : IsNumeral digits) :
    strtol (lexical negative digits) = .ok (if negative then -(Nat.ofDigitChars 10 digits 0 : Int) else Nat.ofDigitChars 10 digits 0) := by
  cases negative with
  | true => exact strtol_minus numeral
  | false => exact strtol_numeral numeral

def integerValue (num : Numbers F D) (n : Int) : EvalMultitypeValue F D :=
  deduceTermValue num { EvalMultitypeValue.error num with datatype := .xsdInteger, intValue := n }

def Ends (ctx : EvalContext V F D) (e : IntExpr) : Prop := (e.Fits → e.Yields ctx) ∧ (¬ e.Fits → e.Fails ctx)

theorem ends_of_checked {e : IntExpr} (make : Int → EvalMultitypeValue F D)
    (integer : ∀ n, (make n).datatype = .xsdInteger ∧ (make n).intValue = n)
    (fits : e.Fits ↔ ∃ n, e.value = some n ∧ InInt n)
    (inside : ∀ n, e.value = some n → InInt n → doComp ctx e.toComp [','] = .ok (make n))
    (outside : (∀ n, e.value = some n → ¬ InInt n) → e.Fails ctx) : e.Ends ctx := by
  constructor
  · intro h
    obtain ⟨n, exact', range⟩ := fits.mp h
    exact ⟨make n, inside n exact' range, (integer n).1, exact'.trans (congrArg some (integer n).2.symm)⟩
  · intro large
    exact outside fun n exact' range => large (fits.mpr ⟨n, exact', range⟩)

theorem ends_literal (negative : Bool) (digits : Text) (numeral : IsNumeral digits) :
    (literal negative digits numeral).Ends ctx := by
  have read : doComp ctx (literal negative digits numeral).toComp [','] =
      (stoi (lexical negative digits)).map fun n =>
        { untyped ctx.num (typed (quote (lexical negative digits)) "integer") with datatype := .xsdInteger, intValue := n } := by
    rw [toComp, doComp, ofTerm_typed (lexical_plain negative numeral).1 (lexical_plain negative numeral).2]
    simp [deduceSchemaValue, bare_quote]
  refine ends_of_checked (fun n => { untyped ctx.num (typed (quote (lexical negative digits)) "integer") with
      datatype := .xsdInteger, intValue := n }) (fun n => ⟨rfl, rfl⟩) Iff.rfl ?_ ?_
  · intro n exact' range
    have parsed := strtol_lexical negative numeral
    rw [Option.some.inj exact'] at parsed
    rw [read, stoi, parsed]
    simp [Except.bind, range, Except.map]
  · intro large
    refine ⟨.outOfRange, ?_⟩
    rw [read, stoi, strtol_lexical negative numeral]
    simp [Except.bind, large _ rfl, Except.map]

theorem ends_negate {e : IntExpr} (ih : e.Ends ctx) : (negate e).Ends ctx := by
  by_cases fits : e.Fits
  · obtain ⟨v, read, integer, exact'⟩ := ih.1 fits
    have result : doComp ctx (negate e).toComp [','] = (checkedInt (-v.intValue)).map (integerValue ctx.num) := by
      rw [toComp, doComp, read]
      simp only [Except.bind, UnaryOp.apply, EvalMultitypeValue.negate, integer]
      rfl
    have value' : (negate e).value = some (-v.intValue) := by rw [value, exact', Option.map_some]
    refine ends_of_checked (integerValue ctx.num) (fun n => ⟨rfl, rfl⟩) (and_iff_right fits) ?_ ?_
    · intro n exact'' range
      rw [value', Option.some.injEq] at exact''
      rw [result, exact'', checkedInt, if_pos range]
      rfl
    · intro large
      refine ⟨.overflow, ?_⟩
      rw [result, checkedInt, if_neg (large _ value')]
      rfl
  · obtain ⟨f, read⟩ := ih.2 fits
    refine ⟨fun h => absurd h.1 fits, fun _ => ⟨f, ?_⟩⟩
    rw [toComp, doComp, read]
    rfl

def checkedOp : IntOp → Int → Int → Except Failure Int
  | .add, m, n => checkedInt (m + n)
  | .subtract, m, n => checkedInt (m - n)
  | .multiply, m, n => checkedInt (m * n)
  | .divide, m, n => divideInt m n

theorem checkedOp_ok {op : IntOp} {m n k : Int} (exact' : op.exact m n = some k) (range : InInt k) :
    checkedOp op m n = .ok k := by
  cases op with
  | divide =>
    simp only [IntOp.exact] at exact'
    split at exact'
    · cases exact'
    · rename_i nonzero
      cases exact'
      rw [checkedOp, divideInt, if_neg nonzero, if_pos range]
  | add | subtract | multiply =>
    cases exact'
    exact if_pos range

theorem checkedOp_error {op : IntOp} {m n : Int} (large : ∀ k, op.exact m n = some k → ¬ InInt k) :
    ∃ f, checkedOp op m n = .error f := by
  cases op with
  | divide =>
    by_cases zero : n = 0
    · exact ⟨.trap, if_pos zero⟩
    · refine ⟨.trap, ?_⟩
      rw [checkedOp, divideInt, if_neg zero, if_neg (large _ (if_neg zero))]
  | add | subtract | multiply => exact ⟨.overflow, if_neg (large _ rfl)⟩

theorem arithmetic_integers (num : Numbers F D) (int : Int → Int → Except Failure Int) (flt : F → F → F) (dbl : D → D → D)
    {a b : EvalMultitypeValue F D} (typeA : a.datatype = .xsdInteger) (typeB : b.datatype = .xsdInteger) :
    arithmetic num int flt dbl a b = (int a.intValue b.intValue).map (integerValue num) := by
  have same : getSameNumericType num a b = (a, b) := by simp [getSameNumericType, typeA, typeB, DataType.max]
  rw [arithmetic, if_neg (by simp [typeA, typeB, DataType.isArithmetic]), same]
  simp only [typeA]
  rfl

theorem apply_integers (op : IntOp) (num : Numbers F D) {a b : EvalMultitypeValue F D} (typeA : a.datatype = .xsdInteger)
    (typeB : b.datatype = .xsdInteger) :
    op.toBinary.apply num a b = (checkedOp op a.intValue b.intValue).map (integerValue num) := by
  cases op with
  | add => exact arithmetic_integers num (checkedOp .add) num.flt.add num.dbl.add typeA typeB
  | multiply => exact arithmetic_integers num (checkedOp .multiply) num.flt.mul num.dbl.mul typeA typeB
  | divide => exact arithmetic_integers num (checkedOp .divide) num.flt.div num.dbl.div typeA typeB
  | subtract =>
    rw [IntOp.toBinary, BinaryOp.apply, subtract, if_neg (by simp [typeA])]
    exact arithmetic_integers num (checkedOp .subtract) num.flt.sub num.dbl.sub typeA typeB

theorem ends_binary {op : IntOp} {left right : IntExpr} (ihl : left.Ends ctx) (ihr : right.Ends ctx) :
    (binary op left right).Ends ctx := by
  by_cases fitsL : left.Fits
  · obtain ⟨a, readL, typeA, exactA⟩ := ihl.1 fitsL
    have goesOn : op.toBinary.decided a = false := by
      cases op <;> simp [BinaryOp.decided, typeA, IntOp.toBinary]
    by_cases fitsR : right.Fits
    · obtain ⟨b, readR, typeB, exactB⟩ := ihr.1 fitsR
      have result : doComp ctx (binary op left right).toComp [','] =
          (checkedOp op a.intValue b.intValue).map (integerValue ctx.num) := by
        rw [toComp, doComp, readL, readR]
        simp only [Except.bind, goesOn, Bool.false_eq_true, if_false]
        exact apply_integers op ctx.num typeA typeB
      have value' : (binary op left right).value = op.exact a.intValue b.intValue := by
        rw [value, exactA, exactB, Option.bind_some, Option.bind_some]
      have fits : (binary op left right).Fits ↔ ∃ n, (binary op left right).value = some n ∧ InInt n :=
        ⟨fun h => h.2.2, fun h => ⟨fitsL, fitsR, h⟩⟩
      refine ends_of_checked (integerValue ctx.num) (fun n => ⟨rfl, rfl⟩) fits ?_ ?_
      · intro n exact' range
        rw [value'] at exact'
        rw [result, checkedOp_ok exact' range]
        rfl
      · intro large
        obtain ⟨f, failed⟩ := checkedOp_error fun k exact' => large k (value'.trans exact')
        exact ⟨f, by rw [result, failed]; rfl⟩
    · obtain ⟨f, readR⟩ := ihr.2 fitsR
      refine ⟨fun h => absurd h.2.1 fitsR, fun _ => ⟨f, ?_⟩⟩
      rw [toComp, doComp, readL, readR]
      simp [Except.bind, goesOn]
  · obtain ⟨f, readL⟩ := ihl.2 fitsL
    refine ⟨fun h => absurd h.1 fitsL, fun _ => ⟨f, ?_⟩⟩
    rw [toComp, doComp, readL]
    rfl

theorem ends (ctx : EvalContext V F D) (e : IntExpr) : e.Ends ctx := by
  induction e with
  | literal negative digits numeral => exact ends_literal negative digits numeral
  | negate e ih => exact ends_negate ih
  | binary op left right ihl ihr => exact ends_binary ihl ihr

/-- For every expression: the evaluation ends with the exact integer or the error value exactly if all literals and
intermediate results are within `int` and no divisor is zero. -/
theorem integer_expression_exact_iff (ctx : EvalContext V F D) (e : IntExpr) : e.ExactOrError ctx ↔ e.Fits := by
  obtain ⟨yields, fails⟩ := ends ctx e
  constructor
  · rintro ⟨v, read, -⟩
    by_contra large
    obtain ⟨f, failed⟩ := fails large
    rw [failed] at read
    cases read
  · intro fits
    obtain ⟨v, read, result⟩ := yields fits
    exact ⟨v, read, .inl result⟩

end IntExpr

/-- `1 / 0` traps, `2147483648` is not read, and `2147483647 + 1` is past the range. -/
theorem integer_failures :
    doComp unboundContext (.binary .divide (.literal (typed (quote ['1']) "integer")) (.literal (typed (quote ['0']) "integer")))
        [','] = .error .trap ∧
      doComp unboundContext (.literal (typed (quote "2147483648".toList) "integer")) [','] = .error .outOfRange ∧
      doComp unboundContext (.binary .add (.literal (typed (quote "2147483647".toList) "integer"))
        (.literal (typed (quote ['1']) "integer"))) [','] = .error .overflow :=
  ⟨rfl, rfl, rfl⟩

end GStore
