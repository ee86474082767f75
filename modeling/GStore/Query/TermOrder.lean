import GStore.Query.Expression

/-! The four order comparisons of terms against each other: each is a chain of guards of its own. -/
namespace GStore

open EvalMultitypeValue

variable {F D : Type}

/-- The types of the terms that are compared: integers, longs, literals with and without a language
tag, strings, booleans and dates. -/
def DataType.Compared (t : DataType) : Prop :=
  t = .xsdInteger ∨ t = .xsdLong ∨ t = .literal ∨ t = .xsdString ∨ t = .xsdBoolean ∨
    t = .xsdDatetime

def IsLiteral (t : Text) : Prop := t.head? = some '"' ∧ find datatypeMark t = none

def EndsQuoted (t : Text) : Prop := 2 ≤ t.length ∧ t.getLast? = some '"'

variable (num : Numbers F D)

def Reads (sep t : Text) : Prop := ∃ v, ofTerm num sep t = .ok v

def ComparesCoherently (sep a b : Text) : Prop :=
  ∃ x y, ofTerm num sep a = .ok x ∧ ofTerm num sep b = .ok y ∧
    (less num x y).boolValue = (greater num y x).boolValue ∧
    (lessEqual num x y).boolValue = (greaterEqual num y x).boolValue ∧
    ((less num x y).boolValue ≠ .errorValue →
      (greaterEqual num x y).boolValue = (less num x y).boolValue.not)

namespace EvalMultitypeValue

variable (num : Numbers F D)

theorem boolValue_truth (b : EffectiveBooleanValue) : (truth num b).boolValue = b := by
  cases b <;> rfl

theorem max_comm (s t : DataType) : s.max t = t.max s := by
  cases s <;> cases t <;> rfl

variable (a b : EvalMultitypeValue F D)

theorem getSameNumericType_swap :
    getSameNumericType num b a = (getSameNumericType num a b).swap := by
  unfold getSameNumericType
  rw [max_comm]
  rfl

variable (op : Comparison F D)

theorem compareNumbers_swap (a b : EvalMultitypeValue F D) :
    compareNumbers num op.swap b a = compareNumbers num op a b := by
  unfold compareNumbers
  rw [getSameNumericType_swap]
  obtain ⟨⟨x, y⟩, same⟩ : ∃ p, getSameNumericType num a b = p := ⟨_, rfl⟩
  rw [same]
  simp only [Prod.swap]
  cases x.datatype <;> cases y.datatype <;> rfl

theorem compareWith_swap (b : EffectiveBooleanValue) (op : Bool → Bool → Bool)
    (a : EffectiveBooleanValue) :
    b.compareWith (fun x y => op y x) a = a.compareWith op b := by
  cases a <;> cases b <;> rfl

theorem boolValue_compareWith
    (literals : EvalMultitypeValue F D → EvalMultitypeValue F D → Bool)
    (a b : EvalMultitypeValue F D) :
    (compareWith num op literals a b).boolValue =
      if a.datatype = .xsdBoolean ∧
        b.datatype = .xsdBoolean then a.boolValue.compareWith op.bool b.boolValue
      else if a.datatype.isNumeric ∧ b.datatype.isNumeric then compareNumbers num op a b
      else if literals a b then .ofBool (op.str a.strValue b.strValue)
      else if a.datatype = .xsdString ∧ b.datatype = .xsdString then .ofBool
        (op.str a.strValue b.strValue)
      else if a.datatype = .xsdDatetime ∧ b.datatype = .xsdDatetime then .ofBool
        (op.date a.dtValue b.dtValue)
      else if a.datatype = .iri ∧ b.datatype = .iri then .ofBool
          (op.str a.strValue b.strValue) else .errorValue :=
  boolValue_truth num _

theorem bothSimple_comm : bothSimple b a = bothSimple a b := by
  unfold bothSimple
  rw [decide_eq_decide]
  exact and_comm

theorem boolValue_compareWith_swap (a b : EvalMultitypeValue F D) :
    (compareWith num op.swap bothSimple b a).boolValue =
    (compareWith num op bothSimple a b).boolValue := by
  rw [boolValue_compareWith, boolValue_compareWith, compareNumbers_swap, bothSimple_comm]
  have booleans : b.boolValue.compareWith op.swap.bool a.boolValue =
      a.boolValue.compareWith op.bool b.boolValue :=
    compareWith_swap _ _ _
  rw [booleans]
  simp [Comparison.swap, and_comm]

theorem less_bothSimple_iff :
    (less num a b).boolValue = (compareWith num (lessOp num) bothSimple a b).boolValue ↔
      (bothLiterals a b → bothSimple a b) := by
  have simple : bothSimple a b → bothLiterals a b := by
    simp only [bothSimple, bothLiterals, isSimpleLiteral, decide_eq_true_eq]
    exact fun both => ⟨both.1.1, both.2.1⟩
  by_cases literals : bothLiterals a b = true
  · by_cases plain : bothSimple a b = true
    · simp only [less, boolValue_compareWith, literals, plain]
      simp
    · have types : a.datatype = .literal ∧
        b.datatype = .literal := by simpa [bothLiterals] using literals
      have errors : (compareWith num (lessOp num) bothSimple a b).boolValue = .errorValue := by
        simp [boolValue_compareWith, plain, types.1, types.2, DataType.isNumeric, DataType.rank]
      have value : (less num a b).boolValue = .ofBool ((lessOp num).str a.strValue b.strValue) := by
        simp [less, boolValue_compareWith, literals, types.1, types.2, DataType.isNumeric,
            DataType.rank]
      rw [errors, value]
      refine ⟨fun same => absurd same ?_, fun plain' => absurd (plain' literals) plain⟩
      cases (lessOp num).str a.strValue b.strValue <;> decide
  · have plain : bothSimple a b = false := Bool.eq_false_iff.mpr fun h => literals (simple h)
    simp only [less, boolValue_compareWith, Bool.eq_false_iff.mpr literals, plain]
    simp

theorem compareWith_not (a b : EffectiveBooleanValue) (num : Numbers F D) :
    a.compareWith (lessEqualOp num).swap.bool b = (a.compareWith (lessOp num).bool b).not := by
  cases a <;> cases b <;> rfl

theorem ofBool_not (x y : Bool) (negated : x = !y) :
    EffectiveBooleanValue.ofBool x = (EffectiveBooleanValue.ofBool y).not := by
  subst negated
  cases y <;> rfl

theorem str_not (s t : Text) : (lessEqualOp num).swap.str s t = !(lessOp num).str s t := by
  rw [Comparison.swap, lessEqualOp, lessOp, ← decide_not, decide_eq_decide, not_lt]

theorem int_not (m n : Int) : (lessEqualOp num).swap.int m n = !(lessOp num).int m n := by
  rw [Comparison.swap, lessEqualOp, lessOp, ← decide_not, decide_eq_decide, not_lt]

theorem compareNumbers_not {a b : EvalMultitypeValue F D}
    (typeA : a.datatype = .xsdInteger ∨ a.datatype = .xsdLong)
    (typeB : b.datatype = .xsdInteger ∨ b.datatype = .xsdLong) :
    compareNumbers num (lessEqualOp num).swap a b = (compareNumbers num (lessOp num) a b).not := by
  rcases typeA with typeA | typeA <;> rcases typeB with typeB | typeB <;>
    simpa [compareNumbers, getSameNumericType, typeA, typeB, DataType.max, DataType.rank,
        convert2Type] using
      ofBool_not _ _ (int_not num _ _)

theorem DataType.Compared.integers {t : DataType} (compared : t.Compared) (numeric : t.isNumeric) :
    t = .xsdInteger ∨ t = .xsdLong := by
  rcases compared with rfl | rfl | rfl | rfl | rfl | rfl <;> simp_all
    [DataType.isNumeric, DataType.rank]

theorem greaterEqual_not {a b : EvalMultitypeValue F D} (comparedA : a.datatype.Compared)
    (comparedB : b.datatype.Compared) :
    (greaterEqual num a b).boolValue =
    (compareWith num (lessOp num) bothSimple a b).boolValue.not := by
  rw [greaterEqual, boolValue_compareWith, boolValue_compareWith]
  split
  · exact compareWith_not _ _ num
  · split
    · rename_i numeric
      exact compareNumbers_not num (DataType.Compared.integers comparedA numeric.1)
        (DataType.Compared.integers comparedB numeric.2)
    · split
      · exact ofBool_not _ _ (str_not num _ _)
      · split
        · exact ofBool_not _ _ (str_not num _ _)
        · split
          · exact ofBool_not _ _ rfl
          · split
            · exact ofBool_not _ _ (str_not num _ _)
            · rfl

theorem map_ok {α β : Type} {result : Except Failure α} {f : α → β} {y : β}
    (mapped : result.map f = .ok y) :
    ∃ x, result = .ok x ∧ f x = y := by
  cases result with
  | error e => cases mapped
  | ok x => exact ⟨x, rfl, Except.ok.inj mapped⟩

variable {num : Numbers F D}

theorem deduceSchemaValue_datatype {sep type content : Text} {v w : EvalMultitypeValue F D}
    (read : deduceSchemaValue num sep v type content = .ok w) (before : v.datatype ≠ .literal) :
    w.datatype ≠ .literal := by
  unfold deduceSchemaValue at read
  dsimp only at read
  split_ifs at read <;> first
    | (obtain ⟨x, -, rfl⟩ := map_ok read; simp)
    | (cases read; simp_all)

variable {sep t : Text} {v : EvalMultitypeValue F D} (read : ofTerm num sep t = .ok v)
include read

theorem ofTerm_literal : (v.datatype = .literal ↔ IsLiteral t) ∧
    (IsLiteral t → v.strValue = t) := by
  unfold ofTerm deduceTypeValue at read
  dsimp only at read
  split at read
  · cases read
    exact ⟨⟨fun h => (by cases h), fun h => (by cases h.1)⟩, fun h => (by cases h.1)⟩
  · split at read
    · rename_i absent
      cases read
      exact ⟨⟨fun _ => ⟨rfl, absent⟩, fun _ => rfl⟩, fun _ => rfl⟩
    · rename_i found
      have typed' : ¬ IsLiteral _ := fun literal => by
        have absent := literal.2
        rw [found] at absent
        cases absent
      have other : v.datatype ≠ .literal := by
        split_ifs at read
        · cases read
          simp
        · exact deduceSchemaValue_datatype read (by simp)
      exact ⟨⟨fun h => absurd h other, fun h => absurd h typed'⟩, fun h => absurd h typed'⟩
  · rename_i notIri notQuote
    cases read
    have other : ¬ IsLiteral _ := fun literal => by
      obtain ⟨rest, shape⟩ := List.head?_eq_some_iff.mp literal.1
      exact notQuote rest shape
    exact ⟨⟨fun h => (by cases h), fun h => absurd h other⟩, fun h => absurd h other⟩

theorem ofTerm_simple : v.isSimpleLiteral = true ↔ IsLiteral t ∧ EndsQuoted t := by
  obtain ⟨literal, text⟩ := ofTerm_literal read
  simp only [isSimpleLiteral, decide_eq_true_eq, literal, EndsQuoted]
  refine and_congr_right fun isLiteral => ?_
  rw [text isLiteral]
  exact ⟨fun h => ⟨h.1, h.2.2⟩, fun h => ⟨h.1, isLiteral.1, h.2⟩⟩

end EvalMultitypeValue

/-- For any two terms that are read as integers, longs, literals, strings, booleans or dates: the
comparisons fit together exactly if neither term makes the reading throw and, of two literals, none
has a language tag. -/
theorem comparisons_coherent_iff (num : Numbers F D) (sep a b : Text)
    (comparedA : ∀ v, ofTerm num sep a = .ok v → v.datatype.Compared)
    (comparedB : ∀ v, ofTerm num sep b = .ok v → v.datatype.Compared) :
    ComparesCoherently num sep a b ↔ Reads num sep a ∧ Reads num sep b ∧
      (IsLiteral a → IsLiteral b → EndsQuoted a ∧ EndsQuoted b) := by
  have guards : ∀ x y, ofTerm num sep a = .ok x → ofTerm num sep b = .ok y →
      ((less num x y).boolValue = (greater num y x).boolValue ↔
        (IsLiteral a → IsLiteral b → EndsQuoted a ∧ EndsQuoted b)) := by
    intro x y readA readB
    rw [greater, boolValue_compareWith_swap, less_bothSimple_iff]
    simp only [bothLiterals, bothSimple, decide_eq_true_eq, ofTerm_simple readA,
        ofTerm_simple readB,
      (ofTerm_literal readA).1, (ofTerm_literal readB).1]
    exact ⟨fun h la lb => ⟨(h ⟨la, lb⟩).1.2, (h ⟨la, lb⟩).2.2⟩,
        fun h both => ⟨⟨both.1, (h both.1 both.2).1⟩, both.2, (h both.1 both.2).2⟩⟩
  constructor
  · rintro ⟨x, y, readA, readB, swapped, -, -⟩
    exact ⟨⟨x, readA⟩, ⟨y, readB⟩, (guards x y readA readB).mp swapped⟩
  · rintro ⟨⟨x, readA⟩, ⟨y, readB⟩, plain⟩
    have swapped := (guards x y readA readB).mpr plain
    refine ⟨x, y, readA, readB, swapped, ?_, fun _ => ?_⟩
    · rw [lessEqual, greaterEqual, boolValue_compareWith_swap]
    · rw [greaterEqual_not num (comparedA x readA) (comparedB y readB), swapped, greater,
          boolValue_compareWith_swap]

/-- `"7"^^xsd:integer` and `"9"^^xsd:long`. -/
theorem seven_nine_coherent :
    ComparesCoherently wholeNumbers [','] (typed (quote ['7']) "integer")
    (typed (quote ['9']) "long") := by
  refine (comparisons_coherent_iff wholeNumbers [','] _ _ ?_ ?_).mpr ⟨⟨_, rfl⟩, ⟨_, rfl⟩, ?_⟩
  · rintro v read
    cases read
    exact .inl rfl
  · rintro v read
    cases read
    exact .inr (.inl rfl)
  · intro literal
    exact absurd literal.2 (by decide)

/-- `"a"@en < "b"@en` is true, but `"b"@en > "a"@en` is an error. -/
theorem tagged_less_true_greater_error :
    ∃ x y, ofTerm wholeNumbers [','] "\"a\"@en".toList = .ok x ∧
    ofTerm wholeNumbers [','] "\"b\"@en".toList = .ok y ∧
      (less wholeNumbers x y).boolValue = .trueValue ∧
      (greater wholeNumbers y x).boolValue = .errorValue :=
  ⟨_, _, rfl, rfl, by decide, by decide⟩

end GStore
