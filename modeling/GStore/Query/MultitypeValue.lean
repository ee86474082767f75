import Mathlib.Data.Char
import Mathlib.Data.List.Lex
import Mathlib.Tactic

/-! `EvalMultitypeValue`: a term of a filter expression with its datatype and value, the operators on such values, and the
translation between terms and values. The number formats of the C++ library are parameters. -/
namespace GStore

abbrev Text := List Char

/-- What stops an evaluation: an exception of `stoi` and its kin, a trap of the integer division, an overflow of `int`. -/
inductive Failure where
  | invalidArgument
  | outOfRange
  | trap
  | overflow
  deriving DecidableEq, Repr

inductive EffectiveBooleanValue where
  | trueValue
  | falseValue
  | errorValue
  deriving DecidableEq, Repr

namespace EffectiveBooleanValue

def ofBool (b : Bool) : EffectiveBooleanValue := if b then trueValue else falseValue

def not : EffectiveBooleanValue → EffectiveBooleanValue
  | trueValue => falseValue
  | falseValue => trueValue
  | errorValue => errorValue

def or : EffectiveBooleanValue → EffectiveBooleanValue → EffectiveBooleanValue
  | trueValue, trueValue => trueValue
  | trueValue, falseValue => trueValue
  | falseValue, trueValue => trueValue
  | falseValue, falseValue => falseValue
  | trueValue, errorValue => trueValue
  | errorValue, trueValue => trueValue
  | falseValue, errorValue => errorValue
  | errorValue, falseValue => errorValue
  | errorValue, errorValue => errorValue

def and : EffectiveBooleanValue → EffectiveBooleanValue → EffectiveBooleanValue
  | trueValue, trueValue => trueValue
  | trueValue, falseValue => falseValue
  | falseValue, trueValue => falseValue
  | falseValue, falseValue => falseValue
  | trueValue, errorValue => errorValue
  | errorValue, trueValue => errorValue
  | falseValue, errorValue => falseValue
  | errorValue, falseValue => falseValue
  | errorValue, errorValue => errorValue

def compareWith (op : Bool → Bool → Bool) : EffectiveBooleanValue → EffectiveBooleanValue → EffectiveBooleanValue
  | trueValue, trueValue => ofBool (op true true)
  | trueValue, falseValue => ofBool (op true false)
  | falseValue, trueValue => ofBool (op false true)
  | falseValue, falseValue => ofBool (op false false)
  | _, _ => errorValue

end EffectiveBooleanValue

/-- In the order of the enumeration, which `getSameNumericType` uses. -/
inductive DataType where
  | rdfTerm
  | iri
  | literal
  | xsdString
  | xsdList
  | xsdBoolean
  | xsdInteger
  | xsdDecimal
  | xsdFloat
  | xsdLong
  | xsdDouble
  | xsdDatetime
  deriving DecidableEq, Repr

namespace DataType

def rank : DataType → Nat
  | rdfTerm => 0
  | iri => 1
  | literal => 2
  | xsdString => 3
  | xsdList => 4
  | xsdBoolean => 5
  | xsdInteger => 6
  | xsdDecimal => 7
  | xsdFloat => 8
  | xsdLong => 9
  | xsdDouble => 10
  | xsdDatetime => 11

def max (a b : DataType) : DataType := if a.rank < b.rank then b else a

def isNumeric (t : DataType) : Bool := xsdInteger.rank ≤ t.rank ∧ t.rank ≤ xsdDouble.rank

/-- The types the arithmetic operators take; `xsd_long` is not among them. -/
def isArithmetic (t : DataType) : Bool := t = xsdInteger ∨ t = xsdDecimal ∨ t = xsdFloat ∨ t = xsdDouble

end DataType

/-- A floating point format. `gt`, `ge` and `ne` are the swapped and negated ones also for NaN. -/
structure FloatFormat (F : Type) where
  ofInt : Int → F
  parse : Text → Except Failure F
  lt : F → F → Bool
  le : F → F → Bool
  eq : F → F → Bool
  neg : F → F
  add : F → F → F
  sub : F → F → F
  mul : F → F → F
  div : F → F → F
  /-- `to_string`. -/
  toText : F → Text
  /-- `operator <<` of a stream. -/
  print : F → Text

/-- `float`, `double` and what the operators take from `<ctime>` and `<chrono>`. -/
structure Numbers (F D : Type) where
  flt : FloatFormat F
  dbl : FloatFormat D
  toDouble : F → D
  toLong : F → Int
  /-- Days, hours, minutes and seconds between two points in time. -/
  dateDifference : List F → List F → List F

section Texts

def find (pat : Text) : Text → Option Nat
  | [] => if pat = [] then some 0 else none
  | c :: t => if pat.isPrefixOf (c :: t) then some 0 else (find pat t).map (· + 1)

variable (t : Text)

def substr (pos len : Nat) : Text := (t.drop pos).take len

def isSpace (c : Char) : Bool := c = ' ' ∨ ('\t' ≤ c ∧ c ≤ '\r')

/-- The number `strtol` reads: blanks, a sign and digits, and whatever follows them. -/
def strtol : Except Failure Int :=
  let t := t.dropWhile isSpace
  let (negative, t) := match t with
    | '-' :: t => (true, t)
    | '+' :: t => (false, t)
    | t => (false, t)
  let digits := t.takeWhile Char.isDigit
  if digits = [] then .error .invalidArgument
  else
    let n : Int := Nat.ofDigitChars 10 digits 0
    .ok (if negative then -n else n)

def InInt (n : Int) : Prop := -2147483648 ≤ n ∧ n ≤ 2147483647

instance (n : Int) : Decidable (InInt n) := inferInstanceAs (Decidable (_ ∧ _))

def InLong (n : Int) : Prop := -9223372036854775808 ≤ n ∧ n ≤ 9223372036854775807

instance (n : Int) : Decidable (InLong n) := inferInstanceAs (Decidable (_ ∧ _))

def stoi : Except Failure Int :=
  (strtol t).bind fun n => if InInt n then .ok n else .error .outOfRange

def stoll : Except Failure Int :=
  (strtol t).bind fun n => if InLong n then .ok n else .error .outOfRange

def decimal (n : Int) : Text :=
  if n < 0 then '-' :: Nat.toDigits 10 n.natAbs else Nat.toDigits 10 n.natAbs

def trimBlanks : Text := ((t.dropWhile (· = ' ')).reverse.dropWhile (· = ' ')).reverse

def splitFrom (sep : Text) : Nat → Text → List Text
  | 0, t => if trimBlanks t = [] then [] else [trimBlanks t]
  | fuel + 1, t =>
    match find sep t with
    | some i => trimBlanks (t.take i) :: splitFrom sep fuel (t.drop (i + sep.length))
    | none => if trimBlanks t = [] then [] else [trimBlanks t]

end Texts

def schemaUrl : Text := "http://www.w3.org/2001/XMLSchema#".toList

def typed (quoted : Text) (type : String) : Text := quoted ++ "^^<".toList ++ schemaUrl ++ type.toList ++ ['>']

def quote (t : Text) : Text := '"' :: t ++ ['"']

variable {F D : Type}

structure EvalMultitypeValue (F D : Type) where
  datatype : DataType
  termValue : Text
  strValue : Text
  boolValue : EffectiveBooleanValue
  intValue : Int
  fltValue : F
  dblValue : D
  longValue : Int
  dtValue : List F
  listValue : List Text

namespace EvalMultitypeValue

variable (num : Numbers F D)

/-- The constructor; it leaves `long_value` out, which is not read before it is set. -/
def new : EvalMultitypeValue F D where
  datatype := .rdfTerm
  termValue := []
  strValue := []
  boolValue := .errorValue
  intValue := 0
  fltValue := num.flt.ofInt 0
  dblValue := num.dbl.ofInt 0
  longValue := 0
  dtValue := List.replicate 6 (num.flt.ofInt 0)
  listValue := []

def error : EvalMultitypeValue F D := { new num with datatype := .xsdBoolean, boolValue := .errorValue }

variable (v : EvalMultitypeValue F D)

def isSimpleLiteral : Bool :=
  v.datatype = .literal ∧ 2 ≤ v.strValue.length ∧ v.strValue.head? = some '"' ∧ v.strValue.getLast? = some '"'

def printPadded (x : F) : Text :=
  if num.flt.lt x (num.flt.ofInt 10) then '0' :: num.flt.print x else num.flt.print x

def deduceTermValue : EvalMultitypeValue F D :=
  let date := fun i => v.dtValue.getD i (num.flt.ofInt 0)
  match v.datatype with
  | .xsdInteger => { v with termValue := typed (quote (decimal v.intValue)) "integer" }
  | .xsdLong => { v with termValue := typed (quote (decimal v.longValue)) "long" }
  | .xsdDecimal => { v with termValue := typed (quote (num.flt.toText v.fltValue)) "decimal" }
  | .xsdFloat => { v with termValue := typed (quote (num.flt.toText v.fltValue)) "float" }
  | .xsdDouble => { v with termValue := typed (quote (num.dbl.toText v.dblValue)) "double" }
  | .xsdBoolean =>
    match v.boolValue with
    | .trueValue => { v with termValue := typed "\"true\"".toList "boolean" }
    | .falseValue => { v with termValue := typed "\"false\"".toList "boolean" }
    | .errorValue => v
  | .xsdDatetime =>
    { v with
      termValue := typed (quote (num.flt.print (date 0) ++ '-' :: printPadded num (date 1) ++ '-' ::
        printPadded num (date 2) ++ 'T' :: printPadded num (date 3) ++ ':' :: printPadded num (date 4) ++ ':' ::
        printPadded num (date 5))) "dateTime" }
  | _ => { v with termValue := v.strValue }

def truth (b : EffectiveBooleanValue) : EvalMultitypeValue F D :=
  deduceTermValue num { error num with boolValue := b }

def convert2Type (target : DataType) : EvalMultitypeValue F D :=
  match v.datatype, target with
  | .xsdInteger, .xsdDecimal | .xsdInteger, .xsdFloat => { v with fltValue := num.flt.ofInt v.intValue, datatype := target }
  | .xsdInteger, .xsdLong => { v with longValue := v.intValue, datatype := target }
  | .xsdInteger, .xsdDouble => { v with dblValue := num.dbl.ofInt v.intValue, datatype := target }
  | .xsdDecimal, .xsdDouble | .xsdFloat, .xsdDouble => { v with dblValue := num.toDouble v.fltValue, datatype := target }
  | .xsdDecimal, .xsdLong => { v with longValue := num.toLong v.fltValue, datatype := target }
  | .xsdLong, .xsdDouble => { v with dblValue := num.dbl.ofInt v.longValue, datatype := target }
  | _, _ => v

variable (a b : EvalMultitypeValue F D)

def getSameNumericType :
    EvalMultitypeValue F D × EvalMultitypeValue F D :=
  let target := a.datatype.max b.datatype
  (if a.datatype ≠ target then a.convert2Type num target else a, if b.datatype ≠ target then b.convert2Type num target else b)

def not (a : EvalMultitypeValue F D) : EvalMultitypeValue F D :=
  if a.datatype ≠ .xsdBoolean then error num else truth num a.boolValue.not

def or : EvalMultitypeValue F D :=
  if a.datatype ≠ .xsdBoolean ∧ b.datatype ≠ .xsdBoolean then error num else truth num (a.boolValue.or b.boolValue)

def and : EvalMultitypeValue F D :=
  if a.datatype ≠ .xsdBoolean ∧ b.datatype ≠ .xsdBoolean then error num else truth num (a.boolValue.and b.boolValue)

def dateLess (num : Numbers F D) : List F → List F → Bool
  | _, [] => false
  | [], _ :: _ => true
  | x :: xs, y :: ys => if num.flt.lt x y then true else if num.flt.lt y x then false else dateLess num xs ys

structure Comparison (F D : Type) where
  bool : Bool → Bool → Bool
  int : Int → Int → Bool
  flt : F → F → Bool
  dbl : D → D → Bool
  str : Text → Text → Bool
  date : List F → List F → Bool

variable (op : Comparison F D)

def compareNumbers (a b : EvalMultitypeValue F D) : EffectiveBooleanValue :=
  let (a, b) := getSameNumericType num a b
  match a.datatype, b.datatype with
  | .xsdInteger, .xsdInteger => .ofBool (op.int a.intValue b.intValue)
  | .xsdDecimal, .xsdDecimal | .xsdFloat, .xsdFloat => .ofBool (op.flt a.fltValue b.fltValue)
  | .xsdLong, .xsdLong => .ofBool (op.int a.longValue b.longValue)
  | .xsdDouble, .xsdDouble => .ofBool (op.dbl a.dblValue b.dblValue)
  | _, _ => .errorValue

/-- The chain of guards of `<`, `<=`, `>` and `>=`; `literals` is the guard for two literals. -/
def compareWith
    (literals : EvalMultitypeValue F D → EvalMultitypeValue F D → Bool) (a b : EvalMultitypeValue F D) :
    EvalMultitypeValue F D :=
  truth num <|
    if a.datatype = .xsdBoolean ∧ b.datatype = .xsdBoolean then a.boolValue.compareWith op.bool b.boolValue
    else if a.datatype.isNumeric ∧ b.datatype.isNumeric then compareNumbers num op a b
    else if literals a b then .ofBool (op.str a.strValue b.strValue)
    else if a.datatype = .xsdString ∧ b.datatype = .xsdString then .ofBool (op.str a.strValue b.strValue)
    else if a.datatype = .xsdDatetime ∧ b.datatype = .xsdDatetime then .ofBool (op.date a.dtValue b.dtValue)
    else if a.datatype = .iri ∧ b.datatype = .iri then .ofBool (op.str a.strValue b.strValue)
    else .errorValue

def bothLiterals : Bool := a.datatype = .literal ∧ b.datatype = .literal

def bothSimple : Bool := a.isSimpleLiteral ∧ b.isSimpleLiteral

def lessOp : Comparison F D where
  bool := fun x y => x < y
  int := fun x y => x < y
  flt := num.flt.lt
  dbl := num.dbl.lt
  str := fun x y => x < y
  date := dateLess num

def lessEqualOp : Comparison F D where
  bool := fun x y => x ≤ y
  int := fun x y => x ≤ y
  flt := num.flt.le
  dbl := num.dbl.le
  str := fun x y => x ≤ y
  date := fun x y => !dateLess num y x

def Comparison.swap : Comparison F D where
  bool := fun x y => op.bool y x
  int := fun x y => op.int y x
  flt := fun x y => op.flt y x
  dbl := fun x y => op.dbl y x
  str := fun x y => op.str y x
  date := fun x y => op.date y x

def less : EvalMultitypeValue F D → EvalMultitypeValue F D → EvalMultitypeValue F D :=
  compareWith num (lessOp num) bothLiterals

def lessEqual : EvalMultitypeValue F D → EvalMultitypeValue F D → EvalMultitypeValue F D :=
  compareWith num (lessEqualOp num) bothSimple

def greater : EvalMultitypeValue F D → EvalMultitypeValue F D → EvalMultitypeValue F D :=
  compareWith num (lessOp num).swap bothSimple

def greaterEqual : EvalMultitypeValue F D → EvalMultitypeValue F D → EvalMultitypeValue F D :=
  compareWith num (lessEqualOp num).swap bothSimple

/-- The chain of guards of `==` and `!=`: `mixed` is the result for a boolean and another type. -/
def equalWith (mixed : EffectiveBooleanValue)
    (literals : EvalMultitypeValue F D → EvalMultitypeValue F D → Bool) (a b : EvalMultitypeValue F D) :
    EvalMultitypeValue F D :=
  if a.datatype = .xsdBoolean ∧ b.datatype = .xsdBoolean then truth num (a.boolValue.compareWith op.bool b.boolValue)
  else if (a.datatype = .xsdBoolean) ≠ (b.datatype = .xsdBoolean) then
    if a.datatype = .xsdBoolean ∧ a.boolValue = .errorValue then error num
    else if b.datatype = .xsdBoolean ∧ b.boolValue = .errorValue then error num
    else truth num mixed
  else truth num <|
    if a.datatype.isNumeric ∧ b.datatype.isNumeric then compareNumbers num op a b
    else if literals a b then .ofBool (op.str a.strValue b.strValue)
    else if a.datatype = .xsdString ∧ b.datatype = .xsdString then .ofBool (op.str a.strValue b.strValue)
    else if a.datatype = .xsdDatetime ∧ b.datatype = .xsdDatetime then .ofBool (op.date a.dtValue b.dtValue)
    else .ofBool (op.str a.termValue b.termValue)

def dateEqual (num : Numbers F D) : List F → List F → Bool
  | [], [] => true
  | x :: xs, y :: ys => num.flt.eq x y && dateEqual num xs ys
  | _, _ => false

def equalOp : Comparison F D where
  bool := fun x y => x = y
  int := fun x y => x = y
  flt := num.flt.eq
  dbl := num.dbl.eq
  str := fun x y => x = y
  date := dateEqual num

def notEqualOp : Comparison F D where
  bool := fun x y => x ≠ y
  int := fun x y => x ≠ y
  flt := fun x y => !num.flt.eq x y
  dbl := fun x y => !num.dbl.eq x y
  str := fun x y => x ≠ y
  date := fun x y => !dateEqual num x y

def equal : EvalMultitypeValue F D → EvalMultitypeValue F D → EvalMultitypeValue F D :=
  equalWith num (equalOp num) .falseValue bothLiterals

def notEqual : EvalMultitypeValue F D → EvalMultitypeValue F D → EvalMultitypeValue F D :=
  equalWith num (notEqualOp num) .trueValue bothSimple

/-- An `int` result; past its range the operation is undefined. -/
def checkedInt (n : Int) : Except Failure Int := if InInt n then .ok n else .error .overflow

def divideInt (m n : Int) : Except Failure Int :=
  if n = 0 then .error .trap else if InInt (m.tdiv n) then .ok (m.tdiv n) else .error .trap

/-- The numeric part of `+`, `-`, `*` and `/`. The branch for `xsd_long` is never reached. -/
def arithmetic (int : Int → Int → Except Failure Int) (flt : F → F → F) (dbl : D → D → D)
    (a b : EvalMultitypeValue F D) : Except Failure (EvalMultitypeValue F D) :=
  if !a.datatype.isArithmetic || !b.datatype.isArithmetic then .ok (error num)
  else
    let (a, b) := getSameNumericType num a b
    match a.datatype with
    | .xsdInteger => (int a.intValue b.intValue).map fun n =>
        deduceTermValue num { error num with datatype := .xsdInteger, intValue := n }
    | .xsdDecimal => .ok (deduceTermValue num
        { error num with datatype := .xsdDecimal, fltValue := flt a.fltValue b.fltValue })
    | .xsdFloat => .ok (deduceTermValue num
        { error num with datatype := .xsdFloat, fltValue := flt a.fltValue b.fltValue })
    | .xsdDouble => .ok (deduceTermValue num
        { error num with datatype := .xsdDouble, dblValue := dbl a.dblValue b.dblValue })
    | _ => .ok (deduceTermValue num (error num))

def add : EvalMultitypeValue F D → EvalMultitypeValue F D → Except Failure (EvalMultitypeValue F D) :=
  arithmetic num (fun m n => checkedInt (m + n)) num.flt.add num.dbl.add

def subtract : Except Failure (EvalMultitypeValue F D) :=
  if a.datatype = .xsdDatetime ∧ b.datatype = .xsdDatetime then
    .ok { error num with datatype := .xsdDatetime, dtValue := num.dateDifference a.dtValue b.dtValue }
  else arithmetic num (fun m n => checkedInt (m - n)) num.flt.sub num.dbl.sub a b

def multiply :
    EvalMultitypeValue F D → EvalMultitypeValue F D → Except Failure (EvalMultitypeValue F D) :=
  arithmetic num (fun m n => checkedInt (m * n)) num.flt.mul num.dbl.mul

def divide :
    EvalMultitypeValue F D → EvalMultitypeValue F D → Except Failure (EvalMultitypeValue F D) :=
  arithmetic num divideInt num.flt.div num.dbl.div

def negate (a : EvalMultitypeValue F D) : Except Failure (EvalMultitypeValue F D) :=
  match a.datatype with
  | .xsdInteger => (checkedInt (-a.intValue)).map fun n =>
      deduceTermValue num { error num with datatype := .xsdInteger, intValue := n }
  | .xsdDecimal => .ok (deduceTermValue num { error num with datatype := .xsdDecimal, fltValue := num.flt.neg a.fltValue })
  | .xsdFloat => .ok (deduceTermValue num { error num with datatype := .xsdFloat, fltValue := num.flt.neg a.fltValue })
  | .xsdDouble => .ok (deduceTermValue num { error num with datatype := .xsdDouble, dblValue := num.dbl.neg a.dblValue })
  | _ => .ok (error num)

/-- The first number of a date in the text and what follows it; `.` belongs to the seconds, once. -/
def dateNumber (seconds : Bool) (t : Text) : Text × Text :=
  let t := t.dropWhile fun c => !c.isDigit
  let whole := t.takeWhile Char.isDigit
  let rest := t.drop whole.length
  match seconds, rest with
  | true, '.' :: rest =>
    let fraction := rest.takeWhile Char.isDigit
    (whole ++ '.' :: fraction, rest.drop fraction.length)
  | _, rest => (whole, rest)

/-- The loop over the numbers of a date. `stof` sees one character more than the number; `none` is the `return` in the
middle of the loop. -/
def dateNumbers (num : Numbers F D) : List Bool → Text → Except Failure (Option (List F))
  | [], _ => .ok (some [])
  | seconds :: more, t =>
    let (number, rest) := dateNumber seconds t
    if number = [] then .ok (some [])
    else
      (num.flt.parse (number ++ rest.take 1)).bind fun x =>
        if rest = [] ∧ more ≠ [] then .ok none
        else (dateNumbers num more rest).map fun xs => xs.map (x :: ·)

/-- `dt_value` of a lexical form with its quotes; `none` leaves the old one. -/
def parseDate (type : Text) (content : Text) : Except Failure (Option (List F)) :=
  (dateNumbers num [false, false, false, false, false, true] content).map fun found =>
    found.bind fun date =>
      let date := if type = "dateTime".toList then date ++ List.replicate (6 - date.length) (num.flt.ofInt 0) else date
      if 6 ≤ date.length then some (date.take 6) else none

/-- The branch of `deduceTypeValue` for a type of XML Schema; `content` is the lexical form with its quotes. -/
def deduceSchemaValue (sep : Text) (v : EvalMultitypeValue F D) (type content : Text) :
    Except Failure (EvalMultitypeValue F D) :=
  let bare := substr content 1 (content.length - 2)
  if type = "string".toList then .ok { v with datatype := .xsdString, strValue := content }
  else if type = "list".toList then
    .ok { v with datatype := .xsdList, listValue := v.listValue ++ splitFrom sep bare.length bare }
  else if type = "boolean".toList then
    .ok (if content = "\"true\"".toList then { v with boolValue := .trueValue }
      else if content = "\"false\"".toList then { v with boolValue := .falseValue } else v)
  else if type = "dateTime".toList ∨ type = "date".toList then
    (parseDate num type content).map fun date => { v with datatype := .xsdDatetime, dtValue := date.getD v.dtValue }
  else if type = "integer".toList then (stoi bare).map fun n => { v with datatype := .xsdInteger, intValue := n }
  else if type = "long".toList then (stoll bare).map fun n => { v with datatype := .xsdLong, longValue := n }
  else if type = "decimal".toList then (num.flt.parse bare).map fun x => { v with datatype := .xsdDecimal, fltValue := x }
  else if type = "float".toList then (num.flt.parse bare).map fun x => { v with datatype := .xsdFloat, fltValue := x }
  else if type = "double".toList then (num.dbl.parse bare).map fun x => { v with datatype := .xsdDouble, dblValue := x }
  else .ok v

def datatypeMark : Text := "\"^^<".toList

def deduceTypeValue (sep : Text) (v : EvalMultitypeValue F D) : Except Failure (EvalMultitypeValue F D) :=
  let v := { v with datatype := .xsdBoolean, boolValue := .errorValue }
  match v.termValue with
  | '<' :: _ => .ok { v with datatype := .iri, strValue := v.termValue }
  | '"' :: _ =>
    match find datatypeMark v.termValue with
    | none => .ok { v with datatype := .literal, strValue := v.termValue }
    | some sufPos =>
      let sufStr := substr v.termValue (sufPos + 4) (v.termValue.length - sufPos - 5)
      if sufStr.take schemaUrl.length ≠ schemaUrl then .ok { v with datatype := .rdfTerm }
      else deduceSchemaValue num sep v (sufStr.drop schemaUrl.length) (v.termValue.take (sufPos + 1))
  | _ => .ok v

def ofTerm (sep : Text) (term : Text) : Except Failure (EvalMultitypeValue F D) :=
  deduceTypeValue num sep { new num with termValue := term }

def getRep : Text :=
  let date := fun i => num.flt.toText (v.dtValue.getD i (num.flt.ofInt 0))
  match v.datatype with
  | .rdfTerm | .iri => v.termValue
  | .xsdString | .literal => v.strValue
  | .xsdBoolean =>
    match v.boolValue with
    | .falseValue | .errorValue => typed "\"false\"".toList "boolean"
    | .trueValue => typed "\"true\"".toList "boolean"
  | .xsdInteger => typed (quote (decimal v.intValue)) "integer"
  | .xsdLong => typed (quote (decimal v.intValue)) "long"
  | .xsdDecimal => typed (quote (num.flt.toText v.fltValue)) "decimal"
  | .xsdFloat => typed (quote (num.flt.toText v.fltValue)) "float"
  | .xsdDouble => typed (quote (num.dbl.toText v.dblValue)) "double"
  | .xsdDatetime =>
    typed (quote (date 0 ++ '-' :: date 1 ++ '-' :: date 2 ++ 'T' :: date 3 ++ ':' :: date 4 ++ ':' :: date 5)) "dateTime"
  | .xsdList => typed ((", ".toList.intercalate v.listValue) ++ ['"']) "list"

end EvalMultitypeValue

end GStore
