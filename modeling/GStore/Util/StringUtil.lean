import Mathlib.Data.Fintype.Basic

/-! `StringUtil::url_encode` and `StringUtil::url_decode`, on bytes. -/
namespace GStore.StringUtil

variable (c : UInt8)

def isalnum : Bool :=
  '0'.toUInt8 ≤ c ∧ c ≤ '9'.toUInt8 ∨ 'A'.toUInt8 ≤ c ∧ c ≤ 'Z'.toUInt8 ∨ 'a'.toUInt8 ≤ c ∧
    c ≤ 'z'.toUInt8

def hexDigit (x : UInt8) : UInt8 := if 9 < x then x + 55 else x + 48

def encodeByte : List UInt8 :=
  if isalnum c ∨ c = '-'.toUInt8 ∨ c = '_'.toUInt8 ∨ c = '.'.toUInt8 ∨ c = '~'.toUInt8 then [c]
  else if c = ' '.toUInt8 then ['+'.toUInt8]
  else ['%'.toUInt8, hexDigit (c >>> 4), hexDigit (c % 16)]

def urlEncode (str : List UInt8) : List UInt8 := str.flatMap encodeByte

def hexValue (x : UInt8) : Option UInt8 :=
  if 'A'.toUInt8 ≤ x ∧ x ≤ 'Z'.toUInt8 then some (x - 'A'.toUInt8 + 10)
  else if 'a'.toUInt8 ≤ x ∧ x ≤ 'z'.toUInt8 then some (x - 'a'.toUInt8 + 10)
  else if '0'.toUInt8 ≤ x ∧ x ≤ '9'.toUInt8 then some (x - '0'.toUInt8)
  else none

/-- `none` where an assertion fails. There is none for the second digit, which counts 0 when it is
not a digit. -/
def urlDecode : List UInt8 → Option (List UInt8)
  | [] => some []
  | c :: str =>
    if c = '+'.toUInt8 then (urlDecode str).map (' '.toUInt8 :: ·)
    else if c = '%'.toUInt8 then
      match str with
      | x :: y :: str =>
        (hexValue x).bind fun high => (urlDecode str).map ((high * 16 + (hexValue y).getD 0) :: ·)
      | _ => none
    else (urlDecode str).map (c :: ·)

theorem forall_byte {P : UInt8 → Prop} (all : ∀ n : Fin 256, P (UInt8.ofFin n)) (c : UInt8) : P c :=
  all c.toFin

theorem encodeByte_cases :
    encodeByte c = [c] ∧ c ≠ '+'.toUInt8 ∧ c ≠ '%'.toUInt8 ∨ encodeByte c = ['+'.toUInt8] ∧
    c = ' '.toUInt8 ∨
      encodeByte c = ['%'.toUInt8, hexDigit (c >>> 4), hexDigit (c % 16)] := by
  revert c
  exact forall_byte (by decide +kernel)

theorem hexValue_digits : hexValue (hexDigit (c >>> 4)) = some (c >>> 4) ∧
    hexValue (hexDigit (c % 16)) = some (c % 16) ∧ (c >>> 4) * 16 + c % 16 = c := by
  revert c
  exact forall_byte (by decide +kernel)

theorem urlDecode_encodeByte (str : List UInt8) :
    urlDecode (encodeByte c ++ str) = (urlDecode str).map (c :: ·) := by
  rcases encodeByte_cases c with ⟨plain, notPlus, notPercent⟩ | ⟨plus, rfl⟩ | escaped
  · rw [plain, List.singleton_append, urlDecode.eq_def]
    simp [if_neg notPlus, if_neg notPercent]
  · rw [plus, List.singleton_append, urlDecode.eq_def]
    simp
  · obtain ⟨high, low, joined⟩ := hexValue_digits c
    rw [escaped, List.cons_append, List.cons_append, List.singleton_append, urlDecode,
      if_neg (show '%'.toUInt8 ≠ '+'.toUInt8 by decide), if_pos rfl]
    simp [high, low, Option.bind_some, Option.getD_some, joined]

theorem url_roundtrip : (∀ str, urlDecode (urlEncode str) = some str) ∧
    Function.Injective urlEncode := by
  have inverse : ∀ str, urlDecode (urlEncode str) = some str := by
    intro str
    induction str with
    | nil => simp [urlEncode, urlDecode]
    | cons c str ih =>
      rw [urlEncode, List.flatMap_cons, urlDecode_encodeByte, ← urlEncode, ih, Option.map_some]
  refine ⟨inverse, fun a b same => ?_⟩
  have decoded := inverse a
  rw [same, inverse b] at decoded
  exact (Option.some.inj decoded).symm

end GStore.StringUtil
