import GStore.Query.TermOrder
import Mathlib.Data.List.TakeWhile

/-! Texts of terms and their values: where the datatype of a term is found, which numbers are read from digits, and when
`getRep` gives back the term that `deduceTypeValue` has read. -/
namespace GStore

open EvalMultitypeValue List

section Numerals

def IsNumeral (ds : Text) : Prop := ds ≠ [] ∧ ∀ c ∈ ds, c.isDigit = true

theorem digit_not_space {c : Char} (digit : c.isDigit = true) : isSpace c = false := by
  simp only [Char.isDigit, Bool.and_eq_true, decide_eq_true_eq, ge_iff_le, UInt32.le_iff_toNat_le] at digit
  simp only [isSpace, decide_eq_false_iff_not, not_or, not_and, Char.le_def, UInt32.le_iff_toNat_le]
  change 48 ≤ c.val.toNat ∧ c.val.toNat ≤ 57 at digit
  refine ⟨?_, fun _ => ?_⟩
  · rintro rfl
    exact absurd digit (by decide)
  · change ¬ c.val.toNat ≤ 13
    omega

theorem digit_ne {c d : Char} (digit : c.isDigit = true) (other : d.isDigit = false) : c ≠ d := by
  rintro rfl
  rw [digit] at other
  cases other

theorem strtol_numeral {ds : Text} (numeral : IsNumeral ds) : strtol ds = .ok (Nat.ofDigitChars 10 ds 0 : Int) := by
  obtain ⟨nonempty, digits⟩ := numeral
  obtain ⟨d, rest, rfl⟩ := exists_cons_of_ne_nil nonempty
  have first := digits d mem_cons_self
  have all : (d :: rest).takeWhile Char.isDigit = d :: rest := takeWhile_eq_self_iff.mpr digits
  have minus : d ≠ '-' := digit_ne first (by decide)
  have plus : d ≠ '+' := digit_ne first (by decide)
  unfold strtol
  simp only [dropWhile_cons, digit_not_space first, Bool.false_eq_true, if_false]
  split
  · rename_i shape
    exact absurd (List.cons.inj shape).1 minus
  · rename_i shape
    exact absurd (List.cons.inj shape).1 plus
  · simp [all]

theorem strtol_minus {ds : Text} (numeral : IsNumeral ds) : strtol ('-' :: ds) = .ok (-(Nat.ofDigitChars 10 ds 0 : Int)) := by
  have blank : isSpace '-' = false := by decide
  have all : ds.takeWhile Char.isDigit = ds := takeWhile_eq_self_iff.mpr numeral.2
  unfold strtol
  simp [blank, all, numeral.1]

theorem isNumeral_toDigits (n : Nat) : IsNumeral (Nat.toDigits 10 n) :=
  ⟨Nat.toDigits_ne_nil, fun _ member => Nat.isDigit_of_mem_toDigits (by decide) (by decide) member⟩

theorem strtol_decimal (n : Int) : strtol (decimal n) = .ok n := by
  have value : Nat.ofDigitChars 10 (Nat.toDigits 10 n.natAbs) 0 = n.natAbs := Nat.ofDigitChars_toDigits (by decide) (by decide)
  unfold decimal
  split
  · rw [strtol_minus (isNumeral_toDigits _), value]
    congr 1
    omega
  · rw [strtol_numeral (isNumeral_toDigits _), value]
    congr 1
    omega

theorem decimal_injective {m n : Int} (same : decimal m = decimal n) : m = n := by
  have read := strtol_decimal m
  rw [same, strtol_decimal n] at read
  exact (Except.ok.inj read).symm

end Numerals

section Marks

theorem datatypeMark_eq : datatypeMark = ['"', '^', '^', '<'] := by decide

theorem find_some {pat : Text} {t : Text} {pos : Nat} (found : find pat t = some pos) :
    ∃ before after, t = before ++ pat ++ after ∧ before.length = pos := by
  induction t generalizing pos with
  | nil =>
    unfold find at found
    split at found
    · rename_i empty
      cases found
      exact ⟨[], [], by simp [empty], rfl⟩
    · cases found
  | cons c t ih =>
    unfold find at found
    split_ifs at found with here
    · obtain ⟨after, shape⟩ := isPrefixOf_iff_prefix.mp here
      cases found
      exact ⟨[], after, by simp [shape], rfl⟩
    · obtain ⟨pos, later, rfl⟩ := Option.map_eq_some_iff.mp found
      obtain ⟨before, after, rfl, rfl⟩ := ih later
      exact ⟨c :: before, after, by simp, rfl⟩

theorem find_mark_free {c rest : Text} (free : '"' ∉ c) : find datatypeMark (c ++ datatypeMark ++ rest) = some c.length := by
  induction c with
  | nil => simp [find, datatypeMark_eq]
  | cons d c ih =>
    have other : d ≠ '"' := fun same => free (same ▸ mem_cons_self)
    have later := ih fun member => free (mem_cons_of_mem d member)
    simp only [cons_append, find, later]
    rw [if_neg (by simp [datatypeMark_eq, Ne.symm other])]
    rfl

theorem find_mark_quoted {c rest : Text} (free : '"' ∉ c) (start : c.head? ≠ some '^') :
    find datatypeMark ('"' :: c ++ datatypeMark ++ rest) = some (c.length + 1) := by
  have later := @find_mark_free c rest free
  simp only [cons_append, find, later]
  rw [if_neg ?_]
  · rfl
  · cases c with
    | nil => simp [datatypeMark_eq]
    | cons d c => simpa [datatypeMark_eq] using fun same => absurd same.symm (by simpa using start)

end Marks

variable {F D : Type} {num : Numbers F D} {sep : Text}

def Marked (t : Text) : Prop :=
  ∃ pos, find datatypeMark t = some pos ∧ (substr t (pos + 4) (t.length - pos - 5)).take schemaUrl.length = schemaUrl

def RoundTrips (num : Numbers F D) (sep t : Text) : Prop := ∃ v, ofTerm num sep t = .ok v ∧ v.getRep num = t

def untyped (num : Numbers F D) (t : Text) : EvalMultitypeValue F D :=
  { new num with termValue := t, datatype := .xsdBoolean, boolValue := .errorValue }

theorem ofTerm_quoted (rest : Text) :
    ofTerm num sep ('"' :: rest) =
      match find datatypeMark ('"' :: rest) with
      | none => .ok { untyped num ('"' :: rest) with datatype := .literal, strValue := '"' :: rest }
      | some pos =>
        if (substr ('"' :: rest) (pos + 4) (('"' :: rest).length - pos - 5)).take schemaUrl.length ≠ schemaUrl then
          .ok { untyped num ('"' :: rest) with datatype := .rdfTerm }
        else deduceSchemaValue num sep (untyped num ('"' :: rest))
          ((substr ('"' :: rest) (pos + 4) (('"' :: rest).length - pos - 5)).drop schemaUrl.length)
          (('"' :: rest).take (pos + 1)) :=
  rfl

theorem roundTrips_of_not_marked {t : Text} (quoted : t.head? = some '"') (unmarked : ¬ Marked t) : RoundTrips num sep t := by
  obtain ⟨rest, rfl⟩ := head?_eq_some_iff.mp quoted
  unfold RoundTrips
  rw [ofTerm_quoted]
  cases found : find datatypeMark ('"' :: rest) with
  | none => exact ⟨_, rfl, rfl⟩
  | some pos =>
    dsimp only
    rw [if_pos fun base => unmarked ⟨pos, found, base⟩]
    exact ⟨_, rfl, rfl⟩

theorem suffix_eq (before after : Text) : substr (before ++ datatypeMark ++ after) (before.length + 4)
      ((before ++ datatypeMark ++ after).length - before.length - 5) = after.dropLast := by
  have dropped : (before ++ datatypeMark ++ after).drop (before.length + 4) = after :=
    drop_left' (by simp [datatypeMark_eq])
  rw [substr, dropped, dropLast_eq_take]
  congr 1
  simp only [datatypeMark_eq, length_append, length_cons, length_nil]
  omega

theorem marked_iff {t before after : Text} (found : find datatypeMark t = some before.length)
    (shape : t = before ++ datatypeMark ++ after) : Marked t ↔ after.dropLast.take schemaUrl.length = schemaUrl := by
  constructor
  · rintro ⟨pos, found', base⟩
    rw [found, Option.some.injEq] at found'
    subst found'
    rwa [shape, suffix_eq] at base
  · intro base
    refine ⟨before.length, found, ?_⟩
    rwa [shape, suffix_eq]

theorem ofTerm_marked {t before after : Text} (quoted : t.head? = some '"') (found : find datatypeMark t = some before.length)
    (shape : t = before ++ datatypeMark ++ after) (base : (after.dropLast).take schemaUrl.length = schemaUrl) :
    ofTerm num sep t = deduceSchemaValue num sep (untyped num t) (after.dropLast.drop schemaUrl.length) (before ++ ['"']) := by
  obtain ⟨rest, start⟩ := head?_eq_some_iff.mp quoted
  have content : t.take (before.length + 1) = before ++ ['"'] := by
    rw [shape, datatypeMark_eq]
    simp [take_append]
  have suffix := suffix_eq before after
  rw [← shape] at suffix
  rw [start] at found suffix content ⊢
  rw [ofTerm_quoted, found]
  dsimp only
  rw [suffix, content, if_neg (not_not.mpr base)]

theorem deduceSchemaValue_unknown {v : EvalMultitypeValue F D} {type content : Text} (odd : '"' ∈ type) :
    deduceSchemaValue num sep v type content = .ok v := by
  have other : ∀ name : Text, '"' ∉ name → type ≠ name := fun name free same => free (same ▸ odd)
  simp only [deduceSchemaValue, other "string".toList (by decide), other "list".toList (by decide),
    other "boolean".toList (by decide), other "dateTime".toList (by decide), other "date".toList (by decide),
    other "integer".toList (by decide), other "long".toList (by decide), other "decimal".toList (by decide),
    other "float".toList (by decide), other "double".toList (by decide), or_self, if_false]

theorem getLast_typed (quoted : Text) (type : String) : (typed quoted type).getLast? = some '>' :=
  getLast?_concat

theorem getRep_schema {v w : EvalMultitypeValue F D} {type content : Text} (boolean : v.datatype = .xsdBoolean)
    (read : deduceSchemaValue num sep v type content = .ok w) : w.getRep num = content ∨ (w.getRep num).getLast? = some '>' := by
  have booleans : ∀ u : EvalMultitypeValue F D, u.datatype = .xsdBoolean → (u.getRep num).getLast? = some '>' := by
    intro u type
    simp only [getRep, type]
    cases u.boolValue <;> exact getLast_typed _ _
  unfold deduceSchemaValue at read
  dsimp only at read
  split_ifs at read <;> first
    | (obtain ⟨x, -, rfl⟩ := map_ok read; exact .inr (getLast_typed _ _))
    | (cases read; exact .inr (booleans _ boolean))
    | (cases read; exact .inl rfl)
    | (cases read; exact .inr (getLast_typed _ _))

theorem not_roundTrips {t : Text} (quoted : t.head? = some '"') (ends : t.getLast? ≠ some '>') (marked : Marked t) :
    ¬ RoundTrips num sep t := by
  rintro ⟨w, read, rep⟩
  obtain ⟨pos, found, -⟩ := id marked
  obtain ⟨before, after, shape, rfl⟩ := find_some found
  rw [ofTerm_marked quoted found shape ((marked_iff found shape).mp marked)] at read
  rcases getRep_schema rfl read with content | last
  · rw [content] at rep
    have lengths := congrArg List.length (rep.trans shape)
    simp [datatypeMark_eq] at lengths
  · rw [rep] at last
    exact ends last

theorem cut_at_last {α : Type} {a : α} {x x' y y' : List α} (same : x ++ a :: y = x' ++ a :: y') (last : a ∉ y) (last' : a ∉ y') :
    x = x' ∧ y = y' := by
  rcases append_eq_append_iff.mp same with ⟨between, rfl, rest⟩ | ⟨between, rfl, rest⟩
  · cases between with
    | nil => exact ⟨(append_nil x).symm, (List.cons.inj rest).2⟩
    | cons b between => exact absurd ((List.cons.inj rest).2 ▸ mem_append_right between mem_cons_self) last
  · cases between with
    | nil => exact ⟨append_nil x', (List.cons.inj rest).2.symm⟩
    | cons b between => exact absurd ((List.cons.inj rest).2 ▸ mem_append_right between mem_cons_self) last'

theorem not_mem_schemaUrl : '"' ∉ schemaUrl := by decide

theorem typed_mark {c before after : Text} {name : String} (plain : '"' ∉ name.toList)
    (shape : typed (quote c) name = before ++ datatypeMark ++ after)
    (base : after.dropLast.take schemaUrl.length = schemaUrl) :
    (before = '"' :: c ∧ after.dropLast.drop schemaUrl.length = name.toList) ∨ '"' ∈ after.dropLast.drop schemaUrl.length := by
  by_cases odd : '"' ∈ after.dropLast.drop schemaUrl.length
  · exact .inr odd
  · left
    obtain ⟨type, typeIs⟩ : ∃ type, after.dropLast.drop schemaUrl.length = type := ⟨_, rfl⟩
    rw [typeIs] at odd ⊢
    have parts : after.dropLast = schemaUrl ++ type := by rw [← base, ← typeIs, take_append_drop]
    have filled : after ≠ [] := by
      rintro rfl
      have long : schemaUrl ≠ [] := by decide
      exact long (append_eq_nil_iff.mp parts.symm).1
    have last : after.getLast? = some '>' := by
      have whole := getLast_typed (quote c) name
      rw [shape, getLast?_append_of_ne_nil _ filled] at whole
      exact whole
    have whole : after = schemaUrl ++ type ++ ['>'] := by
      rw [← parts, ← dropLast_append_getLast? _ last]
      simp
    have free : '"' ∉ ['^', '^', '<'] ++ after := by
      rw [whole]
      simp [not_mem_schemaUrl, odd]
    have free' : '"' ∉ ['^', '^', '<'] ++ (schemaUrl ++ name.toList ++ ['>']) := by
      simp [not_mem_schemaUrl, plain]
    have cut : ('"' :: c) ++ '"' :: (['^', '^', '<'] ++ (schemaUrl ++ name.toList ++ ['>'])) =
        before ++ '"' :: (['^', '^', '<'] ++ after) := by
      have marks : "^^<".toList = ['^', '^', '<'] := by decide
      rw [datatypeMark_eq, typed, quote, marks] at shape
      simpa using shape
    obtain ⟨first, second⟩ := cut_at_last cut free' free
    have names := append_cancel_left second
    rw [whole] at names
    exact ⟨first.symm, (append_cancel_left (append_cancel_right names)).symm⟩

theorem head_typed (c : Text) (name : String) : (typed (quote c) name).head? = some '"' := by
  simp [typed, quote]

theorem typed_injective {q q' : Text} {name : String} (same : typed q name = typed q' name) : q = q' := by
  unfold typed at same
  exact append_cancel_right (append_cancel_right (append_cancel_right (append_cancel_right same)))

theorem ofTerm_typed {c : Text} {name : String} (free : '"' ∉ c) (start : c.head? ≠ some '^') :
    ofTerm num sep (typed (quote c) name) =
      deduceSchemaValue num sep (untyped num (typed (quote c) name)) name.toList (quote c) := by
  have marks : "^^<".toList = ['^', '^', '<'] := by decide
  have shape : typed (quote c) name = '"' :: c ++ datatypeMark ++ (schemaUrl ++ name.toList ++ ['>']) := by
    rw [typed, quote, datatypeMark_eq, marks]
    simp
  have found : find datatypeMark (typed (quote c) name) = some ('"' :: c).length := by
    rw [shape]
    exact find_mark_quoted free start
  have parts : (schemaUrl ++ name.toList ++ ['>']).dropLast = schemaUrl ++ name.toList := dropLast_concat
  rw [ofTerm_marked (head_typed c name) found shape (by rw [parts, take_left]), parts, drop_left]
  rfl

theorem bare_quote (c : Text) : substr (quote c) 1 ((quote c).length - 2) = c := by
  simp [substr, quote]

theorem plain_decimal (n : Int) : '"' ∉ decimal n ∧ (decimal n).head? ≠ some '^' := by
  have digits := (isNumeral_toDigits n.natAbs).2
  have quotes : '"' ∉ Nat.toDigits 10 n.natAbs := fun member => absurd (digits _ member) (by decide)
  unfold decimal
  split
  · exact ⟨by simpa using quotes, by simp⟩
  · refine ⟨quotes, fun start => ?_⟩
    exact absurd (digits _ (mem_of_mem_head? start)) (by decide)

/-- A term: an IRI, a literal without a type, perhaps with a language tag, a string or boolean with any lexical form, or a
canonical integer or long in the range of `int` or `long long`. -/
inductive PlainTerm where
  | iri (rest : Text)
  | simple (content : Text)
  | tagged (content tag : Text) (tagText : tag ≠ [] ∧ ∀ c ∈ tag, c.isAlphanum = true ∨ c = '-')
  | string (content : Text)
  | boolean (content : Text)
  | integer (n : Int) (range : InInt n)
  | long (n : Int) (range : InLong n)

namespace PlainTerm

def text : PlainTerm → Text
  | iri rest => '<' :: rest
  | simple content => quote content
  | tagged content tag _ => quote content ++ '@' :: tag
  | string content => typed (quote content) "string"
  | boolean content => typed (quote content) "boolean"
  | integer n _ => typed (quote (decimal n)) "integer"
  | long n _ => typed (quote (decimal n)) "long"

/-- The terms that come back: of the literals and strings those without a mark of an XML Schema type, also of the booleans
`true` and `false`, and of the longs the zero. -/
def Kept : PlainTerm → Prop
  | iri _ => True
  | simple content => ¬ Marked (quote content)
  | tagged content tag _ => ¬ Marked (quote content ++ '@' :: tag)
  | string content => ¬ Marked (typed (quote content) "string")
  | boolean content => content = "true".toList ∨ content = "false".toList ∨ ¬ Marked (typed (quote content) "boolean")
  | integer _ _ => True
  | long n _ => n = 0

end PlainTerm

theorem stoi_decimal {n : Int} (range : InInt n) : stoi (decimal n) = .ok n := by
  rw [stoi, strtol_decimal]
  exact if_pos range

theorem stoll_decimal {n : Int} (range : InLong n) : stoll (decimal n) = .ok n := by
  rw [stoll, strtol_decimal]
  exact if_pos range

theorem roundTrips_integer {n : Int} (range : InInt n) : RoundTrips num sep (typed (quote (decimal n)) "integer") := by
  refine ⟨{ untyped num (typed (quote (decimal n)) "integer") with datatype := .xsdInteger, intValue := n }, ?_, rfl⟩
  rw [ofTerm_typed (plain_decimal n).1 (plain_decimal n).2]
  simp [deduceSchemaValue, bare_quote, stoi_decimal range, Except.map]

theorem roundTrips_long_iff {n : Int} (range : InLong n) :
    RoundTrips num sep (typed (quote (decimal n)) "long") ↔ n = 0 := by
  have read : ofTerm num sep (typed (quote (decimal n)) "long") =
      .ok { untyped num (typed (quote (decimal n)) "long") with datatype := .xsdLong, longValue := n } := by
    rw [ofTerm_typed (plain_decimal n).1 (plain_decimal n).2]
    simp [deduceSchemaValue, bare_quote, stoll_decimal range, Except.map]
  unfold RoundTrips
  simp only [read, Except.ok.injEq, exists_eq_left']
  constructor
  · intro rep
    have quotes : quote (decimal 0) = quote (decimal n) := typed_injective rep
    simp only [quote, cons_append, List.cons.injEq, true_and] at quotes
    exact (decimal_injective (append_cancel_right quotes)).symm
  · rintro rfl
    rfl

theorem ofTerm_typed_cases {c : Text} {name : String} (plain : '"' ∉ name.toList) (marked : Marked (typed (quote c) name)) :
    ofTerm num sep (typed (quote c) name) =
        deduceSchemaValue num sep (untyped num (typed (quote c) name)) name.toList (quote c) ∨
      ofTerm num sep (typed (quote c) name) = .ok (untyped num (typed (quote c) name)) := by
  obtain ⟨pos, found, -⟩ := id marked
  obtain ⟨before, after, shape, rfl⟩ := find_some found
  have base := (marked_iff found shape).mp marked
  rw [ofTerm_marked (head_typed c name) found shape base]
  rcases typed_mark plain shape base with ⟨rfl, type⟩ | odd
  · left
    rw [type]
    rfl
  · exact .inr (deduceSchemaValue_unknown odd)

theorem roundTrips_string_iff (c : Text) :
    RoundTrips num sep (typed (quote c) "string") ↔ ¬ Marked (typed (quote c) "string") := by
  refine ⟨?_, roundTrips_of_not_marked (head_typed c "string")⟩
  rintro ⟨w, read, rep⟩ marked
  rcases @ofTerm_typed_cases F D num sep c "string" (by decide) marked with typed' | odd
  · rw [typed'] at read
    cases read
    have lengths := congrArg List.length rep
    simp [getRep, typed] at lengths
  · rw [odd] at read
    cases read
    have last : (typed "\"false\"".toList "boolean").reverse[1]? = (typed (quote c) "string").reverse[1]? :=
      congrArg (fun t => t.reverse[1]?) rep
    simp [typed] at last

theorem quote_injective {c c' : Text} (same : quote c = quote c') : c = c' := by
  simp only [quote, cons_append, List.cons.injEq, true_and] at same
  exact append_cancel_right same

theorem roundTrips_boolean_iff (c : Text) : RoundTrips num sep (typed (quote c) "boolean") ↔
      c = "true".toList ∨ c = "false".toList ∨ ¬ Marked (typed (quote c) "boolean") := by
  constructor
  · rintro ⟨w, read, rep⟩
    by_contra lost
    rw [not_or, not_or, not_not] at lost
    obtain ⟨notTrue, notFalse, marked⟩ := lost
    have error : ofTerm num sep (typed (quote c) "boolean") = .ok (untyped num (typed (quote c) "boolean")) := by
      rcases @ofTerm_typed_cases F D num sep c "boolean" (by decide) marked with typed' | odd
      · have other : quote c ≠ quote "true".toList := fun same => notTrue (quote_injective same)
        have other' : quote c ≠ quote "false".toList := fun same => notFalse (quote_injective same)
        have true' : "\"true\"".toList = quote "true".toList := by decide
        have false' : "\"false\"".toList = quote "false".toList := by decide
        rw [typed', deduceSchemaValue, true', false', if_neg other, if_neg other']
        rfl
      · exact odd
    rw [error] at read
    cases read
    have quotes : quote "false".toList = quote c := typed_injective rep
    exact notFalse (quote_injective quotes).symm
  · rintro (rfl | rfl | unmarked)
    · exact ⟨_, rfl, rfl⟩
    · exact ⟨_, rfl, rfl⟩
    · exact roundTrips_of_not_marked (head_typed c "boolean") unmarked

/-- For every term of these kinds, reading and writing it gives the same text exactly if it is one of the kept ones. -/
theorem term_roundTrips_iff (num : Numbers F D) (sep : Text) (t : PlainTerm) : RoundTrips num sep t.text ↔ t.Kept := by
  cases t with
  | iri rest => exact ⟨fun _ => trivial, fun _ => ⟨_, rfl, rfl⟩⟩
  | simple content =>
    have quoted : (quote content).head? = some '"' := by simp [quote]
    have ends : (quote content).getLast? ≠ some '>' := by
      rw [quote, getLast?_concat]
      decide
    exact ⟨fun trip marked => not_roundTrips quoted ends marked trip, roundTrips_of_not_marked quoted⟩
  | tagged content tag tagText =>
    have quoted : (quote content ++ '@' :: tag).head? = some '"' := by simp [quote]
    have ends : (quote content ++ '@' :: tag).getLast? ≠ some '>' := by
      obtain ⟨filled, letters⟩ := tagText
      rw [getLast?_append_of_ne_nil _ (by simp), getLast?_cons_of_ne_nil filled]
      intro last
      rcases letters _ (mem_of_mem_getLast? last) with letter | hyphen
      · exact absurd letter (by decide)
      · exact absurd hyphen (by decide)
    exact ⟨fun trip marked => not_roundTrips quoted ends marked trip, roundTrips_of_not_marked quoted⟩
  | string content => exact roundTrips_string_iff content
  | boolean content => exact roundTrips_boolean_iff content
  | integer n range => exact ⟨fun _ => trivial, fun _ => roundTrips_integer range⟩
  | long n range => exact roundTrips_long_iff range

/-- `"5"^^xsd:long` comes back as `"0"^^xsd:long`, and `"a"^^xsd:string` without its type. -/
theorem long_and_string_change :
    (∃ v, ofTerm wholeNumbers [','] (typed (quote ['5']) "long") = .ok v ∧
      v.getRep wholeNumbers = typed (quote ['0']) "long") ∧
    ∃ v, ofTerm wholeNumbers [','] (typed (quote ['a']) "string") = .ok v ∧ v.getRep wholeNumbers = quote ['a'] :=
  ⟨⟨_, rfl, by decide⟩, ⟨_, rfl, rfl⟩⟩

end GStore
