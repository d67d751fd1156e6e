import ChaosForger.Json

/-!
# ChaosForger.Json.Grammar

The grammar of JSON texts over bytes, with the value each text denotes.

Tokens carry their well-formedness: `NumberToken` and `StringItem` are what
the scanner of `json.cpp` takes for numbers and for the insides of strings,
and `Rfc` says which of them RFC 8259 has.  The structure above the tokens is
one inductive predicate (`Derives`) over a choice of tokens (`Lexis`), so that
the grammar of the parser and the one of the RFC share it.
-/

namespace ChaosForger

open Libc

/-! ## Numbers -/

/-- The exponent of a number. -/
structure ExponentToken where
  marker : UInt8
  marker_eq : marker = 101 ∨ marker = 69
  sign : List UInt8
  sign_eq : sign = [] ∨ sign = [43] ∨ sign = [45]
  digits : List UInt8
  digits_all : digits.all isdigit = true

/-- An optional sign, digits, and optionally a point or an exponent, with or
without digits behind it. -/
structure NumberToken where
  sign : List UInt8
  sign_eq : sign = [] ∨ sign = [43] ∨ sign = [45]
  int : List UInt8
  int_ne : int ≠ []
  int_all : int.all isdigit = true
  frac : Option (List UInt8)
  frac_all : ∀ ds ∈ frac, ds.all isdigit = true
  exp : Option ExponentToken

namespace ExponentToken

def text (e : ExponentToken) : List UInt8 := e.marker :: (e.sign ++ e.digits)

def value (e : ExponentToken) : Int :=
  if e.sign = [45] then -(digitsValue 10 e.digits : Int) else digitsValue 10 e.digits

end ExponentToken

namespace NumberToken

def fracText (t : NumberToken) : List UInt8 := (t.frac.map fun ds => 46 :: ds).getD []

def expText (t : NumberToken) : List UInt8 := (t.exp.map ExponentToken.text).getD []

def text (t : NumberToken) : List UInt8 := t.sign ++ (t.int ++ (t.fracText ++ t.expText))

/-- The number the literal stands for. -/
def value (t : NumberToken) : ℚ :=
  signed t.sign (scientific (t.int ++ t.frac.getD []) (t.frac.getD []).length
    ((t.exp.map ExponentToken.value).getD 0))

/-- `[ minus ] int [ frac ] [ exp ]`: no plus, no leading zero, and a digit
behind the point and in the exponent. -/
def Rfc (t : NumberToken) : Prop :=
  t.sign ≠ [43] ∧ (t.int = [48] ∨ t.int.head? ≠ some 48) ∧ t.frac ≠ some [] ∧
    ∀ e ∈ t.exp, e.digits ≠ []

end NumberToken

/-! ## Strings -/

/-- The four digits of a `\u` escape. -/
structure Hex4 where
  digits : List UInt8
  digits_length : digits.length = 4
  digits_all : digits.all isxdigit = true

/-- The code unit. -/
def Hex4.value (h : Hex4) : Nat := digitsValue 16 h.digits

/-- What stands between the quotes of a string, piece by piece. -/
inductive StringItem where
  | plain (c : UInt8) (h : c ≠ 34 ∧ c ≠ 92)
  | escape (c : UInt8) (h : c ∈ lit "\"\\/bfnrt")
  | unicode (h : Hex4)

/-- The byte a two-character escape stands for. -/
def escapeByte (c : UInt8) : UInt8 :=
  if c = 98 then 8 else if c = 102 then 12 else if c = 110 then 10 else if c = 114 then 13
  else if c = 116 then 9 else c

/-- UTF-8 as `append_utf8` writes it. -/
def utf8 (cp : Nat) : List UInt8 := JsonParser.appendUtf8 [] cp

/-- The code point of a surrogate pair. -/
def pairValue (high low : Nat) : Nat := 0x10000 + (high - 0xD800) * 0x400 + (low - 0xDC00)

namespace StringItem

def text : StringItem → List UInt8
  | plain c _ => [c]
  | escape c _ => [92, c]
  | unicode h => 92 :: 117 :: h.digits

/-- No raw control character. -/
def Rfc : StringItem → Prop
  | plain c _ => 32 ≤ c
  | escape _ _ | unicode _ => True

end StringItem

/-- The text between the quotes. -/
def itemsText (items : List StringItem) : List UInt8 := items.flatMap StringItem.text

/-- A string literal. -/
def quotedText (items : List StringItem) : List UInt8 := 34 :: (itemsText items ++ [34])

/-- The bytes a string denotes.  A high surrogate is combined with a low one
right behind it; any other surrogate is written as it is. -/
def decode : List StringItem → List UInt8
  | [] => []
  | .plain c _ :: items => c :: decode items
  | .escape c _ :: items => escapeByte c :: decode items
  | .unicode h :: .unicode l :: items =>
      if JsonParser.isHigh h.value ∧ JsonParser.isLow l.value then
        utf8 (pairValue h.value l.value) ++ decode items
      else utf8 h.value ++ decode (.unicode l :: items)
  | .unicode h :: items => utf8 h.value ++ decode items

/-! ## Values -/

/-- A choice of number and string literals, with what they denote. -/
structure Lexis where
  number : List UInt8 → ℚ → Prop
  string : List UInt8 → List UInt8 → Prop

/-- What a piece of text denotes. -/
inductive Phrase where
  | value (v : Json)
  /-- a value with white space around it -/
  | padded (v : Json)
  /-- array elements, with their commas -/
  | elements (vs : List Json)
  /-- a member of an object -/
  | member (key : List UInt8) (v : Json)
  /-- the members of an object, with their commas -/
  | members (kvs : List (List UInt8 × Json))

/-- Insignificant white space. -/
def Ws (w : List UInt8) : Prop := w.all JsonParser.isWs = true

instance (w : List UInt8) : Decidable (Ws w) := inferInstanceAs (Decidable (_ = _))

/-- The text denotes the phrase, and no value in it stands inside more than
`n` containers. -/
inductive Derives (lex : Lexis) : Nat → Phrase → List UInt8 → Prop
  | null {n : Nat} : Derives lex n (.value .null) (lit "null")
  | true {n : Nat} : Derives lex n (.value (.bool true)) (lit "true")
  | false {n : Nat} : Derives lex n (.value (.bool false)) (lit "false")
  | number {n : Nat} {t : List UInt8} {q : ℚ} : lex.number t q →
      Derives lex n (.value (.number q)) t
  | string {n : Nat} {t s : List UInt8} : lex.string t s → Derives lex n (.value (.string s)) t
  | emptyArray {n : Nat} {w : List UInt8} : Ws w →
      Derives lex n (.value (.array [])) (91 :: (w ++ [93]))
  | array {n : Nat} {vs : List Json} {t : List UInt8} : Derives lex n (.elements vs) t →
      Derives lex (n + 1) (.value (.array vs)) (91 :: (t ++ [93]))
  | emptyObject {n : Nat} {w : List UInt8} : Ws w →
      Derives lex n (.value (.object [])) (123 :: (w ++ [125]))
  | object {n : Nat} {kvs : List (List UInt8 × Json)} {t : List UInt8} :
      Derives lex n (.members kvs) t →
      Derives lex (n + 1) (.value (.object (JsonObject.ofMembers kvs))) (123 :: (t ++ [125]))
  | padded {n : Nat} {v : Json} {w t w' : List UInt8} : Ws w → Derives lex n (.value v) t → Ws w' →
      Derives lex n (.padded v) (w ++ (t ++ w'))
  | lastElement {n : Nat} {v : Json} {t : List UInt8} : Derives lex n (.padded v) t →
      Derives lex n (.elements [v]) t
  | element {n : Nat} {v : Json} {vs : List Json} {t r : List UInt8} :
      Derives lex n (.padded v) t → Derives lex n (.elements vs) r →
      Derives lex n (.elements (v :: vs)) (t ++ 44 :: r)
  | member {n : Nat} {v : Json} {w k key w' t : List UInt8} : Ws w → lex.string k key → Ws w' →
      Derives lex n (.padded v) t → Derives lex n (.member key v) (w ++ (k ++ (w' ++ 58 :: t)))
  | lastMember {n : Nat} {v : Json} {key t : List UInt8} : Derives lex n (.member key v) t →
      Derives lex n (.members [(key, v)]) t
  | nextMember {n : Nat} {v : Json} {kvs : List (List UInt8 × Json)} {key t r : List UInt8} :
      Derives lex n (.member key v) t → Derives lex n (.members kvs) r →
      Derives lex n (.members ((key, v) :: kvs)) (t ++ 44 :: r)

/-- More tokens, more texts. -/
theorem Derives.mono {lex lex' : Lexis} (hn : ∀ t q, lex.number t q → lex'.number t q)
    (hs : ∀ t s, lex.string t s → lex'.string t s) {n : Nat} {phrase : Phrase} {t : List UInt8}
    (h : Derives lex n phrase t) : Derives lex' n phrase t := by
  induction h with
  | null => exact .null
  | true => exact .true
  | false => exact .false
  | number h => exact .number (hn _ _ h)
  | string h => exact .string (hs _ _ h)
  | emptyArray h => exact .emptyArray h
  | array _ ih => exact .array ih
  | emptyObject h => exact .emptyObject h
  | object _ ih => exact .object ih
  | padded h _ h' ih => exact .padded h ih h'
  | lastElement _ ih => exact .lastElement ih
  | element _ _ ih ih' => exact .element ih ih'
  | member h hk h' _ ih => exact .member h (hs _ _ hk) h' ih
  | lastMember _ ih => exact .lastMember ih
  | nextMember _ _ ih ih' => exact .nextMember ih ih'

/-- The tokens of the parser: `toDouble` rounds the numbers, and refuses those
out of range. -/
def scanned (toDouble : ℚ → Option ℚ) : Lexis where
  number t q := ∃ token : NumberToken, t = token.text ∧ toDouble token.value = some q
  string t s := ∃ items : List StringItem, t = quotedText items ∧ s = decode items

end ChaosForger
