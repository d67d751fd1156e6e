import ChaosForger.Libc
import ChaosForger.Loop
import Mathlib.Algebra.Order.Field.Rat

/-!
# ChaosForger.Json

The JSON value and the recursive-descent parser of `json.cpp`.

Layout of the module:

* **values** — `Json` and the operations of `JsonObject`, a `std::map` from
  keys to values;
* **numbers** — `stod`, exact up to the rounding `toDouble`;
* **the parser** — a position in a text, with functions that return the
  parser and what they have read, `none` where the source returns false.

Reads of the text are explicit and may fail (`Fault.outOfBounds`), and the
three `while` loops whose rounds call other parts of the parser run on fuel
(`Fault.outOfFuel`), so that both can be shown not to happen.
-/

namespace ChaosForger

open Libc

/-! ## Values -/

inductive Json where
  | null
  | bool (value : Bool)
  | number (value : ℚ)
  | string (value : List UInt8)
  | array (elements : List Json)
  | object (members : List (List UInt8 × Json))

/-- A `std::map<std::string, Json>`: the members in the order of their keys. -/
abbrev JsonObject := List (List UInt8 × Json)

namespace JsonObject

/-- `obj[key] = value` -/
def insert (key : List UInt8) (value : Json) : JsonObject → JsonObject
  | [] => [(key, value)]
  | (k, v) :: obj =>
      if key = k then (k, value) :: obj
      else if key < k then (key, value) :: (k, v) :: obj
      else (k, v) :: insert key value obj

def lookup (key : List UInt8) : JsonObject → Option Json
  | [] => none
  | (k, v) :: obj => if key = k then some v else lookup key obj

/-- The map that a list of members fills, one after the other. -/
def ofMembers (members : List (List UInt8 × Json)) : JsonObject :=
  members.foldl (fun obj (key, value) => insert key value obj) []

end JsonObject

namespace Json

def find (root : Json) (key : List UInt8) : Option Json :=
  match root with
  | .object obj => JsonObject.lookup key obj
  | _ => none

end Json

/-! ## Numbers -/

/-- The value of `digits` with a decimal point in front of the last `point` of
them and an exponent. -/
def scientific (digits : List UInt8) (point : Nat) (exponent : Int) : ℚ :=
  digitsValue 10 digits * (10 : ℚ) ^ (exponent - point)

/-- A sign in front of a value. -/
def signed (sign : List UInt8) (value : ℚ) : ℚ := if sign = [45] then -value else value

/-- The sign at the start of a text. -/
def leadingSign : List UInt8 → List UInt8
  | 43 :: _ => [43]
  | 45 :: _ => [45]
  | _ => []

/-- `std::stod` of a decimal numeral: the longest front that is one is read,
what follows is ignored.  `toDouble` rounds the value, and throws out of range;
a text without digits throws too. -/
def stod (toDouble : ℚ → Option ℚ) (s : List UInt8) : Option ℚ :=
  let sign := leadingSign s
  let s := s.drop sign.length
  let digits := s.takeWhile isdigit
  let s := s.drop digits.length
  let fraction := if s.head? = some 46 then s.tail.takeWhile isdigit else []
  let s := if s.head? = some 46 then s.drop (1 + fraction.length) else s
  let exponent :=
    if s.head? = some 101 ∨ s.head? = some 69 then
      let sign := leadingSign s.tail
      let digits := (s.tail.drop sign.length).takeWhile isdigit
      if sign = [45] then -(digitsValue 10 digits : Int) else digitsValue 10 digits
    else 0
  if digits = [] ∧ fraction = [] then none
  else toDouble (signed sign (scientific (digits ++ fraction) fraction.length exponent))

/-! ## The parser -/

/-- What the C++ program must not do: read outside the text, or loop forever. -/
inductive Fault where
  | outOfBounds | outOfFuel
  deriving DecidableEq, Repr

structure JsonParser where
  text : List UInt8
  pos : Nat := 0
  err : List UInt8 := []
  deriving DecidableEq, Repr

namespace JsonParser

/-- Deepest nesting that is parsed. -/
def maxDepth : Nat := 64

def advance (p : JsonParser) (n : Nat) : JsonParser := { p with pos := p.pos + n }

/-- The first message stays. -/
def fail (p : JsonParser) (msg : List UInt8) : JsonParser :=
  if p.err = [] then { p with err := msg ++ lit " at offset " ++ decimal p.pos } else p

/-- `text_[i]` -/
def byte (p : JsonParser) (i : Nat) : Except Fault UInt8 :=
  match p.text[i]? with
  | some c => .ok c
  | none => .error .outOfBounds

/-- A `while` loop; no loop of the parser takes more rounds than the text has bytes. -/
def whileLoop {σ ρ : Type} (p : JsonParser) (body : σ → Pass σ (Except Fault ρ)) (s : σ) :
    Except Fault ρ :=
  (Loop.iterate body (p.text.length + 1) s).getD (.error .outOfFuel)

/-- One round of the loops that skip bytes of a kind. -/
def skipPass (kind : UInt8 → Bool) (p : JsonParser) : Pass JsonParser (Except Fault JsonParser) :=
  if p.pos < p.text.length then
    match p.byte p.pos with
    | .error fault => .exit (.error fault)
    | .ok c => if kind c then .again (p.advance 1) else .exit (.ok p)
  else .exit (.ok p)

def skipWhile (kind : UInt8 → Bool) (p : JsonParser) : Except Fault JsonParser :=
  p.whileLoop (skipPass kind) p

def isWs (c : UInt8) : Bool := c == 32 || c == 9 || c == 10 || c == 13

def skipWs (p : JsonParser) : Except Fault JsonParser := p.skipWhile isWs

/-- Is the next byte one of these? -/
def nextIn (p : JsonParser) (cs : List UInt8) : Except Fault Bool :=
  if p.pos < p.text.length then do return (← p.byte p.pos) ∈ cs else .ok false

/-- Consume one of these bytes. -/
def eatAny (p : JsonParser) (cs : List UInt8) : Except Fault (JsonParser × Bool) := do
  if ← p.nextIn cs then return (p.advance 1, true) else return (p, false)

def eat (p : JsonParser) (c : UInt8) : Except Fault (JsonParser × Bool) := p.eatAny [c]

def parseLiteral (p : JsonParser) (literal : List UInt8) (result : Json) : JsonParser × Option Json :=
  if (p.text.drop p.pos).take literal.length ≠ literal then
    (p.fail (lit "invalid literal"), none)
  else (p.advance literal.length, some result)

/-- A point, and digits behind it. -/
def parseFraction (p : JsonParser) : Except Fault JsonParser := do
  let (p, point) ← p.eat 46
  if point then p.skipWhile isdigit else .ok p

/-- An exponent, with or without a sign and digits. -/
def parseExponent (p : JsonParser) : Except Fault JsonParser := do
  let (p, exponent) ← p.eatAny [101, 69]
  if exponent then do
    let (p, _) ← p.eatAny [45, 43]
    p.skipWhile isdigit
  else .ok p

def parseNumber (toDouble : ℚ → Option ℚ) (p : JsonParser) :
    Except Fault (JsonParser × Option Json) := do
  let start := p.pos
  let (p, _) ← p.eatAny [45, 43]
  let digitsStart := p.pos
  let p ← p.skipWhile isdigit
  let digits := digitsStart < p.pos
  let p ← p.parseFraction
  let p ← p.parseExponent
  if ¬ digits then return (p.fail (lit "invalid number"), none)
  match stod toDouble ((p.text.drop start).take (p.pos - start)) with
  | none => return (p.fail (lit "number out of range"), none)
  | some value => return (p, some (.number value))

/-! ## Strings -/

/-- The value of a hex digit. -/
def hexValue (c : UInt8) : Option Nat :=
  if 48 ≤ c && c ≤ 57 then some (c.toNat - 48)
  else if 97 ≤ c && c ≤ 102 then some (c.toNat - 97 + 10)
  else if 65 ≤ c && c ≤ 70 then some (c.toNat - 65 + 10)
  else none

/-- The loop of `parse_hex4`, `n` digits before its end. -/
def parseHex : Nat → JsonParser → Nat → Except Fault (JsonParser × Option Nat)
  | 0, p, out => .ok (p, some out)
  | n + 1, p, out => do
      let c ← p.byte p.pos
      let p := p.advance 1
      match hexValue c with
      | none => return (p.fail (lit "invalid \\u escape"), none)
      | some d => parseHex n p (out * 16 + d)

def parseHex4 (p : JsonParser) : Except Fault (JsonParser × Option Nat) :=
  if p.text.length < p.pos + 4 then .ok (p.fail (lit "truncated \\u escape"), none)
  else parseHex 4 p 0

def appendUtf8 (out : List UInt8) (cp : Nat) : List UInt8 :=
  if cp < 0x80 then out ++ [cp.toUInt8]
  else if cp < 0x800 then
    out ++ [(0xC0 ||| cp >>> 6).toUInt8, (0x80 ||| cp &&& 0x3F).toUInt8]
  else if cp < 0x10000 then
    out ++ [(0xE0 ||| cp >>> 12).toUInt8, (0x80 ||| cp >>> 6 &&& 0x3F).toUInt8,
      (0x80 ||| cp &&& 0x3F).toUInt8]
  else
    out ++ [(0xF0 ||| cp >>> 18).toUInt8, (0x80 ||| cp >>> 12 &&& 0x3F).toUInt8,
      (0x80 ||| cp >>> 6 &&& 0x3F).toUInt8, (0x80 ||| cp &&& 0x3F).toUInt8]

/-- The byte an escape other than `\u` stands for. -/
def escaped (esc : UInt8) : Option UInt8 :=
  if esc = 34 ∨ esc = 92 ∨ esc = 47 then some esc
  else if esc = 98 then some 8
  else if esc = 102 then some 12
  else if esc = 110 then some 10
  else if esc = 114 then some 13
  else if esc = 116 then some 9
  else none

def isHigh (cp : Nat) : Bool := 0xD800 ≤ cp && cp ≤ 0xDBFF

def isLow (cp : Nat) : Bool := 0xDC00 ≤ cp && cp ≤ 0xDFFF

/-- Behind a high surrogate: the code point of the pair, or the surrogate
itself with the position put back. -/
def parseLow (p : JsonParser) (cp : Nat) : Except Fault (JsonParser × Nat) :=
  if isHigh cp ∧ p.pos + 1 < p.text.length then do
    if (← p.byte p.pos) = 92 ∧ (← p.byte (p.pos + 1)) = 117 then
      let save := p.pos
      match ← (p.advance 2).parseHex4 with
      | (p, some low) =>
          if isLow low then
            return (p, 0x10000 + (cp - 0xD800) <<< 10 + (low - 0xDC00))
          else return ({ p with pos := save }, cp)
      | (p, none) => return ({ p with pos := save }, cp)  -- lone surrogate: keep as-is
    else return (p, cp)
  else .ok (p, cp)

/-- One escape, behind the backslash. -/
def parseEscape (p : JsonParser) (out : List UInt8) :
    Except Fault (JsonParser × Option (List UInt8)) := do
  let esc ← p.byte p.pos
  let p := p.advance 1
  if esc = 117 then
    match ← p.parseHex4 with
    | (p, none) => return (p, none)
    | (p, some cp) =>
        let (p, cp) ← p.parseLow cp
        return (p, some (appendUtf8 out cp))
  else
    match escaped esc with
    | some c => return (p, some (out ++ [c]))
    | none => return (p.fail (lit "invalid escape sequence"), none)

/-- One round of the string loop. -/
def stringPass : JsonParser × List UInt8 →
    Pass (JsonParser × List UInt8) (Except Fault (JsonParser × Option (List UInt8)))
  | (p, out) =>
      if p.text.length ≤ p.pos then .exit (.ok (p.fail (lit "unterminated string"), none))
      else
        match p.byte p.pos with
        | .error fault => .exit (.error fault)
        | .ok c =>
            let p := p.advance 1
            if c = 34 then .exit (.ok (p, some out))
            else if c ≠ 92 then .again (p, out ++ [c])
            else if p.text.length ≤ p.pos then
              .exit (.ok (p.fail (lit "unterminated string"), none))
            else
              match p.parseEscape out with
              | .error fault => .exit (.error fault)
              | .ok (p, none) => .exit (.ok (p, none))
              | .ok (p, some out) => .again (p, out)

def parseString (p : JsonParser) : Except Fault (JsonParser × Option (List UInt8)) := do
  match ← p.eat 34 with
  | (p, false) => return (p.fail (lit "expected string"), none)
  | (p, true) => p.whileLoop stringPass (p, [])

/-! ## Containers -/

/-- What follows an element: another one, or the end of the container. -/
def afterElement {σ : Type} (p : JsonParser) (close : UInt8) (msg : List UInt8) (s : σ)
    (result : Json) : Pass (JsonParser × σ) (Except Fault (JsonParser × Option Json)) :=
  match p.eat 44 with
  | .error fault => .exit (.error fault)
  | .ok (p, true) => .again (p, s)
  | .ok (p, false) =>
      match p.eat close with
      | .error fault => .exit (.error fault)
      | .ok (p, true) => .exit (.ok (p, some result))
      | .ok (p, false) => .exit (.ok (p.fail msg, none))

/-- One element with the white space around it. -/
def parseElement (element : JsonParser → Except Fault (JsonParser × Option Json))
    (p : JsonParser) : Except Fault (JsonParser × Option Json) := do
  let p ← p.skipWs
  match ← element p with
  | (p, none) => return (p, none)
  | (p, some value) => return (← p.skipWs, some value)

/-- One round of the array loop. -/
def arrayPass (element : JsonParser → Except Fault (JsonParser × Option Json)) :
    JsonParser × List Json →
      Pass (JsonParser × List Json) (Except Fault (JsonParser × Option Json))
  | (p, arr) =>
      match p.parseElement element with
      | .error fault => .exit (.error fault)
      | .ok (p, none) => .exit (.ok (p, none))
      | .ok (p, some value) =>
          p.afterElement 93 (lit "expected ',' or ']' in array") (arr ++ [value])
            (.array (arr ++ [value]))

def parseArray (element : JsonParser → Except Fault (JsonParser × Option Json)) (p : JsonParser) :
    Except Fault (JsonParser × Option Json) := do
  let (p, opened) ← p.eat 91
  if ¬ opened then return (p.fail (lit "expected '['"), none)
  let p ← p.skipWs
  let (p, closed) ← p.eat 93
  if closed then return (p, some (.array []))
  p.whileLoop (arrayPass element) (p, [])

/-- The key of a member, and its colon. -/
def parseKey (p : JsonParser) : Except Fault (JsonParser × Option (List UInt8)) := do
  let p ← p.skipWs
  match ← p.parseString with
  | (p, none) => return (p, none)
  | (p, some key) =>
      let p ← p.skipWs
      match ← p.eat 58 with
      | (p, false) => return (p.fail (lit "expected ':' after object key"), none)
      | (p, true) => return (p, some key)

/-- One round of the object loop. -/
def objectPass (element : JsonParser → Except Fault (JsonParser × Option Json)) :
    JsonParser × JsonObject →
      Pass (JsonParser × JsonObject) (Except Fault (JsonParser × Option Json))
  | (p, obj) =>
      match p.parseKey with
      | .error fault => .exit (.error fault)
      | .ok (p, none) => .exit (.ok (p, none))
      | .ok (p, some key) =>
          match p.parseElement element with
          | .error fault => .exit (.error fault)
          | .ok (p, none) => .exit (.ok (p, none))
          | .ok (p, some value) =>
              p.afterElement 125 (lit "expected ',' or '\x7d' in object") (obj.insert key value)
                (.object (obj.insert key value))

def parseObject (element : JsonParser → Except Fault (JsonParser × Option Json)) (p : JsonParser) :
    Except Fault (JsonParser × Option Json) := do
  let (p, opened) ← p.eat 123
  if ¬ opened then return (p.fail (lit "expected '\x7b'"), none)
  let p ← p.skipWs
  let (p, closed) ← p.eat 125
  if closed then return (p, some (.object []))
  p.whileLoop (objectPass element) (p, [])

/-! ## Values and texts -/

/-- One value, with so many levels of nesting left. -/
def parseValue (toDouble : ℚ → Option ℚ) :
    Nat → JsonParser → Except Fault (JsonParser × Option Json)
  | 0, p => .ok (p.fail (lit "JSON nesting too deep"), none)
  | levels + 1, p =>
      if p.text.length ≤ p.pos then .ok (p.fail (lit "unexpected end of input"), none)
      else do
        let c ← p.byte p.pos
        if c = 123 then p.parseObject (parseValue toDouble levels)
        else if c = 91 then p.parseArray (parseValue toDouble levels)
        else if c = 34 then
          match ← p.parseString with
          | (p, none) => return (p, none)
          | (p, some s) => return (p, some (.string s))
        else if c = 116 then return p.parseLiteral (lit "true") (.bool true)
        else if c = 102 then return p.parseLiteral (lit "false") (.bool false)
        else if c = 110 then return p.parseLiteral (lit "null") .null
        else p.parseNumber toDouble

/-- `JsonParser::parse`: the value, or `none` for false, and what `err` holds
afterwards. -/
def parse (toDouble : ℚ → Option ℚ) (text err : List UInt8) :
    Except Fault (List UInt8 × Option Json) := do
  let p ← skipWs { text }
  match ← parseValue toDouble (maxDepth + 1) p with
  | (p, none) => return (p.err, none)
  | (p, some value) =>
      let p ← p.skipWs
      if p.pos ≠ p.text.length then
        return (lit "trailing characters after JSON value at offset " ++ decimal p.pos, none)
      return (err, some value)

end JsonParser

end ChaosForger
