import ChaosForger.Json.Values

/-!
# ChaosForger.Json.Checked

The parser with every use of its resources checked.

`pos_` is assigned by `moveTo` only, which refuses a position behind the end of
the text; the text is read by `byte` only, which refuses an index behind it;
and `parseValue` counts its depth up, as `json.cpp` does, on a stack with room
for so many activations.  Whatever a check refuses ends the parser with a
`Fault`.  Function by function this is the parser of `ChaosForger.Json`, so
that no check ever refuses.
-/

namespace ChaosForger

open Libc

namespace JsonParser

/-- `pos_ = pos`; the last position is the end of the text. -/
def moveTo (p : JsonParser) (pos : Nat) : Except Fault JsonParser :=
  if pos ≤ p.text.length then .ok { p with pos } else .error .outOfBounds

namespace Checked

/-! ## White space, literals and numbers -/

def skipPass (kind : UInt8 → Bool) (p : JsonParser) : Pass JsonParser (Except Fault JsonParser) :=
  if p.pos < p.text.length then
    match p.byte p.pos with
    | .error fault => .exit (.error fault)
    | .ok c =>
        if kind c then
          match p.moveTo (p.pos + 1) with
          | .error fault => .exit (.error fault)
          | .ok p => .again p
        else .exit (.ok p)
  else .exit (.ok p)

def skipWhile (kind : UInt8 → Bool) (p : JsonParser) : Except Fault JsonParser :=
  p.whileLoop (skipPass kind) p

def skipWs (p : JsonParser) : Except Fault JsonParser := skipWhile isWs p

def eatAny (p : JsonParser) (cs : List UInt8) : Except Fault (JsonParser × Bool) := do
  if ← p.nextIn cs then return (← p.moveTo (p.pos + 1), true) else return (p, false)

def eat (p : JsonParser) (c : UInt8) : Except Fault (JsonParser × Bool) := eatAny p [c]

def parseLiteral (p : JsonParser) (literal : List UInt8) (result : Json) :
    Except Fault (JsonParser × Option Json) :=
  if (p.text.drop p.pos).take literal.length ≠ literal then
    .ok (p.fail (lit "invalid literal"), none)
  else do return (← p.moveTo (p.pos + literal.length), some result)

def parseFraction (p : JsonParser) : Except Fault JsonParser := do
  let (p, point) ← eat p 46
  if point then skipWhile isdigit p else .ok p

def parseExponent (p : JsonParser) : Except Fault JsonParser := do
  let (p, exponent) ← eatAny p [101, 69]
  if exponent then do
    let (p, _) ← eatAny p [45, 43]
    skipWhile isdigit p
  else .ok p

def parseNumber (toDouble : ℚ → Option ℚ) (p : JsonParser) :
    Except Fault (JsonParser × Option Json) := do
  let start := p.pos
  let (p, _) ← eatAny p [45, 43]
  let digitsStart := p.pos
  let p ← skipWhile isdigit p
  let digits := digitsStart < p.pos
  let p ← parseFraction p
  let p ← parseExponent p
  if ¬ digits then return (p.fail (lit "invalid number"), none)
  match stod toDouble ((p.text.drop start).take (p.pos - start)) with
  | none => return (p.fail (lit "number out of range"), none)
  | some value => return (p, some (.number value))

/-! ## Strings -/

def parseHex : Nat → JsonParser → Nat → Except Fault (JsonParser × Option Nat)
  | 0, p, out => .ok (p, some out)
  | n + 1, p, out => do
      let c ← p.byte p.pos
      let p ← p.moveTo (p.pos + 1)
      match hexValue c with
      | none => return (p.fail (lit "invalid \\u escape"), none)
      | some d => parseHex n p (out * 16 + d)

def parseHex4 (p : JsonParser) : Except Fault (JsonParser × Option Nat) :=
  if p.text.length < p.pos + 4 then .ok (p.fail (lit "truncated \\u escape"), none)
  else parseHex 4 p 0

def parseLow (p : JsonParser) (cp : Nat) : Except Fault (JsonParser × Nat) :=
  if isHigh cp ∧ p.pos + 1 < p.text.length then do
    if (← p.byte p.pos) = 92 ∧ (← p.byte (p.pos + 1)) = 117 then
      let save := p.pos
      match ← parseHex4 (← p.moveTo (p.pos + 2)) with
      | (p, some low) =>
          if isLow low then
            return (p, 0x10000 + (cp - 0xD800) <<< 10 + (low - 0xDC00))
          else return (← p.moveTo save, cp)
      | (p, none) => return (← p.moveTo save, cp)
    else return (p, cp)
  else .ok (p, cp)

def parseEscape (p : JsonParser) (out : List UInt8) :
    Except Fault (JsonParser × Option (List UInt8)) := do
  let esc ← p.byte p.pos
  let p ← p.moveTo (p.pos + 1)
  if esc = 117 then
    match ← parseHex4 p with
    | (p, none) => return (p, none)
    | (p, some cp) =>
        let (p, cp) ← parseLow p cp
        return (p, some (appendUtf8 out cp))
  else
    match escaped esc with
    | some c => return (p, some (out ++ [c]))
    | none => return (p.fail (lit "invalid escape sequence"), none)

def stringPass : JsonParser × List UInt8 →
    Pass (JsonParser × List UInt8) (Except Fault (JsonParser × Option (List UInt8)))
  | (p, out) =>
      if p.text.length ≤ p.pos then .exit (.ok (p.fail (lit "unterminated string"), none))
      else
        match p.byte p.pos with
        | .error fault => .exit (.error fault)
        | .ok c =>
            match p.moveTo (p.pos + 1) with
            | .error fault => .exit (.error fault)
            | .ok p =>
                if c = 34 then .exit (.ok (p, some out))
                else if c ≠ 92 then .again (p, out ++ [c])
                else if p.text.length ≤ p.pos then
                  .exit (.ok (p.fail (lit "unterminated string"), none))
                else
                  match parseEscape p out with
                  | .error fault => .exit (.error fault)
                  | .ok (p, none) => .exit (.ok (p, none))
                  | .ok (p, some out) => .again (p, out)

def parseString (p : JsonParser) : Except Fault (JsonParser × Option (List UInt8)) := do
  match ← eat p 34 with
  | (p, false) => return (p.fail (lit "expected string"), none)
  | (p, true) => p.whileLoop stringPass (p, [])

/-! ## Containers -/

def afterElement {σ : Type} (p : JsonParser) (close : UInt8) (msg : List UInt8) (s : σ)
    (result : Json) : Pass (JsonParser × σ) (Except Fault (JsonParser × Option Json)) :=
  match eat p 44 with
  | .error fault => .exit (.error fault)
  | .ok (p, true) => .again (p, s)
  | .ok (p, false) =>
      match eat p close with
      | .error fault => .exit (.error fault)
      | .ok (p, true) => .exit (.ok (p, some result))
      | .ok (p, false) => .exit (.ok (p.fail msg, none))

def parseElement (element : JsonParser → Except Fault (JsonParser × Option Json))
    (p : JsonParser) : Except Fault (JsonParser × Option Json) := do
  let p ← skipWs p
  match ← element p with
  | (p, none) => return (p, none)
  | (p, some value) => return (← skipWs p, some value)

def arrayPass (element : JsonParser → Except Fault (JsonParser × Option Json)) :
    JsonParser × List Json →
      Pass (JsonParser × List Json) (Except Fault (JsonParser × Option Json))
  | (p, arr) =>
      match parseElement element p with
      | .error fault => .exit (.error fault)
      | .ok (p, none) => .exit (.ok (p, none))
      | .ok (p, some value) =>
          afterElement p 93 (lit "expected ',' or ']' in array") (arr ++ [value])
            (.array (arr ++ [value]))

def parseArray (element : JsonParser → Except Fault (JsonParser × Option Json)) (p : JsonParser) :
    Except Fault (JsonParser × Option Json) := do
  let (p, opened) ← eat p 91
  if ¬ opened then return (p.fail (lit "expected '['"), none)
  let p ← skipWs p
  let (p, closed) ← eat p 93
  if closed then return (p, some (.array []))
  p.whileLoop (arrayPass element) (p, [])

def parseKey (p : JsonParser) : Except Fault (JsonParser × Option (List UInt8)) := do
  let p ← skipWs p
  match ← parseString p with
  | (p, none) => return (p, none)
  | (p, some key) =>
      let p ← skipWs p
      match ← eat p 58 with
      | (p, false) => return (p.fail (lit "expected ':' after object key"), none)
      | (p, true) => return (p, some key)

def objectPass (element : JsonParser → Except Fault (JsonParser × Option Json)) :
    JsonParser × JsonObject →
      Pass (JsonParser × JsonObject) (Except Fault (JsonParser × Option Json))
  | (p, obj) =>
      match parseKey p with
      | .error fault => .exit (.error fault)
      | .ok (p, none) => .exit (.ok (p, none))
      | .ok (p, some key) =>
          match parseElement element p with
          | .error fault => .exit (.error fault)
          | .ok (p, none) => .exit (.ok (p, none))
          | .ok (p, some value) =>
              afterElement p 125 (lit "expected ',' or '\x7d' in object") (obj.insert key value)
                (.object (obj.insert key value))

def parseObject (element : JsonParser → Except Fault (JsonParser × Option Json)) (p : JsonParser) :
    Except Fault (JsonParser × Option Json) := do
  let (p, opened) ← eat p 123
  if ¬ opened then return (p.fail (lit "expected '\x7b'"), none)
  let p ← skipWs p
  let (p, closed) ← eat p 125
  if closed then return (p, some (.object []))
  p.whileLoop (objectPass element) (p, [])

/-! ## Values and texts -/

/-- `parse_value` at a depth, on a stack with room for `stack` activations,
this one included. -/
def parseValue (toDouble : ℚ → Option ℚ) :
    Nat → Nat → JsonParser → Except Fault (JsonParser × Option Json)
  | 0, _, _ => .error .outOfFuel
  | stack + 1, depth, p =>
      if maxDepth < depth then .ok (p.fail (lit "JSON nesting too deep"), none)
      else if p.text.length ≤ p.pos then .ok (p.fail (lit "unexpected end of input"), none)
      else do
        let c ← p.byte p.pos
        if c = 123 then parseObject (parseValue toDouble stack (depth + 1)) p
        else if c = 91 then parseArray (parseValue toDouble stack (depth + 1)) p
        else if c = 34 then
          match ← parseString p with
          | (p, none) => return (p, none)
          | (p, some s) => return (p, some (.string s))
        else if c = 116 then parseLiteral p (lit "true") (.bool true)
        else if c = 102 then parseLiteral p (lit "false") (.bool false)
        else if c = 110 then parseLiteral p (lit "null") .null
        else parseNumber toDouble p

/-- The most activations of `parse_value` at one time. -/
def maxStack : Nat := 66

def parse (toDouble : ℚ → Option ℚ) (text err : List UInt8) :
    Except Fault (List UInt8 × Option Json) := do
  let p ← skipWs { text }
  match ← parseValue toDouble maxStack 0 p with
  | (p, none) => return (p.err, none)
  | (p, some value) =>
      let p ← skipWs p
      if p.pos ≠ p.text.length then
        return (lit "trailing characters after JSON value at offset " ++ decimal p.pos, none)
      return (err, some value)

/-! ## No check refuses -/

section Moves

variable {p : JsonParser}

theorem moveTo_of_le {n : Nat} (h : p.pos + n ≤ p.text.length) :
    p.moveTo (p.pos + n) = .ok (p.advance n) := if_pos h

/-- Behind a byte that is read the position is in the text. -/
theorem moveTo_of_byte {c : UInt8} (h : p.byte p.pos = .ok c) :
    p.moveTo (p.pos + 1) = .ok (p.advance 1) := by
  refine moveTo_of_le ?_
  unfold byte at h
  split at h
  · next hc => exact (List.getElem?_eq_some_iff.mp hc).1
  · cases h

/-- `text_[pos_++]` -/
theorem byte_bind {β : Type} (k : UInt8 → JsonParser → Except Fault β) :
    (do let c ← p.byte p.pos; let q ← p.moveTo (p.pos + 1); k c q) =
      (do let c ← p.byte p.pos; k c (p.advance 1)) := by
  cases hc : p.byte p.pos with
  | error fault => rfl
  | ok c => simp only [bind, Except.bind, moveTo_of_byte hc]

end Moves

theorem skipPass_eq : skipPass = JsonParser.skipPass := by
  funext kind p
  by_cases h : p.pos < p.text.length
  · have hmove : p.moveTo (p.pos + 1) = .ok (p.advance 1) := moveTo_of_le h
    simp only [skipPass, if_pos h, hmove]
    exact (if_pos h).symm
  · simp only [skipPass, if_neg h]
    exact (if_neg h).symm

theorem skipWhile_eq : skipWhile = JsonParser.skipWhile := by
  funext kind p
  rw [skipWhile, skipPass_eq, JsonParser.skipWhile]

theorem skipWs_eq : skipWs = JsonParser.skipWs := by
  funext p
  rw [skipWs, skipWhile_eq, JsonParser.skipWs]

theorem eatAny_eq : eatAny = JsonParser.eatAny := by
  funext p cs
  by_cases h : p.pos < p.text.length
  · have hmove : p.moveTo (p.pos + 1) = .ok (p.advance 1) := moveTo_of_le h
    simp only [eatAny, hmove]
    rfl
  · have hnext : p.nextIn cs = .ok false := if_neg h
    simp only [eatAny, JsonParser.eatAny, hnext]
    rfl

theorem eat_eq : eat = JsonParser.eat := by
  funext p c
  rw [eat, eatAny_eq, JsonParser.eat]

theorem parseLiteral_eq (p : JsonParser) (literal : List UInt8) (result : Json)
    (h : p.pos ≤ p.text.length) :
    parseLiteral p literal result = .ok (p.parseLiteral literal result) := by
  unfold parseLiteral JsonParser.parseLiteral
  by_cases hlit : (p.text.drop p.pos).take literal.length = literal
  · have hlen := congrArg List.length hlit
    rw [List.length_take, List.length_drop] at hlen
    have hend : p.pos + literal.length ≤ p.text.length := by omega
    simp only [hlit, ne_eq, not_true_eq_false, if_false, moveTo_of_le hend]
    rfl
  · simp only [ne_eq, hlit, not_false_eq_true, if_true]

theorem parseFraction_eq : parseFraction = JsonParser.parseFraction := by
  funext p
  simp only [parseFraction, eat_eq, skipWhile_eq]
  rfl

theorem parseExponent_eq : parseExponent = JsonParser.parseExponent := by
  funext p
  simp only [parseExponent, eatAny_eq, skipWhile_eq]
  rfl

theorem parseNumber_eq : parseNumber = JsonParser.parseNumber := by
  funext toDouble p
  simp only [parseNumber, eatAny_eq, skipWhile_eq, parseFraction_eq, parseExponent_eq]
  rfl

theorem parseHex_eq (n : Nat) (p : JsonParser) (out : Nat) :
    parseHex n p out = JsonParser.parseHex n p out := by
  induction n generalizing p out with
  | zero => rfl
  | succ n ih =>
      simp only [parseHex, ih]
      exact byte_bind _

theorem parseHex4_eq : parseHex4 = JsonParser.parseHex4 := by
  funext p
  simp only [parseHex4, JsonParser.parseHex4, parseHex_eq]

/-- The position that is put back was one before. -/
theorem parseLow_eq : parseLow = JsonParser.parseLow := by
  funext p cp
  by_cases h : isHigh cp ∧ p.pos + 1 < p.text.length
  · have hfront : p.moveTo (p.pos + 2) = .ok (p.advance 2) := moveTo_of_le h.2
    obtain ⟨q, low, hq, hwithin, -⟩ := parseHex4_spec (p.advance 2)
    have hback : q.moveTo p.pos = .ok { q with pos := p.pos } :=
      if_pos (by rw [hwithin.text]; exact Nat.le_of_lt (Nat.lt_of_succ_lt h.2))
    cases low <;> simp only [parseLow, JsonParser.parseLow, if_pos h, hfront, parseHex4_eq, bind,
      Except.bind, hq, hback]
  · simp only [parseLow, if_neg h]
    exact (if_neg h).symm

theorem parseEscape_eq : parseEscape = JsonParser.parseEscape := by
  funext p out
  simp only [parseEscape, parseHex4_eq, parseLow_eq]
  exact byte_bind _

theorem stringPass_eq : stringPass = JsonParser.stringPass := by
  funext ⟨p, out⟩
  cases hc : p.byte p.pos with
  | error fault => simp only [stringPass, JsonParser.stringPass, hc]
  | ok c =>
      rcases he : (p.advance 1).parseEscape out with fault | ⟨q, _ | out'⟩ <;>
        simp only [stringPass, JsonParser.stringPass, hc, moveTo_of_byte hc, parseEscape_eq, he]

theorem parseString_eq : parseString = JsonParser.parseString := by
  funext p
  simp only [parseString, eat_eq, stringPass_eq]
  rfl

theorem afterElement_eq {σ : Type} : @afterElement σ = @JsonParser.afterElement σ := by
  funext p close msg s result
  simp only [afterElement, eat_eq]
  rfl

theorem parseElement_eq : parseElement = JsonParser.parseElement := by
  funext element p
  simp only [parseElement, skipWs_eq]
  rfl

theorem arrayPass_eq : arrayPass = JsonParser.arrayPass := by
  funext element ⟨p, arr⟩
  simp only [arrayPass, parseElement_eq, afterElement_eq]
  rfl

theorem parseArray_eq : parseArray = JsonParser.parseArray := by
  funext element p
  simp only [parseArray, eat_eq, skipWs_eq, arrayPass_eq]
  rfl

theorem parseKey_eq : parseKey = JsonParser.parseKey := by
  funext p
  simp only [parseKey, eat_eq, skipWs_eq, parseString_eq]
  rfl

theorem objectPass_eq : objectPass = JsonParser.objectPass := by
  funext element ⟨p, obj⟩
  simp only [objectPass, parseKey_eq, parseElement_eq, afterElement_eq]
  rfl

theorem parseObject_eq : parseObject = JsonParser.parseObject := by
  funext element p
  simp only [parseObject, eat_eq, skipWs_eq, objectPass_eq]
  rfl

/-- The depth counts up as the levels count down. -/
theorem parseValue_eq (toDouble : ℚ → Option ℚ) (levels depth : Nat)
    (h : depth + levels = maxDepth + 1) :
    parseValue toDouble (levels + 1) depth = JsonParser.parseValue toDouble levels := by
  induction levels generalizing depth with
  | zero =>
      funext p
      have hdeep : maxDepth < depth := by omega
      exact if_pos hdeep
  | succ levels ih =>
      funext p
      have hdeep : ¬ maxDepth < depth := by omega
      have hnext := ih (depth + 1) (by omega)
      rw [parseValue, if_neg hdeep, hnext, parseObject_eq, parseArray_eq, parseString_eq,
        parseNumber_eq]
      by_cases hend : p.text.length ≤ p.pos
      · rw [if_pos hend]
        exact (if_pos hend).symm
      · have hpos : p.pos ≤ p.text.length := by omega
        simp only [if_neg hend, parseLiteral_eq p _ _ hpos]
        exact (if_neg hend).symm

/-- **The checked parser is the parser.** -/
theorem parse_eq : parse = JsonParser.parse := by
  funext toDouble text err
  have hvalue : parseValue toDouble maxStack 0 = JsonParser.parseValue toDouble (maxDepth + 1) :=
    parseValue_eq toDouble (maxDepth + 1) 0 (Nat.zero_add _)
  simp only [parse, skipWs_eq, hvalue]
  rfl

end Checked

end JsonParser

end ChaosForger
