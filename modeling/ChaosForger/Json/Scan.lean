import ChaosForger.Json.Grammar

/-!
# ChaosForger.Json.Scan

What the scanning functions of the parser do, in terms of the text that is
left: white space, single bytes, literals and numbers.  A number is read by
`scanNumber`, the longest token in front, whether it is well formed or not.
-/

namespace ChaosForger

open Libc

namespace JsonParser

/-! ## Positions -/

/-- The text that is left. -/
def rest (p : JsonParser) : List UInt8 := p.text.drop p.pos

section Position

variable (p : JsonParser)

@[simp] theorem advance_text (n : Nat) : (p.advance n).text = p.text := rfl

@[simp] theorem advance_pos (n : Nat) : (p.advance n).pos = p.pos + n := rfl

@[simp] theorem advance_zero : p.advance 0 = p := rfl

@[simp] theorem advance_advance (m n : Nat) : (p.advance m).advance n = p.advance (m + n) := by
  simp only [advance, Nat.add_assoc]

@[simp] theorem rest_advance (n : Nat) : (p.advance n).rest = p.rest.drop n := by
  simp only [rest, advance_text, advance_pos, List.drop_drop]

theorem length_rest : p.rest.length = p.text.length - p.pos := by simp [rest]

variable {p}

theorem pos_lt_iff : p.pos < p.text.length ↔ p.rest ≠ [] := by
  rw [rest, Ne, List.drop_eq_nil_iff]
  omega

theorem byte_of_rest {c : UInt8} {r : List UInt8} (h : p.rest = c :: r) : p.byte p.pos = .ok c := by
  have hc : p.text[p.pos]? = some c := by
    rw [← List.head?_drop, show p.text.drop p.pos = c :: r from h]
    rfl
  rw [byte, hc]

/-- Behind a front that was read. -/
theorem rest_advance_of_eq {t r : List UInt8} (h : p.rest = t ++ r) :
    (p.advance t.length).rest = r := by
  rw [rest_advance, h, List.drop_left]

/-- From `p` to `q` the text `t` is read. -/
structure Consumes (p : JsonParser) (t : List UInt8) (q : JsonParser) : Prop where
  text : q.text = p.text
  rest : p.rest = t ++ q.rest
  pos : q.pos = p.pos + t.length

/-- `q` reads the same text as `p`, and is not behind its end if `p` is not. -/
structure Within (p q : JsonParser) : Prop where
  text : q.text = p.text
  bound : p.pos ≤ p.text.length → q.pos ≤ p.text.length

theorem consumes_advance {t r : List UInt8} (h : p.rest = t ++ r) :
    p.Consumes t (p.advance t.length) :=
  ⟨rfl, by rw [rest_advance_of_eq h, h], rfl⟩

theorem consumes_nil : p.Consumes [] p := ⟨rfl, rfl, rfl⟩

theorem Consumes.trans {q q' : JsonParser} {t u : List UInt8} (h : p.Consumes t q)
    (h' : q.Consumes u q') : p.Consumes (t ++ u) q' := by
  refine ⟨h'.text.trans h.text, ?_, ?_⟩
  · rw [h.rest, h'.rest, List.append_assoc]
  · rw [h'.pos, h.pos, List.length_append, Nat.add_assoc]

theorem Consumes.within {q : JsonParser} {t : List UInt8} (h : p.Consumes t q) : p.Within q := by
  refine ⟨h.text, fun hp => ?_⟩
  have hlen := congrArg List.length h.rest
  rw [List.length_append, length_rest, length_rest, h.text, h.pos] at hlen
  rw [h.pos]
  omega

theorem Within.trans {q q' : JsonParser} (h : p.Within q) (h' : q.Within q') : p.Within q' :=
  ⟨h'.text.trans h.text, fun hp => h.text ▸ h'.bound (h.text ▸ h.bound hp)⟩

theorem Consumes.rest_of_front {q : JsonParser} {t r : List UInt8} (h : p.Consumes t q)
    (hr : p.rest = t ++ r) : q.rest = r := List.append_cancel_left (h.rest.symm.trans hr)

/-- Reading uses up the text. -/
theorem Consumes.length_rest {q : JsonParser} {t : List UInt8} (h : p.Consumes t q) :
    p.rest.length = t.length + q.rest.length := by
  rw [h.rest, List.length_append]

@[simp] theorem fail_text (msg : List UInt8) : (p.fail msg).text = p.text := by
  unfold fail
  split <;> rfl

@[simp] theorem fail_pos (msg : List UInt8) : (p.fail msg).pos = p.pos := by
  unfold fail
  split <;> rfl

theorem within_fail (msg : List UInt8) : p.Within (p.fail msg) := by
  refine ⟨fail_text msg, fun h => ?_⟩
  rwa [fail_pos]

end Position

/-! ## White space and single bytes -/

theorem whileLoop_of_iterate {σ ρ : Type} {p : JsonParser} {body : σ → Pass σ (Except Fault ρ)}
    {s : σ} {r : Except Fault ρ} (h : Loop.iterate body (p.text.length + 1) s = some r) :
    p.whileLoop body s = r := by
  rw [whileLoop, h, Option.getD_some]

section Bytes

variable {p : JsonParser} {c : UInt8} {r : List UInt8}

theorem iterate_skipPass (kind : UInt8 → Bool) (fuel : Nat) (p : JsonParser)
    (h : p.rest.length < fuel) :
    Loop.iterate (skipPass kind) fuel p =
      some (.ok (p.advance (p.rest.takeWhile kind).length)) := by
  induction fuel generalizing p with
  | zero => omega
  | succ fuel ih =>
      cases hr : p.rest with
      | nil => simp [Loop.iterate, skipPass, pos_lt_iff, hr]
      | cons c r =>
          have hlt : p.pos < p.text.length := by simp [pos_lt_iff, hr]
          by_cases hc : kind c = true
          · have hnext := ih (p.advance 1) (by simp [hr] at h ⊢; omega)
            simp [Loop.iterate, skipPass, hlt, byte_of_rest hr, hc, hnext, hr, Nat.add_comm 1]
          · simp [Loop.iterate, skipPass, hlt, byte_of_rest hr, hc]

/-- The loop skips as far as the bytes are of the kind. -/
theorem skipWhile_eq (kind : UInt8 → Bool) (p : JsonParser) :
    p.skipWhile kind = .ok (p.advance (p.rest.takeWhile kind).length) := by
  have hfuel : p.rest.length < p.text.length + 1 := by
    rw [length_rest]
    omega
  exact whileLoop_of_iterate (iterate_skipPass kind _ p hfuel)

theorem nextIn_cons (h : p.rest = c :: r) (cs : List UInt8) :
    p.nextIn cs = .ok (decide (c ∈ cs)) := by
  have hlt : p.pos < p.text.length := by simp [pos_lt_iff, h]
  rw [nextIn, if_pos hlt, byte_of_rest h]
  rfl

theorem nextIn_nil (h : p.rest = []) (cs : List UInt8) : p.nextIn cs = .ok false := by
  rw [nextIn, if_neg (by simp [pos_lt_iff, h])]

/-- A byte is eaten when it is one of those. -/
theorem eatAny_cons (h : p.rest = c :: r) (cs : List UInt8) :
    p.eatAny cs = .ok (if c ∈ cs then (p.advance 1, true) else (p, false)) := by
  rw [eatAny, nextIn_cons h]
  by_cases hc : c ∈ cs <;> simp [hc, bind, Except.bind, pure, Except.pure]

theorem eatAny_nil (h : p.rest = []) (cs : List UInt8) : p.eatAny cs = .ok (p, false) := by
  rw [eatAny, nextIn_nil h]
  rfl

theorem eat_cons (h : p.rest = c :: r) (d : UInt8) :
    p.eat d = .ok (if c = d then (p.advance 1, true) else (p, false)) := by
  simp [eat, eatAny_cons h]

theorem eat_of_head (h : p.rest = c :: r) : p.eat c = .ok (p.advance 1, true) := by
  simp [eat_cons h]

/-- What `eat` finds. -/
theorem eat_cases (p : JsonParser) (c : UInt8) :
    (∃ r, p.rest = c :: r ∧ p.eat c = .ok (p.advance 1, true)) ∨ p.eat c = .ok (p, false) := by
  cases hr : p.rest with
  | nil => exact .inr (eatAny_nil hr _)
  | cons d r =>
      rw [eat_cons hr]
      by_cases hd : d = c
      · exact .inl ⟨r, by rw [hd], by rw [if_pos hd]⟩
      · exact .inr (by rw [if_neg hd])

end Bytes

/-! ## Literals -/

section Literals

variable {p : JsonParser} {literal : List UInt8} {result : Json}

theorem parseLiteral_of_front {r : List UInt8} (h : p.rest = literal ++ r) :
    p.parseLiteral literal result = (p.advance literal.length, some result) := by
  have htake : (p.text.drop p.pos).take literal.length = literal := by
    rw [show p.text.drop p.pos = literal ++ r from h, List.take_left]
  simp [parseLiteral, htake]

theorem parseLiteral_of_not_front (h : ¬ literal <+: p.rest) :
    p.parseLiteral literal result = (p.fail (lit "invalid literal"), none) := by
  have htake : (p.text.drop p.pos).take literal.length ≠ literal := fun heq =>
    h (List.prefix_iff_eq_take.mpr heq.symm)
  simp [parseLiteral, htake]

end Literals

end JsonParser

/-! ## The longest number in front -/

theorem leadingSign_eq (s : List UInt8) :
    leadingSign s = [] ∨ leadingSign s = [43] ∨ leadingSign s = [45] := by
  unfold leadingSign
  split <;> simp

theorem leadingSign_append (s : List UInt8) : leadingSign s ++ s.drop (leadingSign s).length = s := by
  unfold leadingSign
  split <;> simp

/-- The exponent in front of a text, and what follows it. -/
def scanExponent : List UInt8 → Option ExponentToken × List UInt8
  | [] => (none, [])
  | m :: s =>
      if h : m = 101 ∨ m = 69 then
        (some ⟨m, h, leadingSign s, leadingSign_eq s,
            (s.drop (leadingSign s).length).takeWhile isdigit, List.all_takeWhile⟩,
          (s.drop (leadingSign s).length).dropWhile isdigit)
      else (none, m :: s)

/-- The digits behind a point, if there is one, and what follows them. -/
def scanFraction : List UInt8 → { ds : Option (List UInt8) // ∀ d ∈ ds, d.all isdigit = true } ×
    List UInt8
  | 46 :: s => (⟨some (s.takeWhile isdigit), by rintro _ ⟨⟩; exact List.all_takeWhile⟩, s.dropWhile isdigit)
  | s => (⟨none, by simp⟩, s)

/-- The number in front of a text, and what follows it. -/
def scanNumber (s : List UInt8) : Option (NumberToken × List UInt8) :=
  let t := s.drop (leadingSign s).length
  if h : t.takeWhile isdigit = [] then none
  else
    let (frac, r) := scanFraction (t.dropWhile isdigit)
    let (exp, r) := scanExponent r
    some (⟨leadingSign s, leadingSign_eq s, t.takeWhile isdigit, h, List.all_takeWhile,
      frac.val, frac.property, exp⟩, r)

theorem scanExponent_text (s : List UInt8) :
    ((scanExponent s).1.map ExponentToken.text).getD [] ++ (scanExponent s).2 = s := by
  unfold scanExponent
  split
  · rfl
  · next m s =>
      split
      · simp [ExponentToken.text, List.takeWhile_append_dropWhile, leadingSign_append]
      · rfl

theorem scanFraction_of_ne {s : List UInt8} (h : s.head? ≠ some 46) :
    (scanFraction s).1.val = none ∧ (scanFraction s).2 = s := by
  unfold scanFraction
  split
  · simp at h
  · exact ⟨rfl, rfl⟩

theorem scanFraction_text (s : List UInt8) :
    ((scanFraction s).1.val.map fun ds => 46 :: ds).getD [] ++ (scanFraction s).2 = s := by
  unfold scanFraction
  split
  · simp [List.takeWhile_append_dropWhile]
  · rfl

theorem scanNumber_eq_none_iff {s : List UInt8} :
    scanNumber s = none ↔ (s.drop (leadingSign s).length).takeWhile isdigit = [] := by
  simp only [scanNumber]
  split <;> simp_all

/-- The parts of the token, and what follows it. -/
theorem parts_of_scanNumber {s r : List UInt8} {t : NumberToken} (h : scanNumber s = some (t, r)) :
    let digits := s.drop (leadingSign s).length
    let fraction := scanFraction (digits.dropWhile isdigit)
    t.text = leadingSign s ++ (digits.takeWhile isdigit ++
        ((fraction.1.val.map fun ds => 46 :: ds).getD [] ++
          ((scanExponent fraction.2).1.map ExponentToken.text).getD [])) ∧
      r = (scanExponent fraction.2).2 := by
  unfold scanNumber at h
  dsimp only at h
  split at h
  · cases h
  · rw [Option.some.injEq, Prod.mk.injEq] at h
    obtain ⟨rfl, rfl⟩ := h
    exact ⟨rfl, rfl⟩

/-- The token and what follows it are the text. -/
theorem scanNumber_text {s r : List UInt8} {t : NumberToken} (h : scanNumber s = some (t, r)) :
    s = t.text ++ r := by
  obtain ⟨htext, rfl⟩ := parts_of_scanNumber h
  rw [htext]
  simp only [List.append_assoc]
  rw [scanExponent_text, scanFraction_text, List.takeWhile_append_dropWhile, leadingSign_append]

/-! ## Numbers -/

namespace JsonParser

section Numbers

variable (p : JsonParser)

/-- The sign in front is eaten. -/
theorem eatSign : ∃ q b, p.eatAny [45, 43] = .ok (q, b) ∧
    q = p.advance (leadingSign p.rest).length ∧ q.rest = p.rest.drop (leadingSign p.rest).length := by
  refine ⟨p.advance (leadingSign p.rest).length, (leadingSign p.rest) ≠ [], ?_, rfl, rest_advance _ _⟩
  cases hr : p.rest with
  | nil => exact eatAny_nil hr _
  | cons c r =>
      rw [eatAny_cons hr]
      by_cases h43 : c = 43
      · simp [h43, leadingSign]
      · by_cases h45 : c = 45
        · simp [h45, leadingSign]
        · simp [h43, h45, leadingSign]

/-- Digits are skipped. -/
theorem skipDigits : ∃ q, p.skipWhile isdigit = .ok q ∧
    q = p.advance (p.rest.takeWhile isdigit).length ∧ q.rest = p.rest.dropWhile isdigit :=
  ⟨_, skipWhile_eq _ _, rfl, rest_advance_of_eq List.takeWhile_append_dropWhile.symm⟩

/-- How far the point and the digits behind it reach. -/
theorem parseFraction_eq : ∃ q, p.parseFraction = .ok q ∧
    q = p.advance (((scanFraction p.rest).1.val.map fun ds => 46 :: ds).getD []).length ∧
    q.rest = (scanFraction p.rest).2 := by
  refine ⟨_, ?_, rfl, rest_advance_of_eq (scanFraction_text p.rest).symm⟩
  rw [parseFraction]
  obtain ⟨r, hr, heat⟩ | heat := eat_cases p 46
  · obtain ⟨q, hq, rfl, -⟩ := (p.advance 1).skipDigits
    simp [heat, bind, Except.bind, hq, hr, scanFraction, Nat.add_comm 1]
  · have hne : p.rest.head? ≠ some 46 := by
      intro hs
      obtain ⟨r, hr⟩ := List.head?_eq_some_iff.mp hs
      simp [eat_of_head hr] at heat
    simp [heat, bind, Except.bind, scanFraction_of_ne hne]

/-- How far the exponent reaches. -/
theorem parseExponent_eq : ∃ q, p.parseExponent = .ok q ∧
    q = p.advance (((scanExponent p.rest).1.map ExponentToken.text).getD []).length ∧
    q.rest = (scanExponent p.rest).2 := by
  refine ⟨_, ?_, rfl, rest_advance_of_eq (scanExponent_text p.rest).symm⟩
  rw [parseExponent]
  cases hr : p.rest with
  | nil => simp [eatAny_nil hr, bind, Except.bind, scanExponent]
  | cons m s =>
      by_cases hm : m = 101 ∨ m = 69
      · obtain ⟨q, b, hsign, rfl, hrest⟩ := (p.advance 1).eatSign
        obtain ⟨q', hdigits, rfl, -⟩ := ((p.advance 1).advance _).skipDigits
        rw [hrest] at hdigits
        simp only [eatAny_cons hr, bind, Except.bind, List.mem_cons, List.not_mem_nil, or_false, hm,
          if_true, hsign, hdigits]
        simp [hr, scanExponent, hm, ExponentToken.text, Nat.add_comm 1, Nat.add_assoc]
      · simp [eatAny_cons hr, bind, Except.bind, scanExponent, hm]

/-- **A number is read up to the end of the longest token, and converted.** -/
theorem parseNumber_eq (toDouble : ℚ → Option ℚ) : ∃ q, p.Within q ∧ p.parseNumber toDouble = .ok (
    match scanNumber p.rest with
    | none => (q, none)
    | some (t, _) =>
        match stod toDouble t.text with
        | none => ((p.advance t.text.length).fail (lit "number out of range"), none)
        | some value => (p.advance t.text.length, some (.number value))) := by
  obtain ⟨q₁, b, h₁, hq₁, hr₁⟩ := p.eatSign
  obtain ⟨q₂, h₂, hq₂, hr₂⟩ := q₁.skipDigits
  obtain ⟨q₃, h₃, hq₃, hr₃⟩ := q₂.parseFraction_eq
  obtain ⟨q₄, h₄, hq₄, hr₄⟩ := q₃.parseExponent_eq
  simp only [parseNumber, h₁, h₂, h₃, h₄, bind, Except.bind]
  have hsign : p.Consumes _ q₁ := hq₁ ▸ consumes_advance (leadingSign_append p.rest).symm
  have hint : q₁.Consumes _ q₂ := hq₂ ▸ consumes_advance List.takeWhile_append_dropWhile.symm
  have hfrac : q₂.Consumes _ q₃ := hq₃ ▸ consumes_advance (scanFraction_text q₂.rest).symm
  have hexp : q₃.Consumes _ q₄ := hq₄ ▸ consumes_advance (scanExponent_text q₃.rest).symm
  have hall := hsign.trans (hint.trans (hfrac.trans hexp))
  refine ⟨q₄.fail (lit "invalid number"), hall.within.trans (within_fail _), ?_⟩
  have hlt : q₁.pos < q₂.pos ↔ (p.rest.drop (leadingSign p.rest).length).takeWhile isdigit ≠ [] := by
    rw [hq₂, advance_pos, hr₁, Ne, ← List.length_eq_zero_iff]
    omega
  rw [hr₁] at hr₂ hq₂
  rw [hr₂] at hq₃ hr₃
  rw [hr₃] at hq₄
  cases hscan : scanNumber p.rest with
  | none =>
      rw [if_pos (by simpa [hlt] using scanNumber_eq_none_iff.mp hscan)]
      rfl
  | some x =>
      obtain ⟨t, r⟩ := x
      have hne : (p.rest.drop (leadingSign p.rest).length).takeWhile isdigit ≠ [] := fun hnil => by
        simp [scanNumber_eq_none_iff.mpr hnil] at hscan
      have hq : q₄ = p.advance t.text.length := by
        rw [hq₄, hq₃, hq₂, hq₁, (parts_of_scanNumber hscan).1]
        simp [Nat.add_assoc]
      have htake : (p.text.drop p.pos).take t.text.length = t.text := by
        rw [show p.text.drop p.pos = t.text ++ r from scanNumber_text hscan, List.take_left]
      rw [if_neg (not_not.mpr (hlt.mpr hne)), hq]
      simp only [advance_text, advance_pos, Nat.add_sub_cancel_left, htake]
      cases stod toDouble t.text <;> rfl

end Numbers

end JsonParser

/-! ## Tokens are found again -/

/-- The next byte, if any, does not continue a number. -/
def NumberEnds (r : List UInt8) : Prop :=
  ∀ c ∈ r.head?, isdigit c = false ∧ c ∉ ([43, 45, 46, 69, 101] : List UInt8)

theorem takeWhile_isdigit {ds r : List UInt8} (hds : ds.all isdigit = true)
    (hr : ∀ c ∈ r.head?, isdigit c = false) :
    (ds ++ r).takeWhile isdigit = ds ∧ (ds ++ r).dropWhile isdigit = r := by
  rw [List.all_eq_true] at hds
  rw [List.takeWhile_append_of_pos hds, List.dropWhile_append_of_pos hds]
  cases r with
  | nil => simp
  | cons c r => simp [hr c rfl]

/-- A digit is no sign, point or exponent marker. -/
theorem not_mem_of_isdigit {c : UInt8} :
    isdigit c = true → c ∉ ([43, 45, 46, 69, 101] : List UInt8) :=
  forall_byte (P := fun c => isdigit c = true → c ∉ ([43, 45, 46, 69, 101] : List UInt8))
    (by decide +kernel) c

/-- A sign is found again in front of digits, or of nothing that is a sign. -/
theorem leadingSign_digits {g ds r : List UInt8} (hg : g = [] ∨ g = [43] ∨ g = [45])
    (hds : ds.all isdigit = true) (hr : ds = [] → ∀ c ∈ r.head?, c ≠ 43 ∧ c ≠ 45) :
    leadingSign (g ++ (ds ++ r)) = g := by
  have hhead : ∀ c ∈ (ds ++ r).head?, c ≠ 43 ∧ c ≠ 45 := by
    cases ds with
    | nil => exact hr rfl
    | cons d ds =>
        intro c hc
        obtain rfl : d = c := by simpa using hc
        have := not_mem_of_isdigit (List.all_eq_true.mp hds d (by simp))
        simp_all
  rcases hg with rfl | rfl | rfl
  · cases hs : ds ++ r with
    | nil => rfl
    | cons c s =>
        obtain ⟨h43, h45⟩ := hhead c (by simp [hs])
        simp [leadingSign, h43, h45]
  · rfl
  · rfl

theorem scanExponent_append {exp : Option ExponentToken} {r : List UInt8} (hr : NumberEnds r) :
    scanExponent ((exp.map ExponentToken.text).getD [] ++ r) = (exp, r) := by
  cases exp with
  | none =>
      cases r with
      | nil => rfl
      | cons c r =>
          have := (hr c rfl).2
          simp_all [scanExponent]
  | some e =>
      obtain ⟨m, hm, g, hg, ds, hds⟩ := e
      obtain ⟨htake, hdrop⟩ := takeWhile_isdigit hds fun c hc => (hr c hc).1
      have hsign : leadingSign (g ++ (ds ++ r)) = g := by
        refine leadingSign_digits hg hds fun _ c hc => ?_
        have := (hr c hc).2
        simp_all
      simp [ExponentToken.text, scanExponent, hm, hsign, htake, hdrop]

theorem scanFraction_append {frac : Option (List UInt8)} {r : List UInt8}
    (hfrac : ∀ ds ∈ frac, ds.all isdigit = true)
    (hr : ∀ c ∈ r.head?, isdigit c = false ∧ c ≠ 46) :
    scanFraction ((frac.map fun ds => 46 :: ds).getD [] ++ r) = (⟨frac, hfrac⟩, r) := by
  cases frac with
  | none =>
      cases r with
      | nil => rfl
      | cons c r =>
          have := (hr c rfl).2
          simp_all [scanFraction]
  | some ds =>
      obtain ⟨htake, hdrop⟩ := takeWhile_isdigit (hfrac ds rfl) fun c hc => (hr c hc).1
      simp [scanFraction, htake, hdrop]

/-- What stands behind the digits of a token. -/
theorem head_expText (t : NumberToken) {r : List UInt8} (hr : NumberEnds r) :
    ∀ c ∈ (t.expText ++ r).head?, isdigit c = false ∧ c ≠ 46 := by
  intro c hc
  unfold NumberToken.expText at hc
  cases hexp : t.exp with
  | none =>
      obtain ⟨hdigit, hne⟩ := hr c (by simpa [hexp] using hc)
      simp_all
  | some e =>
      obtain rfl : e.marker = c := by simpa [hexp, ExponentToken.text] using hc
      rcases e.marker_eq with h | h <;> simp [h, isdigit]

theorem head_fracText (t : NumberToken) {r : List UInt8} (hr : NumberEnds r) :
    ∀ c ∈ (t.fracText ++ (t.expText ++ r)).head?, isdigit c = false := by
  intro c hc
  cases hfrac : t.frac with
  | none => exact (head_expText t hr c (by simpa [NumberToken.fracText, hfrac] using hc)).1
  | some ds =>
      obtain rfl : 46 = c := by simpa [NumberToken.fracText, hfrac] using hc
      rfl

/-- **A token is found again**, when what follows does not continue it. -/
theorem scanNumber_append (t : NumberToken) {r : List UInt8} (hr : NumberEnds r) :
    scanNumber (t.text ++ r) = some (t, r) := by
  have hassoc : t.text ++ r = t.sign ++ (t.int ++ (t.fracText ++ (t.expText ++ r))) := by
    simp [NumberToken.text]
  have hsign := leadingSign_digits (r := t.fracText ++ (t.expText ++ r)) t.sign_eq t.int_all
    fun hnil => absurd hnil t.int_ne
  obtain ⟨htake, hdrop⟩ := takeWhile_isdigit t.int_all (head_fracText t hr)
  have hfrac : scanFraction (t.fracText ++ (t.expText ++ r)) = (⟨t.frac, t.frac_all⟩, t.expText ++ r) :=
    scanFraction_append t.frac_all (head_expText t hr)
  have hexp : scanExponent (t.expText ++ r) = (t.exp, r) := scanExponent_append hr
  simp only [scanNumber, hassoc, hsign, List.drop_left, htake, hdrop, hfrac, hexp, t.int_ne,
    dif_neg, not_false_eq_true]

/-- The fraction and the exponent as the conversion reads them. -/
theorem stod_fraction (t : NumberToken) :
    let s := t.fracText ++ t.expText
    (if s.head? = some 46 then s.tail.takeWhile isdigit else []) = t.frac.getD [] ∧
      (if s.head? = some 46 then s.drop (1 + (t.frac.getD []).length) else s) = t.expText := by
  have hends : NumberEnds [] := by simp [NumberEnds]
  have hexp := head_expText t hends
  rw [List.append_nil] at hexp
  cases hfrac : t.frac with
  | none =>
      have hne : t.expText.head? ≠ some 46 := fun h => (hexp 46 h).2 rfl
      simp [NumberToken.fracText, hfrac, hne]
  | some ds =>
      obtain ⟨htake, -⟩ := takeWhile_isdigit (t.frac_all ds hfrac) fun c hc => (hexp c hc).1
      simp [NumberToken.fracText, hfrac, htake, Nat.add_comm 1]

theorem stod_exponent (t : NumberToken) :
    let s := t.expText
    (if s.head? = some 101 ∨ s.head? = some 69 then
      let sign := leadingSign s.tail
      let digits := (s.tail.drop sign.length).takeWhile isdigit
      if sign = [45] then -(digitsValue 10 digits : Int) else digitsValue 10 digits
    else 0) = (t.exp.map ExponentToken.value).getD 0 := by
  cases hexp : t.exp with
  | none => simp [NumberToken.expText, hexp]
  | some e =>
      have hsign : leadingSign (e.sign ++ e.digits) = e.sign := by
        simpa using leadingSign_digits (r := []) e.sign_eq e.digits_all (by simp)
      have htake : e.digits.takeWhile isdigit = e.digits := by
        simpa using (takeWhile_isdigit (r := []) e.digits_all (by simp)).1
      simp [NumberToken.expText, hexp, ExponentToken.text, e.marker_eq, hsign, htake,
        ExponentToken.value]

/-- **The conversion reads the value of the token.** -/
theorem stod_text (toDouble : ℚ → Option ℚ) (t : NumberToken) :
    stod toDouble t.text = toDouble t.value := by
  have hends : NumberEnds [] := by simp [NumberEnds]
  have hsign := leadingSign_digits (r := t.fracText ++ t.expText) t.sign_eq t.int_all
    fun hnil => absurd hnil t.int_ne
  obtain ⟨htake, -⟩ := takeWhile_isdigit t.int_all (r := t.fracText ++ t.expText)
    (by simpa using head_fracText t hends)
  obtain ⟨hfrac, hrest⟩ := stod_fraction t
  have hexp := stod_exponent t
  dsimp only at hfrac hrest hexp
  simp only [stod, NumberToken.text, hsign, List.drop_left, htake, hfrac, hrest, hexp, t.int_ne,
    false_and, if_false]
  rfl

end ChaosForger
