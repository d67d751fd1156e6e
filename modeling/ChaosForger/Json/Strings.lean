import ChaosForger.Json.Scan

/-!
# ChaosForger.Json.Strings

The string scanner: hex digits, escapes, surrogate pairs and the loop over the
bytes between the quotes.  It never leaves the text, reads exactly the string
literals of the grammar, and decodes them (`parseString_spec`,
`parseString_complete`).
-/

namespace ChaosForger

open Libc

namespace JsonParser

/-! ## Hex digits -/

theorem hexValue_eq (c : UInt8) : hexValue c = if isxdigit c then some (digitValue c) else none :=
  forall_byte (P := fun c => hexValue c = if isxdigit c then some (digitValue c) else none)
    (by decide +kernel) c

section Hex

variable {p : JsonParser}

theorem parseHex_spec (n : Nat) (p : JsonParser) (out : Nat) (h : n ≤ p.rest.length) :
    ∃ q o, parseHex n p out = .ok (q, o) ∧ p.Within q ∧ ∀ v, o = some v → ∃ ds,
      ds.length = n ∧ ds.all isxdigit = true ∧ p.Consumes ds q ∧
        v = ds.foldl (fun acc c => acc * 16 + digitValue c) out := by
  induction n generalizing p out with
  | zero => exact ⟨p, some out, rfl, consumes_nil.within, by rintro _ ⟨⟩; exact ⟨[], rfl, rfl, consumes_nil, rfl⟩⟩
  | succ n ih =>
      obtain ⟨c, r, hr⟩ := List.exists_cons_of_ne_nil (List.ne_nil_of_length_pos (by omega : 0 < p.rest.length))
      have hc : p.Consumes [c] (p.advance 1) := consumes_advance hr
      rw [parseHex, byte_of_rest hr]
      simp only [bind, Except.bind, hexValue_eq]
      by_cases hx : isxdigit c = true
      · obtain ⟨q, o, hq, hwithin, hspec⟩ := ih (p.advance 1) (out * 16 + digitValue c) (by
          simp [hr] at h ⊢
          omega)
        simp only [hx, if_true]
        refine ⟨q, o, hq, hc.within.trans hwithin, fun v hv => ?_⟩
        obtain ⟨ds, hlen, hall, hcons, rfl⟩ := hspec v hv
        exact ⟨c :: ds, by simp [hlen], by simp [hx, hall], hc.trans hcons, rfl⟩
      · simp only [hx]
        exact ⟨_, none, rfl, hc.within.trans (within_fail _), by simp⟩

theorem parseHex_of_front {ds r : List UInt8} (hds : ds.all isxdigit = true) (out : Nat)
    (h : p.rest = ds ++ r) :
    parseHex ds.length p out =
      .ok (p.advance ds.length, some (ds.foldl (fun acc c => acc * 16 + digitValue c) out)) := by
  induction ds generalizing p out with
  | nil => rfl
  | cons c ds ih =>
      simp only [List.all_cons, Bool.and_eq_true] at hds
      have hnext : (p.advance 1).rest = ds ++ r := rest_advance_of_eq (t := [c]) h
      rw [List.length_cons, parseHex, byte_of_rest h]
      simp only [bind, Except.bind, hexValue_eq, hds.1, if_true, ih hds.2 _ hnext]
      rw [advance_advance, Nat.add_comm 1]
      rfl

theorem parseHex4_spec (p : JsonParser) :
    ∃ q o, p.parseHex4 = .ok (q, o) ∧ p.Within q ∧
      ∀ v, o = some v → ∃ d : Hex4, p.Consumes d.digits q ∧ v = d.value := by
  by_cases h : p.text.length < p.pos + 4
  · exact ⟨_, none, if_pos h, within_fail _, by simp⟩
  · obtain ⟨q, o, hq, hwithin, hspec⟩ := parseHex_spec 4 p 0 (by rw [length_rest]; omega)
    refine ⟨q, o, (if_neg h).trans hq, hwithin, fun v hv => ?_⟩
    obtain ⟨ds, hlen, hall, hcons, rfl⟩ := hspec v hv
    exact ⟨⟨ds, hlen, hall⟩, hcons, rfl⟩

/-- Four hex digits in front are read. -/
theorem parseHex4_of_front {d : Hex4} {r : List UInt8} (h : p.rest = d.digits ++ r) :
    p.parseHex4 = .ok (p.advance d.digits.length, some d.value) := by
  have hlen := congrArg List.length h
  rw [length_rest, List.length_append, d.digits_length] at hlen
  have hhex := parseHex_of_front d.digits_all 0 h
  rw [d.digits_length] at hhex
  rw [parseHex4, if_neg (by omega), hhex, d.digits_length]
  rfl

end Hex

/-! ## Surrogate pairs -/

section Pairs

variable {p : JsonParser}

/-- The text goes on with the escape of a low surrogate. -/
def LowInFront (p : JsonParser) (l : Hex4) : Prop :=
  isLow l.value = true ∧ ∃ r, p.rest = 92 :: 117 :: (l.digits ++ r)

theorem pairValue_eq_shift (high low : Nat) :
    pairValue high low = 0x10000 + (high - 0xD800) <<< 10 + (low - 0xDC00) := by
  have hshift (n : Nat) : n <<< 10 = n * 0x400 := Nat.shiftLeft_eq n 10
  rw [hshift]
  rfl

/-- What is read behind a `\u` escape: a low surrogate, and the pair has one
code point, or nothing, and no low surrogate is there to be read. -/
def PairRead (p : JsonParser) (cp : Nat) (q : JsonParser) (v : Nat) : Prop :=
  (∃ l : Hex4, isHigh cp = true ∧ isLow l.value = true ∧ p.Consumes (92 :: 117 :: l.digits) q ∧
      v = pairValue cp l.value) ∨
    v = cp ∧ p.Consumes [] q ∧ ∀ l, isHigh cp = true → ¬ p.LowInFront l

/-- Behind a high surrogate with an escape in front. -/
theorem parseLow_escape {cp : Nat} {s : List UInt8} (hhigh : isHigh cp = true)
    (hr : p.rest = 92 :: 117 :: s) : ∃ q v, p.parseLow cp = .ok (q, v) ∧ p.PairRead cp q v := by
  have hpos : p.pos + 1 < p.text.length := by
    have := congrArg List.length hr
    simp only [length_rest, List.length_cons] at this
    omega
  have hfirst : p.byte p.pos = .ok 92 := byte_of_rest hr
  have hsecond : p.byte (p.pos + 1) = .ok 117 :=
    byte_of_rest (p := p.advance 1) (rest_advance_of_eq (t := [92]) hr)
  have hbehind : p.Consumes [92, 117] (p.advance 2) := consumes_advance hr
  -- only the read that found a low surrogate moves the position
  have hback : ∀ q : JsonParser, (p.advance 2).Within q → p.Consumes [] { q with pos := p.pos } :=
    fun q hq => ⟨hq.text, by rw [rest, rest, hq.text]; rfl, rfl⟩
  have hlow : ∀ l, p.LowInFront l →
      (p.advance 2).parseHex4 = .ok ((p.advance 2).advance l.digits.length, some l.value) := by
    rintro l ⟨-, r, hl⟩
    exact parseHex4_of_front (rest_advance_of_eq (t := [92, 117]) hl)
  obtain ⟨q, o, hq, hwithin, hspec⟩ := (p.advance 2).parseHex4_spec
  rw [parseLow, if_pos ⟨hhigh, hpos⟩, hfirst, hsecond]
  simp only [bind, Except.bind]
  rw [if_pos ⟨trivial, trivial⟩, hq]
  cases o with
  | none =>
      refine ⟨_, cp, rfl, .inr ⟨rfl, hback q hwithin, fun l _ hl => ?_⟩⟩
      simp [hlow l hl] at hq
  | some low =>
      obtain ⟨l, hcons, rfl⟩ := hspec low rfl
      by_cases hl : isLow l.value = true
      · refine ⟨q, pairValue cp l.value, ?_, .inl ⟨l, hhigh, hl, hbehind.trans hcons, rfl⟩⟩
        dsimp only
        rw [if_pos hl, pairValue_eq_shift]
        rfl
      · refine ⟨_, cp, by simp [hl, pure, Except.pure], .inr ⟨rfl, hback q hwithin, ?_⟩⟩
        intro l' _ hl'
        rw [hlow l' hl'] at hq
        simp only [Except.ok.injEq, Prod.mk.injEq, Option.some.injEq] at hq
        exact hl (hq.2 ▸ hl'.1)

/-- **Behind a high surrogate a low one is read with it**, anything else is left. -/
theorem parseLow_spec (p : JsonParser) (cp : Nat) :
    ∃ q v, p.parseLow cp = .ok (q, v) ∧ p.PairRead cp q v := by
  by_cases hescape : isHigh cp = true ∧ ∃ s, p.rest = 92 :: 117 :: s
  · obtain ⟨hhigh, s, hr⟩ := hescape
    exact parseLow_escape hhigh hr
  · refine ⟨p, cp, ?_, .inr ⟨rfl, consumes_nil, fun l hhigh hl => ?_⟩⟩
    · by_cases hhigh : isHigh cp = true ∧ p.pos + 1 < p.text.length
      · have hlt : p.pos < p.text.length := Nat.lt_of_succ_lt hhigh.2
        obtain ⟨c, s, hr⟩ := List.exists_cons_of_ne_nil (pos_lt_iff.mp hlt)
        have hnext : (p.advance 1).rest = s := rest_advance_of_eq (t := [c]) hr
        obtain ⟨d, s, rfl⟩ := List.exists_cons_of_ne_nil (hnext ▸ pos_lt_iff.mp hhigh.2)
        have hd : p.byte (p.pos + 1) = .ok d := byte_of_rest (p := p.advance 1) hnext
        have hcd : ¬ (c = 92 ∧ d = 117) := by
          rintro ⟨rfl, rfl⟩
          exact hescape ⟨hhigh.1, s, hr⟩
        rw [parseLow, if_pos hhigh, byte_of_rest hr, hd]
        simp only [bind, Except.bind]
        exact if_neg hcd
      · exact if_neg hhigh
    · obtain ⟨-, r, hl⟩ := hl
      exact hescape ⟨hhigh, _, hl⟩

end Pairs

/-! ## Items -/

theorem appendUtf8_eq (out : List UInt8) (cp : Nat) : appendUtf8 out cp = out ++ utf8 cp := by
  unfold utf8 appendUtf8
  split_ifs <;> simp

theorem decode_pair {h l : Hex4} (hh : isHigh h.value = true) (hl : isLow l.value = true)
    (items : List StringItem) :
    decode (.unicode h :: .unicode l :: items) = utf8 (pairValue h.value l.value) ++ decode items := by
  simp [decode, hh, hl]

theorem decode_lone {h : Hex4} {items : List StringItem}
    (hlone : ∀ l more, items = .unicode l :: more → isHigh h.value = true → isLow l.value = false) :
    decode (.unicode h :: items) = utf8 h.value ++ decode items := by
  cases items with
  | nil => simp [decode]
  | cons item more =>
      cases item with
      | unicode l =>
          have hno : ¬ (isHigh h.value = true ∧ isLow l.value = true) := by
            rintro ⟨hh, hl⟩
            simp [hlone l more rfl hh] at hl
          simp only [decode, hno, if_false]
      | _ => simp [decode]

/-- Only a `\u` escape starts like one. -/
theorem items_of_front {items : List StringItem} {r s : List UInt8}
    (h : itemsText items ++ 34 :: r = 92 :: 117 :: s) :
    ∃ l more, items = .unicode l :: more ∧ s = l.digits ++ (itemsText more ++ 34 :: r) := by
  cases items with
  | nil => simp [itemsText] at h
  | cons item more =>
      cases item with
      | plain c hc =>
          simp only [itemsText, List.flatMap_cons, StringItem.text, List.cons_append,
            List.cons.injEq] at h
          exact absurd h.1 hc.2
      | escape c hc =>
          simp only [itemsText, List.flatMap_cons, StringItem.text, List.cons_append,
            List.cons.injEq] at h
          rw [h.2.1] at hc
          exact absurd hc (by decide)
      | unicode l =>
          refine ⟨l, more, rfl, ?_⟩
          simpa [itemsText, StringItem.text] using h.symm

theorem escaped_of_mem {c : UInt8} :
    c ∈ lit "\"\\/bfnrt" → c ≠ 117 ∧ escaped c = some (escapeByte c) :=
  forall_byte (P := fun c => c ∈ lit "\"\\/bfnrt" → c ≠ 117 ∧ escaped c = some (escapeByte c))
    (by decide +kernel) c

theorem mem_of_isSome_escaped {c : UInt8} :
    (escaped c).isSome = true → c ∈ lit "\"\\/bfnrt" :=
  forall_byte (P := fun c => (escaped c).isSome = true → c ∈ lit "\"\\/bfnrt")
    (by decide +kernel) c

/-! ## Rounds of the loop -/

section Rounds

variable {p : JsonParser} {out : List UInt8} {c : UInt8} {r : List UInt8}

theorem stringPass_nil (h : p.rest = []) :
    stringPass (p, out) = .exit (.ok (p.fail (lit "unterminated string"), none)) := by
  have hle : p.text.length ≤ p.pos := Nat.le_of_not_lt (by simp [pos_lt_iff, h])
  rw [stringPass, if_pos hle]

theorem stringPass_quote (h : p.rest = 34 :: r) :
    stringPass (p, out) = .exit (.ok (p.advance 1, some out)) := by
  have hlt : ¬ p.text.length ≤ p.pos := Nat.not_le_of_lt (by simp [pos_lt_iff, h])
  simp [stringPass, hlt, byte_of_rest h]

theorem stringPass_plain (h : p.rest = c :: r) (hc : c ≠ 34 ∧ c ≠ 92) :
    stringPass (p, out) = .again (p.advance 1, out ++ [c]) := by
  have hlt : ¬ p.text.length ≤ p.pos := Nat.not_le_of_lt (by simp [pos_lt_iff, h])
  simp [stringPass, hlt, byte_of_rest h, hc]

theorem stringPass_backslash (h : p.rest = [92]) :
    stringPass (p, out) = .exit (.ok ((p.advance 1).fail (lit "unterminated string"), none)) := by
  have hlt : ¬ p.text.length ≤ p.pos := Nat.not_le_of_lt (by simp [pos_lt_iff, h])
  have hend : p.text.length ≤ p.pos + 1 := by
    have := congrArg List.length h
    rw [length_rest, List.length_singleton] at this
    omega
  simp [stringPass, hlt, byte_of_rest h, hend]

/-- An escape is one round. -/
theorem stringPass_escape {e : UInt8} (h : p.rest = 92 :: e :: r) :
    stringPass (p, out) =
      match (p.advance 1).parseEscape out with
      | .error fault => .exit (.error fault)
      | .ok (p, none) => .exit (.ok (p, none))
      | .ok (p, some out) => .again (p, out) := by
  have hlt : ¬ p.text.length ≤ p.pos := Nat.not_le_of_lt (by simp [pos_lt_iff, h])
  have hnext : ¬ (p.advance 1).text.length ≤ (p.advance 1).pos := by
    have := congrArg List.length h
    simp only [length_rest, List.length_cons] at this
    rw [advance_text, advance_pos]
    omega
  have hbackslash : ¬ (92 : UInt8) = 34 := by decide
  rw [stringPass, if_neg hlt, byte_of_rest h]
  dsimp only
  rw [if_neg hbackslash, if_neg (not_not.mpr rfl)]
  exact if_neg hnext

theorem parseEscape_simple (h : p.rest = c :: r) (hc : c ∈ lit "\"\\/bfnrt") :
    p.parseEscape out = .ok (p.advance 1, some (out ++ [escapeByte c])) := by
  obtain ⟨hne, hbyte⟩ := escaped_of_mem hc
  simp [parseEscape, byte_of_rest h, bind, Except.bind, hne, hbyte, pure, Except.pure]

theorem parseEscape_invalid (h : p.rest = c :: r) (hne : c ≠ 117)
    (hc : c ∉ lit "\"\\/bfnrt") :
    p.parseEscape out = .ok ((p.advance 1).fail (lit "invalid escape sequence"), none) := by
  have hnone : escaped c = none := by
    by_contra hsome
    exact hc (mem_of_isSome_escaped (Option.isSome_iff_ne_none.mpr hsome))
  simp [parseEscape, byte_of_rest h, bind, Except.bind, hne, hnone, pure, Except.pure]

/-- The `\u` escape: four digits, and what `parseLow` makes of them. -/
theorem parseEscape_unicode (h : p.rest = 117 :: r) :
    p.parseEscape out =
      match (p.advance 1).parseHex4 with
      | .error fault => .error fault
      | .ok (p, none) => .ok (p, none)
      | .ok (p, some cp) =>
          match p.parseLow cp with
          | .error fault => .error fault
          | .ok (p, cp) => .ok (p, some (out ++ utf8 cp)) := by
  simp only [parseEscape, byte_of_rest h, bind, Except.bind, if_true, appendUtf8_eq]
  rcases (p.advance 1).parseHex4 with fault | ⟨q, _ | cp⟩
  · rfl
  · rfl
  · dsimp only
    cases q.parseLow cp <;> rfl

end Rounds

/-- A round reads some items, and adds what they denote to the string. -/
structure Round (p : JsonParser) (items : List StringItem) (bytes : List UInt8) (q : JsonParser) :
    Prop where
  consumes : p.Consumes (itemsText items) q
  ne : items ≠ []
  decode : ∀ more r, q.rest = itemsText more ++ 34 :: r →
    decode (items ++ more) = bytes ++ decode more

/-- The escape of a code unit is a round, with the low surrogate behind it if
there is one. -/
theorem round_unicode {p : JsonParser} (out : List UInt8) {h : Hex4} {r : List UInt8}
    (hr : p.rest = 92 :: 117 :: (h.digits ++ r)) :
    ∃ lows bytes q, stringPass (p, out) = .again (q, out ++ bytes) ∧
      Round p (.unicode h :: lows) bytes q ∧ (lows = [] ∨ ∃ l, lows = [.unicode l]) := by
  have hu : p.Consumes [92, 117] ((p.advance 1).advance 1) := consumes_advance hr
  have he : (p.advance 1).rest = 117 :: (h.digits ++ r) := rest_advance_of_eq (t := [92]) hr
  have hdigits : ((p.advance 1).advance 1).rest = h.digits ++ r := rest_advance_of_eq (t := [92, 117]) hr
  have hcons : p.Consumes (92 :: 117 :: h.digits)
      (((p.advance 1).advance 1).advance h.digits.length) :=
    hu.trans (consumes_advance hdigits)
  obtain ⟨q, v, hq, hlow⟩ := parseLow_spec (((p.advance 1).advance 1).advance h.digits.length) h.value
  rw [stringPass_escape hr, parseEscape_unicode he, parseHex4_of_front hdigits]
  simp only [hq]
  obtain ⟨l, hh, hl, hcons', hv⟩ | ⟨hv, hcons', hno⟩ := hlow
  · have htext : itemsText [.unicode h, .unicode l] =
        92 :: 117 :: h.digits ++ 92 :: 117 :: l.digits := by
      simp [itemsText, StringItem.text]
    have hround : Round p [.unicode h, .unicode l] (utf8 v) q :=
      ⟨htext ▸ hcons.trans hcons', by simp, fun more s _ => hv ▸ decode_pair hh hl more⟩
    exact ⟨_, _, q, rfl, hround, .inr ⟨l, rfl⟩⟩
  · have htext : itemsText [.unicode h] = 92 :: 117 :: h.digits ++ [] := by
      simp [itemsText, StringItem.text]
    have hround : Round p [.unicode h] (utf8 v) q := by
      refine ⟨htext ▸ hcons.trans hcons', by simp, fun more s hmore => hv ▸ decode_lone ?_⟩
      intro l more' hmore' hh
      rw [← Bool.not_eq_true]
      intro hl
      refine hno l hh ⟨hl, itemsText more' ++ 34 :: s, ?_⟩
      rw [hcons'.rest, hmore, show more = .unicode l :: more' from hmore']
      simp [itemsText, StringItem.text]
    exact ⟨_, _, q, rfl, hround, .inl rfl⟩

/-- **What a round can do**: end the string, fail, or read some items. -/
theorem round_spec (p : JsonParser) (out : List UInt8) :
    (∃ q, stringPass (p, out) = .exit (.ok (q, some out)) ∧ p.Consumes [34] q) ∨
    (∃ q, stringPass (p, out) = .exit (.ok (q, none)) ∧ p.Within q) ∨
    ∃ items bytes q, stringPass (p, out) = .again (q, out ++ bytes) ∧ Round p items bytes q := by
  cases hr : p.rest with
  | nil => exact .inr (.inl ⟨_, stringPass_nil hr, within_fail _⟩)
  | cons c r =>
      have hc : p.Consumes [c] (p.advance 1) := consumes_advance hr
      by_cases h34 : c = 34
      · subst h34
        exact .inl ⟨_, stringPass_quote hr, hc⟩
      · by_cases h92 : c = 92
        · subst h92
          cases r with
          | nil => exact .inr (.inl ⟨_, stringPass_backslash hr, hc.within.trans (within_fail _)⟩)
          | cons e s =>
              have he : (p.advance 1).rest = e :: s := rest_advance_of_eq (t := [92]) hr
              have hce : p.Consumes [92, e] ((p.advance 1).advance 1) := consumes_advance hr
              by_cases h117 : e = 117
              · subst h117
                obtain ⟨q, o, hq, hwithin, hspec⟩ := ((p.advance 1).advance 1).parseHex4_spec
                cases o with
                | none =>
                    refine .inr (.inl ⟨q, ?_, hce.within.trans hwithin⟩)
                    rw [stringPass_escape hr, parseEscape_unicode he, hq]
                | some v =>
                    obtain ⟨h, hcons, -⟩ := hspec v rfl
                    obtain ⟨lows, bytes, q', hagain, hround, -⟩ :=
                      round_unicode out (hce.trans hcons).rest
                    exact .inr (.inr ⟨_, bytes, q', hagain, hround⟩)
              · by_cases hesc : e ∈ lit "\"\\/bfnrt"
                · have hround : Round p [.escape e hesc] [escapeByte e] ((p.advance 1).advance 1) :=
                    ⟨hce, by simp, fun more s _ => by simp [decode]⟩
                  refine .inr (.inr ⟨_, _, _, ?_, hround⟩)
                  rw [stringPass_escape hr, parseEscape_simple he hesc]
                · have hfail := within_fail (p := (p.advance 1).advance 1)
                    (lit "invalid escape sequence")
                  refine .inr (.inl ⟨_, ?_, hce.within.trans hfail⟩)
                  rw [stringPass_escape hr, parseEscape_invalid he h117 hesc]
        · have hround : Round p [.plain c ⟨h34, h92⟩] [c] (p.advance 1) :=
            ⟨hc, by simp, fun more s _ => by simp [decode]⟩
          exact .inr (.inr ⟨_, _, _, stringPass_plain hr ⟨h34, h92⟩, hround⟩)

/-! ## The loop -/

theorem length_itemsText_pos {items : List StringItem} (h : items ≠ []) :
    0 < (itemsText items).length := by
  obtain ⟨item, more, rfl⟩ := List.exists_cons_of_ne_nil h
  cases item <;> simp [itemsText, StringItem.text]

/-- **The loop ends, inside the text**, and a string it returns is what the
items it read denote. -/
theorem iterate_stringPass_spec (fuel : Nat) (p : JsonParser) (out : List UInt8)
    (h : p.rest.length < fuel) :
    ∃ q o, Loop.iterate stringPass fuel (p, out) = some (.ok (q, o)) ∧ p.Within q ∧
      ∀ s, o = some s → ∃ items, p.Consumes (itemsText items ++ [34]) q ∧
        s = out ++ decode items := by
  induction fuel generalizing p out with
  | zero => omega
  | succ fuel ih =>
      rw [Loop.iterate]
      obtain ⟨q, hq, hcons⟩ | ⟨q, hq, hwithin⟩ | ⟨items, bytes, q, hq, hround⟩ := round_spec p out
      · rw [hq]
        refine ⟨q, some out, rfl, hcons.within, ?_⟩
        rintro _ ⟨⟩
        exact ⟨[], hcons, by simp [decode]⟩
      · rw [hq]
        exact ⟨q, none, rfl, hwithin, by simp⟩
      · have hpos := length_itemsText_pos hround.ne
        have hlen := hround.consumes.length_rest
        obtain ⟨q', o, hrun, hwithin, hspec⟩ := ih q (out ++ bytes) (by omega)
        rw [hq]
        refine ⟨q', o, hrun, hround.consumes.within.trans hwithin, fun s hs => ?_⟩
        obtain ⟨more, hcons, rfl⟩ := hspec s hs
        refine ⟨items ++ more, ?_, ?_⟩
        · simpa [itemsText] using hround.consumes.trans hcons
        · rw [hround.decode more q'.rest (by simpa using hcons.rest), List.append_assoc]

/-- In front of a string's items the next round reads some of them. -/
theorem round_of_items {p : JsonParser} (out : List UInt8) {items : List StringItem} {r : List UInt8}
    (hne : items ≠ []) (h : p.rest = itemsText items ++ 34 :: r) :
    ∃ front more bytes q, items = front ++ more ∧ stringPass (p, out) = .again (q, out ++ bytes) ∧
      Round p front bytes q ∧ q.rest = itemsText more ++ 34 :: r := by
  obtain ⟨item, more, rfl⟩ := List.exists_cons_of_ne_nil hne
  cases item with
  | plain c hc =>
      have hr : p.rest = c :: (itemsText more ++ 34 :: r) := h
      have hround : Round p [.plain c hc] [c] (p.advance 1) :=
        ⟨consumes_advance (t := [c]) hr, by simp, fun more s _ => by simp [decode]⟩
      exact ⟨_, more, _, _, rfl, stringPass_plain hr hc, hround, rest_advance_of_eq (t := [c]) hr⟩
  | escape c hc =>
      have hr : p.rest = 92 :: c :: (itemsText more ++ 34 :: r) := h
      have hround : Round p [.escape c hc] [escapeByte c] ((p.advance 1).advance 1) :=
        ⟨consumes_advance (t := [92, c]) hr, by simp, fun more s _ => by simp [decode]⟩
      have he : (p.advance 1).rest = c :: (itemsText more ++ 34 :: r) :=
        rest_advance_of_eq (t := [92]) hr
      refine ⟨_, more, _, _, rfl, ?_, hround, rest_advance_of_eq (t := [92, c]) hr⟩
      rw [stringPass_escape hr, parseEscape_simple he hc]
  | unicode d =>
      have hr : p.rest = 92 :: 117 :: (d.digits ++ (itemsText more ++ 34 :: r)) := by
        rw [h]
        simp [itemsText, StringItem.text]
      obtain ⟨lows, bytes, q, hagain, hround, rfl | ⟨l, rfl⟩⟩ := round_unicode out hr
      · refine ⟨_, more, bytes, q, rfl, hagain, hround, ?_⟩
        have hrest := hround.consumes.rest
        rw [hr] at hrest
        simpa [itemsText, StringItem.text] using hrest.symm
      · -- the low surrogate it read is the next item
        have hrest := hround.consumes.rest
        rw [hr] at hrest
        have hfront : itemsText more ++ 34 :: r = 92 :: 117 :: (l.digits ++ q.rest) := by
          simpa [itemsText, StringItem.text] using hrest
        obtain ⟨l', more', rfl, hdigits⟩ := items_of_front hfront
        obtain ⟨hl, hq⟩ := List.append_inj hdigits (l.digits_length.trans l'.digits_length.symm)
        obtain rfl : l = l' := by
          cases l
          cases l'
          simpa using hl
        exact ⟨_, more', bytes, q, rfl, hagain, hround, hq⟩

/-- **The loop reads the items of a string to its quote.** -/
theorem iterate_stringPass_complete (fuel : Nat) (p : JsonParser) (out : List UInt8)
    {items : List StringItem} {r : List UInt8} (hfuel : p.rest.length < fuel)
    (h : p.rest = itemsText items ++ 34 :: r) :
    ∃ q, Loop.iterate stringPass fuel (p, out) = some (.ok (q, some (out ++ decode items))) ∧
      p.Consumes (itemsText items ++ [34]) q := by
  induction fuel generalizing p out items with
  | zero => omega
  | succ fuel ih =>
      rw [Loop.iterate]
      by_cases hne : items = []
      · subst hne
        rw [stringPass_quote h]
        exact ⟨p.advance 1, by simp [decode], consumes_advance (t := [34]) h⟩
      · obtain ⟨front, more, bytes, q, rfl, hagain, hround, hq⟩ := round_of_items out hne h
        have hpos := length_itemsText_pos hround.ne
        have hlen := hround.consumes.length_rest
        obtain ⟨q', hrun, hcons⟩ := ih q (out ++ bytes) (by omega) hq
        rw [hagain]
        refine ⟨q', ?_, by simpa [itemsText] using hround.consumes.trans hcons⟩
        rw [hround.decode more r hq, ← List.append_assoc]
        exact hrun

/-! ## The scanner -/

/-- **The string scanner reads string literals and nothing else.** -/
theorem parseString_spec (p : JsonParser) :
    ∃ q o, p.parseString = .ok (q, o) ∧ p.Within q ∧
      ∀ s, o = some s → ∃ items, p.Consumes (quotedText items) q ∧ s = decode items := by
  rw [parseString]
  obtain ⟨r, hr, heat⟩ | heat := eat_cases p 34
  · have hquote : p.Consumes [34] (p.advance 1) := consumes_advance hr
    obtain ⟨q, o, hrun, hwithin, hspec⟩ := iterate_stringPass_spec ((p.advance 1).text.length + 1)
      (p.advance 1) [] (by rw [length_rest]; omega)
    rw [heat]
    refine ⟨q, o, whileLoop_of_iterate hrun, hquote.within.trans hwithin, fun s hs => ?_⟩
    obtain ⟨items, hcons, rfl⟩ := hspec s hs
    exact ⟨items, hquote.trans hcons, rfl⟩
  · rw [heat]
    exact ⟨_, none, rfl, within_fail _, by simp⟩

/-- **Every string literal is read.** -/
theorem parseString_complete {p : JsonParser} {items : List StringItem} {r : List UInt8}
    (h : p.rest = quotedText items ++ r) :
    ∃ q, p.parseString = .ok (q, some (decode items)) ∧ p.Consumes (quotedText items) q := by
  have hr : p.rest = 34 :: (itemsText items ++ 34 :: r) := by
    rw [h]
    simp [quotedText]
  have hquote : p.Consumes [34] (p.advance 1) := consumes_advance hr
  obtain ⟨q, hrun, hcons⟩ := iterate_stringPass_complete ((p.advance 1).text.length + 1)
    (p.advance 1) [] (by rw [length_rest]; omega) (rest_advance_of_eq (t := [34]) hr)
  rw [parseString, eat_of_head hr]
  exact ⟨q, whileLoop_of_iterate hrun, hquote.trans hcons⟩

end JsonParser

end ChaosForger
