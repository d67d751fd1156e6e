import ChaosForger.Json.Containers

/-!
# ChaosForger.Json.Values

The parser reads exactly its grammar: whatever it accepts is derived with the
value it returns (`parseValue_sound`), and whatever is derived is accepted
(`parseValue_complete`), both by induction on the levels of nesting left.
`parse_iff` puts the two together for whole texts.
-/

namespace ChaosForger

open Libc

namespace JsonParser

/-! ## Brackets around items -/

section Brackets

variable {ι σ : Type} {pass : JsonParser × σ → Pass (JsonParser × σ) (Except Fault (JsonParser × Option Json))}
  {Item : ι → List UInt8 → Prop} {add : σ → ι → σ} {wrap : σ → Json} {opening close : UInt8} {init : σ}
  {msg : List UInt8} {container : JsonParser → Except Fault (JsonParser × Option Json)}

/-- A reader of a bracket, and then the other bracket or the items. -/
def Brackets (container : JsonParser → Except Fault (JsonParser × Option Json))
    (pass : JsonParser × σ → Pass (JsonParser × σ) (Except Fault (JsonParser × Option Json)))
    (wrap : σ → Json) (opening close : UInt8) (init : σ) (msg : List UInt8) : Prop :=
  ∀ p, container p = (do
    let (p, opened) ← p.eat opening
    if ¬ opened then return (p.fail msg, none)
    let p ← p.skipWs
    let (p, closed) ← p.eat close
    if closed then return (p, some (wrap init))
    p.whileLoop pass (p, init))

/-- White space in front of an item belongs to it. -/
def Absorbs (Item : ι → List UInt8 → Prop) : Prop := ∀ i w t, Ws w → Item i t → Item i (w ++ t)

/-- Behind its white space an item does not start with the closing bracket. -/
def Opens (Item : ι → List UInt8 → Prop) (close : UInt8) : Prop :=
  ∀ i t, Item i t →
    ∃ w c s, t = w ++ c :: s ∧ Ws w ∧ isWs c = false ∧ c ≠ close ∧ Item i (c :: s)

theorem Absorbs.listed (h : Absorbs Item) {is : List ι} {w t : List UInt8} (hw : Ws w)
    (hlist : Listed Item is t) : Listed Item is (w ++ t) := by
  cases hlist with
  | last hi => exact .last (h _ w _ hw hi)
  | next hi his =>
      rw [← List.append_assoc]
      exact .next (h _ w _ hw hi) his

theorem Opens.listed (h : Opens Item close) {is : List ι} {t : List UInt8}
    (hlist : Listed Item is t) :
    ∃ w c s, t = w ++ c :: s ∧ Ws w ∧ isWs c = false ∧ c ≠ close ∧ Listed Item is (c :: s) := by
  cases hlist with
  | last hi =>
      obtain ⟨w, c, s, rfl, hw, hc, hne, hi'⟩ := h _ _ hi
      exact ⟨w, c, s, rfl, hw, hc, hne, .last hi'⟩
  | next hi his =>
      obtain ⟨w, c, s, rfl, hw, hc, hne, hi'⟩ := h _ _ hi
      exact ⟨w, c, _, by simp, hw, hc, hne, .next hi' his⟩

theorem Brackets.sound (hc : Brackets container pass wrap opening close init msg)
    (h : Rounds pass Item add wrap close) (habsorb : Absorbs Item) (p : JsonParser) :
    ∃ q o, container p = .ok (q, o) ∧ p.Within q ∧ ∀ v, o = some v →
      (∃ w, Ws w ∧ v = wrap init ∧ p.Consumes (opening :: (w ++ [close])) q) ∨
      ∃ is t, Listed Item is t ∧ v = wrap (is.foldl add init) ∧
        p.Consumes (opening :: (t ++ [close])) q := by
  rw [hc p]
  obtain ⟨r, hr, heat⟩ | heat := eat_cases p opening
  · have hopen : p.Consumes [opening] (p.advance 1) := consumes_advance hr
    obtain ⟨q, w, hq, hw, hcons⟩ := skipWs_spec (p.advance 1)
    obtain ⟨r', hr', hclose⟩ | hclose := eat_cases q close
    · have hall := hopen.trans (hcons.trans (consumes_advance (t := [close]) hr'))
      refine ⟨q.advance 1, some (wrap init), ?_, hall.within, ?_⟩
      · simp [heat, hq, hclose, bind, Except.bind, pure, Except.pure]
      · rintro _ ⟨⟩
        exact .inl ⟨w, hw, rfl, hall⟩
    · have hfuel : q.rest.length < q.text.length + 1 := by
        rw [length_rest]
        omega
      obtain ⟨q', o, hrun, hwithin, hspec⟩ := h.iterate _ q init hfuel
      refine ⟨q', o, ?_, hopen.within.trans (hcons.within.trans hwithin), fun v hv => ?_⟩
      · simpa [heat, hq, hclose, bind, Except.bind, pure, Except.pure] using
          whileLoop_of_iterate hrun
      · obtain ⟨is, t, hlist, rfl, hcons'⟩ := hspec v hv
        refine .inr ⟨is, w ++ t, habsorb.listed hw hlist, rfl, ?_⟩
        simpa using hopen.trans (hcons.trans hcons')
  · refine ⟨p.fail msg, none, ?_, within_fail msg, by simp⟩
    simp [heat, bind, Except.bind, pure, Except.pure]

theorem Brackets.empty (hc : Brackets container pass wrap opening close init msg)
    (hclose : isWs close = false) {p : JsonParser} {w r : List UInt8} (hw : Ws w)
    (hp : p.rest = opening :: (w ++ close :: r)) :
    ∃ q, container p = .ok (q, some (wrap init)) ∧ p.Consumes (opening :: (w ++ [close])) q := by
  have hopen : p.Consumes [opening] (p.advance 1) := consumes_advance hp
  have hrest := hopen.rest_of_front hp
  obtain ⟨q, hq, hcons⟩ := skipWs_of_front hw hrest (by simpa using hclose)
  have hrest' := hcons.rest_of_front hrest
  refine ⟨q.advance 1, ?_, hopen.trans (hcons.trans (consumes_advance (t := [close]) hrest'))⟩
  simp [hc p, eat_of_head hp, hq, eat_of_head hrest', bind, Except.bind, pure, Except.pure]

theorem Brackets.complete (hc : Brackets container pass wrap opening close init msg)
    (h : Offers pass Item add wrap close) (hopens : Opens Item close) {p : JsonParser}
    {is : List ι} {t r : List UInt8} (hlist : Listed Item is t)
    (hp : p.rest = opening :: (t ++ close :: r)) :
    ∃ q, container p = .ok (q, some (wrap (is.foldl add init))) ∧
      p.Consumes (opening :: (t ++ [close])) q := by
  have hopen : p.Consumes [opening] (p.advance 1) := consumes_advance hp
  have hrest : (p.advance 1).rest = t ++ close :: r := hopen.rest_of_front hp
  obtain ⟨w, c, s, rfl, hw, hws, hne, hlist'⟩ := hopens.listed hlist
  rw [List.append_assoc] at hrest
  obtain ⟨q, hq, hcons⟩ := skipWs_of_front hw hrest (by simpa using hws)
  have hrest' := hcons.rest_of_front hrest
  have hfuel : q.rest.length < q.text.length + 1 := by
    rw [length_rest]
    omega
  obtain ⟨q', hrun, hcons'⟩ := h.iterate _ init hlist' hrest' hfuel
  have hclose : q.eat close = .ok (q, false) := by
    rw [eat_cons hrest', if_neg hne]
  refine ⟨q', ?_, by simpa using hopen.trans (hcons.trans hcons')⟩
  simpa [hc p, eat_of_head hp, hq, hclose, bind, Except.bind, pure, Except.pure] using
    whileLoop_of_iterate hrun

end Brackets

/-! ## Items of the grammar -/

section Grammar

variable {toDouble : ℚ → Option ℚ} {n : Nat} {v : Json} {t : List UInt8}

/-- A value inside fewer than `n` containers. -/
def Value (toDouble : ℚ → Option ℚ) (n : Nat) (v : Json) (t : List UInt8) : Prop :=
  ∃ m, n = m + 1 ∧ Derives (scanned toDouble) m (.value v) t

theorem padded_iff : Padded (Value toDouble (n + 1)) v t ↔
    Derives (scanned toDouble) n (.padded v) t := by
  constructor
  · rintro ⟨w, u, w', hw, ⟨m, hm, hu⟩, hw', rfl⟩
    obtain rfl := Nat.succ.inj hm
    exact .padded hw hu hw'
  · intro h
    cases h with
    | padded hw hu hw' => exact ⟨_, _, _, hw, ⟨n, rfl, hu⟩, hw', rfl⟩

theorem member_iff {key : List UInt8} : Member (Value toDouble (n + 1)) (key, v) t ↔
    Derives (scanned toDouble) n (.member key v) t := by
  constructor
  · rintro ⟨w, items, w', u, hw, hkey, hw', hu, rfl⟩
    exact .member hw ⟨items, rfl, hkey⟩ hw' (padded_iff.mp hu)
  · intro h
    cases h with
    | member hw hkey hw' hu =>
        obtain ⟨items, rfl, hkey⟩ := hkey
        exact ⟨_, items, _, _, hw, hkey, hw', padded_iff.mpr hu, rfl⟩

theorem elements_iff {vs : List Json} : Listed (Padded (Value toDouble (n + 1))) vs t ↔
    Derives (scanned toDouble) n (.elements vs) t := by
  constructor
  · intro h
    induction h with
    | last hi => exact .lastElement (padded_iff.mp hi)
    | next hi _ ih => exact .element (padded_iff.mp hi) ih
  · intro h
    generalize hphrase : Phrase.elements vs = phrase at h
    induction h generalizing vs with
    | lastElement hi =>
        obtain rfl := Phrase.elements.inj hphrase
        exact .last (padded_iff.mpr hi)
    | element hi _ _ ih =>
        obtain rfl := Phrase.elements.inj hphrase
        exact .next (padded_iff.mpr hi) (ih rfl)
    | _ => cases hphrase

theorem members_iff {kvs : List (List UInt8 × Json)} :
    Listed (Member (Value toDouble (n + 1))) kvs t ↔ Derives (scanned toDouble) n (.members kvs) t := by
  constructor
  · intro h
    induction h with
    | last hi => exact .lastMember (member_iff.mp hi)
    | next hi _ ih => exact .nextMember (member_iff.mp hi) ih
  · intro h
    generalize hphrase : Phrase.members kvs = phrase at h
    induction h generalizing kvs with
    | lastMember hi =>
        obtain rfl := Phrase.members.inj hphrase
        exact .last (member_iff.mpr hi)
    | nextMember hi _ _ ih =>
        obtain rfl := Phrase.members.inj hphrase
        exact .next (member_iff.mpr hi) (ih rfl)
    | _ => cases hphrase

theorem ws_append {w w' : List UInt8} (h : Ws w) (h' : Ws w') : Ws (w ++ w') := by
  simp only [Ws, List.all_append, Bool.and_eq_true]
  exact ⟨h, h'⟩

theorem absorbs_padded (Value : Json → List UInt8 → Prop) : Absorbs (Padded Value) := by
  rintro v w _ hw ⟨w₁, u, w', hw₁, hu, hw', rfl⟩
  exact ⟨w ++ w₁, u, w', ws_append hw hw₁, hu, hw', by simp⟩

theorem absorbs_member (Value : Json → List UInt8 → Prop) : Absorbs (Member Value) := by
  rintro m w _ hw ⟨w₁, items, w', u, hw₁, hkey, hw', hu, rfl⟩
  exact ⟨w ++ w₁, items, w', u, ws_append hw hw₁, hkey, hw', hu, by simp⟩

/-- A number starts with a sign or a digit, and so with no other token's byte. -/
theorem head_number (token : NumberToken) :
    ∃ c r, token.text = c :: r ∧ isWs c = false ∧ c ∉ ([34, 91, 93, 102, 110, 116, 123] : List UInt8) := by
  have hbyte : ∀ c : UInt8, (c = 43 ∨ c = 45 ∨ isdigit c = true) →
      isWs c = false ∧ c ∉ ([34, 91, 93, 102, 110, 116, 123] : List UInt8) :=
    forall_byte (by decide +kernel)
  obtain ⟨d, ds, hint⟩ := List.exists_cons_of_ne_nil token.int_ne
  have hd : isdigit d = true := List.all_eq_true.mp token.int_all d (by simp [hint])
  rcases token.sign_eq with hsign | hsign | hsign
  · exact ⟨d, _, by rw [NumberToken.text, hsign, hint]; rfl, hbyte d (.inr (.inr hd))⟩
  · exact ⟨43, _, by rw [NumberToken.text, hsign]; rfl, hbyte 43 (by simp)⟩
  · exact ⟨45, _, by rw [NumberToken.text, hsign]; rfl, hbyte 45 (by simp)⟩

/-- A value starts with neither white space nor a closing bracket. -/
theorem head_value (h : Value toDouble n v t) :
    ∃ c r, t = c :: r ∧ isWs c = false ∧ c ≠ 93 := by
  obtain ⟨m, -, h⟩ := h
  cases h with
  | number hq =>
      obtain ⟨token, rfl, -⟩ := hq
      obtain ⟨c, r, hc, hws, hne⟩ := head_number token
      exact ⟨c, r, hc, hws, fun h => hne (by simp [h])⟩
  | string hs =>
      obtain ⟨items, rfl, -⟩ := hs
      exact ⟨34, _, rfl, rfl, by decide⟩
  | null | true | false => exact ⟨_, _, rfl, rfl, by decide⟩
  | emptyArray | array | emptyObject | object => exact ⟨_, _, rfl, rfl, by decide⟩

theorem opens_padded : Opens (Padded (Value toDouble n)) 93 := by
  rintro v _ ⟨w, u, w', hw, hu, hw', rfl⟩
  obtain ⟨c, r, rfl, hc, hne⟩ := head_value hu
  exact ⟨w, c, r ++ w', rfl, hw, hc, hne, [], c :: r, w', rfl, hu, hw', rfl⟩

theorem opens_member (Value : Json → List UInt8 → Prop) : Opens (Member Value) 125 := by
  rintro m _ ⟨w, items, w', u, hw, hkey, hw', hu, rfl⟩
  exact ⟨w, 34, _, rfl, hw, rfl, by decide, [], items, w', u, rfl, hkey, hw', hu, rfl⟩

theorem starts_value : Starts (Value toDouble n) := by
  intro v t h
  obtain ⟨c, r, ht, hc, -⟩ := head_value h
  exact ⟨c, r, ht, hc⟩

end Grammar

/-! ## Values -/

section Values

variable {toDouble : ℚ → Option ℚ} {n : Nat}

theorem brackets_array (element : JsonParser → Except Fault (JsonParser × Option Json)) :
    Brackets (parseArray element) (arrayPass element) .array 91 93 [] (lit "expected '['") :=
  fun _ => rfl

theorem brackets_object (element : JsonParser → Except Fault (JsonParser × Option Json)) :
    Brackets (parseObject element) (objectPass element) .object 123 125 []
      (lit "expected '\x7b'") :=
  fun _ => rfl

theorem foldl_concat (vs arr : List Json) : vs.foldl (fun arr v => arr ++ [v]) arr = arr ++ vs := by
  induction vs generalizing arr with
  | nil => simp
  | cons v vs ih => simp [ih]

/-- Containers of values one level deeper are values. -/
theorem parseArray_sound {element : JsonParser → Except Fault (JsonParser × Option Json)}
    (h : Sound (Value toDouble n) element) : Sound (Value toDouble (n + 1)) (parseArray element) := by
  intro p
  obtain ⟨q, o, hq, hwithin, hspec⟩ :=
    (brackets_array element).sound h.arrayPass (absorbs_padded _) p
  refine ⟨q, o, hq, hwithin, fun v hv => ?_⟩
  obtain ⟨w, hw, rfl, hcons⟩ | ⟨vs, t, hvs, rfl, hcons⟩ := hspec v hv
  · exact ⟨_, ⟨n, rfl, .emptyArray hw⟩, hcons⟩
  · obtain ⟨v, u, -, u', -, -, ⟨m, rfl, -⟩, -⟩ := hvs.exists_item
    rw [foldl_concat, List.nil_append]
    exact ⟨_, ⟨m + 1, rfl, .array (elements_iff.mp hvs)⟩, hcons⟩

theorem parseObject_sound {element : JsonParser → Except Fault (JsonParser × Option Json)}
    (h : Sound (Value toDouble n) element) : Sound (Value toDouble (n + 1)) (parseObject element) := by
  intro p
  obtain ⟨q, o, hq, hwithin, hspec⟩ :=
    (brackets_object element).sound h.objectPass (absorbs_member _) p
  refine ⟨q, o, hq, hwithin, fun v hv => ?_⟩
  obtain ⟨w, hw, rfl, hcons⟩ | ⟨kvs, t, hkvs, rfl, hcons⟩ := hspec v hv
  · exact ⟨_, ⟨n, rfl, .emptyObject hw⟩, hcons⟩
  · obtain ⟨m, u, -, -, -, -, -, -, -, ⟨-, -, -, -, ⟨m, rfl, -⟩, -⟩, -⟩ := hkvs.exists_item
    exact ⟨_, ⟨m + 1, rfl, .object (members_iff.mp hkvs)⟩, hcons⟩

theorem parseArray_complete {element : JsonParser → Except Fault (JsonParser × Option Json)}
    (h : Complete (Value toDouble n) element) {p : JsonParser} {vs : List Json} {t r : List UInt8}
    (hvs : Listed (Padded (Value toDouble n)) vs t) (hp : p.rest = 91 :: (t ++ 93 :: r)) :
    ∃ q, parseArray element p = .ok (q, some (.array vs)) ∧ p.Consumes (91 :: (t ++ [93])) q := by
  have := (brackets_array element).complete (h.arrayPass starts_value) opens_padded hvs hp
  rwa [foldl_concat, List.nil_append] at this

theorem parseObject_complete {element : JsonParser → Except Fault (JsonParser × Option Json)}
    (h : Complete (Value toDouble n) element) {p : JsonParser} {kvs : List (List UInt8 × Json)}
    {t r : List UInt8} (hkvs : Listed (Member (Value toDouble n)) kvs t)
    (hp : p.rest = 123 :: (t ++ 125 :: r)) :
    ∃ q, parseObject element p = .ok (q, some (.object (JsonObject.ofMembers kvs))) ∧
      p.Consumes (123 :: (t ++ [125])) q :=
  (brackets_object element).complete (h.objectPass starts_value) (opens_member _) hkvs hp

/-- A number that is read is the longest token in front, with its value. -/
theorem parseNumber_sound : Sound (Value toDouble (n + 1)) (parseNumber toDouble) := by
  intro p
  obtain ⟨q, hwithin, hq⟩ := p.parseNumber_eq toDouble
  cases hscan : scanNumber p.rest with
  | none =>
      rw [hscan] at hq
      exact ⟨q, none, hq, hwithin, by simp⟩
  | some x =>
      obtain ⟨token, r⟩ := x
      have hcons : p.Consumes token.text (p.advance token.text.length) :=
        consumes_advance (scanNumber_text hscan)
      rw [hscan] at hq
      simp only [stod_text] at hq
      cases hx : toDouble token.value with
      | none =>
          rw [hx] at hq
          exact ⟨_, none, hq, hcons.within.trans (within_fail _), by simp⟩
      | some x =>
          rw [hx] at hq
          refine ⟨_, some (.number x), hq, hcons.within, ?_⟩
          rintro _ ⟨⟩
          exact ⟨_, ⟨n, rfl, .number ⟨token, rfl, hx⟩⟩, hcons⟩

theorem parseNumber_complete {p : JsonParser} {token : NumberToken} {x : ℚ} {r : List UInt8}
    (hx : toDouble token.value = some x) (hp : p.rest = token.text ++ r) (hr : ValueEnds r) :
    ∃ q, p.parseNumber toDouble = .ok (q, some (.number x)) ∧ p.Consumes token.text q := by
  have hends : NumberEnds r := by
    have hbyte : ∀ c : UInt8, (isWs c = true ∨ c = 44 ∨ c = 93 ∨ c = 125) →
        isdigit c = false ∧ c ∉ ([43, 45, 46, 69, 101] : List UInt8) :=
      forall_byte (by decide +kernel)
    exact fun c hc => hbyte c (hr c hc)
  obtain ⟨q, -, hq⟩ := p.parseNumber_eq toDouble
  rw [hp, scanNumber_append token hends] at hq
  simp only [stod_text, hx] at hq
  exact ⟨_, hq, consumes_advance hp⟩

/-- The first byte decides. -/
theorem parseValue_cons {p : JsonParser} {c : UInt8} {r : List UInt8} (hr : p.rest = c :: r) :
    parseValue toDouble (n + 1) p =
      if c = 123 then p.parseObject (parseValue toDouble n)
      else if c = 91 then p.parseArray (parseValue toDouble n)
      else if c = 34 then (do
        match ← p.parseString with
        | (p, none) => return (p, none)
        | (p, some s) => return (p, some (.string s)))
      else if c = 116 then .ok (p.parseLiteral (lit "true") (.bool true))
      else if c = 102 then .ok (p.parseLiteral (lit "false") (.bool false))
      else if c = 110 then .ok (p.parseLiteral (lit "null") .null)
      else p.parseNumber toDouble := by
  have hlt : ¬ p.text.length ≤ p.pos := Nat.not_le_of_lt (by simp [pos_lt_iff, hr])
  rw [parseValue, if_neg hlt, byte_of_rest hr]
  rfl

theorem parseLiteral_sound {literal : List UInt8} {result : Json}
    (h : Value toDouble n result literal) :
    Sound (Value toDouble n) fun p => .ok (p.parseLiteral literal result) := by
  intro p
  by_cases hfront : literal <+: p.rest
  · obtain ⟨r, hr⟩ := hfront
    have hcons : p.Consumes literal (p.advance literal.length) := consumes_advance hr.symm
    refine ⟨_, some result, congrArg _ (parseLiteral_of_front hr.symm), hcons.within, ?_⟩
    rintro _ ⟨⟩
    exact ⟨literal, h, hcons⟩
  · exact ⟨_, none, congrArg _ (parseLiteral_of_not_front hfront), within_fail _, by simp⟩

theorem parseQuoted_sound :
    Sound (Value toDouble (n + 1)) fun p => (do
      match ← p.parseString with
      | (p, none) => return (p, none)
      | (p, some s) => return (p, some (.string s))) := by
  intro p
  obtain ⟨q, o, hq, hwithin, hspec⟩ := parseString_spec p
  cases o with
  | none => exact ⟨q, none, by simp [hq, bind, Except.bind, pure, Except.pure], hwithin, by simp⟩
  | some s =>
      refine ⟨q, some (.string s), by simp [hq, bind, Except.bind, pure, Except.pure], hwithin, ?_⟩
      rintro _ ⟨⟩
      obtain ⟨items, hcons, rfl⟩ := hspec s rfl
      exact ⟨_, ⟨n, rfl, .string ⟨items, rfl, rfl⟩⟩, hcons⟩

/-- **The parser accepts values only**, and returns what they denote. -/
theorem parseValue_sound (n : Nat) : Sound (Value toDouble n) (parseValue toDouble n) := by
  induction n with
  | zero =>
      intro p
      exact ⟨_, none, rfl, within_fail _, by simp⟩
  | succ n ih =>
      intro p
      cases hr : p.rest with
      | nil =>
          have hle : p.text.length ≤ p.pos := Nat.le_of_not_lt (by simp [pos_lt_iff, hr])
          refine ⟨_, none, ?_, within_fail (lit "unexpected end of input"), by simp⟩
          rw [parseValue, if_pos hle]
      | cons c r =>
          rw [parseValue_cons hr]
          split_ifs
          · exact parseObject_sound ih p
          · exact parseArray_sound ih p
          · exact parseQuoted_sound p
          · exact parseLiteral_sound ⟨n, rfl, .true⟩ p
          · exact parseLiteral_sound ⟨n, rfl, .false⟩ p
          · exact parseLiteral_sound ⟨n, rfl, .null⟩ p
          · exact parseNumber_sound p

/-- **Every value is accepted**, with what it denotes. -/
theorem parseValue_complete (n : Nat) : Complete (Value toDouble n) (parseValue toDouble n) := by
  induction n with
  | zero =>
      rintro p v t r ⟨m, hm, -⟩
      cases hm
  | succ n ih =>
      rintro p v t r ⟨m, hm, h⟩ hends hp
      obtain rfl := Nat.succ.inj hm
      cases h with
      | null =>
          refine ⟨_, ?_, consumes_advance hp⟩
          rw [parseValue_cons (c := 110) hp]
          simp [parseLiteral_of_front hp]
      | true =>
          refine ⟨_, ?_, consumes_advance hp⟩
          rw [parseValue_cons (c := 116) hp]
          simp [parseLiteral_of_front hp]
      | false =>
          refine ⟨_, ?_, consumes_advance hp⟩
          rw [parseValue_cons (c := 102) hp]
          simp [parseLiteral_of_front hp]
      | number hx =>
          obtain ⟨token, rfl, hx⟩ := hx
          obtain ⟨c, s, hc, -, hne⟩ := head_number token
          have hcons : p.rest = c :: (s ++ r) := by rw [hp, hc]; rfl
          have hnone : c ≠ 34 ∧ c ≠ 91 ∧ c ≠ 102 ∧ c ≠ 110 ∧ c ≠ 116 ∧ c ≠ 123 := by
            simp only [List.mem_cons, List.not_mem_nil, or_false, not_or] at hne
            tauto
          obtain ⟨h34, h91, h102, h110, h116, h123⟩ := hnone
          rw [parseValue_cons hcons]
          simpa [h34, h91, h102, h110, h116, h123] using parseNumber_complete hx hp hends
      | string hs =>
          obtain ⟨items, rfl, rfl⟩ := hs
          obtain ⟨q, hq, hcons⟩ := parseString_complete hp
          refine ⟨q, ?_, hcons⟩
          rw [parseValue_cons (c := 34) hp]
          simp [hq, bind, Except.bind, pure, Except.pure]
      | @emptyArray _ w hw =>
          have hp' : p.rest = 91 :: (w ++ 93 :: r) := by simpa using hp
          rw [parseValue_cons hp']
          exact (brackets_array _).empty rfl hw hp'
      | @array _ _ t hvs =>
          have hp' : p.rest = 91 :: (t ++ 93 :: r) := by simpa using hp
          rw [parseValue_cons hp']
          exact parseArray_complete ih (elements_iff.mpr hvs) hp'
      | @emptyObject _ w hw =>
          have hp' : p.rest = 123 :: (w ++ 125 :: r) := by simpa using hp
          rw [parseValue_cons hp']
          exact (brackets_object _).empty rfl hw hp'
      | @object _ _ t hkvs =>
          have hp' : p.rest = 123 :: (t ++ 125 :: r) := by simpa using hp
          rw [parseValue_cons hp']
          exact parseObject_complete ih (members_iff.mpr hkvs) hp'

end Values

/-! ## Texts -/

section Texts

variable {toDouble : ℚ → Option ℚ} {text err : List UInt8} {v : Json}

/-- A text is one element with nothing behind it. -/
theorem parse_eq (toDouble : ℚ → Option ℚ) (text err : List UInt8) :
    parse toDouble text err =
      match parseElement (parseValue toDouble (maxDepth + 1)) { text } with
      | .error fault => .error fault
      | .ok (p, none) => .ok (p.err, none)
      | .ok (p, some v) =>
          if p.pos ≠ p.text.length then
            .ok (lit "trailing characters after JSON value at offset " ++ decimal p.pos, none)
          else .ok (err, some v) := by
  simp only [parse, parseElement, bind, Except.bind]
  rcases skipWs { text } with fault | p
  · rfl
  · dsimp only
    rcases parseValue toDouble (maxDepth + 1) p with fault | ⟨q, _ | v⟩
    · rfl
    · rfl
    · dsimp only
      cases q.skipWs <;> rfl

/-- **The parser ends on every text**, and a text it accepts is derived with
the value it returns. -/
theorem parse_spec (toDouble : ℚ → Option ℚ) (text err : List UInt8) :
    ∃ err' o, parse toDouble text err = .ok (err', o) ∧
      ∀ v, o = some v → err' = err ∧ Derives (scanned toDouble) maxDepth (.padded v) text := by
  obtain ⟨q, o, hq, hwithin, hspec⟩ :=
    (@parseValue_sound toDouble (maxDepth + 1)).parseElement { text }
  rw [parse_eq, hq]
  cases o with
  | none => exact ⟨q.err, none, rfl, by simp⟩
  | some v =>
      dsimp only
      split
      · exact ⟨_, none, rfl, by simp⟩
      · next hend =>
          rw [not_not] at hend
          refine ⟨err, some v, rfl, ?_⟩
          rintro _ ⟨⟩
          obtain ⟨t, ht, hcons⟩ := hspec v rfl
          have hnil : q.rest = [] := by rw [rest, hend, List.drop_length]
          have htext : text = t := by
            have := hcons.rest
            rwa [hnil, List.append_nil] at this
          exact ⟨rfl, htext ▸ padded_iff.mp ht⟩

/-- **A text is accepted when it is derived, with the value it denotes.** -/
theorem parse_iff : parse toDouble text err = .ok (err, some v) ↔
    Derives (scanned toDouble) maxDepth (.padded v) text := by
  constructor
  · intro h
    obtain ⟨err', o, hparse, hspec⟩ := parse_spec toDouble text err
    rw [h, Except.ok.injEq, Prod.mk.injEq] at hparse
    exact (hspec v hparse.2.symm).2
  · intro h
    obtain ⟨q, hq, hcons⟩ := (@parseValue_complete toDouble (maxDepth + 1)).parseElement
      starts_value (p := { text }) (r := []) (padded_iff.mpr h) (by simp [ItemEnds]) (by simp [rest])
    have hend : q.pos = q.text.length := by
      rw [hcons.pos, hcons.text, Nat.zero_add]
    rw [parse_eq, hq]
    simp [hend]

end Texts

end JsonParser

end ChaosForger
