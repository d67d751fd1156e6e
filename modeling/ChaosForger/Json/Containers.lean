import ChaosForger.Json.Strings

/-!
# ChaosForger.Json.Containers

The loops over array elements and object members.  Both read items with commas
between them up to a closing bracket (`Rounds`, `Offers`), for any kind of item
and whatever is collected from them: a loop returns what the items it read
amount to, and reads every list of items.
-/

namespace ChaosForger

open Libc

/-- Items with commas between them. -/
inductive Listed {ι : Type} (Item : ι → List UInt8 → Prop) : List ι → List UInt8 → Prop
  | last {i : ι} {t : List UInt8} : Item i t → Listed Item [i] t
  | next {i : ι} {is : List ι} {t r : List UInt8} : Item i t → Listed Item is r →
      Listed Item (i :: is) (t ++ 44 :: r)

theorem Listed.exists_item {ι : Type} {Item : ι → List UInt8 → Prop} {is : List ι} {t : List UInt8}
    (h : Listed Item is t) : ∃ i u, Item i u := by
  cases h with
  | last hi => exact ⟨_, _, hi⟩
  | next hi => exact ⟨_, _, hi⟩

namespace JsonParser

/-! ## Behind an item -/

section AfterElement

variable {σ : Type} {p : JsonParser} {close : UInt8} {msg : List UInt8} {s : σ} {result : Json}
  {r : List UInt8}

theorem afterElement_comma (h : p.rest = 44 :: r) :
    p.afterElement close msg s result = .again (p.advance 1, s) := by
  simp [afterElement, eat_of_head h]

theorem afterElement_close (hclose : close ≠ 44) (h : p.rest = close :: r) :
    p.afterElement close msg s result = .exit (.ok (p.advance 1, some result)) := by
  simp [afterElement, eat_cons h, hclose]

theorem afterElement_spec (p : JsonParser) (close : UInt8) (msg : List UInt8) (s : σ) (result : Json) :
    (∃ q, p.afterElement close msg s result = .exit (.ok (q, none)) ∧ p.Within q) ∨
    (∃ q, p.afterElement close msg s result = .exit (.ok (q, some result)) ∧ p.Consumes [close] q) ∨
    ∃ q, p.afterElement close msg s result = .again (q, s) ∧ p.Consumes [44] q := by
  obtain ⟨r, hr, heat⟩ | heat := eat_cases p 44
  · exact .inr (.inr ⟨p.advance 1, by simp [afterElement, heat], consumes_advance hr⟩)
  · obtain ⟨r, hr, hclose⟩ | hclose := eat_cases p close
    · exact .inr (.inl ⟨p.advance 1, by simp [afterElement, heat, hclose], consumes_advance hr⟩)
    · exact .inl ⟨p.fail msg, by simp [afterElement, heat, hclose], within_fail msg⟩

end AfterElement

/-! ## Loops over items -/

section Loops

variable {ι σ : Type} {pass : JsonParser × σ → Pass (JsonParser × σ) (Except Fault (JsonParser × Option Json))}
  {Item : ι → List UInt8 → Prop} {add : σ → ι → σ} {wrap : σ → Json} {close : UInt8}

/-- Every round fails, or reads an item with what follows it. -/
def Rounds (pass : JsonParser × σ → Pass (JsonParser × σ) (Except Fault (JsonParser × Option Json)))
    (Item : ι → List UInt8 → Prop) (add : σ → ι → σ) (wrap : σ → Json) (close : UInt8) : Prop :=
  ∀ p s, (∃ q, pass (p, s) = .exit (.ok (q, none)) ∧ p.Within q) ∨
    ∃ i t q, Item i t ∧
      (pass (p, s) = .exit (.ok (q, some (wrap (add s i)))) ∧ p.Consumes (t ++ [close]) q ∨
        pass (p, s) = .again (q, add s i) ∧ p.Consumes (t ++ [44]) q)

/-- An item in front is read with what follows it. -/
def Offers (pass : JsonParser × σ → Pass (JsonParser × σ) (Except Fault (JsonParser × Option Json)))
    (Item : ι → List UInt8 → Prop) (add : σ → ι → σ) (wrap : σ → Json) (close : UInt8) : Prop :=
  ∀ p s i t r, Item i t →
    (p.rest = t ++ close :: r → ∃ q, pass (p, s) = .exit (.ok (q, some (wrap (add s i)))) ∧
      p.Consumes (t ++ [close]) q) ∧
    (p.rest = t ++ 44 :: r → ∃ q, pass (p, s) = .again (q, add s i) ∧ p.Consumes (t ++ [44]) q)

/-- **The loop ends, inside the text**, and returns what the items it read amount to. -/
theorem Rounds.iterate (h : Rounds pass Item add wrap close) (fuel : Nat) (p : JsonParser) (s : σ)
    (hfuel : p.rest.length < fuel) :
    ∃ q o, Loop.iterate pass fuel (p, s) = some (.ok (q, o)) ∧ p.Within q ∧
      ∀ v, o = some v → ∃ is t, Listed Item is t ∧ v = wrap (is.foldl add s) ∧
        p.Consumes (t ++ [close]) q := by
  induction fuel generalizing p s with
  | zero => omega
  | succ fuel ih =>
      rw [Loop.iterate]
      obtain ⟨q, hq, hwithin⟩ | ⟨i, t, q, hi, ⟨hq, hcons⟩ | ⟨hq, hcons⟩⟩ := h p s
      · rw [hq]
        exact ⟨q, none, rfl, hwithin, by simp⟩
      · rw [hq]
        refine ⟨q, _, rfl, hcons.within, ?_⟩
        rintro _ ⟨⟩
        exact ⟨[i], t, .last hi, rfl, hcons⟩
      · have hlen := hcons.length_rest
        rw [List.length_append, List.length_singleton] at hlen
        obtain ⟨q', o, hrun, hwithin, hspec⟩ := ih q (add s i) (by omega)
        rw [hq]
        refine ⟨q', o, hrun, hcons.within.trans hwithin, fun v hv => ?_⟩
        obtain ⟨is, r, his, rfl, hcons'⟩ := hspec v hv
        refine ⟨i :: is, t ++ 44 :: r, .next hi his, rfl, ?_⟩
        simpa using hcons.trans hcons'

/-- **The loop reads every list of items** up to the bracket. -/
theorem Offers.iterate (h : Offers pass Item add wrap close) (fuel : Nat) {p : JsonParser} (s : σ)
    {is : List ι} {t r : List UInt8} (hlist : Listed Item is t) (hr : p.rest = t ++ close :: r)
    (hfuel : p.rest.length < fuel) :
    ∃ q, Loop.iterate pass fuel (p, s) = some (.ok (q, some (wrap (is.foldl add s)))) ∧
      p.Consumes (t ++ [close]) q := by
  induction hlist generalizing p s fuel with
  | @last i t hi =>
      obtain ⟨fuel, rfl⟩ := Nat.exists_eq_succ_of_ne_zero (by omega : fuel ≠ 0)
      obtain ⟨q, hq, hcons⟩ := (h p s i t r hi).1 hr
      exact ⟨q, by rw [Loop.iterate, hq]; rfl, hcons⟩
  | @next i is t u hi _ ih =>
      obtain ⟨fuel, rfl⟩ := Nat.exists_eq_succ_of_ne_zero (by omega : fuel ≠ 0)
      rw [List.append_assoc, List.cons_append] at hr
      obtain ⟨q, hq, hcons⟩ := (h p s i t (u ++ close :: r) hi).2 hr
      have hrest : q.rest = u ++ close :: r := hcons.rest_of_front (by simpa using hr)
      have hlen := hcons.length_rest
      rw [List.length_append, List.length_singleton] at hlen
      obtain ⟨q', hrun, hcons'⟩ := ih fuel (add s i) hrest (by omega)
      refine ⟨q', by rw [Loop.iterate, hq]; exact hrun, ?_⟩
      simpa using hcons.trans hcons'

end Loops

/-! ## White space -/

section WhiteSpace

variable {p : JsonParser} {w r : List UInt8}

theorem skipWs_spec (p : JsonParser) : ∃ q w, p.skipWs = .ok q ∧ Ws w ∧ p.Consumes w q :=
  ⟨_, _, skipWhile_eq _ _, List.all_takeWhile,
    consumes_advance List.takeWhile_append_dropWhile.symm⟩

/-- All of it is skipped. -/
theorem skipWs_of_front (hw : Ws w) (h : p.rest = w ++ r) (hr : ∀ c ∈ r.head?, isWs c = false) :
    ∃ q, p.skipWs = .ok q ∧ p.Consumes w q := by
  have htake : p.rest.takeWhile isWs = w := by
    rw [h, List.takeWhile_append_of_pos (List.all_eq_true.mp hw)]
    cases r with
    | nil => simp
    | cons c r => simp [hr c rfl]
  refine ⟨_, skipWhile_eq _ _, ?_⟩
  rw [htake]
  exact consumes_advance h

end WhiteSpace

/-! ## Elements and members -/

/-- What may follow a value: white space, a comma or a closing bracket. -/
def ValueEnds (r : List UInt8) : Prop :=
  ∀ c ∈ r.head?, isWs c = true ∨ c = 44 ∨ c = 93 ∨ c = 125

/-- What may follow the white space behind it. -/
def ItemEnds (r : List UInt8) : Prop := ∀ c ∈ r.head?, c = 44 ∨ c = 93 ∨ c = 125

/-- A value with white space around it. -/
def Padded (Value : Json → List UInt8 → Prop) (v : Json) (t : List UInt8) : Prop :=
  ∃ w u w', Ws w ∧ Value v u ∧ Ws w' ∧ t = w ++ (u ++ w')

/-- A key and a value with a colon between them. -/
def Member (Value : Json → List UInt8 → Prop) (m : List UInt8 × Json) (t : List UInt8) : Prop :=
  ∃ w items w' u, Ws w ∧ m.1 = decode items ∧ Ws w' ∧ Padded Value m.2 u ∧
    t = w ++ (quotedText items ++ (w' ++ 58 :: u))

section Items

variable {Value : Json → List UInt8 → Prop}
  {element : JsonParser → Except Fault (JsonParser × Option Json)}

/-- What the reader returns is a value of the text it read. -/
def Sound (Value : Json → List UInt8 → Prop)
    (element : JsonParser → Except Fault (JsonParser × Option Json)) : Prop :=
  ∀ p, ∃ q o, element p = .ok (q, o) ∧ p.Within q ∧
    ∀ v, o = some v → ∃ t, Value v t ∧ p.Consumes t q

/-- Every value is read. -/
def Complete (Value : Json → List UInt8 → Prop)
    (element : JsonParser → Except Fault (JsonParser × Option Json)) : Prop :=
  ∀ p v t r, Value v t → ValueEnds r → p.rest = t ++ r →
    ∃ q, element p = .ok (q, some v) ∧ p.Consumes t q

/-- Values do not start with white space. -/
def Starts (Value : Json → List UInt8 → Prop) : Prop :=
  ∀ v t, Value v t → ∃ c r, t = c :: r ∧ isWs c = false

theorem Sound.parseElement (h : Sound Value element) :
    Sound (Padded Value) (parseElement element) := by
  intro p
  obtain ⟨q, w, hq, hw, hcons⟩ := skipWs_spec p
  obtain ⟨q₁, o, hq₁, hwithin, hspec⟩ := h q
  cases o with
  | none =>
      refine ⟨q₁, none, ?_, hcons.within.trans hwithin, by simp⟩
      simp [JsonParser.parseElement, hq, hq₁, bind, Except.bind, pure, Except.pure]
  | some v =>
      obtain ⟨u, hu, hcons₁⟩ := hspec v rfl
      obtain ⟨q₂, w', hq₂, hw', hcons₂⟩ := skipWs_spec q₁
      have hall := hcons.trans (hcons₁.trans hcons₂)
      refine ⟨q₂, some v, ?_, hall.within, ?_⟩
      · simp [JsonParser.parseElement, hq, hq₁, hq₂, bind, Except.bind, pure, Except.pure]
      · rintro _ ⟨⟩
        exact ⟨_, ⟨w, u, w', hw, hu, hw', rfl⟩, hall⟩

theorem not_isWs_of_itemEnds {r : List UInt8} (h : ItemEnds r) :
    ∀ c ∈ r.head?, isWs c = false := by
  intro c hc
  rcases h c hc with rfl | rfl | rfl <;> rfl

/-- White space, or what follows it, follows a value. -/
theorem valueEnds_append {w r : List UInt8} (hw : Ws w) (hr : ItemEnds r) : ValueEnds (w ++ r) := by
  intro c hc
  cases w with
  | nil => exact .inr (hr c hc)
  | cons d w =>
      obtain rfl : d = c := by simpa using hc
      exact .inl (List.all_eq_true.mp hw d (by simp))

theorem Complete.parseElement (h : Complete Value element) (hstart : Starts Value) {p : JsonParser}
    {v : Json} {t r : List UInt8} (ht : Padded Value v t) (hr : ItemEnds r) (hp : p.rest = t ++ r) :
    ∃ q, parseElement element p = .ok (q, some v) ∧ p.Consumes t q := by
  obtain ⟨w, u, w', hw, hu, hw', rfl⟩ := ht
  obtain ⟨c, u', hcu, hc⟩ := hstart v u hu
  obtain ⟨q, hq, hcons⟩ := skipWs_of_front (r := u ++ (w' ++ r)) hw (by simpa using hp) (by simp [hcu, hc])
  have hq' : q.rest = u ++ (w' ++ r) := hcons.rest_of_front (by simpa using hp)
  obtain ⟨q₁, hq₁, hcons₁⟩ := h q v u _ hu (valueEnds_append hw' hr) hq'
  have hq₁' : q₁.rest = w' ++ r := hcons₁.rest_of_front hq'
  obtain ⟨q₂, hq₂, hcons₂⟩ := skipWs_of_front hw' hq₁' (not_isWs_of_itemEnds hr)
  refine ⟨q₂, ?_, hcons.trans (hcons₁.trans hcons₂)⟩
  simp [JsonParser.parseElement, hq, hq₁, hq₂, bind, Except.bind, pure, Except.pure]

/-- **A round of the array loop** reads an element. -/
theorem Sound.arrayPass (h : Sound Value element) :
    Rounds (arrayPass element) (Padded Value) (fun arr v => arr ++ [v]) .array 93 := by
  intro p arr
  obtain ⟨q, o, hq, hwithin, hspec⟩ := h.parseElement p
  simp only [JsonParser.arrayPass, hq]
  cases o with
  | none => exact .inl ⟨q, rfl, hwithin⟩
  | some v =>
      obtain ⟨t, ht, hcons⟩ := hspec v rfl
      obtain ⟨q', hq', hwithin'⟩ | ⟨q', hq', hcons'⟩ | ⟨q', hq', hcons'⟩ :=
        afterElement_spec q 93 (lit "expected ',' or ']' in array") (arr ++ [v])
          (.array (arr ++ [v]))
      · exact .inl ⟨q', hq', hwithin.trans hwithin'⟩
      · exact .inr ⟨v, t, q', ht, .inl ⟨hq', hcons.trans hcons'⟩⟩
      · exact .inr ⟨v, t, q', ht, .inr ⟨hq', hcons.trans hcons'⟩⟩

theorem Complete.arrayPass (h : Complete Value element) (hstart : Starts Value) :
    Offers (arrayPass element) (Padded Value) (fun arr v => arr ++ [v]) .array 93 := by
  intro p arr v t r ht
  constructor
  · intro hr
    obtain ⟨q, hq, hcons⟩ := h.parseElement hstart ht (r := 93 :: r) (by simp [ItemEnds]) hr
    have hclose := hcons.rest_of_front hr
    refine ⟨q.advance 1, ?_, hcons.trans (consumes_advance (t := [93]) hclose)⟩
    simp [JsonParser.arrayPass, hq, afterElement_close (by decide : (93 : UInt8) ≠ 44) hclose]
  · intro hr
    obtain ⟨q, hq, hcons⟩ := h.parseElement hstart ht (r := 44 :: r) (by simp [ItemEnds]) hr
    have hcomma := hcons.rest_of_front hr
    refine ⟨q.advance 1, ?_, hcons.trans (consumes_advance (t := [44]) hcomma)⟩
    simp [JsonParser.arrayPass, hq, afterElement_comma hcomma]

theorem parseKey_spec (p : JsonParser) : ∃ q o, p.parseKey = .ok (q, o) ∧ p.Within q ∧
    ∀ key, o = some key → ∃ w items w', Ws w ∧ key = decode items ∧ Ws w' ∧
      p.Consumes (w ++ (quotedText items ++ (w' ++ [58]))) q := by
  obtain ⟨q, w, hq, hw, hcons⟩ := skipWs_spec p
  obtain ⟨q₁, o, hq₁, hwithin, hspec⟩ := parseString_spec q
  cases o with
  | none =>
      refine ⟨q₁, none, ?_, hcons.within.trans hwithin, by simp⟩
      simp [parseKey, hq, hq₁, bind, Except.bind, pure, Except.pure]
  | some key =>
      obtain ⟨items, hcons₁, rfl⟩ := hspec key rfl
      obtain ⟨q₂, w', hq₂, hw', hcons₂⟩ := skipWs_spec q₁
      have hall := hcons.trans (hcons₁.trans hcons₂)
      obtain ⟨r, hr, heat⟩ | heat := eat_cases q₂ 58
      · have hcolon : q₂.Consumes [58] (q₂.advance 1) := consumes_advance hr
        refine ⟨q₂.advance 1, some (decode items), ?_, hall.within.trans hcolon.within, ?_⟩
        · simp [parseKey, hq, hq₁, hq₂, heat, bind, Except.bind, pure, Except.pure]
        · rintro _ ⟨⟩
          exact ⟨w, items, w', hw, rfl, hw', by simpa using hall.trans hcolon⟩
      · have hfail := within_fail (p := q₂) (lit "expected ':' after object key")
        refine ⟨_, none, ?_, hall.within.trans hfail, by simp⟩
        simp [parseKey, hq, hq₁, hq₂, heat, bind, Except.bind, pure, Except.pure]

/-- A key in front is read. -/
theorem parseKey_complete {p : JsonParser} {w w' r : List UInt8} {items : List StringItem}
    (hw : Ws w) (hw' : Ws w') (h : p.rest = w ++ (quotedText items ++ (w' ++ 58 :: r))) :
    ∃ q, p.parseKey = .ok (q, some (decode items)) ∧
      p.Consumes (w ++ (quotedText items ++ (w' ++ [58]))) q := by
  obtain ⟨q, hq, hcons⟩ := skipWs_of_front hw h (by simp [quotedText]; decide)
  have hrest := hcons.rest_of_front h
  obtain ⟨q₁, hq₁, hcons₁⟩ := parseString_complete hrest
  have hrest₁ := hcons₁.rest_of_front hrest
  obtain ⟨q₂, hq₂, hcons₂⟩ := skipWs_of_front hw' hrest₁ (by simp; decide)
  have hrest₂ := hcons₂.rest_of_front hrest₁
  refine ⟨q₂.advance 1, ?_, ?_⟩
  · simp [parseKey, hq, hq₁, hq₂, eat_of_head hrest₂, bind, Except.bind, pure, Except.pure]
  · simpa using hcons.trans (hcons₁.trans (hcons₂.trans (consumes_advance (t := [58]) hrest₂)))

/-- **A round of the object loop** reads a member. -/
theorem Sound.objectPass (h : Sound Value element) :
    Rounds (objectPass element) (Member Value) (fun obj m => JsonObject.insert m.1 m.2 obj)
      .object 125 := by
  intro p obj
  obtain ⟨q, o, hq, hwithin, hspec⟩ := parseKey_spec p
  simp only [JsonParser.objectPass, hq]
  cases o with
  | none => exact .inl ⟨q, rfl, hwithin⟩
  | some key =>
      obtain ⟨w, items, w', hw, hkey, hw', hcons⟩ := hspec key rfl
      obtain ⟨q₁, o, hq₁, hwithin₁, hspec₁⟩ := h.parseElement q
      simp only [hq₁]
      cases o with
      | none => exact .inl ⟨q₁, rfl, hwithin.trans hwithin₁⟩
      | some v =>
          obtain ⟨u, hu, hcons₁⟩ := hspec₁ v rfl
          have hmember : Member Value (key, v) (w ++ (quotedText items ++ (w' ++ 58 :: u))) :=
            ⟨w, items, w', u, hw, hkey, hw', hu, rfl⟩
          have hall : p.Consumes (w ++ (quotedText items ++ (w' ++ 58 :: u))) q₁ := by
            simpa using hcons.trans hcons₁
          obtain ⟨q', hq', hwithin'⟩ | ⟨q', hq', hcons'⟩ | ⟨q', hq', hcons'⟩ :=
            afterElement_spec q₁ 125 (lit "expected ',' or '\x7d' in object")
              (JsonObject.insert key v obj) (.object (JsonObject.insert key v obj))
          · exact .inl ⟨q', hq', hall.within.trans hwithin'⟩
          · exact .inr ⟨(key, v), _, q', hmember, .inl ⟨hq', hall.trans hcons'⟩⟩
          · exact .inr ⟨(key, v), _, q', hmember, .inr ⟨hq', hall.trans hcons'⟩⟩

theorem Complete.objectPass (h : Complete Value element) (hstart : Starts Value) :
    Offers (objectPass element) (Member Value) (fun obj m => JsonObject.insert m.1 m.2 obj)
      .object 125 := by
  rintro p obj ⟨key, v⟩ t r ⟨w, items, w', u, hw, rfl, hw', hu, rfl⟩
  -- what follows the member decides only the last step
  have hfront : ∀ c r, c = 125 ∨ c = 44 →
      p.rest = w ++ (quotedText items ++ (w' ++ 58 :: u)) ++ c :: r →
      ∃ q q₁, p.parseKey = .ok (q, some (decode items)) ∧
        JsonParser.parseElement element q = .ok (q₁, some v) ∧ q₁.rest = c :: r ∧
        p.Consumes (w ++ (quotedText items ++ (w' ++ 58 :: u))) q₁ := by
    intro c r hc hr
    have hr' : p.rest = w ++ (quotedText items ++ (w' ++ 58 :: (u ++ c :: r))) := by
      simpa using hr
    obtain ⟨q, hq, hcons⟩ := parseKey_complete hw hw' hr'
    have hends : ItemEnds (c :: r) := by
      rcases hc with rfl | rfl <;> simp [ItemEnds]
    obtain ⟨q₁, hq₁, hcons₁⟩ := h.parseElement hstart hu hends
      (hcons.rest_of_front (by simpa using hr'))
    have hall : p.Consumes (w ++ (quotedText items ++ (w' ++ 58 :: u))) q₁ := by
      simpa using hcons.trans hcons₁
    exact ⟨q, q₁, hq, hq₁, hall.rest_of_front hr, hall⟩
  constructor
  · intro hr
    obtain ⟨q, q₁, hq, hq₁, hclose, hcons⟩ := hfront 125 r (.inl rfl) hr
    refine ⟨q₁.advance 1, ?_, hcons.trans (consumes_advance (t := [125]) hclose)⟩
    simp [JsonParser.objectPass, hq, hq₁,
      afterElement_close (by decide : (125 : UInt8) ≠ 44) hclose]
  · intro hr
    obtain ⟨q, q₁, hq, hq₁, hcomma, hcons⟩ := hfront 44 r (.inr rfl) hr
    refine ⟨q₁.advance 1, ?_, hcons.trans (consumes_advance (t := [44]) hcomma)⟩
    simp [JsonParser.objectPass, hq, hq₁, afterElement_comma hcomma]

end Items

end JsonParser

end ChaosForger
