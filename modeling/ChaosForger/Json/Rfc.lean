import ChaosForger.Json.Values

/-!
# ChaosForger.Json.Rfc

The parser understands JSON: every text of the RFC 8259 grammar, nested no
deeper than 64 containers, is accepted with the value it denotes
(`parse_rfc`).  The strings of the RFC are stated over characters, with a
surrogate pair as one of them, and denote characters in standard UTF-8.
-/

namespace ChaosForger

open Libc JsonParser

/-! ## UTF-8 -/

/-- The code points of characters. -/
def Scalar (cp : Nat) : Prop := cp < 0xD800 ∨ 0xDFFF < cp ∧ cp < 0x110000

/-- The standard encoding of a code point. -/
def encoding (cp : Nat) : List UInt8 := String.utf8EncodeChar (Char.ofNat cp)

theorem val_ofNat {cp : Nat} (h : Scalar cp) : (Char.ofNat cp).val.toNat = cp := by
  have hvalid : cp.isValidChar := h
  rw [Char.ofNat, dif_pos hvalid]
  rfl

/-- Marker bits above the payload are an addition. -/
theorem marker_or {k x : Nat} (h : x < 2 ^ k) (m : Nat) : 2 ^ k * m ||| x = x + 2 ^ k * m := by
  rw [Nat.add_comm, Nat.two_pow_add_eq_or_of_lt h]

/-- The lead byte of a sequence, with a payload below its modulus. -/
theorem lead_eq {k x d : Nat} (h : x < d) (hd : d ≤ 2 ^ k) (m : Nat) :
    2 ^ k * m ||| x = x % d + 2 ^ k * m := by
  rw [Nat.mod_eq_of_lt h, marker_or (h.trans_le hd)]

theorem continuation_eq (n : Nat) : 0x80 ||| n &&& 0x3F = n % 0x40 + 0x80 := by
  have hmask : n &&& 0x3F = n % 0x40 := Nat.and_two_pow_sub_one_eq_mod n 6
  rw [hmask]
  exact marker_or (k := 6) (Nat.mod_lt n (by decide)) 2

/-- **`append_utf8` writes the standard encoding.** -/
theorem utf8_eq {cp : Nat} (h : Scalar cp) : utf8 cp = encoding cp := by
  have h6 : cp >>> 6 = cp / 64 := Nat.shiftRight_eq_div_pow cp 6
  have h12 : cp >>> 12 = cp / 4096 := Nat.shiftRight_eq_div_pow cp 12
  have h18 : cp >>> 18 = cp / 262144 := Nat.shiftRight_eq_div_pow cp 18
  unfold utf8 appendUtf8 encoding String.utf8EncodeChar
  rw [val_ofNat h]
  simp only [continuation_eq, h6, h12, h18, List.nil_append]
  rcases Nat.lt_or_ge cp 0x80 with h1 | h1
  · have h1' : cp ≤ 0x7f := by omega
    simp [h1, h1']
  · rcases Nat.lt_or_ge cp 0x800 with h2 | h2
    · have hlead : 0xC0 ||| cp / 64 = cp / 64 % 0x20 + 0xc0 :=
        lead_eq (k := 6) (by omega) (by decide) 3
      have h1' : ¬ cp ≤ 0x7f := by omega
      have h2' : cp ≤ 0x7ff := by omega
      simp [h1.not_gt, h1', h2, h2', hlead]
    · rcases Nat.lt_or_ge cp 0x10000 with h3 | h3
      · have hlead : 0xE0 ||| cp / 4096 = cp / 4096 % 0x10 + 0xe0 :=
          lead_eq (k := 5) (by omega) (by decide) 7
        have h1' : ¬ cp ≤ 0x7f := by omega
        have h2' : ¬ cp ≤ 0x7ff := by omega
        have h3' : cp ≤ 0xffff := by omega
        simp [h1.not_gt, h1', h2.not_gt, h2', h3, h3', hlead]
      · have hlead : 0xF0 ||| cp / 262144 = cp / 262144 % 0x08 + 0xf0 :=
          lead_eq (k := 4) (by rcases h with h | h <;> omega) (by decide) 15
        have h1' : ¬ cp ≤ 0x7f := by omega
        have h2' : ¬ cp ≤ 0x7ff := by omega
        have h3' : ¬ cp ≤ 0xffff := by omega
        simp [h1.not_gt, h1', h2.not_gt, h2', h3.not_gt, h3', hlead]

/-! ## Characters -/

theorem Hex4.value_lt (d : Hex4) : d.value < 0x10000 := by
  have hlt := digitsValue_lt 16 d.digits fun c hc =>
    (digitValue_lt_16_iff c).mpr (List.all_eq_true.mp d.digits_all c hc)
  rwa [d.digits_length] at hlt

theorem scalar_of_not_surrogate {d : Hex4} (hh : isHigh d.value = false)
    (hl : isLow d.value = false) : Scalar d.value := by
  have hlt := d.value_lt
  simp only [isHigh, isLow, Bool.and_eq_false_iff, decide_eq_false_iff_not] at hh hl
  unfold Scalar
  omega

theorem scalar_pairValue {high low : Nat} (hh : isHigh high = true) (hl : isLow low = true) :
    Scalar (pairValue high low) := by
  simp only [isHigh, isLow, Bool.and_eq_true, decide_eq_true_eq] at hh hl
  unfold Scalar pairValue
  omega

/-- What stands between the quotes of an RFC string. -/
inductive RfcChar where
  | plain (c : UInt8) (h : 32 ≤ c ∧ c ≠ 34 ∧ c ≠ 92)
  | escape (c : UInt8) (h : c ∈ lit "\"\\/bfnrt")
  | unicode (d : Hex4) (hh : isHigh d.value = false) (hl : isLow d.value = false)
  | pair (high low : Hex4) (hh : isHigh high.value = true) (hl : isLow low.value = true)

namespace RfcChar

def text : RfcChar → List UInt8
  | plain c _ => [c]
  | escape c _ => [92, c]
  | unicode d _ _ => 92 :: 117 :: d.digits
  | pair high low _ _ => 92 :: 117 :: (high.digits ++ 92 :: 117 :: low.digits)

/-- The bytes it denotes. -/
def denotes : RfcChar → List UInt8
  | plain c _ => [c]
  | escape c _ => [escapeByte c]
  | unicode d _ _ => encoding d.value
  | pair high low _ _ => encoding (pairValue high.value low.value)

/-- As the scanner takes it apart. -/
def items : RfcChar → List StringItem
  | plain c h => [.plain c h.2]
  | escape c h => [.escape c h]
  | unicode d _ _ => [.unicode d]
  | pair high low _ _ => [.unicode high, .unicode low]

theorem itemsText_items (c : RfcChar) : itemsText c.items = c.text := by
  cases c <;> simp [itemsText, items, text, StringItem.text]

theorem decode_items (c : RfcChar) (more : List StringItem) :
    decode (c.items ++ more) = c.denotes ++ decode more := by
  cases c with
  | plain c h => rfl
  | escape c h => rfl
  | unicode d hh hl =>
      have hlone : ∀ l more', more = .unicode l :: more' → isHigh d.value = true →
          isLow l.value = false := fun _ _ _ h => by simp [hh] at h
      rw [denotes, ← utf8_eq (scalar_of_not_surrogate hh hl)]
      exact decode_lone hlone
  | pair high low hh hl =>
      rw [denotes, ← utf8_eq (scalar_pairValue hh hl)]
      exact decode_pair hh hl more

theorem itemsText_flatMap (chars : List RfcChar) :
    itemsText (chars.flatMap items) = chars.flatMap text := by
  induction chars with
  | nil => rfl
  | cons c chars ih =>
      rw [itemsText, List.flatMap_cons, List.flatMap_append, ← itemsText, ← itemsText,
        itemsText_items, ih, List.flatMap_cons]

theorem decode_flatMap (chars : List RfcChar) :
    decode (chars.flatMap items) = chars.flatMap denotes := by
  induction chars with
  | nil => rfl
  | cons c chars ih => rw [List.flatMap_cons, decode_items, ih, List.flatMap_cons]

end RfcChar

/-! ## The grammar -/

/-- The number and string literals of RFC 8259, a number as `toDouble` rounds it. -/
def rfc (toDouble : ℚ → Option ℚ) : Lexis where
  number t q := ∃ token : NumberToken, token.Rfc ∧ t = token.text ∧ toDouble token.value = some q
  string t s := ∃ chars : List RfcChar,
    t = 34 :: (chars.flatMap RfcChar.text ++ [34]) ∧ s = chars.flatMap RfcChar.denotes

theorem scanned_of_rfc {toDouble : ℚ → Option ℚ} {n : Nat} {phrase : Phrase} {t : List UInt8}
    (h : Derives (rfc toDouble) n phrase t) : Derives (scanned toDouble) n phrase t := by
  refine h.mono ?_ ?_
  · rintro t q ⟨token, -, ht, hq⟩
    exact ⟨token, ht, hq⟩
  · rintro t s ⟨chars, rfl, rfl⟩
    exact ⟨chars.flatMap RfcChar.items, by rw [quotedText, RfcChar.itemsText_flatMap],
      (RfcChar.decode_flatMap chars).symm⟩

namespace JsonObject

theorem lookup_insert (key key' : List UInt8) (value : Json) (obj : JsonObject) :
    lookup key (insert key' value obj) = if key = key' then some value else lookup key obj := by
  induction obj with
  | nil => rfl
  | cons member obj ih =>
      obtain ⟨k, v⟩ := member
      simp only [insert]
      split_ifs <;> simp_all [lookup]

/-- The last of several members with one key wins. -/
theorem lookup_ofMembers (key : List UInt8) (kvs : List (List UInt8 × Json)) :
    lookup key (ofMembers kvs) = (kvs.reverse.find? fun kv => kv.1 = key).map Prod.snd := by
  induction kvs using List.reverseRecOn with
  | nil => rfl
  | append_singleton kvs kv ih =>
      rw [ofMembers, List.foldl_append, ← ofMembers, List.foldl_cons, List.foldl_nil, lookup_insert,
        ih, List.reverse_append, List.reverse_singleton, List.singleton_append, List.find?_cons]
      by_cases h : kv.1 = key
      · simp [h]
      · simp [h, Ne.symm h]

end JsonObject

/-- **Every text of the RFC grammar is understood.** -/
theorem parse_rfc (toDouble : ℚ → Option ℚ) :
    (∀ (v : Json) (text err : List UInt8), Derives (rfc toDouble) maxDepth (.padded v) text →
      parse toDouble text err = .ok (err, some v)) ∧
    ∀ (kvs : List (List UInt8 × Json)) (key : List UInt8),
      (Json.object (JsonObject.ofMembers kvs)).find key =
        (kvs.reverse.find? fun kv => kv.1 = key).map Prod.snd :=
  ⟨fun _ _ _ h => parse_iff.mpr (scanned_of_rfc h),
    fun kvs key => JsonObject.lookup_ofMembers key kvs⟩

/-- A key that comes twice, and a surrogate pair. -/
theorem parse_rfc_grin :
    parse some (lit "\x7b\"a\": 1,\"a\":[\"\\ud83d\\ude00\"]\x7d\n") [] =
        .ok ([], some (.object [(lit "a", .array [.string [0xF0, 0x9F, 0x98, 0x80]])])) ∧
      (Json.object (JsonObject.ofMembers [(lit "a", .null), (lit "a", .bool true)])).find (lit "a") =
        some (.bool true) := by
  refine ⟨?_, (parse_rfc some).2 _ _⟩
  have hkey : (rfc some).string (lit "\"a\"") (lit "a") :=
    ⟨[.plain 97 (by decide)], by decide +kernel, by decide +kernel⟩
  have hone : (rfc some).number (lit "1") 1 :=
    ⟨⟨[], .inl rfl, [49], by decide, by decide, none, by simp, none⟩,
      by simp [NumberToken.Rfc], by decide +kernel, by decide +kernel⟩
  have hgrin : (rfc some).string (lit "\"\\ud83d\\ude00\"") [0xF0, 0x9F, 0x98, 0x80] :=
    ⟨[.pair ⟨lit "d83d", by decide +kernel, by decide +kernel⟩
        ⟨lit "de00", by decide +kernel, by decide +kernel⟩ (by decide +kernel) (by decide +kernel)],
      by decide +kernel, by decide +kernel⟩
  have hfirst : Derives (rfc some) 63 (.member (lit "a") (.number 1))
      ([] ++ (lit "\"a\"" ++ ([] ++ 58 :: ([32] ++ (lit "1" ++ []))))) :=
    .member rfl hkey rfl (.padded rfl (.number hone) rfl)
  have hsecond : Derives (rfc some) 63 (.member (lit "a") (.array [.string [0xF0, 0x9F, 0x98, 0x80]]))
      ([] ++ (lit "\"a\"" ++ ([] ++ 58 :: ([] ++ (91 :: (([] ++ (lit "\"\\ud83d\\ude00\"" ++ [])) ++ [93])
        ++ []))))) :=
    .member rfl hkey rfl
      (.padded rfl (.array (.lastElement (.padded rfl (.string hgrin) rfl))) rfl)
  have htext := Derives.padded (w := []) (by rfl)
    (.object (.nextMember hfirst (.lastMember hsecond))) (show Ws [10] from rfl)
  exact (parse_rfc some).1 _ _ [] htext

end ChaosForger
