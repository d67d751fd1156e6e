import ChaosForger.Http.HeaderOrder
import ChaosForger.Http.Message
import ChaosForger.Libc.Numeral

/-!
# ChaosForger.Http.LengthValues

Which Content-Length values the parser takes, and as what.  The value is read
by `strtoull`, so the accepted ones are the numerals within the body limit
(`lengthOf_eq_some_iff`).  Among them are some that are no digit strings at
all (`Disguised`), and these are exactly the ones that are misread
(`readsExactly_iff`).
-/

namespace ChaosForger

open Search Libc

namespace HttpResponseParser

/-- A Content-Length field with any value. -/
structure LengthField where
  name : List UInt8
  name_eq : ieq name (lit "content-length") = true
  raw : List UInt8
  raw_free : CrlfFree raw

namespace LengthField

def text (l : LengthField) : List UInt8 := l.name ++ 58 :: l.raw

/-- The value without the spaces and tabs around it. -/
def value (l : LengthField) : List UInt8 := trimOws l.raw

theorem blockLine_text (l : LengthField) : BlockLine l.text := by
  have hname : ∀ c ∈ l.name ++ [58], c ≠ 13 := by
    intro c hc
    rw [List.mem_append, List.mem_singleton] at hc
    obtain hc | rfl := hc
    · exact (ne_of_ieq_contentLength l.name_eq c hc).2
    · decide
  refine ⟨by simp [text], ?_⟩
  rw [text, List.append_cons]
  exact crlfFree_append hname l.raw_free

end LengthField

/-! ## The accepted values -/

/-- A numeral in range stands for its value; a saturated one is above every limit. -/
theorem lengthOf_numeral {limits : Limits} (hmax : limits.maxBodyBytes < ullongMax)
    (x : Numeral) :
    lengthOf limits x.text =
      if x.magnitude ≤ ullongMax ∧ x.signed ≤ limits.maxBodyBytes then some x.signed
      else none := by
  obtain ⟨hstop, hnul⟩ := cstrAt_numeral x
  rw [lengthOf, strtoull_numeral]
  dsimp only
  rw [hnul, if_neg (by simp [hstop])]
  by_cases hin : x.magnitude ≤ ullongMax
  · rw [if_neg (Nat.not_lt.mpr hin)]
    by_cases hle : x.signed ≤ limits.maxBodyBytes
    · rw [if_neg (Nat.not_lt.mpr hle), if_pos ⟨hin, hle⟩]
    · rw [if_pos (Nat.not_le.mp hle), if_neg fun h => hle h.2]
  · rw [if_pos (Nat.not_le.mp hin), if_pos hmax, if_neg fun h => hin h.1]

/-- **The accepted values are the numerals within the limit.** -/
theorem lengthOf_eq_some_iff {limits : Limits} (hmax : limits.maxBodyBytes < ullongMax)
    {v : List UInt8} {n : Nat} :
    lengthOf limits v = some n ↔
      ∃ x : Numeral, x.text = v ∧ (x.magnitude ≤ ullongMax ∧ x.signed ≤ limits.maxBodyBytes) ∧
        x.signed = n := by
  constructor
  · intro h
    obtain ⟨x, rfl⟩ : ∃ x : Numeral, x.text = v := by
      by_cases hread : (strtoull v 10).2 = 0 ∨ cstrAt v (strtoull v 10).2 ≠ 0
      · rw [lengthOf, if_pos hread] at h
        contradiction
      · rw [not_or, not_not] at hread
        exact exists_numeral hread.1 hread.2
    rw [lengthOf_numeral hmax] at h
    split at h
    · next hin => exact ⟨x, rfl, hin, Option.some.inj h⟩
    · contradiction
  · rintro ⟨x, rfl, hin, rfl⟩
    rw [lengthOf_numeral hmax, if_pos hin]

/-- Decimal digits within the limit, and nothing else. -/
def ExactLength (max : Nat) (v : List UInt8) : Prop :=
  v ≠ [] ∧ v.all isdigit = true ∧ digitsValue 10 v ≤ max

instance (max : Nat) (v : List UInt8) : Decidable (ExactLength max v) :=
  inferInstanceAs (Decidable (_ ∧ _ ∧ _))

/-- A numeral within the limit that is more than its digits: white space or a
sign in front of them, or a NUL behind them. -/
def Disguised (max : Nat) (v : List UInt8) : Prop :=
  ∃ x : Numeral, x.text = v ∧ (x.space ≠ [] ∨ x.sign ≠ [] ∨ x.hidden ≠ []) ∧
    x.magnitude ≤ ullongMax ∧ x.signed ≤ max

theorem isdigit_eq_false_of_isspace {c : UInt8} : isspace c = true → isdigit c = false :=
  forall_byte (P := fun c => isspace c = true → isdigit c = false) (by decide +kernel) c

/-- A digit string is a numeral in one way only. -/
theorem not_disguised_of_digits (max : Nat) {v : List UInt8} (h : v.all isdigit = true) :
    ¬ Disguised max v := by
  rintro ⟨x, rfl, hmore, -, -⟩
  rw [List.all_eq_true] at h
  have hmem : ∀ c, c ∈ x.space ∨ c ∈ x.sign ∨ c ∈ x.digits ∨ c ∈ x.hidden → isdigit c = true :=
    fun c hc => h c (by simpa only [Numeral.text, List.mem_append] using hc)
  obtain hs | hs | hs := hmore
  · obtain ⟨c, r, hr⟩ := List.exists_cons_of_ne_nil hs
    have hspace := List.all_eq_true.mp x.space_all c (by simp [hr])
    have hd := hmem c (.inl (by simp [hr]))
    rw [isdigit_eq_false_of_isspace hspace] at hd
    contradiction
  · obtain hg | hg | hg := x.sign_eq
    · exact hs hg
    · exact absurd (hmem 43 (by simp [hg])) (by decide)
    · exact absurd (hmem 45 (by simp [hg])) (by decide)
  · obtain ⟨c, r, hr⟩ := List.exists_cons_of_ne_nil hs
    have hnul := x.hidden_nul c (by simp [hr])
    exact absurd (hmem c (by simp [hr])) (by rw [hnul]; decide)

/-- An exact length is read as its value. -/
theorem lengthOf_of_exact {limits : Limits} (hmax : limits.maxBodyBytes < ullongMax)
    {v : List UInt8} (h : ExactLength limits.maxBodyBytes v) :
    lengthOf limits v = some (digitsValue 10 v) := by
  obtain ⟨hne, hall, hle⟩ := h
  refine (lengthOf_eq_some_iff hmax).mpr ⟨⟨[], rfl, [], .inl rfl, v, hne, hall, [], by simp⟩, ?_⟩
  exact ⟨by simp [Numeral.text], ⟨Nat.le_of_lt (Nat.lt_of_le_of_lt hle hmax), hle⟩, rfl⟩

/-- Any other value is refused, unless it is disguised. -/
theorem lengthOf_eq_none_iff_of_not_exact {limits : Limits}
    (hmax : limits.maxBodyBytes < ullongMax) {v : List UInt8}
    (h : ¬ ExactLength limits.maxBodyBytes v) :
    lengthOf limits v = none ↔ ¬ Disguised limits.maxBodyBytes v := by
  rw [Option.eq_none_iff_forall_ne_some, ← not_exists, not_iff_not]
  constructor
  · rintro ⟨n, hn⟩
    obtain ⟨x, rfl, ⟨hin, hle⟩, rfl⟩ := (lengthOf_eq_some_iff hmax).mp hn
    refine ⟨x, rfl, ?_, hin, hle⟩
    by_contra hplain
    simp only [not_or, not_not] at hplain
    obtain ⟨hspace, hsign, hhidden⟩ := hplain
    have htext : x.text = x.digits := by
      simp only [Numeral.text, hspace, hsign, hhidden, List.nil_append, List.append_nil]
    have hvalue : x.signed = digitsValue 10 x.digits := by
      rw [Numeral.signed, if_neg (by simp [hsign]), Numeral.magnitude]
    exact h (htext ▸ ⟨x.digits_ne, x.digits_all, hvalue ▸ hle⟩)
  · rintro ⟨x, hx, -, hin, hle⟩
    exact ⟨x.signed, (lengthOf_eq_some_iff hmax).mpr ⟨x, hx, ⟨hin, hle⟩, rfl⟩⟩

/-! ## The header block -/

section Block

variable {before after : List (List UInt8)} (hb : ∀ l ∈ before, NotFraming l)
  (ha : ∀ l ∈ after, NotFraming l)
include hb ha

/-- The only framing line among the header lines is the Content-Length. -/
theorem mem_kindsOf_lengthField (limits : Limits) (l : LengthField) {k : LineKind} :
    k ∈ kindsOf limits (before ++ l.text :: after) →
      k = .other ∨ k = .contentLength (lengthOf limits l.value) := by
  intro hk
  obtain ⟨line, hline, rfl⟩ := List.mem_map.mp hk
  rw [List.mem_append, List.mem_cons] at hline
  obtain hline | rfl | hline := hline
  · exact .inl (lineKind_of_notFraming limits (hb line hline))
  · exact .inr (lineKind_of_contentLength limits l.name_eq l.raw)
  · exact .inl (lineKind_of_notFraming limits (ha line hline))

/-- The loop takes the length of that line, or fails with it. -/
theorem taken_lengthField (limits : Limits) (l : LengthField) (n₀ : Nat) :
    taken (verdictOf (.none, n₀) (kindsOf limits (before ++ l.text :: after))) =
      (lengthOf limits l.value).map fun n => (.contentLength, some n) := by
  have hkinds := @mem_kindsOf_lengthField before after hb ha limits l
  have hin : .contentLength (lengthOf limits l.value) ∈
      kindsOf limits (before ++ l.text :: after) := by
    rw [LengthField.value, ← lineKind_of_contentLength limits l.name_eq l.raw]
    exact List.mem_map_of_mem (List.mem_append_right _ List.mem_cons_self)
  have hch : .chunked ∉ kindsOf limits (before ++ l.text :: after) := fun hc => by
    simpa using hkinds hc
  cases hl : lengthOf limits l.value with
  | none =>
      rw [hl] at hkinds hin
      have hbad := verdictOf_of_bad (s := (.none, n₀)) (by simp) hch hin
      simp only [taken, shown, hbad, Bool.false_eq_true, if_false, Option.map_none]
  | some n =>
      rw [hl] at hkinds hin
      have hbad : .contentLength none ∉ kindsOf limits (before ++ l.text :: after) :=
        fun hc => by simpa using hkinds hc
      have heq : ∀ m, .contentLength (some m) ∈ kindsOf limits (before ++ l.text :: after) →
          m = n := fun m hm => by simpa using hkinds hm
      rw [verdictOf_of_length (by simp) hch hbad hin heq]
      rfl

end Block

/-- The block is accepted exactly when the value of its Content-Length is a
digit string within the limit, and then with that length. -/
def ReadsExactly (p : HttpResponseParser) (status : List UInt8) (before : List (List UInt8))
    (l : LengthField) (after : List (List UInt8)) (body : List UInt8) : Prop :=
  (p.framingVerdict (headerBlock status (before ++ l.text :: after)) body).map taken =
    some (if ExactLength p.limits.maxBodyBytes l.value then
      some (.contentLength, some (digitsValue 10 l.value)) else none)

/-- **Content-Length values are read exactly unless they are disguised.** -/
theorem readsExactly_iff (p : HttpResponseParser) (hmax : p.limits.maxBodyBytes < 2 ^ 64 - 1)
    {status : List UInt8} {before after : List (List UInt8)} (hs : CrlfFree status)
    (hb : ∀ l ∈ before, BlockLine l ∧ NotFraming l) (ha : ∀ l ∈ after, BlockLine l ∧ NotFraming l)
    (l : LengthField) (body : List UInt8) :
    p.ReadsExactly status before l after body ↔ ¬ Disguised p.limits.maxBodyBytes l.value := by
  have hls : ∀ m ∈ before ++ l.text :: after, BlockLine m := by
    intro m hm
    rw [List.mem_append, List.mem_cons] at hm
    obtain hm | rfl | hm := hm
    · exact (hb m hm).1
    · exact l.blockLine_text
    · exact (ha m hm).1
  rw [ReadsExactly, framingVerdict_of_kinds p hs hls (by simp), Option.map_some,
    taken_lengthField (fun m hm => (hb m hm).2) (fun m hm => (ha m hm).2), Option.some.injEq]
  by_cases hexact : ExactLength p.limits.maxBodyBytes l.value
  · rw [if_pos hexact, lengthOf_of_exact hmax hexact]
    exact iff_of_true rfl (not_disguised_of_digits _ hexact.2.1)
  · rw [if_neg hexact, Option.map_eq_none_iff, lengthOf_eq_none_iff_of_not_exact hmax hexact]

/-- A field with this value behind a space. -/
def lengthField (v : List UInt8) (h : CrlfFree v) : LengthField where
  name := lit "Content-Length"
  name_eq := by decide
  raw := 32 :: v
  raw_free := crlfFree_append (a := [32]) (by simp) h

theorem readsExactly_iff_padded :
    (new true {}).ReadsExactly (lit "HTTP/1.1 200 OK") [lit "Date: 1"]
        (lengthField (lit "007\t") (by decide)) [lit "Server: +5"] [] ↔
      ¬ Disguised (16 * 1024 * 1024) (lit "007") :=
  readsExactly_iff (new true {}) (by decide) (by decide) (by decide) (by decide) _ []

/-- A sign, a sign that wraps around, a vertical tab, and a NUL in front of garbage. -/
theorem readsExactly_disguised :
    ¬ (new true {}).ReadsExactly (lit "HTTP/1.1 200 OK") []
        (lengthField (lit "+5") (by decide)) [] [] ∧
      ¬ (new true {}).ReadsExactly (lit "HTTP/1.1 200 OK") []
        (lengthField (lit "-18446744073709551615") (by decide)) [] [] ∧
      ¬ (new true {}).ReadsExactly (lit "HTTP/1.1 200 OK") []
        (lengthField [11, 53] (by decide)) [] [] ∧
      ¬ (new true {}).ReadsExactly (lit "HTTP/1.1 200 OK") []
        (lengthField [53, 0, 120] (by decide)) [] [] := by
  unfold ReadsExactly
  decide +kernel

end HttpResponseParser

end ChaosForger
