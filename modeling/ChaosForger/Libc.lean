import Mathlib.Algebra.Group.Nat.Defs
import Mathlib.Data.List.TakeWhile
import Mathlib.Data.List.Induction
import Mathlib.Data.Fintype.Basic

/-!
# Libc

The C library functions the HTTP layer calls, on byte lists: character
classes of the "C" locale, `strtoull` as ISO C describes it, and the decimal
rendering of `std::to_string`.  A `std::string` is a byte list; its `c_str()`
view ends with a NUL that the list does not hold, so a NUL inside the list
ends the view early.
-/

namespace Libc

/-- The bytes of a string literal. -/
def lit (s : String) : List UInt8 := s.toUTF8.data.toList

/-- `std::to_string` of an unsigned value. -/
def decimal (n : Nat) : List UInt8 := (Nat.toDigits 10 n).map fun c => c.toNat.toUInt8

/-- `std::to_string` of a signed value. -/
def decimalInt : Int → List UInt8
  | .ofNat n => decimal n
  | .negSucc n => 45 :: decimal (n + 1)

/-! ## Character classes -/

def isdigit (c : UInt8) : Bool := 48 ≤ c && c ≤ 57

def isxdigit (c : UInt8) : Bool := isdigit c || (65 ≤ c && c ≤ 70) || (97 ≤ c && c ≤ 102)

/-- Tab, line feed, vertical tab, form feed, carriage return and space. -/
def isspace (c : UInt8) : Bool := c == 32 || (9 ≤ c && c ≤ 13)

def tolower (c : UInt8) : UInt8 := if 65 ≤ c && c ≤ 90 then c + 32 else c

/-- Value of a digit or letter as `strtoull` reads it in bases up to 36;
anything else is 36 and a digit in no base. -/
def digitValue (c : UInt8) : Nat :=
  if isdigit c then c.toNat - 48
  else if 97 ≤ tolower c && tolower c ≤ 122 then (tolower c).toNat - 87
  else 36

/-! ## strtoull -/

/-- Largest `unsigned long long`. -/
def ullongMax : Nat := 2 ^ 64 - 1

/-- Value of a digit string, most significant digit first. -/
def digitsValue (base : Nat) (ds : List UInt8) : Nat :=
  ds.foldl (fun acc c => acc * base + digitValue c) 0

/-- The optional sign in front of the digits: whether it negates, and its length. -/
def sign : List UInt8 → Bool × Nat
  | 43 :: _ => (false, 1)
  | 45 :: _ => (true, 1)
  | _ => (false, 0)

/-- Length of the `0x` prefix base 16 allows in front of a hex digit. -/
def hexPrefix (base : Nat) : List UInt8 → Nat
  | 48 :: x :: d :: _ => if base = 16 ∧ tolower x = 120 ∧ isxdigit d then 2 else 0
  | _ => 0

/-- `strtoull`: the value read and the offset `endptr` is left at.  White
space and a sign are skipped, a negative value wraps modulo `2 ^ 64`, a value
out of range saturates, and with no digits at all `endptr` stays at the start. -/
def strtoull (s : List UInt8) (base : Nat) : Nat × Nat :=
  let ws := (s.takeWhile isspace).length
  let (neg, signLen) := sign (s.drop ws)
  let start := ws + signLen
  let pre := hexPrefix base (s.drop start)
  let digits := (s.drop (start + pre)).takeWhile fun c => digitValue c < base
  if digits = [] then (0, 0)
  else
    let v := digitsValue base digits
    (if ullongMax < v then ullongMax else if neg then (2 ^ 64 - v) % 2 ^ 64 else v,
      start + pre + digits.length)

/-- The byte at an offset of the `c_str()` view; the terminating NUL stands
behind the last byte. -/
def cstrAt (s : List UInt8) (i : Nat) : UInt8 := s.getD i 0

/-- The `c_str()` view, as far as a C function reads it. -/
def cstr (s : List UInt8) : List UInt8 := s.takeWhile (· != 0)

/-! ## Hex digit strings -/

/-- A statement about every byte can be checked on the 256 of them. -/
theorem forall_byte {P : UInt8 → Prop} (h : ∀ n : Fin 256, P (UInt8.ofFin n)) (c : UInt8) : P c :=
  h c.toFin

/-- A digit value below 16 belongs to a hex digit, and only to one. -/
theorem digitValue_lt_16_iff (c : UInt8) : digitValue c < 16 ↔ isxdigit c = true :=
  forall_byte (P := fun c => digitValue c < 16 ↔ isxdigit c = true) (by decide +kernel) c

theorem isspace_eq_false_of_isxdigit {c : UInt8} : isxdigit c = true → isspace c = false :=
  forall_byte (P := fun c => isxdigit c = true → isspace c = false) (by decide +kernel) c

/-- A hex digit is no sign, and no `x` of a `0x` prefix. -/
theorem ne_of_isxdigit {c : UInt8} : isxdigit c = true → c ≠ 43 ∧ c ≠ 45 ∧ tolower c ≠ 120 :=
  forall_byte (P := fun c => isxdigit c = true → c ≠ 43 ∧ c ≠ 45 ∧ tolower c ≠ 120) (by decide +kernel) c

theorem sign_of_isxdigit {c : UInt8} (h : isxdigit c = true) (s : List UInt8) :
    sign (c :: s) = (false, 0) := by
  obtain ⟨h1, h2, -⟩ := ne_of_isxdigit h
  unfold sign
  split <;> simp_all

theorem hexPrefix_of_all {base : Nat} {s : List UInt8} (h : s.all isxdigit = true) :
    hexPrefix base s = 0 := by
  unfold hexPrefix
  split
  · next x d r =>
      simp only [List.all_cons, Bool.and_eq_true] at h
      rw [if_neg fun hx => (ne_of_isxdigit h.2.1).2.2 hx.2.1]
  · rfl

theorem digitsValue_lt (base : Nat) (ds : List UInt8)
    (h : ∀ c ∈ ds, digitValue c < base) : digitsValue base ds < base ^ ds.length := by
  induction ds using List.reverseRecOn with
  | nil => simp [digitsValue]
  | append_singleton ds c ih =>
      have hc := h c (by simp)
      have hlt := ih fun x hx => h x (by simp [hx])
      rw [digitsValue, List.foldl_append, ← digitsValue]
      simp only [List.foldl_cons, List.foldl_nil, List.length_append, List.length_singleton]
      calc digitsValue base ds * base + digitValue c
          < (digitsValue base ds + 1) * base := by rw [Nat.add_mul, Nat.one_mul]; omega
        _ ≤ base ^ ds.length * base := Nat.mul_le_mul_right base hlt
        _ = base ^ (ds.length + 1) := (Nat.pow_succ ..).symm

/-- On nothing but digits `strtoull` reads their value, when it is in range. -/
theorem strtoull_digits {base : Nat} {s : List UInt8} (hne : s ≠ [])
    (hhex : s.all isxdigit = true) (hdigit : ∀ c ∈ s, digitValue c < base)
    (hval : digitsValue base s < 2 ^ 64) : strtoull s base = (digitsValue base s, s.length) := by
  obtain ⟨c, r, rfl⟩ := List.exists_cons_of_ne_nil hne
  have hc : isxdigit c = true := List.all_eq_true.mp hhex c List.mem_cons_self
  have hws : ((c :: r).takeWhile isspace).length = 0 := by
    simp [isspace_eq_false_of_isxdigit hc]
  have hpre : hexPrefix base (c :: r) = 0 := hexPrefix_of_all hhex
  have htake : (c :: r).takeWhile (fun c => digitValue c < base) = c :: r :=
    List.takeWhile_eq_self_iff.mpr fun x hx => by simpa using hdigit x hx
  have hle : ¬ ullongMax < digitsValue base (c :: r) := by
    unfold ullongMax
    omega
  simp only [strtoull, hws, List.drop_zero, sign_of_isxdigit hc, Nat.zero_add, hpre, htake,
    reduceCtorEq, if_false, hle, Bool.false_eq_true]

/-- **On at most 16 hex digits `strtoull` reads exactly their value.** -/
theorem strtoull_hex {s : List UInt8} (hne : s ≠ []) (hall : s.all isxdigit = true)
    (hlen : s.length ≤ 16) : strtoull s 16 = (digitsValue 16 s, s.length) := by
  have hdigit : ∀ c ∈ s, digitValue c < 16 := fun c hc =>
    (digitValue_lt_16_iff c).mpr (List.all_eq_true.mp hall c hc)
  have hval : digitsValue 16 s < 2 ^ 64 :=
    calc digitsValue 16 s < 16 ^ s.length := digitsValue_lt 16 s hdigit
      _ ≤ 16 ^ 16 := Nat.pow_le_pow_right (by decide) hlen
      _ = 2 ^ 64 := by decide
  exact strtoull_digits hne hall hdigit hval

/-! ## Decimal digit strings -/

/-- A decimal digit is a hex digit with a value below 10, and none of the
bytes that delimit header fields. -/
theorem of_isdigit {c : UInt8} :
    isdigit c = true → isxdigit c = true ∧ digitValue c < 10 ∧ c ≠ 13 ∧ c ≠ 32 ∧ c ≠ 9 :=
  forall_byte (P := fun c => isdigit c = true →
    isxdigit c = true ∧ digitValue c < 10 ∧ c ≠ 13 ∧ c ≠ 32 ∧ c ≠ 9) (by decide +kernel) c

/-- **On decimal digits in range `strtoull` reads exactly their value.** -/
theorem strtoull_decimal {s : List UInt8} (hne : s ≠ []) (hall : s.all isdigit = true)
    (hval : digitsValue 10 s < 2 ^ 64) : strtoull s 10 = (digitsValue 10 s, s.length) := by
  rw [List.all_eq_true] at hall
  have hhex : s.all isxdigit = true := by
    rw [List.all_eq_true]
    exact fun c hc => (of_isdigit (hall c hc)).1
  exact strtoull_digits hne hhex (fun c hc => (of_isdigit (hall c hc)).2.1) hval

/-- A hex digit is neither a CR nor a semicolon. -/
theorem ne_delimiter_of_isxdigit {c : UInt8} : isxdigit c = true → c ≠ 13 ∧ c ≠ 59 :=
  forall_byte (P := fun c => isxdigit c = true → c ≠ 13 ∧ c ≠ 59) (by decide +kernel) c

end Libc
