import ChaosForger.Libc
import Mathlib.Data.List.GetD
import Mathlib.Order.Basic

/-!
# ChaosForger.Libc.Numeral

What `strtoull` reads in base 10, said without its scanner: white space, an
optional sign, digits, and bytes that the `c_str()` view hides because they
stand behind a NUL (`Numeral`).  Every numeral is read up to the end of its
digits (`strtoull_numeral`), and whatever is read up to the end of the view is
a numeral (`exists_numeral`).  What `std::to_string` writes has the value it
was written for (`digitsValue_decimal`).
-/

namespace Libc

/-- The part of a string that `strtoull` reads in base 10 and the rest of it,
which the `c_str()` view does not show. -/
structure Numeral where
  space : List UInt8
  space_all : space.all isspace = true
  sign : List UInt8
  sign_eq : sign = [] ∨ sign = [43] ∨ sign = [45]
  digits : List UInt8
  digits_ne : digits ≠ []
  digits_all : digits.all isdigit = true
  hidden : List UInt8
  hidden_nul : ∀ c ∈ hidden.head?, c = 0

namespace Numeral

def text (x : Numeral) : List UInt8 := x.space ++ (x.sign ++ (x.digits ++ x.hidden))

/-- The value of the digits. -/
def magnitude (x : Numeral) : Nat := digitsValue 10 x.digits

/-- The value with the sign, modulo `2 ^ 64`. -/
def signed (x : Numeral) : Nat :=
  if x.sign = [45] then (2 ^ 64 - x.magnitude) % 2 ^ 64 else x.magnitude

/-- Offset of the end of the digits. -/
def stop (x : Numeral) : Nat := x.space.length + x.sign.length + x.digits.length

end Numeral

theorem hexPrefix_of_ne {base : Nat} (h : base ≠ 16) (s : List UInt8) : hexPrefix base s = 0 := by
  unfold hexPrefix
  split
  · rw [if_neg fun hc => h hc.1]
  · rfl

theorem isspace_of_sign {c : UInt8} (h : c = 43 ∨ c = 45) : isspace c = false := by
  obtain rfl | rfl := h <;> rfl

theorem digitValue_lt_10_iff (c : UInt8) : digitValue c < 10 ↔ isdigit c = true :=
  forall_byte (P := fun c => digitValue c < 10 ↔ isdigit c = true) (by decide +kernel) c

/-- Every string starts with a sign or none. -/
theorem exists_sign (s : List UInt8) : ∃ g t, s = g ++ t ∧ (g = [] ∨ g = [43] ∨ g = [45]) ∧
    sign s = (decide (g = [45]), g.length) := by
  unfold sign
  split
  · next t => exact ⟨[43], t, rfl, by simp, by simp⟩
  · next t => exact ⟨[45], t, rfl, by simp, by simp⟩
  · exact ⟨[], s, rfl, by simp, by simp⟩

theorem sign_append {g ds : List UInt8} (hg : g = [] ∨ g = [43] ∨ g = [45]) (hne : ds ≠ [])
    (hall : ds.all isdigit = true) (t : List UInt8) :
    sign (g ++ (ds ++ t)) = (decide (g = [45]), g.length) := by
  obtain rfl | rfl | rfl := hg
  · obtain ⟨c, r, rfl⟩ := List.exists_cons_of_ne_nil hne
    rw [List.all_eq_true] at hall
    exact sign_of_isxdigit (of_isdigit (hall c List.mem_cons_self)).1 (r ++ t)
  · rfl
  · rfl

/-- `strtoull` in base 10 on a string split where it stops. -/
theorem strtoull_split {ws g ds t : List UInt8}
    (hws : (ws ++ (g ++ (ds ++ t))).takeWhile isspace = ws)
    (hg : sign (g ++ (ds ++ t)) = (decide (g = [45]), g.length))
    (hds : (ds ++ t).takeWhile (fun c => digitValue c < 10) = ds) :
    strtoull (ws ++ (g ++ (ds ++ t))) 10 =
      if ds = [] then (0, 0)
      else (if ullongMax < digitsValue 10 ds then ullongMax
        else if g = [45] then (2 ^ 64 - digitsValue 10 ds) % 2 ^ 64 else digitsValue 10 ds,
        ws.length + g.length + ds.length) := by
  have hdrop : (ws ++ (g ++ (ds ++ t))).drop (ws.length + g.length) = ds ++ t := by
    rw [← List.append_assoc]
    exact List.drop_left' (by simp)
  simp only [strtoull, hws, List.drop_left, hg, hexPrefix_of_ne (show 10 ≠ 16 by decide),
    Nat.add_zero, hdrop, hds]
  by_cases hneg : g = [45]
  · simp only [hneg, decide_true, if_true]
  · simp only [hneg, decide_false, if_false, Bool.false_eq_true]

/-- **`strtoull` reads a numeral** up to the end of its digits. -/
theorem strtoull_numeral (x : Numeral) :
    strtoull x.text 10 =
      (if ullongMax < x.magnitude then ullongMax else x.signed, x.stop) := by
  obtain ⟨ws, hws, g, hg, ds, hne, hall, t, ht⟩ := x
  have hspace : (ws ++ (g ++ (ds ++ t))).takeWhile isspace = ws := by
    have hstart : (g ++ (ds ++ t)).takeWhile isspace = [] := by
      obtain ⟨c, r, rfl⟩ := List.exists_cons_of_ne_nil hne
      have hc := List.all_eq_true.mp hall c List.mem_cons_self
      obtain rfl | rfl | rfl := hg
      · simp [isspace_eq_false_of_isxdigit (of_isdigit hc).1]
      · simp [isspace_of_sign]
      · simp [isspace_of_sign]
    rw [List.takeWhile_append_of_pos (List.all_eq_true.mp hws), hstart, List.append_nil]
  have hdigits : (ds ++ t).takeWhile (fun c => digitValue c < 10) = ds := by
    have hrest : t.takeWhile (fun c => digitValue c < 10) = [] := by
      cases t with
      | nil => rfl
      | cons c t =>
          obtain rfl := ht c rfl
          rfl
    rw [List.takeWhile_append_of_pos, hrest, List.append_nil]
    intro c hc
    simpa using (digitValue_lt_10_iff c).mpr (List.all_eq_true.mp hall c hc)
  exact (strtoull_split hspace (sign_append hg hne hall t) hdigits).trans (if_neg hne)

/-- Behind a numeral the `c_str()` view ends. -/
theorem cstrAt_numeral (x : Numeral) : x.stop ≠ 0 ∧ cstrAt x.text x.stop = 0 := by
  have hpos : 0 < x.digits.length := List.length_pos_of_ne_nil x.digits_ne
  refine ⟨by unfold Numeral.stop; omega, ?_⟩
  have htext : x.text = (x.space ++ x.sign ++ x.digits) ++ x.hidden := by
    simp only [Numeral.text, List.append_assoc]
  have hstop : x.stop = (x.space ++ x.sign ++ x.digits).length := by
    simp only [Numeral.stop, List.length_append]
  have hnul := x.hidden_nul
  rw [cstrAt, htext, hstop, List.getD_append_right _ _ _ _ le_rfl, Nat.sub_self]
  cases hh : x.hidden with
  | nil => rfl
  | cons c t => exact hnul c (by simp [hh])

theorem exists_takeWhile (p : UInt8 → Bool) (s : List UInt8) :
    ∃ a b, s = a ++ b ∧ s.takeWhile p = a ∧ a.all p = true :=
  ⟨_, _, List.takeWhile_append_dropWhile.symm, rfl, List.all_takeWhile⟩

/-- What `strtoull` reads to the end of the `c_str()` view is a numeral. -/
theorem exists_numeral {s : List UInt8} (hend : (strtoull s 10).2 ≠ 0)
    (hnul : cstrAt s (strtoull s 10).2 = 0) : ∃ x : Numeral, x.text = s := by
  obtain ⟨ws, r, hs, hws, hspace⟩ := exists_takeWhile isspace s
  obtain ⟨g, t, rfl, hg, hsign⟩ := exists_sign r
  obtain ⟨ds, hidden, rfl, hds, hdigits⟩ := exists_takeWhile (fun c => digitValue c < 10) t
  have hall : ds.all isdigit = true := by
    rw [List.all_eq_true] at hdigits ⊢
    exact fun c hc => (digitValue_lt_10_iff c).mp (by simpa using hdigits c hc)
  subst hs
  rw [strtoull_split hws hsign hds] at hend hnul
  by_cases hne : ds = []
  · -- no digits: the end pointer stays at the start
    rw [if_pos hne] at hend
    contradiction
  · rw [if_neg hne] at hnul
    refine ⟨⟨ws, hspace, g, hg, ds, hne, hall, hidden, fun c hc => ?_⟩, rfl⟩
    obtain ⟨t, rfl⟩ : ∃ t, hidden = c :: t := by
      cases hidden with
      | nil => contradiction
      | cons d t =>
          rw [List.head?_cons, Option.mem_some_iff] at hc
          exact ⟨t, by rw [hc]⟩
    have hassoc : ws ++ (g ++ (ds ++ c :: t)) = (ws ++ g ++ ds) ++ c :: t := by
      simp only [List.append_assoc]
    have hlen : ws.length + g.length + ds.length = (ws ++ g ++ ds).length := by
      simp only [List.length_append]
    simp only [cstrAt] at hnul
    rwa [hassoc, hlen, List.getD_append_right _ _ _ _ le_rfl, Nat.sub_self,
      List.getD_cons_zero] at hnul

/-! ## What `std::to_string` writes -/

/-- The byte of a digit character. -/
theorem of_isDigit {c : Char} (h : c.isDigit = true) :
    isdigit c.toNat.toUInt8 = true ∧ digitValue c.toNat.toUInt8 = c.toNat - 48 := by
  have hrange : 48 ≤ c.toNat ∧ c.toNat ≤ 57 := by
    simp only [Char.isDigit, Bool.and_eq_true, decide_eq_true_eq, ge_iff_le] at h
    exact h
  have hnat : c.toNat.toUInt8.toNat = c.toNat := by
    simp only [Nat.toUInt8, UInt8.toNat_ofNat']
    omega
  have hdigit : isdigit c.toNat.toUInt8 = true := by
    simp only [isdigit, Bool.and_eq_true, decide_eq_true_eq, UInt8.le_iff_toNat_le, hnat]
    exact hrange
  exact ⟨hdigit, by rw [digitValue, if_pos hdigit, hnat]⟩

theorem all_isdigit_decimal (n : Nat) : (decimal n).all isdigit = true := by
  rw [decimal, List.all_map, List.all_eq_true]
  exact fun c hc => (of_isDigit (Nat.isDigit_of_mem_toDigits (by decide) (by decide) hc)).1

/-- **A number is what its decimal digits say.** -/
theorem digitsValue_decimal (n : Nat) : digitsValue 10 (decimal n) = n := by
  have hfold (cs : List Char) (h : ∀ c ∈ cs, c.isDigit = true) (acc : Nat) :
      (cs.map fun c => c.toNat.toUInt8).foldl (fun acc c => acc * 10 + digitValue c) acc =
        Nat.ofDigitChars 10 cs acc := by
    induction cs generalizing acc with
    | nil => rfl
    | cons c cs ih =>
        rw [List.map_cons, List.foldl_cons, ih (fun d hd => h d (by simp [hd])),
          Nat.ofDigitChars_cons, (of_isDigit (h c (by simp))).2, Nat.mul_comm]
        rfl
  rw [digitsValue, decimal, hfold _ fun c hc => Nat.isDigit_of_mem_toDigits (by decide) (by decide) hc]
  exact Nat.ofDigitChars_ten_toDigits

end Libc
