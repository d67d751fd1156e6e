import Mathlib.Data.List.Infix

/-!
# Search

First-occurrence search in lists, and the line structure of CRLF-delimited
text: where the first line break stands, where the first blank line stands,
and what a cut prefix of such a text still shows.

Everything here is proved once so that the protocol proofs never redo list
arithmetic.  The section on `find` is generic in the element type; the rest
is about byte lists.
-/

namespace Search

/-! ## First occurrence of a needle -/

section Find

variable {α : Type*} [DecidableEq α]

/-- Index of the first occurrence of `n` in the list, `none` when there is none. -/
def find (n : List α) : List α → Option Nat
  | [] => if n.isPrefixOf [] then some 0 else none
  | x :: xs => if n.isPrefixOf (x :: xs) then some 0 else (find n xs).map (· + 1)

/-- A needle at the front is found at index 0. -/
theorem find_of_front {n h : List α} (hp : n <+: h) : find n h = some 0 := by
  cases h <;> simp only [find, List.isPrefixOf_iff_prefix.mpr hp, if_true]

/-- When the needle does not start here, the search moves on by one. -/
theorem find_cons_of_not_front {n xs : List α} {x : α} (hp : ¬ n <+: x :: xs) :
    find n (x :: xs) = (find n xs).map (· + 1) := by
  have hb : ¬ n.isPrefixOf (x :: xs) = true := by rwa [List.isPrefixOf_iff_prefix]
  simp only [find, hb, if_false, Bool.false_eq_true]

/-- The search fails exactly when the needle occurs nowhere. -/
theorem find_eq_none_iff {n h : List α} : find n h = none ↔ ¬ n <:+: h := by
  induction h with
  | nil => simp [find]
  | cons x xs ih =>
      rw [List.infix_cons_iff, not_or]
      by_cases hp : n <+: x :: xs
      · simp [find_of_front hp, hp]
      · simp [find_cons_of_not_front hp, hp, ih]

/-- What a found index means: the needle stands there and nowhere earlier. -/
theorem find_eq_some_iff {n h : List α} {i : Nat} :
    find n h = some i ↔ i ≤ h.length ∧ n <+: h.drop i ∧ ∀ j < i, ¬ n <+: h.drop j := by
  induction h generalizing i with
  | nil =>
      cases i with
      | zero => simp [find]
      | succ i => simp [find]
  | cons x xs ih =>
      by_cases hp : n <+: x :: xs
      · rw [find_of_front hp]
        cases i with
        | zero => simp [hp]
        | succ i =>
            refine ⟨fun h => by simp at h, fun h => absurd ?_ (h.2.2 0 (by omega))⟩
            simpa using hp
      · rw [find_cons_of_not_front hp]
        cases i with
        | zero => simp [hp]
        | succ i =>
            simp only [Option.map_eq_some_iff, Nat.add_right_cancel_iff, exists_eq_right, ih,
              List.length_cons, List.drop_succ_cons, Nat.add_le_add_iff_right]
            refine and_congr_right fun _ => and_congr_right fun _ => ⟨fun hj j hlt => ?_,
              fun hj j hlt => by simpa using hj (j + 1) (by omega)⟩
            cases j with
            | zero => simpa using hp
            | succ j => simpa using hj j (by omega)

example : find [2, 3] [1, 2, 3, 2, 3] = some 1 := find_eq_some_iff.mpr (by decide)

/-- A found needle fits inside the list. -/
theorem find_add_length_le {n h : List α} {i : Nat} (hf : find n h = some i) :
    i + n.length ≤ h.length := by
  obtain ⟨hi, hp, -⟩ := find_eq_some_iff.mp hf
  have := hp.length_le
  rw [List.length_drop] at this
  omega

/-- The list splits at the found needle. -/
theorem eq_append_of_find {n h : List α} {i : Nat} (hf : find n h = some i) :
    h = h.take i ++ n ++ h.drop (i + n.length) := by
  obtain ⟨-, ⟨t, ht⟩, -⟩ := find_eq_some_iff.mp hf
  have hd : h.drop (i + n.length) = t := by
    rw [← List.drop_drop, ← ht, List.drop_left]
  rw [hd, List.append_assoc, ht, List.take_append_drop]

/-- More input behind the found needle does not move it. -/
theorem find_append_of_some {n h : List α} {i : Nat} (hf : find n h = some i) (t : List α) :
    find n (h ++ t) = some i := by
  have hle := find_add_length_le hf
  obtain ⟨hi, hp, hfirst⟩ := find_eq_some_iff.mp hf
  refine find_eq_some_iff.mpr ⟨by rw [List.length_append]; omega, ?_, fun j hj hpj => hfirst j hj ?_⟩
  · rw [List.drop_append_of_le_length hi]
    exact hp.trans (List.prefix_append _ _)
  · rw [List.drop_append_of_le_length (by omega)] at hpj
    refine List.prefix_of_prefix_length_le hpj (List.prefix_append _ _) ?_
    rw [List.length_drop]
    omega

/-- A needle found in a prefix of the input is found in the input. -/
theorem find_some_of_prefix_some {n h h' : List α} {i : Nat} (hp : h <+: h') (hf : find n h = some i) :
    find n h' = some i := by
  obtain ⟨t, rfl⟩ := hp
  exact find_append_of_some hf t

/-- A needle absent from the input is absent from each of its prefixes. -/
theorem find_none_of_prefix {n h h' : List α} (hp : h <+: h') (hf : find n h' = none) :
    find n h = none :=
  find_eq_none_iff.mpr fun hi => find_eq_none_iff.mp hf (hi.trans hp.isInfix)

/-- The first occurrence is the first one of the text up to its end. -/
theorem find_take {n h : List α} {i k : Nat} (hf : find n h = some i) (hk : i + n.length ≤ k) :
    find n (h.take k) = some i := by
  obtain ⟨hle, hat, hbefore⟩ := find_eq_some_iff.mp hf
  have hlen := find_add_length_le hf
  refine find_eq_some_iff.mpr ⟨?_, ?_, fun j hj hp => hbefore j hj ?_⟩
  · rw [List.length_take]
    omega
  · rw [List.drop_take]
    exact (List.prefix_take_iff).mpr ⟨hat, by omega⟩
  · rw [List.drop_take] at hp
    exact hp.trans (List.take_prefix _ _)

/-- A single element is found behind the elements that differ from it. -/
theorem find_singleton {c : α} {a : List α} (h : ∀ x ∈ a, x ≠ c) (rest : List α) :
    find [c] (a ++ c :: rest) = some a.length := by
  induction a with
  | nil => exact find_of_front ⟨rest, rfl⟩
  | cons x a ih =>
      have hx : ¬ [c] <+: x :: (a ++ c :: rest) := by
        rintro ⟨r, hr⟩
        rw [List.singleton_append, List.cons.injEq] at hr
        exact h x List.mem_cons_self hr.1.symm
      have hrest := ih fun y hy => h y (List.mem_cons_of_mem x hy)
      rw [List.cons_append, find_cons_of_not_front hx, hrest]
      rfl

/-- Elements that all differ from it do not hold it. -/
theorem find_singleton_eq_none {c : α} {a : List α} (h : ∀ x ∈ a, x ≠ c) : find [c] a = none :=
  find_eq_none_iff.mpr fun hi => h c (hi.subset List.mem_cons_self) rfl

omit [DecidableEq α] in
/-- Elements that a list does not have do not help to hold it, in front -/
theorem infix_of_append_left {n a l : List α} (hn : n ≠ []) (h : ∀ x ∈ a, x ∉ n)
    (hi : n <:+: a ++ l) : n <:+: l := by
  induction a with
  | nil => exact hi
  | cons x a ih =>
      rw [List.cons_append, List.infix_cons_iff] at hi
      obtain ⟨r, hr⟩ | hi := hi
      · obtain ⟨y, n, rfl⟩ := List.exists_cons_of_ne_nil hn
        rw [List.cons_append, List.cons.injEq] at hr
        exact absurd List.mem_cons_self (hr.1 ▸ h x List.mem_cons_self)
      · exact ih (fun y hy => h y (List.mem_cons_of_mem x hy)) hi

omit [DecidableEq α] in
/-- or behind. -/
theorem infix_of_append_right {n a l : List α} (hn : n ≠ []) (h : ∀ x ∈ a, x ∉ n)
    (hi : n <:+: l ++ a) : n <:+: l := by
  rw [← List.reverse_infix, List.reverse_append] at hi
  rw [← List.reverse_infix]
  exact infix_of_append_left (by simpa using hn) (by simpa using h) hi

end Find

/-! ## Line breaks -/

/-- The line break. -/
def crlf : List UInt8 := [13, 10]

@[simp] theorem length_crlf : crlf.length = 2 := rfl

/-- A text without any line break inside. -/
def CrlfFree (l : List UInt8) : Prop := ¬ crlf <:+: l

instance (l : List UInt8) : Decidable (CrlfFree l) := inferInstanceAs (Decidable (¬ _))

theorem find_crlf_eq_none_iff {l : List UInt8} : find crlf l = none ↔ CrlfFree l :=
  find_eq_none_iff

theorem crlfFree_nil : CrlfFree [] := by decide

/-- Dropping a byte of a text keeps it free of line breaks. -/
theorem CrlfFree.tail {b : UInt8} {l : List UInt8} (h : CrlfFree (b :: l)) : CrlfFree l :=
  fun hi => h (List.infix_cons hi)

theorem CrlfFree.of_infix {l l' : List UInt8} (h : CrlfFree l') (hi : l <:+: l') : CrlfFree l :=
  fun hl => h (hl.trans hi)

/-- Bytes other than CR in front of a text keep it free of line breaks. -/
theorem crlfFree_append {a l : List UInt8} (ha : ∀ c ∈ a, c ≠ 13) (hl : CrlfFree l) :
    CrlfFree (a ++ l) := by
  induction a with
  | nil => exact hl
  | cons c a ih =>
      have hrest := ih fun x hx => ha x (List.mem_cons_of_mem c hx)
      have hc : c ≠ 13 := ha c List.mem_cons_self
      unfold CrlfFree at hrest ⊢
      rw [List.cons_append, List.infix_cons_iff, not_or]
      constructor
      · rintro ⟨r, hr⟩
        simp only [crlf, List.cons_append, List.cons.injEq] at hr
        exact hc hr.1.symm
      · exact hrest

/-- No line break starts at the front of a line or of what follows its first bytes. -/
theorem not_crlf_front_cons {b : UInt8} {l t : List UInt8} (h : CrlfFree (b :: l))
    (ht : t.head? ≠ some 10) : ¬ crlf <+: b :: (l ++ t) := by
  rintro ⟨r, hr⟩
  simp only [crlf, List.cons_append, List.nil_append, List.cons.injEq] at hr
  obtain ⟨rfl, hr⟩ := hr
  cases l with
  | nil => exact ht (by rw [← List.nil_append t, ← hr]; rfl)
  | cons c l =>
      simp only [List.cons_append, List.cons.injEq] at hr
      exact h ⟨[], l, by simp [crlf, hr.1]⟩

/-- A line alone, or a line with only the CR of its break, shows no line break. -/
theorem find_crlf_open {l : List UInt8} (h : CrlfFree l) : find crlf (l ++ [13]) = none := by
  induction l with
  | nil => decide
  | cons b l ih =>
      rw [List.cons_append, find_cons_of_not_front (not_crlf_front_cons h (by simp)), ih h.tail]
      rfl

/-- The first line break of a line and its break stands behind the line. -/
theorem find_crlf_line {l : List UInt8} (h : CrlfFree l) (rest : List UInt8) :
    find crlf (l ++ crlf ++ rest) = some l.length := by
  induction l with
  | nil => exact find_of_front (List.prefix_append _ _)
  | cons b l ih =>
      rw [List.append_assoc, List.cons_append,
        find_cons_of_not_front (not_crlf_front_cons h (by simp [crlf])), ← List.append_assoc,
        ih h.tail]
      rfl

/-- The bytes before the first line break hold none. -/
theorem crlfFree_take_of_find {b : List UInt8} {i : Nat} (hf : find crlf b = some i) :
    CrlfFree (b.take i) := by
  intro hi
  obtain ⟨-, -, hfirst⟩ := find_eq_some_iff.mp hf
  obtain ⟨j, hj⟩ := Option.ne_none_iff_exists'.mp fun hn => find_eq_none_iff.mp hn hi
  have hlt := find_add_length_le hj
  have hle := List.length_take_le i b
  rw [length_crlf] at hlt
  exact hfirst j (by omega)
    (find_eq_some_iff.mp (find_some_of_prefix_some (List.take_prefix i b) hj)).2.1

/-- A proper prefix of a line and its break shows no line break. -/
theorem find_crlf_of_prefix_line {l b : List UInt8} (h : CrlfFree l) (hb : b <+: l ++ crlf)
    (hlen : b.length < l.length + 2) : find crlf b = none := by
  refine find_none_of_prefix ?_ (find_crlf_open h)
  refine List.prefix_of_prefix_length_le hb ?_ (by simp; omega)
  exact ⟨[10], by simp [crlf]⟩

/-! ## Blank lines -/

/-- Two line breaks in a row: the end of a line and the blank line behind it. -/
def blankLine : List UInt8 := crlf ++ crlf

@[simp] theorem length_blankLine : blankLine.length = 4 := rfl

/-- A text without a line break at its front does not start with a blank line. -/
theorem not_blankLine_front {t : List UInt8} (h : ¬ crlf <+: t) : ¬ blankLine <+: t :=
  fun hb => h ((List.prefix_append crlf crlf).trans hb)

/-- A line followed by a blank line: the break of the line is where it stands. -/
theorem find_blankLine_line {l : List UInt8} (h : CrlfFree l) (rest : List UInt8) :
    find blankLine (l ++ blankLine ++ rest) = some l.length := by
  induction l with
  | nil => exact find_of_front (List.prefix_append _ _)
  | cons b l ih =>
      have hb : ¬ blankLine <+: b :: (l ++ blankLine ++ rest) := by
        rw [List.append_assoc]
        exact not_blankLine_front (not_crlf_front_cons h (by simp [blankLine, crlf]))
      rw [List.cons_append, List.cons_append, find_cons_of_not_front hb, ih h.tail]
      rfl

/-- A line followed by text that is not blank: the search goes on behind its break. -/
theorem find_blankLine_skip {l rest : List UInt8} (h : CrlfFree l) (hr : ¬ crlf <+: rest) :
    find blankLine (l ++ crlf ++ rest) = (find blankLine rest).map (· + (l.length + 2)) := by
  induction l with
  | nil =>
      have h0 : ¬ blankLine <+: 13 :: 10 :: rest := by
        rintro ⟨r, hr'⟩
        simp only [blankLine, crlf, List.cons_append, List.nil_append, List.cons.injEq,
          true_and] at hr'
        exact hr ⟨r, by simp [crlf, hr']⟩
      have h1 : ¬ blankLine <+: 10 :: rest := by
        rintro ⟨r, hr'⟩
        simp [blankLine, crlf] at hr'
      change find blankLine (13 :: 10 :: rest) = _
      rw [find_cons_of_not_front h0, find_cons_of_not_front h1, Option.map_map]
      rfl
  | cons b l ih =>
      have hb : ¬ blankLine <+: b :: (l ++ (crlf ++ rest)) :=
        not_blankLine_front (not_crlf_front_cons h (by simp [crlf]))
      rw [List.append_assoc, List.cons_append, find_cons_of_not_front hb, ← List.append_assoc,
        ih h.tail, Option.map_map]
      congr 1

/-- A list of lines, each with its break. -/
def joinLines (ls : List (List UInt8)) : List UInt8 := ls.flatMap (· ++ crlf)

@[simp] theorem joinLines_nil : joinLines [] = [] := rfl

@[simp] theorem joinLines_cons (l : List UInt8) (ls : List (List UInt8)) :
    joinLines (l :: ls) = l ++ crlf ++ joinLines ls := by
  simp [joinLines]

/-- Lines as they may stand in a block: not empty and without a break inside. -/
def BlockLine (l : List UInt8) : Prop := l ≠ [] ∧ CrlfFree l

instance (l : List UInt8) : Decidable (BlockLine l) := inferInstanceAs (Decidable (_ ∧ _))

/-- A block line is not taken for the blank line that ends the block. -/
theorem BlockLine.not_crlf_front {l : List UInt8} (h : BlockLine l) (rest : List UInt8) :
    ¬ crlf <+: l ++ crlf ++ rest := by
  obtain ⟨b, l, rfl⟩ := List.exists_cons_of_ne_nil h.1
  rw [List.append_assoc, List.cons_append]
  exact not_crlf_front_cons h.2 (by simp [crlf])

/-- **The first blank line of a block is the one that ends it**, whatever text follows. -/
theorem find_blankLine_block {l : List UInt8} {ls : List (List UInt8)} (h : CrlfFree l)
    (hls : ∀ m ∈ ls, BlockLine m) (rest : List UInt8) :
    find blankLine (l ++ crlf ++ joinLines ls ++ crlf ++ rest) =
      some (l.length + (joinLines ls).length) := by
  induction ls generalizing l with
  | nil => simpa [blankLine, List.append_assoc] using find_blankLine_line h rest
  | cons m ls ih =>
      have hm := hls m List.mem_cons_self
      have hskip := find_blankLine_skip h (hm.not_crlf_front (joinLines ls ++ crlf ++ rest))
      have hrest := ih hm.2 fun x hx => hls x (List.mem_cons_of_mem m hx)
      simp only [joinLines_cons, List.append_assoc] at hskip hrest ⊢
      rw [hskip, hrest]
      simp
      omega

/-- Until its last byte is there a block shows no blank line. -/
theorem find_blankLine_of_prefix_block {l b : List UInt8} {ls : List (List UInt8)}
    (h : CrlfFree l) (hls : ∀ m ∈ ls, BlockLine m)
    (hb : b <+: l ++ crlf ++ joinLines ls ++ crlf)
    (hlen : b.length < (l ++ crlf ++ joinLines ls ++ crlf).length) :
    find blankLine b = none := by
  by_contra hne
  obtain ⟨i, hi⟩ := Option.ne_none_iff_exists'.mp hne
  have hwhole := find_some_of_prefix_some hb hi
  have hblock := find_blankLine_block h hls []
  rw [List.append_nil] at hblock
  have hle := find_add_length_le hi
  rw [hblock, Option.some.injEq] at hwhole
  simp only [List.length_append, length_crlf, length_blankLine] at hlen hle
  omega

/-- The same for a section of lines that ends with a blank line of its own. -/
theorem find_blankLine_of_prefix_section {b : List UInt8} {ls : List (List UInt8)}
    (hls : ∀ m ∈ ls, BlockLine m) (hb : b <+: joinLines ls ++ crlf)
    (hlen : b.length < (joinLines ls ++ crlf).length) : find blankLine b = none := by
  cases ls with
  | nil =>
      by_contra hne
      obtain ⟨i, hi⟩ := Option.ne_none_iff_exists'.mp hne
      have hle := find_add_length_le hi
      simp only [joinLines_nil, List.nil_append, length_crlf, length_blankLine] at hlen hle
      omega
  | cons l ls =>
      exact find_blankLine_of_prefix_block (hls l List.mem_cons_self).2
        (fun m hm => hls m (List.mem_cons_of_mem l hm)) (by simpa using hb) (by simpa using hlen)

/-- Where a blank line stands, a line break stands at or before it. -/
theorem exists_find_crlf_of_find_blankLine {b : List UInt8} {i : Nat}
    (hf : find blankLine b = some i) : ∃ j ≤ i, find crlf b = some j := by
  obtain ⟨-, hp, -⟩ := find_eq_some_iff.mp hf
  have hcr : crlf <+: b.drop i := (List.prefix_append crlf crlf).trans hp
  obtain ⟨j, hj⟩ := Option.ne_none_iff_exists'.mp fun hn =>
    find_eq_none_iff.mp hn (hcr.isInfix.trans (List.drop_suffix i b).isInfix)
  refine ⟨j, ?_, hj⟩
  by_contra hlt
  exact (find_eq_some_iff.mp hj).2.2 i (by omega) hcr

/-! ## Splitting into lines -/

/-- The lines of a text, split at its line breaks; text behind the last break
is a line of its own when there is any. -/
def crlfLines : List UInt8 → List (List UInt8)
  | [] => []
  | 13 :: 10 :: rest => [] :: crlfLines rest
  | b :: rest =>
      match crlfLines rest with
      | [] => [[b]]
      | l :: ls => (b :: l) :: ls

theorem crlfLines_crlf_append (rest : List UInt8) :
    crlfLines (crlf ++ rest) = [] :: crlfLines rest := by
  simp [crlf, crlfLines]

theorem crlfLines_cons {b : UInt8} {rest : List UInt8} (h : ¬ crlf <+: b :: rest) :
    crlfLines (b :: rest) =
      match crlfLines rest with
      | [] => [[b]]
      | l :: ls => (b :: l) :: ls := by
  rw [crlfLines]
  rintro r rfl rfl
  exact h ⟨r, by simp [crlf]⟩

/-- A line with its break is the first line. -/
theorem crlfLines_line {l : List UInt8} (h : CrlfFree l) (rest : List UInt8) :
    crlfLines (l ++ crlf ++ rest) = l :: crlfLines rest := by
  induction l with
  | nil => exact crlfLines_crlf_append rest
  | cons b l ih =>
      have hb : ¬ crlf <+: b :: (l ++ (crlf ++ rest)) := not_crlf_front_cons h (by simp [crlf])
      rw [List.append_assoc, List.cons_append, crlfLines_cons hb, ← List.append_assoc, ih h.tail]

/-- A text without a break is one line. -/
theorem crlfLines_of_crlfFree {l : List UInt8} (h : CrlfFree l) (hne : l ≠ []) :
    crlfLines l = [l] := by
  induction l with
  | nil => exact absurd rfl hne
  | cons b l ih =>
      have hb : ¬ crlf <+: b :: l := fun hp => h hp.isInfix
      rw [crlfLines_cons hb]
      cases l with
      | nil => simp [crlfLines]
      | cons c l => rw [ih h.tail (by simp)]

/-- The split as a loop makes it: up to the first break, then on behind it. -/
theorem crlfLines_eq (s : List UInt8) :
    crlfLines s =
      match find crlf s with
      | some i => s.take i :: crlfLines (s.drop (i + 2))
      | none => if s = [] then [] else [s] := by
  split
  · next i hf =>
      conv => lhs; rw [eq_append_of_find hf]
      exact crlfLines_line (crlfFree_take_of_find hf) _
  · next hf =>
      split
      · next he => rw [he]; rfl
      · next hne => exact crlfLines_of_crlfFree (find_crlf_eq_none_iff.mp hf) hne

/-- A text up to one of its lines, and from there on. -/
theorem exists_eq_of_crlfLines {s : List UInt8} {pre post : List (List UInt8)} {l : List UInt8}
    (h : crlfLines s = pre ++ l :: post) :
    ∃ rest, s = joinLines pre ++ l ++ rest ∧ (∀ m ∈ pre, CrlfFree m) ∧ CrlfFree l := by
  induction pre generalizing s with
  | nil =>
      rw [crlfLines_eq] at h
      split at h
      · next i hf =>
          rw [List.nil_append, List.cons.injEq] at h
          refine ⟨s.drop i, ?_, by simp, h.1 ▸ crlfFree_take_of_find hf⟩
          rw [joinLines_nil, List.nil_append, ← h.1, List.take_append_drop]
      · next hf =>
          split at h
          · contradiction
          · rw [List.nil_append, List.cons.injEq] at h
            refine ⟨[], by simp [← h.1], by simp, ?_⟩
            rw [← h.1]
            exact find_crlf_eq_none_iff.mp hf
  | cons m pre ih =>
      rw [crlfLines_eq] at h
      split at h
      · next i hf =>
          rw [List.cons_append, List.cons.injEq] at h
          obtain ⟨rest, hrest, hpre, hl⟩ := ih h.2
          have hm : CrlfFree m := h.1 ▸ crlfFree_take_of_find hf
          refine ⟨rest, ?_, ?_, hl⟩
          · have hs := eq_append_of_find hf
            rw [length_crlf, h.1, hrest] at hs
            rw [joinLines_cons]
            simpa only [List.append_assoc] using hs
          · intro x hx
            rw [List.mem_cons] at hx
            obtain rfl | hx := hx
            · exact hm
            · exact hpre x hx
      · next hf =>
          split at h
          · simp at h
          · simp at h

/-- A line of the front of a text is the front of a line of the text, but for
the CR of a break that is cut. -/
theorem exists_line_of_front {a b l : List UInt8} (h : a <+: b) (hl : l ∈ crlfLines a) :
    ∃ m ∈ crlfLines b, l <+: m ++ [13] := by
  induction hn : a.length using Nat.strongRecOn generalizing a b with
  | ind n ih =>
      rw [crlfLines_eq] at hl
      split at hl
      · next i hf =>
          have hle := find_add_length_le hf
          have hlen := h.length_le
          rw [length_crlf] at hle
          have htake : b.take i = a.take i := by
            obtain ⟨t, rfl⟩ := h
            exact List.take_append_of_le_length (by omega)
          rw [crlfLines_eq b, find_some_of_prefix_some h hf]
          dsimp only
          rw [htake]
          rw [List.mem_cons] at hl
          obtain rfl | hl := hl
          · exact ⟨_, List.mem_cons_self, List.prefix_append _ _⟩
          · have hdrop : a.drop (i + 2) <+: b.drop (i + 2) := h.drop (i + 2)
            obtain ⟨m, hm, hlm⟩ := ih (a.drop (i + 2)).length (by
              rw [List.length_drop]
              omega) hdrop hl rfl
            exact ⟨m, List.mem_cons_of_mem _ hm, hlm⟩
      · next hf =>
          have hfree := find_crlf_eq_none_iff.mp hf
          split at hl
          · contradiction
          · next hne =>
              rw [List.mem_singleton] at hl
              subst hl
              rw [crlfLines_eq b]
              split
              · next i hfb =>
                  -- the break of the line is not whole in the front
                  have hlen : l.length ≤ i + 1 := by
                    by_contra hlt
                    have hcr := (find_eq_some_iff.mp hfb).2.1
                    obtain ⟨t, rfl⟩ := h
                    rw [List.drop_append_of_le_length (by omega)] at hcr
                    have hin : crlf <+: l.drop i := by
                      refine List.prefix_of_prefix_length_le hcr (List.prefix_append _ _) ?_
                      rw [length_crlf, List.length_drop]
                      omega
                    exact hfree (hin.isInfix.trans (List.drop_suffix i l).isInfix)
                  refine ⟨b.take i, List.mem_cons_self, ?_⟩
                  have hb : b.take i ++ [13] <+: b := by
                    have hs := eq_append_of_find hfb
                    refine ⟨10 :: b.drop (i + 2), ?_⟩
                    conv_rhs => rw [hs]
                    simp [crlf]
                  refine List.prefix_of_prefix_length_le h hb ?_
                  have hle := find_add_length_le hfb
                  rw [length_crlf] at hle
                  rw [List.length_append, List.length_take, List.length_singleton]
                  omega
              · have hbne : b ≠ [] := by
                  rintro rfl
                  exact hne (List.prefix_nil.mp h)
                rw [if_neg hbne]
                exact ⟨b, List.mem_singleton_self b, h.trans (List.prefix_append _ _)⟩

/-- The lines of a block without the break of its last line. -/
theorem crlfLines_joinLines {ls : List (List UInt8)} {l : List UInt8}
    (hls : ∀ m ∈ ls, CrlfFree m) (h : BlockLine l) :
    crlfLines (joinLines ls ++ l) = ls ++ [l] := by
  induction ls with
  | nil => exact crlfLines_of_crlfFree h.2 h.1
  | cons m ls ih =>
      rw [joinLines_cons, List.append_assoc, crlfLines_line (hls m List.mem_cons_self),
        ih fun x hx => hls x (List.mem_cons_of_mem m hx)]
      rfl

end Search
