import ChaosForger.Json.Values

/-!
# ChaosForger.Json.Lexical

What the parser accepts beyond JSON.  The structure of an accepted text is
that of RFC 8259; only its numbers and strings may differ, and whether they do
is seen in one pass over the bytes (`lexical`).  An accepted text is a JSON
text exactly when that pass succeeds (`parse_only_rfc`).
-/

namespace ChaosForger

open Libc JsonParser

/-! ## The grammar -/

/-- The number and string literals of RFC 8259, whatever they denote. -/
def rfcSyntax : Lexis where
  number t _ := ∃ token : NumberToken, token.Rfc ∧ t = token.text
  string t _ := ∃ items : List StringItem, (∀ item ∈ items, item.Rfc) ∧ t = quotedText items

/-- A JSON text. -/
def IsRfc (text : List UInt8) : Prop := ∃ n v, Derives rfcSyntax n (.padded v) text

/-! ## One pass over the bytes -/

/-- Where a byte stands: outside the literals with inner structure, in a
string, or in a number behind its sign, zero, first digits, point, fraction,
exponent marker, exponent sign or exponent. -/
inductive Mode where
  | outside | string | escape | sign | zero | int | point | frac | marker | expSign | exp
  deriving DecidableEq, Repr

namespace Mode

/-- A literal may start here, or a number has just ended. -/
def start (c : UInt8) : Option Mode :=
  if c = 34 then some .string
  else if c = 45 then some .sign
  else if c = 43 then none
  else if c = 48 then some .zero
  else if isdigit c then some .int
  else some .outside

def behindFrac (c : UInt8) : Option Mode := if c = 101 ∨ c = 69 then some .marker else start c

def behindInt (c : UInt8) : Option Mode := if c = 46 then some .point else behindFrac c

def next : Mode → UInt8 → Option Mode
  | .outside, c => start c
  | .string, c =>
      if c = 34 then some .outside
      else if c = 92 then some .escape
      else if c < 32 then none  -- a control character has to be escaped
      else some .string
  | .escape, _ => some .string
  | .sign, c => if c = 48 then some .zero else if isdigit c then some .int else none
  | .zero, c => if isdigit c then none else behindInt c
  | .int, c => if isdigit c then some .int else behindInt c
  | .point, c => if isdigit c then some .frac else none
  | .frac, c => if isdigit c then some .frac else behindFrac c
  | .marker, c =>
      if isdigit c then some .exp else if c = 43 ∨ c = 45 then some .expSign else none
  | .expSign, c => if isdigit c then some .exp else none
  | .exp, c => if isdigit c then some .exp else start c

/-- Nothing is left open. -/
def settled : Mode → Bool
  | .outside | .zero | .int | .frac | .exp => true
  | _ => false

/-- A number lacks a digit. -/
def pending : Mode → Bool
  | .sign | .point | .marker | .expSign => true
  | _ => false

def run (m : Option Mode) (t : List UInt8) : Option Mode :=
  t.foldl (fun m c => m.bind fun m => m.next c) m

end Mode

open Mode

/-- No string holds a raw control character, and every number has a digit
behind its point and in its exponent, no plus and no leading zero. -/
def lexical (text : List UInt8) : Bool := (run (some .outside) text).any settled

namespace Mode

@[simp] theorem run_nil (m : Option Mode) : run m [] = m := rfl

@[simp] theorem run_cons (m : Mode) (c : UInt8) (t : List UInt8) :
    run (some m) (c :: t) = run (m.next c) t := rfl

@[simp] theorem run_none (t : List UInt8) : run none t = none := by
  induction t with
  | nil => rfl
  | cons c t ih => exact ih

theorem run_append (m : Option Mode) (s t : List UInt8) : run m (s ++ t) = run (run m s) t :=
  List.foldl_append

/-- A mode that the bytes of a kind do not leave. -/
theorem run_stay {m : Mode} {kind : UInt8 → Bool} (hstay : ∀ c, kind c = true → m.next c = some m)
    {t : List UInt8} (h : t.all kind = true) : run (some m) t = some m := by
  induction t with
  | nil => rfl
  | cons c t ih =>
      rw [List.all_cons, Bool.and_eq_true] at h
      rw [run_cons, hstay c h.1, ih h.2]

theorem run_ws {w : List UInt8} (h : Ws w) : run (some .outside) w = some .outside :=
  run_stay (forall_byte (by decide +kernel)) h

/-! ## Strings -/

theorem next_hex {c : UInt8} : isxdigit c = true → next .string c = some .string :=
  forall_byte (P := fun c => isxdigit c = true → next .string c = some .string) (by decide +kernel) c

theorem run_item (item : StringItem) :
    item.Rfc ∧ run (some .string) item.text = some .string ∨
      ¬ item.Rfc ∧ run (some .string) item.text = none := by
  cases item with
  | plain c h =>
      simp only [StringItem.Rfc, StringItem.text, run_cons, run_nil, next, h.1, h.2, if_false]
      by_cases hlt : c < 32
      · exact .inr ⟨UInt8.not_le.mpr hlt, if_pos hlt⟩
      · exact .inl ⟨UInt8.not_lt.mp hlt, if_neg hlt⟩
  | escape c h => exact .inl ⟨trivial, rfl⟩
  | unicode d =>
      have hdigits : run (some .string) d.digits = some .string :=
        run_stay (fun _ => next_hex) d.digits_all
      exact .inl ⟨trivial, hdigits⟩

theorem run_items (items : List StringItem) :
    (∀ item ∈ items, item.Rfc) ∧ run (some .string) (itemsText items) = some .string ∨
      (¬ ∀ item ∈ items, item.Rfc) ∧ run (some .string) (itemsText items) = none := by
  induction items with
  | nil => exact .inl ⟨by simp, rfl⟩
  | cons item items ih =>
      rw [itemsText, List.flatMap_cons, ← itemsText, run_append, List.forall_mem_cons]
      rcases run_item item with ⟨hitem, hrun⟩ | ⟨hitem, hrun⟩
      · rw [hrun]
        simpa [hitem] using ih
      · rw [hrun, run_none]
        exact .inr ⟨fun h => hitem h.1, rfl⟩

theorem run_quotedText (items : List StringItem) :
    (∀ item ∈ items, item.Rfc) ∧ run (some .outside) (quotedText items) = some .outside ∨
      (¬ ∀ item ∈ items, item.Rfc) ∧ run (some .outside) (quotedText items) = none := by
  have hopen : run (some .outside) (quotedText items) = run (run (some .string) (itemsText items)) [34] := by
    rw [← run_append]
    rfl
  rw [hopen]
  rcases run_items items with ⟨hitems, hrun⟩ | ⟨hitems, hrun⟩
  · exact .inl ⟨hitems, by rw [hrun]; rfl⟩
  · exact .inr ⟨hitems, by rw [hrun]; rfl⟩

/-! ## Numbers -/

theorem run_digits {m : Mode} (hm : m = .int ∨ m = .frac ∨ m = .exp) {ds : List UInt8}
    (h : ds.all isdigit = true) : run (some m) ds = some m := by
  refine run_stay (fun c hc => ?_) h
  rcases hm with rfl | rfl | rfl <;> exact if_pos hc

theorem start_digit {c : UInt8} :
    isdigit c = true → start c = some (if c = 48 then .zero else .int) :=
  forall_byte (P := fun c => isdigit c = true → start c = some (if c = 48 then .zero else .int))
    (by decide +kernel) c

theorem next_sign_digit {c : UInt8} (h : isdigit c = true) :
    next .sign c = some (if c = 48 then .zero else .int) := by
  simp only [next, h, if_true]
  split_ifs <;> rfl

/-- The digits in front of the point. -/
theorem run_int {m : Mode} (hm : m = .outside ∨ m = .sign) {ds : List UInt8} (hne : ds ≠ [])
    (hds : ds.all isdigit = true) :
    (ds = [48] ∨ ds.head? ≠ some 48) ∧
        (∃ m', run (some m) ds = some m' ∧ (m' = .zero ∨ m' = .int)) ∨
      ¬ (ds = [48] ∨ ds.head? ≠ some 48) ∧ run (some m) ds = none := by
  obtain ⟨d, ds, rfl⟩ := List.exists_cons_of_ne_nil hne
  rw [List.all_cons, Bool.and_eq_true] at hds
  have hfirst : m.next d = some (if d = 48 then .zero else .int) := by
    rcases hm with rfl | rfl
    · exact start_digit hds.1
    · exact next_sign_digit hds.1
  rw [run_cons, hfirst]
  by_cases hzero : d = 48
  · subst hzero
    cases ds with
    | nil => exact .inl ⟨.inl rfl, .zero, rfl, .inl rfl⟩
    | cons e es =>
        rw [List.all_cons, Bool.and_eq_true] at hds
        have hsecond : next .zero e = none := if_pos hds.2.1
        exact .inr ⟨by simp, by rw [if_pos rfl, run_cons, hsecond, run_none]⟩
  · rw [if_neg hzero, run_digits (.inl rfl) hds.2]
    exact .inl ⟨.inr (by simpa using hzero), .int, rfl, .inr rfl⟩

/-- The number up to its point. -/
theorem run_signed (token : NumberToken) :
    (token.sign ≠ [43] ∧ (token.int = [48] ∨ token.int.head? ≠ some 48)) ∧
        (∃ m, run (some .outside) (token.sign ++ token.int) = some m ∧ (m = .zero ∨ m = .int)) ∨
      ¬ (token.sign ≠ [43] ∧ (token.int = [48] ∨ token.int.head? ≠ some 48)) ∧
        run (some .outside) (token.sign ++ token.int) = none := by
  rcases token.sign_eq with h | h | h
  · rw [h, List.nil_append]
    simpa using run_int (.inl rfl) token.int_ne token.int_all
  · rw [h]
    exact .inr ⟨by simp, run_none _⟩
  · have hminus : next .outside 45 = some .sign := rfl
    rw [h, List.singleton_append, run_cons, hminus]
    simpa using run_int (.inr rfl) token.int_ne token.int_all

theorem next_point {m : Mode} (hm : m = .zero ∨ m = .int) : m.next 46 = some .point := by
  rcases hm with rfl | rfl <;> rfl

theorem run_fracText (token : NumberToken) {m : Mode} (hm : m = .zero ∨ m = .int) :
    token.frac ≠ some [] ∧
        (∃ m', run (some m) token.fracText = some m' ∧ (m' = .zero ∨ m' = .int ∨ m' = .frac)) ∨
      token.frac = some [] ∧ run (some m) token.fracText = some .point := by
  unfold NumberToken.fracText
  rcases hfrac : token.frac with _ | _ | ⟨d, ds⟩
  · exact .inl ⟨by simp, m, rfl, by tauto⟩
  · exact .inr ⟨rfl, next_point hm⟩
  · have hall := token.frac_all _ hfrac
    rw [List.all_cons, Bool.and_eq_true] at hall
    have hfirst : next .point d = some .frac := if_pos hall.1
    refine .inl ⟨by simp, .frac, ?_, .inr (.inr rfl)⟩
    rw [Option.map_some, Option.getD_some, run_cons, next_point hm, run_cons, hfirst,
      run_digits (.inr (.inl rfl)) hall.2]

theorem next_marker {m : Mode} (hm : m = .zero ∨ m = .int ∨ m = .frac) (e : ExponentToken) :
    m.next e.marker = some .marker := by
  rcases hm with rfl | rfl | rfl <;> rcases e.marker_eq with h | h <;> rw [h] <;> rfl

/-- An exponent behind its marker. -/
theorem run_exponent (e : ExponentToken) :
    e.digits ≠ [] ∧ run (some .marker) (e.sign ++ e.digits) = some .exp ∨
      e.digits = [] ∧ ∃ m, run (some .marker) (e.sign ++ e.digits) = some m ∧ m.pending = true := by
  have hsign : ∃ m, run (some .marker) e.sign = some m ∧ (m = .marker ∨ m = .expSign) := by
    rcases e.sign_eq with h | h | h <;> rw [h]
    · exact ⟨.marker, rfl, .inl rfl⟩
    · exact ⟨.expSign, rfl, .inr rfl⟩
    · exact ⟨.expSign, rfl, .inr rfl⟩
  obtain ⟨m, hrun, hm⟩ := hsign
  have hall := e.digits_all
  rw [run_append, hrun]
  rcases hdigits : e.digits with _ | ⟨d, ds⟩
  · exact .inr ⟨rfl, m, rfl, by rcases hm with rfl | rfl <;> rfl⟩
  · rw [hdigits, List.all_cons, Bool.and_eq_true] at hall
    have hfirst : m.next d = some .exp := by rcases hm with rfl | rfl <;> exact if_pos hall.1
    exact .inl ⟨by simp, by rw [run_cons, hfirst, run_digits (.inr (.inr rfl)) hall.2]⟩

theorem run_expText (token : NumberToken) {m : Mode} (hm : m = .zero ∨ m = .int ∨ m = .frac) :
    (∀ e ∈ token.exp, e.digits ≠ []) ∧
        (∃ m', run (some m) token.expText = some m' ∧ m'.settled = true) ∨
      (¬ ∀ e ∈ token.exp, e.digits ≠ []) ∧
        ∃ m', run (some m) token.expText = some m' ∧ m'.pending = true := by
  unfold NumberToken.expText
  rcases token.exp with _ | e
  · exact .inl ⟨by simp, m, rfl, by rcases hm with rfl | rfl | rfl <;> rfl⟩
  · rw [Option.map_some, Option.getD_some, ExponentToken.text, run_cons, next_marker hm]
    rcases run_exponent e with ⟨hdigits, hrun⟩ | ⟨hdigits, hrun⟩
    · exact .inl ⟨by simpa using hdigits, .exp, hrun, rfl⟩
    · exact .inr ⟨by simpa using hdigits, hrun⟩

/-- A point without digits behind it stays without them. -/
theorem run_expText_point (token : NumberToken) :
    run (some .point) token.expText = some .point ∨ run (some .point) token.expText = none := by
  unfold NumberToken.expText
  rcases token.exp with _ | e
  · exact .inl rfl
  · right
    rw [Option.map_some, Option.getD_some, ExponentToken.text, run_cons]
    rcases e.marker_eq with h | h <;> rw [h] <;> exact run_none _

end Mode

/-- The pass over the text leaves nothing open. -/
def Neat (t : List UInt8) : Prop := ∃ m, run (some .outside) t = some m ∧ m.settled = true

/-- The pass over the text stops, or leaves a number without a digit. -/
def Torn (t : List UInt8) : Prop := ∀ m, run (some .outside) t = some m → m.pending = true

theorem neat_or_torn_number (token : NumberToken) :
    token.Rfc ∧ Neat token.text ∨ ¬ token.Rfc ∧ Torn token.text := by
  have hrun : run (some .outside) token.text =
      run (run (run (some .outside) (token.sign ++ token.int)) token.fracText) token.expText := by
    rw [← run_append, ← run_append, NumberToken.text, List.append_assoc]
  unfold Neat Torn NumberToken.Rfc
  rw [hrun]
  rcases run_signed token with ⟨hint, m, hm, hkind⟩ | ⟨hint, hm⟩
  · rw [hm]
    rcases run_fracText token hkind with ⟨hfrac, m', hm', hkind'⟩ | ⟨hfrac, hm'⟩
    · rw [hm']
      rcases run_expText token hkind' with ⟨hexp, hrun⟩ | ⟨hexp, m'', hm'', hpending⟩
      · exact .inl ⟨⟨hint.1, hint.2, hfrac, hexp⟩, hrun⟩
      · refine .inr ⟨fun h => hexp h.2.2.2, ?_⟩
        rw [hm'']
        rintro _ ⟨⟩
        exact hpending
    · rw [hm']
      refine .inr ⟨fun h => h.2.2.1 hfrac, ?_⟩
      rcases run_expText_point token with h | h <;> rw [h]
      · rintro _ ⟨⟩
        rfl
      · simp
  · rw [hm, run_none, run_none]
    exact .inr ⟨fun h => hint ⟨h.1, h.2.1⟩, by simp⟩

theorem neat_or_torn_string (items : List StringItem) :
    (∀ item ∈ items, item.Rfc) ∧ Neat (quotedText items) ∨
      (¬ ∀ item ∈ items, item.Rfc) ∧ Torn (quotedText items) := by
  rcases run_quotedText items with ⟨hitems, hrun⟩ | ⟨hitems, hrun⟩
  · exact .inl ⟨hitems, .outside, hrun, rfl⟩
  · exact .inr ⟨hitems, fun m hm => by simp [hrun] at hm⟩

/-! ## Between the tokens -/

/-- The bytes between the literals. -/
def isStructural (c : UInt8) : Bool := isWs c || c ∈ lit "[]\x7b\x7d:,"

theorem start_structural {c : UInt8} : isStructural c = true →
    isdigit c = false ∧ c ≠ 43 ∧ c ≠ 45 ∧ c ≠ 46 ∧ c ≠ 69 ∧ c ≠ 101 ∧ start c = some .outside :=
  forall_byte (P := fun c => isStructural c = true →
    isdigit c = false ∧ c ≠ 43 ∧ c ≠ 45 ∧ c ≠ 46 ∧ c ≠ 69 ∧ c ≠ 101 ∧ start c = some .outside)
    (by decide +kernel) c

section Between

variable {c : UInt8} {m : Mode} {t r : List UInt8}

theorem next_settled (hc : isStructural c = true) (hm : m.settled = true) :
    m.next c = some .outside := by
  obtain ⟨hdigit, h43, h45, h46, h69, h101, hstart⟩ := start_structural hc
  cases m <;> simp_all [next, settled, behindInt, behindFrac]

theorem next_pending (hc : isStructural c = true) (hm : m.pending = true) : m.next c = none := by
  obtain ⟨hdigit, h43, h45, h46, h69, h101, hstart⟩ := start_structural hc
  have h48 : c ≠ 48 := by
    rintro rfl
    exact absurd hdigit (by decide)
  cases m <;> simp_all [next, pending]

theorem Neat.nil : Neat [] := ⟨.outside, rfl, rfl⟩

/-- A structural byte ends whatever stands in front of it. -/
theorem Neat.run_between (ht : Neat t) (hc : isStructural c = true) :
    run (some .outside) (t ++ c :: r) = run (some .outside) r := by
  obtain ⟨m, hrun, hm⟩ := ht
  rw [run_append, hrun, run_cons, next_settled hc hm]

theorem Neat.between (ht : Neat t) (hc : isStructural c = true) (hr : Neat r) :
    Neat (t ++ c :: r) := by
  rwa [Neat, ht.run_between hc]

theorem Torn.left (ht : Torn t) (hc : isStructural c = true) : Torn (t ++ c :: r) := by
  have hnone : run (some .outside) (t ++ c :: r) = none := by
    rw [run_append]
    rcases hrun : run (some .outside) t with _ | m
    · exact run_none _
    · rw [run_cons, next_pending hc (ht m hrun), run_none]
  intro m hm
  simp [hnone] at hm

theorem Torn.right (hr : Torn r) (ht : Neat t) (hc : isStructural c = true) :
    Torn (t ++ c :: r) := by
  rwa [Torn, ht.run_between hc]

/-- White space behind a text is one more structural byte, with nothing or
more white space behind it. -/
theorem Neat.padded {w w' : List UInt8} (ht : Neat t) (hw : Ws w) (hw' : Ws w') :
    Neat (w ++ (t ++ w')) := by
  rw [Neat, run_append, run_ws hw]
  cases w' with
  | nil => rwa [List.append_nil]
  | cons c w' =>
      have hall := (Bool.and_eq_true _ _).mp hw'
      exact ht.between (by simp [isStructural, hall.1]) ⟨.outside, run_ws hall.2, rfl⟩

theorem Torn.padded {w w' : List UInt8} (ht : Torn t) (hw : Ws w) (hw' : Ws w') :
    Torn (w ++ (t ++ w')) := by
  rw [Torn, run_append, run_ws hw]
  cases w' with
  | nil => rwa [List.append_nil]
  | cons c w' =>
      have hall := (Bool.and_eq_true _ _).mp hw'
      exact ht.left (by simp [isStructural, hall.1])

/-- A container around its content. -/
theorem Neat.bracketed {o : UInt8} (ht : Neat t) (ho : isStructural o = true)
    (hc : isStructural c = true) : Neat (o :: (t ++ [c])) :=
  Neat.nil.between ho (ht.between hc .nil)

theorem Torn.bracketed {o : UInt8} (ht : Torn t) (ho : isStructural o = true)
    (hc : isStructural c = true) : Torn (o :: (t ++ [c])) :=
  (ht.left hc).right .nil ho

end Between

/-! ## Texts -/

/-- **A JSON text passes.** -/
theorem neat_of_rfc {n : Nat} {phrase : Phrase} {t : List UInt8}
    (h : Derives rfcSyntax n phrase t) : Neat t := by
  induction h with
  | null | true | false => exact ⟨.outside, by decide, rfl⟩
  | number h =>
      obtain ⟨token, htoken, rfl⟩ := h
      exact (neat_or_torn_number token).elim And.right fun h => absurd htoken h.1
  | string h =>
      obtain ⟨items, hitems, rfl⟩ := h
      exact (neat_or_torn_string items).elim And.right fun h => absurd hitems h.1
  | emptyArray hw | emptyObject hw =>
      exact Neat.bracketed ⟨.outside, run_ws hw, rfl⟩ (by decide) (by decide)
  | array _ ih | object _ ih => exact ih.bracketed (by decide) (by decide)
  | padded hw _ hw' ih => exact ih.padded hw hw'
  | lastElement _ ih | lastMember _ ih => exact ih
  | element _ _ ih ih' | nextMember _ _ ih ih' => exact ih.between (by decide) ih'
  | @member n v w k key w' t hw hk hw' _ ih =>
      obtain ⟨items, hitems, rfl⟩ := hk
      have hkey : Neat (quotedText items) :=
        (neat_or_torn_string items).elim And.right fun h => absurd hitems h.1
      simpa using (hkey.padded hw hw').between (c := 58) (by decide) ih

/-- **A text of the parser's grammar that passes is a JSON text.**  Any other
one is torn, by the first token of its own that the RFC does not have. -/
theorem rfc_or_torn {toDouble : ℚ → Option ℚ} {n : Nat} {phrase : Phrase} {t : List UInt8}
    (h : Derives (scanned toDouble) n phrase t) :
    Derives rfcSyntax n phrase t ∨ Torn t := by
  induction h with
  | null => exact .inl .null
  | true => exact .inl .true
  | false => exact .inl .false
  | number h =>
      obtain ⟨token, rfl, -⟩ := h
      exact (neat_or_torn_number token).imp (fun h => .number ⟨token, h.1, rfl⟩) And.right
  | string h =>
      obtain ⟨items, rfl, -⟩ := h
      exact (neat_or_torn_string items).imp (fun h => .string ⟨items, h.1, rfl⟩) And.right
  | emptyArray hw => exact .inl (.emptyArray hw)
  | array _ ih => exact ih.imp .array fun h => h.bracketed (by decide) (by decide)
  | emptyObject hw => exact .inl (.emptyObject hw)
  | object _ ih => exact ih.imp .object fun h => h.bracketed (by decide) (by decide)
  | padded hw _ hw' ih => exact ih.imp (.padded hw · hw') fun h => h.padded hw hw'
  | lastElement _ ih => exact ih.imp_left .lastElement
  | element _ _ ih ih' =>
      rcases ih with h | h
      · exact ih'.imp (.element h) fun h' => h'.right (neat_of_rfc h) (by decide)
      · exact .inr (h.left (by decide))
  | @member n v w k key w' t hw hk hw' _ ih =>
      obtain ⟨items, rfl, -⟩ := hk
      have hassoc : w ++ (quotedText items ++ (w' ++ 58 :: t)) =
          (w ++ (quotedText items ++ w')) ++ 58 :: t := by simp
      rcases neat_or_torn_string items with ⟨hitems, hneat⟩ | ⟨-, htorn⟩
      · refine ih.imp (.member hw ⟨items, hitems, rfl⟩ hw') fun h => ?_
        rw [hassoc]
        exact h.right (hneat.padded hw hw') (by decide)
      · rw [hassoc]
        exact .inr ((htorn.padded hw hw').left (by decide))
  | lastMember _ ih => exact ih.imp_left .lastMember
  | nextMember _ _ ih ih' =>
      rcases ih with h | h
      · exact ih'.imp (.nextMember h) fun h' => h'.right (neat_of_rfc h) (by decide)
      · exact .inr (h.left (by decide))

theorem lexical_iff (t : List UInt8) : lexical t = true ↔ Neat t := by
  rw [lexical, Option.any_eq_true]
  rfl

theorem not_torn_of_neat {t : List UInt8} (h : Neat t) : ¬ Torn t := by
  obtain ⟨m, hrun, hm⟩ := h
  intro htorn
  have := htorn m hrun
  cases m <;> simp_all [settled, pending]

/-- **Among the texts of the parser's grammar, those that pass are the JSON
texts.** -/
theorem lexical_iff_isRfc {toDouble : ℚ → Option ℚ} {text : List UInt8} {v : Json}
    (h : Derives (scanned toDouble) maxDepth (.padded v) text) :
    lexical text = true ↔ IsRfc text := by
  rw [lexical_iff]
  constructor
  · intro hneat
    exact ⟨maxDepth, v, (rfc_or_torn h).resolve_right (not_torn_of_neat hneat)⟩
  · rintro ⟨n, v, h⟩
    exact neat_of_rfc h

/-- **When only JSON is accepted.**  The parser's grammar is the RFC's up to
the tokens. -/
theorem parse_only_rfc (toDouble : ℚ → Option ℚ) (text : List UInt8) :
    (∀ err err' v, parse toDouble text err = .ok (err', some v) → IsRfc text) ↔
      ∀ v, Derives (scanned toDouble) maxDepth (.padded v) text → lexical text = true := by
  constructor
  · intro h v hv
    exact (lexical_iff_isRfc hv).mpr (h [] [] v (parse_iff.mpr hv))
  · intro h err err' v hparse
    obtain ⟨_, _, hparse', hspec⟩ := parse_spec toDouble text err
    rw [hparse, Except.ok.injEq, Prod.mk.injEq] at hparse'
    have hv := (hspec v hparse'.2.symm).2
    exact (lexical_iff_isRfc hv).mp (h v hv)

/-- An exponent marker without a digit is read over. -/
theorem parse_marker_accepted :
    parse some (lit "1e") [] = .ok ([], some (.number 1)) ∧ ¬ IsRfc (lit "1e") := by
  constructor
  · have hnumber : (scanned some).number (lit "1e") 1 :=
      ⟨⟨[], .inl rfl, [49], by decide, by decide, none, by simp,
        some ⟨101, .inl rfl, [], .inl rfl, [], rfl⟩⟩, by decide +kernel, by decide +kernel⟩
    have htext : Derives (scanned some) maxDepth (.padded (.number 1)) ([] ++ (lit "1e" ++ [])) :=
      .padded rfl (.number hnumber) rfl
    exact parse_iff.mpr htext
  · rintro ⟨n, v, h⟩
    exact absurd ((lexical_iff _).mpr (neat_of_rfc h)) (by decide +kernel)

end ChaosForger
