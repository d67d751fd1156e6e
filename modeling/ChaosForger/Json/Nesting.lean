import ChaosForger.Json.Checked

/-!
# ChaosForger.Json.Nesting

How deep the containers of a value and the brackets of a text are nested, and
that the parser accepts neither beyond its depth.

A value may be nested less than its text, for a later member replaces one with
the same key.
-/

namespace ChaosForger

open Libc

/-! ## Values -/

namespace Json

mutual

/-- The most containers inside each other. -/
def nesting : Json → Nat
  | .array elements => nestingElements elements + 1
  | .object members => nestingMembers members + 1
  | _ => 0

def nestingElements : List Json → Nat
  | [] => 0
  | v :: vs => max v.nesting (nestingElements vs)

def nestingMembers : List (List UInt8 × Json) → Nat
  | [] => 0
  | (_, v) :: kvs => max v.nesting (nestingMembers kvs)

end

theorem nestingMembers_insert (key : List UInt8) (v : Json) (obj : JsonObject) :
    nestingMembers (JsonObject.insert key v obj) ≤ max v.nesting (nestingMembers obj) := by
  induction obj with
  | nil => simp [JsonObject.insert, nestingMembers]
  | cons kv obj ih =>
      simp only [JsonObject.insert]
      split
      · simp only [nestingMembers]
        omega
      · split <;> simp only [nestingMembers] <;> omega

theorem nestingMembers_ofMembers (kvs : List (List UInt8 × Json)) :
    nestingMembers (JsonObject.ofMembers kvs) ≤ nestingMembers kvs := by
  have hfold (obj : JsonObject) :
      nestingMembers (kvs.foldl (fun obj kv => JsonObject.insert kv.1 kv.2 obj) obj) ≤
        max (nestingMembers obj) (nestingMembers kvs) := by
    induction kvs generalizing obj with
    | nil => simp
    | cons kv kvs ih =>
        have hinsert := nestingMembers_insert kv.1 kv.2 obj
        have hrest := ih (JsonObject.insert kv.1 kv.2 obj)
        simp only [List.foldl_cons, nestingMembers]
        omega
  simpa [JsonObject.ofMembers, nestingMembers] using hfold []

end Json

open Json

/-- The nesting of what a phrase denotes. -/
def Phrase.nesting : Phrase → Nat
  | .value v | .padded v | .member _ v => v.nesting
  | .elements vs => nestingElements vs
  | .members kvs => nestingMembers kvs

theorem nesting_le {lex : Lexis} {n : Nat} {phrase : Phrase} {t : List UInt8}
    (h : Derives lex n phrase t) : phrase.nesting ≤ n + 1 := by
  induction h with
  | null | true | false | number | string => exact Nat.zero_le _
  | emptyArray | emptyObject => simp [Phrase.nesting, Json.nesting, nestingElements, nestingMembers]
  | array _ ih => exact Nat.succ_le_succ ih
  | @object n kvs t _ ih =>
      have hobj := nestingMembers_ofMembers kvs
      simp only [Phrase.nesting, Json.nesting] at ih ⊢
      omega
  | padded _ _ _ ih | member _ _ _ _ ih => exact ih
  | lastElement _ ih | lastMember _ ih =>
      simpa [Phrase.nesting, nestingElements, nestingMembers] using ih
  | element _ _ ih ih' | nextMember _ _ ih ih' => exact Nat.max_le.mpr ⟨ih, ih'⟩

/-! ## Texts -/

/-- Outside of strings, in a string, or behind a backslash in one. -/
inductive Zone where
  | outside | quoted | escaped
  deriving DecidableEq, Repr

/-- The brackets that are open, and the most that were at one time. -/
structure Depth where
  zone : Zone := .outside
  opened : Nat := 0
  deepest : Nat := 0
  deriving DecidableEq, Repr

def Depth.next (d : Depth) (c : UInt8) : Depth :=
  match d.zone with
  | .outside =>
      if c = 34 then { d with zone := .quoted }
      else if c = 91 ∨ c = 123 then
        { d with opened := d.opened + 1, deepest := max d.deepest (d.opened + 1) }
      else if c = 93 ∨ c = 125 then { d with opened := d.opened - 1 }
      else d
  | .quoted =>
      if c = 34 then { d with zone := .outside }
      else if c = 92 then { d with zone := .escaped }
      else d
  | .escaped => { d with zone := .quoted }

/-- The most brackets inside each other, those in strings apart. -/
def bracketDepth (text : List UInt8) : Nat := (text.foldl Depth.next {}).deepest

/-- The text opens at most `n` brackets inside each other, and closes all. -/
def Nests (n : Nat) (t : List UInt8) : Prop :=
  ∀ opened deepest, opened ≤ deepest → ∃ k ≤ n,
    t.foldl Depth.next { zone := .outside, opened, deepest } =
      { zone := .outside, opened, deepest := max deepest (opened + k) }

/-- Neither a bracket nor a quote. -/
def quiet (c : UInt8) : Bool := c != 34 && c != 91 && c != 93 && c != 123 && c != 125

theorem quiet_of_isdigit {c : UInt8} : isdigit c = true → quiet c = true :=
  forall_byte (P := fun c => isdigit c = true → quiet c = true) (by decide +kernel) c

theorem quiet_of_isWs {c : UInt8} : JsonParser.isWs c = true → quiet c = true :=
  forall_byte (P := fun c => JsonParser.isWs c = true → quiet c = true) (by decide +kernel) c

theorem ne_quote_of_isxdigit {c : UInt8} : isxdigit c = true → c ≠ 34 ∧ c ≠ 92 :=
  forall_byte (P := fun c => isxdigit c = true → c ≠ 34 ∧ c ≠ 92) (by decide +kernel) c

/-- Bytes that change nothing. -/
theorem foldl_stay {d : Depth} {t : List UInt8} (h : ∀ c ∈ t, d.next c = d) :
    t.foldl Depth.next d = d := by
  induction t with
  | nil => rfl
  | cons c t ih =>
      rw [List.forall_mem_cons] at h
      rw [List.foldl_cons, h.1, ih h.2]

section Nests

variable {n : Nat} {s t : List UInt8}

theorem Nests.append (hs : Nests n s) (ht : Nests n t) : Nests n (s ++ t) := by
  intro opened deepest h
  obtain ⟨k, hk, hfold⟩ := hs opened deepest h
  obtain ⟨l, hl, hfold'⟩ := ht opened (max deepest (opened + k)) (by omega)
  refine ⟨max k l, by omega, ?_⟩
  rw [List.foldl_append, hfold, hfold', Depth.mk.injEq]
  exact ⟨rfl, rfl, by omega⟩

theorem Nests.of_quiet (ht : t.all quiet = true) : Nests n t := by
  intro opened deepest h
  have hstay : ∀ c ∈ t, Depth.next { zone := .outside, opened, deepest } c =
      { zone := .outside, opened, deepest } := by
    intro c hc
    have hquiet := List.all_eq_true.mp ht c hc
    simp only [quiet, Bool.and_eq_true, bne_iff_ne, ne_eq] at hquiet
    simp [Depth.next, hquiet]
  exact ⟨0, Nat.zero_le n, by simp [foldl_stay hstay, h]⟩

theorem Nests.bracketed {o c : UInt8} (ho : o = 91 ∨ o = 123) (hc : c = 93 ∨ c = 125)
    (ht : Nests n t) : Nests (n + 1) (o :: (t ++ [c])) := by
  intro opened deepest h
  obtain ⟨k, hk, hfold⟩ := ht (opened + 1) (max deepest (opened + 1)) (by omega)
  have hopen : Depth.next { zone := .outside, opened, deepest } o =
      { zone := .outside, opened := opened + 1, deepest := max deepest (opened + 1) } := by
    rcases ho with rfl | rfl <;> rfl
  refine ⟨k + 1, by omega, ?_⟩
  rw [List.foldl_cons, hopen, List.foldl_append, hfold]
  rcases hc with rfl | rfl <;> simp [Depth.next] <;> omega

/-- Inside a string nothing counts. -/
theorem foldl_item (item : StringItem) (opened deepest : Nat) :
    item.text.foldl Depth.next { zone := .quoted, opened, deepest } =
      { zone := .quoted, opened, deepest } := by
  have hplain {c : UInt8} (hc : c ≠ 34 ∧ c ≠ 92) :
      Depth.next { zone := .quoted, opened, deepest } c = { zone := .quoted, opened, deepest } := by
    simp [Depth.next, hc]
  cases item with
  | plain c hc => exact hplain hc
  | escape c _ => rfl
  | unicode d =>
      have hdigits : d.digits.foldl Depth.next { zone := .quoted, opened, deepest } =
          { zone := .quoted, opened, deepest } :=
        foldl_stay fun c hc =>
          hplain (ne_quote_of_isxdigit (List.all_eq_true.mp d.digits_all c hc))
      exact hdigits

theorem foldl_items (items : List StringItem) (opened deepest : Nat) :
    (itemsText items).foldl Depth.next { zone := .quoted, opened, deepest } =
      { zone := .quoted, opened, deepest } := by
  induction items with
  | nil => rfl
  | cons item items ih =>
      rw [itemsText, List.flatMap_cons, ← itemsText, List.foldl_append, foldl_item, ih]

theorem Nests.of_quotedText (items : List StringItem) : Nests n (quotedText items) := by
  intro opened deepest h
  refine ⟨0, Nat.zero_le n, ?_⟩
  have hopen : Depth.next { zone := .outside, opened, deepest } 34 =
      { zone := .quoted, opened, deepest } := rfl
  rw [quotedText, List.foldl_cons, hopen, List.foldl_append, foldl_items]
  simp [Depth.next, h]

theorem Nests.of_ws {w : List UInt8} (h : Ws w) : Nests n w := by
  refine .of_quiet (List.all_eq_true.mpr fun c hc => ?_)
  exact quiet_of_isWs (List.all_eq_true.mp h c hc)

/-- Two parts with a comma or a colon between them. -/
theorem Nests.separated {c : UInt8} (hs : Nests n s) (hc : quiet c = true) (ht : Nests n t) :
    Nests n (s ++ c :: t) := by
  have hsep : Nests n [c] := .of_quiet (by simp [hc])
  exact hs.append (hsep.append ht)

theorem all_quiet_digits {ds : List UInt8} (h : ds.all isdigit = true) : ds.all quiet = true := by
  rw [List.all_eq_true] at h ⊢
  exact fun c hc => quiet_of_isdigit (h c hc)

theorem all_quiet_sign {sign : List UInt8} (h : sign = [] ∨ sign = [43] ∨ sign = [45]) :
    sign.all quiet = true := by
  rcases h with rfl | rfl | rfl <;> rfl

theorem all_quiet_exponent (e : ExponentToken) : e.text.all quiet = true := by
  have hmarker : quiet e.marker = true := by
    rcases e.marker_eq with h | h <;> rw [h] <;> rfl
  simp [ExponentToken.text, hmarker, all_quiet_sign e.sign_eq, all_quiet_digits e.digits_all]

theorem all_quiet_number (token : NumberToken) : token.text.all quiet = true := by
  have hfrac : token.fracText.all quiet = true := by
    unfold NumberToken.fracText
    cases hf : token.frac with
    | none => rfl
    | some ds =>
        have hds := all_quiet_digits (token.frac_all ds hf)
        simpa [quiet] using hds
  have hexp : token.expText.all quiet = true := by
    unfold NumberToken.expText
    cases token.exp with
    | none => rfl
    | some e => exact all_quiet_exponent e
  rw [NumberToken.text, List.all_append, List.all_append, List.all_append,
    all_quiet_sign token.sign_eq, all_quiet_digits token.int_all, hfrac, hexp]
  rfl

/-- A text nests at most one bracket more than the levels of its derivation. -/
theorem nests_of_derives {toDouble : ℚ → Option ℚ} {phrase : Phrase}
    (h : Derives (scanned toDouble) n phrase t) : Nests (n + 1) t := by
  induction h with
  | null | true | false => exact .of_quiet rfl
  | number h =>
      obtain ⟨token, rfl, -⟩ := h
      exact .of_quiet (all_quiet_number token)
  | string h =>
      obtain ⟨items, rfl, -⟩ := h
      exact .of_quotedText items
  | emptyArray hw => exact (Nests.of_ws hw).bracketed (.inl rfl) (.inl rfl)
  | emptyObject hw => exact (Nests.of_ws hw).bracketed (.inr rfl) (.inr rfl)
  | array _ ih => exact ih.bracketed (.inl rfl) (.inl rfl)
  | object _ ih => exact ih.bracketed (.inr rfl) (.inr rfl)
  | padded hw _ hw' ih => exact (Nests.of_ws hw).append (ih.append (.of_ws hw'))
  | lastElement _ ih | lastMember _ ih => exact ih
  | element _ _ ih ih' | nextMember _ _ ih ih' => exact ih.separated rfl ih'
  | member hw hk hw' _ ih =>
      obtain ⟨items, rfl, -⟩ := hk
      have hkey := (Nests.of_quotedText (n := _) items).append
        (Nests.separated (.of_ws hw') (c := 58) rfl ih)
      exact (Nests.of_ws hw).append hkey

theorem bracketDepth_le (h : Nests n t) : bracketDepth t ≤ n := by
  obtain ⟨k, hk, hfold⟩ := h 0 0 (Nat.le_refl 0)
  rw [bracketDepth, hfold]
  simpa using hk

end Nests

/-- **The parser ends on every text, with every check passed, and accepts no
value and no text nested more than 65 deep.** -/
theorem parse_capped (toDouble : ℚ → Option ℚ) (text err : List UInt8) :
    ∃ err' o, JsonParser.Checked.parse toDouble text err = .ok (err', o) ∧
      JsonParser.parse toDouble text err = .ok (err', o) ∧
      (∀ v, o = some v → v.nesting ≤ 65) ∧ (65 < bracketDepth text → o = none) := by
  obtain ⟨err', o, hparse, hspec⟩ := JsonParser.parse_spec toDouble text err
  refine ⟨err', o, by rw [JsonParser.Checked.parse_eq, hparse], hparse, fun v hv => ?_, fun hdeep => ?_⟩
  · exact nesting_le (hspec v hv).2
  · rw [Option.eq_none_iff_forall_ne_some]
    intro v hv
    have hle := bracketDepth_le (nests_of_derives (hspec v hv).2)
    exact absurd hdeep (Nat.not_lt.mpr hle)

/-! ## The cap is reached -/

/-- An array in so many others. -/
def nested : Nat → Json
  | 0 => .array []
  | n + 1 => .array [nested n]

def nestedText : Nat → List UInt8
  | 0 => lit "[]"
  | n + 1 => 91 :: (nestedText n ++ [93])

theorem nesting_nested (n : Nat) : (nested n).nesting = n + 1 := by
  induction n with
  | zero => rfl
  | succ n ih => simp [nested, Json.nesting, nestingElements, ih]

theorem derives_nested {lex : Lexis} {n m : Nat} (h : n ≤ m) :
    Derives lex m (.value (nested n)) (nestedText n) := by
  induction n generalizing m with
  | zero => exact .emptyArray (w := []) rfl
  | succ n ih =>
      obtain ⟨m, rfl⟩ : ∃ k, m = k + 1 := ⟨m - 1, by omega⟩
      have hvalue : Derives lex m (.value (nested n)) (nestedText n) := ih (by omega)
      have hpadded : Derives lex m (.padded (nested n)) (nestedText n) := by
        simpa using @Derives.padded lex m _ [] _ [] rfl hvalue rfl
      exact .array (.lastElement hpadded)

/-- Nested arrays are accepted as deep as the cap allows, and no deeper. -/
theorem parse_nested (toDouble : ℚ → Option ℚ) (err : List UInt8) (n : Nat) :
    JsonParser.parse toDouble (nestedText n) err = .ok (err, some (nested n)) ↔
      n ≤ JsonParser.maxDepth := by
  rw [JsonParser.parse_iff]
  constructor
  · intro h
    have hle : (nested n).nesting ≤ JsonParser.maxDepth + 1 := nesting_le h
    rw [nesting_nested] at hle
    exact Nat.le_of_succ_le_succ hle
  · intro h
    simpa using @Derives.padded _ JsonParser.maxDepth _ [] _ [] rfl (derives_nested h) rfl

end ChaosForger
