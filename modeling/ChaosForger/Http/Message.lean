import ChaosForger.Http.ChunkRuns

/-!
# ChaosForger.Http.Message

Well-formed responses, as their senders write them: `StatusLine`, the header
lines that frame a body (`ContentLengthLine`, `SelectsChunked`), and the
pieces of a chunked body (`SizeLine`, `Chunk`, `ChunkedBody`).  Each carries
its well-formedness, so that only valid ones can be built; `text` is what
goes over the wire, and the lemmas say what the parser's own functions read
off that text.
-/

namespace ChaosForger

open Search Libc

namespace HttpResponseParser

/-! ## The status line -/

/-- The byte of a decimal digit. -/
def digit (n : Nat) : UInt8 := 48 + n.toUInt8

theorem digit_spec : ∀ n < 10,
    isdigit (digit n) = true ∧ (digit n).toNat - 48 = n ∧ digit n ≠ 13 := by decide

structure StatusLine where
  /-- HTTP/1.1, else HTTP/1.0 -/
  minor : Bool
  status : Nat
  status_lt : status < 1000
  /-- the reason phrase; without one the line may end behind the code -/
  reason : Option (List UInt8)
  reason_free : ∀ r, reason = some r → CrlfFree r

namespace StatusLine

def version (l : StatusLine) : List UInt8 := if l.minor then lit "1.1 " else lit "1.0 "

def code (l : StatusLine) : List UInt8 :=
  [digit (l.status / 100), digit (l.status / 10 % 10), digit (l.status % 10)]

def reasonText (l : StatusLine) : List UInt8 := l.reason.getD []

def text (l : StatusLine) : List UInt8 :=
  lit "HTTP/" ++ l.version ++ l.code ++ (l.reason.map fun r => 32 :: r).getD []

/-- The parser reads the status and the reason off the line. -/
theorem statusOf_text (l : StatusLine) : statusOf l.text = some (l.status, l.reasonText) := by
  obtain ⟨minor, status, hlt, reason, hfree⟩ := l
  obtain ⟨hd1, hv1, -⟩ := digit_spec (status / 100) (by omega)
  obtain ⟨hd2, hv2, -⟩ := digit_spec (status / 10 % 10) (by omega)
  obtain ⟨hd3, hv3, -⟩ := digit_spec (status % 10) (by omega)
  have hsum : status / 100 * 100 + status / 10 % 10 * 10 + status % 10 = status := by omega
  have hhttp : lit "HTTP/" = [72, 84, 84, 80, 47] := by decide
  have h10 : lit "1.0 " = [49, 46, 48, 32] := by decide
  have h11 : lit "1.1 " = [49, 46, 49, 32] := by decide
  cases minor <;> cases reason <;>
    simp [statusOf, text, version, code, reasonText, hhttp, h10, h11, hd1, hd2, hd3, hv1, hv2,
      hv3, hsum]

theorem crlfFree_text (l : StatusLine) : CrlfFree l.text := by
  unfold text
  apply crlfFree_append
  · obtain ⟨-, -, h1⟩ := digit_spec (l.status / 100) (by have := l.status_lt; omega)
    obtain ⟨-, -, h2⟩ := digit_spec (l.status / 10 % 10) (by omega)
    obtain ⟨-, -, h3⟩ := digit_spec (l.status % 10) (by omega)
    have hver : ∀ c ∈ lit "HTTP/" ++ l.version, c ≠ 13 := by
      unfold version
      cases l.minor <;> decide +kernel
    intro c hc
    rw [List.mem_append] at hc
    obtain hc | hc := hc
    · exact hver c hc
    · simp only [code, List.mem_cons, List.not_mem_nil, or_false] at hc
      obtain rfl | rfl | rfl := hc
      · exact h1
      · exact h2
      · exact h3
  · cases hr : l.reason with
    | none => exact crlfFree_nil
    | some r => exact crlfFree_append (a := [32]) (by simp) (l.reason_free r hr)

end StatusLine

/-! ## Header lines -/

/-- The line is a field of this name, in any case. -/
def fieldNamed (name line : List UInt8) : Bool :=
  match find [58] line with
  | none | some 0 => false
  | some colon => ieq (line.take colon) name

/-- A line that says nothing about the framing. -/
def NotFraming (line : List UInt8) : Prop :=
  fieldNamed (lit "content-length") line = false ∧
    fieldNamed (lit "transfer-encoding") line = false

instance (line : List UInt8) : Decidable (NotFraming line) := inferInstanceAs (Decidable (_ ∧ _))

/-- What a field line says, by its name. -/
theorem lineKind_of_field (limits : Limits) {line : List UInt8} {k : Nat}
    (h : find [58] line = some (k + 1)) :
    lineKind limits line =
      if fieldNamed (lit "content-length") line then
        .contentLength (lengthOf limits (trimOws (line.drop (k + 1 + 1))))
      else if fieldNamed (lit "transfer-encoding") line ∧
          (find (lit "chunked") (trimOws (line.drop (k + 1 + 1)))).isSome then .chunked
      else .other := by
  have hname : ∀ name, fieldNamed name line = ieq (line.take (k + 1)) name := by
    intro name
    simp only [fieldNamed, h]
  simp only [hname, lineKind, h]

theorem lineKind_of_not_field (limits : Limits) {line : List UInt8}
    (h : ¬ ∃ k, find [58] line = some (k + 1)) :
    lineKind limits line = .other ∧ ∀ name, fieldNamed name line = false := by
  unfold lineKind fieldNamed
  cases hf : find [58] line with
  | none => exact ⟨rfl, fun _ => rfl⟩
  | some k =>
      cases k with
      | zero => exact ⟨rfl, fun _ => rfl⟩
      | succ k => exact absurd ⟨k, hf⟩ h

theorem lineKind_of_notFraming (limits : Limits) {line : List UInt8} (h : NotFraming line) :
    lineKind limits line = .other := by
  by_cases hf : ∃ k, find [58] line = some (k + 1)
  · obtain ⟨k, hk⟩ := hf
    rw [lineKind_of_field limits hk, h.1, h.2]
    simp
  · exact (lineKind_of_not_field limits hf).1

/-- `Content-Length: n` with the name in any case and spaces around the value. -/
structure ContentLengthLine (n : Nat) where
  name : List UInt8
  name_eq : ieq name (lit "content-length") = true
  before : List UInt8
  before_ows : before.all isOws = true
  digits : List UInt8
  digits_ne : digits ≠ []
  digits_all : digits.all isdigit = true
  digits_value : digitsValue 10 digits = n
  after : List UInt8
  after_ows : after.all isOws = true

theorem ne_of_isOws {c : UInt8} : isOws c = true → c ≠ 13 :=
  forall_byte (P := fun c => isOws c = true → c ≠ 13) (by decide +kernel) c

/-- The letters of the field name, in any case, are neither colons nor CRs. -/
theorem ne_of_mem_contentLength {c : UInt8} :
    tolower c ∈ (lit "content-length").map tolower → c ≠ 58 ∧ c ≠ 13 :=
  forall_byte (P := fun c => tolower c ∈ (lit "content-length").map tolower → c ≠ 58 ∧ c ≠ 13)
    (by decide +kernel) c

/-- Nor does the name hold any. -/
theorem ne_of_ieq_contentLength {name : List UInt8}
    (h : ieq name (lit "content-length") = true) : ∀ c ∈ name, c ≠ 58 ∧ c ≠ 13 := by
  intro c hc
  unfold ieq at h
  rw [decide_eq_true_eq] at h
  refine ne_of_mem_contentLength ?_
  rw [← h]
  exact List.mem_map_of_mem hc

/-- A Content-Length field stands for what its trimmed value reads as. -/
theorem lineKind_of_contentLength (limits : Limits) {name : List UInt8}
    (h : ieq name (lit "content-length") = true) (raw : List UInt8) :
    lineKind limits (name ++ 58 :: raw) = .contentLength (lengthOf limits (trimOws raw)) := by
  have hfind : find [58] (name ++ 58 :: raw) = some name.length :=
    find_singleton (fun c hc => (ne_of_ieq_contentLength h c hc).1) _
  have hname : (name ++ 58 :: raw).take name.length = name := List.take_left' rfl
  have hvalue : (name ++ 58 :: raw).drop (name.length + 1) = raw := by
    rw [List.append_cons]
    exact List.drop_left' (by simp)
  obtain ⟨k, hk⟩ : ∃ k, name.length = k + 1 := by
    apply Nat.exists_eq_succ_of_ne_zero
    intro h0
    rw [List.length_eq_zero_iff.mp h0] at h
    exact absurd h (by decide)
  have hfield : fieldNamed (lit "content-length") (name ++ 58 :: raw) = true := by
    rw [hk] at hfind hname
    simp only [fieldNamed, hfind, hname, h]
  rw [hk] at hfind hvalue
  rw [lineKind_of_field limits hfind, if_pos hfield, hvalue]

/-- Spaces and tabs around a value that holds none are trimmed. -/
theorem trimOws_padded {before v after : List UInt8} (hb : before.all isOws = true)
    (ha : after.all isOws = true) (hne : v ≠ []) (hv : ∀ c ∈ v, isOws c = false) :
    trimOws (before ++ v ++ after) = v := by
  rw [List.all_eq_true] at hb ha
  have hstart : ∀ {l t : List UInt8}, l ≠ [] → (∀ c ∈ l, isOws c = false) →
      (l ++ t).dropWhile isOws = l ++ t := by
    intro l t hl hall
    obtain ⟨c, r, rfl⟩ := List.exists_cons_of_ne_nil hl
    have hc := hall c List.mem_cons_self
    rw [List.cons_append, List.dropWhile_cons_of_neg (by simp [hc])]
  have hrev : ∀ c ∈ v.reverse, isOws c = false := fun c hc => hv c (List.mem_reverse.mp hc)
  have hdrop := hstart (t := []) (by simpa using hne) hrev
  rw [List.append_nil] at hdrop
  rw [trimOws, List.append_assoc, List.dropWhile_append_of_pos hb, hstart hne hv,
    List.reverse_append, List.dropWhile_append_of_pos fun c hc => ha c (List.mem_reverse.mp hc),
    hdrop, List.reverse_reverse]

namespace ContentLengthLine

variable {n : Nat}

def text (l : ContentLengthLine n) : List UInt8 :=
  l.name ++ 58 :: (l.before ++ l.digits ++ l.after)

theorem name_spec (l : ContentLengthLine n) : ∀ c ∈ l.name, c ≠ 58 ∧ c ≠ 13 :=
  ne_of_ieq_contentLength l.name_eq

/-- **The parser reads the length off the line**, within its body limit. -/
theorem lineKind_text (limits : Limits) (l : ContentLengthLine n) (hn : n < 2 ^ 64) :
    lineKind limits l.text =
      .contentLength (if limits.maxBodyBytes < n then none else some n) := by
  have hdigits : ∀ c ∈ l.digits, isOws c = false := by
    intro c hc
    have hd := of_isdigit (List.all_eq_true.mp l.digits_all c hc)
    simp [isOws, hd.2.2.2.1, hd.2.2.2.2]
  have htrim := trimOws_padded l.before_ows l.after_ows l.digits_ne hdigits
  have hread := strtoull_decimal l.digits_ne l.digits_all (by rw [l.digits_value]; exact hn)
  have hlen : 0 < l.digits.length := List.length_pos_of_ne_nil l.digits_ne
  have hnul : cstrAt l.digits l.digits.length = 0 := by simp [cstrAt]
  rw [text, lineKind_of_contentLength limits l.name_eq, htrim, lengthOf, hread, l.digits_value]
  dsimp only
  rw [if_neg (by rw [hnul, not_or]; exact ⟨by omega, by simp⟩)]

theorem blockLine_text (l : ContentLengthLine n) : BlockLine l.text := by
  constructor
  · simp [text]
  · have hall : ∀ c ∈ l.text, c ≠ 13 := by
      intro c hc
      unfold text at hc
      simp only [List.mem_append, List.mem_cons] at hc
      obtain hc | rfl | (hc | hc) | hc := hc
      · exact (l.name_spec c hc).2
      · decide
      · exact ne_of_isOws (List.all_eq_true.mp l.before_ows c hc)
      · exact (of_isdigit (List.all_eq_true.mp l.digits_all c hc)).2.2.1
      · exact ne_of_isOws (List.all_eq_true.mp l.after_ows c hc)
    rw [← List.append_nil l.text]
    exact crlfFree_append hall crlfFree_nil

end ContentLengthLine

/-- Lines that say nothing about the framing leave it as it is. -/
theorem frameLines_of_notFraming (limits : Limits) (s : Framing × Nat) {lines : List (List UInt8)}
    (h : ∀ m ∈ lines, NotFraming m) : frameLines limits s lines = some s := by
  induction lines with
  | nil => rfl
  | cons m lines ih =>
      have hm := lineKind_of_notFraming limits (h m List.mem_cons_self)
      rw [frameLines, frameLine, hm]
      exact ih fun x hx => h x (List.mem_cons_of_mem m hx)

/-- A sole Content-Length line frames the response, within the body limit. -/
theorem framingOf_contentLength (limits : Limits) {n : Nat} (hn : n < 2 ^ 64)
    (l : ContentLengthLine n) {pre post : List (List UInt8)} (hpre : ∀ m ∈ pre, NotFraming m)
    (hpost : ∀ m ∈ post, NotFraming m) :
    framingOf limits (pre ++ l.text :: post) =
      if limits.maxBodyBytes < n then none else some (.contentLength, n) := by
  rw [framingOf, frameLines_append, frameLines_of_notFraming limits _ hpre, Option.bind_some,
    frameLines, frameLine, l.lineKind_text limits hn]
  dsimp only
  rw [if_neg (by decide)]
  split
  · rfl
  · exact frameLines_of_notFraming limits _ hpost

/-- A transfer coding of `chunked`. -/
def ChunkedLine (line : List UInt8) : Prop :=
  fieldNamed (lit "transfer-encoding") line = true ∧
    ∀ colon, find [58] line = some colon →
      (find (lit "chunked") (trimOws (line.drop (colon + 1)))).isSome = true

/-- Header lines that select chunked framing, without a Content-Length. -/
structure SelectsChunked (lines : List (List UInt8)) : Prop where
  no_length : ∀ m ∈ lines, fieldNamed (lit "content-length") m = false
  coding : ∃ m ∈ lines, ChunkedLine m

theorem lineKind_of_chunkedLine (limits : Limits) {line : List UInt8} (h : ChunkedLine line)
    (hlen : fieldNamed (lit "content-length") line = false) :
    lineKind limits line = .chunked := by
  by_cases hf : ∃ k, find [58] line = some (k + 1)
  · obtain ⟨k, hk⟩ := hf
    rw [lineKind_of_field limits hk, hlen, h.1, h.2 _ hk]
    simp
  · have hname := (lineKind_of_not_field limits hf).2 (lit "transfer-encoding")
    rw [h.1] at hname
    contradiction

theorem lineKind_of_no_length (limits : Limits) {line : List UInt8}
    (hlen : fieldNamed (lit "content-length") line = false) :
    lineKind limits line = .other ∨ lineKind limits line = .chunked := by
  by_cases hf : ∃ k, find [58] line = some (k + 1)
  · obtain ⟨k, hk⟩ := hf
    rw [lineKind_of_field limits hk, hlen, if_neg (by simp)]
    split
    · exact .inr rfl
    · exact .inl rfl
  · exact .inl (lineKind_of_not_field limits hf).1

/-- Without a Content-Length line chunked framing stays once it is selected. -/
theorem frameLines_of_no_length (limits : Limits) {lines : List (List UInt8)}
    (hlen : ∀ m ∈ lines, fieldNamed (lit "content-length") m = false) (s : Framing × Nat)
    (h : s.1 = .chunked ∨ ∃ m ∈ lines, ChunkedLine m) :
    frameLines limits s lines = some (.chunked, s.2) := by
  induction lines generalizing s with
  | nil =>
      obtain h | ⟨m, hm, -⟩ := h
      · rw [frameLines, ← h]
      · contradiction
  | cons l lines ih =>
      have hl := hlen l List.mem_cons_self
      have hrest := fun x hx => hlen x (List.mem_cons_of_mem l hx)
      rw [frameLines, frameLine]
      obtain hk | hk := lineKind_of_no_length limits hl
      · rw [hk]
        refine ih hrest s ?_
        obtain h | ⟨m, hm, hc⟩ := h
        · exact .inl h
        · rw [List.mem_cons] at hm
          obtain rfl | hm := hm
          · rw [lineKind_of_chunkedLine limits hc hl] at hk
            contradiction
          · exact .inr ⟨m, hm, hc⟩
      · rw [hk]
        exact ih hrest (.chunked, s.2) (.inl rfl)

theorem SelectsChunked.framingOf (limits : Limits) {lines : List (List UInt8)}
    (h : SelectsChunked lines) :
    HttpResponseParser.framingOf limits lines = some (.chunked, 0) :=
  frameLines_of_no_length limits h.no_length _ (.inr h.coding)

/-! ## Chunked bodies -/

/-- A chunk-size line: hex digits and an optional extension. -/
structure SizeLine where
  digits : List UInt8
  digits_ne : digits ≠ []
  digits_all : digits.all isxdigit = true
  ext : List UInt8
  ext_start : ext = [] ∨ ext.head? = some 59
  ext_free : CrlfFree ext

namespace SizeLine

def text (l : SizeLine) : List UInt8 := l.digits ++ l.ext

def size (l : SizeLine) : Nat := digitsValue 16 l.digits

/-- The size is written in no more digits than 64 bits have. -/
def Short (l : SizeLine) : Prop := l.digits.length ≤ 16

instance (l : SizeLine) : Decidable l.Short := inferInstanceAs (Decidable (_ ≤ _))

theorem crlfFree_text (l : SizeLine) : CrlfFree l.text :=
  crlfFree_append (fun c hc => (ne_delimiter_of_isxdigit (List.all_eq_true.mp l.digits_all c hc)).1)
    l.ext_free

theorem take_text (l : SizeLine) :
    l.text.take ((find [59] l.text).getD l.text.length) = l.digits := by
  have hdigits : ∀ c ∈ l.digits, c ≠ 59 := fun c hc =>
    (ne_delimiter_of_isxdigit (List.all_eq_true.mp l.digits_all c hc)).2
  unfold text
  cases hext : l.ext with
  | nil =>
      rw [List.append_nil, find_singleton_eq_none hdigits, Option.getD_none, List.take_length]
  | cons c r =>
      have hc : c = 59 := by simpa [hext] using l.ext_start
      rw [hc, find_singleton hdigits, Option.getD_some]
      exact List.take_left' rfl

/-- **The parser reads the size off the line** when it is short enough, and
rejects it otherwise. -/
theorem chunkSize_text (l : SizeLine) :
    (l.Short → chunkSize l.text = some l.size) ∧ (¬ l.Short → chunkSize l.text = none) := by
  unfold chunkSize
  rw [take_text]
  constructor
  · intro h
    exact if_pos ⟨l.digits_ne, l.digits_all, h⟩
  · intro h
    exact if_neg fun hc => h hc.2.2

end SizeLine

/-- A chunk with at least one byte of payload. -/
structure Chunk where
  line : SizeLine
  data : List UInt8
  data_ne : data ≠ []
  size_eq : line.size = data.length

def Chunk.text (c : Chunk) : List UInt8 := c.line.text ++ crlf ++ (c.data ++ crlf)

def chunksText (cs : List Chunk) : List UInt8 := cs.flatMap Chunk.text

/-- The bytes a list of chunks carries. -/
def payload (cs : List Chunk) : List UInt8 := cs.flatMap Chunk.data

@[simp] theorem chunksText_nil : chunksText [] = [] := rfl

@[simp] theorem chunksText_cons (c : Chunk) (cs : List Chunk) :
    chunksText (c :: cs) = c.text ++ chunksText cs := by
  simp [chunksText]

@[simp] theorem payload_nil : payload [] = [] := rfl

@[simp] theorem payload_cons (c : Chunk) (cs : List Chunk) :
    payload (c :: cs) = c.data ++ payload cs := by
  simp [payload]

/-- A chunked body: chunks, the last chunk and the trailer section. -/
structure ChunkedBody where
  chunks : List Chunk
  last : SizeLine
  last_zero : last.size = 0
  trailers : List (List UInt8)
  trailers_ok : ∀ t ∈ trailers, BlockLine t

namespace ChunkedBody

/-- Everything up to the trailer section. -/
def lead (m : ChunkedBody) : List UInt8 := chunksText m.chunks ++ (m.last.text ++ crlf)

/-- The trailer lines and the blank line. -/
def trailerSection (m : ChunkedBody) : List UInt8 := joinLines m.trailers ++ crlf

def text (m : ChunkedBody) : List UInt8 := m.lead ++ m.trailerSection

/-- The lines that carry a size. -/
def sizeLines (m : ChunkedBody) : List SizeLine := m.chunks.map Chunk.line ++ [m.last]

end ChunkedBody

end HttpResponseParser

end ChaosForger
