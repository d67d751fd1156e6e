import ChaosForger.Http

/-!
# ChaosForger.Http.Headers

What the header phase reads off a buffer.  The status line and each header
line are given a meaning of their own (`statusOf`, `lineKind`), the header
loop becomes a fold over these meanings (`framingOf`), and `enterBody` is
then characterised for every buffer that holds a whole header block
(`enterBody_ok`, `enterBody_rejected`).

The last section is about the boundary of the block: with at least one header
line nothing behind the block is ever read (`framingVerdict_congr`); without any, the
length of the header text wraps and the body is read as headers
(`headerText_of_no_lines`).
-/

namespace ChaosForger

open Search Libc

namespace HttpResponseParser

/-! ## Errors -/

@[simp] theorem fail_snd (p : HttpResponseParser) (msg : List UInt8) : (p.fail msg).2 = false := rfl

@[simp] theorem fail_state (p : HttpResponseParser) (msg : List UInt8) :
    (p.fail msg).1.state = .error := by
  unfold fail
  by_cases h : p.state = .error <;> simp [h]

/-- An error keeps everything but the state and the message. -/
theorem fail_keeps (p : HttpResponseParser) (msg : List UInt8) :
    (p.fail msg).1.buf = p.buf ∧ (p.fail msg).1.resp = p.resp ∧
      (p.fail msg).1.limits = p.limits ∧ (p.fail msg).1.framing = p.framing ∧
      (p.fail msg).1.contentLength = p.contentLength := by
  unfold fail
  by_cases h : p.state = .error <;> simp [h]

/-! ## The status line -/

/-- Status code and reason phrase of a well-formed status line. -/
def statusOf (line : List UInt8) : Option (Nat × List UInt8) :=
  if line.take 5 = lit "HTTP/" ∧
      ((line.drop 5).take 4 = lit "1.0 " ∨ (line.drop 5).take 4 = lit "1.1 ") ∧
      12 ≤ line.length ∧
      (isdigit (line.getD 9 0) ∧ isdigit (line.getD 10 0) ∧ isdigit (line.getD 11 0)) ∧
      (12 < line.length → line.getD 12 0 = 32) then
    some (((line.getD 9 0).toNat - 48) * 100 + ((line.getD 10 0).toNat - 48) * 10 +
      ((line.getD 11 0).toNat - 48), line.drop (if 12 < line.length then 13 else 12))
  else none

/-- A well-formed status line sets the status and the reason, and nothing else. -/
theorem parseStatusLine_of_some {p : HttpResponseParser} {e f s : Nat} {t : List UInt8}
    (hf : find crlf p.buf = some f) (h : statusOf (p.buf.take f) = some (s, t)) :
    p.parseStatusLine e = ({ p with resp := { p.resp with status := s, statusText := t } }, true) := by
  unfold statusOf at h
  split at h
  · next hc =>
      obtain ⟨h1, h2, h3, h4, h5⟩ := hc
      rw [Option.some.injEq, Prod.mk.injEq] at h
      have hv : ¬ (((p.buf.take f).drop 5).take 4 ≠ lit "1.0 " ∧
          ((p.buf.take f).drop 5).take 4 ≠ lit "1.1 ") := by tauto
      have hd : ¬ ((p.buf.take f).length < 12 ∨ ¬ (isdigit ((p.buf.take f).getD 9 0) ∧
          isdigit ((p.buf.take f).getD 10 0) ∧ isdigit ((p.buf.take f).getD 11 0))) := by
        rw [not_or, not_not]
        exact ⟨by omega, h4⟩
      have hsp : ¬ (12 < (p.buf.take f).length ∧ (p.buf.take f).getD 12 0 ≠ 32) := by tauto
      rw [← h.1, ← h.2]
      simp only [parseStatusLine, hf, Option.getD_some, h1, ne_eq, not_true, if_false, hv, hd, hsp]
  · contradiction

/-- Any other status line is rejected. -/
theorem parseStatusLine_of_none {p : HttpResponseParser} {e f : Nat}
    (hf : find crlf p.buf = some f) (h : statusOf (p.buf.take f) = none) :
    ∃ q, p.parseStatusLine e = (q, false) ∧ q.state = .error := by
  have hfail : ∀ (q : HttpResponseParser) msg, ∃ r, q.fail msg = (r, false) ∧ r.state = .error :=
    fun q msg => ⟨_, rfl, fail_state q msg⟩
  simp only [parseStatusLine, hf, Option.getD_some]
  split
  · exact hfail _ _
  · next h1 =>
      split
      · exact hfail _ _
      · next h2 =>
          split
          · exact hfail _ _
          · next h3 =>
              split
              · exact hfail _ _
              · next h4 =>
                  refine absurd h ?_
                  rw [statusOf, if_pos]
                  · simp
                  · rw [not_or, not_not] at h3
                    exact ⟨not_not.mp h1, by tauto, by omega, h3.2, by tauto⟩

/-! ## Header lines -/

/-- What a header line says about the framing.  A Content-Length carries the
length, or `none` when its value is malformed or above the body limit. -/
inductive LineKind where
  | other
  | chunked
  | contentLength (length : Option Nat)
  deriving DecidableEq, Repr

/-- The length a Content-Length value stands for. -/
def lengthOf (limits : Limits) (value : List UInt8) : Option Nat :=
  if (strtoull value 10).2 = 0 ∨ cstrAt value (strtoull value 10).2 ≠ 0 then none
  else if limits.maxBodyBytes < (strtoull value 10).1 then none
  else some (strtoull value 10).1

def lineKind (limits : Limits) (line : List UInt8) : LineKind :=
  match find [58] line with
  | none | some 0 => .other
  | some colon =>
      if ieq (line.take colon) (lit "content-length") then
        .contentLength (lengthOf limits (trimOws (line.drop (colon + 1))))
      else if ieq (line.take colon) (lit "transfer-encoding") ∧
          (find (lit "chunked") (trimOws (line.drop (colon + 1)))).isSome then .chunked
      else .other

/-- The framing and the length after one more header line, `none` when the
line is rejected. -/
def frameLine (limits : Limits) (s : Framing × Nat) (line : List UInt8) : Option (Framing × Nat) :=
  match lineKind limits line with
  | .other => some s
  | .chunked => some (.chunked, s.2)
  | .contentLength length =>
      if s.1 = .chunked then some s else length.map fun n => (.contentLength, n)

/-- The framing and the length after the header lines. -/
def frameLines (limits : Limits) (s : Framing × Nat) : List (List UInt8) → Option (Framing × Nat)
  | [] => some s
  | line :: lines => (frameLine limits s line).bind fun s' => frameLines limits s' lines

/-- The framing a list of header lines selects. -/
def framingOf (limits : Limits) (lines : List (List UInt8)) : Option (Framing × Nat) :=
  frameLines limits (.none, 0) lines

theorem frameLines_append (limits : Limits) (s : Framing × Nat) (ls ms : List (List UInt8)) :
    frameLines limits s (ls ++ ms) =
      (frameLines limits s ls).bind fun s' => frameLines limits s' ms := by
  induction ls generalizing s with
  | nil => rfl
  | cons l ls ih => simp only [List.cons_append, frameLines, Option.bind_assoc, ih]

/-- A line without a field name says nothing and is skipped. -/
theorem parseHeaderLine_of_junk {p : HttpResponseParser} {line : List UInt8}
    (h : ∀ k, find [58] line ≠ some (k + 1)) :
    lineKind p.limits line = .other ∧ p.parseHeaderLine line = (p, true) := by
  unfold lineKind parseHeaderLine
  cases hc : find [58] line with
  | none => exact ⟨rfl, rfl⟩
  | some k =>
      cases k with
      | zero => exact ⟨rfl, rfl⟩
      | succ k => exact absurd hc (h k)

/-- **One round of the header loop does what its line says**: it sets the
framing and the length, or rejects. -/
theorem parseHeaderLine_spec (p : HttpResponseParser) (line : List UInt8) :
    (∃ fr n, frameLine p.limits (p.framing, p.contentLength) line = some (fr, n) ∧
      p.parseHeaderLine line = ({ p with framing := fr, contentLength := n }, true)) ∨
    (∃ msg, frameLine p.limits (p.framing, p.contentLength) line = none ∧
      p.parseHeaderLine line = p.fail msg) := by
  by_cases hc : ∃ k, find [58] line = some (k + 1)
  · obtain ⟨k, hc⟩ := hc
    unfold frameLine lineKind parseHeaderLine
    simp only [hc]
    by_cases hn : ieq (line.take (k + 1)) (lit "content-length") = true
    · simp only [hn, if_true]
      by_cases hch : p.framing = .chunked
      · simp only [hch, if_true]
        exact .inl ⟨_, _, rfl, by rw [← hch]⟩
      · simp only [hch, if_false, lengthOf]
        split
        · exact .inr ⟨_, rfl, rfl⟩
        · split
          · exact .inr ⟨_, rfl, rfl⟩
          · exact .inl ⟨_, _, rfl, rfl⟩
    · simp only [hn, if_false, Bool.false_eq_true]
      by_cases ht : ieq (line.take (k + 1)) (lit "transfer-encoding") = true
      · by_cases hv : (find (lit "chunked") (trimOws (line.drop (k + 1 + 1)))).isSome = true
        · simp only [ht, hv, and_self, if_true]
          exact .inl ⟨_, _, rfl, rfl⟩
        · simp only [ht, hv, and_false, if_false, if_true, Bool.false_eq_true]
          exact .inl ⟨_, _, rfl, rfl⟩
      · simp only [ht, false_and, if_false, Bool.false_eq_true]
        exact .inl ⟨_, _, rfl, rfl⟩
  · obtain ⟨h1, h2⟩ := parseHeaderLine_of_junk (p := p) fun k hk => hc ⟨k, hk⟩
    exact .inl ⟨_, _, by simp [frameLine, h1], h2⟩

/-- An accepted run of the header loop only sets the framing and the length. -/
theorem parseHeaderLines_of_some {p : HttpResponseParser} {lines : List (List UInt8)}
    {fr : Framing} {n : Nat}
    (h : frameLines p.limits (p.framing, p.contentLength) lines = some (fr, n)) :
    p.parseHeaderLines lines = ({ p with framing := fr, contentLength := n }, true) := by
  induction lines generalizing p with
  | nil =>
      rw [frameLines, Option.some.injEq, Prod.mk.injEq] at h
      obtain ⟨rfl, rfl⟩ := h
      rfl
  | cons line lines ih =>
      rw [frameLines] at h
      rw [parseHeaderLines]
      obtain ⟨fr', n', hf, hp⟩ | ⟨msg, hf, -⟩ := parseHeaderLine_spec p line
      · rw [hf, Option.bind_some] at h
        rw [hp]
        exact ih h
      · simp [hf] at h

/-- A rejected one ends in the error state. -/
theorem parseHeaderLines_of_none {p : HttpResponseParser} {lines : List (List UInt8)}
    (h : frameLines p.limits (p.framing, p.contentLength) lines = none) :
    ∃ q, p.parseHeaderLines lines = (q, false) ∧ q.state = .error := by
  induction lines generalizing p with
  | nil => simp [frameLines] at h
  | cons line lines ih =>
      rw [frameLines] at h
      rw [parseHeaderLines]
      obtain ⟨fr', n', hf, hp⟩ | ⟨msg, hf, hp⟩ := parseHeaderLine_spec p line
      · rw [hf, Option.bind_some] at h
        rw [hp]
        exact ih h
      · rw [hp]
        exact ⟨_, rfl, fail_state p msg⟩

theorem fail_withBuf (p : HttpResponseParser) (b msg : List UInt8) :
    fail { p with buf := b } msg = ({ (p.fail msg).1 with buf := b }, false) := by
  unfold fail
  by_cases h : p.state = .error <;> simp [h]

theorem parseHeaderLine_withBuf (p : HttpResponseParser) (b line : List UInt8) :
    parseHeaderLine { p with buf := b } line =
      ({ (p.parseHeaderLine line).1 with buf := b }, (p.parseHeaderLine line).2) := by
  unfold parseHeaderLine
  obtain _ | _ | k := find [58] line
  · rfl
  · rfl
  · dsimp only
    by_cases hn : ieq (line.take (k + 1)) (lit "content-length") = true
    · simp only [hn, if_true]
      by_cases hch : p.framing = .chunked
      · simp only [hch, if_true]
      · simp only [hch, if_false]
        split
        · exact fail_withBuf p b _
        · split
          · exact fail_withBuf p b _
          · rfl
    · simp only [hn, if_false, Bool.false_eq_true]
      split
      · split <;> rfl
      · rfl

/-- The header loop never looks at the buffer. -/
theorem parseHeaderLines_withBuf (p : HttpResponseParser) (b : List UInt8)
    (lines : List (List UInt8)) :
    parseHeaderLines { p with buf := b } lines =
      ({ (p.parseHeaderLines lines).1 with buf := b }, (p.parseHeaderLines lines).2) := by
  induction lines generalizing p with
  | nil => rfl
  | cons line lines ih =>
      rw [parseHeaderLines, parseHeaderLine_withBuf, parseHeaderLines]
      obtain ⟨q, ok⟩ := p.parseHeaderLine line
      cases ok
      · rfl
      · exact ih q

/-! ## The header text -/

/-- The status line ends at the blank line or at least a line before it. -/
theorem eq_or_le_of_find {b : List UInt8} {f e : Nat} (hf : find crlf b = some f)
    (he : find blankLine b = some e) : f = e ∨ f + 2 ≤ e := by
  obtain ⟨j, hj, hfj⟩ := exists_find_crlf_of_find_blankLine he
  rw [hf, Option.some.injEq] at hfj
  subst hfj
  by_contra hne
  have h1 : e = f + 1 := by omega
  obtain ⟨-, ⟨t, ht⟩, -⟩ := find_eq_some_iff.mp hf
  obtain ⟨-, ⟨r, hr⟩, -⟩ := find_eq_some_iff.mp he
  rw [h1, ← List.drop_drop, ← ht] at hr
  simp [blankLine, crlf] at hr

/-- The header lines of a buffer whose blank line stands at `e`. -/
def headerText (b : List UInt8) (e : Nat) : List UInt8 :=
  let f := (find crlf b).getD b.length
  (b.drop (f + 2)).take (subSize e (f + 2))

theorem parseHeaders_eq (p : HttpResponseParser) (e : Nat) :
    p.parseHeaders e =
      parseHeaderLines { p with framing := .none } (crlfLines (headerText p.buf e)) := rfl

/-- A header block: the status line, the header lines and the blank line. -/
def headerBlock (status : List UInt8) (lines : List (List UInt8)) : List UInt8 :=
  status ++ crlf ++ joinLines lines ++ crlf

theorem length_headerBlock (status : List UInt8) (lines : List (List UInt8)) :
    (headerBlock status lines).length = status.length + (joinLines lines).length + 4 := by
  simp only [headerBlock, List.length_append, length_crlf]
  omega

section Block

variable {status : List UInt8} {lines : List (List UInt8)} (hs : CrlfFree status)
include hs

theorem find_crlf_headerBlock (body : List UInt8) :
    find crlf (headerBlock status lines ++ body) = some status.length := by
  rw [headerBlock, List.append_assoc, List.append_assoc]
  exact find_crlf_line hs _

/-- The block ends with the first blank line, whatever follows. -/
theorem find_blankLine_headerBlock (hls : ∀ l ∈ lines, BlockLine l) (body : List UInt8) :
    find blankLine (headerBlock status lines ++ body) =
      some (status.length + (joinLines lines).length) :=
  find_blankLine_block hs hls body

/-- With at least one header line the header text is exactly the lines. -/
theorem crlfLines_headerText (hls : ∀ l ∈ lines, BlockLine l) (hne : lines ≠ [])
    (body : List UInt8) :
    crlfLines (headerText (headerBlock status lines ++ body)
      (status.length + (joinLines lines).length)) = lines := by
  obtain ⟨ls, l, rfl⟩ : ∃ ls l, lines = ls ++ [l] :=
    ⟨_, _, (List.dropLast_append_getLast hne).symm⟩
  have hjoin : joinLines (ls ++ [l]) = joinLines ls ++ l ++ crlf := by simp [joinLines]
  have htext : headerText (headerBlock status (ls ++ [l]) ++ body)
      (status.length + (joinLines (ls ++ [l])).length) = joinLines ls ++ l := by
    have hlen : status.length + (joinLines (ls ++ [l])).length =
        (status.length + 2) + (joinLines ls ++ l).length := by
      rw [hjoin]
      simp only [List.length_append, length_crlf]
      omega
    simp only [headerText, find_crlf_headerBlock hs, Option.getD_some, hlen, subSize]
    rw [if_pos (by omega), Nat.add_sub_cancel_left, headerBlock, hjoin]
    have hdrop : (status ++ crlf ++ (joinLines ls ++ l ++ crlf) ++ crlf ++ body).drop
        (status.length + 2) = joinLines ls ++ l ++ (crlf ++ crlf ++ body) := by
      simp only [← List.append_assoc]
      simp only [List.append_assoc]
      rw [← List.append_assoc status]
      exact List.drop_left' (by simp)
    rw [hdrop]
    exact List.take_left' rfl
  rw [htext]
  exact crlfLines_joinLines (fun m hm => (hls m (by simp [hm])).2) (hls l (by simp))

/-- Without any header line the length of the header text wraps: the text
starts at the blank line and runs on into the body. -/
theorem headerText_of_no_lines (body : List UInt8) (hlen : body.length + 4 ≤ 2 ^ 64) :
    headerText (headerBlock status [] ++ body) status.length = crlf ++ body := by
  have hdrop : (headerBlock status [] ++ body).drop (status.length + 2) = crlf ++ body := by
    rw [headerBlock, joinLines_nil, List.append_nil, List.append_assoc]
    exact List.drop_left' (by simp)
  have hwrap : subSize status.length (status.length + 2) = 2 ^ 64 - 2 := by
    rw [subSize, if_neg (by omega)]
    omega
  simp only [headerText, find_crlf_headerBlock hs, Option.getD_some, hdrop, hwrap]
  exact List.take_of_length_le (by simp only [List.length_append, length_crlf]; omega)

end Block

/-! ## The framing and the body -/

/-- What `parse_headers` makes of a header block with some body bytes behind
it: the verdict, the framing and the length.  `none` when the buffer shows no
blank line, so that `parse_headers` is not reached. -/
def framingVerdict (p : HttpResponseParser) (block body : List UInt8) :
    Option (Bool × Framing × Nat) :=
  (find blankLine (block ++ body)).map fun headerEnd =>
    let (q, ok) := parseHeaders { p with buf := block ++ body } headerEnd
    (ok, q.framing, q.contentLength)

/-- With at least one header line the verdict is that of the lines, whatever
the body. -/
theorem framingVerdict_of_lines (p : HttpResponseParser) {status : List UInt8}
    {lines : List (List UInt8)} (hs : CrlfFree status) (hls : ∀ l ∈ lines, BlockLine l)
    (hne : lines ≠ []) (body : List UInt8) :
    p.framingVerdict (headerBlock status lines) body =
      some ((parseHeaderLines { p with framing := .none } lines).2,
        (parseHeaderLines { p with framing := .none } lines).1.framing,
        (parseHeaderLines { p with framing := .none } lines).1.contentLength) := by
  have he := find_blankLine_headerBlock hs hls body
  have hparse := parseHeaderLines_withBuf { p with framing := .none }
    (headerBlock status lines ++ body) lines
  rw [framingVerdict, he, Option.map_some, parseHeaders_eq,
    crlfLines_headerText hs hls hne body, hparse]

/-- Without header lines an empty body leaves the response unframed. -/
theorem framingVerdict_no_lines_nil (p : HttpResponseParser) {status : List UInt8}
    (hs : CrlfFree status) :
    p.framingVerdict (headerBlock status []) [] = some (true, .none, p.contentLength) := by
  have he : find blankLine (headerBlock status [] ++ []) = some status.length :=
    find_blankLine_block hs (by simp) []
  rw [framingVerdict, he, Option.map_some, parseHeaders_eq,
    headerText_of_no_lines hs [] (by decide)]
  rfl

/-- Without header lines a body that starts with `Content-Length: 0` frames
the response. -/
theorem framingVerdict_no_lines_contentLength (p : HttpResponseParser) {status : List UInt8}
    (hs : CrlfFree status) :
    p.framingVerdict (headerBlock status []) (lit "Content-Length: 0\r\n") =
      some (true, .contentLength, 0) := by
  have he : find blankLine (headerBlock status [] ++ lit "Content-Length: 0\r\n") =
      some status.length := find_blankLine_block hs (by simp) _
  have hlines : crlfLines (crlf ++ lit "Content-Length: 0\r\n") = [[], lit "Content-Length: 0"] := by
    decide
  have hframe : frameLines p.limits (.none, p.contentLength) [[], lit "Content-Length: 0"] =
      some (.contentLength, 0) := rfl
  rw [framingVerdict, he, Option.map_some, parseHeaders_eq,
    headerText_of_no_lines hs _ (by decide), hlines, parseHeaderLines_of_some hframe]

/-- **The framing ignores the body exactly when there is a header line.** -/
theorem framingVerdict_congr_iff (p : HttpResponseParser) {status : List UInt8}
    {lines : List (List UInt8)} (hs : CrlfFree status) (hls : ∀ l ∈ lines, BlockLine l) :
    (∀ b₁ b₂, p.framingVerdict (headerBlock status lines) b₁ =
      p.framingVerdict (headerBlock status lines) b₂) ↔ lines ≠ [] := by
  constructor
  · intro h hnil
    subst hnil
    have h12 := h [] (lit "Content-Length: 0\r\n")
    rw [framingVerdict_no_lines_nil p hs, framingVerdict_no_lines_contentLength p hs] at h12
    simp at h12
  · intro hne b₁ b₂
    rw [framingVerdict_of_lines p hs hls hne, framingVerdict_of_lines p hs hls hne]

theorem framingVerdict_congr_iff_contentLength :
    (∀ b₁ b₂, (new true {}).framingVerdict
        (headerBlock (lit "HTTP/1.1 200 OK") [lit "Content-Length: 5"]) b₁ =
      (new true {}).framingVerdict
        (headerBlock (lit "HTTP/1.1 200 OK") [lit "Content-Length: 5"]) b₂) ↔
      [lit "Content-Length: 5"] ≠ [] :=
  framingVerdict_congr_iff _ (by decide) (by decide)

/-- A response without header lines: body bytes that look like a header frame it. -/
theorem framingVerdict_hijacked :
    lit "HTTP/1.1 200 OK\r\n\r\n" = headerBlock (lit "HTTP/1.1 200 OK") [] ∧
      (new true {}).framingVerdict (lit "HTTP/1.1 200 OK\r\n\r\n") (lit "raw") =
        some (true, .none, 0) ∧
      (new true {}).framingVerdict (lit "HTTP/1.1 200 OK\r\n\r\n")
        (lit "Content-Length: 3\r\n") = some (true, .contentLength, 3) := by
  decide +kernel

/-! ## Entering the body -/

/-- What a complete header block decides. -/
structure HeadInfo where
  status : Nat
  reason : List UInt8
  framing : Framing
  length : Nat
  deriving DecidableEq, Repr

/-- The decision read off a buffer whose blank line stands at `e`. -/
def headInfo (limits : Limits) (b : List UInt8) (e : Nat) : Option HeadInfo :=
  (statusOf (b.take ((find crlf b).getD b.length))).bind fun (status, reason) =>
    (framingOf limits (crlfLines (headerText b e))).map fun (framing, length) =>
      { status, reason, framing, length }

/-- The state a framing leads to. -/
def bodyState : Framing → State
  | .contentLength => .bodyContentLength
  | .chunked => .bodyChunked
  | .none | .eof => .bodyEof

/-- The parser in the header phase, with `b` buffered. -/
def awaiting (allow : Bool) (limits : Limits) (b : List UInt8) : HttpResponseParser :=
  { new allow limits with buf := b }

/-- The parser at the start of the body, with `b` buffered. -/
def atBody (allow : Bool) (limits : Limits) (i : HeadInfo) (b : List UInt8) :
    HttpResponseParser :=
  { new allow limits with
    buf := b
    state := bodyState i.framing
    resp := { status := i.status, statusText := i.reason }
    framing := i.framing
    contentLength := i.length }

/-- A block whose framing the parser goes on with: without framing headers
only when EOF termination is allowed. -/
def HeadInfo.Accepted (i : HeadInfo) (allow : Bool) : Prop :=
  bodyState i.framing = .bodyEof → allow = true

instance (i : HeadInfo) (allow : Bool) : Decidable (i.Accepted allow) :=
  inferInstanceAs (Decidable (_ → _))

@[simp] theorem atBody_state (allow : Bool) (limits : Limits) (i : HeadInfo) (b : List UInt8) :
    (atBody allow limits i b).state = bodyState i.framing := rfl

/-- Framing headers are enough. -/
theorem HeadInfo.accepted_of_ne {i : HeadInfo} (allow : Bool) (h : bodyState i.framing ≠ .bodyEof) :
    i.Accepted allow := fun hs => absurd hs h

section Enter

variable {allow : Bool} {limits : Limits} {b : List UInt8} {e : Nat}

/-- An incomplete header block needs more bytes. -/
theorem enterBody_of_incomplete (h : find blankLine b = none) :
    (awaiting allow limits b).enterBody = .error (awaiting allow limits b, true) := by
  simp [enterBody, awaiting, new, h]

/-- A well-formed block sets the status, the reason, the framing and the length. -/
theorem parseHead_of_some {i : HeadInfo} (h : find blankLine b = some e)
    (hi : headInfo limits b e = some i) :
    (awaiting allow limits b).parseHead e =
      ({ awaiting allow limits b with
        resp := { status := i.status, statusText := i.reason }
        framing := i.framing
        contentLength := i.length }, true) := by
  obtain ⟨f, -, hf⟩ := exists_find_crlf_of_find_blankLine h
  rw [headInfo, hf, Option.getD_some, Option.bind_eq_some_iff] at hi
  obtain ⟨⟨s, t⟩, hst, hi⟩ := hi
  rw [Option.map_eq_some_iff] at hi
  obtain ⟨⟨fr, n⟩, hfr, rfl⟩ := hi
  rw [parseHead, parseStatusLine_of_some hf hst]
  dsimp only
  rw [parseHeaders_eq]
  exact parseHeaderLines_of_some hfr

/-- An ill-formed one is an error. -/
theorem parseHead_of_none (h : find blankLine b = some e) (hi : headInfo limits b e = none) :
    ∃ q, (awaiting allow limits b).parseHead e = (q, false) ∧ q.state = .error := by
  obtain ⟨f, -, hf⟩ := exists_find_crlf_of_find_blankLine h
  rw [headInfo, hf, Option.getD_some] at hi
  rw [parseHead]
  cases hst : statusOf (b.take f) with
  | none =>
      obtain ⟨q, hq, hqs⟩ := parseStatusLine_of_none (p := awaiting allow limits b) (e := e) hf hst
      rw [hq]
      exact ⟨q, rfl, hqs⟩
  | some st =>
      rw [hst, Option.bind_some, Option.map_eq_none_iff] at hi
      rw [parseStatusLine_of_some hf hst]
      dsimp only
      rw [parseHeaders_eq]
      exact parseHeaderLines_of_none hi

/-- **An accepted header block leads to the body** with the bytes behind it. -/
theorem enterBody_of_accepted (h : find blankLine b = some e) {i : HeadInfo}
    (hi : headInfo limits b e = some i) (ha : i.Accepted allow) :
    (awaiting allow limits b).enterBody = .ok (atBody allow limits i (b.drop (e + 4))) := by
  have hbuf : (awaiting allow limits b).buf = b := rfl
  rw [enterBody, if_pos (.inl rfl), hbuf, h]
  dsimp only
  rw [parseHead_of_some h hi]
  obtain ⟨s, t, fr, n⟩ := i
  cases fr with
  | contentLength => rfl
  | chunked => rfl
  | none => obtain rfl := ha rfl; rfl
  | eof => obtain rfl := ha rfl; rfl

/-- Any other complete block is an error. -/
theorem enterBody_of_rejected (h : find blankLine b = some e)
    (hi : ∀ i, headInfo limits b e = some i → ¬ i.Accepted allow) :
    ∃ q, (awaiting allow limits b).enterBody = .error (q, false) ∧ q.state = .error := by
  have hbuf : (awaiting allow limits b).buf = b := rfl
  rw [enterBody, if_pos (.inl rfl), hbuf, h]
  dsimp only
  cases hinfo : headInfo limits b e with
  | none =>
      obtain ⟨q, hq, hqs⟩ := parseHead_of_none h hinfo
      rw [hq]
      exact ⟨q, rfl, hqs⟩
  | some i =>
      rw [parseHead_of_some h hinfo]
      have hna := hi i hinfo
      rw [HeadInfo.Accepted, Classical.not_imp, Bool.not_eq_true] at hna
      obtain ⟨s, t, fr, n⟩ := i
      obtain ⟨hfr, rfl⟩ := hna
      cases fr with
      | contentLength => contradiction
      | chunked => contradiction
      | none => exact ⟨_, rfl, fail_state _ _⟩
      | eof => exact ⟨_, rfl, fail_state _ _⟩

/-- With a header line in front of the blank line, bytes behind it change nothing. -/
theorem headInfo_append {f : Nat} (hf : find crlf b = some f) (he : find blankLine b = some e)
    (hne : f ≠ e) (d : List UInt8) : headInfo limits (b ++ d) e = headInfo limits b e := by
  have hle := find_add_length_le he
  have hfe := (eq_or_le_of_find hf he).resolve_left hne
  rw [length_blankLine] at hle
  have hline : (b ++ d).take f = b.take f := List.take_append_of_le_length (by omega)
  have htext : headerText (b ++ d) e = headerText b e := by
    simp only [headerText, find_append_of_some hf, hf, Option.getD_some, subSize, if_pos hfe]
    rw [List.drop_append_of_le_length (by omega), List.take_append_of_le_length]
    rw [List.length_drop]
    omega
  simp only [headInfo, find_append_of_some hf, hf, Option.getD_some, hline, htext]

end Enter

/-- The decision of a block with header lines is that of its parts. -/
theorem headInfo_headerBlock (limits : Limits) {status : List UInt8} {lines : List (List UInt8)}
    (hs : CrlfFree status) (hls : ∀ l ∈ lines, BlockLine l) (hne : lines ≠ [])
    (body : List UInt8) :
    headInfo limits (headerBlock status lines ++ body) (status.length + (joinLines lines).length) =
      (statusOf status).bind fun (status, reason) =>
        (framingOf limits lines).map fun (framing, length) =>
          { status, reason, framing, length } := by
  have hline : (headerBlock status lines ++ body).take status.length = status := by
    rw [headerBlock, List.append_assoc, List.append_assoc, List.append_assoc]
    exact List.take_left' rfl
  rw [headInfo, crlfLines_headerText hs hls hne, find_crlf_headerBlock hs, Option.getD_some, hline]

end HttpResponseParser

end ChaosForger
