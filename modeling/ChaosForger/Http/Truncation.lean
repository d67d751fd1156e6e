import ChaosForger.Http.Client
import ChaosForger.Http.Segments

/-!
# ChaosForger.Http.Truncation

A connection that dies mid-response.  No front of a well-formed response is
taken for a whole one, however it is cut into feeds and whatever the limits:
a header block shows its blank line with its last byte only, a
Content-Length counts the body, and a chunked body shows the blank line of
its trailer section with its last byte only.  The last point also covers a
decoder that has lost its place (`not_done_of_no_blankLine`).
-/

namespace ChaosForger

open Search Libc Cuts

namespace HttpResponseParser

/-! ## Fronts of a chunked body -/

/-- A decoder that sees no blank line does not complete, whatever it takes
the bytes for. -/
theorem not_done_of_no_blankLine {q : HttpResponseParser} (hq : q.state = .bodyChunked)
    {ds : List (List UInt8)} (h : find blankLine (q.buf ++ ds.flatten) = none) :
    (q.feedAll ds).1.state = .bodyChunked ∨ (q.feedAll ds).1.state = .error := by
  induction ds generalizing q with
  | nil => exact .inl hq
  | cons d ds ih =>
      rw [List.flatten_cons, ← List.append_assoc] at h
      have hstate := run_state (p := q.push d) hq
      rw [feedAll_cons, feed_chunked hq]
      unfold ExitState at hstate
      split at hstate
      · rw [feedAll_of_error hstate]
        exact .inr hstate
      · next hexit =>
          -- completion would have needed a blank line in the buffer
          have hblank : blankLine <:+: q.buf ++ d :=
            blankLine_of_complete (p := q.push d) (Prod.ext rfl hexit)
          exact absurd (hblank.trans (List.prefix_append _ _).isInfix) (find_eq_none_iff.mp h)
      · refine ih hstate (find_eq_none_iff.mpr fun hi => find_eq_none_iff.mp h (hi.trans ?_))
        obtain ⟨used, hused⟩ : (chunkLoop.run (q.push d)).1.buf <:+ q.buf ++ d :=
          run_suffix (q.push d)
        exact ⟨used, [], by rw [List.append_nil, ← List.append_assoc, hused]⟩

/-- The trailer loop on the front of a section leaves a decoder that has lost
its place, or an error. -/
theorem not_done_of_open_trailers {p : HttpResponseParser} (hp : Fresh p)
    {ts : List (List UInt8)} (hts : ∀ t ∈ ts, BlockLine t) {ds : List (List UInt8)}
    (hx : p.buf ++ ds.flatten <+: joinLines ts ++ crlf)
    (hlt : (p.buf ++ ds.flatten).length < (joinLines ts ++ crlf).length) :
    ((trailerLoop.run (p.startTrailers, 0)).1.feedAll ds).1.state = .bodyChunked ∨
      ((trailerLoop.run (p.startTrailers, 0)).1.feedAll ds).1.state = .error := by
  have hfront : p.buf <+: joinLines ts ++ crlf := (List.prefix_append _ _).trans hx
  have hshort : p.buf.length < (joinLines ts ++ crlf).length := by
    rw [List.length_append] at hlt
    omega
  have hopen := not_complete_of_open_trailerSection hts hfront hshort
  obtain ⟨n, ⟨h, -⟩ | ⟨msg, h⟩ | ⟨k, h, -⟩⟩ := trailerLoop_exit p.startTrailers 0
  · rw [h]
    exact not_done_of_no_blankLine (q := { p.startTrailers with trailerBytes := n }) hp.state
      (find_blankLine_of_prefix_section hts hx hlt)
  · have hs : (failExit { p.startTrailers with trailerBytes := n } msg).1.state = .error :=
      failExit_state _ _
    rw [h, feedAll_of_error hs]
    exact .inr hs
  · rw [h] at hopen
    exact absurd rfl hopen

/-- **The front of a chunked body does not complete.** -/
theorem not_done_of_open_body {p : HttpResponseParser} (hf : Fresh p) (hb : p.buf = [])
    (m : ChunkedBody) {bs : List (List UInt8)} (hbs : bs.flatten <+: m.text)
    (hlt : bs.flatten.length < m.text.length) :
    (p.feedAll bs).1.state = .bodyChunked ∨ (p.feedAll bs).1.state = .error := by
  obtain ⟨hfront, hshort⟩ | ⟨y, hy, -⟩ := prefix_append_cases hbs
  · obtain ⟨htrack, -⟩ | ⟨hs, -⟩ := onTrack_of_open hf hb hfront hshort
    · exact .inl (htrack.state hf.state)
    · exact .inr hs
  · have hlead : m.lead ≠ [] := by
      unfold ChunkedBody.lead
      simp [crlf]
    have hreach : m.lead <+: bs.flatten := hy ▸ List.prefix_append _ _
    obtain ⟨pre, d, ds, x, rfl, hpd, hpre⟩ := exists_piece_reaching hlead hreach
    have hpref : pre.flatten <+: m.lead :=
      List.prefix_of_prefix_length_le (List.prefix_append _ d) (hpd ▸ List.prefix_append _ x)
        (by omega)
    have hflat : (pre ++ d :: ds).flatten = m.lead ++ (x ++ ds.flatten) := by
      rw [List.flatten_append, List.flatten_cons, ← List.append_assoc, hpd, List.append_assoc]
    rw [hflat] at hbs hlt
    have hsec : x ++ ds.flatten <+: joinLines m.trailers ++ crlf :=
      (List.prefix_append_right_inj m.lead).mp hbs
    have hseclt : (x ++ ds.flatten).length < (joinLines m.trailers ++ crlf).length := by
      simp only [ChunkedBody.text, ChunkedBody.trailerSection, List.length_append] at hlt ⊢
      omega
    rw [feedAll_append, feedAll_cons]
    dsimp only
    obtain ⟨htrack, -⟩ | ⟨hs, -⟩ := onTrack_of_open hf hb hpref hpre
    · have hpush := hf.push (m.lead ++ x)
      have hbuf : (p.push (m.lead ++ x)).buf =
          chunksText m.chunks ++ (m.last.text ++ crlf) ++ x := by
        rw [push_buf, hb, List.nil_append]
        rfl
      rw [htrack.feed hf.state, hpd]
      obtain ⟨-, hrun⟩ | ⟨hfail, -⟩ := run_lead hpush m.last_zero hbuf
      · rw [hrun]
        exact not_done_of_open_trailers (hpush.received _ x) m.trailers_ok hsec hseclt
      · have hs := state_of_failed hpush.state hfail
        rw [feedAll_of_error hs]
        exact .inr hs
    · rw [feed_of_error hs, feedAll_of_error hs]
      exact .inr hs

/-! ## Fronts of a Content-Length body -/

/-- Fewer bytes than the length are collected. -/
theorem feedAll_open_contentLength {p : HttpResponseParser} (hp : p.state = .bodyContentLength)
    {ds : List (List UInt8)} (hlt : (p.buf ++ ds.flatten).length < p.contentLength) :
    (p.feedAll ds).1 = p.push ds.flatten := by
  induction ds generalizing p with
  | nil =>
      rw [List.flatten_nil, push_nil]
      rfl
  | cons d ds ih =>
      rw [List.flatten_cons, ← List.append_assoc] at hlt
      have hshort : (p.push d).buf.length < (p.push d).contentLength := by
        rw [List.length_append] at hlt
        show (p.buf ++ d).length < p.contentLength
        omega
      rw [feedAll_cons, feed_contentLength hp]
      obtain ⟨-, hd⟩ | ⟨heq, -⟩ | ⟨hgt, -⟩ := bodyStepContentLength_spec (p.push d)
      · rw [hd]
        dsimp only
        rw [ih (p := p.push d) hp hlt, push_push, List.flatten_cons]
      · omega
      · omega

/-- A response with a Content-Length, and no other line about the framing.
Its body is one a `size_t` can count. -/
structure LengthResponse where
  statusLine : StatusLine
  before : List (List UInt8)
  before_ok : ∀ m ∈ before, BlockLine m ∧ NotFraming m
  body : List UInt8
  body_lt : body.length < 2 ^ 64
  lengthLine : ContentLengthLine body.length
  after : List (List UInt8)
  after_ok : ∀ m ∈ after, BlockLine m ∧ NotFraming m

namespace LengthResponse

def lines (r : LengthResponse) : List (List UInt8) :=
  r.before ++ r.lengthLine.text :: r.after

def head (r : LengthResponse) : List UInt8 := headerBlock r.statusLine.text r.lines

def text (r : LengthResponse) : List UInt8 := r.head ++ r.body

theorem lines_ok (r : LengthResponse) : ∀ m ∈ r.lines, BlockLine m := by
  intro m hm
  rw [lines, List.mem_append, List.mem_cons] at hm
  obtain hm | rfl | hm := hm
  · exact (r.before_ok m hm).1
  · exact r.lengthLine.blockLine_text
  · exact (r.after_ok m hm).1

theorem framingOf_lines (r : LengthResponse) (limits : Limits) :
    framingOf limits r.lines =
      if limits.maxBodyBytes < r.body.length then none
      else some (.contentLength, r.body.length) :=
  framingOf_contentLength limits r.body_lt r.lengthLine (fun m hm => (r.before_ok m hm).2)
    fun m hm => (r.after_ok m hm).2

end LengthResponse

/-! ## Fronts of a response -/

/-- The parser still waits for bytes of the response, or has failed. -/
def Unfinished (p : HttpResponseParser) : Prop := p.state ≠ .done ∧ p.state ≠ .bodyEof

theorem unfinished_of_error {p : HttpResponseParser} (h : p.state = .error) : Unfinished p := by
  simp [Unfinished, h]

/-- In front of the end of the header block, whatever the limit. -/
theorem unfinished_of_no_blankLine (allow : Bool) (limits : Limits) {ps : List (List UInt8)}
    (h : find blankLine ps.flatten = none) : Unfinished ((new allow limits).feedAll ps).1 := by
  by_cases hfit : ps.flatten.length ≤ limits.maxHeaderBytes
  · have hrun : (new allow limits).feedAll ps = (awaiting allow limits ([] ++ ps.flatten), true) :=
      feedAll_awaiting (b := []) hfit h
    rw [hrun]
    simp [Unfinished, awaiting, new]
  · have hs : ((awaiting allow limits []).feedAll ps).1.state = .error :=
      feedAll_awaiting_over (Nat.zero_le _) (Nat.lt_of_not_le hfit) h
    exact unfinished_of_error hs

theorem unfinished_of_open_head (allow : Bool) (limits : Limits) {h : List UInt8} {e : Nat}
    (he : find blankLine h = some e) (hlen : h.length = e + 4) {ps : List (List UInt8)}
    (hp : ps.flatten <+: h) (hlt : ps.flatten.length < h.length) :
    Unfinished ((new allow limits).feedAll ps).1 :=
  unfinished_of_no_blankLine allow limits (find_blankLine_of_front he hlen hp hlt)

/-- A header block that is rejected ends the run with an error. -/
theorem error_of_rejected_head (allow : Bool) {limits : Limits} (l : StatusLine)
    {lines : List (List UInt8)} (hls : ∀ m ∈ lines, BlockLine m) (hne : lines ≠ [])
    (hframe : framingOf limits lines = none) {ps : List (List UInt8)}
    (hp : headerBlock l.text lines <+: ps.flatten) :
    ((new allow limits).feedAll ps).1.state = .error := by
  have hfind := find_blankLine_headerBlock l.crlfFree_text hls
  have he := hfind []
  have hlen := length_headerBlock l.text lines
  rw [List.append_nil] at he
  obtain ⟨pre, d, post, b, -, -, -, -, ⟨-, hrun⟩ | ⟨-, hs⟩⟩ :=
    feedAll_through_head allow limits he hlen hp
  · have hinfo : headInfo limits (headerBlock l.text lines ++ b)
        (l.text.length + (joinLines lines).length) = none := by
      rw [headInfo_headerBlock limits l.crlfFree_text hls hne b, l.statusOf_text, hframe]
      rfl
    have hs : (awaiting allow limits (headerBlock l.text lines ++ b)).step.1.state = .error :=
      step_of_malformed (hfind b) hinfo
    rw [hrun, feedAll_of_error hs]
    exact hs
  · exact hs

/-- A run through the head and part of the body, when the run in the body
stays in the state it starts in. -/
theorem unfinished_of_open_response (allow : Bool) {limits : Limits} (l : StatusLine)
    {lines : List (List UInt8)} (hls : ∀ m ∈ lines, BlockLine m) (hne : lines ≠ [])
    {body : List UInt8} {ps : List (List UInt8)}
    (hp : ps.flatten <+: headerBlock l.text lines ++ body)
    (hlt : ps.flatten.length < (headerBlock l.text lines ++ body).length)
    (hbody : framingOf limits lines = none ∨ ∃ fr n, framingOf limits lines = some (fr, n) ∧
      (bodyState fr = .bodyContentLength ∨ bodyState fr = .bodyChunked) ∧
      ∀ bs : List (List UInt8), bs.flatten <+: body → bs.flatten.length < body.length →
        Unfinished ((atBody allow limits
          { status := l.status, reason := l.reasonText, framing := fr, length := n }
          []).feedAll bs).1) :
    Unfinished ((new allow limits).feedAll ps).1 := by
  obtain ⟨hfront, hshort⟩ | ⟨y, hy, hybody⟩ := prefix_append_cases hp
  · have he := find_blankLine_headerBlock l.crlfFree_text hls []
    rw [List.append_nil] at he
    exact unfinished_of_open_head allow limits he (length_headerBlock l.text lines) hfront hshort
  · have hreach : headerBlock l.text lines <+: ps.flatten := hy ▸ List.prefix_append _ _
    obtain hnone | ⟨fr, n, hframe, hstate, hrest⟩ := hbody
    · exact unfinished_of_error (error_of_rejected_head allow l hls hne hnone hreach)
    · obtain ⟨b, post, -, hflat, -, ⟨hs, -⟩ | hrun⟩ :=
        feedAll_headerBlock allow l hls hne hframe hstate hreach
      · exact unfinished_of_error hs
      · rw [hy, List.append_cancel_left_eq] at hflat
        rw [hy, List.length_append, List.length_append] at hlt
        rw [hrun]
        refine hrest (b :: post) (hflat ▸ hybody) ?_
        rw [← hflat]
        omega

/-- Well-formed responses that frame their body. -/
inductive WellFormed : List UInt8 → Prop where
  | contentLength (r : LengthResponse) : WellFormed r.text
  | chunked (r : ChunkedResponse) : SelectsChunked r.lines → WellFormed r.text

/-- **No front of a response finishes the parser.** -/
theorem unfinished_of_front (allow : Bool) (limits : Limits) {r : List UInt8} (hr : WellFormed r)
    {ps : List (List UInt8)} (hp : ps.flatten <+: r) (hlt : ps.flatten.length < r.length) :
    Unfinished ((new allow limits).feedAll ps).1 := by
  cases hr with
  | contentLength r =>
      have hne : r.lines ≠ [] := by simp [LengthResponse.lines]
      refine unfinished_of_open_response allow r.statusLine r.lines_ok hne hp hlt ?_
      rw [r.framingOf_lines limits]
      by_cases hbig : limits.maxBodyBytes < r.body.length
      · exact .inl (if_pos hbig)
      · refine .inr ⟨.contentLength, r.body.length, if_neg hbig, .inl rfl, fun bs _ hshort => ?_⟩
        have hrun := feedAll_open_contentLength
          (p := atBody allow limits
            { status := r.statusLine.status, reason := r.statusLine.reasonText,
              framing := .contentLength, length := r.body.length } []) rfl hshort
        rw [hrun]
        constructor <;> exact State.noConfusion
  | chunked r hsel =>
      have hframe := hsel.framingOf limits
      have hne : r.lines ≠ [] := by
        obtain ⟨m, hm, -⟩ := hsel.coding
        exact List.ne_nil_of_mem hm
      refine unfinished_of_open_response allow r.statusLine r.lines_ok hne hp hlt
        (.inr ⟨.chunked, 0, hframe, .inr rfl, fun bs hbs hshort => ?_⟩)
      have hfresh : Fresh (atBody allow limits
          { status := r.statusLine.status, reason := r.statusLine.reasonText,
            framing := .chunked, length := 0 } []) := ⟨rfl, rfl, rfl⟩
      obtain h | h := not_done_of_open_body hfresh rfl r.body hbs hshort
      · simp [Unfinished, h]
      · exact unfinished_of_error h

/-- The EOF marker turns an unfinished parser into an error. -/
theorem feed_eof_of_unfinished {p : HttpResponseParser} (h : Unfinished p) :
    (p.feed none).1.state = .error :=
  feed_eof h.1 fun heof => h.2 heof.1

end HttpResponseParser

/-! ## The client -/

namespace HttpClient

open HttpResponseParser

/-- The transport delivers these pieces, and then the connection dies. -/
structure DiesAfter (t : Transport) (ps : List (List UInt8)) : Prop where
  delivers : ∀ i (h : i < ps.length), t.readSome i = .data (ps[i])
  dies : ∀ bytes, t.readSome ps.length ≠ .data bytes

/-- A receive loop whose parser is unfinished behind every read returns no
finished parser. -/
theorem iterate_of_unfinished {t : Transport} {ps : List (List UInt8)} (ht : DiesAfter t ps)
    (hps : ∀ m, Unfinished ((new true {}).feedAll (ps.take m)).1) (fuel : Nat) {m : Nat}
    (hm : m ≤ ps.length) {q : HttpResponseParser}
    (h : Loop.iterate (receivePass t) fuel (((new true {}).feedAll (ps.take m)).1, m) =
      some (.ok q)) : q.state ≠ .done := by
  induction fuel generalizing m with
  | zero => contradiction
  | succ fuel ih =>
      rw [Loop.iterate] at h
      obtain hlt | rfl := Nat.lt_or_eq_of_le hm
      · obtain ⟨-, hp⟩ | ⟨-, err, hp⟩ := receivePass_data (hps m).1 (ht.delivers m hlt)
        · have hnext : (((new true {}).feedAll (ps.take m)).1.feed (some (ps[m]))).1 =
              ((new true {}).feedAll (ps.take (m + 1))).1 := by
            rw [List.take_succ_eq_append_getElem hlt, feedAll_concat]
          rw [hp, hnext] at h
          exact ih hlt h
        · rw [hp] at h
          simp at h
      · obtain ⟨err, hp⟩ | hp := receivePass_no_data (hps ps.length).1 ht.dies
        · rw [hp] at h
          simp at h
        · rw [hp] at h
          have hq : (((new true {}).feedAll (ps.take ps.length)).1.feed none).1 = q := by
            simpa using h
          rw [← hq, feed_eof_of_unfinished (hps ps.length)]
          exact State.noConfusion

/-- **A truncated response is never taken for a complete one**, by the parser
or by the client. -/
theorem truncated_not_complete (allow : Bool) (limits : Limits) {r front : List UInt8}
    (hr : WellFormed r) (hfront : front <+: r) (hlt : front.length < r.length)
    {ps : List (List UInt8)} (hcut : Cut front ps) :
    ((new allow limits).feedAll ps).1.state ≠ .done ∧
      (((new allow limits).feedAll ps).1.feed none).1.state = .error ∧
      ∀ t : Transport, DiesAfter t ps → ∀ method pathWithQuery body fuel out,
        request t method pathWithQuery body fuel ≠ some (.ok out) := by
  have hpart : ∀ m, (ps.take m).flatten <+: r ∧ (ps.take m).flatten.length < r.length := by
    intro m
    have hpre : (ps.take m).flatten <+: front := by
      refine ⟨(ps.drop m).flatten, ?_⟩
      rw [← List.flatten_append, List.take_append_drop, hcut.flatten]
    exact ⟨hpre.trans hfront, Nat.lt_of_le_of_lt hpre.length_le hlt⟩
  have hwhole := hpart ps.length
  rw [List.take_length] at hwhole
  have hopen := unfinished_of_front allow limits hr hwhole.1 hwhole.2
  refine ⟨hopen.1, feed_eof_of_unfinished hopen, ?_⟩
  intro t ht method pathWithQuery body fuel out hreq
  have hparts : ∀ m, Unfinished ((new true {}).feedAll (ps.take m)).1 := fun m =>
    unfinished_of_front true {} hr (hpart m).1 (hpart m).2
  unfold request at hreq
  split at hreq
  · simp at hreq
  · split at hreq
    · simp at hreq
    · rw [Option.map_eq_some_iff] at hreq
      obtain ⟨res, hres, hok⟩ := hreq
      cases res with
      | error err => simp at hok
      | ok q =>
          have hq : q.state ≠ .done :=
            iterate_of_unfinished ht hparts fuel (Nat.zero_le _) hres
          have hd : ¬ q.done = true := by simpa [HttpResponseParser.done] using hq
          dsimp only at hok
          rw [if_pos hd] at hok
          contradiction

theorem helloResponse_selectsChunked : SelectsChunked helloResponse.lines := by
  constructor
  · decide
  · refine ⟨lit "Transfer-Encoding: chunked", List.mem_cons_self, by decide, fun colon hc => ?_⟩
    have hfind : find [58] (lit "Transfer-Encoding: chunked") = some 17 := by decide
    rw [hfind, Option.some.injEq] at hc
    subst hc
    decide

/-- A response that dies inside its trailers, whose last-chunk line came in a
feed of its own. -/
theorem truncated_not_complete_trailers :
    ((new true {}).feedAll
        [chunkedHead ++ lit "5\r\nhello\r\n0\r\n", lit "5\r\nworld\r\n0\r\n"]).1.state ≠ .done ∧
      (((new true {}).feedAll
        [chunkedHead ++ lit "5\r\nhello\r\n0\r\n",
          lit "5\r\nworld\r\n0\r\n"]).1.feed none).1.state = .error ∧
      ∀ t : Transport,
        DiesAfter t
          [chunkedHead ++ lit "5\r\nhello\r\n0\r\n", lit "5\r\nworld\r\n0\r\n"] →
        ∀ method pathWithQuery body fuel out,
          request t method pathWithQuery body fuel ≠ some (.ok out) :=
  truncated_not_complete true {} (.chunked helloResponse helloResponse_selectsChunked)
    (show chunkedHead ++ lit "5\r\nhello\r\n0\r\n5\r\nworld\r\n0\r\n" <+: _ by decide +kernel)
    (by decide +kernel) ⟨by decide +kernel, by decide +kernel⟩

end HttpClient

end ChaosForger
