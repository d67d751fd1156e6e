import ChaosForger.Http.Boundaries

/-!
# ChaosForger.Http.OneShot

The chunk decoder on bytes that come in one call.  It completes exactly when
the bytes start with a chunked body within the limits, whatever follows, and
then the body of the response is the payload (`oneShot_iff`); on the front of
such a body it waits, unless an unfinished line is above the line limit.

Forward the decoder is run over the parts of the body (`Decode`); backward
the rounds of a run that completes give the parts back
(`exists_body_of_complete`).
-/

namespace ChaosForger

open Search Libc Cuts

namespace HttpResponseParser

/-- The body is one the limits of a parser allow for. -/
structure ChunkedBody.Admissible (m : ChunkedBody) (limits : Limits) : Prop where
  short : ∀ l ∈ m.sizeLines, l.Short
  payload : (payload m.chunks).length ≤ limits.maxBodyBytes
  trailers : m.trailerSection.length ≤ limits.maxChunkLineBytes

/-- The decoder at the start of a chunked body. -/
structure AtStart (p : HttpResponseParser) : Prop where
  fresh : Fresh p
  buf : p.buf = []
  body : p.resp.body = []

/-! ## Backward -/

/-- A line that is read as a size is a size line. -/
theorem exists_sizeLine {line : List UInt8} {n : Nat} (hfree : CrlfFree line)
    (h : chunkSize line = some n) :
    ∃ l : SizeLine, l.text = line ∧ l.Short ∧ l.size = n := by
  unfold chunkSize at h
  generalize hk : (find [59] line).getD line.length = k at h
  dsimp only at h
  split at h
  · next hhex =>
      rw [Option.some.injEq] at h
      refine ⟨{
        digits := line.take k
        digits_ne := hhex.1
        digits_all := hhex.2.1
        ext := line.drop k
        ext_start := ?_
        ext_free := hfree.of_infix (List.drop_suffix k line).isInfix }, ?_, hhex.2.2, h⟩
      · cases hf : find [59] line with
        | none =>
            rw [hf, Option.getD_none] at hk
            left
            rw [← hk, List.drop_length]
        | some j =>
            rw [hf, Option.getD_some] at hk
            right
            obtain ⟨t, ht⟩ := (find_eq_some_iff.mp hf).2.1
            rw [← hk, ← ht]
            rfl
      · exact List.take_append_drop k line
  · contradiction

/-- A trailer loop that completes has gone over a trailer section. -/
theorem exists_trailers_of_complete {p q : HttpResponseParser} {tpos : Nat}
    (h : trailerLoop.run (p, tpos) = (q, .complete)) :
    ∃ ts rest, (∀ t ∈ ts, BlockLine t) ∧ p.buf.drop tpos = joinLines ts ++ crlf ++ rest ∧
      p.trailerBytes + (joinLines ts ++ crlf).length ≤ p.limits.maxChunkLineBytes := by
  generalize hs : (p, tpos) = s at h
  induction s using trailerLoop.induct generalizing p tpos with
  | again s s' hb ih =>
      subst hs
      rw [Loop.run_of_again hb] at h
      have hpass : trailerPass (p, tpos) = .again s' := hb
      obtain ⟨-, ⟨-, hp⟩ | ⟨msg, hp⟩⟩ | ⟨len, hf, ⟨-, msg, hp⟩ | ⟨hlim, ⟨-, hp⟩ | ⟨hpos, hp⟩⟩⟩ :=
        trailerPass_spec p tpos
      all_goals rw [hp] at hpass
      all_goals try contradiction
      rw [Pass.again.injEq] at hpass
      obtain ⟨ts, rest, hts, hdrop, hfit⟩ := ih hpass h
      have hle := find_add_length_le hf
      have heq := eq_append_of_find hf
      have hnext : (p.buf.drop tpos).drop (len + 2) = p.buf.drop (tpos + len + 2) := by
        rw [List.drop_drop, Nat.add_assoc]
      have hline : ((p.buf.drop tpos).take len).length = len := by
        rw [List.length_take]
        omega
      rw [length_crlf, hnext] at heq
      refine ⟨(p.buf.drop tpos).take len :: ts, rest, ?_, ?_, ?_⟩
      · intro t ht
        rw [List.mem_cons] at ht
        obtain rfl | ht := ht
        · refine ⟨?_, crlfFree_take_of_find hf⟩
          rw [ne_eq, ← List.length_eq_zero_iff, hline]
          omega
        · exact hts t ht
      · calc p.buf.drop tpos
            = (p.buf.drop tpos).take len ++ crlf ++ p.buf.drop (tpos + len + 2) := heq
          _ = joinLines ((p.buf.drop tpos).take len :: ts) ++ crlf ++ rest := by
            rw [joinLines_cons, List.append_assoc _ (joinLines ts), List.append_assoc _ _ rest,
              ← hdrop]
      · simp only [joinLines_cons, List.length_append, length_crlf, hline] at hfit ⊢
        omega
  | exit s r hb =>
      subst hs
      rw [Loop.run_of_exit hb] at h
      have hpass : trailerPass (p, tpos) = .exit r := hb
      subst h
      obtain ⟨-, ⟨-, hp⟩ | ⟨msg, hp⟩⟩ | ⟨len, hf, ⟨-, msg, hp⟩ | ⟨hlim, ⟨hzero, hp⟩ | ⟨-, hp⟩⟩⟩ :=
        trailerPass_spec p tpos
      all_goals rw [hp] at hpass
      · simp at hpass
      · simp [failExit] at hpass
      · simp [failExit] at hpass
      · subst hzero
        obtain ⟨rest, hrest⟩ := (find_eq_some_iff.mp hf).2.1
        exact ⟨[], rest, by simp, hrest.symm, hlim⟩
      · contradiction

/-- A round that goes on has received a chunk, provided no sum has wrapped. -/
theorem exists_chunk_of_again {p p' : HttpResponseParser} (hf : Fresh p)
    (hwrap : ∀ (c : Chunk) (rest : List UInt8), p.buf = c.text ++ rest → c.line.Short →
      c.data.length ≤ p.limits.maxBodyBytes →
      (p.resp.body.length + c.data.length) % 2 ^ 64 ≤ p.limits.maxBodyBytes →
      p.resp.body.length + c.data.length < 2 ^ 64)
    (h : p.chunkPass = .again p') :
    ∃ (c : Chunk) (rest : List UInt8), p.buf = c.text ++ rest ∧ p' = p.received c.data rest ∧
      c.line.Short ∧ p.resp.body.length + c.data.length ≤ p.limits.maxBodyBytes := by
  cases chunkRound_of_eq h with
  | nextChunk hq hle hcr =>
      cases hq with
      | started hst =>
          rw [hf.started] at hst
          contradiction
      | @sized eol size hst hfind hsize hpos hfit hsum =>
          obtain ⟨l, hltext, hlshort, hlsize⟩ := exists_sizeLine (crlfFree_take_of_find hfind) hsize
          have hline := eq_append_of_find hfind
          rw [length_crlf, ← hltext] at hline
          have hle' : size ≤ (p.buf.drop (eol + 2)).length := hle
          obtain ⟨rest, hrest⟩ : crlf <+: (p.buf.drop (eol + 2)).drop size := hcr
          have hnext : (p.buf.drop (eol + 2)).drop (size + 2) = rest := by
            rw [← List.drop_drop, ← hrest]
            rfl
          have hdata : ((p.buf.drop (eol + 2)).take size).length = size := by
            rw [List.length_take]
            omega
          let c : Chunk := {
            line := l
            data := (p.buf.drop (eol + 2)).take size
            data_ne := fun hnil => by
              rw [hnil, List.length_nil] at hdata
              omega
            size_eq := hlsize.trans hdata.symm }
          have hbuf : p.buf = c.text ++ rest := by
            simp only [c, Chunk.text, List.append_assoc]
            rw [hrest, List.take_append_drop, ← List.append_assoc]
            exact hline
          have hclen : c.data.length = size := hdata
          rw [← hclen] at hfit hsum
          refine ⟨c, rest, hbuf, ?_, hlshort, ?_⟩
          · simp only [c, received, absorb, startChunk, skipLine, hnext, Nat.sub_self]
            rw [← hf.started, ← hf.remaining]
          · rwa [Nat.mod_eq_of_lt (hwrap c rest hbuf hlshort hfit hsum)] at hsum

/-- **A run that completes has gone over a chunked body** within the limits. -/
theorem exists_body_of_complete {p q : HttpResponseParser} (hf : Fresh p)
    (hlen : p.resp.body.length + p.buf.length < 2 ^ 64)
    (hbody : p.resp.body.length ≤ p.limits.maxBodyBytes)
    (h : chunkLoop.run p = (q, .complete)) :
    ∃ m : ChunkedBody, m.text <+: p.buf ∧ (∀ l ∈ m.sizeLines, l.Short) ∧
      p.resp.body.length + (payload m.chunks).length ≤ p.limits.maxBodyBytes ∧
      m.trailerSection.length ≤ p.limits.maxChunkLineBytes := by
  induction p using chunkLoop.induct with
  | again p p' hb ih =>
      rw [Loop.run_of_again hb] at h
      have hchunk : ∀ (c : Chunk) (rest : List UInt8), p.buf = c.text ++ rest →
          c.data.length + rest.length + 2 ≤ p.buf.length := by
        intro c rest hbuf
        rw [hbuf]
        simp only [Chunk.text, List.length_append, length_crlf]
        omega
      -- the payload is in the buffer, so the sum has not wrapped
      obtain ⟨c, rest, hbuf, rfl, hshort, hgrow⟩ :=
        exists_chunk_of_again hf (fun c rest hbuf _ _ _ => by have := hchunk c rest hbuf; omega) hb
      have hbody' : (p.received c.data rest).resp.body.length =
          p.resp.body.length + c.data.length := List.length_append
      have hrest : (p.received c.data rest).buf = rest := rfl
      have hlens := hchunk c rest hbuf
      rw [hbody', hrest] at ih
      obtain ⟨m, ⟨tail, hm⟩, hshorts, hpay, htrail⟩ :=
        ih (hf.received c.data rest) (by omega) hgrow h
      refine ⟨{ m with chunks := c :: m.chunks }, ⟨tail, ?_⟩, ?_, ?_, htrail⟩
      · rw [hbuf, ← hm]
        simp only [ChunkedBody.text, ChunkedBody.lead, ChunkedBody.trailerSection,
          chunksText_cons, List.append_assoc]
      · intro l hl
        rw [ChunkedBody.sizeLines, List.map_cons, List.cons_append, List.mem_cons] at hl
        obtain rfl | hl := hl
        · exact hshort
        · exact hshorts l hl
      · rw [payload_cons, List.length_append, ← Nat.add_assoc]
        exact hpay
  | exit p r hb =>
      rw [Loop.run_of_exit hb] at h
      subst h
      obtain ⟨eol, -, hfind, hzero, hrun⟩ := lastChunk_of_complete hb
      obtain ⟨l, hltext, hlshort, hlsize⟩ := exists_sizeLine (crlfFree_take_of_find hfind) hzero
      obtain ⟨ts, rest, hts, hdrop, hlim⟩ := exists_trailers_of_complete hrun
      have heq := eq_append_of_find hfind
      have hskip : p.buf.drop (eol + 2) = joinLines ts ++ crlf ++ rest := hdrop
      have htrailers : 0 + (joinLines ts ++ crlf).length ≤ p.limits.maxChunkLineBytes := hlim
      rw [length_crlf, hskip, ← hltext] at heq
      rw [Nat.zero_add] at htrailers
      refine ⟨{ chunks := [], last := l, last_zero := hlsize, trailers := ts, trailers_ok := hts },
        ⟨rest, ?_⟩, ?_, ?_, htrailers⟩
      · rw [ChunkedBody.text, ChunkedBody.lead, ChunkedBody.trailerSection, chunksText_nil,
          List.nil_append, heq]
        simp only [List.append_assoc]
      · simpa [ChunkedBody.sizeLines] using hlshort
      · simp only [payload_nil, List.length_nil]
        omega

/-! ## Forward -/

/-- A run over a whole body completes with its payload. -/
theorem run_of_body {p : HttpResponseParser} (hf : Fresh p) {m : ChunkedBody} {rest : List UInt8}
    (hbuf : p.buf = m.text ++ rest) (hshort : ∀ l ∈ m.sizeLines, l.Short)
    (hpay : p.resp.body.length + (payload m.chunks).length ≤ p.limits.maxBodyBytes)
    (htrail : m.trailerSection.length ≤ p.limits.maxChunkLineBytes) :
    ∃ q, chunkLoop.run p = (q, .complete) ∧ q.resp.body = p.resp.body ++ payload m.chunks := by
  have hlead : p.buf = chunksText m.chunks ++ (m.last.text ++ crlf) ++ (m.trailerSection ++ rest) := by
    rw [hbuf, ChunkedBody.text, ChunkedBody.lead, List.append_assoc (_ ++ _)]
  obtain ⟨-, hrun⟩ | ⟨-, hlong⟩ := run_lead_or_failed hf m.last_zero hlead
  · have hstart : (p.received (payload m.chunks) (m.trailerSection ++ rest)).startTrailers.buf.drop 0
        = m.trailerSection ++ rest := rfl
    obtain ⟨n, hsection⟩ := trailerLoop_section m.trailers_ok hstart
      (show 0 + m.trailerSection.length ≤ _ by rwa [Nat.zero_add])
    exact ⟨_, hrun.trans hsection, rfl⟩
  · exact absurd ⟨hshort, hpay⟩ hlong

/-- What the front `y` of a chunked body leaves unfinished: the size line it
ends in, or the part of the trailer section it holds; inside a chunk nothing. -/
def pending : List Chunk → SizeLine → List UInt8 → List UInt8
  | [], last, y =>
      if y.length < (last.text ++ crlf).length then y else y.drop (last.text ++ crlf).length
  | c :: cs, last, y =>
      if y.length < (c.line.text ++ crlf).length then y
      else if y.length < c.text.length then []
      else pending cs last (y.drop c.text.length)

/-- A size line that has not ended is waited for within the line limit. -/
theorem state_of_open_line {p : HttpResponseParser} (hf : Fresh p) (l : SizeLine)
    (hy : p.buf <+: l.text ++ crlf) (hlt : p.buf.length < (l.text ++ crlf).length)
    (hpend : p.buf.length ≤ p.limits.maxChunkLineBytes) :
    (chunkLoop.run p).1.state = .bodyChunked := by
  rw [List.length_append, length_crlf] at hlt
  rw [(run_open_sizeLine hf.started l.crlfFree_text hy hlt).1 hpend]
  exact hf.state

/-- The front of a chunk within the body limit is waited for. -/
theorem state_of_open_chunk {p : HttpResponseParser} (hf : Fresh p) {c : Chunk}
    (hy : p.buf <+: c.text) (hlt : p.buf.length < c.text.length) (hshort : c.line.Short)
    (hpay : p.resp.body.length + c.data.length ≤ p.limits.maxBodyBytes)
    (hpend : p.buf.length < (c.line.text ++ crlf).length →
      p.buf.length ≤ p.limits.maxChunkLineBytes) :
    (chunkLoop.run p).1.state = .bodyChunked := by
  obtain ⟨hline, hopen⟩ | ⟨x, hx, -⟩ := prefix_append_cases hy
  · exact state_of_open_line hf c.line hline hopen (hpend hopen)
  · have hsize : chunkSize c.line.text = some c.data.length := by
      rw [c.line.chunkSize_text.1 hshort, c.size_eq]
    have hxlen : x.length < c.data.length + 2 := by
      rw [hx, Chunk.text] at hlt
      simp only [List.length_append, length_crlf] at hlt
      omega
    obtain hres | ⟨-, hbig⟩ := run_open_chunk hf.started c.line.crlfFree_text hsize
      (List.length_pos_of_ne_nil c.data_ne) hx hxlen
    · have hstate := run_state hf.state
      unfold ExitState at hstate
      obtain h | h | h := hres <;> rwa [h] at hstate
    · omega

/-- **The front of a body within the limits is waited for**, as long as what
it leaves unfinished is within the line limit. -/
theorem state_of_front {p : HttpResponseParser} (hf : Fresh p) {cs : List Chunk} {last : SizeLine}
    (hz : last.size = 0) {ts : List (List UInt8)} (hts : ∀ t ∈ ts, BlockLine t)
    (hshort : ∀ l ∈ cs.map Chunk.line ++ [last], l.Short)
    (hpay : p.resp.body.length + (payload cs).length ≤ p.limits.maxBodyBytes)
    (htrail : (joinLines ts ++ crlf).length ≤ p.limits.maxChunkLineBytes)
    (hy : p.buf <+: chunksText cs ++ (last.text ++ crlf) ++ (joinLines ts ++ crlf))
    (hlt : p.buf.length < (chunksText cs ++ (last.text ++ crlf) ++ (joinLines ts ++ crlf)).length)
    (hpend : (pending cs last p.buf).length ≤ p.limits.maxChunkLineBytes) :
    (chunkLoop.run p).1.state = .bodyChunked := by
  induction cs generalizing p with
  | nil =>
      rw [chunksText_nil, List.nil_append] at hy hlt
      rw [pending] at hpend
      obtain ⟨hline, hopen⟩ | ⟨x, hx, hxs⟩ := prefix_append_cases hy
      · rw [if_pos hopen] at hpend
        exact state_of_open_line hf last hline hopen hpend
      · have hsize : chunkSize last.text = some 0 := by
          rw [last.chunkSize_text.1 (hshort last (by simp)), hz]
        have hxlt : x.length < (joinLines ts ++ crlf).length := by
          rw [hx] at hlt
          simp only [List.length_append] at hlt ⊢
          omega
        obtain ⟨n, hopen⟩ := run_open_trailerSection (p := { p with buf := x }) hts hxs hxlt htrail
        rw [run_lastChunk hf.started hx last.crlfFree_text hsize, hopen]
        exact hf.state
  | cons c cs ih =>
      rw [chunksText_cons, List.append_assoc, List.append_assoc] at hy hlt
      rw [payload_cons, List.length_append] at hpay
      rw [pending] at hpend
      have hcs := hshort c.line (by simp)
      obtain ⟨hchunk, hopen⟩ | ⟨x, hx, hxs⟩ := prefix_append_cases hy
      · refine state_of_open_chunk hf hchunk hopen hcs (by omega) fun hline => ?_
        rwa [if_pos hline] at hpend
      · obtain ⟨-, hrun⟩ | ⟨-, hbig⟩ := run_chunk hf hx
        · have hlens : p.buf.length = c.text.length + x.length := by rw [hx, List.length_append]
          have hdrop : p.buf.drop c.text.length = x := by rw [hx, List.drop_left]
          have hline : (c.line.text ++ crlf).length ≤ c.text.length := by
            simp only [Chunk.text, List.length_append]
            omega
          rw [if_neg (by omega), if_neg (by omega), hdrop] at hpend
          rw [hrun]
          refine ih (hf.received c.data x) (fun l hl => hshort l (List.mem_cons_of_mem c.line hl)) ?_
            htrail ?_ ?_ hpend
          · show (p.resp.body ++ c.data).length + (payload cs).length ≤ p.limits.maxBodyBytes
            rw [List.length_append]
            omega
          · rwa [List.append_assoc]
          · rw [List.length_append, hlens] at hlt
            rw [List.append_assoc]
            exact Nat.lt_of_add_lt_add_left hlt
        · exact absurd ⟨hcs, by omega⟩ hbig

/-! ## One call -/

/-- **One-shot chunked decoding is exact.**  The length of a call's argument
is a `size_t`. -/
theorem oneShot_iff {p : HttpResponseParser} (hp : AtStart p) {b : List UInt8}
    (hb : b.length < 2 ^ 64) :
    ((p.feed (some b)).1.state = .done ↔
        ∃ m : ChunkedBody, m.Admissible p.limits ∧ m.text <+: b) ∧
      (∀ m : ChunkedBody, m.Admissible p.limits → m.text <+: b →
        (p.feed (some b)).1.resp.body = payload m.chunks) ∧
      ∀ m : ChunkedBody, m.Admissible p.limits → b <+: m.text → b.length < m.text.length →
        (pending m.chunks m.last b).length ≤ p.limits.maxChunkLineBytes →
        (p.feed (some b)).1.state ≠ .done ∧ (p.feed (some b)).1.state ≠ .error := by
  have hf := hp.fresh.push b
  have hbuf : (p.push b).buf = b := by rw [push_buf, hp.buf, List.nil_append]
  have hbody : (p.push b).resp.body = [] := hp.body
  have hzero : (p.push b).resp.body.length = 0 := by rw [hbody, List.length_nil]
  have hforward : ∀ m : ChunkedBody, m.Admissible p.limits → m.text <+: b →
      ∃ q, chunkLoop.run (p.push b) = (q, .complete) ∧ q.resp.body = payload m.chunks := by
    rintro m hm ⟨rest, hrest⟩
    obtain ⟨q, hrun, hq⟩ := run_of_body hf (hbuf.trans hrest.symm) hm.short
      (by rw [hzero, Nat.zero_add]; exact hm.payload) hm.trailers
    rw [hbody, List.nil_append] at hq
    exact ⟨q, hrun, hq⟩
  have hstate := run_state hf.state
  rw [feed_chunked hp.fresh.state]
  refine ⟨⟨fun hdone => ?_, ?_⟩, ?_, ?_⟩
  · have hexit : (chunkLoop.run (p.push b)).2 = .complete := by
      unfold ExitState at hstate
      split at hstate
      · rw [hstate] at hdone
        contradiction
      · assumption
      · rw [hstate] at hdone
        contradiction
    obtain ⟨m, hm, hshort, hpay, htrail⟩ := exists_body_of_complete hf
      (by rw [hzero, hbuf]; omega) (by rw [hzero]; exact Nat.zero_le _) (Prod.ext rfl hexit)
    rw [hzero, Nat.zero_add] at hpay
    rw [hbuf] at hm
    exact ⟨m, ⟨hshort, hpay, htrail⟩, hm⟩
  · rintro ⟨m, hm, hfront⟩
    obtain ⟨q, hrun, -⟩ := hforward m hm hfront
    rw [hrun] at hstate ⊢
    exact hstate
  · intro m hm hfront
    obtain ⟨q, hrun, hq⟩ := hforward m hm hfront
    rw [hrun]
    exact hq
  · intro m hm hfront hlt hpend
    have hopen := state_of_front hf m.last_zero m.trailers_ok hm.short
      (by rw [hzero, Nat.zero_add]; exact hm.payload) hm.trailers (by rw [hbuf]; exact hfront)
      (by rw [hbuf]; exact hlt) (by rw [hbuf]; exact hpend)
    rw [hopen]
    exact ⟨State.noConfusion, State.noConfusion⟩

/-- The parser behind the header block of `chunkedHead`. -/
def chunkedStart : HttpResponseParser :=
  atBody true HttpClient.parser.limits { status := 200, reason := lit "OK", framing := .chunked, length := 0 } []

/-- A body with an extension and a trailer, and bytes behind it. -/
def surplusBody : List UInt8 := lit "2;x\r\nhi\r\n0\r\nA: b\r\n\r\nrest"

theorem oneShot_iff_surplus :
    ((chunkedStart.feed (some surplusBody)).1.state = .done ↔
        ∃ m : ChunkedBody, m.Admissible chunkedStart.limits ∧ m.text <+: surplusBody) ∧
      (∀ m : ChunkedBody, m.Admissible chunkedStart.limits → m.text <+: surplusBody →
        (chunkedStart.feed (some surplusBody)).1.resp.body = payload m.chunks) ∧
      ∀ m : ChunkedBody, m.Admissible chunkedStart.limits → surplusBody <+: m.text →
        surplusBody.length < m.text.length →
        (pending m.chunks m.last surplusBody).length ≤ chunkedStart.limits.maxChunkLineBytes →
        (chunkedStart.feed (some surplusBody)).1.state ≠ .done ∧
          (chunkedStart.feed (some surplusBody)).1.state ≠ .error :=
  oneShot_iff ⟨⟨rfl, rfl, rfl⟩, rfl, rfl⟩ (by decide)

end HttpResponseParser

end ChaosForger
