import ChaosForger.Cuts
import ChaosForger.Http.Message

/-!
# ChaosForger.Http.Decode

The chunk decoder on well-formed bodies.  With only the front of a body in
the buffer it waits (`run_open`), with everything up to the last-chunk line
it hands over to the trailer loop (`run_lead`), and there it completes when
the section is whole and waits when it is not (`run_trailerSection`).  Where
the decoder can fail on well-formed input the lemmas say on which.
-/

namespace ChaosForger

open Search Libc Cuts

namespace HttpResponseParser

/-- The decoder in front of a chunk-size line. -/
structure Fresh (p : HttpResponseParser) : Prop where
  state : p.state = .bodyChunked
  started : p.chunkStarted = false
  remaining : p.chunkRemaining = 0

/-- The parser with some payload received and `rest` buffered. -/
def received (p : HttpResponseParser) (data rest : List UInt8) : HttpResponseParser :=
  { p with buf := rest, resp.body := p.resp.body ++ data }

theorem Fresh.received {p : HttpResponseParser} (h : Fresh p) (data rest : List UInt8) :
    Fresh (p.received data rest) :=
  ⟨h.state, h.started, h.remaining⟩

theorem Fresh.push {p : HttpResponseParser} (h : Fresh p) (d : List UInt8) : Fresh (p.push d) :=
  ⟨h.state, h.started, h.remaining⟩

theorem received_received (p : HttpResponseParser) (a b r s : List UInt8) :
    (p.received a r).received b s = p.received (a ++ b) s := by
  simp [received]

/-- Chunks and a last-chunk line within the limits of a parser. -/
structure Fits (p : HttpResponseParser) (cs : List Chunk) (last : SizeLine) : Prop where
  short : ∀ l ∈ cs.map Chunk.line ++ [last], l.Short
  lines : ∀ l ∈ cs.map Chunk.line ++ [last], l.text.length ≤ p.limits.maxChunkLineBytes
  payload : p.resp.body.length + (payload cs).length ≤ p.limits.maxBodyBytes

theorem Fits.tail {p : HttpResponseParser} {c : Chunk} {cs : List Chunk} {last : SizeLine}
    (h : Fits p (c :: cs) last) (rest : List UInt8) : Fits (p.received c.data rest) cs last := by
  constructor
  · exact fun l hl => h.short l (List.mem_cons_of_mem c.line hl)
  · exact fun l hl => h.lines l (List.mem_cons_of_mem c.line hl)
  · have := h.payload
    simp only [payload_cons, List.length_append, received] at this ⊢
    omega

theorem Fits.head {p : HttpResponseParser} {c : Chunk} {cs : List Chunk} {last : SizeLine}
    (h : Fits p (c :: cs) last) : c.line.Short ∧
      c.line.text.length ≤ p.limits.maxChunkLineBytes ∧
      p.resp.body.length + c.data.length ≤ p.limits.maxBodyBytes := by
  have hmem : c.line ∈ (c :: cs).map Chunk.line ++ [last] := by simp
  refine ⟨h.short _ hmem, h.lines _ hmem, ?_⟩
  have := h.payload
  simp only [payload_cons, List.length_append] at this
  omega

/-! ## One chunk -/

section Runs

variable {p : HttpResponseParser} {cs : List Chunk} {last : SizeLine}

/-- A whole chunk is received, unless its size is too long or above the limit. -/
theorem run_chunk {c : Chunk} {rest : List UInt8} (hf : Fresh p) (hbuf : p.buf = c.text ++ rest) :
    (c.line.Short ∧ chunkLoop.run p = chunkLoop.run (p.received c.data rest)) ∨
      ((chunkLoop.run p).2 = .failed ∧ ¬ (c.line.Short ∧
        p.resp.body.length + c.data.length ≤ p.limits.maxBodyBytes)) := by
  have hbuf' : p.buf = c.line.text ++ crlf ++ (c.data ++ crlf ++ rest) := by
    rw [hbuf, Chunk.text, List.append_assoc]
  by_cases hshort : c.line.Short
  · have hsize : chunkSize c.line.text = some c.data.length := by
      rw [c.line.chunkSize_text.1 hshort, c.size_eq]
    have hpos : 0 < c.data.length := List.length_pos_of_ne_nil c.data_ne
    obtain hpass | ⟨hfail, hbig⟩ :=
      chunkPass_chunk hf.started hbuf' c.line.crlfFree_text hsize hpos
    · have hnext : ({ p with
          buf := rest
          resp.body := p.resp.body ++ c.data
          chunkStarted := false
          chunkRemaining := 0 } : HttpResponseParser) = p.received c.data rest := by
        rw [received, ← hf.started, ← hf.remaining]
      rw [hnext] at hpass
      exact .inl ⟨hshort, chunkLoop_again hpass⟩
    · exact .inr ⟨hfail, fun h => by omega⟩
  · have hfail := run_bad_sizeLine hf.started c.line.crlfFree_text hbuf'
      (c.line.chunkSize_text.2 hshort)
    exact .inr ⟨hfail, fun h => hshort h.1⟩

/-- The bytes end between the CR and the LF of a size line that is as long as
the limit allows. -/
def SplitsBreak (limit : Nat) (l : SizeLine) (y : List UInt8) : Prop :=
  l.text.length = limit ∧ y = l.text ++ [13]

/-- The front of a size line is waited for; the decoder counts the CR of its
break against the limit. -/
theorem run_open_line {l : SizeLine} (hf : Fresh p) (hy : p.buf <+: l.text ++ crlf)
    (hlt : p.buf.length < (l.text ++ crlf).length) :
    ((chunkLoop.run p).2.Resumable ∧ ¬ SplitsBreak p.limits.maxChunkLineBytes l p.buf) ∨
      ((chunkLoop.run p).2 = .failed ∧ (SplitsBreak p.limits.maxChunkLineBytes l p.buf ∨
        ¬ l.text.length ≤ p.limits.maxChunkLineBytes)) := by
  rw [List.length_append, length_crlf] at hlt
  obtain ⟨hwait, hfail⟩ := run_open_sizeLine hf.started l.crlfFree_text hy hlt
  by_cases hlen : p.buf.length ≤ p.limits.maxChunkLineBytes
  · left
    rw [hwait hlen]
    refine ⟨.inl rfl, fun hcut => ?_⟩
    have := congrArg List.length hcut.2
    rw [List.length_append, hcut.1] at this
    simp at this
    omega
  · right
    refine ⟨hfail (Nat.lt_of_not_le hlen), ?_⟩
    by_cases hline : l.text.length ≤ p.limits.maxChunkLineBytes
    · left
      refine ⟨by omega, ?_⟩
      have hcr : l.text ++ [13] <+: l.text ++ crlf := ⟨[10], by simp [crlf]⟩
      have heq : p.buf.length = (l.text ++ [13]).length := by
        rw [List.length_append, List.length_singleton]
        omega
      exact (List.prefix_of_prefix_length_le hy hcr (by omega)).eq_of_length heq
    · exact .inr hline

/-- The front of a chunk is waited for. -/
theorem run_open_chunk_text {c : Chunk} (hf : Fresh p) (hy : p.buf <+: c.text)
    (hlt : p.buf.length < c.text.length) :
    ((chunkLoop.run p).2.Resumable ∧ ¬ SplitsBreak p.limits.maxChunkLineBytes c.line p.buf) ∨
      ((chunkLoop.run p).2 = .failed ∧ (SplitsBreak p.limits.maxChunkLineBytes c.line p.buf ∨
        ¬ (c.line.Short ∧ c.line.text.length ≤ p.limits.maxChunkLineBytes ∧
          p.resp.body.length + c.data.length ≤ p.limits.maxBodyBytes))) := by
  obtain ⟨hline, hshorter⟩ | ⟨x, hx, hx'⟩ := prefix_append_cases hy
  · obtain hwait | ⟨hfail, hcut | hlong⟩ := run_open_line hf hline hshorter
    · exact .inl hwait
    · exact .inr ⟨hfail, .inl hcut⟩
    · exact .inr ⟨hfail, .inr fun h => hlong h.2.1⟩
  · have hxlen : x.length < c.data.length + 2 := by
      rw [hx, Chunk.text] at hlt
      simp only [List.length_append, length_crlf] at hlt
      omega
    have hnot : ¬ SplitsBreak p.limits.maxChunkLineBytes c.line p.buf := by
      intro hcut
      have := congrArg List.length (hcut.2.symm.trans hx)
      simp only [List.length_append, List.length_singleton, length_crlf] at this
      omega
    by_cases hshort : c.line.Short
    · have hsize : chunkSize c.line.text = some c.data.length := by
        rw [c.line.chunkSize_text.1 hshort, c.size_eq]
      obtain hwait | ⟨hfail, hbig⟩ := run_open_chunk hf.started c.line.crlfFree_text hsize
        (List.length_pos_of_ne_nil c.data_ne) hx hxlen
      · exact .inl ⟨hwait, hnot⟩
      · exact .inr ⟨hfail, .inr fun h => by omega⟩
    · have hfail := run_bad_sizeLine hf.started c.line.crlfFree_text hx
        (c.line.chunkSize_text.2 hshort)
      exact .inr ⟨hfail, .inr fun h => hshort h.1⟩

/-! ## Up to the last chunk -/

/-- The bytes end inside the break of some size line as long as the limit allows. -/
def Overlong (limit : Nat) : List Chunk → SizeLine → List UInt8 → Prop
  | [], last, y => SplitsBreak limit last y
  | c :: cs, last, y =>
      SplitsBreak limit c.line y ∨ ∃ y', y = c.text ++ y' ∧ Overlong limit cs last y'

/-- **The front of a body up to the last-chunk line is waited for**; within
the limits the decoder fails exactly inside the break of an overlong line. -/
theorem run_open (cs : List Chunk) (last : SizeLine) (hf : Fresh p)
    (hy : p.buf <+: chunksText cs ++ (last.text ++ crlf))
    (hlt : p.buf.length < (chunksText cs ++ (last.text ++ crlf)).length) :
    ((chunkLoop.run p).2.Resumable ∧ ¬ Overlong p.limits.maxChunkLineBytes cs last p.buf) ∨
      ((chunkLoop.run p).2 = .failed ∧
        (Overlong p.limits.maxChunkLineBytes cs last p.buf ∨ ¬ Fits p cs last)) := by
  induction cs generalizing p with
  | nil =>
      rw [chunksText_nil, List.nil_append] at hy hlt
      obtain hwait | ⟨hfail, hcut | hlong⟩ := run_open_line hf hy hlt
      · exact .inl hwait
      · exact .inr ⟨hfail, .inl hcut⟩
      · exact .inr ⟨hfail, .inr fun h => hlong (h.lines last (by simp))⟩
  | cons c cs ih =>
      rw [chunksText_cons, List.append_assoc] at hy hlt
      obtain ⟨hchunk, hshorter⟩ | ⟨y', hy', hrest⟩ := prefix_append_cases hy
      · obtain ⟨hwait, hcut⟩ | ⟨hfail, hcut | hlong⟩ := run_open_chunk_text hf hchunk hshorter
        · refine .inl ⟨hwait, ?_⟩
          rintro (h | ⟨y', hy', -⟩)
          · exact hcut h
          · rw [hy', List.length_append] at hshorter
            omega
        · exact .inr ⟨hfail, .inl (.inl hcut)⟩
        · exact .inr ⟨hfail, .inr fun h => hlong h.head⟩
      · have hcut : ∀ y, p.buf = c.text ++ y →
            (Overlong p.limits.maxChunkLineBytes (c :: cs) last p.buf ↔
              Overlong p.limits.maxChunkLineBytes cs last y) := by
          intro y hbuf
          constructor
          · rintro (h | ⟨z, hz, h⟩)
            · have := congrArg List.length (h.2.symm.trans hbuf)
              simp only [Chunk.text, List.length_append, List.length_singleton,
                length_crlf] at this
              omega
            · rw [hbuf, List.append_cancel_left_eq] at hz
              rwa [hz]
          · exact fun h => .inr ⟨y, hbuf, h⟩
        rw [hcut y' hy']
        obtain ⟨-, hrun⟩ | ⟨hfail, hbig⟩ := run_chunk hf hy'
        · rw [hrun]
          have hlt' : y'.length < (chunksText cs ++ (last.text ++ crlf)).length := by
            rw [hy'] at hlt
            simp only [List.length_append] at hlt ⊢
            omega
          obtain hwait | ⟨hfail, hover | hlong⟩ := ih (hf.received c.data y') hrest hlt'
          · exact .inl hwait
          · exact .inr ⟨hfail, .inl hover⟩
          · exact .inr ⟨hfail, .inr fun h => hlong (h.tail y')⟩
        · exact .inr ⟨hfail, .inr fun h => hbig ⟨h.head.1, h.head.2.2⟩⟩

/-- Everything up to the last-chunk line is received, or the decoder fails at a
size that is too long or above the body limit. -/
theorem run_lead_or_failed {x : List UInt8} (hf : Fresh p) (hz : last.size = 0)
    (hbuf : p.buf = chunksText cs ++ (last.text ++ crlf) ++ x) :
    ((∀ l ∈ cs.map Chunk.line ++ [last], l.Short) ∧
        chunkLoop.run p = trailerLoop.run ((p.received (payload cs) x).startTrailers, 0)) ∨
      ((chunkLoop.run p).2 = .failed ∧ ¬ ((∀ l ∈ cs.map Chunk.line ++ [last], l.Short) ∧
        p.resp.body.length + (payload cs).length ≤ p.limits.maxBodyBytes)) := by
  induction cs generalizing p with
  | nil =>
      rw [chunksText_nil, List.nil_append] at hbuf
      have hbuf' : p.buf = last.text ++ crlf ++ x := hbuf
      by_cases hshort : last.Short
      · have hsize : chunkSize last.text = some 0 := by
          rw [last.chunkSize_text.1 hshort, hz]
        have hrun := run_lastChunk hf.started hbuf' last.crlfFree_text hsize
        have hrec : ({ p with buf := x } : HttpResponseParser) = p.received (payload []) x := by
          simp [received]
        rw [hrec] at hrun
        exact .inl ⟨by simpa using hshort, hrun⟩
      · have hfail := run_bad_sizeLine hf.started last.crlfFree_text hbuf'
          (last.chunkSize_text.2 hshort)
        exact .inr ⟨hfail, fun h => hshort (h.1 last (by simp))⟩
  | cons c cs ih =>
      have hbuf' : p.buf = c.text ++ (chunksText cs ++ (last.text ++ crlf) ++ x) := by
        simp only [hbuf, chunksText_cons, List.append_assoc]
      obtain ⟨hshort, hrun⟩ | ⟨hfail, hbig⟩ := run_chunk hf hbuf'
      · rw [hrun]
        obtain ⟨hall, hnext⟩ | ⟨hfail, hlong⟩ := ih (hf.received c.data _) rfl
        · left
          constructor
          · intro l hl
            rw [List.map_cons, List.cons_append, List.mem_cons] at hl
            obtain rfl | hl := hl
            · exact hshort
            · exact hall l hl
          · rw [hnext, received_received, payload_cons]
        · refine .inr ⟨hfail, fun h => hlong ⟨fun l hl => h.1 l (List.mem_cons_of_mem c.line hl), ?_⟩⟩
          have hlen := h.2
          simp only [payload_cons, List.length_append, received] at hlen ⊢
          omega
      · refine .inr ⟨hfail, fun h => hbig ⟨h.1 c.line (by simp), ?_⟩⟩
        have hlen := h.2
        rw [payload_cons, List.length_append] at hlen
        omega

/-- **Everything up to the last-chunk line** is received and followed by the
trailer loop. -/
theorem run_lead {x : List UInt8} (hf : Fresh p) (hz : last.size = 0)
    (hbuf : p.buf = chunksText cs ++ (last.text ++ crlf) ++ x) :
    ((∀ l ∈ cs.map Chunk.line ++ [last], l.Short) ∧
        chunkLoop.run p = trailerLoop.run ((p.received (payload cs) x).startTrailers, 0)) ∨
      ((chunkLoop.run p).2 = .failed ∧ ¬ Fits p cs last) := by
  obtain hlead | ⟨hfail, hlong⟩ := run_lead_or_failed hf hz hbuf
  · exact .inl hlead
  · exact .inr ⟨hfail, fun h => hlong ⟨h.short, h.payload⟩⟩

end Runs

/-! ## The trailer section -/

section Trailers

variable {p : HttpResponseParser} {ts : List (List UInt8)} (hts : ∀ t ∈ ts, BlockLine t)
include hts

/-- A whole section completes the response. -/
theorem run_trailerSection (hbuf : p.buf = joinLines ts ++ crlf)
    (hlim : (joinLines ts ++ crlf).length ≤ p.limits.maxChunkLineBytes) :
    ∃ n, trailerLoop.run (p.startTrailers, 0) =
      ({ p with trailerBytes := n, chunkTrailerDone := true, buf := [], state := .done },
        .complete) := by
  have hdrop : p.startTrailers.buf.drop 0 = joinLines ts ++ crlf ++ [] := by
    rw [List.append_nil]
    exact hbuf
  have hlim' : p.startTrailers.trailerBytes + (joinLines ts ++ crlf).length ≤
      p.startTrailers.limits.maxChunkLineBytes := by
    show 0 + _ ≤ _
    rw [Nat.zero_add]
    exact hlim
  exact trailerLoop_section hts hdrop hlim'

/-- The front of a section is waited for, and stays in the buffer. -/
theorem run_open_trailerSection (hx : p.buf <+: joinLines ts ++ crlf)
    (hlt : p.buf.length < (joinLines ts ++ crlf).length)
    (hlim : (joinLines ts ++ crlf).length ≤ p.limits.maxChunkLineBytes) :
    ∃ n, trailerLoop.run (p.startTrailers, 0) =
      ({ p with trailerBytes := n, chunkTrailerDone := false }, .needTrailers) := by
  have hlim' : p.startTrailers.trailerBytes + (joinLines ts ++ crlf).length ≤
      p.startTrailers.limits.maxChunkLineBytes := by
    show 0 + _ ≤ _
    rw [Nat.zero_add]
    exact hlim
  have hbuf : p.startTrailers.buf.length ≤ p.startTrailers.limits.maxChunkLineBytes := by
    show p.buf.length ≤ p.limits.maxChunkLineBytes
    omega
  exact trailerLoop_open hts (show p.startTrailers.buf.drop 0 <+: _ from hx) hlt hlim' hbuf

/-- Whatever the limits, the front of a section completes nothing. -/
theorem not_complete_of_open_trailerSection (hx : p.buf <+: joinLines ts ++ crlf)
    (hlt : p.buf.length < (joinLines ts ++ crlf).length) :
    (trailerLoop.run (p.startTrailers, 0)).2 ≠ .complete := by
  have hbuf : p.startTrailers.buf = p.buf := rfl
  obtain ⟨n, ⟨h, -⟩ | ⟨msg, h⟩ | ⟨k, h, hcr, hk⟩⟩ := trailerLoop_exit p.startTrailers 0
  · simp [h]
  · simp [h, failExit]
  · exfalso
    rw [hbuf] at hcr hk
    have hnone := find_blankLine_of_prefix_section hts hx hlt
    obtain rfl | ⟨hk2, hprev⟩ := hk
    · rw [List.drop_zero] at hcr
      cases ts with
      | nil =>
          have := hcr.length_le
          rw [length_crlf] at this
          rw [joinLines_nil, List.nil_append, length_crlf] at hlt
          omega
      | cons t ts =>
          have hfront := (hts t List.mem_cons_self).not_crlf_front (joinLines ts ++ crlf)
          rw [joinLines_cons, List.append_assoc] at hx
          exact hfront (hcr.trans hx)
    · -- two breaks in a row
      obtain ⟨r, hr⟩ := hcr
      obtain ⟨r', hr'⟩ := hprev
      have htail : p.buf.drop k = r' := by
        have hadd : k = k - 2 + 2 := by omega
        rw [hadd, ← List.drop_drop, ← hr']
        rfl
      refine find_eq_none_iff.mp hnone ⟨p.buf.take (k - 2), r, ?_⟩
      rw [blankLine, List.append_assoc, List.append_assoc, hr, htail, hr', List.take_append_drop]

end Trailers

end HttpResponseParser

end ChaosForger
