import ChaosForger.Http.OneShot
import ChaosForger.Http.Progress

/-!
# ChaosForger.Http.TrailerCuts

What keeps the parser alive, said of the bytes and of the places where the
feeds cut them.  A feed that brings the last-chunk line, but not the whole
trailer section behind it, leaves the decoder in front of that section as in
front of a new chunk (`Unread.cut`).  A stream of feeds ends the parser exactly
when only finitely many of its feeds do so (`ends_iff_trailerCuts`), and it
may be that all of them do (`not_ends_within_bound`).

* **the wire** — chunks, last-chunk lines, open trailer sections and the bytes
  in front of the decoder, without a word about the parser;
* **one call** — how the decoder takes each of these;
* **runs** — the parser follows the wire, and so its potential bounds the
  feeds between two that end in the trailers.
-/

namespace ChaosForger

open Search Libc Cuts Machine

namespace HttpResponseParser

/-! ## The wire -/

/-- The bytes `y` hold chunks and the last-chunk line, within the limits when
`n` bytes of payload came before, and then `rest`. -/
structure LastChunk (limits : Limits) (n : Nat) (y : List UInt8) (cs : List Chunk)
    (last : SizeLine) (rest : List UInt8) : Prop where
  text : y = chunksText cs ++ (last.text ++ crlf) ++ rest
  last_zero : last.size = 0
  short : ∀ l ∈ cs.map Chunk.line ++ [last], l.Short
  payload : n + (payload cs).length ≤ limits.maxBodyBytes

/-- Less than a whole trailer section, within the limit. -/
def TrailersOpen (limits : Limits) (rest : List UInt8) : Prop :=
  rest.length ≤ limits.maxChunkLineBytes ∧
    ∀ ts : List (List UInt8), (∀ t ∈ ts, BlockLine t) → ¬ joinLines ts ++ crlf <+: rest

/-- The bytes end in an open line that is above the limit. -/
def LineOverlong (limits : Limits) (y : List UInt8) : Prop :=
  ∃ (cs : List Chunk) (line : List UInt8), y = chunksText cs ++ line ∧ CrlfFree line ∧
    limits.maxChunkLineBytes < line.length

/-- What the feeds have put in front of the chunk decoder: `y`, behind `n`
bytes of payload. -/
inductive Unread (limits : Limits) : List (List UInt8) → Nat → List UInt8 → Prop where
  /-- the head of a chunked response, and what the same feed brings behind it -/
  | head {pre : List (List UInt8)} {d : List UInt8} {e : Nat} {i : HeadInfo} :
      find blankLine pre.flatten = none → find blankLine (pre.flatten ++ d) = some e →
      (pre.flatten ++ d).length ≤ limits.maxHeaderBytes →
      headInfo limits (pre.flatten ++ d) e = some i → i.framing = .chunked →
      Unread limits (pre ++ [d]) 0 ((pre.flatten ++ d).drop (e + 4))
  /-- without a last-chunk line the next feed adds to what is there -/
  | wait {fs : List (List UInt8)} {n : Nat} {y d : List UInt8} : Unread limits fs n y →
      (∀ cs last rest, ¬ LastChunk limits n y cs last rest) → ¬ LineOverlong limits y →
      Unread limits (fs ++ [d]) n (y ++ d)
  /-- a last-chunk line whose section is cut is forgotten -/
  | cut {fs : List (List UInt8)} {n : Nat} {y d rest : List UInt8} {cs : List Chunk}
      {last : SizeLine} : Unread limits fs n y → LastChunk limits n y cs last rest →
      TrailersOpen limits rest → Unread limits (fs ++ [d]) (n + (payload cs).length) (rest ++ d)

/-- The last of the feeds ends inside a trailer section. -/
def EndsInTrailers (limits : Limits) (feeds : List (List UInt8)) : Prop :=
  ∃ n y cs last rest, Unread limits feeds n y ∧ LastChunk limits n y cs last rest ∧
    TrailersOpen limits rest

open Classical in
/-- How many of the feeds end inside a trailer section. -/
noncomputable def trailerCuts (limits : Limits) (feeds : List (List UInt8)) : Nat :=
  feeds.inits.countP fun fs => EndsInTrailers limits fs

/-- No size line is within the limits only because its sum wraps at 64 bits. -/
def NoWrap (limits : Limits) (n : Nat) (y : List UInt8) : Prop :=
  ∀ (cs : List Chunk) (l : SizeLine) (rest : List UInt8),
    y = chunksText cs ++ (l.text ++ crlf) ++ rest → (∀ c ∈ cs, c.line.Short) →
    n + (payload cs).length ≤ limits.maxBodyBytes → l.Short → l.size ≤ limits.maxBodyBytes →
    (n + (payload cs).length + l.size) % 2 ^ 64 ≤ limits.maxBodyBytes →
    n + (payload cs).length + l.size < 2 ^ 64

/-- No feed brings a size line whose sum wraps. -/
def Unwrapped (limits : Limits) (feeds : List (List UInt8)) : Prop :=
  ∀ fs n y, fs <+: feeds → Unread limits fs n y → NoWrap limits n y

section Wire

variable {limits : Limits} {n : Nat} {y : List UInt8}

theorem noWrap_of_lt (hlim : limits.maxBodyBytes < 2 ^ 63) : NoWrap limits n y := by
  intro cs l rest _ _ hpay _ hsize _
  omega

theorem NoWrap.tail {c : Chunk} {rest : List UInt8} (h : NoWrap limits n (c.text ++ rest))
    (hshort : c.line.Short) : NoWrap limits (n + c.data.length) rest := by
  intro cs l tail htext hcs hpay hl hsize hsum
  have h' := h (c :: cs) l tail
  rw [payload_cons, List.length_append, ← Nat.add_assoc, chunksText_cons] at h'
  refine h' ?_ ?_ hpay hl hsize hsum
  · rw [htext]
    simp only [List.append_assoc]
  · intro c' hc'
    rw [List.mem_cons] at hc'
    obtain rfl | hc' := hc'
    · exact hshort
    · exact hcs c' hc'

/-- The sum of a chunk that is there has not wrapped. -/
theorem NoWrap.chunk {c : Chunk} {rest : List UInt8} (h : NoWrap limits n y)
    (hn : n ≤ limits.maxBodyBytes) (hy : y = c.text ++ rest) (hshort : c.line.Short)
    (hsize : c.data.length ≤ limits.maxBodyBytes)
    (hsum : (n + c.data.length) % 2 ^ 64 ≤ limits.maxBodyBytes) : n + c.data.length < 2 ^ 64 := by
  have h' := h [] c.line (c.data ++ crlf ++ rest)
  rw [payload_nil, List.length_nil, Nat.add_zero, c.size_eq] at h'
  refine h' ?_ (by simp) hn hshort hsize hsum
  rw [hy, Chunk.text, chunksText_nil, List.nil_append, List.append_assoc (_ ++ _)]

theorem unwrapped_of_lt (hlim : limits.maxBodyBytes < 2 ^ 63) (feeds : List (List UInt8)) :
    Unwrapped limits feeds := fun _ _ _ _ _ => noWrap_of_lt hlim

theorem Unwrapped.of_prefix {fs feeds : List (List UInt8)} (h : Unwrapped limits feeds)
    (hp : fs <+: feeds) : Unwrapped limits fs := fun gs n y hgs => h gs n y (hgs.trans hp)

/-- A chunk in front of a last-chunk line. -/
theorem LastChunk.cons {c : Chunk} {cs : List Chunk} {last : SizeLine} {rest : List UInt8}
    (h : LastChunk limits (n + c.data.length) y cs last rest) (hshort : c.line.Short) :
    LastChunk limits n (c.text ++ y) (c :: cs) last rest := by
  constructor
  · rw [h.text, chunksText_cons]
    simp only [List.append_assoc]
  · exact h.last_zero
  · intro l hl
    rw [List.map_cons, List.cons_append, List.mem_cons] at hl
    obtain rfl | hl := hl
    · exact hshort
    · exact h.short l hl
  · rw [payload_cons, List.length_append, ← Nat.add_assoc]
    exact h.payload

/-- A chunk in front of an overlong line. -/
theorem LineOverlong.cons {c : Chunk} (h : LineOverlong limits y) :
    LineOverlong limits (c.text ++ y) := by
  obtain ⟨cs, line, rfl, hfree, hlong⟩ := h
  exact ⟨c :: cs, line, by rw [chunksText_cons, List.append_assoc], hfree, hlong⟩

/-- An open size line is within the limit, unless it is overlong. -/
theorem length_le_of_open {l : SizeLine} (hline : ¬ LineOverlong limits y)
    (hy : y <+: l.text ++ crlf) (hlt : y.length < (l.text ++ crlf).length) :
    y.length ≤ limits.maxChunkLineBytes := by
  rw [List.length_append, length_crlf] at hlt
  have hfree := find_crlf_eq_none_iff.mp (find_crlf_of_prefix_line l.crlfFree_text hy hlt)
  by_contra hlong
  exact hline ⟨[], y, rfl, hfree, Nat.lt_of_not_le hlong⟩

theorem not_unread_nil : ¬ Unread limits [] n y := by
  intro h
  generalize hfs : ([] : List (List UInt8)) = fs at h
  cases h <;> simp at hfs

theorem trailerCuts_nil (limits : Limits) : trailerCuts limits [] = 0 := by
  have hnot : ¬ EndsInTrailers limits [] := fun ⟨_, _, _, _, _, h, _⟩ => not_unread_nil h
  simp [trailerCuts, hnot]

open Classical in
theorem trailerCuts_concat (limits : Limits) (fs : List (List UInt8)) (d : List UInt8) :
    trailerCuts limits (fs ++ [d]) =
      trailerCuts limits fs + if EndsInTrailers limits (fs ++ [d]) then 1 else 0 := by
  simp [trailerCuts, List.inits_append, List.countP_append, List.countP_cons]

end Wire

/-! ## One call -/

section Call

variable {p : HttpResponseParser}

/-- A trailer loop over a buffer within the limit does not fail. -/
theorem trailerLoop_ne_failed {tpos : Nat} (hbuf : p.buf.length ≤ p.limits.maxChunkLineBytes)
    (htpos : p.trailerBytes ≤ tpos) : (trailerLoop.run (p, tpos)).2 ≠ .failed := by
  generalize hs : (p, tpos) = s
  induction s using trailerLoop.induct generalizing p tpos with
  | again s s' hb ih =>
      subst hs
      rw [Loop.run_of_again hb]
      have hpass : trailerPass (p, tpos) = .again s' := hb
      obtain ⟨-, ⟨-, hp⟩ | ⟨msg, hp⟩⟩ | ⟨len, -, ⟨-, msg, hp⟩ | ⟨-, ⟨-, hp⟩ | ⟨-, hp⟩⟩⟩ :=
        trailerPass_spec p tpos
      all_goals rw [hp] at hpass
      all_goals try contradiction
      rw [Pass.again.injEq] at hpass
      have hcount : p.trailerBytes + (len + 2) ≤ tpos + len + 2 := by omega
      exact ih (p := { p with trailerBytes := p.trailerBytes + (len + 2) }) hbuf hcount hpass
  | exit s r hb =>
      subst hs
      rw [Loop.run_of_exit hb]
      have hpass : trailerPass (p, tpos) = .exit r := hb
      obtain ⟨hf, ⟨-, hp⟩ | ⟨msg, hp⟩⟩ | ⟨len, hf, ⟨hbig, -⟩ | ⟨-, ⟨-, hp⟩ | ⟨-, hp⟩⟩⟩ :=
        trailerPass_spec p tpos
      · rw [hp, Pass.exit.injEq] at hpass
        simp [← hpass]
      · unfold trailerPass at hp
        simp only [hf, if_neg (Nat.not_lt.mpr hbuf), Pass.exit.injEq, failExit, Prod.mk.injEq,
          reduceCtorEq, and_false] at hp
      · have hle := find_add_length_le hf
        rw [length_crlf, List.length_drop] at hle
        omega
      · rw [hp, Pass.exit.injEq] at hpass
        simp [← hpass]
      · simp [hp] at hpass

/-- **The trailer loop waits exactly for an open section.** -/
theorem needTrailers_iff :
    (trailerLoop.run (p.startTrailers, 0)).2 = .needTrailers ↔ TrailersOpen p.limits p.buf := by
  constructor
  · intro h
    have hlen : p.buf.length ≤ p.limits.maxChunkLineBytes := by
      obtain ⟨n, ⟨-, hlen⟩ | ⟨msg, hr⟩ | ⟨k, hr, -⟩⟩ := trailerLoop_exit p.startTrailers 0
      · exact hlen
      · simp [hr, failExit] at h
      · simp [hr] at h
    refine ⟨hlen, fun ts hts hprefix => ?_⟩
    obtain ⟨rest, hrest⟩ := hprefix
    have hfit : p.startTrailers.trailerBytes + (joinLines ts ++ crlf).length ≤
        p.startTrailers.limits.maxChunkLineBytes := by
      have hle : (joinLines ts ++ crlf).length ≤ p.buf.length := by
        rw [← hrest]
        exact (List.prefix_append _ _).length_le
      have hzero : p.startTrailers.trailerBytes = 0 := rfl
      have hlim : p.startTrailers.limits = p.limits := rfl
      rw [hzero, hlim]
      omega
    have hdrop : p.startTrailers.buf.drop 0 = joinLines ts ++ crlf ++ rest := hrest.symm
    obtain ⟨n, hr⟩ := trailerLoop_section hts hdrop hfit
    simp [hr] at h
  · rintro ⟨hlen, hopen⟩
    have hfail : (trailerLoop.run (p.startTrailers, 0)).2 ≠ .failed :=
      trailerLoop_ne_failed hlen (Nat.le_refl 0)
    obtain ⟨n, ⟨hr, -⟩ | ⟨msg, hr⟩ | ⟨k, hr, -⟩⟩ := trailerLoop_exit p.startTrailers 0
    · rw [hr]
    · rw [hr] at hfail
      exact absurd rfl hfail
    · obtain ⟨ts, rest, hts, hdrop, -⟩ := exists_trailers_of_complete hr
      have hbuf : p.buf = joinLines ts ++ crlf ++ rest := hdrop
      exact absurd ⟨rest, hbuf.symm⟩ (hopen ts hts)

section Fresh

variable {cs : List Chunk} {last : SizeLine} {rest : List UInt8} (hf : Fresh p)
include hf

/-- Behind the last-chunk line comes the trailer loop. -/
theorem run_of_lastChunk
    (h : LastChunk p.limits p.resp.body.length p.buf cs last rest) :
    chunkLoop.run p = trailerLoop.run ((p.received (payload cs) rest).startTrailers, 0) := by
  obtain ⟨-, hrun⟩ | ⟨-, hlong⟩ := run_lead_or_failed hf h.last_zero h.text
  · exact hrun
  · exact absurd ⟨h.short, h.payload⟩ hlong

/-- **The trailer loop is reached behind a last-chunk line only.** -/
theorem exists_lastChunk (hw : NoWrap p.limits p.resp.body.length p.buf)
    (hbody : p.resp.body.length ≤ p.limits.maxBodyBytes)
    (h : (chunkLoop.run p).2 = .needTrailers ∨ (chunkLoop.run p).2 = .complete) :
    ∃ cs last rest, LastChunk p.limits p.resp.body.length p.buf cs last rest := by
  induction p using chunkLoop.induct with
  | again p p' hb ih =>
      rw [Loop.run_of_again hb] at h
      obtain ⟨c, rest, hbuf, rfl, hshort, hgrow⟩ :=
        exists_chunk_of_again hf (fun c rest => hw.chunk hbody) hb
      have hlen : (p.received c.data rest).resp.body.length =
          p.resp.body.length + c.data.length := List.length_append
      rw [hlen] at ih
      rw [hbuf] at hw
      obtain ⟨cs, last, rest', hlast⟩ := ih (hf.received c.data rest) (hw.tail hshort) hgrow h
      rw [hbuf]
      exact ⟨c :: cs, last, rest', hlast.cons hshort⟩
  | exit p r hb =>
      rw [Loop.run_of_exit hb] at h
      cases chunkRound_of_eq hb with
      | needSizeLine => simp at h
      | badSizeLine => simp [failExit] at h
      | needPayload => simp at h
      | needCrlf => simp at h
      | badCrlf => simp [failExit] at h
      | @lastChunk eol hst hfind hzero =>
          obtain ⟨l, hltext, hlshort, hlsize⟩ := exists_sizeLine (crlfFree_take_of_find hfind) hzero
          have hbuf := eq_append_of_find hfind
          rw [length_crlf, ← hltext] at hbuf
          refine ⟨[], l, p.buf.drop (eol + 2), ⟨hbuf, hlsize, ?_, hbody⟩⟩
          simpa using hlshort

/-- A line above the limit that has not ended is an error. -/
theorem failed_of_lineOverlong (h : LineOverlong p.limits p.buf) :
    (chunkLoop.run p).2 = .failed := by
  obtain ⟨cs, line, hbuf, hfree, hlong⟩ := h
  induction cs generalizing p with
  | nil =>
      rw [chunksText_nil, List.nil_append] at hbuf
      have hopen := run_open_sizeLine hf.started hfree
        (show p.buf <+: line ++ crlf by rw [hbuf]; exact List.prefix_append _ _) (by rw [hbuf]; omega)
      exact hopen.2 (by rwa [hbuf])
  | cons c cs ih =>
      rw [chunksText_cons, List.append_assoc] at hbuf
      obtain ⟨-, hrun⟩ | ⟨hfail, -⟩ := run_chunk hf hbuf
      · rw [hrun]
        exact ih (hf.received c.data _) rfl hlong
      · exact hfail

/-- **In front of a last-chunk line the decoder waits**, unless an open line
is above the limit. -/
theorem state_of_no_lastChunk {x : List UInt8}
    (h : LastChunk p.limits p.resp.body.length (p.buf ++ x) cs last rest)
    (hnone : ∀ cs last rest, ¬ LastChunk p.limits p.resp.body.length p.buf cs last rest)
    (hline : ¬ LineOverlong p.limits p.buf) : (chunkLoop.run p).1.state = .bodyChunked := by
  obtain ⟨htext, hzero, hshort, hpay⟩ := h
  induction cs generalizing p with
  | nil =>
      rw [chunksText_nil, List.nil_append] at htext
      obtain ⟨hy, hlt⟩ | ⟨z, hz, -⟩ := prefix_append_cases (htext ▸ List.prefix_append p.buf x)
      · exact state_of_open_line hf last hy hlt (length_le_of_open hline hy hlt)
      · rw [payload_nil, List.length_nil] at hpay
        exact absurd ⟨hz, hzero, hshort, hpay⟩ (hnone [] last z)
  | cons c cs ih =>
      rw [chunksText_cons] at htext
      simp only [List.append_assoc] at htext
      rw [payload_cons, List.length_append] at hpay
      have hcs := hshort c.line (by simp)
      have htail : ∀ l ∈ cs.map Chunk.line ++ [last], l.Short := fun l hl =>
        hshort l (List.mem_cons_of_mem c.line hl)
      obtain ⟨hy, hlt⟩ | ⟨z, hz, -⟩ := prefix_append_cases (htext ▸ List.prefix_append p.buf x)
      · refine state_of_open_chunk hf hy hlt hcs (by omega) fun hshorter => ?_
        have hfront : p.buf <+: c.line.text ++ crlf :=
          List.prefix_of_prefix_length_le hy (by rw [Chunk.text]; exact List.prefix_append _ _)
            (by omega)
        exact length_le_of_open hline hfront hshorter
      · obtain ⟨-, hrun⟩ | ⟨-, hbig⟩ := run_chunk hf hz
        · have hlen : (p.received c.data z).resp.body.length =
              p.resp.body.length + c.data.length := List.length_append
          rw [hz, List.append_assoc, List.append_cancel_left_eq] at htext
          rw [hrun]
          refine ih (hf.received c.data z) ?_ ?_ ?_ htail ?_
          · intro cs' last' rest' hlast
            rw [hlen] at hlast
            rw [hz] at hnone
            exact hnone (c :: cs') last' rest' (hlast.cons hcs)
          · intro hover
            rw [hz] at hline
            exact hline hover.cons
          · show z ++ x = _
            rw [htext]
            simp only [List.append_assoc]
          · rw [hlen]
            show _ ≤ p.limits.maxBodyBytes
            omega
        · exact absurd ⟨hcs, by omega⟩ hbig

/-- **A call without wrapped sums leaves less than `2 ^ 64` bytes announced.** -/
theorem announced_lt_of_noWrap (hw : NoWrap p.limits p.resp.body.length p.buf)
    (hbody : p.resp.body.length ≤ p.limits.maxBodyBytes) (hlt : p.resp.body.length < 2 ^ 64) :
    (chunkLoop.run p).1.announced < 2 ^ 64 := by
  induction p using chunkLoop.induct with
  | again p p' hb ih =>
      rw [Loop.run_of_again hb]
      obtain ⟨c, rest, hbuf, rfl, hshort, hgrow⟩ :=
        exists_chunk_of_again hf (fun c rest => hw.chunk hbody) hb
      have hlen : (p.received c.data rest).resp.body.length =
          p.resp.body.length + c.data.length := List.length_append
      rw [hlen] at ih
      have hnext := hw.chunk hbody hbuf hshort (by omega)
        (Nat.le_trans (Nat.mod_le _ _) hgrow)
      rw [hbuf] at hw
      exact ih (hf.received c.data rest) (hw.tail hshort) hgrow hnext
  | exit p r hb =>
      rw [Loop.run_of_exit hb]
      have hfresh : p.announced = p.resp.body.length := by simp [announced, hf.started]
      -- the size line in front of a payload is there, and its sum does not wrap
      have hann : ∀ {q : HttpResponseParser}, AtPayload p q → q.announced < 2 ^ 64 := by
        intro q hq
        cases hq with
        | started hst => rwa [hfresh]
        | @sized eol size hst hfind hsize hpos hfit hsum =>
            obtain ⟨l, hltext, hlshort, rfl⟩ :=
              exists_sizeLine (crlfFree_take_of_find hfind) hsize
            have hbuf := eq_append_of_find hfind
            rw [length_crlf, ← hltext] at hbuf
            exact hw [] l (p.buf.drop (eol + 2)) hbuf (by simp) hbody hlshort hfit hsum
      cases chunkRound_of_eq hb with
      | needSizeLine => rwa [hfresh]
      | badSizeLine =>
          rw [failExit, announced_fail]
          exact hfresh ▸ hlt
      | @lastChunk eol =>
          have hskip : (p.skipLine eol).startTrailers.announced = p.announced := rfl
          obtain ⟨n, ⟨h, -⟩ | ⟨msg, h⟩ | ⟨k, h, -⟩⟩ :=
            trailerLoop_exit (p.skipLine eol).startTrailers 0
          · rw [h]; exact hfresh ▸ hlt
          · rw [h, failExit, announced_fail]; exact hfresh ▸ hlt
          · rw [h]; exact hfresh ▸ hlt
      | needPayload hq hle =>
          rw [announced_absorb hq.body.2 (by omega) (Nat.le_refl _)]
          exact hann hq
      | needCrlf hq hle =>
          rw [announced_absorb hq.body.2 (Nat.le_refl _) hle]
          exact hann hq
      | badCrlf hq hle =>
          rw [failExit, announced_fail, announced_absorb hq.body.2 (Nat.le_refl _) hle]
          exact hann hq

end Fresh

end Call

/-! ## The parser follows the wire -/

/-- The decoder called at `r` reads `y` as it would from a chunk-size line at
`p`, behind `n` bytes of payload. -/
structure Resumes (limits : Limits) (n : Nat) (y : List UInt8) (p r : HttpResponseParser) :
    Prop where
  fresh : Fresh p
  buf : p.buf = y
  limits_eq : p.limits = limits
  body : p.resp.body.length = n
  body_le : n ≤ limits.maxBodyBytes
  body_lt : n < 2 ^ 64
  run_eq : chunkLoop.run r = chunkLoop.run p

/-- The last of the feeds calls the decoder at `r`. -/
structure LastCall (allow : Bool) (limits : Limits) (fs : List (List UInt8))
    (r : HttpResponseParser) : Prop where
  enter : ∃ gs d, fs = gs ++ [d] ∧ (((new allow limits).feedAll gs).1.push d).enterBody = .ok r
  state : r.state = .bodyChunked
  parser : ((new allow limits).feedAll fs).1 = (chunkLoop.run r).1

section Follow

variable {allow : Bool} {limits : Limits} {n : Nat} {y : List UInt8} {p r : HttpResponseParser}
  {fs : List (List UInt8)}

/-- A decoder that waits in front of a last-chunk line goes on where it stopped. -/
theorem Resumes.wait (h : Resumes limits n y p r)
    (hs : (chunkLoop.run r).1.state = .bodyChunked) (hexit : (chunkLoop.run r).2 ≠ .needTrailers)
    (d : List UInt8) :
    Resumes limits n (y ++ d) (p.push d) ((chunkLoop.run r).1.push d) := by
  have hstate := run_state h.fresh.state
  rw [h.run_eq] at hs hexit ⊢
  have hres : (chunkLoop.run p).2.Resumable := by
    unfold ExitState at hstate
    unfold ChunkExit.Resumable
    cases he : (chunkLoop.run p).2 with
    | needSizeLine => exact .inl rfl
    | needPayload => exact .inr (.inl rfl)
    | needCrlf => exact .inr (.inr rfl)
    | needTrailers => exact absurd he hexit
    | complete => simp [he, hs] at hstate
    | failed => simp [he, hs] at hstate
  constructor
  · exact h.fresh.push d
  · rw [push_buf, h.buf]
  · exact h.limits_eq
  · exact h.body
  · exact h.body_le
  · exact h.body_lt
  · exact (run_push (Prod.ext rfl rfl) hres d).symm

theorem Resumes.announced_lt (h : Resumes limits n y p r) (hw : NoWrap limits n y) :
    (chunkLoop.run r).1.announced < 2 ^ 64 := by
  obtain ⟨hfresh, rfl, rfl, rfl, hle, hlt, hrun⟩ := h
  rw [hrun]
  exact announced_lt_of_noWrap hfresh hw hle hlt

section Last

variable {cs : List Chunk} {last : SizeLine} {rest : List UInt8}

theorem Resumes.run_of_lastChunk (h : Resumes limits n y p r)
    (hlast : LastChunk limits n y cs last rest) :
    chunkLoop.run r = trailerLoop.run ((p.received (payload cs) rest).startTrailers, 0) := by
  obtain ⟨hfresh, rfl, rfl, rfl, -, -, hrun⟩ := h
  rw [hrun, HttpResponseParser.run_of_lastChunk hfresh hlast]

/-- Behind a last-chunk line a live decoder is inside an open trailer section. -/
theorem Resumes.trailersOpen_iff (h : Resumes limits n y p r)
    (hlast : LastChunk limits n y cs last rest) :
    (chunkLoop.run r).2 = .needTrailers ↔ TrailersOpen limits rest := by
  rw [h.run_of_lastChunk hlast, needTrailers_iff, ← h.limits_eq]
  rfl

/-- **A cut section is read as a new chunk stream.** -/
theorem Resumes.cut (h : Resumes limits n y p r) (hw : NoWrap limits n y)
    (hlast : LastChunk limits n y cs last rest) (hopen : TrailersOpen limits rest)
    (d : List UInt8) :
    (chunkLoop.run r).1.state = .bodyChunked ∧
      Resumes limits (n + (payload cs).length) (rest ++ d) ((chunkLoop.run r).1.push d)
        ((chunkLoop.run r).1.push d) := by
  have hann := h.announced_lt hw
  have hexit := (h.trailersOpen_iff hlast).mpr hopen
  have hfresh := h.fresh
  rw [h.run_of_lastChunk hlast] at hann hexit ⊢
  obtain ⟨k, ⟨hr, -⟩ | ⟨msg, hr⟩ | ⟨j, hr, -⟩⟩ :=
    trailerLoop_exit (p.received (payload cs) rest).startTrailers 0
  · rw [hr] at hann ⊢
    have hlen : n + (payload cs).length = (p.resp.body ++ payload cs).length := by
      rw [List.length_append, h.body]
    refine ⟨hfresh.state, ?_⟩
    constructor
    · exact ⟨hfresh.state, hfresh.started, hfresh.remaining⟩
    · rfl
    · exact h.limits_eq
    · exact hlen.symm
    · exact hlast.payload
    · exact Nat.lt_of_le_of_lt (hlen ▸ Nat.le_add_right _ _) hann
    · rfl
  · simp [hr, failExit] at hexit
  · simp [hr] at hexit

end Last

/-- A decoder that has waited is called again by the next feed. -/
theorem lastCall_concat (hs : ((new allow limits).feedAll fs).1.state = .bodyChunked)
    (d : List UInt8) :
    LastCall allow limits (fs ++ [d]) (((new allow limits).feedAll fs).1.push d) := by
  constructor
  · exact ⟨fs, d, rfl, enterBody_of_chunked (by exact hs)⟩
  · exact hs
  · rw [feedAll_concat, feed_chunked hs]

/-- The feed that completes the head of a chunked response calls the decoder. -/
theorem lastCall_head {d : List UInt8} {e : Nat} {i : HeadInfo}
    (hnone : find blankLine fs.flatten = none)
    (hfind : find blankLine (fs.flatten ++ d) = some e)
    (hlen : (fs.flatten ++ d).length ≤ limits.maxHeaderBytes)
    (hi : headInfo limits (fs.flatten ++ d) e = some i) (hfr : i.framing = .chunked) :
    LastCall allow limits (fs ++ [d])
      (atBody allow limits i ((fs.flatten ++ d).drop (e + 4))) := by
  have hacc : i.Accepted allow := by
    intro hs
    rw [hfr] at hs
    contradiction
  have hpre : ([] ++ fs.flatten).length ≤ limits.maxHeaderBytes := by
    rw [List.length_append] at hlen
    rw [List.nil_append]
    omega
  have hrun : ((new allow limits).feedAll fs).1 = awaiting allow limits fs.flatten :=
    congrArg Prod.fst (feedAll_awaiting (b := []) hpre hnone)
  have henter := enterBody_of_accepted hfind hi hacc
  have hstate : (atBody allow limits i ((fs.flatten ++ d).drop (e + 4))).state = .bodyChunked := by
    rw [atBody, hfr, bodyState]
  constructor
  · refine ⟨fs, d, rfl, ?_⟩
    rw [hrun]
    exact henter
  · exact hstate
  · rw [feedAll_concat, hrun, feed_awaiting hlen, step, henter]
    dsimp only
    rw [stepBody, hstate]
    rfl

/-- The call leaves the parser finished or inside the body. -/
theorem LastCall.finished_or_chunked (h : LastCall allow limits fs r) :
    Finished ((new allow limits).feedAll fs).1 ∨
      ((new allow limits).feedAll fs).1.state = .bodyChunked := by
  have hexit := run_state h.state
  unfold ExitState at hexit
  rw [h.parser]
  split at hexit
  · exact .inl (.inr hexit)
  · exact .inl (.inl hexit)
  · exact .inr hexit

/-- **The parser reads what the wire has in front of the decoder**, or it has
finished and no last-chunk line can come any more. -/
theorem resumes_of_unread (allow : Bool) (hw : Unwrapped limits fs) (h : Unread limits fs n y) :
    (∃ r p, LastCall allow limits fs r ∧ Resumes limits n y p r) ∨
      (Finished ((new allow limits).feedAll fs).1 ∧
        ∀ x cs last rest, ¬ LastChunk limits n (y ++ x) cs last rest) := by
  induction h with
  | @head pre d e i hnone hfind hlen hi hfr =>
      refine .inl ⟨_, atBody allow limits i ((pre.flatten ++ d).drop (e + 4)),
        lastCall_head hnone hfind hlen hi hfr, ?_⟩
      constructor
      · exact ⟨by rw [atBody, hfr, bodyState], rfl, rfl⟩
      · rfl
      · rfl
      · rfl
      · exact Nat.zero_le _
      · exact Nat.two_pow_pos 64
      · rfl
  | @wait fs n y d hu hnone hline ih =>
      have hfs : fs <+: fs ++ [d] := List.prefix_append fs [d]
      obtain ⟨r, p, hcall, hres⟩ | ⟨hfin, hnever⟩ := ih (hw.of_prefix hfs)
      · have hstate := hcall.parser
        by_cases hs : (chunkLoop.run r).1.state = .bodyChunked
        · rw [← hstate] at hs
          have hcall' := lastCall_concat hs d
          rw [hstate] at hs hcall'
          refine .inl ⟨_, p.push d, hcall', hres.wait hs ?_ d⟩
          intro hexit
          obtain ⟨hfresh, rfl, rfl, rfl, hle, -, hrun⟩ := hres
          rw [hrun] at hexit
          obtain ⟨cs, last, rest, hlast⟩ :=
            exists_lastChunk hfresh (hw fs _ _ hfs hu) hle (.inl hexit)
          exact hnone cs last rest hlast
        · right
          have hfin : Finished ((new allow limits).feedAll fs).1 := by
            obtain hfin | hs' := hcall.finished_or_chunked
            · exact hfin
            · exact absurd (hstate ▸ hs') hs
          refine ⟨by rw [feedAll_concat, feed_of_finished hfin]; exact hfin, ?_⟩
          intro x cs last rest hlast
          rw [List.append_assoc] at hlast
          obtain ⟨hfresh, rfl, rfl, rfl, -, -, hrun⟩ := hres
          rw [hrun] at hs
          exact hs (state_of_no_lastChunk hfresh hlast hnone hline)
      · refine .inr ⟨by rw [feedAll_concat, feed_of_finished hfin]; exact hfin, ?_⟩
        intro x cs last rest hlast
        rw [List.append_assoc] at hlast
        exact hnever _ cs last rest hlast
  | @cut fs n y d rest cs last hu hlast hopen ih =>
      have hfs : fs <+: fs ++ [d] := List.prefix_append fs [d]
      obtain ⟨r, p, hcall, hres⟩ | ⟨-, hnever⟩ := ih (hw.of_prefix hfs)
      · obtain ⟨hs, hnext⟩ := hres.cut (hw fs n y hfs hu) hlast hopen d
        rw [← hcall.parser] at hs
        have hcall' := lastCall_concat hs d
        rw [hcall.parser] at hcall'
        exact .inl ⟨_, _, hcall', hnext⟩
      · exact absurd (by rwa [List.append_nil]) (hnever [] cs last rest)

/-- The wire goes on behind every feed of a live decoder. -/
theorem unread_concat (hw : Unwrapped limits fs) (hu : Unread limits fs n y)
    (hs : ((new allow limits).feedAll fs).1.state = .bodyChunked) (d : List UInt8) :
    ∃ n y, Unread limits (fs ++ [d]) n y := by
  obtain ⟨r, p, hcall, hres⟩ | ⟨hfin, -⟩ := resumes_of_unread allow hw hu
  · rw [hcall.parser] at hs
    by_cases hlast : ∃ cs last rest, LastChunk limits n y cs last rest
    · obtain ⟨cs, last, rest, hlast⟩ := hlast
      have hopen : TrailersOpen limits rest := by
        have hrun := hres.run_of_lastChunk hlast
        rw [← hres.trailersOpen_iff hlast, hrun]
        rw [hrun] at hs
        obtain ⟨k, ⟨hr, -⟩ | ⟨msg, hr⟩ | ⟨j, hr, -⟩⟩ :=
          trailerLoop_exit (p.received (payload cs) rest).startTrailers 0
        · rw [hr]
        · rw [hr, failExit_state] at hs
          contradiction
        · rw [hr] at hs
          contradiction
      exact ⟨_, _, .cut hu hlast hopen⟩
    · refine ⟨_, _, .wait hu (fun cs last rest h => hlast ⟨cs, last, rest, h⟩) ?_⟩
      intro hline
      obtain ⟨hfresh, rfl, rfl, -, -, -, hrun⟩ := hres
      have hfail := state_of_failed hfresh.state (failed_of_lineOverlong hfresh hline)
      rw [hrun, hfail] at hs
      contradiction
  · obtain hfin | hfin := hfin <;> simp [hfin] at hs

/-- Where a run can be. -/
inductive Stage (allow : Bool) (limits : Limits) (fs : List (List UInt8)) : Prop where
  | finished : Finished ((new allow limits).feedAll fs).1 → Stage allow limits fs
  | head : ((new allow limits).feedAll fs).1 = awaiting allow limits fs.flatten →
      find blankLine fs.flatten = none → Stage allow limits fs
  | contentLength : ((new allow limits).feedAll fs).1.state = .bodyContentLength →
      Stage allow limits fs
  | eof : ((new allow limits).feedAll fs).1.state = .bodyEof → Stage allow limits fs
  | chunks {m : Nat} {z : List UInt8} : ((new allow limits).feedAll fs).1.state = .bodyChunked →
      Unread limits fs m z → Stage allow limits fs

theorem contentLength_cases {p : HttpResponseParser} (hs : p.state = .bodyContentLength) :
    Finished p.bodyStepContentLength.1 ∨ p.bodyStepContentLength.1.state = .bodyContentLength := by
  obtain ⟨-, hr⟩ | ⟨-, hr⟩ | ⟨-, msg, hr⟩ := bodyStepContentLength_spec p
  · rw [hr]
    exact .inr hs
  · rw [hr]
    exact .inl (.inl rfl)
  · rw [hr]
    exact .inl (.inr (fail_state _ _))

/-- The feed that completes the head takes the run to its framing. -/
theorem Stage.of_head {d : List UInt8} {e : Nat} {i : HeadInfo}
    (hp : ((new allow limits).feedAll fs).1 = awaiting allow limits fs.flatten)
    (hnone : find blankLine fs.flatten = none)
    (hlen : (fs.flatten ++ d).length ≤ limits.maxHeaderBytes)
    (hfind : find blankLine (fs.flatten ++ d) = some e)
    (hi : headInfo limits (fs.flatten ++ d) e = some i) (ha : i.Accepted allow) :
    Stage allow limits (fs ++ [d]) := by
  have hfeed : ((new allow limits).feedAll (fs ++ [d])).1 =
      (atBody allow limits i ((fs.flatten ++ d).drop (e + 4))).stepBody.1 := by
    rw [feedAll_concat, hp, feed_awaiting hlen, step, enterBody_of_accepted hfind hi ha]
  cases hfr : i.framing with
  | chunked =>
      obtain hfin | hs := (lastCall_head hnone hfind hlen hi hfr).finished_or_chunked
      · exact .finished hfin
      · exact .chunks hs (.head hnone hfind hlen hi hfr)
  | none | eof =>
      refine .eof ?_
      have hs : (atBody allow limits i ((fs.flatten ++ d).drop (e + 4))).state = .bodyEof := by
        rw [atBody, hfr, bodyState]
      rw [hfeed, stepBody, hs]
      exact hs
  | contentLength =>
      have hs : (atBody allow limits i ((fs.flatten ++ d).drop (e + 4))).state =
          .bodyContentLength := by rw [atBody, hfr, bodyState]
      have hstep : ((new allow limits).feedAll (fs ++ [d])).1 =
          (atBody allow limits i ((fs.flatten ++ d).drop (e + 4))).bodyStepContentLength.1 := by
        rw [hfeed, stepBody, hs]
      obtain hfin | hs' := contentLength_cases hs
      · exact .finished (hstep ▸ hfin)
      · exact .contentLength (hstep ▸ hs')

/-- A feed takes the run from one stage to the next. -/
theorem Stage.concat (hw : Unwrapped limits fs) (h : Stage allow limits fs) (d : List UInt8) :
    Stage allow limits (fs ++ [d]) := by
  cases h with
  | finished hfin =>
      refine .finished ?_
      rw [feedAll_concat, feed_of_finished hfin]
      exact hfin
  | head hp hnone =>
      by_cases hlen : (fs.flatten ++ d).length ≤ limits.maxHeaderBytes
      · cases hfind : find blankLine (fs.flatten ++ d) with
        | none =>
            have hflat : (fs ++ [d]).flatten = fs.flatten ++ d := by simp
            rw [← hflat] at hfind
            refine .head ?_ hfind
            rw [hflat] at hfind
            rw [feedAll_concat, hp, feed_awaiting_incomplete hlen hfind, hflat]
        | some e =>
            by_cases hacc : ∃ i, headInfo limits (fs.flatten ++ d) e = some i ∧ i.Accepted allow
            · obtain ⟨i, hi, ha⟩ := hacc
              exact .of_head hp hnone hlen hfind hi ha
            · refine .finished ?_
              rw [feedAll_concat, hp, feed_awaiting hlen]
              exact .inr (step_of_rejected hfind fun i hi ha => hacc ⟨i, hi, ha⟩)
      · obtain ⟨msg, hfeed⟩ := @feed_awaiting_over allow _ _ _ (Nat.lt_of_not_le hlen)
        refine .finished ?_
        rw [feedAll_concat, hp, hfeed]
        exact .inr (fail_state _ _)
  | contentLength hs =>
      have hpush : (((new allow limits).feedAll fs).1.push d).state = .bodyContentLength := hs
      have hfeed : ((new allow limits).feedAll (fs ++ [d])).1 =
          (((new allow limits).feedAll fs).1.push d).bodyStepContentLength.1 := by
        rw [feedAll_concat, feed_contentLength hs]
      obtain hfin | hs' := contentLength_cases hpush
      · exact .finished (hfeed ▸ hfin)
      · exact .contentLength (hfeed ▸ hs')
  | eof hs =>
      obtain ⟨hfits, hover⟩ := feed_eofBody hs d
      by_cases hlen : (((new allow limits).feedAll fs).1.push d).buf.length ≤
          ((new allow limits).feedAll fs).1.limits.maxBodyBytes
      · refine .eof ?_
        rw [feedAll_concat, hfits hlen]
        exact hs
      · obtain ⟨msg, hmsg⟩ := hover (Nat.lt_of_not_le hlen)
        refine .finished ?_
        rw [feedAll_concat, hmsg]
        exact .inr (fail_state _ _)
  | chunks hs hu =>
      obtain hfin | hs' := (lastCall_concat hs d).finished_or_chunked
      · exact .finished hfin
      · obtain ⟨n, y, hu'⟩ := unread_concat hw hu hs d
        exact .chunks hs' hu'

/-- **Every run is at one of these stages.** -/
theorem stage_feedAll (allow : Bool) (hw : Unwrapped limits fs) : Stage allow limits fs := by
  induction fs using List.reverseRecOn with
  | nil => exact .head rfl (by decide)
  | append_singleton fs d ih =>
      have hfs := hw.of_prefix (List.prefix_append fs [d])
      exact (ih hfs).concat hfs d

/-- The call that leaves the decoder waiting reads what the wire has in front
of it. -/
theorem exists_resumes {d : List UInt8} {q : HttpResponseParser}
    (hw : Unwrapped limits (fs ++ [d]))
    (hs : ((new allow limits).feedAll (fs ++ [d])).1.state = .bodyChunked)
    (henter : (((new allow limits).feedAll fs).1.push d).enterBody = .ok q) :
    ∃ n y p, Unread limits (fs ++ [d]) n y ∧ Resumes limits n y p q := by
  have hu : ∃ n y, Unread limits (fs ++ [d]) n y := by
    cases stage_feedAll allow hw with
    | finished hfin => obtain hfin | hfin := hfin <;> simp [hfin] at hs
    | head hp =>
        rw [hp] at hs
        contradiction
    | contentLength hs' | eof hs' => simp [hs'] at hs
    | chunks _ hu => exact ⟨_, _, hu⟩
  obtain ⟨n, y, hu⟩ := hu
  obtain ⟨r, p, hcall, hres⟩ | ⟨hfin, -⟩ := resumes_of_unread allow hw hu
  · obtain ⟨gs, d', heq, henter'⟩ := hcall.enter
    obtain ⟨rfl, hd⟩ := List.append_inj' heq rfl
    obtain rfl : d = d' := by simpa using hd
    rw [henter, Except.ok.injEq] at henter'
    subst henter'
    exact ⟨n, y, p, hu, hres⟩
  · obtain hfin | hfin := hfin <;> simp [hfin] at hs

/-- A call that stops in the trailers is one whose feed ends there. -/
theorem endsInTrailers_of_stops {d : List UInt8} (hw : Unwrapped limits (fs ++ [d]))
    (h : stopsInTrailers ((new allow limits).feedAll fs).1 d = true) :
    EndsInTrailers limits (fs ++ [d]) := by
  rw [stopsInTrailers, Bool.and_eq_true, decide_eq_true_eq, ← feedAll_concat] at h
  obtain ⟨hs, hexit⟩ := h
  cases henter : (((new allow limits).feedAll fs).1.push d).enterBody with
  | error r => simp [henter] at hexit
  | ok q =>
      rw [henter] at hexit
      have hneed : (chunkLoop.run q).2 = .needTrailers := by simpa using hexit
      obtain ⟨n, y, p, hu, hres⟩ := exists_resumes hw hs henter
      have hlast : ∃ cs last rest, LastChunk limits n y cs last rest := by
        obtain ⟨hfresh, rfl, rfl, rfl, hle, -, hrun⟩ := hres
        rw [hrun] at hneed
        exact exists_lastChunk hfresh (hw _ _ _ List.prefix_rfl hu) hle (.inl hneed)
      obtain ⟨cs, last, rest, hlast⟩ := hlast
      exact ⟨n, y, cs, last, rest, hu, hlast, (hres.trailersOpen_iff hlast).mp hneed⟩

/-- A live call adds no sum that wraps. -/
theorem sumsFit_of_live {d : List UInt8} (hw : Unwrapped limits (fs ++ [d]))
    (hlive : ¬ Finished ((new allow limits).feedAll (fs ++ [d])).1) :
    SumsFit ((new allow limits).feedAll fs).1 d := by
  intro q henter hq
  have hfeed := hlive
  rw [feedAll_concat] at hfeed
  have hrun := feed_of_enterBody henter hq hfeed
  have hcall : LastCall allow limits (fs ++ [d]) q :=
    ⟨⟨fs, d, rfl, henter⟩, hq, by rw [feedAll_concat, hrun]⟩
  have hs := hcall.finished_or_chunked.resolve_left hlive
  obtain ⟨n, y, p, hu, hres⟩ := exists_resumes hw hs henter
  exact hres.announced_lt (hw _ _ _ List.prefix_rfl hu)

/-- **Feeds that end in the trailers leave the parser alive.** -/
theorem live_of_endsInTrailers (hw : Unwrapped limits fs) (h : EndsInTrailers limits fs) :
    ¬ Finished ((new allow limits).feedAll fs).1 := by
  obtain ⟨n, y, cs, last, rest, hu, hlast, hopen⟩ := h
  obtain ⟨r, p, hcall, hres⟩ | ⟨-, hnever⟩ := resumes_of_unread allow hw hu
  · obtain ⟨hs, -⟩ := hres.cut (hw fs n y List.prefix_rfl hu) hlast hopen []
    rw [hcall.parser, Finished, hs]
    simp
  · exact absurd (by rwa [List.append_nil]) (hnever [] cs last rest)

end Follow

/-! ## Runs -/

section Runs

variable {limits : Limits}

/-- The machine whose states are the feeds so far. -/
theorem foldl_concat (fs feeds : List (List UInt8)) :
    feeds.foldl (fun fs d => fs ++ [d]) fs = fs ++ feeds := by
  induction feeds generalizing fs with
  | nil => simp
  | cons d feeds ih => rw [List.foldl_cons, ih, List.append_assoc, List.singleton_append]

open Classical in
theorem trailerCuts_eq_countMarked (limits : Limits) (feeds : List (List UInt8)) :
    trailerCuts limits feeds = countMarked (fun fs d => fs ++ [d])
      (fun fs d => decide (EndsInTrailers limits (fs ++ [d]))) [] feeds := by
  induction feeds using List.reverseRecOn with
  | nil => exact trailerCuts_nil limits
  | append_singleton fs d ih =>
      rw [trailerCuts_concat, countMarked_append, ih, foldl_concat, List.nil_append]
      simp [countMarked]

/-- **A live parser has taken only so many feeds** for each one that ended
inside the trailers. -/
theorem length_lt_of_live {allow : Bool} {feeds : List (List UInt8)} (hne : ∀ d ∈ feeds, d ≠ [])
    (hw : Unwrapped limits feeds) (hlive : ¬ Finished ((new allow limits).feedAll feeds).1) :
    feeds.length < potentialBound limits * (trailerCuts limits feeds + 1) := by
  have hback : ∀ {fs : List (List UInt8)} {d : List UInt8},
      ¬ Finished ((new allow limits).feedAll (fs ++ [d])).1 →
      ¬ Finished ((new allow limits).feedAll fs).1 := by
    intro fs d h hfin
    rw [feedAll_concat, feed_of_finished hfin] at h
    exact h hfin
  rw [trailerCuts_eq_countMarked]
  refine length_lt_of_potential
    (fun fs => Unwrapped limits fs → ¬ Finished ((new allow limits).feedAll fs).1 →
      Inv allow limits ((new allow limits).feedAll fs).1)
    (fun fs => Unwrapped limits fs ∧ ¬ Finished ((new allow limits).feedAll fs).1)
    (fun d => d ≠ []) (fun fs => potential limits ((new allow limits).feedAll fs).1) ?_ ?_ ?_ ?_
    (fun _ _ => inv_new) hne (by rw [foldl_concat, List.nil_append]; exact ⟨hw, hlive⟩)
  · intro fs d hinv hw hlive
    have hp := hinv (hw.of_prefix (List.prefix_append fs [d])) (hback hlive)
    have hfit := sumsFit_of_live hw hlive
    rw [feedAll_concat]
    exact hp.feed (some d) (.inr fun bytes hb => by rwa [← Option.some.inj hb])
  · rintro fs d hdead ⟨hw, hlive⟩
    exact hdead ⟨hw.of_prefix (List.prefix_append fs [d]), hback hlive⟩
  · rintro fs hinv ⟨hw, hlive⟩
    exact potential_lt_bound (hinv hw hlive) hlive
  · rintro fs d hinv hd ⟨hw, hlive⟩ hmark
    have hp := hinv (hw.of_prefix (List.prefix_append fs [d])) (hback hlive)
    have hstop : stopsInTrailers ((new allow limits).feedAll fs).1 d = false := by
      rw [decide_eq_false_iff_not] at hmark
      rw [← Bool.not_eq_true]
      exact fun h => hmark (endsInTrailers_of_stops hw h)
    rw [feedAll_concat] at hlive ⊢
    exact potential_lt_feed hp hd hlive hstop

theorem length_flatten_le {N : Nat} {feeds : List (List UInt8)}
    (h : ∀ d ∈ feeds, d.length ≤ N) : feeds.flatten.length ≤ N * feeds.length := by
  induction feeds with
  | nil => exact Nat.zero_le _
  | cons d feeds ih =>
      have hd := h d List.mem_cons_self
      have hrest := ih fun x hx => h x (List.mem_cons_of_mem d hx)
      rw [List.flatten_cons, List.length_append, List.length_cons, Nat.mul_succ]
      omega

/-- A bound on the feeds that end in the trailers is a bound on the bytes. -/
theorem finished_of_trailerCuts_le (allow : Bool) (limits : Limits) (N K : Nat) :
    ∃ B, ∀ feeds : List (List UInt8), (∀ d ∈ feeds, d ≠ [] ∧ d.length ≤ N) →
      Unwrapped limits feeds → trailerCuts limits feeds ≤ K → B < feeds.flatten.length →
      Finished ((new allow limits).feedAll feeds).1 := by
  refine ⟨N * (potentialBound limits * (K + 1)), fun feeds hfeeds hw hcuts hlen => ?_⟩
  by_contra hlive
  have hcount := length_lt_of_live (fun d hd => (hfeeds d hd).1) hw hlive
  have hbytes := length_flatten_le fun d hd => (hfeeds d hd).2
  have hmono : potentialBound limits * (trailerCuts limits feeds + 1) ≤
      potentialBound limits * (K + 1) := Nat.mul_le_mul_left _ (by omega)
  have hle : N * feeds.length ≤ N * (potentialBound limits * (K + 1)) :=
    Nat.mul_le_mul_left _ (by omega)
  omega

theorem trailerCuts_le_concat (limits : Limits) (fs : List (List UInt8)) (d : List UInt8) :
    trailerCuts limits fs ≤ trailerCuts limits (fs ++ [d]) := by
  rw [trailerCuts_concat]
  exact Nat.le_add_right _ _

theorem trailerCuts_firstFeeds_mono (feeds : Nat → List UInt8) {m n : Nat} (h : m ≤ n) :
    trailerCuts limits (firstFeeds feeds m) ≤ trailerCuts limits (firstFeeds feeds n) := by
  induction h with
  | refl => exact Nat.le_refl _
  | step _ ih =>
      rw [firstFeeds_succ]
      exact Nat.le_trans ih (trailerCuts_le_concat _ _ _)

/-- Once the parser has finished no more feeds end in the trailers. -/
theorem trailerCuts_of_finished {allow : Bool} {feeds : Nat → List UInt8} {m n : Nat} (h : m ≤ n)
    (hw : ∀ n, Unwrapped limits (firstFeeds feeds n))
    (hfin : Finished ((new allow limits).feedAll (firstFeeds feeds m)).1) :
    trailerCuts limits (firstFeeds feeds n) = trailerCuts limits (firstFeeds feeds m) ∧
      Finished ((new allow limits).feedAll (firstFeeds feeds n)).1 := by
  induction h with
  | refl => exact ⟨rfl, hfin⟩
  | @step n _ ih =>
      obtain ⟨hcuts, hn⟩ := ih
      have hnext : Finished ((new allow limits).feedAll (firstFeeds feeds (n + 1))).1 := by
        rw [firstFeeds_succ, feedAll_concat, feed_of_finished hn]
        exact hn
      have hnot : ¬ EndsInTrailers limits (firstFeeds feeds (n + 1)) := fun h =>
        live_of_endsInTrailers (hw (n + 1)) h hnext
      refine ⟨?_, hnext⟩
      rw [firstFeeds_succ] at hnot ⊢
      rw [trailerCuts_concat, if_neg hnot, Nat.add_zero, hcuts]

/-- A stream ends the parser exactly when finitely many of its feeds end in
the trailers. -/
theorem finished_stream_iff (allow : Bool) {feeds : Nat → List UInt8} (hne : ∀ n, feeds n ≠ [])
    (hw : ∀ n, Unwrapped limits (firstFeeds feeds n)) :
    (∃ n, Finished ((new allow limits).feedAll (firstFeeds feeds n)).1) ↔
      ∃ K, ∀ n, trailerCuts limits (firstFeeds feeds n) ≤ K := by
  constructor
  · rintro ⟨n, hn⟩
    refine ⟨trailerCuts limits (firstFeeds feeds n), fun m => ?_⟩
    obtain hmn | hnm := Nat.le_total m n
    · exact trailerCuts_firstFeeds_mono feeds hmn
    · exact Nat.le_of_eq (trailerCuts_of_finished hnm hw hn).1
  · rintro ⟨K, hK⟩
    refine ⟨potentialBound limits * (K + 1), ?_⟩
    by_contra hlive
    have hmem : ∀ d ∈ firstFeeds feeds (potentialBound limits * (K + 1)), d ≠ [] := by
      intro d hd
      rw [firstFeeds, List.mem_map] at hd
      obtain ⟨i, -, rfl⟩ := hd
      exact hne i
    have hcount := length_lt_of_live hmem (hw _) hlive
    have hlen : (firstFeeds feeds (potentialBound limits * (K + 1))).length =
        potentialBound limits * (K + 1) := by rw [firstFeeds, List.length_map, List.length_range]
    have hmono : potentialBound limits *
        (trailerCuts limits (firstFeeds feeds (potentialBound limits * (K + 1))) + 1) ≤
        potentialBound limits * (K + 1) :=
      Nat.mul_le_mul_left _ (Nat.succ_le_succ (hK _))
    omega

end Runs

end HttpResponseParser

namespace HttpClient

open HttpResponseParser

/-- **What ends the parser.**  As long as the feeds that end inside a trailer
section are bounded, so are the bytes of a live run; a stream of non-empty
feeds ends the parser, and the receive loop with it, exactly when finitely many
of them end there.  Sums wrap for no limit below `2 ^ 63`. -/
theorem ends_iff_trailerCuts (allow : Bool) (limits : Limits) :
    (∀ N K, ∃ B, ∀ feeds : List (List UInt8), (∀ d ∈ feeds, d ≠ [] ∧ d.length ≤ N) →
      Unwrapped limits feeds → trailerCuts limits feeds ≤ K → B < feeds.flatten.length →
      Finished ((new allow limits).feedAll feeds).1) ∧
    (∀ feeds : Nat → List UInt8, (∀ n, feeds n ≠ []) →
      (∀ n, Unwrapped limits (firstFeeds feeds n)) →
      ((∃ n, Finished ((new allow limits).feedAll (firstFeeds feeds n)).1) ↔
        ∃ K, ∀ n, trailerCuts limits (firstFeeds feeds n) ≤ K)) ∧
    (∀ t : Transport, (∀ n bytes, t.readSome n = .data bytes → bytes ≠ []) →
      ((∃ fuel r, receive t fuel = some r) ↔
        (∃ n, ∀ bytes, t.readSome n ≠ .data bytes) ∨
          ∃ K, ∀ n, trailerCuts {} (firstFeeds (delivered t) n) ≤ K)) ∧
    (limits.maxBodyBytes < 2 ^ 63 → ∀ feeds, Unwrapped limits feeds) := by
  refine ⟨finished_of_trailerCuts_le allow limits,
    fun feeds hne hw => finished_stream_iff allow hne hw, fun t hdata => ?_,
    unwrapped_of_lt⟩
  rw [receive_returns_iff]
  by_cases hall : ∃ n, ∀ bytes, t.readSome n ≠ .data bytes
  · obtain ⟨n, hn⟩ := hall
    exact iff_of_true ⟨n, .inl hn⟩ (.inl ⟨n, hn⟩)
  · have hne : ∀ n, delivered t n ≠ [] := by
      intro n
      rw [not_exists] at hall
      obtain ⟨bytes, hb⟩ := not_forall_not.mp (hall n)
      rw [delivered, hb]
      exact hdata n bytes hb
    rw [or_iff_right hall,
      ← finished_stream_iff true hne fun n => unwrapped_of_lt (by decide) _]
    constructor
    · rintro ⟨n, hread | hfin⟩
      · exact absurd ⟨n, hread⟩ hall
      · exact ⟨n, hfin⟩
    · rintro ⟨n, hfin⟩
      exact ⟨n, .inr hfin⟩

end HttpClient

namespace HttpResponseParser

/-- The last-chunk line sent over and over, a feed each, keeps the parser alive. -/
theorem not_ends_within_bound :
    ¬ ∀ (limits : Limits) (N : Nat), ∃ B, ∀ feeds : List (List UInt8),
      (∀ d ∈ feeds, d ≠ [] ∧ d.length ≤ N) → B < feeds.flatten.length →
      Finished ((new true limits).feedAll feeds).1 := by
  intro h
  obtain ⟨B, hB⟩ := h {} 64
  have hstep : ((new true {}).feed (some chunkedHead)).1.feed (some (lit "0\r\n")) =
      (((new true {}).feed (some chunkedHead)).1, true) := by decide +kernel
  have hrun : ∀ n : Nat, ((new true {}).feedAll (chunkedHead :: List.replicate n (lit "0\r\n"))).1 =
      ((new true {}).feed (some chunkedHead)).1 := by
    intro n
    rw [feedAll_cons]
    induction n with
    | zero => rfl
    | succ n ih =>
        rw [List.replicate_succ, feedAll_cons, hstep]
        exact ih
  have hlong := hB (chunkedHead :: List.replicate (B + 1) (lit "0\r\n")) ?_ ?_
  · rw [hrun (B + 1)] at hlong
    exact absurd hlong (by unfold Finished; decide +kernel)
  · intro d hd
    rw [List.mem_cons] at hd
    obtain rfl | hd := hd
    · decide
    · rw [List.eq_of_mem_replicate hd]
      decide
  · have h3 : (lit "0\r\n").length = 3 := by decide
    rw [List.flatten_cons, List.length_append, List.length_flatten, List.map_replicate,
      List.sum_replicate_nat, h3]
    omega

end HttpResponseParser

end ChaosForger
