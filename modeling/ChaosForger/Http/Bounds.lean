import ChaosForger.Machine
import ChaosForger.Http.Feed

/-!
# ChaosForger.Http.Bounds

How large the parser can grow.  The invariant has two parts: `Within`, kept
by every round of the chunk decoder, bounds the body together with what is
announced of it; `Inv`, kept by every call of `feed`, bounds the buffer in
each phase.  Both need that the sum the decoder compares with the body limit
does not wrap: it cannot with a limit below `2 ^ 63` (`Within.sum_lt`), and has
not when less than `2 ^ 64` bytes are announced afterwards.
-/

namespace ChaosForger

open Search Libc Machine

namespace HttpResponseParser

/-! ## The chunk decoder -/

/-- The decoder within its limits: what is announced of the body fits, and a
chunk in progress is not empty. -/
structure Within (limits : Limits) (p : HttpResponseParser) : Prop where
  limits_eq : p.limits = limits
  announced_le : p.announced ≤ limits.maxBodyBytes
  announced_pos : p.chunkStarted = true → 0 < p.announced

/-- Where the decoder waits between two calls. -/
inductive Resting (limits : Limits) (p : HttpResponseParser) : Prop where
  | sizeLine : p.chunkStarted = false → p.buf.length ≤ limits.maxChunkLineBytes → Resting limits p
  | payload : p.chunkStarted = true → 0 < p.chunkRemaining → p.buf = [] → Resting limits p
  | closing : p.chunkStarted = true → p.chunkRemaining = 0 → p.buf.length < 2 → Resting limits p

section Decoder

variable {limits : Limits} {p q : HttpResponseParser}

theorem Within.body_le (h : Within limits p) : p.resp.body.length ≤ limits.maxBodyBytes := by
  have := h.announced_le
  unfold announced at this
  omega

theorem Within.fail (h : Within limits p) (msg : List UInt8) : Within limits (p.fail msg).1 := by
  have hst : (p.fail msg).1.chunkStarted = p.chunkStarted := by
    unfold HttpResponseParser.fail
    by_cases hs : p.state = .error <;> simp [hs]
  constructor
  · exact (fail_keeps p msg).2.2.1.trans h.limits_eq
  · rw [announced_fail]
    exact h.announced_le
  · rw [announced_fail, hst]
    exact h.announced_pos

/-- Received bytes announce nothing. -/
theorem Within.push (h : Within limits p) (d : List UInt8) : Within limits (p.push d) :=
  ⟨h.limits_eq, h.announced_le, h.announced_pos⟩

/-- **The sum the decoder compares with the limit does not wrap**, and the
comparison is that of the sizes. -/
theorem Within.sum_lt (hlim : limits.maxBodyBytes < 2 ^ 63) (h : Within limits p) (size : Nat) :
    (size ≤ limits.maxBodyBytes → p.resp.body.length + size < 2 ^ 64) ∧
      ((limits.maxBodyBytes < size ∨
          limits.maxBodyBytes < (p.resp.body.length + size) % 2 ^ 64) ↔
        limits.maxBodyBytes < p.resp.body.length + size) := by
  have hbody := h.body_le
  have hsum : size ≤ limits.maxBodyBytes → p.resp.body.length + size < 2 ^ 64 := by omega
  refine ⟨hsum, ?_⟩
  by_cases hsize : size ≤ limits.maxBodyBytes
  · rw [Nat.mod_eq_of_lt (hsum hsize)]
    omega
  · omega

/-- A chunk that is started is within the limits. -/
theorem Within.atPayload (hlim : limits.maxBodyBytes < 2 ^ 63 ∨ q.announced < 2 ^ 64)
    (h : Within limits p) (ha : AtPayload p q) : Within limits q := by
  cases ha with
  | started => exact h
  | @sized eol size _ _ _ hpos hfit hsum =>
      have hlimits := h.limits_eq
      rw [hlimits] at hfit hsum
      have hann : ((p.skipLine eol).startChunk size).announced = p.resp.body.length + size := rfl
      have hle : p.resp.body.length + size ≤ limits.maxBodyBytes := by
        obtain hlim | hlim := hlim
        · have := (h.sum_lt hlim size).2
          omega
        · rw [hann] at hlim
          rwa [Nat.mod_eq_of_lt hlim] at hsum
      constructor
      · exact hlimits
      · rw [hann]
        exact hle
      · rw [hann]
        omega

theorem Within.absorb (h : Within limits q) {n : Nat} (hst : q.chunkStarted = true)
    (hn : n ≤ q.chunkRemaining) (hb : n ≤ q.buf.length) : Within limits (q.absorb n) := by
  have hann := announced_absorb hst hn hb
  constructor
  · exact h.limits_eq
  · rw [hann]
    exact h.announced_le
  · intro _
    rw [hann]
    exact h.announced_pos hst

/-- A further round starts within the limits. -/
theorem Within.again (hlim : limits.maxBodyBytes < 2 ^ 63 ∨ q.announced < 2 ^ 64)
    (h : Within limits p) (hb : p.chunkPass = .again q) : Within limits q := by
  cases chunkRound_of_eq hb with
  | @nextChunk q' ha hle =>
      have hann := announced_absorb ha.body.2 (Nat.le_refl q'.chunkRemaining) hle
      have hlim' : limits.maxBodyBytes < 2 ^ 63 ∨ q'.announced < 2 ^ 64 := by
        refine hlim.imp_right fun hlt => ?_
        rw [← hann]
        simpa [announced, HttpResponseParser.absorb] using hlt
      have hq := (h.atPayload hlim' ha).absorb ha.body.2 (Nat.le_refl _) hle
      constructor
      · exact hq.limits_eq
      · have := hq.body_le
        simpa [announced] using this
      · intro hst
        contradiction

/-- The heads of the loop are within the limits. -/
theorem Within.visits (hlim : limits.maxBodyBytes < 2 ^ 63) (h : Within limits p)
    (hv : chunkLoop.Visits p q) : Within limits q :=
  hv.invariant (fun _ _ hp hb => hp.again (.inl hlim) hb) h

/-- An exit of a round is within the limits, and one that waits is at rest. -/
theorem Within.exit {r : HttpResponseParser × ChunkExit}
    (hlim : limits.maxBodyBytes < 2 ^ 63 ∨ r.1.announced < 2 ^ 64) (h : Within limits p)
    (hb : p.chunkPass = .exit r) :
    Within limits r.1 ∧ (r.2 ≠ .complete → r.2 ≠ .failed → Resting limits r.1) := by
  have hlimits := h.limits_eq
  cases chunkRound_of_eq hb with
  | needSizeLine hst _ hlen => exact ⟨h, fun _ _ => .sizeLine hst (hlimits ▸ hlen)⟩
  | badSizeLine =>
      refine ⟨Within.fail ?_ _, fun _ hf => absurd rfl hf⟩
      exact ⟨hlimits, h.announced_le, h.announced_pos⟩
  | @lastChunk eol hst =>
      have hskip : ∀ n, Within limits { (p.skipLine eol).startTrailers with trailerBytes := n } :=
        fun _ => ⟨hlimits, h.announced_le, h.announced_pos⟩
      obtain ⟨n, ⟨hr, hlen⟩ | ⟨msg, hr⟩ | ⟨k, hr, -⟩⟩ :=
        trailerLoop_exit (p.skipLine eol).startTrailers 0
      · rw [hr]
        exact ⟨hskip n, fun _ _ => .sizeLine hst (hlimits ▸ hlen)⟩
      · rw [hr]
        exact ⟨(hskip n).fail _, fun _ hf => absurd rfl hf⟩
      · rw [hr]
        exact ⟨⟨hlimits, h.announced_le, h.announced_pos⟩, fun hc => absurd rfl hc⟩
  | @needPayload q ha hlt =>
      rw [announced_absorb ha.body.2 (by omega) (Nat.le_refl _)] at hlim
      refine ⟨(h.atPayload hlim ha).absorb ha.body.2 (by omega) (Nat.le_refl _), fun _ _ => ?_⟩
      refine .payload ha.body.2 ?_ (List.drop_length ..)
      change 0 < q.chunkRemaining - q.buf.length
      omega
  | @needCrlf q ha hle hlen =>
      rw [announced_absorb ha.body.2 (Nat.le_refl _) hle] at hlim
      refine ⟨(h.atPayload hlim ha).absorb ha.body.2 (Nat.le_refl _) hle, fun _ _ => ?_⟩
      refine .closing ha.body.2 (Nat.sub_self _) ?_
      rw [HttpResponseParser.absorb, List.length_drop]
      exact hlen
  | badCrlf ha hle =>
      rw [failExit, announced_fail, announced_absorb ha.body.2 (Nat.le_refl _) hle] at hlim
      refine ⟨Within.fail ?_ _, fun _ hf => absurd rfl hf⟩
      exact (h.atPayload hlim ha).absorb ha.body.2 (Nat.le_refl _) hle

/-- **A call of the decoder stays within the limits**, and one that waits
leaves it at rest. -/
theorem Within.run
    (hlim : limits.maxBodyBytes < 2 ^ 63 ∨ (chunkLoop.run p).1.announced < 2 ^ 64)
    (h : Within limits p) :
    Within limits (chunkLoop.run p).1 ∧
      ((chunkLoop.run p).2 ≠ .complete → (chunkLoop.run p).2 ≠ .failed →
        Resting limits (chunkLoop.run p).1) := by
  induction p using chunkLoop.induct with
  | again p p' hb ih =>
      rw [Loop.run_of_again hb] at hlim ⊢
      have hnext : limits.maxBodyBytes < 2 ^ 63 ∨ p'.announced < 2 ^ 64 :=
        hlim.imp_right (Nat.lt_of_le_of_lt (announced_le_run p'))
      exact ih hlim (h.again hnext hb)
  | exit p r hb =>
      rw [Loop.run_of_exit hb] at hlim ⊢
      exact h.exit hlim hb

end Decoder

/-! ## The header phase -/

/-- The parts of the parser only the body phase sets. -/
def SameBody (p q : HttpResponseParser) : Prop :=
  q.resp.body = p.resp.body ∧ q.chunkStarted = p.chunkStarted ∧
    q.chunkRemaining = p.chunkRemaining ∧ q.limits = p.limits ∧
    q.allowEofTermination = p.allowEofTermination

theorem SameBody.rfl {p : HttpResponseParser} : SameBody p p :=
  ⟨Eq.refl _, Eq.refl _, Eq.refl _, Eq.refl _, Eq.refl _⟩

theorem SameBody.trans {p q r : HttpResponseParser} (h : SameBody p q) (h' : SameBody q r) :
    SameBody p r :=
  ⟨h'.1.trans h.1, h'.2.1.trans h.2.1, h'.2.2.1.trans h.2.2.1, h'.2.2.2.1.trans h.2.2.2.1,
    h'.2.2.2.2.trans h.2.2.2.2⟩

theorem sameBody_fail (p : HttpResponseParser) (msg : List UInt8) : SameBody p (p.fail msg).1 := by
  unfold fail SameBody
  by_cases h : p.state = .error <;> simp [h]

theorem SameBody.announced {p q : HttpResponseParser} (h : SameBody p q) :
    q.announced = p.announced := by
  unfold HttpResponseParser.announced
  rw [h.1, h.2.1, h.2.2.1]

theorem sameBody_parseStatusLine (p : HttpResponseParser) (e : Nat) :
    SameBody p (p.parseStatusLine e).1 := by
  unfold parseStatusLine
  dsimp only
  split
  · exact sameBody_fail _ _
  · split
    · exact sameBody_fail _ _
    · split
      · exact sameBody_fail _ _
      · split
        · exact SameBody.rfl.trans (sameBody_fail _ _)
        · exact SameBody.rfl

theorem sameBody_parseHeaderLines (p : HttpResponseParser) (lines : List (List UInt8)) :
    SameBody p (p.parseHeaderLines lines).1 := by
  induction lines generalizing p with
  | nil => exact SameBody.rfl
  | cons line lines ih =>
      rw [parseHeaderLines]
      obtain ⟨fr, n, -, hp⟩ | ⟨msg, -, hp⟩ := parseHeaderLine_spec p line
      · rw [hp]
        exact SameBody.trans SameBody.rfl (ih _)
      · rw [hp]
        exact sameBody_fail p msg

theorem sameBody_parseHead (p : HttpResponseParser) (e : Nat) :
    SameBody p (p.parseHead e).1 := by
  have hstatus := sameBody_parseStatusLine p e
  unfold parseHead
  split
  · next q hq =>
      rw [hq] at hstatus
      exact hstatus
  · next q hq =>
      rw [hq] at hstatus
      rw [parseHeaders_eq]
      exact hstatus.trans (SameBody.rfl.trans (sameBody_parseHeaderLines _ _))

/-- An early return of the header arm has not touched the body. -/
theorem sameBody_of_enterBody {p : HttpResponseParser} {r : HttpResponseParser × Bool}
    (h : p.enterBody = .error r) : SameBody p r.1 := by
  unfold enterBody at h
  split at h
  · split at h
    · rw [Except.error.injEq] at h
      rw [← h]
      exact SameBody.rfl
    · next e he =>
        have hhead := sameBody_parseHead p e
        split at h
        · next q hq =>
            rw [hq] at hhead
            rw [Except.error.injEq] at h
            rw [← h]
            exact hhead
        · next q hq =>
            rw [hq] at hhead
            unfold selectBody at h
            dsimp only at h
            split at h
            · contradiction
            · contradiction
            all_goals
              split at h
              · contradiction
              · rw [Except.error.injEq] at h
                rw [← h]
                exact hhead.trans (SameBody.rfl.trans (sameBody_fail _ _))
  · contradiction

/-- The length a header line sets is within the body limit. -/
theorem length_le_of_lineKind {limits : Limits} {line : List UInt8} {n : Nat}
    (h : lineKind limits line = .contentLength (some n)) : n ≤ limits.maxBodyBytes := by
  unfold lineKind at h
  split at h
  · cases h
  · cases h
  · split at h
    · rw [LineKind.contentLength.injEq, lengthOf] at h
      split at h
      · cases h
      · split at h
        · cases h
        · rw [Option.some.injEq] at h
          omega
    · split at h <;> cases h

/-- A Content-Length that is accepted is within the body limit. -/
theorem length_le_of_frameLines {limits : Limits} {s t : Framing × Nat}
    {lines : List (List UInt8)} (hs : s.1 = .contentLength → s.2 ≤ limits.maxBodyBytes)
    (h : frameLines limits s lines = some t) (ht : t.1 = .contentLength) :
    t.2 ≤ limits.maxBodyBytes := by
  induction lines generalizing s with
  | nil =>
      rw [frameLines, Option.some.injEq] at h
      rw [← h] at ht ⊢
      exact hs ht
  | cons line lines ih =>
      rw [frameLines, Option.bind_eq_some_iff] at h
      obtain ⟨s', hs', h⟩ := h
      refine ih (fun hfr => ?_) h
      unfold frameLine at hs'
      split at hs'
      · rw [Option.some.injEq] at hs'
        rw [← hs'] at hfr ⊢
        exact hs hfr
      · rw [Option.some.injEq] at hs'
        rw [← hs'] at hfr
        contradiction
      · next length hkind =>
          split at hs'
          · rw [Option.some.injEq] at hs'
            rw [← hs'] at hfr ⊢
            exact hs hfr
          · rw [Option.map_eq_some_iff] at hs'
            obtain ⟨n, rfl, rfl⟩ := hs'
            exact length_le_of_lineKind hkind

theorem HeadInfo.length_le {limits : Limits} {b : List UInt8} {e : Nat} {i : HeadInfo}
    (hi : headInfo limits b e = some i) (hfr : i.framing = .contentLength) :
    i.length ≤ limits.maxBodyBytes := by
  rw [headInfo, Option.bind_eq_some_iff] at hi
  obtain ⟨⟨s, t⟩, -, hi⟩ := hi
  rw [Option.map_eq_some_iff] at hi
  obtain ⟨⟨fr, n⟩, hf, rfl⟩ := hi
  exact length_le_of_frameLines (fun h => by contradiction) hf hfr

/-! ## The invariant -/

/-- What holds between two calls, phase by phase. -/
def Phase (allow : Bool) (limits : Limits) (p : HttpResponseParser) : Prop :=
  match p.state with
  | .statusLine | .headers =>
      p = awaiting allow limits p.buf ∧ p.buf.length ≤ limits.maxHeaderBytes
  | .bodyContentLength =>
      p.announced = 0 ∧ p.buf.length < p.contentLength ∧ p.contentLength ≤ limits.maxBodyBytes
  | .bodyChunked => Within limits p ∧ Resting limits p
  | .bodyEof => p.announced = 0 ∧ p.buf.length ≤ max limits.maxHeaderBytes limits.maxBodyBytes
  | .done | .error => p.announced ≤ max limits.maxHeaderBytes limits.maxBodyBytes

structure Inv (allow : Bool) (limits : Limits) (p : HttpResponseParser) : Prop where
  limits_eq : p.limits = limits
  allow_eq : p.allowEofTermination = allow
  phase : Phase allow limits p

section Invariant

variable {allow : Bool} {limits : Limits} {p : HttpResponseParser}

theorem inv_new : Inv allow limits (new allow limits) :=
  ⟨rfl, rfl, rfl, Nat.zero_le _⟩

theorem inv_awaiting {b : List UInt8} (hb : b.length ≤ limits.maxHeaderBytes) :
    Inv allow limits (awaiting allow limits b) :=
  ⟨rfl, rfl, rfl, hb⟩

/-- In every phase the body and what is announced of it are bounded. -/
theorem Inv.announced_le (h : Inv allow limits p) :
    p.announced ≤ max limits.maxHeaderBytes limits.maxBodyBytes := by
  have hphase := h.phase
  unfold Phase at hphase
  split at hphase
  case h_1 | h_2 =>
    rw [hphase.1]
    exact Nat.zero_le _
  case h_3 | h_5 =>
    rw [hphase.1]
    exact Nat.zero_le _
  case h_4 => exact Nat.le_trans hphase.1.announced_le (Nat.le_max_right _ _)
  case h_6 | h_7 => exact hphase

/-- An error keeps the invariant. -/
theorem inv_of_error {q : HttpResponseParser} (hs : q.state = .error) (hsame : SameBody p q)
    (hl : p.limits = limits) (ha : p.allowEofTermination = allow)
    (hann : p.announced ≤ max limits.maxHeaderBytes limits.maxBodyBytes) : Inv allow limits q := by
  constructor
  · exact hsame.2.2.2.1.trans hl
  · exact hsame.2.2.2.2.trans ha
  · unfold Phase
    rw [hs, hsame.announced]
    exact hann

theorem inv_fail (hl : p.limits = limits) (ha : p.allowEofTermination = allow)
    (hann : p.announced ≤ max limits.maxHeaderBytes limits.maxBodyBytes) (msg : List UInt8) :
    Inv allow limits (p.fail msg).1 :=
  inv_of_error (fail_state p msg) (sameBody_fail p msg) hl ha hann

/-- The Content-Length step keeps the invariant. -/
theorem inv_bodyStepContentLength (hl : p.limits = limits) (ha : p.allowEofTermination = allow)
    (hs : p.state = .bodyContentLength) (h0 : p.announced = 0)
    (hn : p.contentLength ≤ limits.maxBodyBytes) :
    Inv allow limits p.bodyStepContentLength.1 := by
  have hmax := Nat.le_max_right limits.maxHeaderBytes limits.maxBodyBytes
  unfold announced at h0
  obtain ⟨hlt, hp⟩ | ⟨heq, hp⟩ | ⟨hgt, msg, hp⟩ := bodyStepContentLength_spec p
  · rw [hp]
    constructor
    · exact hl
    · exact ha
    · unfold Phase
      rw [hs]
      exact ⟨h0, hlt, hn⟩
  · rw [hp]
    constructor
    · exact hl
    · exact ha
    · show p.buf.length + (if p.chunkStarted then p.chunkRemaining else 0) ≤ _
      omega
  · rw [hp]
    apply inv_fail
    · exact hl
    · exact ha
    · show (p.buf.take p.contentLength).length +
        (if p.chunkStarted then p.chunkRemaining else 0) ≤ _
      rw [List.length_take]
      omega

/-- A call of the chunk decoder keeps the invariant. -/
theorem inv_run (hlim : limits.maxBodyBytes < 2 ^ 63 ∨ (chunkLoop.run p).1.announced < 2 ^ 64)
    (ha : p.allowEofTermination = allow)
    (hs : p.state = .bodyChunked) (hw : Within limits p) :
    Inv allow limits (chunkLoop.run p).1 := by
  obtain ⟨hwr, hrest⟩ := hw.run hlim
  have hstate := run_state hs
  unfold ExitState at hstate
  constructor
  · exact hwr.limits_eq
  · exact (run_sameHead p).2.1.trans ha
  · have hmax := Nat.le_trans hwr.announced_le (Nat.le_max_right limits.maxHeaderBytes _)
    unfold Phase
    split at hstate
    · rw [hstate]
      exact hmax
    · rw [hstate]
      exact hmax
    · next hfailed hcomplete =>
        rw [hstate]
        exact ⟨hwr, hrest hcomplete hfailed⟩

/-- The body step right behind an accepted header block. -/
theorem inv_stepBody_atBody {i : HeadInfo} {b : List UInt8}
    (hlim : limits.maxBodyBytes < 2 ^ 63 ∨ (i.framing = .chunked →
      (chunkLoop.run (atBody allow limits i b)).1.announced < 2 ^ 64))
    (hn : i.framing = .contentLength → i.length ≤ limits.maxBodyBytes)
    (hb : b.length ≤ limits.maxHeaderBytes) :
    Inv allow limits (atBody allow limits i b).stepBody.1 := by
  have heof : (atBody allow limits i b).state = .bodyEof →
      Inv allow limits (atBody allow limits i b).stepBody.1 := by
    intro hs
    have hstep : (atBody allow limits i b).stepBody = (atBody allow limits i b, true) := by
      rw [stepBody, hs]
    rw [hstep]
    constructor
    · rfl
    · rfl
    · unfold Phase
      rw [hs]
      exact ⟨rfl, Nat.le_trans hb (Nat.le_max_left _ _)⟩
  cases hfr : i.framing with
  | none => exact heof (by rw [atBody, hfr, bodyState])
  | eof => exact heof (by rw [atBody, hfr, bodyState])
  | contentLength =>
      have hs : (atBody allow limits i b).state = .bodyContentLength := by
        rw [atBody, hfr, bodyState]
      rw [stepBody, hs]
      exact inv_bodyStepContentLength rfl rfl hs rfl (hn hfr)
  | chunked =>
      have hs : (atBody allow limits i b).state = .bodyChunked := by
        rw [atBody, hfr, bodyState]
      have hw : Within limits (atBody allow limits i b) :=
        ⟨rfl, Nat.zero_le _, fun h => by contradiction⟩
      rw [stepBody, hs]
      exact inv_run (hlim.imp_right fun hlt => hlt hfr) rfl hs hw

/-- The call `p.feed (some d)` leaves less than `2 ^ 64` bytes of a chunked body
announced, so that no sum of it has wrapped. -/
def SumsFit (p : HttpResponseParser) (d : List UInt8) : Prop :=
  ∀ r, (p.push d).enterBody = .ok r → r.state = .bodyChunked →
    (chunkLoop.run r).1.announced < 2 ^ 64

/-- **A call in the header phase keeps the invariant**, also when it goes on
into the body. -/
theorem inv_feed_awaiting {b d : List UInt8}
    (hlim : limits.maxBodyBytes < 2 ^ 63 ∨ SumsFit (awaiting allow limits b) d) :
    Inv allow limits ((awaiting allow limits b).feed (some d)).1 := by
  by_cases hlen : (b ++ d).length ≤ limits.maxHeaderBytes
  · rw [feed_awaiting hlen, step]
    cases he : find blankLine (b ++ d) with
    | none =>
        rw [enterBody_of_incomplete he]
        exact inv_awaiting hlen
    | some e =>
        by_cases hacc : ∃ i, headInfo limits (b ++ d) e = some i ∧ i.Accepted allow
        · obtain ⟨i, hi, ha⟩ := hacc
          rw [enterBody_of_accepted he hi ha]
          have hsum : limits.maxBodyBytes < 2 ^ 63 ∨ (i.framing = .chunked → (chunkLoop.run
              (atBody allow limits i ((b ++ d).drop (e + 4)))).1.announced < 2 ^ 64) :=
            hlim.imp_right fun hfit hfr =>
              hfit _ (enterBody_of_accepted he hi ha) (by rw [atBody, hfr, bodyState])
          refine inv_stepBody_atBody hsum (HeadInfo.length_le hi) ?_
          rw [List.length_drop]
          omega
        · obtain ⟨q, hq, hqs⟩ := enterBody_of_rejected he
            fun i hi ha => hacc ⟨i, hi, ha⟩
          have hsame := sameBody_of_enterBody hq
          rw [hq]
          exact inv_of_error hqs hsame rfl rfl (Nat.zero_le _)
  · obtain ⟨msg, hfeed⟩ := feed_awaiting_over (Nat.lt_of_not_le hlen)
    rw [hfeed]
    exact inv_fail (p := awaiting allow limits (b ++ d)) rfl rfl (Nat.zero_le _) msg

/-- **Every call keeps the invariant** whose sums do not wrap. -/
theorem Inv.feed (h : Inv allow limits p) (d : Option (List UInt8))
    (hlim : limits.maxBodyBytes < 2 ^ 63 ∨ ∀ bytes, d = some bytes → SumsFit p bytes) :
    Inv allow limits (p.feed d).1 := by
  have hann := h.announced_le
  have hphase := h.phase
  unfold Phase at hphase
  cases d with
  | none =>
      by_cases hd : p.state = .done
      · rw [feed_of_done hd]
        exact h
      · by_cases he : p.state = .error
        · rw [feed_of_error he]
          exact h
        · unfold HttpResponseParser.feed
          rw [if_neg hd, if_neg he]
          dsimp only
          split
          · next heof =>
              rw [heof.1] at hphase
              have h0 := hphase.1
              unfold announced at h0
              constructor
              · exact h.limits_eq
              · exact h.allow_eq
              · show p.buf.length + (if p.chunkStarted then p.chunkRemaining else 0) ≤ _
                omega
          · exact inv_fail h.limits_eq h.allow_eq hann _
  | some d =>
      cases hs : p.state with
      | statusLine | headers =>
          rw [hs] at hphase
          rw [hphase.1] at hlim ⊢
          exact inv_feed_awaiting (hlim.imp_right fun hfit => hfit d rfl)
      | bodyContentLength =>
          rw [hs] at hphase
          rw [feed_contentLength hs]
          exact inv_bodyStepContentLength h.limits_eq h.allow_eq hs hphase.1 hphase.2.2
      | bodyChunked =>
          rw [hs] at hphase
          have henter := enterBody_of_chunked (p := p.push d) hs
          rw [feed_chunked hs]
          exact inv_run (hlim.imp_right fun hfit => hfit d rfl _ henter hs) h.allow_eq hs
            (hphase.1.push d)
      | bodyEof =>
          rw [hs] at hphase
          have hfeed := feed_eofBody hs d
          rw [h.limits_eq] at hfeed
          by_cases hlen : (p.push d).buf.length ≤ limits.maxBodyBytes
          · rw [hfeed.1 hlen]
            constructor
            · exact h.limits_eq
            · exact h.allow_eq
            · have hs' : (p.push d).state = .bodyEof := hs
              unfold Phase
              rw [hs']
              exact ⟨hphase.1, Nat.le_trans hlen (Nat.le_max_right _ _)⟩
          · obtain ⟨msg, hmsg⟩ := hfeed.2 (Nat.lt_of_not_le hlen)
            rw [hmsg]
            exact inv_fail (p := p.push d) h.limits_eq h.allow_eq hann msg
      | done =>
          rw [feed_of_done hs]
          exact h
      | error =>
          rw [feed_of_error hs]
          exact h

/-- **The invariant holds after any calls**, EOF markers included. -/
theorem Inv.of_reachable (hlim : limits.maxBodyBytes < 2 ^ 63)
    (h : Reachable (fun p d => (p.feed d).1) (new allow limits) p) : Inv allow limits p :=
  h.invariant inv_new fun _ d hp => hp.feed d (.inl hlim)

/-- The call `p.feed (some d)` comes to the head of the chunk loop as `q`. -/
def ChunkHead (p : HttpResponseParser) (d : List UInt8) (q : HttpResponseParser) : Prop :=
  ∃ r, (p.push d).enterBody = .ok r ∧ r.state = .bodyChunked ∧ chunkLoop.Visits r q

/-- The decoder is entered within its limits, whichever call enters it. -/
theorem Inv.within_of_enterBody (h : Inv allow limits p) {d : List UInt8}
    {r : HttpResponseParser} (hr : (p.push d).enterBody = .ok r) (hs : r.state = .bodyChunked) :
    Within limits r := by
  have hphase := h.phase
  unfold Phase at hphase
  have hbody : (∀ b, p ≠ awaiting allow limits b) → p.state = .bodyChunked := by
    intro hne
    have hhead : p.state ≠ .statusLine ∧ p.state ≠ .headers := by
      constructor <;>
      · intro hst
        rw [hst] at hphase
        exact hne _ hphase.1
    have hst : (p.push d).state = p.state := rfl
    rw [enterBody, hst, if_neg (by simp [hhead]), Except.ok.injEq] at hr
    rw [← hst, hr, hs]
  by_cases hw : ∃ b, p = awaiting allow limits b
  · obtain ⟨b, rfl⟩ := hw
    have hpush : (awaiting allow limits b).push d = awaiting allow limits (b ++ d) := rfl
    rw [hpush] at hr
    cases he : find blankLine (b ++ d) with
    | none => simp [enterBody_of_incomplete he] at hr
    | some e =>
        by_cases hacc : ∃ i, headInfo limits (b ++ d) e = some i ∧ i.Accepted allow
        · obtain ⟨i, hi, ha⟩ := hacc
          rw [enterBody_of_accepted he hi ha, Except.ok.injEq] at hr
          rw [← hr]
          exact ⟨rfl, Nat.zero_le _, fun h => by contradiction⟩
        · obtain ⟨q, hq, -⟩ := enterBody_of_rejected he fun i hi ha => hacc ⟨i, hi, ha⟩
          simp [hq] at hr
  · have hst := hbody fun b hb => hw ⟨b, hb⟩
    rw [enterBody_of_chunked (p := p.push d) hst, Except.ok.injEq] at hr
    rw [hst] at hphase
    rw [← hr]
    exact hphase.1.push d

/-! ## Bounded memory -/

/-- What the limits bound between two calls, and the size comparisons of the
next one. -/
structure Bounded (limits : Limits) (p : HttpResponseParser) : Prop where
  body : p.resp.body.length ≤ limits.maxBodyBytes
  buf : p.state ≠ .done → p.state ≠ .error →
    p.buf.length ≤ limits.maxBodyBytes + limits.maxChunkLineBytes
  header : p.state = .statusLine ∨ p.state = .headers → p.buf.length ≤ limits.maxHeaderBytes
  contentLength : p.state = .bodyContentLength →
    p.buf.length < p.contentLength ∧ p.contentLength ≤ limits.maxBodyBytes
  chunk : p.chunkStarted = true → p.resp.body.length + p.chunkRemaining ≤ limits.maxBodyBytes
  sum : ∀ d q, ChunkHead p d q → ∀ size < 2 ^ 64,
    (size ≤ limits.maxBodyBytes → q.resp.body.length + size < 2 ^ 64) ∧
      ((limits.maxBodyBytes < size ∨
          limits.maxBodyBytes < (q.resp.body.length + size) % 2 ^ 64) ↔
        limits.maxBodyBytes < q.resp.body.length + size)

/-- At rest the decoder keeps at most an incomplete line. -/
theorem Resting.length_buf_le (h : Resting limits p) (hw : Within limits p) :
    p.buf.length ≤ limits.maxBodyBytes + limits.maxChunkLineBytes := by
  cases h with
  | sizeLine _ hlen => omega
  | payload _ _ hbuf =>
      rw [hbuf]
      exact Nat.zero_le _
  | closing hst _ hlen =>
      have hpos := hw.announced_pos hst
      have hle := hw.announced_le
      omega

/-- **Bounded memory**: no bytes in no segmentation take the parser beyond
its limits. -/
theorem bounded_of_reachable (hheader : limits.maxHeaderBytes ≤ limits.maxBodyBytes)
    (hbody : limits.maxBodyBytes < 2 ^ 63)
    (h : Reachable (fun p d => (p.feed d).1) (new allow limits) p) : Bounded limits p := by
  have hinv := Inv.of_reachable hbody h
  have hphase := hinv.phase
  have hann : p.announced ≤ limits.maxBodyBytes := by
    have := hinv.announced_le
    omega
  unfold announced at hann
  unfold Phase at hphase
  constructor
  case body => omega
  case buf =>
    intro hd he
    split at hphase
    case h_1 | h_2 => omega
    case h_3 => omega
    case h_4 => exact hphase.2.length_buf_le hphase.1
    case h_5 => omega
    case h_6 hs => exact absurd hs hd
    case h_7 hs => exact absurd hs he
  case header =>
    intro hs
    obtain hs | hs := hs
    · rw [hs] at hphase
      exact hphase.2
    · rw [hs] at hphase
      exact hphase.2
  case contentLength =>
    intro hs
    rw [hs] at hphase
    exact hphase.2
  case chunk =>
    intro hst
    rw [hst, if_pos rfl] at hann
    exact hann
  case sum =>
    intro d q hq size _
    obtain ⟨r, hr, hs, hv⟩ := hq
    exact ((hinv.within_of_enterBody hr hs).visits hbody hv).sum_lt hbody size

/-- With the limits `HttpClient` uses, behind the head of a chunked response. -/
theorem bounded_of_reachable_defaults :
    Bounded {} ((new true {}).feed
      (some (lit "HTTP/1.1 200 OK\r\nTransfer-Encoding: chunked\r\n\r\n5\r\nhel"))).1 :=
  bounded_of_reachable (by decide) (by decide) (.step (some _) .init)

end Invariant

end HttpResponseParser

end ChaosForger
