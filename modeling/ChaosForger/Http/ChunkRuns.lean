import ChaosForger.Http.Chunked

/-!
# ChaosForger.Http.ChunkRuns

Whole calls of the chunk decoder.  The first half is what any call keeps,
each fact one step lemma over the rounds and one use of the loop's induction:
the settings and the head of the response, the state that goes with the exit,
the buffer as a suffix, the body that only grows.  The second half runs the
decoder forward over well-formed input.
-/

namespace ChaosForger

open Search Libc

namespace HttpResponseParser

/-! ## What a call keeps -/

/-- The parts of the parser the body phase never touches. -/
def SameHead (p q : HttpResponseParser) : Prop :=
  q.limits = p.limits ∧ q.allowEofTermination = p.allowEofTermination ∧
    q.resp.status = p.resp.status ∧ q.resp.statusText = p.resp.statusText

theorem SameHead.rfl {p : HttpResponseParser} : SameHead p p := ⟨Eq.refl _, Eq.refl _, Eq.refl _, Eq.refl _⟩

theorem SameHead.trans {p q r : HttpResponseParser} (h : SameHead p q) (h' : SameHead q r) :
    SameHead p r :=
  ⟨h'.1.trans h.1, h'.2.1.trans h.2.1, h'.2.2.1.trans h.2.2.1, h'.2.2.2.trans h.2.2.2⟩

theorem sameHead_fail (p : HttpResponseParser) (msg : List UInt8) : SameHead p (p.fail msg).1 := by
  unfold fail SameHead
  by_cases h : p.state = .error <;> simp [h]

theorem AtPayload.sameHead {p q : HttpResponseParser} (h : AtPayload p q) : SameHead p q := by
  cases h <;> exact SameHead.rfl

theorem AtPayload.state {p q : HttpResponseParser} (h : AtPayload p q) : q.state = p.state := by
  cases h <;> rfl

/-- In front of a payload the chunk is in progress and the body as it was. -/
theorem AtPayload.body {p q : HttpResponseParser} (h : AtPayload p q) :
    q.resp.body = p.resp.body ∧ q.chunkStarted = true := by
  cases h with
  | started hst => exact ⟨rfl, hst⟩
  | sized => exact ⟨rfl, rfl⟩

theorem AtPayload.suffix {p q : HttpResponseParser} (h : AtPayload p q) : q.buf <:+ p.buf := by
  cases h with
  | started => exact List.suffix_rfl
  | sized => exact List.drop_suffix _ _

/-- The state a decoder call leaves fits its exit. -/
def ExitState (r : HttpResponseParser × ChunkExit) : Prop :=
  match r.2 with
  | .failed => r.1.state = .error
  | .complete => r.1.state = .done
  | _ => r.1.state = .bodyChunked

/-- **A decoder call keeps the head of the response** and the settings. -/
theorem run_sameHead (p : HttpResponseParser) : SameHead p (chunkLoop.run p).1 := by
  induction p using chunkLoop.induct with
  | again p p' hb ih =>
      rw [Loop.run_of_again hb]
      refine SameHead.trans ?_ ih
      cases chunkRound_of_eq hb with
      | nextChunk h => exact h.sameHead
  | exit p r hb =>
      rw [Loop.run_of_exit hb]
      cases chunkRound_of_eq hb with
      | needSizeLine => exact SameHead.rfl
      | badSizeLine => exact SameHead.trans SameHead.rfl (sameHead_fail _ _)
      | lastChunk =>
          obtain ⟨n, ⟨h, -⟩ | ⟨msg, h⟩ | ⟨k, h, -⟩⟩ := trailerLoop_exit (startTrailers _) 0
          · rw [h]; exact SameHead.rfl
          · rw [h]; exact SameHead.trans SameHead.rfl (sameHead_fail _ _)
          · rw [h]; exact SameHead.rfl
      | needPayload h => exact h.sameHead
      | needCrlf h => exact h.sameHead
      | badCrlf h => exact h.sameHead.trans (SameHead.trans SameHead.rfl (sameHead_fail _ _))

/-- **A decoder call leaves the state its exit says.** -/
theorem run_state {p : HttpResponseParser} (hp : p.state = .bodyChunked) :
    ExitState (chunkLoop.run p) := by
  refine chunkLoop.run_invariant (P := fun p => p.state = .bodyChunked) ?_ ?_ p hp
  · intro p p' hp hb
    cases chunkRound_of_eq hb with
    | nextChunk h => exact h.state.trans hp
  · intro p r hp hb
    cases chunkRound_of_eq hb with
    | needSizeLine => exact hp
    | badSizeLine => exact failExit_state _ _
    | lastChunk =>
        obtain ⟨n, ⟨h, -⟩ | ⟨msg, h⟩ | ⟨k, h, -⟩⟩ := trailerLoop_exit (startTrailers _) 0
        · rw [h]; exact hp
        · rw [h]; exact failExit_state _ _
        · rw [h]; exact Eq.refl State.done
    | needPayload h => exact h.state.trans hp
    | needCrlf h => exact h.state.trans hp
    | badCrlf h => exact failExit_state _ _

theorem fail_buf (p : HttpResponseParser) (msg : List UInt8) : (p.fail msg).1.buf = p.buf :=
  (fail_keeps p msg).1

/-- **A decoder call only uses bytes up from the front.** -/
theorem run_suffix (p : HttpResponseParser) : (chunkLoop.run p).1.buf <:+ p.buf := by
  induction p using chunkLoop.induct with
  | again p p' hb ih =>
      rw [Loop.run_of_again hb]
      refine ih.trans ?_
      cases chunkRound_of_eq hb with
      | nextChunk h => exact (List.drop_suffix _ _).trans h.suffix
  | exit p r hb =>
      rw [Loop.run_of_exit hb]
      cases chunkRound_of_eq hb with
      | needSizeLine => exact List.suffix_rfl
      | badSizeLine =>
          rw [failExit, fail_buf]
          exact List.drop_suffix _ _
      | @lastChunk eol =>
          have hskip : (p.skipLine eol).startTrailers.buf <:+ p.buf := List.drop_suffix _ _
          obtain ⟨n, ⟨h, -⟩ | ⟨msg, h⟩ | ⟨k, h, -⟩⟩ :=
            trailerLoop_exit (p.skipLine eol).startTrailers 0
          · rw [h]; exact hskip
          · rw [h, failExit, fail_buf]; exact hskip
          · rw [h]; exact (List.drop_suffix _ _).trans hskip
      | needPayload h => exact (List.drop_suffix _ _).trans h.suffix
      | needCrlf h => exact (List.drop_suffix _ _).trans h.suffix
      | badCrlf h =>
          rw [failExit, fail_buf]
          exact (List.drop_suffix _ _).trans h.suffix

/-- A trailer loop that completes stops at the break of a blank line. -/
theorem trailerLoop_complete {p q : HttpResponseParser} {tpos : Nat}
    (h : trailerLoop.run (p, tpos) = (q, .complete)) :
    ∃ n k, q = { p with
        trailerBytes := n
        chunkTrailerDone := true
        buf := p.buf.drop (k + 2)
        state := .done } ∧ crlf <+: p.buf.drop k ∧
      (k = tpos ∨ (tpos + 2 ≤ k ∧ crlf <+: p.buf.drop (k - 2))) := by
  obtain ⟨n, ⟨hr, -⟩ | ⟨msg, hr⟩ | ⟨k, hr, hcr, hk⟩⟩ := trailerLoop_exit p tpos
  · simp [hr] at h
  · simp [hr, failExit] at h
  · rw [hr, Prod.mk.injEq] at h
    exact ⟨n, k, h.1.symm, hcr, hk⟩

/-- The round that completes reads a last-chunk line. -/
theorem lastChunk_of_complete {p q : HttpResponseParser} (h : p.chunkPass = .exit (q, .complete)) :
    ∃ eol, p.chunkStarted = false ∧ find crlf p.buf = some eol ∧
      chunkSize (p.buf.take eol) = some 0 ∧
      trailerLoop.run ((p.skipLine eol).startTrailers, 0) = (q, .complete) := by
  generalize hr : ((q, ChunkExit.complete) : HttpResponseParser × ChunkExit) = r at h
  cases chunkRound_of_eq h with
  | needSizeLine => simp at hr
  | badSizeLine => simp [failExit] at hr
  | needPayload => simp at hr
  | needCrlf => simp at hr
  | badCrlf => simp [failExit] at hr
  | @lastChunk eol hst hf hzero => exact ⟨eol, hst, hf, hzero, rfl⟩

/-- **Completion takes a blank line**: a call only completes when the buffer
it started with shows one. -/
theorem blankLine_of_complete {p q : HttpResponseParser}
    (h : chunkLoop.run p = (q, .complete)) : blankLine <:+: p.buf := by
  induction p using chunkLoop.induct with
  | again p p' hb ih =>
      rw [Loop.run_of_again hb] at h
      refine (ih h).trans ?_
      cases chunkRound_of_eq hb with
      | nextChunk ha => exact ((List.drop_suffix _ _).trans ha.suffix).isInfix
  | exit p r hb =>
      rw [Loop.run_of_exit hb] at h
      subst h
      obtain ⟨eol, -, hf, -, hrun⟩ := lastChunk_of_complete hb
      obtain ⟨n, k, -, hcr, hk⟩ := trailerLoop_complete hrun
      have hcr' : crlf <+: p.buf.drop (eol + 2 + k) := by
        rw [← List.drop_drop]
        exact hcr
      have hprev : crlf <+: p.buf.drop (eol + k) := by
        obtain rfl | ⟨hk, hprev⟩ := hk
        · exact (find_eq_some_iff.mp hf).2.1
        · have heq : eol + k = eol + 2 + (k - 2) := by omega
          rw [heq, ← List.drop_drop]
          exact hprev
      obtain ⟨t, ht⟩ := hprev
      have htail : p.buf.drop (eol + 2 + k) = t := by
        have : eol + 2 + k = eol + k + 2 := by omega
        rw [this, ← List.drop_drop, ← ht]
        rfl
      rw [htail] at hcr'
      obtain ⟨t', ht'⟩ := hcr'
      refine ⟨p.buf.take (eol + k), t', ?_⟩
      rw [blankLine, List.append_assoc, List.append_assoc, ht', ht, List.take_append_drop]

/-! ## The body only grows -/

/-- The size the body has been announced to reach by the chunk in progress. -/
def announced (p : HttpResponseParser) : Nat :=
  p.resp.body.length + if p.chunkStarted then p.chunkRemaining else 0

/-- In front of a payload nothing announced before is taken back. -/
theorem AtPayload.announced_le {p q : HttpResponseParser} (h : AtPayload p q) :
    p.announced ≤ q.announced := by
  cases h with
  | started => exact Nat.le_refl _
  | sized hst => simp [announced, hst, skipLine, startChunk]

/-- Absorbing what is there of a payload keeps the announced size. -/
theorem announced_absorb {q : HttpResponseParser} {n : Nat} (hst : q.chunkStarted = true)
    (hn : n ≤ q.chunkRemaining) (hb : n ≤ q.buf.length) : (q.absorb n).announced = q.announced := by
  simp only [announced, absorb, hst, if_true, List.length_append, List.length_take]
  omega

theorem announced_fail (p : HttpResponseParser) (msg : List UInt8) :
    (p.fail msg).1.announced = p.announced := by
  unfold fail announced
  by_cases h : p.state = .error <;> simp [h]

/-- **The announced body size never shrinks** in a decoder call. -/
theorem announced_le_run (p : HttpResponseParser) : p.announced ≤ (chunkLoop.run p).1.announced := by
  induction p using chunkLoop.induct with
  | again p p' hb ih =>
      rw [Loop.run_of_again hb]
      refine Nat.le_trans ?_ ih
      cases chunkRound_of_eq hb with
      | @nextChunk q h hle =>
          have habs := announced_absorb h.body.2 (Nat.le_refl _) hle
          refine Nat.le_trans h.announced_le (Nat.le_of_eq (habs.symm.trans ?_))
          simp [announced, absorb]
  | exit p r hb =>
      rw [Loop.run_of_exit hb]
      cases chunkRound_of_eq hb with
      | needSizeLine => exact Nat.le_refl _
      | badSizeLine => rw [failExit, announced_fail]; exact Nat.le_refl _
      | @lastChunk eol =>
          obtain ⟨n, ⟨h, -⟩ | ⟨msg, h⟩ | ⟨k, h, -⟩⟩ :=
            trailerLoop_exit (p.skipLine eol).startTrailers 0
          · rw [h]; exact Nat.le_refl _
          · rw [h, failExit, announced_fail]; exact Nat.le_refl _
          · rw [h]; exact Nat.le_refl _
      | needPayload h hlt =>
          rw [announced_absorb h.body.2 (by omega) (Nat.le_refl _)]
          exact h.announced_le
      | needCrlf h hle =>
          rw [announced_absorb h.body.2 (Nat.le_refl _) hle]
          exact h.announced_le
      | badCrlf h hle =>
          rw [failExit, announced_fail, announced_absorb h.body.2 (Nat.le_refl _) hle]
          exact h.announced_le

theorem fail_resp (p : HttpResponseParser) (msg : List UInt8) : (p.fail msg).1.resp = p.resp :=
  (fail_keeps p msg).2.1

theorem AtPayload.body_le_absorb {p q : HttpResponseParser} (h : AtPayload p q) (n : Nat) :
    p.resp.body.length ≤ (q.absorb n).resp.body.length := by
  rw [← h.body.1]
  simp [absorb]

/-- **Nor does the body itself.** -/
theorem body_le_run (p : HttpResponseParser) :
    p.resp.body.length ≤ (chunkLoop.run p).1.resp.body.length := by
  induction p using chunkLoop.induct with
  | again p p' hb ih =>
      rw [Loop.run_of_again hb]
      cases chunkRound_of_eq hb with
      | nextChunk h => exact Nat.le_trans (h.body_le_absorb _) ih
  | exit p r hb =>
      rw [Loop.run_of_exit hb]
      cases chunkRound_of_eq hb with
      | needSizeLine => exact Nat.le_refl _
      | badSizeLine => rw [failExit, fail_resp]
      | @lastChunk eol =>
          obtain ⟨n, ⟨h, -⟩ | ⟨msg, h⟩ | ⟨k, h, -⟩⟩ :=
            trailerLoop_exit (p.skipLine eol).startTrailers 0
          · rw [h]; exact Nat.le_refl _
          · rw [h, failExit, fail_resp]; exact Nat.le_refl _
          · rw [h]; exact Nat.le_refl _
      | needPayload h => exact h.body_le_absorb _
      | needCrlf h => exact h.body_le_absorb _
      | badCrlf h =>
          rw [failExit, fail_resp]
          exact h.body_le_absorb _

/-- Body and buffer together only shrink, and a completed call has dropped a
size line at least. -/
theorem length_body_of_complete {p q : HttpResponseParser}
    (h : chunkLoop.run p = (q, .complete)) :
    q.resp.body.length + 2 ≤ p.resp.body.length + p.buf.length := by
  induction p using chunkLoop.induct with
  | again p p' hb ih =>
      rw [Loop.run_of_again hb] at h
      refine Nat.le_trans (ih h) ?_
      cases chunkRound_of_eq hb with
      | @nextChunk q' ha hle =>
          have hsuf := ha.suffix.length_le
          simp only [absorb, List.length_append, List.length_take, List.length_drop, ha.body.1]
          omega
  | exit p r hb =>
      rw [Loop.run_of_exit hb] at h
      subst h
      obtain ⟨eol, -, hf, -, hrun⟩ := lastChunk_of_complete hb
      obtain ⟨n, k, rfl, -⟩ := trailerLoop_complete hrun
      have hle := find_add_length_le hf
      rw [length_crlf] at hle
      simp only [startTrailers, skipLine]
      omega

/-- A call that completes has no chunk in progress. -/
theorem chunkStarted_of_complete {p q : HttpResponseParser}
    (h : chunkLoop.run p = (q, .complete)) : q.chunkStarted = false := by
  induction p using chunkLoop.induct with
  | again p p' hb ih =>
      rw [Loop.run_of_again hb] at h
      exact ih h
  | exit p r hb =>
      rw [Loop.run_of_exit hb] at h
      subst h
      obtain ⟨eol, hst, -, -, hrun⟩ := lastChunk_of_complete hb
      obtain ⟨n, k, rfl, -⟩ := trailerLoop_complete hrun
      exact hst

/-! ## Forward: chunks -/

/-- A round on a whole chunk moves its payload to the body, unless the chunk
is above the body limit. -/
theorem chunkPass_chunk {p : HttpResponseParser} {line data rest : List UInt8}
    (hst : p.chunkStarted = false) (hbuf : p.buf = line ++ crlf ++ (data ++ crlf ++ rest))
    (hl : CrlfFree line) (hsize : chunkSize line = some data.length) (hpos : 0 < data.length) :
    p.chunkPass = .again { p with
        buf := rest
        resp.body := p.resp.body ++ data
        chunkStarted := false
        chunkRemaining := 0 } ∨
      ((chunkLoop.run p).2 = .failed ∧
        p.limits.maxBodyBytes < p.resp.body.length + data.length) := by
  have hf : find crlf p.buf = some line.length := by rw [hbuf]; exact find_crlf_line hl _
  have htake : p.buf.take line.length = line := by
    rw [hbuf, List.append_assoc]; exact List.take_left' rfl
  have hdrop : p.buf.drop (line.length + 2) = data ++ crlf ++ rest := by
    rw [hbuf]; exact List.drop_left' (by simp)
  obtain ⟨hn, -⟩ | ⟨hz, -⟩ |
    ⟨size, hs, -, ⟨-, -, hr⟩ | ⟨hbig, msg, hr⟩⟩ :=
    readSizeLine_of_line hf
  · simp [htake, hsize] at hn
  · rw [htake, hsize, Option.some.injEq] at hz
    omega
  · rw [htake, hsize, Option.some.injEq] at hs
    subst hs
    left
    rw [chunkPass_of_size hst hr, takePayload_eq]
    have hpay : ((p.skipLine line.length).startChunk data.length).buf = data ++ crlf ++ rest :=
      hdrop
    have hrem : ((p.skipLine line.length).startChunk data.length).chunkRemaining = data.length :=
      rfl
    rw [hpay, hrem, if_neg (by simp only [List.length_append]; omega)]
    have habs : ((p.skipLine line.length).startChunk data.length).absorb data.length =
        { p with
          buf := crlf ++ rest
          resp.body := p.resp.body ++ data
          chunkStarted := true
          chunkRemaining := 0 } := by
      simp only [absorb, hpay, hrem, List.append_assoc, List.take_left', List.drop_left',
        Nat.sub_self]
      rfl
    rw [habs]
    rfl
  · rw [htake, hsize, Option.some.injEq] at hs
    subst hs
    right
    rw [chunkLoop_exit (chunkPass_of_return hst hr)]
    have hmod := Nat.mod_le (p.resp.body.length + data.length) (2 ^ 64)
    exact ⟨rfl, by omega⟩

/-- The last-chunk line hands over to the trailer loop. -/
theorem run_lastChunk {p : HttpResponseParser} {line sec : List UInt8}
    (hst : p.chunkStarted = false) (hbuf : p.buf = line ++ crlf ++ sec) (hl : CrlfFree line)
    (hsize : chunkSize line = some 0) :
    chunkLoop.run p = trailerLoop.run (startTrailers { p with buf := sec }, 0) := by
  have hf : find crlf p.buf = some line.length := by rw [hbuf]; exact find_crlf_line hl _
  have htake : p.buf.take line.length = line := by
    rw [hbuf, List.append_assoc]; exact List.take_left' rfl
  have hskip : p.skipLine line.length = { p with buf := sec } := by
    simp only [skipLine, hbuf, List.drop_left' (show (line ++ crlf).length = line.length + 2 by simp)]
  obtain ⟨hn, -⟩ | ⟨-, hr⟩ | ⟨size, hs, hpos, -⟩ := readSizeLine_of_line hf
  · simp [htake, hsize] at hn
  · rw [chunkLoop_exit (chunkPass_of_return hst hr), hskip]
  · rw [htake, hsize, Option.some.injEq] at hs
    omega

/-- A size line that is not complete is waited for within the line limit, and
is an error beyond it. -/
theorem run_open_sizeLine {p : HttpResponseParser} {line : List UInt8}
    (hst : p.chunkStarted = false) (hl : CrlfFree line) (hbuf : p.buf <+: line ++ crlf)
    (hlen : p.buf.length < line.length + 2) :
    (p.buf.length ≤ p.limits.maxChunkLineBytes → chunkLoop.run p = (p, .needSizeLine)) ∧
    (p.limits.maxChunkLineBytes < p.buf.length → (chunkLoop.run p).2 = .failed) := by
  have hf := find_crlf_of_prefix_line hl hbuf hlen
  obtain ⟨hle, hr⟩ | ⟨hgt, msg, hr⟩ := readSizeLine_of_incomplete hf
  · exact ⟨fun _ => chunkLoop_exit (chunkPass_of_return hst hr), by omega⟩
  · refine ⟨by omega, fun _ => ?_⟩
    rw [chunkLoop_exit (chunkPass_of_return hst hr)]
    rfl

/-- A malformed size line is an error. -/
theorem run_bad_sizeLine {p : HttpResponseParser} {line rest : List UInt8}
    (hst : p.chunkStarted = false) (hl : CrlfFree line) (hbuf : p.buf = line ++ crlf ++ rest)
    (hsize : chunkSize line = none) : (chunkLoop.run p).2 = .failed := by
  have hf : find crlf p.buf = some line.length := by rw [hbuf]; exact find_crlf_line hl _
  have htake : p.buf.take line.length = line := by
    rw [hbuf, List.append_assoc]; exact List.take_left' rfl
  obtain ⟨-, msg, hr⟩ | ⟨hz, -⟩ | ⟨size, hs, -⟩ := readSizeLine_of_line hf
  · rw [chunkLoop_exit (chunkPass_of_return hst hr)]
    rfl
  · simp [htake, hsize] at hz
  · simp [htake, hsize] at hs

/-- A chunk whose payload or closing break is not complete is waited for, or
is above the body limit. -/
theorem run_open_chunk {p : HttpResponseParser} {line data x : List UInt8}
    (hst : p.chunkStarted = false) (hl : CrlfFree line) (hsize : chunkSize line = some data.length)
    (hpos : 0 < data.length) (hbuf : p.buf = line ++ crlf ++ x)
    (hlen : x.length < data.length + 2) :
    (chunkLoop.run p).2.Resumable ∨
      ((chunkLoop.run p).2 = .failed ∧
        p.limits.maxBodyBytes < p.resp.body.length + data.length) := by
  have hf : find crlf p.buf = some line.length := by rw [hbuf]; exact find_crlf_line hl _
  have htake : p.buf.take line.length = line := by
    rw [hbuf, List.append_assoc]; exact List.take_left' rfl
  have hdrop : p.buf.drop (line.length + 2) = x := by
    rw [hbuf]; exact List.drop_left' (by simp)
  obtain ⟨hn, -⟩ | ⟨hz, -⟩ |
    ⟨size, hs, -, ⟨-, -, hr⟩ | ⟨hbig, msg, hr⟩⟩ :=
    readSizeLine_of_line hf
  · simp [htake, hsize] at hn
  · rw [htake, hsize, Option.some.injEq] at hz
    omega
  · rw [htake, hsize, Option.some.injEq] at hs
    subst hs
    have hpay : ((p.skipLine line.length).startChunk data.length).buf = x := hdrop
    have hrem : ((p.skipLine line.length).startChunk data.length).chunkRemaining = data.length :=
      rfl
    have hpass := chunkPass_of_size hst hr
    rw [takePayload_eq, hpay, hrem] at hpass
    left
    by_cases hlt : x.length < data.length
    · rw [if_pos hlt] at hpass
      rw [chunkLoop_exit hpass]
      exact .inr (.inl rfl)
    · rw [if_neg hlt, endChunk, if_pos (by simp only [absorb, hpay, List.length_drop]; omega)] at hpass
      rw [chunkLoop_exit hpass]
      exact .inr (.inr rfl)
  · rw [htake, hsize, Option.some.injEq] at hs
    subst hs
    right
    rw [chunkLoop_exit (chunkPass_of_return hst hr)]
    have hmod := Nat.mod_le (p.resp.body.length + data.length) (2 ^ 64)
    exact ⟨rfl, by omega⟩

/-! ## Forward: trailers -/

/-- One trailer line is skipped and counted. -/
theorem trailerPass_line {p : HttpResponseParser} {tpos : Nat} {t rest : List UInt8}
    (ht : BlockLine t) (hdrop : p.buf.drop tpos = t ++ crlf ++ rest)
    (hlim : p.trailerBytes + (t.length + 2) ≤ p.limits.maxChunkLineBytes) :
    trailerPass (p, tpos) =
        .again ({ p with trailerBytes := p.trailerBytes + (t.length + 2) }, tpos + t.length + 2) ∧
      p.buf.drop (tpos + t.length + 2) = rest := by
  have hf : find crlf (p.buf.drop tpos) = some t.length := by
    rw [hdrop]; exact find_crlf_line ht.2 _
  refine ⟨?_, ?_⟩
  · obtain ⟨hn, -⟩ | ⟨len, hlen, ⟨hbig, -⟩ | ⟨-, ⟨hz, -⟩ | ⟨-, hp⟩⟩⟩ := trailerPass_spec p tpos
    · simp [hf] at hn
    · rw [hf, Option.some.injEq] at hlen
      omega
    · rw [hf, Option.some.injEq] at hlen
      exact absurd (List.eq_nil_of_length_eq_zero (hlen.trans hz)) ht.1
    · rw [hf, Option.some.injEq] at hlen
      rw [hp, hlen]
  · rw [Nat.add_assoc, ← List.drop_drop, hdrop]
    exact List.drop_left' (by simp)

/-- **A whole trailer section completes the response**, whatever follows it. -/
theorem trailerLoop_section {p : HttpResponseParser} {tpos : Nat} {ts : List (List UInt8)}
    {rest : List UInt8} (hts : ∀ t ∈ ts, BlockLine t)
    (hdrop : p.buf.drop tpos = joinLines ts ++ crlf ++ rest)
    (hlim : p.trailerBytes + (joinLines ts ++ crlf).length ≤ p.limits.maxChunkLineBytes) :
    ∃ n, trailerLoop.run (p, tpos) =
      ({ p with trailerBytes := n, chunkTrailerDone := true, buf := rest, state := .done },
        .complete) := by
  induction ts generalizing p tpos with
  | nil =>
      have hf : find crlf (p.buf.drop tpos) = some 0 := by
        rw [hdrop]; exact find_of_front (List.prefix_append _ _)
      have hrest : p.buf.drop (tpos + 2) = rest := by
        rw [← List.drop_drop, hdrop]
        exact List.drop_left' (by simp)
      obtain ⟨hn, -⟩ | ⟨len, hlen, ⟨hbig, -⟩ | ⟨-, ⟨-, hp⟩ | ⟨hz, -⟩⟩⟩ := trailerPass_spec p tpos
      · simp [hf] at hn
      · rw [hf, Option.some.injEq] at hlen
        simp only [joinLines_nil, List.nil_append, length_crlf] at hlim
        omega
      · rw [trailerLoop_return hp, hrest]
        exact ⟨_, rfl⟩
      · rw [hf, Option.some.injEq] at hlen
        omega
  | cons t ts ih =>
      have ht := hts t List.mem_cons_self
      rw [joinLines_cons, List.append_assoc, List.append_assoc] at hdrop
      simp only [joinLines_cons, List.length_append, length_crlf] at hlim
      obtain ⟨hp, hnext⟩ := trailerPass_line ht hdrop (by omega)
      rw [trailerLoop_again hp]
      exact ih (fun x hx => hts x (List.mem_cons_of_mem t hx))
        (by rw [hnext, List.append_assoc]) (by simp only [List.length_append, length_crlf]; omega)

/-- **A trailer section that is not complete is waited for.** -/
theorem trailerLoop_open {p : HttpResponseParser} {tpos : Nat} {ts : List (List UInt8)}
    (hts : ∀ t ∈ ts, BlockLine t) (hx : p.buf.drop tpos <+: joinLines ts ++ crlf)
    (hlen : (p.buf.drop tpos).length < (joinLines ts ++ crlf).length)
    (hlim : p.trailerBytes + (joinLines ts ++ crlf).length ≤ p.limits.maxChunkLineBytes)
    (hbuf : p.buf.length ≤ p.limits.maxChunkLineBytes) :
    ∃ n, trailerLoop.run (p, tpos) = ({ p with trailerBytes := n }, .needTrailers) := by
  have hwait : ∀ {p : HttpResponseParser} {tpos : Nat}, find crlf (p.buf.drop tpos) = none →
      p.buf.length ≤ p.limits.maxChunkLineBytes →
      ∃ n, trailerLoop.run (p, tpos) = ({ p with trailerBytes := n }, .needTrailers) := by
    intro p tpos hf hbuf
    obtain ⟨-, ⟨-, hp⟩ | ⟨msg, hp⟩⟩ | ⟨len, hlen, -⟩ := trailerPass_spec p tpos
    · exact ⟨p.trailerBytes, trailerLoop_return hp⟩
    · unfold trailerPass at hp
      simp only [hf, if_neg (Nat.not_lt.mpr hbuf), Pass.exit.injEq, failExit, Prod.mk.injEq,
        reduceCtorEq, and_false] at hp
    · simp [hf] at hlen
  induction ts generalizing p tpos with
  | nil =>
      refine hwait (find_crlf_of_prefix_line crlfFree_nil (by simpa using hx) ?_) hbuf
      simpa using hlen
  | cons t ts ih =>
      have ht := hts t List.mem_cons_self
      simp only [joinLines_cons, List.append_assoc] at hx hlen
      by_cases hshort : (p.buf.drop tpos).length < t.length + 2
      · refine hwait (find_crlf_of_prefix_line ht.2 ?_ hshort) hbuf
        refine List.prefix_of_prefix_length_le hx ?_ (by simp only [List.length_append, length_crlf]; omega)
        exact ⟨joinLines ts ++ crlf, by rw [List.append_assoc]⟩
      · obtain ⟨r, hr⟩ : t ++ crlf <+: p.buf.drop tpos :=
          List.prefix_of_prefix_length_le ⟨joinLines ts ++ crlf, by rw [List.append_assoc]⟩ hx
            (by simp only [List.length_append, length_crlf]; omega)
        simp only [joinLines_cons, List.length_append, length_crlf] at hlim
        obtain ⟨hp, hnext⟩ := trailerPass_line ht hr.symm (by omega)
        rw [trailerLoop_again hp]
        rw [← hr, List.append_assoc, List.prefix_append_right_inj, List.prefix_append_right_inj] at hx
        rw [← hr] at hlen
        refine ih (fun x hx => hts x (List.mem_cons_of_mem t hx)) (by rw [hnext]; exact hx) ?_ ?_ hbuf
        · rw [hnext]
          simp only [List.length_append, length_crlf] at hlen ⊢
          omega
        · simp only [List.length_append, length_crlf]
          omega

example : (trailerLoop.run ({ buf := lit "Expires: 0\r\n" }, 0)).2 = .needTrailers := by
  decide +kernel

end HttpResponseParser

end ChaosForger
