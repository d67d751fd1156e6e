import ChaosForger.Http.Headers

/-!
# ChaosForger.Http.Chunked

The chunk decoder, round by round.

* **specifications** — what `readSizeLine`, the trailer loop and
  `takePayload` can do, each in one statement;
* **resumption** — `run_push`: at every exit but the one inside the trailers
  the decoder stands where it would stand had it received all bytes at once;
* **forward steps** — a whole chunk, a whole trailer section, and the
  prefixes of them that make the decoder wait.
-/

namespace ChaosForger

open Search Libc

namespace HttpResponseParser

/-! ## Specifications -/

/-- The size a chunk-size line stands for, `none` when it is malformed. -/
def chunkSize (sizeLine : List UInt8) : Option Nat :=
  let hex := sizeLine.take ((find [59] sizeLine).getD sizeLine.length)
  if hex ≠ [] ∧ hex.all isxdigit ∧ hex.length ≤ 16 then some (digitsValue 16 hex) else none

/-- The parser behind the size line that ends at `eol`. -/
def skipLine (p : HttpResponseParser) (eol : Nat) : HttpResponseParser :=
  { p with buf := p.buf.drop (eol + 2) }

/-- The parser at the start of the trailer section. -/
def startTrailers (p : HttpResponseParser) : HttpResponseParser :=
  { p with chunkTrailerDone := false, trailerBytes := 0 }

/-- The parser in front of the payload of a chunk. -/
def startChunk (p : HttpResponseParser) (size : Nat) : HttpResponseParser :=
  { p with chunkRemaining := size, chunkStarted := true }

theorem failExit_state (p : HttpResponseParser) (msg : List UInt8) :
    (p.failExit msg).1.state = .error := fail_state p msg

/-- A size line in the buffer is read by its meaning. -/
theorem readSizeLine_of_line {p : HttpResponseParser} {eol : Nat}
    (h : find crlf p.buf = some eol) :
    (chunkSize (p.buf.take eol) = none ∧
      ∃ msg, p.readSizeLine = .error ((p.skipLine eol).failExit msg)) ∨
    (chunkSize (p.buf.take eol) = some 0 ∧
      p.readSizeLine = .error (trailerLoop.run ((p.skipLine eol).startTrailers, 0))) ∨
    ∃ size, chunkSize (p.buf.take eol) = some size ∧ 0 < size ∧
      ((size ≤ p.limits.maxBodyBytes ∧
          (p.resp.body.length + size) % 2 ^ 64 ≤ p.limits.maxBodyBytes ∧
          p.readSizeLine = .ok ((p.skipLine eol).startChunk size)) ∨
        ((p.limits.maxBodyBytes < size ∨
            p.limits.maxBodyBytes < (p.resp.body.length + size) % 2 ^ 64) ∧
          ∃ msg, p.readSizeLine = .error ((p.skipLine eol).failExit msg))) := by
  unfold readSizeLine chunkSize
  rw [h]
  dsimp only
  generalize (p.buf.take eol).take ((find [59] (p.buf.take eol)).getD (p.buf.take eol).length) = hex
  by_cases hne : hex = []
  · exact .inl ⟨by simp [hne], _, by rw [if_pos hne]; rfl⟩
  · by_cases hall : hex.all isxdigit = true
    · by_cases hlen : 16 < hex.length
      · have hread : ¬ (hex ≠ [] ∧ hex.all isxdigit = true ∧ hex.length ≤ 16) := by omega
        exact .inl ⟨by rw [if_neg hread], _, by
          rw [if_neg hne, if_neg (by simp [hall]), if_pos hlen]; rfl⟩
      · rw [if_pos ⟨hne, hall, by omega⟩, if_neg hne, if_neg (by simp [hall]), if_neg hlen,
          strtoull_hex hne hall (by omega)]
        dsimp only
        by_cases h0 : digitsValue 16 hex = 0
        · exact .inr (.inl ⟨by rw [h0], by rw [if_pos h0]; rfl⟩)
        · refine .inr (.inr ⟨_, rfl, by omega, ?_⟩)
          rw [if_neg h0]
          split
          · next hbig => exact .inr ⟨hbig, _, rfl⟩
          · next hfit =>
              rw [not_or] at hfit
              exact .inl ⟨by omega, by omega, rfl⟩
    · exact .inl ⟨by simp [hall], _, by rw [if_neg hne, if_pos (by simp [hall])]; rfl⟩

/-- Without a line break the size line is waited for, up to the line limit. -/
theorem readSizeLine_of_incomplete {p : HttpResponseParser} (h : find crlf p.buf = none) :
    (p.buf.length ≤ p.limits.maxChunkLineBytes ∧ p.readSizeLine = .error (p, .needSizeLine)) ∨
    (p.limits.maxChunkLineBytes < p.buf.length ∧
      ∃ msg, p.readSizeLine = .error (p.failExit msg)) := by
  unfold readSizeLine
  rw [h]
  dsimp only
  by_cases hlen : p.limits.maxChunkLineBytes < p.buf.length
  · exact .inr ⟨hlen, _, by rw [if_pos hlen]⟩
  · exact .inl ⟨by omega, by rw [if_neg hlen]⟩

/-- The parser after `n` more bytes of the payload. -/
def absorb (p : HttpResponseParser) (n : Nat) : HttpResponseParser :=
  { p with
    resp.body := p.resp.body ++ p.buf.take n
    buf := p.buf.drop n
    chunkRemaining := p.chunkRemaining - n }

theorem absorb_zero (p : HttpResponseParser) : p.absorb 0 = p := by
  simp [absorb]

/-- The payload is taken as far as it is there; a complete one is followed by
its CRLF. -/
theorem takePayload_eq (p : HttpResponseParser) :
    p.takePayload =
      if p.buf.length < p.chunkRemaining then .exit (p.absorb p.buf.length, .needPayload)
      else (p.absorb p.chunkRemaining).endChunk := by
  unfold takePayload
  by_cases hrem : 0 < p.chunkRemaining
  · rw [if_pos hrem]
    by_cases hbuf : p.buf = []
    · have hlen : p.buf.length = 0 := by rw [hbuf]; rfl
      rw [if_pos hbuf, if_pos (by omega), hlen, absorb_zero]
    · rw [if_neg hbuf]
      dsimp only
      by_cases hlt : p.buf.length < p.chunkRemaining
      · rw [Nat.min_eq_right (by omega), if_pos (by omega), if_pos hlt]
        rfl
      · rw [Nat.min_eq_left (by omega), if_neg (by omega), if_neg hlt]
        rfl
  · have hzero : p.chunkRemaining = 0 := by omega
    rw [if_neg hrem, if_neg (by omega), hzero, absorb_zero]

/-- What one round of the trailer loop does. -/
theorem trailerPass_spec (p : HttpResponseParser) (tpos : Nat) :
    (find crlf (p.buf.drop tpos) = none ∧
      ((p.buf.length ≤ p.limits.maxChunkLineBytes ∧
          trailerPass (p, tpos) = .exit (p, .needTrailers)) ∨
        ∃ msg, trailerPass (p, tpos) = .exit (p.failExit msg))) ∨
    ∃ len, find crlf (p.buf.drop tpos) = some len ∧
      ((p.limits.maxChunkLineBytes < p.trailerBytes + (len + 2) ∧
          ∃ msg, trailerPass (p, tpos) =
            .exit (failExit { p with trailerBytes := p.trailerBytes + (len + 2) } msg)) ∨
        (p.trailerBytes + (len + 2) ≤ p.limits.maxChunkLineBytes ∧
          (len = 0 ∧ trailerPass (p, tpos) =
              .exit ({ p with
                trailerBytes := p.trailerBytes + (len + 2)
                chunkTrailerDone := true
                buf := p.buf.drop (tpos + 2)
                state := .done }, .complete) ∨
            0 < len ∧ trailerPass (p, tpos) =
              .again ({ p with trailerBytes := p.trailerBytes + (len + 2) }, tpos + len + 2)))) := by
  unfold trailerPass
  dsimp only
  cases hf : find crlf (p.buf.drop tpos) with
  | none =>
      refine .inl ⟨rfl, ?_⟩
      dsimp only
      by_cases hlen : p.limits.maxChunkLineBytes < p.buf.length
      · exact .inr ⟨_, by rw [if_pos hlen]⟩
      · exact .inl ⟨by omega, by rw [if_neg hlen]⟩
  | some len =>
      have hle := find_add_length_le hf
      rw [length_crlf] at hle
      have hadd : tpos + len + 2 - tpos = len + 2 := by omega
      refine .inr ⟨len, rfl, ?_⟩
      dsimp only
      rw [hadd]
      by_cases hlim : p.limits.maxChunkLineBytes < p.trailerBytes + (len + 2)
      · exact .inl ⟨hlim, _, by rw [if_pos hlim]⟩
      · refine .inr ⟨by omega, ?_⟩
        rw [if_neg hlim]
        by_cases hzero : len = 0
        · subst hzero
          exact .inl ⟨rfl, by rw [if_pos (by simp)]⟩
        · have hne : (p.buf.drop tpos).take len ≠ [] := by
            rw [ne_eq, ← List.length_eq_zero_iff, List.length_take]
            omega
          exact .inr ⟨by omega, by rw [if_neg hne]⟩

theorem trailerLoop_again {s s' : HttpResponseParser × Nat} (h : trailerPass s = .again s') :
    trailerLoop.run s = trailerLoop.run s' :=
  Loop.run_of_again (L := trailerLoop) h

theorem trailerLoop_return {s : HttpResponseParser × Nat} {r : HttpResponseParser × ChunkExit}
    (h : trailerPass s = .exit r) : trailerLoop.run s = r :=
  Loop.run_of_exit (L := trailerLoop) h

/-- The parsers the trailer loop goes through differ from the one it started
with in the trailer count only; it completes at the break of a blank line. -/
theorem trailerLoop_exit (p : HttpResponseParser) (tpos : Nat) :
    ∃ n, (trailerLoop.run (p, tpos) = ({ p with trailerBytes := n }, .needTrailers) ∧
        p.buf.length ≤ p.limits.maxChunkLineBytes) ∨
      (∃ msg, trailerLoop.run (p, tpos) = failExit { p with trailerBytes := n } msg) ∨
      ∃ k, trailerLoop.run (p, tpos) =
          ({ p with
            trailerBytes := n
            chunkTrailerDone := true
            buf := p.buf.drop (k + 2)
            state := .done }, .complete) ∧ crlf <+: p.buf.drop k ∧
          (k = tpos ∨ (tpos + 2 ≤ k ∧ crlf <+: p.buf.drop (k - 2))) := by
  generalize hs : (p, tpos) = s
  induction s using trailerLoop.induct generalizing p tpos with
  | again s s' hb ih =>
      subst hs
      rw [Loop.run_of_again hb]
      obtain ⟨-, ⟨-, hp⟩ | ⟨msg, hp⟩⟩ |
        ⟨len, hf, ⟨-, msg, hp⟩ | ⟨-, ⟨-, hp⟩ | ⟨-, hp⟩⟩⟩ :=
        trailerPass_spec p tpos
      all_goals rw [show trailerLoop.body (p, tpos) = trailerPass (p, tpos) from rfl, hp] at hb
      all_goals try contradiction
      rw [Pass.again.injEq] at hb
      obtain ⟨n, h⟩ := ih _ _ hb
      subst hb
      refine ⟨n, ?_⟩
      obtain ⟨h, hlen⟩ | ⟨msg, h⟩ | ⟨k, h, hcr, hk⟩ := h
      · exact .inl ⟨h, hlen⟩
      · exact .inr (.inl ⟨msg, h⟩)
      · refine .inr (.inr ⟨k, h, hcr, .inr ?_⟩)
        have hbreak : crlf <+: p.buf.drop (tpos + len) := by
          rw [← List.drop_drop]
          exact (find_eq_some_iff.mp hf).2.1
        obtain rfl | ⟨hk, hprev⟩ := hk
        · exact ⟨by omega, by simpa using hbreak⟩
        · exact ⟨by omega, hprev⟩
  | exit s r hb =>
      subst hs
      rw [Loop.run_of_exit hb]
      obtain ⟨-, ⟨hlen, hp⟩ | ⟨msg, hp⟩⟩ |
        ⟨len, hf, ⟨-, msg, hp⟩ | ⟨-, ⟨hz, hp⟩ | ⟨-, hp⟩⟩⟩ :=
        trailerPass_spec p tpos
      all_goals rw [show trailerLoop.body (p, tpos) = trailerPass (p, tpos) from rfl, hp] at hb
      all_goals try contradiction
      all_goals rw [Pass.exit.injEq] at hb
      · exact ⟨p.trailerBytes, .inl ⟨hb.symm, hlen⟩⟩
      · exact ⟨p.trailerBytes, .inr (.inl ⟨msg, hb.symm⟩)⟩
      · exact ⟨_, .inr (.inl ⟨msg, hb.symm⟩)⟩
      · subst hz
        exact ⟨_, .inr (.inr ⟨tpos, hb.symm, (find_eq_some_iff.mp hf).2.1, .inl rfl⟩)⟩

/-! ## Resumption -/

/-- The exits that leave the decoder at the position it has reached in the
stream: all those that need more bytes, the one inside the trailers excepted. -/
def ChunkExit.Resumable (e : ChunkExit) : Prop :=
  e = .needSizeLine ∨ e = .needPayload ∨ e = .needCrlf

@[simp] theorem push_buf (p : HttpResponseParser) (d : List UInt8) :
    (p.push d).buf = p.buf ++ d := rfl

@[simp] theorem push_limits (p : HttpResponseParser) (d : List UInt8) :
    (p.push d).limits = p.limits := rfl

@[simp] theorem push_nil (p : HttpResponseParser) : p.push [] = p := by
  simp [push]

theorem push_push (p : HttpResponseParser) (d d' : List UInt8) :
    (p.push d).push d' = p.push (d ++ d') := by
  simp [push]

theorem not_resumable_trailers (p : HttpResponseParser) (tpos : Nat) :
    ¬ (trailerLoop.run (p, tpos)).2.Resumable := by
  unfold ChunkExit.Resumable
  obtain ⟨n, ⟨h, -⟩ | ⟨msg, h⟩ | ⟨k, h, -⟩⟩ := trailerLoop_exit p tpos <;>
    simp [h, failExit]

/-- A size line that is there is read the same with more bytes behind it. -/
theorem readSizeLine_push {p q : HttpResponseParser} (h : p.readSizeLine = .ok q)
    (d : List UInt8) : (p.push d).readSizeLine = .ok (q.push d) := by
  cases hf : find crlf p.buf with
  | none => rcases readSizeLine_of_incomplete hf with ⟨-, hr⟩ | ⟨-, msg, hr⟩ <;> simp [hr] at h
  | some eol =>
      have hle := find_add_length_le hf
      rw [length_crlf] at hle
      have htake : (p.push d).buf.take eol = p.buf.take eol :=
        List.take_append_of_le_length (by omega)
      have hskip : (p.push d).skipLine eol = (p.skipLine eol).push d := by
        simp only [skipLine, push, List.drop_append_of_le_length hle]
      have hd := readSizeLine_of_line (p := p.push d) (find_append_of_some hf d)
      rw [htake, hskip] at hd
      obtain ⟨-, msg, hr⟩ | ⟨-, hr⟩ |
        ⟨size, hsize, hpos, ⟨hfit, hsum, hr⟩ | ⟨-, msg, hr⟩⟩ :=
        readSizeLine_of_line hf
      · simp [hr] at h
      · simp [hr] at h
      · rw [hr, Except.ok.injEq] at h
        subst h
        obtain ⟨hn, -⟩ | ⟨hz, -⟩ | ⟨size', hsize', -, ⟨-, -, hr'⟩ | ⟨hbig, -⟩⟩ := hd
        · simp [hsize] at hn
        · simp [hsize] at hz
          omega
        · rw [hsize, Option.some.injEq] at hsize'
          subst hsize'
          exact hr'
        · rw [hsize, Option.some.injEq] at hsize'
          subst hsize'
          exact absurd hbig (not_or.mpr ⟨Nat.not_lt.mpr hfit, Nat.not_lt.mpr hsum⟩)
      · simp [hr] at h

/-- A resumable return from the size line has changed nothing. -/
theorem eq_of_readSizeLine_resumable {p q : HttpResponseParser} {e : ChunkExit}
    (h : p.readSizeLine = .error (q, e)) (he : e.Resumable) : q = p := by
  cases hf : find crlf p.buf with
  | none =>
      obtain ⟨-, hr⟩ | ⟨-, msg, hr⟩ := readSizeLine_of_incomplete hf
      · rw [hr, Except.error.injEq, Prod.mk.injEq] at h
        exact h.1.symm
      · rw [hr, Except.error.injEq, failExit, Prod.mk.injEq] at h
        simp [ChunkExit.Resumable, ← h.2] at he
  | some eol =>
      obtain ⟨-, msg, hr⟩ | ⟨-, hr⟩ |
        ⟨size, -, -, ⟨-, -, hr⟩ | ⟨-, msg, hr⟩⟩ :=
        readSizeLine_of_line hf
      · rw [hr, Except.error.injEq, failExit, Prod.mk.injEq] at h
        simp [ChunkExit.Resumable, ← h.2] at he
      · rw [hr, Except.error.injEq] at h
        have hn := not_resumable_trailers (p.skipLine eol).startTrailers 0
        rw [h] at hn
        exact absurd he hn
      · simp [hr] at h
      · rw [hr, Except.error.injEq, failExit, Prod.mk.injEq] at h
        simp [ChunkExit.Resumable, ← h.2] at he

/-- Absorbing what is there and then part of what comes is absorbing both. -/
theorem absorb_push {p : HttpResponseParser} {n : Nat} (h : p.buf.length ≤ n) (d : List UInt8) :
    (p.push d).absorb n = ((p.absorb p.buf.length).push d).absorb (n - p.buf.length) := by
  have htake : (p.buf ++ d).take n = p.buf ++ d.take (n - p.buf.length) := by
    rw [List.take_append, List.take_of_length_le h]
  have hdrop : (p.buf ++ d).drop n = d.drop (n - p.buf.length) := by
    rw [List.drop_append, List.drop_eq_nil_of_le h, List.nil_append]
  have hrem : p.chunkRemaining - n = p.chunkRemaining - p.buf.length - (n - p.buf.length) := by
    omega
  simp only [absorb, push, htake, hdrop, hrem, List.take_length, List.drop_length,
    List.nil_append, List.append_assoc]

/-- Absorbing bytes that are all there leaves later ones behind them. -/
theorem absorb_push_of_le {p : HttpResponseParser} {n : Nat} (h : n ≤ p.buf.length)
    (d : List UInt8) : (p.push d).absorb n = (p.absorb n).push d := by
  simp only [absorb, push, List.take_append_of_le_length h, List.drop_append_of_le_length h]

theorem endChunk_push {p q : HttpResponseParser} (h : p.endChunk = .again q) (d : List UInt8) :
    (p.push d).endChunk = .again (q.push d) := by
  unfold endChunk at h ⊢
  split at h
  · contradiction
  · next hlen =>
      split at h
      · contradiction
      · next hcr =>
          rw [Pass.again.injEq] at h
          subst h
          rw [if_neg (by simp; omega), if_neg]
          · simp only [push, List.drop_append_of_le_length (Nat.le_of_not_lt hlen)]
          · rw [push_buf, List.take_append_of_le_length (by omega)]
            exact hcr

/-- Where a payload round can end. -/
theorem endChunk_spec (p : HttpResponseParser) :
    (p.buf.length < 2 ∧ p.endChunk = .exit (p, .needCrlf)) ∨
    (2 ≤ p.buf.length ∧ ∃ msg, p.endChunk = .exit (p.failExit msg)) ∨
    (crlf <+: p.buf ∧
      p.endChunk = .again { p with buf := p.buf.drop 2, chunkStarted := false }) := by
  unfold endChunk
  by_cases hlen : p.buf.length < 2
  · exact .inl ⟨hlen, by rw [if_pos hlen]⟩
  · rw [if_neg hlen]
    by_cases hcr : p.buf.take 2 = crlf
    · refine .inr (.inr ⟨⟨p.buf.drop 2, ?_⟩, by rw [if_neg (not_not.mpr hcr)]⟩)
      rw [← hcr, List.take_append_drop]
    · exact .inr (.inl ⟨by omega, _, by rw [if_pos hcr]⟩)

theorem takePayload_push {p q : HttpResponseParser} (h : p.takePayload = .again q)
    (d : List UInt8) : (p.push d).takePayload = .again (q.push d) := by
  rw [takePayload_eq] at h ⊢
  split at h
  · contradiction
  · next hlen =>
      have hrem : (p.push d).chunkRemaining = p.chunkRemaining := rfl
      rw [push_buf, hrem, if_neg (by rw [List.length_append]; omega),
        absorb_push_of_le (by omega)]
      exact endChunk_push h d

/-- **A payload round that had to wait is taken up where it stopped.** -/
theorem takePayload_resume {p q : HttpResponseParser} {e : ChunkExit}
    (h : p.takePayload = .exit (q, e)) (he : e.Resumable) (d : List UInt8) :
    q.chunkStarted = p.chunkStarted ∧ (p.push d).takePayload = (q.push d).takePayload := by
  have hrem : (p.push d).chunkRemaining = p.chunkRemaining := rfl
  rw [takePayload_eq] at h
  split at h
  · next hlt =>
      rw [Pass.exit.injEq, Prod.mk.injEq] at h
      obtain ⟨rfl, rfl⟩ := h
      refine ⟨rfl, ?_⟩
      have hbuf : ((p.absorb p.buf.length).push d).buf = d := by simp [absorb, push]
      have hleft : ((p.absorb p.buf.length).push d).chunkRemaining =
          p.chunkRemaining - p.buf.length := rfl
      rw [takePayload_eq, takePayload_eq, hbuf, hleft, push_buf, hrem, List.length_append]
      by_cases hd : p.buf.length + d.length < p.chunkRemaining
      · rw [if_pos hd, if_pos (by omega), absorb_push (Nat.le_add_right _ _),
          Nat.add_sub_cancel_left]
      · rw [if_neg hd, if_neg (by omega), absorb_push (Nat.le_of_lt hlt)]
  · next hge =>
      obtain ⟨-, hr⟩ | ⟨-, msg, hr⟩ | ⟨-, hr⟩ := endChunk_spec (p.absorb p.chunkRemaining)
      · rw [hr, Pass.exit.injEq, Prod.mk.injEq] at h
        obtain ⟨rfl, rfl⟩ := h
        refine ⟨rfl, ?_⟩
        have hleft : ((p.absorb p.chunkRemaining).push d).chunkRemaining = 0 := by
          simp [absorb, push]
        rw [takePayload_eq, takePayload_eq, hleft, push_buf, hrem, if_neg (Nat.not_lt_zero _),
          if_neg (by rw [List.length_append]; omega), absorb_push_of_le (by omega), absorb_zero]
      · rw [hr, Pass.exit.injEq, failExit, Prod.mk.injEq] at h
        simp [ChunkExit.Resumable, ← h.2] at he
      · simp [hr] at h

theorem chunkPass_of_started {p : HttpResponseParser} (h : p.chunkStarted = true) :
    p.chunkPass = p.takePayload := by
  rw [chunkPass, if_pos h]

theorem chunkPass_of_size {p q : HttpResponseParser} (h : p.chunkStarted = false)
    (hr : p.readSizeLine = .ok q) : p.chunkPass = q.takePayload := by
  rw [chunkPass, if_neg (by simp [h]), hr]

theorem chunkPass_of_return {p : HttpResponseParser} {r : HttpResponseParser × ChunkExit}
    (h : p.chunkStarted = false) (hr : p.readSizeLine = .error r) : p.chunkPass = .exit r := by
  rw [chunkPass, if_neg (by simp [h]), hr]

/-- A size line that is read starts a chunk. -/
theorem chunkStarted_of_readSizeLine {p q : HttpResponseParser} (h : p.readSizeLine = .ok q) :
    q.chunkStarted = true := by
  cases hf : find crlf p.buf with
  | none => rcases readSizeLine_of_incomplete hf with ⟨-, hr⟩ | ⟨-, msg, hr⟩ <;> simp [hr] at h
  | some eol =>
      obtain ⟨-, msg, hr⟩ | ⟨-, hr⟩ |
        ⟨size, -, -, ⟨-, -, hr⟩ | ⟨-, msg, hr⟩⟩ :=
        readSizeLine_of_line hf
      all_goals simp [hr] at h
      rw [← h]
      rfl

theorem chunkPass_push {p q : HttpResponseParser} (h : p.chunkPass = .again q)
    (d : List UInt8) : (p.push d).chunkPass = .again (q.push d) := by
  by_cases hst : p.chunkStarted = true
  · rw [chunkPass_of_started hst] at h
    rw [chunkPass_of_started (p := p.push d) hst]
    exact takePayload_push h d
  · rw [Bool.not_eq_true] at hst
    cases hr : p.readSizeLine with
    | error r => simp [chunkPass_of_return hst hr] at h
    | ok p' =>
        rw [chunkPass_of_size hst hr] at h
        rw [chunkPass_of_size (p := p.push d) hst (readSizeLine_push hr d)]
        exact takePayload_push h d

theorem chunkPass_resume {p q : HttpResponseParser} {e : ChunkExit}
    (h : p.chunkPass = .exit (q, e)) (he : e.Resumable) (d : List UInt8) :
    (p.push d).chunkPass = (q.push d).chunkPass := by
  by_cases hst : p.chunkStarted = true
  · rw [chunkPass_of_started hst] at h
    obtain ⟨hq, hres⟩ := takePayload_resume h he d
    rw [chunkPass_of_started (p := p.push d) hst,
      chunkPass_of_started (p := q.push d) (hq.trans hst)]
    exact hres
  · rw [Bool.not_eq_true] at hst
    cases hr : p.readSizeLine with
    | error r =>
        rw [chunkPass_of_return hst hr, Pass.exit.injEq] at h
        subst h
        rw [eq_of_readSizeLine_resumable hr he]
    | ok p' =>
        rw [chunkPass_of_size hst hr] at h
        obtain ⟨hq, hres⟩ := takePayload_resume h he d
        rw [chunkPass_of_size (p := p.push d) hst (readSizeLine_push hr d),
          chunkPass_of_started (p := q.push d) (hq.trans (chunkStarted_of_readSizeLine hr))]
        exact hres

theorem chunkLoop_again {p q : HttpResponseParser} (h : p.chunkPass = .again q) :
    chunkLoop.run p = chunkLoop.run q :=
  Loop.run_of_again (L := chunkLoop) h

theorem chunkLoop_exit {p : HttpResponseParser} {r : HttpResponseParser × ChunkExit}
    (h : p.chunkPass = .exit r) : chunkLoop.run p = r :=
  Loop.run_of_exit (L := chunkLoop) h

theorem run_congr {p q : HttpResponseParser} (h : p.chunkPass = q.chunkPass) :
    chunkLoop.run p = chunkLoop.run q := by
  have hb : chunkLoop.body p = chunkLoop.body q := h
  rw [Loop.run_eq chunkLoop p, Loop.run_eq chunkLoop q, hb]

/-- **A decoder that had to wait is taken up where it stopped**: feeding the
rest is feeding everything at once. -/
theorem run_push {p q : HttpResponseParser} {e : ChunkExit} (h : chunkLoop.run p = (q, e))
    (he : e.Resumable) (d : List UInt8) :
    chunkLoop.run (p.push d) = chunkLoop.run (q.push d) := by
  induction p using chunkLoop.induct with
  | again p p' hb ih =>
      rw [Loop.run_of_again hb] at h
      rw [chunkLoop_again (chunkPass_push hb d)]
      exact ih h
  | exit p r hb =>
      rw [Loop.run_of_exit hb] at h
      subst h
      exact run_congr (chunkPass_resume hb he d)

/-! ## One round -/

/-- The parser in front of the payload a round takes: that of the chunk in
progress, or of the chunk whose size line has just been read. -/
inductive AtPayload (p : HttpResponseParser) : HttpResponseParser → Prop where
  | started : p.chunkStarted = true → AtPayload p p
  | sized {eol size : Nat} : p.chunkStarted = false → find crlf p.buf = some eol →
      chunkSize (p.buf.take eol) = some size → 0 < size → size ≤ p.limits.maxBodyBytes →
      (p.resp.body.length + size) % 2 ^ 64 ≤ p.limits.maxBodyBytes →
      AtPayload p ((p.skipLine eol).startChunk size)

/-- All a round of the chunk loop can do. -/
inductive ChunkRound (p : HttpResponseParser) :
    Pass HttpResponseParser (HttpResponseParser × ChunkExit) → Prop where
  | needSizeLine : p.chunkStarted = false → find crlf p.buf = none →
      p.buf.length ≤ p.limits.maxChunkLineBytes → ChunkRound p (.exit (p, .needSizeLine))
  | badSizeLine {n : Nat} {msg : List UInt8} : p.chunkStarted = false →
      ChunkRound p (.exit (failExit { p with buf := p.buf.drop n } msg))
  | lastChunk {eol : Nat} : p.chunkStarted = false → find crlf p.buf = some eol →
      chunkSize (p.buf.take eol) = some 0 →
      ChunkRound p (.exit (trailerLoop.run ((p.skipLine eol).startTrailers, 0)))
  | needPayload {q : HttpResponseParser} : AtPayload p q → q.buf.length < q.chunkRemaining →
      ChunkRound p (.exit (q.absorb q.buf.length, .needPayload))
  | needCrlf {q : HttpResponseParser} : AtPayload p q → q.chunkRemaining ≤ q.buf.length →
      q.buf.length - q.chunkRemaining < 2 →
      ChunkRound p (.exit (q.absorb q.chunkRemaining, .needCrlf))
  | badCrlf {q : HttpResponseParser} {msg : List UInt8} : AtPayload p q →
      q.chunkRemaining ≤ q.buf.length →
      ChunkRound p (.exit ((q.absorb q.chunkRemaining).failExit msg))
  | nextChunk {q : HttpResponseParser} : AtPayload p q → q.chunkRemaining ≤ q.buf.length →
      crlf <+: q.buf.drop q.chunkRemaining →
      ChunkRound p (.again { q.absorb q.chunkRemaining with
        buf := q.buf.drop (q.chunkRemaining + 2), chunkStarted := false })

theorem chunkRound_payload {p q : HttpResponseParser} (h : AtPayload p q) :
    ChunkRound p q.takePayload := by
  rw [takePayload_eq]
  by_cases hlt : q.buf.length < q.chunkRemaining
  · rw [if_pos hlt]
    exact .needPayload h hlt
  · have hle : q.chunkRemaining ≤ q.buf.length := by omega
    rw [if_neg hlt]
    obtain ⟨hlen, hr⟩ | ⟨-, msg, hr⟩ | ⟨hcr, hr⟩ := endChunk_spec (q.absorb q.chunkRemaining)
    · rw [hr]
      exact .needCrlf h hle (by simpa [absorb] using hlen)
    · rw [hr]
      exact .badCrlf h hle
    · rw [hr]
      have hdrop : (q.absorb q.chunkRemaining).buf.drop 2 = q.buf.drop (q.chunkRemaining + 2) := by
        simp only [absorb, List.drop_drop]
      rw [hdrop]
      exact .nextChunk h hle hcr

/-- **The rounds of the chunk loop.** -/
theorem chunkRound (p : HttpResponseParser) : ChunkRound p p.chunkPass := by
  by_cases hst : p.chunkStarted = true
  · rw [chunkPass_of_started hst]
    exact chunkRound_payload (.started hst)
  · rw [Bool.not_eq_true] at hst
    cases hf : find crlf p.buf with
    | none =>
        obtain ⟨hlen, hr⟩ | ⟨-, msg, hr⟩ := readSizeLine_of_incomplete hf
        · rw [chunkPass_of_return hst hr]
          exact .needSizeLine hst hf hlen
        · rw [chunkPass_of_return hst hr]
          exact .badSizeLine (n := 0) hst
    | some eol =>
        obtain ⟨-, msg, hr⟩ | ⟨hzero, hr⟩ |
          ⟨size, hsize, hpos, ⟨hfit, hsum, hr⟩ | ⟨-, msg, hr⟩⟩ :=
          readSizeLine_of_line hf
        · rw [chunkPass_of_return hst hr]
          exact .badSizeLine hst
        · rw [chunkPass_of_return hst hr]
          exact .lastChunk hst hf hzero
        · rw [chunkPass_of_size hst hr]
          exact chunkRound_payload (.sized hst hf hsize hpos hfit hsum)
        · rw [chunkPass_of_return hst hr]
          exact .badSizeLine hst

theorem chunkRound_of_eq {p : HttpResponseParser}
    {r : Pass HttpResponseParser (HttpResponseParser × ChunkExit)} (h : p.chunkPass = r) :
    ChunkRound p r :=
  h ▸ chunkRound p

end HttpResponseParser

end ChaosForger
