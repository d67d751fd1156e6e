import ChaosForger.Http.Bounds
import ChaosForger.Http.Client

/-!
# ChaosForger.Http.Progress

How far a parser has come.  The potential of a live parser grows with every
non-empty feed (`potential_lt_feed`) and is bounded by the limits, with one
exception: a call that has read the last-chunk line and stops inside the
trailer section has forgotten that line, and the parser stands where it stood
before it (`stopsInTrailers`).  The receive loop returns when the parser has
finished, or a read brings no data (`receive_returns_iff`).
-/

namespace ChaosForger

open Search Libc Machine

namespace HttpResponseParser

/-! ## Progress of the decoder -/

section Decoder

variable {limits : Limits} {p q : HttpResponseParser} {e : ChunkExit}

/-- Starting a chunk announces its bytes. -/
theorem AtPayload.announced_lt (h : AtPayload p q) (hst : p.chunkStarted = false) :
    p.announced < q.announced := by
  cases h with
  | started hs => simp [hs] at hst
  | sized _ _ _ hpos =>
      simp only [announced, skipLine, startChunk, hst]
      simpa using hpos

/-- In front of a size line the decoder waits for the line, or announces more
of the body. -/
theorem announced_lt_of_run (hst : p.chunkStarted = false) (h : chunkLoop.run p = (q, e))
    (he : e.Resumable) : q = p ∨ p.announced < q.announced := by
  cases hb : p.chunkPass with
  | again p' =>
      rw [chunkLoop_again hb] at h
      have hle := announced_le_run p'
      rw [h] at hle
      cases chunkRound_of_eq hb with
      | @nextChunk q' ha hlen =>
          have hlt := ha.announced_lt hst
          have habs := announced_absorb ha.body.2 (Nat.le_refl _) hlen
          have hnext : q'.announced = (q'.absorb q'.chunkRemaining).resp.body.length := by
            rw [← habs]
            simp [announced, absorb]
          have hle' : (q'.absorb q'.chunkRemaining).resp.body.length ≤ q.announced := by
            simpa [announced] using hle
          exact .inr (by omega)
  | exit r =>
      rw [chunkLoop_exit hb] at h
      subst h
      generalize hr : (q, e) = r at hb
      cases chunkRound_of_eq hb with
      | needSizeLine =>
          rw [Prod.mk.injEq] at hr
          exact .inl hr.1
      | badSizeLine =>
          rw [failExit, Prod.mk.injEq] at hr
          simp [ChunkExit.Resumable, hr.2] at he
      | @lastChunk eol =>
          have hn := not_resumable_trailers (startTrailers (p.skipLine eol)) 0
          rw [← hr] at hn
          exact absurd he hn
      | needPayload ha =>
          rw [Prod.mk.injEq] at hr
          rw [hr.1, announced_absorb ha.body.2 (by omega) (Nat.le_refl _)]
          exact .inr (ha.announced_lt hst)
      | needCrlf ha hle =>
          rw [Prod.mk.injEq] at hr
          rw [hr.1, announced_absorb ha.body.2 (Nat.le_refl _) hle]
          exact .inr (ha.announced_lt hst)
      | badCrlf =>
          rw [failExit, Prod.mk.injEq] at hr
          simp [ChunkExit.Resumable, hr.2] at he

/-- Bytes that arrive inside a payload go to the body. -/
theorem body_lt_of_run (hst : p.chunkStarted = true) (hrem : 0 < p.chunkRemaining)
    (hbuf : p.buf ≠ []) : p.resp.body.length < (chunkLoop.run p).1.resp.body.length := by
  have hpos : 0 < p.buf.length := List.length_pos_of_ne_nil hbuf
  have habs : ∀ n, 0 < n → p.resp.body.length < (p.absorb n).resp.body.length := by
    intro n hn
    simp only [absorb, List.length_append, List.length_take]
    omega
  have hround := chunkRound p
  rw [chunkPass_of_started hst, takePayload_eq] at hround
  have hpass := takePayload_eq p
  rw [← chunkPass_of_started hst] at hpass
  by_cases hlt : p.buf.length < p.chunkRemaining
  · rw [if_pos hlt] at hpass
    rw [chunkLoop_exit hpass]
    exact habs _ hpos
  · rw [if_neg hlt] at hpass
    obtain ⟨-, hr⟩ | ⟨-, msg, hr⟩ | ⟨-, hr⟩ := endChunk_spec (p.absorb p.chunkRemaining)
    · rw [hr] at hpass
      rw [chunkLoop_exit hpass]
      exact habs _ hrem
    · rw [hr] at hpass
      rw [chunkLoop_exit hpass, failExit, fail_resp]
      exact habs _ hrem
    · rw [hr] at hpass
      have hmono := body_le_run { p.absorb p.chunkRemaining with
        buf := (p.absorb p.chunkRemaining).buf.drop 2, chunkStarted := false }
      rw [chunkLoop_again hpass]
      exact Nat.lt_of_lt_of_le (habs _ hrem) hmono

/-! ## The rank of a decoder at rest -/

/-- How far a decoder has come within one position of the grammar. -/
def stage (p : HttpResponseParser) : Nat :=
  if p.chunkStarted then (if p.chunkRemaining = 0 then p.buf.length else 0) else 2 + p.buf.length

/-- The bytes announced and received, then the position. -/
def rank (limits : Limits) (p : HttpResponseParser) : Nat :=
  (p.announced + p.resp.body.length) * (limits.maxChunkLineBytes + 3) + p.stage

theorem Resting.stage_lt (h : Resting limits p) : p.stage < limits.maxChunkLineBytes + 3 := by
  unfold stage
  cases h with
  | sizeLine hst hlen =>
      rw [hst]
      simp only [Bool.false_eq_true, if_false]
      omega
  | payload hst hrem =>
      rw [if_pos hst, if_neg (by omega)]
      omega
  | closing hst hrem hlen =>
      rw [if_pos hst, if_pos hrem]
      omega

/-- Bytes announced or received outweigh every position. -/
theorem Resting.rank_lt (h : Resting limits p)
    (hlt : p.announced + p.resp.body.length < q.announced + q.resp.body.length) :
    rank limits p < rank limits q := by
  have hstage := h.stage_lt
  have hmul : (p.announced + p.resp.body.length + 1) * (limits.maxChunkLineBytes + 3) ≤
      (q.announced + q.resp.body.length) * (limits.maxChunkLineBytes + 3) :=
    Nat.mul_le_mul_right _ hlt
  rw [Nat.add_mul, Nat.one_mul] at hmul
  unfold rank
  omega

/-- A later position of the same chunk counts as progress. -/
theorem rank_lt_of_stage (hann : p.announced = q.announced)
    (hbody : p.resp.body.length = q.resp.body.length) (hlt : p.stage < q.stage) :
    rank limits p < rank limits q := by
  unfold rank
  rw [hann, hbody]
  omega

/-- **Every call that leaves the decoder resumable makes progress.** -/
theorem Resting.rank_lt_run (h : Resting limits p) {d : List UInt8} (hd : d ≠ [])
    (hrun : chunkLoop.run (p.push d) = (q, e)) (he : e.Resumable) :
    rank limits p < rank limits q := by
  have hlen : 0 < d.length := List.length_pos_of_ne_nil hd
  have hann : (p.push d).announced ≤ q.announced := by
    have := announced_le_run (p.push d)
    rwa [hrun] at this
  have hbody : (p.push d).resp.body.length ≤ q.resp.body.length := by
    have := body_le_run (p.push d)
    rwa [hrun] at this
  have hpann : (p.push d).announced = p.announced := rfl
  have hpbody : (p.push d).resp.body.length = p.resp.body.length := rfl
  rw [hpann] at hann
  rw [hpbody] at hbody
  cases h with
  | sizeLine hst hlim =>
      obtain rfl | hlt := announced_lt_of_run (p := p.push d) hst hrun he
      · apply rank_lt_of_stage hpann.symm hpbody.symm
        have hst' : (p.push d).chunkStarted = false := hst
        simp only [stage, hst, hst', Bool.false_eq_true, if_false, push_buf, List.length_append]
        omega
      · rw [hpann] at hlt
        exact Resting.rank_lt (.sizeLine hst hlim) (by omega)
  | payload hst hrem hbuf =>
      have hne : (p.push d).buf ≠ [] := by simp [hd]
      have hlt : (p.push d).resp.body.length < q.resp.body.length := by
        have := body_lt_of_run (p := p.push d) hst hrem hne
        rwa [hrun] at this
      rw [hpbody] at hlt
      exact Resting.rank_lt (.payload hst hrem hbuf) (by omega)
  | closing hst hrem hbuf =>
      have hrem' : (p.push d).chunkRemaining = 0 := hrem
      have hpass := takePayload_eq (p.push d)
      rw [← chunkPass_of_started (p := p.push d) hst, hrem', if_neg (Nat.not_lt_zero _),
        absorb_zero] at hpass
      obtain ⟨hshort, hr⟩ | ⟨-, msg, hr⟩ | ⟨hcr, hr⟩ := endChunk_spec (p.push d)
      · rw [hr] at hpass
        rw [chunkLoop_exit hpass, Prod.mk.injEq] at hrun
        obtain ⟨rfl, -⟩ := hrun
        apply rank_lt_of_stage hpann.symm hpbody.symm
        have hst' : (p.push d).chunkStarted = true := hst
        simp only [stage, hst, hst', hrem, hrem', if_true, push_buf, List.length_append]
        omega
      · rw [hr] at hpass
        rw [chunkLoop_exit hpass, failExit, Prod.mk.injEq] at hrun
        simp [ChunkExit.Resumable, ← hrun.2] at he
      · rw [hr] at hpass
        rw [chunkLoop_again hpass] at hrun
        have hzero : p.announced = p.resp.body.length := by simp [announced, hrem]
        obtain rfl | hlt := announced_lt_of_run rfl hrun he
        · apply rank_lt_of_stage
          · rw [hzero]
            simp [announced, push]
          · rfl
          · simp only [stage, hst, hrem, if_true, Bool.false_eq_true, if_false]
            omega
        · have hnext : announced { p.push d with
              buf := (p.push d).buf.drop 2, chunkStarted := false } = p.announced := by
            rw [hzero]
            simp [announced, push]
          rw [hnext] at hlt
          exact Resting.rank_lt (.closing hst hrem hbuf) (by omega)

end Decoder

/-! ## The potential of a live parser -/

/-- The parser takes no more bytes. -/
def Finished (p : HttpResponseParser) : Prop := p.state = .done ∨ p.state = .error

/-- The call `p.feed (some d)` has read the last-chunk line and waits for more
of the trailer section. -/
def stopsInTrailers (p : HttpResponseParser) (d : List UInt8) : Bool :=
  (p.feed (some d)).1.state = .bodyChunked &&
    match (p.push d).enterBody with
    | .ok q => (chunkLoop.run q).2 = .needTrailers
    | .error _ => false

/-- How far a live parser has come: bytes of the header block, then bytes of
the body. -/
def potential (limits : Limits) (p : HttpResponseParser) : Nat :=
  match p.state with
  | .statusLine | .headers => p.buf.length
  | .bodyContentLength | .bodyEof => limits.maxHeaderBytes + 1 + p.buf.length
  | .bodyChunked => limits.maxHeaderBytes + 1 + rank limits p
  | .done | .error => 0

/-- What no potential reaches. -/
def potentialBound (limits : Limits) : Nat :=
  2 * (limits.maxHeaderBytes + 1) +
    (2 * limits.maxBodyBytes + 1) * (limits.maxChunkLineBytes + 3)

section Potential

variable {allow : Bool} {limits : Limits} {p : HttpResponseParser}

/-- A live call that comes to the decoder ends as the decoder does. -/
theorem feed_of_enterBody {d : List UInt8} {q : HttpResponseParser}
    (henter : (p.push d).enterBody = .ok q) (hs : q.state = .bodyChunked)
    (hlive : ¬ Finished (p.feed (some d)).1) : (p.feed (some d)).1 = (chunkLoop.run q).1 := by
  unfold feed at hlive ⊢
  split at hlive
  · next hd => exact absurd (.inl hd) hlive
  · next hd =>
      split at hlive
      · next he => exact absurd (.inr he) hlive
      · next he =>
          dsimp only at hlive
          split at hlive
          · exact absurd (.inr (fail_state _ _)) hlive
          · next hheader =>
              split at hlive
              · exact absurd (.inr (fail_state _ _)) hlive
              · next heof =>
                  rw [if_neg hd, if_neg he]
                  dsimp only
                  rw [if_neg hheader, if_neg heof, step, henter]
                  dsimp only
                  rw [stepBody, hs]
                  rfl

theorem feed_of_finished (h : Finished p) (d : Option (List UInt8)) : (p.feed d).1 = p := by
  obtain h | h := h
  · rw [feed_of_done h]
  · rw [feed_of_error h]

theorem potential_lt_bound (h : Inv allow limits p) (hlive : ¬ Finished p) :
    potential limits p < potentialBound limits := by
  have hphase := h.phase
  have hbody : 2 * limits.maxBodyBytes + 1 ≤
      (2 * limits.maxBodyBytes + 1) * (limits.maxChunkLineBytes + 3) :=
    Nat.le_mul_of_pos_right _ (Nat.succ_pos _)
  unfold Phase at hphase
  unfold potential potentialBound
  cases hs : p.state with
  | statusLine | headers | bodyContentLength | bodyEof =>
      rw [hs] at hphase
      dsimp only at hphase ⊢
      omega
  | bodyChunked =>
      rw [hs] at hphase
      have hstage := hphase.2.stage_lt
      have hann := hphase.1.announced_le
      have hle := hphase.1.body_le
      have hmul : (p.announced + p.resp.body.length) * (limits.maxChunkLineBytes + 3) ≤
          (2 * limits.maxBodyBytes) * (limits.maxChunkLineBytes + 3) :=
        Nat.mul_le_mul_right _ (by omega)
      rw [Nat.add_mul, Nat.one_mul]
      dsimp only
      unfold rank
      omega
  | done => exact absurd (.inl hs) hlive
  | error => exact absurd (.inr hs) hlive

/-- Behind the header block the potential is above that of any header phase. -/
theorem potential_stepBody_atBody {i : HeadInfo} {b : List UInt8}
    (hlive : ¬ Finished (atBody allow limits i b).stepBody.1) :
    limits.maxHeaderBytes < potential limits (atBody allow limits i b).stepBody.1 := by
  have heof : (atBody allow limits i b).state = .bodyEof →
      limits.maxHeaderBytes < potential limits (atBody allow limits i b).stepBody.1 := by
    intro hs
    have hstep : (atBody allow limits i b).stepBody = (atBody allow limits i b, true) := by
      rw [stepBody, hs]
    rw [hstep, potential, hs]
    dsimp only
    omega
  cases hfr : i.framing with
  | none => exact heof (by rw [atBody, hfr, bodyState])
  | eof => exact heof (by rw [atBody, hfr, bodyState])
  | contentLength =>
      have hs : (atBody allow limits i b).state = .bodyContentLength := by
        rw [atBody, hfr, bodyState]
      have hstep : (atBody allow limits i b).stepBody =
          (atBody allow limits i b).bodyStepContentLength := by rw [stepBody, hs]
      rw [hstep] at hlive ⊢
      obtain ⟨-, hp⟩ | ⟨-, hp⟩ | ⟨-, msg, hp⟩ := bodyStepContentLength_spec (atBody allow limits i b)
      · rw [hp, potential, hs]
        dsimp only
        omega
      · rw [hp] at hlive
        exact absurd (.inl rfl) hlive
      · rw [hp] at hlive
        exact absurd (.inr (fail_state _ _)) hlive
  | chunked =>
      have hs : (atBody allow limits i b).state = .bodyChunked := by
        rw [atBody, hfr, bodyState]
      have hstep : (atBody allow limits i b).stepBody.1 =
          (chunkLoop.run (atBody allow limits i b)).1 := by
        rw [stepBody, hs]
        rfl
      have hstate := run_state hs
      unfold ExitState at hstate
      rw [hstep] at hlive ⊢
      split at hstate
      · exact absurd (.inr hstate) hlive
      · exact absurd (.inl hstate) hlive
      · rw [potential, hstate]
        dsimp only
        omega

/-- A non-empty feed in the header phase makes progress. -/
theorem potential_lt_feed_awaiting {b d : List UInt8} (hb : b.length ≤ limits.maxHeaderBytes)
    (hd : d ≠ []) (hlive : ¬ Finished ((awaiting allow limits b).feed (some d)).1) :
    b.length < potential limits ((awaiting allow limits b).feed (some d)).1 := by
  have hpos : 0 < d.length := List.length_pos_of_ne_nil hd
  by_cases hlen : (b ++ d).length ≤ limits.maxHeaderBytes
  · rw [feed_awaiting hlen, step] at hlive ⊢
    cases he : find blankLine (b ++ d) with
    | none =>
        rw [enterBody_of_incomplete he]
        show b.length < (b ++ d).length
        rw [List.length_append]
        omega
    | some e =>
        by_cases hacc : ∃ i, headInfo limits (b ++ d) e = some i ∧ i.Accepted allow
        · obtain ⟨i, hi, ha⟩ := hacc
          rw [enterBody_of_accepted he hi ha] at hlive ⊢
          exact Nat.lt_of_le_of_lt hb (potential_stepBody_atBody hlive)
        · obtain ⟨q, hq, hqs⟩ := enterBody_of_rejected he
            fun i hi ha => hacc ⟨i, hi, ha⟩
          rw [hq] at hlive
          exact absurd (.inr hqs) hlive
  · obtain ⟨msg, hfeed⟩ := feed_awaiting_over (Nat.lt_of_not_le hlen)
    rw [hfeed] at hlive
    exact absurd (.inr (fail_state _ _)) hlive

/-- **A non-empty feed makes progress**, unless it stops inside the trailers. -/
theorem potential_lt_feed (h : Inv allow limits p) {d : List UInt8} (hd : d ≠ [])
    (hlive : ¬ Finished (p.feed (some d)).1) (hstop : p.stopsInTrailers d = false) :
    potential limits p < potential limits (p.feed (some d)).1 := by
  have hpos : 0 < d.length := List.length_pos_of_ne_nil hd
  have hphase := h.phase
  unfold Phase at hphase
  cases hs : p.state with
  | statusLine | headers =>
      rw [hs] at hphase
      dsimp only at hphase
      obtain ⟨hp, hb⟩ := hphase
      have hpot : potential limits p = p.buf.length := by rw [potential, hs]
      rw [hpot]
      rw [hp] at hlive ⊢
      exact potential_lt_feed_awaiting hb hd hlive
  | bodyContentLength =>
      rw [feed_contentLength hs] at hlive ⊢
      obtain ⟨-, hp⟩ | ⟨-, hp⟩ | ⟨-, msg, hp⟩ := bodyStepContentLength_spec (p.push d)
      · have hs' : (p.push d).state = .bodyContentLength := hs
        rw [hp]
        simp only [potential, hs, hs', push_buf, List.length_append]
        omega
      · rw [hp] at hlive
        exact absurd (.inl rfl) hlive
      · rw [hp] at hlive
        exact absurd (.inr (fail_state _ _)) hlive
  | bodyChunked =>
      rw [hs] at hphase
      have hs' : (p.push d).state = .bodyChunked := hs
      unfold stopsInTrailers at hstop
      rw [feed_chunked hs] at hlive hstop ⊢
      rw [enterBody_of_chunked hs'] at hstop
      have hstate := run_state hs'
      unfold ExitState at hstate
      split at hstate
      · exact absurd (.inr hstate) hlive
      · exact absurd (.inl hstate) hlive
      · next hfailed hcomplete =>
          have hres : (chunkLoop.run (p.push d)).2.Resumable := by
            rw [hstate] at hstop
            unfold ChunkExit.Resumable
            cases hexit : (chunkLoop.run (p.push d)).2 with
            | needSizeLine => exact .inl rfl
            | needPayload => exact .inr (.inl rfl)
            | needCrlf => exact .inr (.inr rfl)
            | needTrailers => simp [hexit] at hstop
            | complete => exact absurd hexit hcomplete
            | failed => exact absurd hexit hfailed
          have hrank := hphase.2.rank_lt_run hd rfl hres
          rw [potential, hs, potential, hstate]
          exact Nat.add_lt_add_left hrank _
  | bodyEof =>
      have hfeed := feed_eofBody hs d
      by_cases hlen : (p.push d).buf.length ≤ p.limits.maxBodyBytes
      · have hs' : (p.push d).state = .bodyEof := hs
        rw [hfeed.1 hlen]
        simp only [potential, hs, hs', push_buf, List.length_append]
        omega
      · obtain ⟨msg, hmsg⟩ := hfeed.2 (Nat.lt_of_not_le hlen)
        rw [hmsg] at hlive
        exact absurd (.inr (fail_state _ _)) hlive
  | done =>
      rw [feed_of_done hs] at hlive
      exact absurd (.inl hs) hlive
  | error =>
      rw [feed_of_error hs] at hlive
      exact absurd (.inr hs) hlive

end Potential

/-! ## Runs -/

/-- The first `n` feeds of a stream of them. -/
def firstFeeds (feeds : Nat → List UInt8) (n : Nat) : List (List UInt8) := (List.range n).map feeds

theorem firstFeeds_succ (feeds : Nat → List UInt8) (n : Nat) :
    firstFeeds feeds (n + 1) = firstFeeds feeds n ++ [feeds n] := by
  unfold firstFeeds
  rw [List.range_succ, List.map_append]
  rfl

end HttpResponseParser

/-! ## The receive loop -/

namespace HttpClient

open HttpResponseParser

/-- The bytes the reads of a transport deliver. -/
def delivered (t : Transport) (n : Nat) : List UInt8 :=
  match t.readSome n with
  | .data bytes => bytes
  | .failed _ | .eof => []

/-- The parser after the first `n` reads. -/
def parserAfter (t : Transport) (n : Nat) : HttpResponseParser :=
  (parser.feedAll (firstFeeds (delivered t) n)).1

/-- What ends the receive loop before read `n`. -/
def EndsAt (t : Transport) (n : Nat) : Prop :=
  (∀ bytes, t.readSome n ≠ .data bytes) ∨ Finished (parserAfter t n)

theorem parserAfter_succ {t : Transport} {n : Nat} {bytes : List UInt8}
    (h : t.readSome n = .data bytes) :
    parserAfter t (n + 1) = ((parserAfter t n).feed (some bytes)).1 := by
  have hd : delivered t n = bytes := by rw [delivered, h]
  unfold parserAfter
  rw [firstFeeds_succ, feedAll_append, feedAll_cons, hd]
  rfl

/-- Where nothing ends it the loop goes on, unless the parser rejects. -/
theorem receivePass_of_not_endsAt {t : Transport} {n : Nat} (h : ¬ EndsAt t n) :
    receivePass t (parserAfter t n, n) = .again (parserAfter t (n + 1), n + 1) ∨
      Finished (parserAfter t (n + 1)) ∧
        ∃ r, receivePass t (parserAfter t n, n) = .exit r := by
  rw [EndsAt, not_or] at h
  obtain ⟨hread, hlive⟩ := h
  cases hr : t.readSome n with
  | failed err => exact absurd (by simp [hr]) hread
  | eof => exact absurd (by simp [hr]) hread
  | data bytes =>
      obtain ⟨-, hp⟩ | ⟨hf, err, hp⟩ := receivePass_data (fun hd => hlive (.inl hd)) hr
      · rw [← parserAfter_succ hr] at hp
        exact .inl hp
      · have hs := feed_state_of_false hf
        rw [← parserAfter_succ hr] at hs
        exact .inr ⟨.inr hs, _, hp⟩

theorem receivePass_of_endsAt {t : Transport} {n : Nat} (h : EndsAt t n) :
    ∃ r, receivePass t (parserAfter t n, n) = .exit r := by
  by_cases hd : (parserAfter t n).state = .done
  · exact ⟨_, receivePass_of_done hd⟩
  · cases hr : t.readSome n with
    | failed err =>
        rw [receivePass, if_neg (by simp [HttpResponseParser.done, hd]), hr]
        exact ⟨_, rfl⟩
    | eof =>
        rw [receivePass, if_neg (by simp [HttpResponseParser.done, hd]), hr]
        dsimp only
        split <;> exact ⟨_, rfl⟩
    | data bytes =>
        obtain hread | hdone | herr := h
        · exact absurd hr (hread bytes)
        · exact absurd hdone hd
        · obtain ⟨hok, -⟩ | ⟨-, err, hp⟩ := receivePass_data hd hr
          · rw [feed_of_error herr] at hok
            contradiction
          · exact ⟨_, hp⟩

/-- The loop returns when something ends it after `k` more reads. -/
theorem isSome_iterate_of_endsAt {t : Transport} (k m : Nat) (h : EndsAt t (m + k)) :
    (Loop.iterate (receivePass t) (k + 1) (parserAfter t m, m)).isSome := by
  induction k generalizing m with
  | zero =>
      rw [Nat.add_zero] at h
      obtain ⟨r, hr⟩ := receivePass_of_endsAt h
      rw [Loop.iterate, hr]
      rfl
  | succ k ih =>
      rw [Loop.iterate]
      by_cases hm : EndsAt t m
      · obtain ⟨r, hr⟩ := receivePass_of_endsAt hm
        rw [hr]
        rfl
      · obtain hr | ⟨-, r, hr⟩ := receivePass_of_not_endsAt hm
        · rw [hr]
          exact ih (m + 1) (by rwa [Nat.add_right_comm, Nat.add_assoc])
        · rw [hr]
          rfl

/-- Where nothing ever ends it the loop runs out of any fuel. -/
theorem iterate_of_not_endsAt {t : Transport} (h : ∀ n, ¬ EndsAt t n) (fuel m : Nat) :
    Loop.iterate (receivePass t) fuel (parserAfter t m, m) = none := by
  induction fuel generalizing m with
  | zero => rfl
  | succ fuel ih =>
      obtain hr | ⟨hfin, -⟩ := receivePass_of_not_endsAt (h m)
      · rw [Loop.iterate, hr]
        exact ih (m + 1)
      · exact absurd (.inr hfin) (h (m + 1))

/-- **The receive loop returns exactly when something ends it.** -/
theorem receive_returns_iff (t : Transport) :
    (∃ fuel r, receive t fuel = some r) ↔ ∃ n, EndsAt t n := by
  have hstart : (parser, 0) = (parserAfter t 0, 0) := rfl
  unfold receive
  rw [hstart]
  constructor
  · rintro ⟨fuel, r, hr⟩
    by_contra hnone
    rw [iterate_of_not_endsAt (fun n hn => hnone ⟨n, hn⟩)] at hr
    contradiction
  · rintro ⟨n, hn⟩
    have hn' : EndsAt t (0 + n) := by rwa [Nat.zero_add]
    obtain ⟨r, hr⟩ := Option.isSome_iff_exists.mp (isSome_iterate_of_endsAt n 0 hn')
    exact ⟨_, r, hr⟩

end HttpClient

end ChaosForger
