import ChaosForger.Cuts
import ChaosForger.Http.ChunkRuns

/-!
# ChaosForger.Http.Feed

One call of `feed` in each phase, and what runs of calls keep: `done` and
`error` absorb every later input, a call that returns false has entered the
error state (`feed_state_of_false`), and the run through a header block comes
to the body in the call that completes the block (`feedAll_through_head`).
-/

namespace ChaosForger

open Search Libc Cuts

namespace HttpResponseParser

/-! ## Final states -/

theorem feed_of_done {p : HttpResponseParser} (h : p.state = .done) (d : Option (List UInt8)) :
    p.feed d = (p, true) := by
  unfold feed
  rw [if_pos h]

theorem feed_of_error {p : HttpResponseParser} (h : p.state = .error) (d : Option (List UInt8)) :
    p.feed d = (p, false) := by
  unfold feed
  rw [if_neg (by simp [h]), if_pos h]

theorem feedAll_of_done {p : HttpResponseParser} (h : p.state = .done) (ps : List (List UInt8)) :
    p.feedAll ps = (p, true) := by
  induction ps with
  | nil => rfl
  | cons d ps ih => simp only [feedAll, feed_of_done h, ih, Bool.and_self]

theorem feedAll_of_error {p : HttpResponseParser} (h : p.state = .error)
    (ps : List (List UInt8)) : (p.feedAll ps).1 = p := by
  induction ps with
  | nil => rfl
  | cons d ps ih => simp only [feedAll, feed_of_error h, ih]

theorem feedAll_cons (p : HttpResponseParser) (d : List UInt8) (ps : List (List UInt8)) :
    p.feedAll (d :: ps) =
      (((p.feed (some d)).1.feedAll ps).1,
        (p.feed (some d)).2 && ((p.feed (some d)).1.feedAll ps).2) := rfl

theorem feedAll_append (p : HttpResponseParser) (ps qs : List (List UInt8)) :
    p.feedAll (ps ++ qs) =
      (((p.feedAll ps).1.feedAll qs).1, (p.feedAll ps).2 && ((p.feedAll ps).1.feedAll qs).2) := by
  induction ps generalizing p with
  | nil => simp [feedAll]
  | cons d ps ih => simp only [List.cons_append, feedAll_cons, ih, Bool.and_assoc]

/-! ## False means error -/

theorem parseHead_state_of_false {p q : HttpResponseParser} {e : Nat}
    (he : find blankLine p.buf = some e) (h : p.parseHead e = (q, false)) : q.state = .error := by
  obtain ⟨f, -, hf⟩ := exists_find_crlf_of_find_blankLine he
  rw [parseHead] at h
  cases hst : statusOf (p.buf.take f) with
  | none =>
      obtain ⟨r, hr, hrs⟩ := parseStatusLine_of_none (e := e) hf hst
      rw [hr, Prod.mk.injEq] at h
      rw [← h.1, hrs]
  | some st =>
      rw [parseStatusLine_of_some hf hst] at h
      dsimp only at h
      rw [parseHeaders_eq] at h
      cases hfr : frameLines p.limits (.none, p.contentLength) (crlfLines (headerText p.buf e)) with
      | none =>
          obtain ⟨r, hr, hrs⟩ := parseHeaderLines_of_none
            (p := { p with
              resp := { p.resp with status := st.1, statusText := st.2 }, framing := .none }) hfr
          rw [hr, Prod.mk.injEq] at h
          rw [← h.1, hrs]
      | some frn =>
          rw [parseHeaderLines_of_some (p := { p with
              resp := { p.resp with status := st.1, statusText := st.2 }, framing := .none }) hfr,
            Prod.mk.injEq] at h
          simp at h

/-- An early return of the header arm waits, or is an error. -/
theorem enterBody_return {p : HttpResponseParser} {r : HttpResponseParser × Bool}
    (h : p.enterBody = .error r) : r = (p, true) ∨ (r.2 = false ∧ r.1.state = .error) := by
  unfold enterBody at h
  split at h
  · split at h
    · rw [Except.error.injEq] at h
      exact .inl h.symm
    · next e he =>
        split at h
        · next q hq =>
            rw [Except.error.injEq] at h
            subst h
            exact .inr ⟨rfl, parseHead_state_of_false he hq⟩
        · next q hq =>
            unfold selectBody at h
            dsimp only at h
            split at h
            · contradiction
            · contradiction
            all_goals
              split at h
              · contradiction
              · rw [Except.error.injEq] at h
                subst h
                exact .inr ⟨rfl, fail_state _ _⟩
  · contradiction

/-- The Content-Length step waits, completes on the exact length, and rejects
surplus bytes that came along. -/
theorem bodyStepContentLength_spec (p : HttpResponseParser) :
    (p.buf.length < p.contentLength ∧ p.bodyStepContentLength = (p, true)) ∨
    (p.buf.length = p.contentLength ∧ p.bodyStepContentLength =
      ({ p with resp.body := p.buf, buf := [], state := .done }, true)) ∨
    (p.contentLength < p.buf.length ∧ ∃ msg, p.bodyStepContentLength =
      fail { p with
        resp.body := p.buf.take p.contentLength
        buf := p.buf.drop p.contentLength } msg) := by
  unfold bodyStepContentLength
  dsimp only
  obtain hlt | heq | hgt := Nat.lt_trichotomy p.buf.length p.contentLength
  · exact .inl ⟨hlt, by rw [if_pos hlt]⟩
  · refine .inr (.inl ⟨heq, ?_⟩)
    rw [if_neg (by omega), ← heq, List.take_length, List.drop_length, if_pos rfl]
  · have hne : p.buf.drop p.contentLength ≠ [] := by
      rw [ne_eq, ← List.length_eq_zero_iff, List.length_drop]
      omega
    exact .inr (.inr ⟨hgt, _, by rw [if_neg (by omega), if_neg hne]⟩)

theorem stepBody_state_of_false {p : HttpResponseParser} (h : p.stepBody.2 = false) :
    p.stepBody.1.state = .error := by
  unfold stepBody at h ⊢
  split
  · next hs =>
      rw [hs] at h
      dsimp only at h
      obtain ⟨-, hp⟩ | ⟨-, hp⟩ | ⟨-, msg, hp⟩ := bodyStepContentLength_spec p
      · simp [hp] at h
      · simp [hp] at h
      · rw [hp]
        exact fail_state _ _
  · next hs =>
      rw [hs] at h
      have hrun := run_state hs
      simp only [bodyStepChunked, decide_eq_false_iff_not, ne_eq, not_not] at h ⊢
      rw [ExitState, h] at hrun
      exact hrun
  · next hs => simp [hs] at h
  · next hs => simp [hs] at h
  · next hs => exact hs
  · exact fail_state _ _
  · exact fail_state _ _

/-- **A call of `feed` that returns false has entered the error state.** -/
theorem feed_state_of_false {p : HttpResponseParser} {d : Option (List UInt8)}
    (h : (p.feed d).2 = false) : (p.feed d).1.state = .error := by
  unfold feed at h ⊢
  split
  · next hd => simp [hd] at h
  · next hd =>
      split
      · next he => exact he
      · next he =>
          rw [if_neg hd, if_neg he] at h
          cases d with
          | none =>
              dsimp only at h ⊢
              split
              · next hc => simp [hc] at h
              · exact fail_state _ _
          | some d =>
              dsimp only at h ⊢
              split
              · exact fail_state _ _
              · next h1 =>
                  split
                  · exact fail_state _ _
                  · next h2 =>
                      rw [if_neg h1, if_neg h2] at h
                      unfold step at h ⊢
                      split
                      · next r hr =>
                          rw [hr] at h
                          obtain rfl | ⟨-, hs⟩ := enterBody_return hr
                          · simp at h
                          · exact hs
                      · next q hq =>
                          rw [hq] at h
                          exact stepBody_state_of_false h

/-- A run that ends in `done` had no call that returned false. -/
theorem feedAll_ok_of_done {p : HttpResponseParser} {ps : List (List UInt8)}
    (h : (p.feedAll ps).1.state = .done) : (p.feedAll ps).2 = true := by
  induction ps generalizing p with
  | nil => rfl
  | cons d ps ih =>
      rw [feedAll_cons] at h ⊢
      rw [Bool.and_eq_true]
      refine ⟨?_, ih h⟩
      by_contra hf
      rw [Bool.not_eq_true] at hf
      have he := feed_state_of_false hf
      rw [feedAll_of_error he, he] at h
      contradiction

/-! ## One call in each phase -/

section Awaiting

variable {allow : Bool} {limits : Limits} {b d : List UInt8}

theorem feed_awaiting (hlen : (b ++ d).length ≤ limits.maxHeaderBytes) :
    (awaiting allow limits b).feed (some d) = (awaiting allow limits (b ++ d)).step := by
  have hpush : (awaiting allow limits b).push d = awaiting allow limits (b ++ d) := rfl
  have hst : (awaiting allow limits b).state = .statusLine := rfl
  have hbuf : (awaiting allow limits (b ++ d)).buf = b ++ d := rfl
  have hlim : (awaiting allow limits (b ++ d)).limits = limits := rfl
  have hst' : (awaiting allow limits (b ++ d)).state = .statusLine := rfl
  rw [feed, if_neg (by simp [hst]), if_neg (by simp [hst])]
  dsimp only
  rw [hpush, hbuf, hlim, hst', if_neg (by omega), if_neg (by simp)]

/-- Beyond the header limit every call is an error. -/
theorem feed_awaiting_over (hlen : limits.maxHeaderBytes < (b ++ d).length) :
    ∃ msg, (awaiting allow limits b).feed (some d) = fail (awaiting allow limits (b ++ d)) msg := by
  have hst : (awaiting allow limits b).state = .statusLine := rfl
  rw [feed, if_neg (by simp [hst]), if_neg (by simp [hst])]
  dsimp only
  rw [if_pos ⟨.inl hst, hlen⟩]
  exact ⟨_, rfl⟩

/-- An incomplete header block is waited for. -/
theorem feed_awaiting_incomplete (hlen : (b ++ d).length ≤ limits.maxHeaderBytes)
    (h : find blankLine (b ++ d) = none) :
    (awaiting allow limits b).feed (some d) = (awaiting allow limits (b ++ d), true) := by
  rw [feed_awaiting hlen, step, enterBody_of_incomplete h]

/-- A complete block that is not accepted is an error. -/
theorem step_of_rejected {e : Nat} (h : find blankLine b = some e)
    (hi : ∀ i, headInfo limits b e = some i → ¬ i.Accepted allow) :
    (awaiting allow limits b).step.1.state = .error := by
  obtain ⟨q, hq, hqs⟩ := enterBody_of_rejected h hi
  rw [step, hq]
  exact hqs

/-- A malformed block is an error. -/
theorem step_of_malformed {e : Nat} (h : find blankLine b = some e)
    (hi : headInfo limits b e = none) : (awaiting allow limits b).step.1.state = .error :=
  step_of_rejected h fun i hsome => by simp [hi] at hsome

end Awaiting

/-- In a body state other than EOF framing received bytes go to the body step. -/
theorem feed_body {p : HttpResponseParser} (h : p.state = .bodyContentLength ∨ p.state = .bodyChunked)
    (d : List UInt8) : p.feed (some d) = (p.push d).stepBody := by
  have hst : (p.push d).state = p.state := rfl
  have henter : (p.push d).enterBody = .ok (p.push d) := by
    rw [enterBody, hst, if_neg (by rcases h with h | h <;> simp [h])]
  rw [feed, if_neg (by rcases h with h | h <;> simp [h]),
    if_neg (by rcases h with h | h <;> simp [h])]
  dsimp only
  rw [hst, if_neg (by rcases h with h | h <;> simp [h]),
    if_neg (by rcases h with h | h <;> simp [h]), step, henter]

theorem enterBody_of_chunked {p : HttpResponseParser} (h : p.state = .bodyChunked) :
    p.enterBody = .ok p := by
  rw [enterBody, h, if_neg (by simp)]

theorem feed_chunked {p : HttpResponseParser} (h : p.state = .bodyChunked) (d : List UInt8) :
    p.feed (some d) =
      ((chunkLoop.run (p.push d)).1, decide ((chunkLoop.run (p.push d)).2 ≠ .failed)) := by
  have hst : (p.push d).state = .bodyChunked := h
  rw [feed_body (.inr h), stepBody, hst]
  rfl

theorem feed_contentLength {p : HttpResponseParser} (h : p.state = .bodyContentLength)
    (d : List UInt8) : p.feed (some d) = (p.push d).bodyStepContentLength := by
  have hst : (p.push d).state = .bodyContentLength := h
  rw [feed_body (.inl h), stepBody, hst]

/-- EOF framing: bytes are collected up to the body limit. -/
theorem feed_eofBody {p : HttpResponseParser} (h : p.state = .bodyEof) (d : List UInt8) :
    ((p.push d).buf.length ≤ p.limits.maxBodyBytes → p.feed (some d) = (p.push d, true)) ∧
    (p.limits.maxBodyBytes < (p.push d).buf.length →
      ∃ msg, p.feed (some d) = (p.push d).fail msg) := by
  have hst : (p.push d).state = .bodyEof := h
  have henter : (p.push d).enterBody = .ok (p.push d) := by
    rw [enterBody, hst, if_neg (by simp)]
  rw [feed, if_neg (by simp [h]), if_neg (by simp [h])]
  dsimp only
  rw [hst, if_neg (by simp), push_limits]
  refine ⟨fun hle => ?_, fun hlt => ?_⟩
  · rw [if_neg (by omega), step, henter]
    dsimp only
    rw [stepBody, hst]
  · rw [if_pos ⟨rfl, hlt⟩]
    exact ⟨_, rfl⟩

/-- The EOF marker ends an EOF-framed body and nothing else. -/
theorem feed_eof {p : HttpResponseParser} (hd : p.state ≠ .done)
    (h : ¬ (p.state = .bodyEof ∧ p.allowEofTermination = true)) :
    (p.feed none).1.state = .error := by
  by_cases he : p.state = .error
  · rw [feed_of_error he]
    exact he
  · rw [feed, if_neg hd, if_neg he]
    dsimp only
    rw [if_neg h]
    exact fail_state _ _

/-! ## Runs of calls -/

/-- A header block that arrives in pieces is collected until it is complete. -/
theorem feedAll_awaiting {allow : Bool} {limits : Limits} {b : List UInt8} {ps : List (List UInt8)}
    (hlen : (b ++ ps.flatten).length ≤ limits.maxHeaderBytes)
    (h : find blankLine (b ++ ps.flatten) = none) :
    (awaiting allow limits b).feedAll ps = (awaiting allow limits (b ++ ps.flatten), true) := by
  induction ps generalizing b with
  | nil => simp [feedAll]
  | cons d ps ih =>
      rw [List.flatten_cons, ← List.append_assoc] at hlen h ⊢
      have hd : find blankLine (b ++ d) = none := find_none_of_prefix (List.prefix_append _ _) h
      have hdl : (b ++ d).length ≤ limits.maxHeaderBytes := by
        rw [List.length_append] at hlen
        omega
      rw [feedAll_cons, feed_awaiting_incomplete hdl hd, ih hlen h, Bool.and_self]

/-- Beyond the header limit the collecting ends in an error. -/
theorem feedAll_awaiting_over {allow : Bool} {limits : Limits} {b : List UInt8}
    {ps : List (List UInt8)} (hb : b.length ≤ limits.maxHeaderBytes)
    (hlen : limits.maxHeaderBytes < (b ++ ps.flatten).length)
    (h : find blankLine (b ++ ps.flatten) = none) :
    ((awaiting allow limits b).feedAll ps).1.state = .error := by
  induction ps generalizing b with
  | nil =>
      rw [List.flatten_nil, List.append_nil] at hlen
      omega
  | cons d ps ih =>
      rw [List.flatten_cons, ← List.append_assoc] at hlen h
      rw [feedAll_cons]
      by_cases hd : (b ++ d).length ≤ limits.maxHeaderBytes
      · have hnone : find blankLine (b ++ d) = none :=
          find_none_of_prefix (List.prefix_append _ _) h
        rw [feed_awaiting_incomplete hd hnone]
        exact ih hd hlen h
      · obtain ⟨msg, hfeed⟩ := feed_awaiting_over (Nat.lt_of_not_le hd)
        have hs : ((awaiting allow limits b).feed (some d)).1.state = .error := by
          rw [hfeed]
          exact fail_state _ _
        rw [feedAll_of_error hs]
        exact hs

/-- The front of a header block shows no blank line. -/
theorem find_blankLine_of_front {h y : List UInt8} {e : Nat} (he : find blankLine h = some e)
    (hlen : h.length = e + 4) (hy : y <+: h) (hlt : y.length < h.length) :
    find blankLine y = none := by
  by_contra hne
  obtain ⟨j, hj⟩ := Option.ne_none_iff_exists'.mp hne
  have hwhole := find_some_of_prefix_some hy hj
  have hle := find_add_length_le hj
  rw [he, Option.some.injEq] at hwhole
  rw [length_blankLine] at hle
  omega

/-- **A run through the header block**: some call completes it, and what that
call brings behind it counts against the header limit. -/
theorem feedAll_through_head (allow : Bool) (limits : Limits) {h : List UInt8} {e : Nat}
    {ps : List (List UInt8)} (he : find blankLine h = some e) (hlen : h.length = e + 4)
    (hp : h <+: ps.flatten) :
    ∃ pre d post b, ps = pre ++ d :: post ∧ pre.flatten ++ d = h ++ b ∧
      pre.flatten.length < h.length ∧ behind h.length ps = b :: post ∧
      (((h ++ b).length ≤ limits.maxHeaderBytes ∧
          ((new allow limits).feedAll ps).1 =
            ((awaiting allow limits (h ++ b)).step.1.feedAll post).1) ∨
        (limits.maxHeaderBytes < (h ++ b).length ∧
          ((new allow limits).feedAll ps).1.state = .error)) := by
  have hne : h ≠ [] := by
    rintro rfl
    rw [List.length_nil] at hlen
    omega
  obtain ⟨pre, d, post, b, rfl, hpd, hlt⟩ := exists_piece_reaching hne hp
  have hfront : pre.flatten <+: h :=
    List.prefix_of_prefix_length_le (List.prefix_append _ d) (hpd ▸ List.prefix_append h b)
      (by omega)
  have hnone := find_blankLine_of_front he hlen hfront hlt
  have hbehind : behind h.length (pre ++ d :: post) = b :: post := by
    have hle : h.length ≤ (pre.flatten ++ d).length := by
      rw [hpd, List.length_append]
      omega
    rw [behind_eq hlt hle, hpd, List.drop_left]
  refine ⟨pre, d, post, b, rfl, hpd, hlt, hbehind, ?_⟩
  have hstart : new allow limits = awaiting allow limits [] := rfl
  rw [hstart, feedAll_append]
  by_cases hpre : pre.flatten.length ≤ limits.maxHeaderBytes
  · have hrun : (awaiting allow limits []).feedAll pre =
        (awaiting allow limits ([] ++ pre.flatten), true) := feedAll_awaiting hpre hnone
    rw [hrun, List.nil_append, feedAll_cons]
    by_cases hfit : (h ++ b).length ≤ limits.maxHeaderBytes
    · left
      rw [feed_awaiting (by rw [hpd]; exact hfit), hpd]
      exact ⟨hfit, rfl⟩
    · right
      have hover : limits.maxHeaderBytes < (pre.flatten ++ d).length := by
        rw [hpd]
        omega
      obtain ⟨msg, hfeed⟩ := feed_awaiting_over hover
      have hs : ((awaiting allow limits pre.flatten).feed (some d)).1.state = .error := by
        rw [hfeed]
        exact fail_state _ _
      refine ⟨by omega, ?_⟩
      dsimp only
      rw [feedAll_of_error hs]
      exact hs
  · right
    have hs : ((awaiting allow limits []).feedAll pre).1.state = .error :=
      feedAll_awaiting_over (Nat.zero_le _) (Nat.lt_of_not_le hpre) hnone
    constructor
    · rw [← hpd, List.length_append]
      omega
    · dsimp only
      rw [feedAll_of_error hs]
      exact hs

/-- The head of a chunked response without anything else in it. -/
def chunkedHead : List UInt8 := lit "HTTP/1.1 200 OK\r\nTransfer-Encoding: chunked\r\n\r\n"

/-- Behind an accepted block that frames its body the rest of the run is a
run from the start of the body. -/
theorem feedAll_atBody {allow : Bool} {limits : Limits} {i : HeadInfo} {b : List UInt8}
    (h : bodyState i.framing = .bodyContentLength ∨ bodyState i.framing = .bodyChunked)
    (post : List (List UInt8)) :
    ((atBody allow limits i b).stepBody.1.feedAll post).1 =
      ((atBody allow limits i []).feedAll (b :: post)).1 := by
  have hpush : (atBody allow limits i []).push b = atBody allow limits i b := rfl
  rw [feedAll_cons, feed_body h, hpush]

end HttpResponseParser

end ChaosForger
