import ChaosForger.Http.Truncation

/-!
# ChaosForger.Http.Boundaries

What the end of the stream makes of a response whose header block does not
select chunked framing (`outcome`), and when that depends on the read
boundaries.  It does so in three ways: body bytes that arrive with the header
block count against the header limit and escape the body limit, surplus bytes
behind a Content-Length body are only noticed when they arrive with its last
byte, and without any header line the body is read as headers as far as it
has arrived.  `CutFree` says when none of the three can be observed
(`oneOutcome_cutFree`).
-/

namespace ChaosForger

open Search Libc Cuts

namespace HttpResponseParser

/-! ## The end of the stream -/

/-- What is left when the connection closes: the final state, and the
response when there is one. -/
def verdict (p : HttpResponseParser) : State × Option HttpResponse :=
  ((p.feed none).1.state, if (p.feed none).1.state = .done then some (p.feed none).1.resp else none)

/-- The verdict on a stream cut into `ps`. -/
def outcome (allow : Bool) (limits : Limits) (ps : List (List UInt8)) :
    State × Option HttpResponse :=
  verdict ((new allow limits).feedAll ps).1

theorem verdict_of_error {p : HttpResponseParser} (h : p.state = .error) :
    verdict p = (.error, none) := by
  simp [verdict, feed_of_error h, h]

theorem verdict_of_done {p : HttpResponseParser} (h : p.state = .done) :
    verdict p = (.done, some p.resp) := by
  simp [verdict, feed_of_done h, h]

theorem verdict_of_unfinished {p : HttpResponseParser} (h : Unfinished p) :
    verdict p = (.error, none) := by
  simp [verdict, feed_eof_of_unfinished h]

theorem verdict_of_eofBody {p : HttpResponseParser} (h : p.state = .bodyEof)
    (ha : p.allowEofTermination = true) :
    verdict p = (.done, some { p.resp with body := p.buf }) := by
  have hfeed : (p.feed none).1 = { p with resp.body := p.buf, buf := [], state := .done } := by
    rw [feed, if_neg (by simp [h]), if_neg (by simp [h])]
    dsimp only
    rw [if_pos ⟨h, ha⟩]
  simp [verdict, hfeed]

/-! ## Bodies -/

/-- The last byte of a Content-Length body completes the response. -/
theorem feedAll_contentLength {p : HttpResponseParser} (hp : p.state = .bodyContentLength)
    {d : List UInt8} {ds : List (List UInt8)} (hne : ∀ x ∈ ds, x ≠ [])
    (hlen : (p.buf ++ (d :: ds).flatten).length = p.contentLength) :
    (p.feedAll (d :: ds)).1 =
      { p with resp.body := p.buf ++ (d :: ds).flatten, buf := [], state := .done } := by
  induction ds generalizing p d with
  | nil =>
      have hbuf : (p.push d).buf = p.buf ++ [d].flatten := by simp
      have heq : (p.push d).buf.length = (p.push d).contentLength := by rw [hbuf]; exact hlen
      rw [feedAll_cons, feed_contentLength hp]
      obtain ⟨hlt, -⟩ | ⟨-, hd⟩ | ⟨hgt, -⟩ := bodyStepContentLength_spec (p.push d)
      · omega
      · rw [hd, hbuf]
        rfl
      · omega
  | cons x ds ih =>
      have hpos : 0 < x.length := List.length_pos_of_ne_nil (hne x List.mem_cons_self)
      rw [List.flatten_cons, ← List.append_assoc] at hlen ⊢
      have hshort : (p.push d).buf.length < (p.push d).contentLength := by
        simp only [List.length_append, List.flatten_cons] at hlen
        show (p.buf ++ d).length < p.contentLength
        rw [List.length_append]
        omega
      rw [feedAll_cons, feed_contentLength hp]
      obtain ⟨-, hd⟩ | ⟨heq, -⟩ | ⟨hgt, -⟩ := bodyStepContentLength_spec (p.push d)
      · rw [hd]
        exact ih (p := p.push d) hp (fun y hy => hne y (List.mem_cons_of_mem x hy)) hlen
      · omega
      · omega

/-- An EOF-framed body is collected within the body limit, as far as later
feeds bring any of it. -/
theorem feedAll_eofBody {p : HttpResponseParser} (hp : p.state = .bodyEof)
    (ds : List (List UInt8)) :
    ((p.buf ++ ds.flatten).length ≤ p.limits.maxBodyBytes → (p.feedAll ds).1 = p.push ds.flatten) ∧
    (ds ≠ [] → p.limits.maxBodyBytes < (p.buf ++ ds.flatten).length →
      (p.feedAll ds).1.state = .error) := by
  induction ds generalizing p with
  | nil =>
      constructor
      · intro _
        rw [List.flatten_nil, push_nil]
        rfl
      · exact fun h => absurd rfl h
  | cons d ds ih =>
      have hfeed := feed_eofBody hp d
      rw [List.flatten_cons, ← List.append_assoc, feedAll_cons]
      by_cases hd : (p.push d).buf.length ≤ p.limits.maxBodyBytes
      · rw [hfeed.1 hd]
        obtain ⟨hle, hgt⟩ := ih (p := p.push d) hp
        constructor
        · intro hlen
          rw [← push_push]
          exact hle hlen
        · intro _ hlen
          cases ds with
          | nil =>
              rw [List.flatten_nil, List.append_nil] at hlen
              exact absurd hd (Nat.not_le.mpr hlen)
          | cons d' ds => exact hgt (by simp) hlen
      · obtain ⟨msg, hmsg⟩ := hfeed.2 (Nat.lt_of_not_le hd)
        have hs : (p.feed (some d)).1.state = .error := by
          rw [hmsg]
          exact fail_state _ _
        rw [feedAll_of_error hs]
        constructor
        · intro hlen
          rw [List.length_append] at hlen
          rw [push_buf] at hd
          omega
        · exact fun _ _ => hs

/-! ## Lines of a body -/

/-- No line of the text says anything about the framing. -/
def Quiet (limits : Limits) (b : List UInt8) : Prop := ∀ m ∈ crlfLines b, lineKind limits m = .other

/-- A value without the spaces around it still holds a word without spaces. -/
theorem infix_trimOws {w v : List UInt8} (hw : w ≠ []) (hows : ∀ c ∈ w, isOws c = false)
    (h : w <:+: v) : w <:+: trimOws v := by
  have hdrop : ∀ {l : List UInt8} {w : List UInt8}, w ≠ [] → (∀ c ∈ w, isOws c = false) →
      w <:+: l → w <:+: l.dropWhile isOws := by
    intro l w hw hows h
    have hspaces : ∀ c ∈ l.takeWhile isOws, c ∉ w := by
      intro c hc hcw
      have := List.mem_takeWhile_imp hc
      rw [hows c hcw] at this
      contradiction
    rw [← List.takeWhile_append_dropWhile (p := isOws) (l := l)] at h
    exact infix_of_append_left hw hspaces h
  have h1 := hdrop hw hows h
  rw [← List.reverse_infix] at h1
  have h2 := hdrop (by simpa using hw) (by simpa using hows) h1
  rw [← List.reverse_infix, List.reverse_reverse] at h2
  exact h2

/-- The front of a line that says nothing says nothing. -/
theorem lineKind_of_front {limits : Limits} {m l : List UInt8} (h : lineKind limits m = .other)
    (hl : l <+: m ++ [13]) : lineKind limits l = .other := by
  by_cases hf : ∃ k, find [58] l = some (k + 1)
  · obtain ⟨k, hk⟩ := hf
    -- the colon, and so the name, is the same in the whole line
    have hm : find [58] m = some (k + 1) := by
      have hwhole := find_some_of_prefix_some hl hk
      cases hmf : find [58] m with
      | some j =>
          have := find_append_of_some hmf [13]
          rw [hwhole] at this
          exact this.symm
      | none =>
          have hall : ∀ x ∈ m ++ [13], x ≠ 58 := by
            intro x hx
            rw [List.mem_append, List.mem_singleton] at hx
            obtain hx | rfl := hx
            · rintro rfl
              obtain ⟨a, t, rfl⟩ := List.append_of_mem hx
              exact find_eq_none_iff.mp hmf ⟨a, t, by simp⟩
            · decide
          rw [find_singleton_eq_none hall] at hwhole
          contradiction
    have hlen := find_add_length_le hm
    have hlenl := find_add_length_le hk
    rw [List.length_singleton] at hlen hlenl
    have htake : l.take (k + 1) = m.take (k + 1) := by
      obtain ⟨t, ht⟩ := hl
      have h1 : (l ++ t).take (k + 1) = l.take (k + 1) := List.take_append_of_le_length (by omega)
      have h2 : (m ++ [13]).take (k + 1) = m.take (k + 1) :=
        List.take_append_of_le_length (by omega)
      rw [← h1, ht, h2]
    have hname : ∀ name, fieldNamed name l = fieldNamed name m := by
      intro name
      simp only [fieldNamed, hk, hm, htake]
    rw [lineKind_of_field limits hm] at h
    rw [lineKind_of_field limits hk, hname, hname]
    split at h
    · contradiction
    · next hcl =>
        rw [if_neg hcl]
        split at h
        · contradiction
        · next hte =>
            rw [if_neg]
            rintro ⟨hn, hch⟩
            refine hte ⟨hn, ?_⟩
            rw [Option.isSome_iff_ne_none, ne_eq, find_eq_none_iff, not_not] at hch ⊢
            have hval : l.drop (k + 1 + 1) <+: m.drop (k + 1 + 1) ++ [13] := by
              have := hl.drop (k + 1 + 1)
              rwa [List.drop_append_of_le_length (by omega)] at this
            have htrim : trimOws (l.drop (k + 1 + 1)) <:+: l.drop (k + 1 + 1) := by
              have h1 := (List.dropWhile_suffix (p := isOws) (l := l.drop (k + 1 + 1))).isInfix
              have h2 := (List.dropWhile_suffix (p := isOws)
                (l := ((l.drop (k + 1 + 1)).dropWhile isOws).reverse)).isInfix
              rw [← List.reverse_infix, List.reverse_reverse] at h2
              exact h2.trans h1
            have hword := infix_of_append_right (by decide) (by decide +kernel)
              ((hch.trans htrim).trans hval.isInfix)
            exact infix_trimOws (by decide) (by decide +kernel) hword
  · exact (lineKind_of_not_field limits hf).1

/-- The front of a quiet text is quiet. -/
theorem Quiet.front {limits : Limits} {a b : List UInt8} (h : Quiet limits b) (ha : a <+: b) :
    Quiet limits a := by
  intro l hl
  obtain ⟨m, hm, hlm⟩ := exists_line_of_front ha hl
  exact lineKind_of_front (h m hm) hlm

theorem frameLines_of_quiet {limits : Limits} {s : Framing × Nat} {lines : List (List UInt8)}
    (h : ∀ m ∈ lines, lineKind limits m = .other) : frameLines limits s lines = some s := by
  induction lines with
  | nil => rfl
  | cons m lines ih =>
      rw [frameLines, frameLine, h m List.mem_cons_self]
      exact ih fun x hx => h x (List.mem_cons_of_mem m hx)

/-! ## What comes with the header block -/

section Stream

variable {allow : Bool} {limits : Limits} {s : List UInt8} {e : Nat}

theorem length_block (he : find blankLine s = some e) : (s.take (e + 4)).length = e + 4 := by
  have hle := find_add_length_le he
  rw [length_blankLine] at hle
  rw [List.length_take]
  omega

theorem find_block_append (he : find blankLine s = some e) (b : List UInt8) :
    find blankLine (s.take (e + 4) ++ b) = some e :=
  find_append_of_some (find_take he (by rw [length_blankLine])) b

/-- Without a whole header block the stream ends in an error. -/
theorem outcome_of_no_blankLine (h : find blankLine s = none) {ps : List (List UInt8)}
    (hps : Cut s ps) : outcome allow limits ps = (.error, none) := by
  have hnone : find blankLine ps.flatten = none := by rw [hps.flatten, h]
  exact verdict_of_unfinished (unfinished_of_no_blankLine allow limits hnone)

/-- Every cut brings the block, with some bytes of the body, and the others later. -/
theorem exists_behind (allow : Bool) (limits : Limits) (he : find blankLine s = some e)
    {ps : List (List UInt8)} (hps : Cut s ps) :
    ∃ b post, behind (e + 4) ps = b :: post ∧ b ++ post.flatten = s.drop (e + 4) ∧
      (∀ x ∈ post, x ≠ []) ∧
      outcome allow limits ps =
        if (s.take (e + 4) ++ b).length ≤ limits.maxHeaderBytes then
          verdict ((awaiting allow limits (s.take (e + 4) ++ b)).step.1.feedAll post).1
        else (.error, none) := by
  have hlen := length_block he
  have hhead : find blankLine (s.take (e + 4)) = some e := find_take he (by rw [length_blankLine])
  have hfront : s.take (e + 4) <+: ps.flatten := hps.flatten ▸ List.take_prefix _ _
  obtain ⟨pre, d, post, b, rfl, hpd, -, hbehind, hrun⟩ :=
    feedAll_through_head allow limits hhead hlen hfront
  rw [hlen] at hbehind
  refine ⟨b, post, hbehind, ?_, ?_, ?_⟩
  · have hflat := hps.flatten
    rw [List.flatten_append, List.flatten_cons, ← List.append_assoc, hpd, List.append_assoc] at hflat
    conv_rhs => rw [← hflat]
    exact (List.drop_left' hlen).symm
  · intro x hx
    exact hps.nonempty x (by simp [hx])
  · obtain ⟨hfit, hrun⟩ | ⟨hover, hrun⟩ := hrun
    · rw [if_pos hfit, outcome, hrun]
    · rw [if_neg (by omega), outcome, verdict_of_error hrun]

/-- The block without header lines reads on into what came with it. -/
theorem headInfo_no_lines (limits : Limits) (hf : find crlf s = some e)
    (he : find blankLine s = some e) {b : List UInt8} (hb : b.length + 4 ≤ 2 ^ 64) :
    headInfo limits (s.take (e + 4) ++ b) e =
      (statusOf (s.take e)).bind fun (status, reason) =>
        (framingOf limits (crlfLines b)).map fun (framing, length) =>
          { status, reason, framing, length } := by
  have hle := find_add_length_le he
  rw [length_blankLine] at hle
  have hfree : CrlfFree (s.take e) := crlfFree_take_of_find hf
  have hlen : (s.take e).length = e := List.length_take_of_le (by omega)
  have hblock : s.take (e + 4) = headerBlock (s.take e) [] := by
    have hs := eq_append_of_find he
    have htake : s.take (e + 4) = s.take e ++ blankLine := by
      conv_lhs => rw [hs]
      exact List.take_left' (by rw [List.length_append, hlen, length_blankLine])
    rw [htake, headerBlock, joinLines_nil, List.append_nil, List.append_assoc, blankLine]
  have htext := headerText_of_no_lines hfree b hb
  have hfind : find crlf (headerBlock (s.take e) [] ++ b) = some (s.take e).length :=
    find_crlf_headerBlock hfree b
  rw [hlen] at htext hfind
  have hline : (headerBlock (s.take e) [] ++ b).take e = s.take e := by
    rw [headerBlock, List.append_assoc, List.append_assoc, List.append_assoc]
    exact List.take_left' hlen
  have hskip : framingOf limits ([] :: crlfLines b) = framingOf limits (crlfLines b) := rfl
  rw [headInfo, hblock, htext, hfind, Option.getD_some, hline, crlfLines_crlf_append, hskip]

/-- With a header line the decision is that of the block, and without any as
long as what came with it is quiet. -/
theorem headInfo_of_quiet (he : find blankLine s = some e) {b : List UInt8}
    (hb : b.length + 4 ≤ 2 ^ 64) (hq : find crlf s = some e → Quiet limits b) :
    headInfo limits (s.take (e + 4) ++ b) e = headInfo limits (s.take (e + 4)) e := by
  obtain ⟨f, hfe, hf⟩ := exists_find_crlf_of_find_blankLine he
  by_cases hne : f = e
  · subst hne
    have hnil := headInfo_no_lines limits hf he (b := []) (by simp)
    rw [List.append_nil] at hnil
    have hframe : framingOf limits (crlfLines b) = framingOf limits (crlfLines []) :=
      frameLines_of_quiet (hq hf)
    rw [headInfo_no_lines limits hf he hb, hnil, hframe]
  · refine headInfo_append (find_take hf ?_) (find_take he ?_) hne b
    · rw [length_crlf]
      omega
    · rw [length_blankLine]

/-- A malformed block is malformed whatever comes with it. -/
theorem headInfo_of_malformed (he : find blankLine s = some e) {b : List UInt8}
    (hb : b.length + 4 ≤ 2 ^ 64) (hi : headInfo limits (s.take (e + 4)) e = none) :
    headInfo limits (s.take (e + 4) ++ b) e = none := by
  obtain ⟨f, hfe, hf⟩ := exists_find_crlf_of_find_blankLine he
  by_cases hne : f = e
  · subst hne
    have hnil := headInfo_no_lines limits hf he (b := []) (by simp)
    rw [List.append_nil, hi] at hnil
    rw [headInfo_no_lines limits hf he hb]
    cases hst : statusOf (s.take f) with
    | none => rfl
    | some st =>
        rw [hst] at hnil
        contradiction
  · rw [← hi]
    refine headInfo_of_quiet he hb fun hfe => ?_
    rw [hf, Option.some.injEq] at hfe
    exact absurd hfe hne

/-- Without header lines nothing is framed. -/
theorem framing_of_no_lines (hf : find crlf s = some e) (he : find blankLine s = some e)
    {i : HeadInfo} (hi : headInfo limits (s.take (e + 4)) e = some i) : i.framing = .none := by
  have hnil := headInfo_no_lines limits hf he (b := []) (by simp)
  rw [List.append_nil, hi] at hnil
  obtain ⟨st, -, hst⟩ := Option.bind_eq_some_iff.mp hnil.symm
  obtain ⟨fr, hfr, rfl⟩ := Option.map_eq_some_iff.mp hst
  have hframe : framingOf limits (crlfLines []) = some (.none, 0) := rfl
  rw [hframe, Option.some.injEq] at hfr
  rw [← hfr]

/-! ## The outcome of a stream -/

/-- The response of a head with this body. -/
def HeadInfo.response (i : HeadInfo) (body : List UInt8) : HttpResponse :=
  { status := i.status, statusText := i.reason, body }

section Arrived

variable {h b : List UInt8} {post : List (List UInt8)} {i : HeadInfo}
  (he : find blankLine (h ++ b) = some e) (hlen : h.length = e + 4)
  (hi : headInfo limits (h ++ b) e = some i)
include he hlen hi

theorem step_arrived (ha : i.Accepted allow) :
    (awaiting allow limits (h ++ b)).step = (atBody allow limits i b).stepBody := by
  rw [step, enterBody_of_accepted he hi ha, List.drop_left' hlen]

theorem feedAll_arrived (allow : Bool) (hfr : i.framing = .contentLength)
    (post : List (List UInt8)) :
    ((awaiting allow limits (h ++ b)).step.1.feedAll post).1 =
      ((atBody allow limits i []).feedAll (b :: post)).1 := by
  have hstate : bodyState i.framing = .bodyContentLength := by rw [hfr, bodyState]
  have ha : i.Accepted allow := i.accepted_of_ne allow (by simp [hstate])
  rw [step_arrived he hlen hi ha, feedAll_atBody (.inl hstate)]

/-- A Content-Length body that comes whole completes, a shorter one does not. -/
theorem verdict_contentLength (allow : Bool) (hfr : i.framing = .contentLength)
    (hne : ∀ x ∈ post, x ≠ []) :
    ((b ++ post.flatten).length < i.length →
      verdict ((awaiting allow limits (h ++ b)).step.1.feedAll post).1 = (.error, none)) ∧
    ((b ++ post.flatten).length = i.length →
      verdict ((awaiting allow limits (h ++ b)).step.1.feedAll post).1 =
        (.done, some (i.response (b ++ post.flatten)))) := by
  have hstate : bodyState i.framing = .bodyContentLength := by rw [hfr, bodyState]
  rw [feedAll_arrived he hlen hi allow hfr]
  constructor
  · intro hlt
    have hrun : ((atBody allow limits i []).feedAll (b :: post)).1 =
        (atBody allow limits i []).push (b :: post).flatten :=
      feedAll_open_contentLength hstate hlt
    rw [hrun]
    refine verdict_of_unfinished ?_
    simp [Unfinished, push, atBody, hstate]
  · intro heq
    rw [feedAll_contentLength (p := atBody allow limits i []) hstate hne heq]
    exact verdict_of_done rfl

/-- Without framing headers the body runs to the end of the stream. -/
theorem verdict_unframed (allow : Bool) (post : List (List UInt8))
    (hfr : bodyState i.framing = .bodyEof) :
    verdict ((awaiting allow limits (h ++ b)).step.1.feedAll post).1 =
      if allow = true ∧ (post = [] ∨ (b ++ post.flatten).length ≤ limits.maxBodyBytes) then
        (.done, some (i.response (b ++ post.flatten)))
      else (.error, none) := by
  cases allow with
  | false =>
      have hrej : ∀ j, headInfo limits (h ++ b) e = some j → ¬ j.Accepted false := by
        intro j hj ha
        rw [hi, Option.some.injEq] at hj
        subst hj
        exact absurd (ha hfr) (by simp)
      have hs : (awaiting false limits (h ++ b)).step.1.state = .error := step_of_rejected he hrej
      rw [feedAll_of_error hs, verdict_of_error hs, if_neg (by simp)]
  | true =>
      have hstep : (awaiting true limits (h ++ b)).step.1 = atBody true limits i b := by
        have hstate : (atBody true limits i b).state = .bodyEof := hfr
        rw [step_arrived he hlen hi fun _ => rfl, stepBody, hstate]
      obtain ⟨hfit, hover⟩ := feedAll_eofBody (p := atBody true limits i b) hfr post
      have hbuf : (atBody true limits i b).buf = b := rfl
      have hlim : (atBody true limits i b).limits = limits := rfl
      rw [hbuf, hlim] at hfit hover
      rw [hstep]
      by_cases hnil : post = []
      · subst hnil
        rw [if_pos ⟨rfl, .inl rfl⟩, List.flatten_nil, List.append_nil]
        exact verdict_of_eofBody hfr rfl
      · by_cases hle : (b ++ post.flatten).length ≤ limits.maxBodyBytes
        · rw [if_pos ⟨rfl, .inr hle⟩, hfit hle]
          exact verdict_of_eofBody hfr rfl
        · rw [if_neg (by tauto)]
          exact verdict_of_error (hover hnil (Nat.lt_of_not_le hle))

end Arrived

/-! ## When the boundaries cannot be observed -/

/-- The header block of the stream, read by itself, does not select chunked framing. -/
def NotChunked (limits : Limits) (s : List UInt8) : Prop :=
  ∀ e i, find blankLine s = some e → headInfo limits (s.take (e + 4)) e = some i →
    i.framing ≠ .chunked

/-- No read boundary of the stream can be observed in the outcome: a block
without header lines is followed by bytes that are no framing headers, as far
as they can come with it; a Content-Length body is cut short, or it is exact
and fits under the header limit with the block; and a body that runs to the
end of the stream keeps its own limit exactly when it keeps the header limit. -/
def CutFree (allow : Bool) (limits : Limits) (s : List UInt8) : Prop :=
  ∀ e i, find blankLine s = some e → e + 4 ≤ limits.maxHeaderBytes →
    headInfo limits (s.take (e + 4)) e = some i →
      (find crlf s = some e →
        Quiet limits ((s.drop (e + 4)).take (limits.maxHeaderBytes - (e + 4)))) ∧
      if i.framing = .contentLength then
        (s.drop (e + 4)).length < i.length ∨
          ((s.drop (e + 4)).length = i.length ∧ s.length ≤ limits.maxHeaderBytes)
      else
        allow = false ∨
          ((s.drop (e + 4)).length ≤ limits.maxBodyBytes ↔ s.length ≤ limits.maxHeaderBytes)

theorem bodyState_of_notChunked (hn : NotChunked limits s) (he : find blankLine s = some e)
    {i : HeadInfo} (hi : headInfo limits (s.take (e + 4)) e = some i)
    (hcl : i.framing ≠ .contentLength) : bodyState i.framing = .bodyEof := by
  have hch := hn e i he hi
  cases hfr : i.framing with
  | none => rfl
  | eof => rfl
  | contentLength => contradiction
  | chunked => contradiction

/-- The outcome as a function of the stream, where it is one. -/
def settled (allow : Bool) (limits : Limits) (i : HeadInfo) (e : Nat) (s : List UInt8) :
    State × Option HttpResponse :=
  if i.framing = .contentLength then
    if (s.drop (e + 4)).length < i.length then (.error, none)
    else (.done, some (i.response (s.drop (e + 4))))
  else if allow = true ∧ s.length ≤ limits.maxHeaderBytes then
    (.done, some (i.response (s.drop (e + 4))))
  else (.error, none)

/-- The outcome of a cut of a stream with a well-formed block. -/
theorem outcome_eq_settled (hn : NotChunked limits s)
    (hfree : CutFree allow limits s) (he : find blankLine s = some e)
    (hfit : e + 4 ≤ limits.maxHeaderBytes) {i : HeadInfo}
    (hi : headInfo limits (s.take (e + 4)) e = some i) {ps : List (List UInt8)} (hps : Cut s ps) :
    outcome allow limits ps = settled allow limits i e s := by
  have hmax := limits.maxHeaderBytes_lt
  obtain ⟨hquiet, hbody⟩ := hfree e i he hfit hi
  obtain ⟨b, post, -, hb, hpost, hout⟩ := exists_behind allow limits he hps
  have hblock := length_block he
  have hlen : (s.take (e + 4) ++ b).length + post.flatten.length = s.length := by
    rw [← List.length_append, List.append_assoc, hb, List.take_append_drop]
  rw [hout]
  by_cases hle : (s.take (e + 4) ++ b).length ≤ limits.maxHeaderBytes
  · have hfind := find_block_append he b
    have hinfo : headInfo limits (s.take (e + 4) ++ b) e = some i := by
      rw [List.length_append] at hle
      rw [← hi]
      refine headInfo_of_quiet he (by omega) fun hf => (hquiet hf).front ?_
      refine List.prefix_take_iff.mpr ⟨hb ▸ List.prefix_append b _, ?_⟩
      omega
    rw [if_pos hle]
    by_cases hcl : i.framing = .contentLength
    · obtain ⟨hshort, hwhole⟩ := verdict_contentLength hfind hblock hinfo allow hcl hpost
      rw [hb] at hshort hwhole
      rw [if_pos hcl] at hbody
      rw [settled, if_pos hcl]
      split
      · next hlt => exact hshort hlt
      · next hge =>
          obtain hlt | ⟨heq, -⟩ := hbody
          · exact absurd hlt hge
          · exact hwhole heq
    · rw [verdict_unframed hfind hblock hinfo allow post (bodyState_of_notChunked hn he hi hcl), hb]
      rw [if_neg hcl] at hbody
      rw [settled, if_neg hcl]
      refine if_congr ?_ rfl rfl
      refine and_congr_right fun ha => ?_
      rw [ha] at hbody
      have hiff := hbody.resolve_left (by simp)
      constructor
      · rintro (rfl | hfits)
        · rw [List.flatten_nil, List.length_nil] at hlen
          omega
        · exact hiff.mp hfits
      · exact fun hfits => .inr (hiff.mpr hfits)
  · have hover : limits.maxHeaderBytes < s.length := by omega
    rw [if_neg hle, settled]
    split
    · next hcl =>
        rw [if_pos hcl] at hbody
        obtain hlt | ⟨-, hfits⟩ := hbody
        · rw [if_pos hlt]
        · omega
    · rw [if_neg (by omega)]

/-- **Where no boundary can be observed, all cuts have one outcome.** -/
theorem outcome_of_cutFree (hn : NotChunked limits s)
    (hfree : CutFree allow limits s) :
    ∃ v, ∀ ps, Cut s ps → outcome allow limits ps = v := by
  have hmax := limits.maxHeaderBytes_lt
  cases he : find blankLine s with
  | none => exact ⟨_, fun ps hps => outcome_of_no_blankLine he hps⟩
  | some e =>
      by_cases hgood : e + 4 ≤ limits.maxHeaderBytes ∧ headInfo limits (s.take (e + 4)) e ≠ none
      · obtain ⟨hfit, hi⟩ := hgood
        obtain ⟨i, hi⟩ := Option.ne_none_iff_exists'.mp hi
        exact ⟨_, fun ps hps => outcome_eq_settled hn hfree he hfit hi hps⟩
      · refine ⟨(.error, none), fun ps hps => ?_⟩
        have hblock := length_block he
        obtain ⟨b, post, -, -, -, hout⟩ := exists_behind allow limits he hps
        rw [hout]
        split
        · next hle =>
            rw [List.length_append] at hle
            have hnone : headInfo limits (s.take (e + 4)) e = none := by
              by_contra hi
              exact hgood ⟨by omega, hi⟩
            have hs : (awaiting allow limits (s.take (e + 4) ++ b)).step.1.state = .error :=
              step_of_malformed (find_block_append he b) (headInfo_of_malformed he (by omega) hnone)
            rw [feedAll_of_error hs, verdict_of_error hs]
        · rfl

/-! ## Cuts that show a boundary -/

/-- The cut whose first piece brings `b` with the block. -/
theorem cut_after_block (allow : Bool) (limits : Limits) {b : List UInt8}
    {rs : List (List UInt8)} (he : find blankLine s = some e)
    (hrs : Cut ((s.drop (e + 4)).drop b.length) rs) (hb : b <+: s.drop (e + 4)) :
    Cut s ((s.take (e + 4) ++ b) :: rs) ∧
      outcome allow limits ((s.take (e + 4) ++ b) :: rs) =
        if (s.take (e + 4) ++ b).length ≤ limits.maxHeaderBytes then
          verdict ((awaiting allow limits (s.take (e + 4) ++ b)).step.1.feedAll rs).1
        else (.error, none) := by
  have hlen := length_block he
  have hcut : Cut s ((s.take (e + 4) ++ b) :: rs) := by
    obtain ⟨t, ht⟩ := hb
    constructor
    · rw [List.flatten_cons, hrs.flatten, ← ht, List.drop_left, List.append_assoc, ht,
        List.take_append_drop]
    · intro x hx
      rw [List.mem_cons] at hx
      obtain rfl | hx := hx
      · refine List.ne_nil_of_length_pos ?_
        rw [List.length_append]
        omega
      · exact hrs.nonempty x hx
  refine ⟨hcut, ?_⟩
  obtain ⟨b', post, hbehind, -, -, hout⟩ := exists_behind allow limits he hcut
  have hfirst : behind (e + 4) ((s.take (e + 4) ++ b) :: rs) = b :: rs := by
    rw [behind, if_neg (by rw [List.length_append]; omega), List.drop_left' hlen]
  rw [hfirst, List.cons.injEq] at hbehind
  obtain ⟨rfl, rfl⟩ := hbehind
  exact hout

theorem outcome_whole (allow : Bool) (limits : Limits) (he : find blankLine s = some e) :
    Cut s [s] ∧ outcome allow limits [s] =
      if s.length ≤ limits.maxHeaderBytes then verdict (awaiting allow limits s).step.1
      else (.error, none) := by
  have hrs : Cut ((s.drop (e + 4)).drop (s.drop (e + 4)).length) [] := by
    rw [List.drop_length]
    exact ⟨rfl, by simp⟩
  have h := cut_after_block allow limits he hrs (List.prefix_refl _)
  rw [List.take_append_drop] at h
  exact h

/-- The cut of the block and the body bytes, however these come. -/
theorem cut_at_block (allow : Bool) (limits : Limits) {rs : List (List UInt8)}
    (he : find blankLine s = some e) (hrs : Cut (s.drop (e + 4)) rs)
    (hfit : e + 4 ≤ limits.maxHeaderBytes) :
    Cut s (s.take (e + 4) :: rs) ∧ outcome allow limits (s.take (e + 4) :: rs) =
      verdict ((awaiting allow limits (s.take (e + 4))).step.1.feedAll rs).1 := by
  have h := cut_after_block allow limits he (b := []) hrs List.nil_prefix
  rw [List.append_nil, length_block he, if_pos hfit] at h
  exact h

/-- Surplus bytes that come with the last byte of a Content-Length body. -/
theorem outcome_whole_surplus (allow : Bool) (he : find blankLine s = some e) {i : HeadInfo}
    (hi : headInfo limits s e = some i) (hfr : i.framing = .contentLength)
    (hgt : i.length < (s.drop (e + 4)).length) : outcome allow limits [s] = (.error, none) := by
  rw [(outcome_whole allow limits he).2]
  split
  · have hstep : (awaiting allow limits s).step.1.state = .error := by
      have hstate : (atBody allow limits i (s.drop (e + 4))).state = .bodyContentLength := by
        simp [hfr, bodyState]
      have ha : i.Accepted allow := i.accepted_of_ne allow (by simp [hfr, bodyState])
      rw [step, enterBody_of_accepted he hi ha]
      dsimp only
      rw [stepBody, hstate]
      dsimp only
      have hlen : (atBody allow limits i (s.drop (e + 4))).contentLength <
          (atBody allow limits i (s.drop (e + 4))).buf.length := hgt
      obtain ⟨hlt, -⟩ | ⟨heq, -⟩ | ⟨-, msg, hmsg⟩ :=
        bodyStepContentLength_spec (atBody allow limits i (s.drop (e + 4)))
      · omega
      · omega
      · rw [hmsg]
        exact fail_state _ _
    exact verdict_of_error hstep
  · rfl

/-- The same bytes in a read of their own are never looked at. -/
theorem exists_cut_done (allow : Bool) (he : find blankLine s = some e)
    (hfit : e + 4 ≤ limits.maxHeaderBytes) {i : HeadInfo}
    (hi : headInfo limits (s.take (e + 4)) e = some i) (hfr : i.framing = .contentLength)
    (hle : i.length ≤ (s.drop (e + 4)).length) :
    ∃ ps, Cut s ps ∧ (outcome allow limits ps).1 = .done := by
  obtain ⟨qs, hqs⟩ := exists_cut ((s.drop (e + 4)).take i.length)
  obtain ⟨rs, hrs⟩ := exists_cut ((s.drop (e + 4)).drop i.length)
  have hcut : Cut (s.drop (e + 4)) (qs ++ rs) := by
    constructor
    · rw [List.flatten_append, hqs.flatten, hrs.flatten, List.take_append_drop]
    · intro x hx
      rw [List.mem_append] at hx
      obtain hx | hx := hx
      · exact hqs.nonempty x hx
      · exact hrs.nonempty x hx
  obtain ⟨hps, hout⟩ := cut_at_block allow limits he hcut hfit
  refine ⟨_, hps, ?_⟩
  have hfind := find_block_append he []
  have harr := feedAll_arrived (b := []) hfind (length_block he)
    (by rw [List.append_nil]; exact hi) allow hfr qs
  have hstate : (atBody allow limits i []).state = .bodyContentLength := by
    simp [hfr, bodyState]
  have hlen : ((atBody allow limits i []).buf ++ ([] :: qs).flatten).length =
      (atBody allow limits i []).contentLength := by
    show ([] ++ ([] :: qs).flatten).length = i.length
    rw [List.nil_append, List.flatten_cons, List.nil_append, hqs.flatten, List.length_take]
    omega
  have hdone := feedAll_contentLength hstate hqs.nonempty hlen
  rw [List.append_nil] at harr
  rw [hout, feedAll_append]
  dsimp only
  rw [harr, hdone, feedAll_of_done rfl, verdict_of_done rfl]

/-! ### Body bytes that are read as header lines -/

theorem exists_first_framing_line {b : List UInt8} (h : ¬ Quiet limits b) :
    ∃ pre m post, crlfLines b = pre ++ m :: post ∧ (∀ x ∈ pre, lineKind limits x = .other) ∧
      lineKind limits m ≠ .other := by
  unfold Quiet at h
  generalize crlfLines b = lines at h
  induction lines with
  | nil => simp at h
  | cons l lines ih =>
      by_cases hl : lineKind limits l = .other
      · have hrest : ¬ ∀ m ∈ lines, lineKind limits m = .other := by
          intro hall
          refine h fun m hm => ?_
          rw [List.mem_cons] at hm
          obtain rfl | hm := hm
          · exact hl
          · exact hall m hm
        obtain ⟨pre, m, post, heq, hpre, hm⟩ := ih hrest
        refine ⟨l :: pre, m, post, by rw [heq, List.cons_append], ?_, hm⟩
        intro x hx
        rw [List.mem_cons] at hx
        obtain rfl | hx := hx
        · exact hl
        · exact hpre x hx
      · exact ⟨[], l, lines, rfl, by simp, hl⟩

/-- Once chunked, always chunked. -/
theorem frameLines_chunked (limits : Limits) (n : Nat) (lines : List (List UInt8)) :
    frameLines limits (.chunked, n) lines = some (.chunked, n) := by
  induction lines with
  | nil => rfl
  | cons m lines ih =>
      have hline : frameLine limits (.chunked, n) m = some (.chunked, n) := by
        unfold frameLine
        split
        · rfl
        · rfl
        · rw [if_pos rfl]
      rw [frameLines, hline, Option.bind_some, ih]

/-- A Content-Length line cut behind its colon has a malformed value. -/
theorem lineKind_take_of_contentLength {m : List UInt8} {n : Option Nat}
    (h : lineKind limits m = .contentLength n) :
    ∃ k, m.take k ≠ [] ∧ lineKind limits (m.take k) = .contentLength none := by
  obtain ⟨k, hk⟩ : ∃ k, find [58] m = some (k + 1) := by
    by_contra hf
    rw [(lineKind_of_not_field limits hf).1] at h
    contradiction
  have hkt : find [58] (m.take (k + 1 + 1)) = some (k + 1) := find_take hk (by simp)
  have hname : fieldNamed (lit "content-length") (m.take (k + 1 + 1)) =
      fieldNamed (lit "content-length") m := by
    simp only [fieldNamed, hk, hkt, List.take_take]
    congr 2
    omega
  have hvalue : (m.take (k + 1 + 1)).drop (k + 1 + 1) = [] := by
    rw [List.drop_eq_nil_iff, List.length_take]
    omega
  have hfield : fieldNamed (lit "content-length") m = true := by
    rw [lineKind_of_field limits hk] at h
    by_contra hn
    rw [if_neg hn] at h
    split at h <;> contradiction
  refine ⟨k + 1 + 1, ?_, ?_⟩
  · intro hnil
    rw [hnil] at hkt
    contradiction
  · rw [lineKind_of_field limits hkt, hname, hfield, if_pos rfl, hvalue]
    rfl

/-- A body that is taken for header lines of a chunked response is not
returned as it is. -/
theorem outcome_whole_chunked (allow : Bool) (he : find blankLine s = some e) {i j : HeadInfo}
    (hi : headInfo limits s e = some i) (hfr : i.framing = .chunked) :
    outcome allow limits [s] ≠ (.done, some (j.response (s.drop (e + 4)))) := by
  rw [(outcome_whole allow limits he).2]
  split
  · have ha : i.Accepted allow := i.accepted_of_ne allow (by simp [hfr, bodyState])
    have hstate : (atBody allow limits i (s.drop (e + 4))).state = .bodyChunked := by
      simp [hfr, bodyState]
    have hstep : (awaiting allow limits s).step.1 =
        (chunkLoop.run (atBody allow limits i (s.drop (e + 4)))).1 := by
      rw [step, enterBody_of_accepted he hi ha]
      dsimp only
      rw [stepBody, hstate]
      rfl
    have hexit := run_state hstate
    rw [hstep]
    unfold ExitState at hexit
    split at hexit
    · rw [verdict_of_error hexit]
      simp
    · next hc =>
        rw [verdict_of_done hexit]
        intro heq
        have hlen := length_body_of_complete (p := atBody allow limits i (s.drop (e + 4)))
          (Prod.ext rfl hc)
        rw [Prod.mk.injEq, Option.some.injEq] at heq
        rw [heq.2] at hlen
        simp only [HeadInfo.response, atBody, List.length_nil, Nat.zero_add] at hlen
        omega
    · rw [verdict_of_unfinished]
      · simp
      · simp [Unfinished, hexit]
  · simp

/-- **Body bytes that look like a framing header can be observed** where the
body as it is would be the outcome. -/
theorem quiet_of_congr (hf : find crlf s = some e)
    (he : find blankLine s = some e) (hfit : s.length ≤ limits.maxHeaderBytes) {i : HeadInfo}
    (hi : headInfo limits (s.take (e + 4)) e = some i)
    (h : ∀ ps, Cut s ps →
      outcome allow limits ps = (.done, some (i.response (s.drop (e + 4))))) :
    Quiet limits (s.drop (e + 4)) := by
  have hmax := limits.maxHeaderBytes_lt
  by_contra hq
  obtain ⟨pre, m, post, hlines, hpre, hm⟩ := exists_first_framing_line hq
  obtain ⟨tail, htail, hfree, hmfree⟩ := exists_eq_of_crlfLines hlines
  have hblock := length_block he
  have hbody : (s.take (e + 4)).length + (s.drop (e + 4)).length = s.length := by
    rw [← List.length_append, List.take_append_drop]
  obtain ⟨st, hst, -⟩ := Option.bind_eq_some_iff.mp
    ((headInfo_no_lines limits hf he (b := []) (by simp)).symm.trans (by rw [List.append_nil, hi]))
  cases hkind : lineKind limits m with
  | other => exact hm hkind
  | chunked =>
      have hframe : framingOf limits (crlfLines (s.drop (e + 4))) = some (.chunked, 0) := by
        rw [hlines, framingOf, frameLines_append, frameLines_of_quiet hpre, Option.bind_some,
          frameLines, frameLine, hkind]
        exact frameLines_chunked limits 0 post
      have hinfo : headInfo limits s e = some ⟨st.1, st.2, .chunked, 0⟩ := by
        have hwhole := headInfo_no_lines limits hf he (b := s.drop (e + 4)) (by omega)
        rw [List.take_append_drop, hst, hframe] at hwhole
        exact hwhole
      exact outcome_whole_chunked allow he hinfo rfl (h [s] (outcome_whole allow limits he).1)
  | contentLength n =>
      obtain ⟨k, hne, hcut⟩ := lineKind_take_of_contentLength hkind
      have hfront : joinLines pre ++ m.take k <+: s.drop (e + 4) := by
        refine ⟨m.drop k ++ tail, ?_⟩
        rw [List.append_assoc, ← List.append_assoc (m.take k), List.take_append_drop, htail,
          List.append_assoc]
      have hline : BlockLine (m.take k) :=
        ⟨hne, hmfree.of_infix (List.take_prefix k m).isInfix⟩
      have hframe : framingOf limits (crlfLines (joinLines pre ++ m.take k)) = none := by
        rw [crlfLines_joinLines hfree hline, framingOf, frameLines_append,
          frameLines_of_quiet hpre, Option.bind_some, frameLines, frameLine, hcut]
        rfl
      have hle := hfront.length_le
      have hinfo : headInfo limits (s.take (e + 4) ++ (joinLines pre ++ m.take k)) e = none := by
        rw [headInfo_no_lines limits hf he (by omega), hst, hframe]
        rfl
      have hs : (awaiting allow limits (s.take (e + 4) ++ (joinLines pre ++ m.take k))).step.1.state =
          .error := step_of_malformed (find_block_append he _) hinfo
      obtain ⟨rs, hrs⟩ := exists_cut ((s.drop (e + 4)).drop (joinLines pre ++ m.take k).length)
      obtain ⟨hps, hout⟩ := cut_after_block allow limits he hrs hfront
      rw [h _ hps, feedAll_of_error hs, verdict_of_error hs] at hout
      simp at hout

/-! ## One outcome under every cut -/

/-- All cuts of the stream end in one outcome, a response or an error. -/
def OneOutcome (allow : Bool) (limits : Limits) (s : List UInt8) : Prop :=
  ∀ ps qs, Cut s ps → Cut s qs →
    outcome allow limits ps = outcome allow limits qs ∧
      ((outcome allow limits ps).1 = .done ∨ (outcome allow limits ps).1 = .error)

theorem state_outcome (allow : Bool) (limits : Limits) (ps : List (List UInt8)) :
    (outcome allow limits ps).1 = .done ∨ (outcome allow limits ps).1 = .error := by
  unfold outcome
  generalize ((new allow limits).feedAll ps).1 = p
  by_cases hd : p.state = .done
  · exact .inl (by rw [verdict_of_done hd])
  · by_cases heof : p.state = .bodyEof ∧ p.allowEofTermination = true
    · exact .inl (by rw [verdict_of_eofBody heof.1 heof.2])
    · exact .inr (feed_eof hd heof)

/-- With one outcome, an unframed response ends like its body read on its own. -/
theorem outcome_whole_unframed (hn : NotChunked limits s) (h : OneOutcome allow limits s)
    (he : find blankLine s = some e) (hfit : e + 4 ≤ limits.maxHeaderBytes) {i : HeadInfo}
    (hi : headInfo limits (s.take (e + 4)) e = some i) (hcl : i.framing ≠ .contentLength) :
    outcome allow limits [s] =
      if allow = true ∧ (s.drop (e + 4)).length ≤ limits.maxBodyBytes then
        (.done, some (i.response (s.drop (e + 4))))
      else (.error, none) := by
  obtain ⟨rs, hrs⟩ := exists_cut (s.drop (e + 4))
  obtain ⟨hps, hout⟩ := cut_at_block allow limits he hrs hfit
  have hverdict := verdict_unframed (b := []) (find_block_append he []) (length_block he)
    (by rw [List.append_nil]; exact hi) allow rs (bodyState_of_notChunked hn he hi hcl)
  rw [List.append_nil, List.nil_append, hrs.flatten] at hverdict
  rw [(h _ _ (outcome_whole allow limits he).1 hps).1, hout, hverdict]
  refine if_congr (and_congr_right fun _ => or_iff_right_of_imp ?_) rfl rfl
  rintro rfl
  rw [← hrs.flatten]
  exact Nat.zero_le _

/-- Behind a header line the head does not depend on the body. -/
theorem headInfo_whole (he : find blankLine s = some e) (hf : find crlf s ≠ some e)
    (hlen : s.length ≤ limits.maxHeaderBytes) {i : HeadInfo}
    (hi : headInfo limits (s.take (e + 4)) e = some i) : headInfo limits s e = some i := by
  have hmax := limits.maxHeaderBytes_lt
  have hquiet : headInfo limits (s.take (e + 4) ++ s.drop (e + 4)) e =
      headInfo limits (s.take (e + 4)) e :=
    headInfo_of_quiet he (by rw [List.length_drop]; omega) fun hfe => absurd hfe hf
  rw [List.take_append_drop, hi] at hquiet
  exact hquiet

/-- With one outcome there is no surplus behind a declared body. -/
theorem exact_of_congr (h : OneOutcome allow limits s) (he : find blankLine s = some e)
    (hf : find crlf s ≠ some e) (hfit : e + 4 ≤ limits.maxHeaderBytes) {i : HeadInfo}
    (hi : headInfo limits (s.take (e + 4)) e = some i) (hcl : i.framing = .contentLength) :
    (s.drop (e + 4)).length < i.length ∨
      (s.drop (e + 4)).length = i.length ∧ s.length ≤ limits.maxHeaderBytes := by
  by_contra hbad
  rw [not_or, not_and] at hbad
  have hwhole := outcome_whole allow limits he
  obtain ⟨ps, hcut, hdone⟩ := exists_cut_done allow he hfit hi hcl (by omega)
  rw [(h _ _ hcut hwhole.1).1] at hdone
  by_cases hslen : s.length ≤ limits.maxHeaderBytes
  · rw [outcome_whole_surplus allow he (headInfo_whole he hf hslen hi) hcl (by omega)] at hdone
    contradiction
  · rw [hwhole.2, if_neg hslen] at hdone
    contradiction

/-- With one outcome a body that ends with the stream keeps both limits or
neither. -/
theorem limits_agree_of_congr (hn : NotChunked limits s) (h : OneOutcome allow limits s)
    (he : find blankLine s = some e) (hf : find crlf s ≠ some e)
    (hfit : e + 4 ≤ limits.maxHeaderBytes) {i : HeadInfo}
    (hi : headInfo limits (s.take (e + 4)) e = some i) (hcl : i.framing ≠ .contentLength)
    (ha : allow = true) :
    (s.drop (e + 4)).length ≤ limits.maxBodyBytes ↔ s.length ≤ limits.maxHeaderBytes := by
  have hcut := outcome_whole_unframed hn h he hfit hi hcl
  rw [(outcome_whole allow limits he).2] at hcut
  by_cases hslen : s.length ≤ limits.maxHeaderBytes
  · refine iff_of_true ?_ hslen
    have hinfo : headInfo limits (s.take (e + 4) ++ s.drop (e + 4)) e = some i := by
      rw [List.take_append_drop]
      exact headInfo_whole he hf hslen hi
    have hfind : find blankLine (s.take (e + 4) ++ s.drop (e + 4)) = some e := by
      rw [List.take_append_drop, he]
    have hverdict := verdict_unframed hfind (length_block he) hinfo allow []
      (bodyState_of_notChunked hn he hi hcl)
    rw [if_pos ⟨ha, .inl rfl⟩, List.take_append_drop] at hverdict
    by_contra hle
    rw [if_pos hslen, if_neg (by tauto)] at hcut
    have herror : verdict ((awaiting allow limits s).step.1.feedAll []).1 = (.error, none) := hcut
    rw [herror] at hverdict
    simp at hverdict
  · refine iff_of_false (fun hle => ?_) hslen
    rw [if_neg hslen, if_pos ⟨ha, hle⟩] at hcut
    simp at hcut

theorem cutFree_of_congr (hn : NotChunked limits s)
    (hplain : ∀ e, find blankLine s = some e → find crlf s = some e →
      allow = true ∧ (s.drop (e + 4)).length ≤ limits.maxBodyBytes)
    (h : OneOutcome allow limits s) : CutFree allow limits s := by
  intro e i he hfit hi
  have hwhole := outcome_whole allow limits he
  by_cases hf : find crlf s = some e
  · have hnone := framing_of_no_lines hf he hi
    have hcl : i.framing ≠ .contentLength := by
      rw [hnone]
      simp
    obtain ⟨ha, hle⟩ := hplain e he hf
    have hdone := outcome_whole_unframed hn h he hfit hi hcl
    rw [if_pos ⟨ha, hle⟩] at hdone
    have hslen : s.length ≤ limits.maxHeaderBytes := by
      by_contra hgt
      rw [hwhole.2, if_neg hgt] at hdone
      simp at hdone
    rw [if_neg hcl]
    refine ⟨fun _ => ?_, .inr (iff_of_true hle hslen)⟩
    rw [List.take_of_length_le (by rw [List.length_drop]; omega)]
    exact quiet_of_congr hf he hslen hi fun ps hcut =>
      (h _ _ hcut hwhole.1).1.trans hdone
  · refine ⟨fun hfe => absurd hfe hf, ?_⟩
    split
    · next hcl => exact exact_of_congr h he hf hfit hi hcl
    · next hcl =>
        rw [or_iff_not_imp_left, Bool.not_eq_false]
        exact limits_agree_of_congr hn h he hf hfit hi hcl

/-- **Without chunked framing the outcome is one and the same for all cuts
where `CutFree` holds**, and only there, but for responses without header
lines that end in an error when their block is read alone. -/
theorem oneOutcome_cutFree (allow : Bool) (limits : Limits) (s : List UInt8)
    (hn : NotChunked limits s) :
    (CutFree allow limits s → OneOutcome allow limits s) ∧
      ((∀ e, find blankLine s = some e → find crlf s = some e →
          allow = true ∧ (s.drop (e + 4)).length ≤ limits.maxBodyBytes) →
        OneOutcome allow limits s → CutFree allow limits s) := by
  constructor
  · intro hfree ps qs hps hqs
    obtain ⟨v, hv⟩ := outcome_of_cutFree hn hfree
    exact ⟨by rw [hv ps hps, hv qs hqs], state_outcome allow limits ps⟩
  · exact cutFree_of_congr hn

end Stream

/-- The head of a response with five bytes of body. -/
def fiveHead : List UInt8 := lit "HTTP/1.1 200 OK\r\nContent-Length: 5\r\n\r\n"

theorem headInfo_fiveHead {body : List UInt8} {e : Nat} {i : HeadInfo}
    (he : find blankLine (fiveHead ++ body) = some e)
    (hi : headInfo {} ((fiveHead ++ body).take (e + 4)) e = some i) :
    e = 34 ∧ i = { status := 200, reason := lit "OK", framing := .contentLength, length := 5 } := by
  have hfind : find blankLine fiveHead = some 34 := by decide +kernel
  have hinfo : headInfo {} fiveHead 34 =
      some { status := 200, reason := lit "OK", framing := .contentLength, length := 5 } := by
    decide +kernel
  rw [find_append_of_some hfind, Option.some.injEq] at he
  subst he
  have htake : (fiveHead ++ body).take (34 + 4) = fiveHead := List.take_left' (by decide)
  rw [htake, hinfo, Option.some.injEq] at hi
  exact ⟨rfl, hi.symm⟩

theorem notChunked_fiveHead (body : List UInt8) : NotChunked {} (fiveHead ++ body) := by
  intro e i he hi
  obtain ⟨-, rfl⟩ := headInfo_fiveHead he hi
  simp

/-- The whole body, and a byte more. -/
theorem oneOutcome_cutFree_fiveHead :
    OneOutcome true {} (fiveHead ++ lit "hello") ∧
      ¬ OneOutcome true {} (fiveHead ++ lit "helloX") := by
  constructor
  · refine (oneOutcome_cutFree true {} _ (notChunked_fiveHead _)).1 ?_
    intro e i he _ hi
    obtain ⟨rfl, rfl⟩ := headInfo_fiveHead he hi
    exact ⟨fun hf => absurd hf (by decide +kernel), by decide +kernel⟩
  · intro hone
    have hplain : ∀ e, find blankLine (fiveHead ++ lit "helloX") = some e →
        find crlf (fiveHead ++ lit "helloX") = some e →
        true = true ∧
          ((fiveHead ++ lit "helloX").drop (e + 4)).length ≤ ({} : Limits).maxBodyBytes := by
      intro e he hf
      have hfind : find blankLine (fiveHead ++ lit "helloX") = some 34 := by decide +kernel
      rw [hfind, Option.some.injEq] at he
      subst he
      exact absurd hf (by decide +kernel)
    have hfree := (oneOutcome_cutFree true {} _ (notChunked_fiveHead _)).2 hplain hone
    have hfind : find blankLine (fiveHead ++ lit "helloX") = some 34 := by decide +kernel
    have hinfo : headInfo {} ((fiveHead ++ lit "helloX").take (34 + 4)) 34 =
        some { status := 200, reason := lit "OK", framing := .contentLength, length := 5 } := by
      decide +kernel
    exact absurd (hfree 34 _ hfind (by decide) hinfo).2 (by decide +kernel)

/-- In one read the surplus byte is an error, in a read of its own it is not
looked at. -/
theorem surplus_seen_by_one_cut :
    NotChunked {} (fiveHead ++ lit "helloX") ∧
      Cut (fiveHead ++ lit "helloX") [fiveHead ++ lit "helloX"] ∧
      Cut (fiveHead ++ lit "helloX") [fiveHead, lit "hello", lit "X"] ∧
      outcome true {} [fiveHead ++ lit "helloX"] = (.error, none) ∧
      outcome true {} [fiveHead, lit "hello", lit "X"] =
        (.done, some { status := 200, statusText := lit "OK", body := lit "hello" }) :=
  ⟨notChunked_fiveHead _, ⟨by decide +kernel, by decide +kernel⟩,
    ⟨by decide +kernel, by decide +kernel⟩, by decide +kernel, by decide +kernel⟩

end HttpResponseParser

end ChaosForger
