import ChaosForger.Http.Decode
import ChaosForger.Http.Feed

/-!
# ChaosForger.Http.Segments

Chunked responses cut into feeds.  Up to the last-chunk line a decoder that
waits is on track (`OnTrack`): it stands where it would stand had the bytes
come at once.  Behind that line it is not.  A call that finds the trailer
section incomplete has dropped the last-chunk line, so the next one reads
the section as chunk-size lines (`rereads`).  `decoded_iff` puts both
together: exactly which cuts of a response decode to it.
-/

namespace ChaosForger

open Search Libc Cuts

namespace HttpResponseParser

/-! ## Through the head -/

/-- **A run through the head of a response that frames its body** is a run
from the start of the body, unless a feed that came with the head took the
buffer beyond the header limit. -/
theorem feedAll_headerBlock (allow : Bool) {limits : Limits} (l : StatusLine)
    {lines : List (List UInt8)} (hls : ∀ m ∈ lines, BlockLine m) (hne : lines ≠ []) {fr : Framing}
    {n : Nat} (hframe : framingOf limits lines = some (fr, n))
    (hbody : bodyState fr = .bodyContentLength ∨ bodyState fr = .bodyChunked)
    {ps : List (List UInt8)} (hp : headerBlock l.text lines <+: ps.flatten) :
    ∃ b post, behind (headerBlock l.text lines).length ps = b :: post ∧
      ps.flatten = headerBlock l.text lines ++ (b :: post).flatten ∧ (∀ d ∈ post, d ∈ ps) ∧
      ((((new allow limits).feedAll ps).1.state = .error ∧
          ∃ d ∈ ps, limits.maxHeaderBytes < (headerBlock l.text lines).length + d.length) ∨
        ((new allow limits).feedAll ps).1 =
          ((atBody allow limits
            { status := l.status, reason := l.reasonText, framing := fr, length := n }
            []).feedAll (b :: post)).1) := by
  have hfind := find_blankLine_headerBlock l.crlfFree_text hls
  have he := hfind []
  have hlen := length_headerBlock l.text lines
  rw [List.append_nil] at he
  obtain ⟨pre, d, post, b, rfl, hpd, hlt, hbehind, hcase⟩ :=
    feedAll_through_head allow limits he hlen hp
  refine ⟨b, post, hbehind, ?_, fun x hx => by simp [hx], ?_⟩
  · rw [List.flatten_append, List.flatten_cons, ← List.append_assoc, hpd, List.flatten_cons,
      List.append_assoc]
  obtain ⟨hfit, hrun⟩ | ⟨hover, hs⟩ := hcase
  · right
    have hinfo := headInfo_headerBlock limits l.crlfFree_text hls hne b
    rw [l.statusOf_text, Option.bind_some, hframe] at hinfo
    dsimp only at hinfo
    rw [Option.map_some] at hinfo
    have hacc : HeadInfo.Accepted
        { status := l.status, reason := l.reasonText, framing := fr, length := n } allow := by
      intro heof
      obtain h | h := hbody <;> simp [h] at heof
    have hdrop : (headerBlock l.text lines ++ b).drop
        (l.text.length + (joinLines lines).length + 4) = b := by
      rw [← hlen]
      exact List.drop_left' rfl
    rw [hrun, step, enterBody_of_accepted (hfind b) hinfo hacc, hdrop]
    exact feedAll_atBody hbody post
  · left
    have hpd' := congrArg List.length hpd
    simp only [List.length_append] at hpd' hover
    exact ⟨hs, d, by simp, by omega⟩

/-! ## On track -/

/-- The decoder has waited behind the bytes `y` of the body. -/
def OnTrack (p : HttpResponseParser) (y : List UInt8) (q : HttpResponseParser) : Prop :=
  ∃ e, chunkLoop.run (p.push y) = (q, e) ∧ e.Resumable

section Track

variable {p q : HttpResponseParser} {y d : List UInt8}

theorem OnTrack.state (hp : p.state = .bodyChunked) (h : OnTrack p y q) :
    q.state = .bodyChunked := by
  obtain ⟨e, hrun, he⟩ := h
  have hstate := run_state (p := p.push y) hp
  rw [hrun, ExitState] at hstate
  obtain rfl | rfl | rfl := he
  · exact hstate
  · exact hstate
  · exact hstate

/-- **The next feed is decoded as if all bytes had come at once.** -/
theorem OnTrack.feed (hp : p.state = .bodyChunked) (h : OnTrack p y q) (d : List UInt8) :
    (q.feed (some d)).1 = (chunkLoop.run (p.push (y ++ d))).1 := by
  have hq := h.state hp
  obtain ⟨e, hrun, he⟩ := h
  rw [feed_chunked hq, ← push_push, run_push hrun he d]

theorem onTrack_nil (hf : Fresh p) (hb : p.buf = []) : OnTrack p [] p := by
  have hnone : find crlf p.buf = none := by
    rw [hb]
    decide
  obtain ⟨-, hr⟩ | ⟨hlt, -⟩ := readSizeLine_of_incomplete hnone
  · refine ⟨.needSizeLine, ?_, .inl rfl⟩
    rw [push_nil]
    exact chunkLoop_exit (chunkPass_of_return hf.started hr)
  · rw [hb, List.length_nil] at hlt
    omega

theorem state_of_failed (hp : p.state = .bodyChunked) (h : (chunkLoop.run p).2 = .failed) :
    (chunkLoop.run p).1.state = .error := by
  have hstate := run_state hp
  rw [ExitState, h] at hstate
  exact hstate

theorem feedAll_concat (p : HttpResponseParser) (ps : List (List UInt8)) (d : List UInt8) :
    (p.feedAll (ps ++ [d])).1 = ((p.feedAll ps).1.feed (some d)).1 := by
  rw [feedAll_append, feedAll_cons]
  rfl

end Track

theorem not_overlong_nil (limit : Nat) (cs : List Chunk) (last : SizeLine) :
    ¬ Overlong limit cs last [] := by
  have hsplit : ∀ l, ¬ SplitsBreak limit l [] := by
    rintro l ⟨-, h⟩
    simp at h
  cases cs with
  | nil => exact hsplit last
  | cons c cs =>
      rintro (h | ⟨y', h, -⟩)
      · exact hsplit c.line h
      · have := congrArg List.length h
        simp only [Chunk.text, List.length_append, length_crlf, List.length_nil] at this
        omega

/-- An overlong line is cut before the end of the last-chunk line. -/
theorem Overlong.length_lt {limit : Nat} {cs : List Chunk} {last : SizeLine} {y : List UInt8}
    (h : Overlong limit cs last y) : y.length < (chunksText cs ++ (last.text ++ crlf)).length := by
  induction cs generalizing y with
  | nil =>
      rw [h.2, chunksText_nil, List.nil_append]
      simp
  | cons c cs ih =>
      simp only [chunksText_cons, List.length_append, length_crlf]
      obtain h | ⟨y', rfl, h⟩ := h
      · rw [h.2]
        simp only [List.length_append, List.length_singleton, Chunk.text, length_crlf]
        omega
      · have := ih h
        simp only [List.length_append, length_crlf] at this ⊢
        omega

/-- Some feed of the body ends inside the break of an overlong line. -/
def CutsOverlong (limit : Nat) (cs : List Chunk) (last : SizeLine) (bs : List (List UInt8)) :
    Prop :=
  ∃ pre post, bs = pre ++ post ∧ Overlong limit cs last pre.flatten

theorem cutsOverlong_concat {limit : Nat} {cs : List Chunk} {last : SizeLine}
    {pre : List (List UInt8)} {d : List UInt8} :
    CutsOverlong limit cs last (pre ++ [d]) ↔
      CutsOverlong limit cs last pre ∨ Overlong limit cs last (pre.flatten ++ d) := by
  have hflat : (pre ++ [d]).flatten = pre.flatten ++ d := by simp
  constructor
  · rintro ⟨a, b, hab, hover⟩
    obtain rfl | ⟨b', c, rfl⟩ := List.eq_nil_or_concat b
    · rw [List.append_nil] at hab
      rw [← hab, hflat] at hover
      exact .inr hover
    · rw [List.concat_eq_append, ← List.append_assoc] at hab
      have hinit := List.append_inj_left' hab rfl
      exact .inl ⟨a, b', hinit, hover⟩
  · rintro (⟨a, b, rfl, hover⟩ | hover)
    · exact ⟨a, b ++ [d], by rw [List.append_assoc], hover⟩
    · exact ⟨pre ++ [d], [], by simp, by rwa [hflat]⟩

/-- Behind the last-chunk line no feed ends inside an overlong line. -/
theorem cutsOverlong_append_cons {limit : Nat} {cs : List Chunk} {last : SizeLine}
    {pre ds : List (List UInt8)} {d : List UInt8}
    (hle : (chunksText cs ++ (last.text ++ crlf)).length ≤ (pre.flatten ++ d).length) :
    CutsOverlong limit cs last (pre ++ d :: ds) ↔ CutsOverlong limit cs last pre := by
  constructor
  · rintro ⟨a, c, hac, hover⟩
    obtain ⟨a', rfl, hac'⟩ | ⟨c', rfl, -⟩ := List.append_eq_append_iff.mp hac
    · cases a' with
      | nil => exact ⟨pre, [], by simp, by simpa using hover⟩
      | cons d' a' =>
          rw [List.cons_append, List.cons.injEq] at hac'
          have hshort := hover.length_lt
          rw [← hac'.1, List.flatten_append, List.flatten_cons, List.length_append,
            List.length_append] at hshort
          have hpiece : (pre.flatten ++ d).length = pre.flatten.length + d.length :=
            List.length_append
          omega
    · exact ⟨a, c', rfl, hover⟩
  · rintro ⟨a, c, rfl, hover⟩
    exact ⟨a, c ++ d :: ds, by rw [List.append_assoc], hover⟩

/-- **Up to the last-chunk line a run is on track**, or has failed at an
overlong line or a limit. -/
theorem onTrack_of_open {p : HttpResponseParser} (hf : Fresh p) (hb : p.buf = [])
    {cs : List Chunk} {last : SizeLine} {pre : List (List UInt8)}
    (hpre : pre.flatten <+: chunksText cs ++ (last.text ++ crlf))
    (hlt : pre.flatten.length < (chunksText cs ++ (last.text ++ crlf)).length) :
    (OnTrack p pre.flatten (p.feedAll pre).1 ∧
        ¬ CutsOverlong p.limits.maxChunkLineBytes cs last pre) ∨
      ((p.feedAll pre).1.state = .error ∧
        (CutsOverlong p.limits.maxChunkLineBytes cs last pre ∨ ¬ Fits p cs last)) := by
  induction pre using List.reverseRecOn with
  | nil =>
      refine .inl ⟨onTrack_nil hf hb, ?_⟩
      rintro ⟨a, b, hab, hover⟩
      obtain ⟨rfl, -⟩ := List.append_eq_nil_iff.mp hab.symm
      exact not_overlong_nil _ _ _ hover
  | append_singleton pre d ih =>
      have hflat : (pre ++ [d]).flatten = pre.flatten ++ d := by simp
      rw [hflat] at hpre hlt ⊢
      have hshort : pre.flatten.length < (chunksText cs ++ (last.text ++ crlf)).length := by
        rw [List.length_append] at hlt
        omega
      rw [feedAll_concat]
      obtain ⟨htrack, hok⟩ | ⟨hs, hwhy⟩ := ih ((List.prefix_append _ d).trans hpre) hshort
      · rw [htrack.feed hf.state]
        have hbuf : (p.push (pre.flatten ++ d)).buf = pre.flatten ++ d := by
          rw [push_buf, hb, List.nil_append]
        have hlim : (p.push (pre.flatten ++ d)).limits = p.limits := rfl
        have hopen := run_open cs last (hf.push (pre.flatten ++ d))
        rw [hbuf, hlim] at hopen
        obtain ⟨hwait, hover⟩ | ⟨hfail, hwhy⟩ := hopen hpre hlt
        · refine .inl ⟨⟨_, rfl, hwait⟩, ?_⟩
          rw [cutsOverlong_concat]
          exact fun h => h.elim hok hover
        · refine .inr ⟨state_of_failed hf.state hfail, ?_⟩
          rw [cutsOverlong_concat]
          obtain h | h := hwhy
          · exact .inl (.inr h)
          · exact .inr fun hfit => h ⟨hfit.short, hfit.lines, hfit.payload⟩
      · right
        rw [feed_of_error hs, cutsOverlong_concat]
        refine ⟨hs, ?_⟩
        obtain h | h := hwhy
        · exact .inl (.inl h)
        · exact .inr h

/-! ## Lost in the trailers -/

/-- A run that ends in `done` has received all that was announced. -/
theorem announced_le_of_done {p : HttpResponseParser} (hp : p.state = .bodyChunked)
    {ds : List (List UInt8)} (h : ((chunkLoop.run p).1.feedAll ds).1.state = .done) :
    (chunkLoop.run p).1.announced ≤
      ((chunkLoop.run p).1.feedAll ds).1.resp.body.length := by
  induction ds generalizing p with
  | nil =>
      have hexit : (chunkLoop.run p).2 = .complete := by
        have hstate := run_state hp
        have hs : (chunkLoop.run p).1.state = .done := h
        unfold ExitState at hstate
        split at hstate
        · rw [hs] at hstate
          contradiction
        · assumption
        · rw [hs] at hstate
          contradiction
      have hst := chunkStarted_of_complete (Prod.ext rfl hexit : chunkLoop.run p = (_, .complete))
      show (chunkLoop.run p).1.announced ≤ (chunkLoop.run p).1.resp.body.length
      simp [announced, hst]
  | cons d ds ih =>
      have hstate := run_state hp
      unfold ExitState at hstate
      split at hstate
      · rw [feedAll_of_error hstate, hstate] at h
        contradiction
      · next hexit =>
          have hst := chunkStarted_of_complete
            (Prod.ext rfl hexit : chunkLoop.run p = (_, .complete))
          rw [feedAll_of_done hstate]
          simp [announced, hst]
      · rw [feedAll_cons, feed_chunked hstate] at h ⊢
        exact Nat.le_trans (announced_le_run ((chunkLoop.run p).1.push d))
          (ih (p := (chunkLoop.run p).1.push d) hstate h)

/-- A size line announces its chunk, or is an error. -/
theorem announced_of_sizeLine {p : HttpResponseParser} {line rest : List UInt8} {size : Nat}
    (hst : p.chunkStarted = false) (hl : CrlfFree line) (hbuf : p.buf = line ++ crlf ++ rest)
    (hsize : chunkSize line = some size) (hpos : 0 < size) :
    (chunkLoop.run p).2 = .failed ∨
      p.resp.body.length + size ≤ (chunkLoop.run p).1.announced := by
  have hf : find crlf p.buf = some line.length := by rw [hbuf]; exact find_crlf_line hl _
  have htake : p.buf.take line.length = line := by
    rw [hbuf, List.append_assoc]; exact List.take_left' rfl
  obtain ⟨hn, -⟩ | ⟨hz, -⟩ | ⟨n, hn, -, ⟨-, -, hr⟩ | ⟨-, msg, hr⟩⟩ := readSizeLine_of_line hf
  · simp [htake, hsize] at hn
  · rw [htake, hsize, Option.some.injEq] at hz
    omega
  · rw [htake, hsize, Option.some.injEq] at hn
    subst hn
    have hpass := chunkPass_of_size hst hr
    rw [← chunkPass_of_started (p := (p.skipLine line.length).startChunk size) rfl] at hpass
    rw [run_congr hpass]
    exact .inr (announced_le_run ((p.skipLine line.length).startChunk size))
  · rw [chunkLoop_exit (chunkPass_of_return hst hr)]
    exact .inl rfl

/-- Whether a decoder that stopped inside the trailers gets over it: it has
`x` of the section buffered and reads on with the first of the trailer lines
as a chunk-size line.  That line must be a last-chunk line itself, and what
is then left of the section must come with the feed that completes it, or be
got over in turn. -/
def rereads : List (List UInt8) → List UInt8 → List (List UInt8) → Prop
  | _, _, [] => False
  | [], _, _ :: _ => False
  | t :: ts, x, d :: ds =>
      if (x ++ d).length < t.length + 2 then rereads (t :: ts) (x ++ d) ds
      else chunkSize t = some 0 ∧ (ds = [] ∨ rereads ts ((x ++ d).drop (t.length + 2)) ds)

theorem not_rereads_nil (x : List UInt8) (ds : List (List UInt8)) : ¬ rereads [] x ds := by
  cases ds <;> exact id

/-- The response has been decoded to this body. -/
def DecodesTo (p : HttpResponseParser) (body : List UInt8) : Prop :=
  p.state = .done ∧ p.resp.body = body

theorem not_decodesTo_of_failed {p : HttpResponseParser} (hp : p.state = .bodyChunked)
    (hfail : (chunkLoop.run p).2 = .failed) (ds : List (List UInt8)) (body : List UInt8) :
    ¬ DecodesTo ((chunkLoop.run p).1.feedAll ds).1 body := by
  rintro ⟨h, -⟩
  have hs := state_of_failed hp hfail
  rw [feedAll_of_error hs, hs] at h
  contradiction

/-- A trailer line that reads as the size of a chunk adds to the body. -/
theorem not_decodesTo_of_sizeLine {p : HttpResponseParser} (hp : Fresh p)
    {line rest : List UInt8} {size : Nat} (hl : CrlfFree line)
    (hbuf : p.buf = line ++ crlf ++ rest) (hsize : chunkSize line = some size) (hpos : 0 < size)
    (ds : List (List UInt8)) :
    ¬ DecodesTo ((chunkLoop.run p).1.feedAll ds).1 p.resp.body := by
  obtain hfail | hann := announced_of_sizeLine hp.started hl hbuf hsize hpos
  · exact not_decodesTo_of_failed hp.state hfail ds _
  · rintro ⟨hdone, hbody⟩
    have hall := announced_le_of_done hp.state hdone
    rw [hbody] at hall
    omega

/-- A trailer line that reads as a last chunk is followed by the trailer loop. -/
theorem run_reread {p : HttpResponseParser} (hp : Fresh p) {line rest : List UInt8}
    (hl : CrlfFree line) (hbuf : p.buf = line ++ crlf ++ rest)
    (hsize : chunkSize line = some 0) :
    chunkLoop.run p = trailerLoop.run ((p.received [] rest).startTrailers, 0) := by
  have hrec : ({ p with buf := rest } : HttpResponseParser) = p.received [] rest := by
    simp [received]
  rw [run_lastChunk hp.started hbuf hl hsize, hrec]

/-- With the last-chunk line read the run decodes when the section is whole,
or when the decoder gets over its being not. -/
theorem decodesTo_trailerLoop_iff {p : HttpResponseParser} (hp : Fresh p)
    {ts : List (List UInt8)} (hts : ∀ t ∈ ts, BlockLine t) {ds : List (List UInt8)}
    (hne : ∀ d ∈ ds, d ≠ []) (hx : p.buf ++ ds.flatten = joinLines ts ++ crlf)
    (hlim : (joinLines ts ++ crlf).length ≤ p.limits.maxChunkLineBytes)
    (hlost : ∀ q, Fresh q → q.buf = p.buf → q.limits = p.limits → q.resp.body = p.resp.body →
      (DecodesTo (q.feedAll ds).1 q.resp.body ↔ rereads ts q.buf ds)) :
    DecodesTo ((trailerLoop.run (p.startTrailers, 0)).1.feedAll ds).1 p.resp.body ↔
      ds = [] ∨ rereads ts p.buf ds := by
  cases ds with
  | nil =>
      rw [List.flatten_nil, List.append_nil] at hx
      obtain ⟨n, hdone⟩ := run_trailerSection hts hx hlim
      rw [hdone]
      exact iff_of_true ⟨rfl, rfl⟩ (.inl rfl)
  | cons d ds =>
      have hpos : 0 < d.length := List.length_pos_of_ne_nil (hne d List.mem_cons_self)
      have hfront : p.buf <+: joinLines ts ++ crlf := hx ▸ List.prefix_append _ _
      have hlt : p.buf.length < (joinLines ts ++ crlf).length := by
        rw [← hx, List.length_append, List.flatten_cons, List.length_append]
        omega
      obtain ⟨n, hopen⟩ := run_open_trailerSection hts hfront hlt hlim
      rw [hopen, or_iff_right (List.cons_ne_nil d ds)]
      exact hlost { p with trailerBytes := n, chunkTrailerDone := false }
        ⟨hp.state, hp.started, hp.remaining⟩ rfl rfl rfl

/-- A lost decoder that reads a whole trailer line as a size line gets over it
when the line is itself a last-chunk line and the section then ends. -/
theorem decodesTo_reread_iff {q : HttpResponseParser} (hq : Fresh q) {t y : List UInt8}
    (ht : CrlfFree t) (hbuf : q.buf = t ++ crlf ++ y) {ts ds : List (List UInt8)}
    (hts : ∀ t ∈ ts, BlockLine t) (hne : ∀ d ∈ ds, d ≠ [])
    (hx : y ++ ds.flatten = joinLines ts ++ crlf)
    (hlim : (joinLines ts ++ crlf).length ≤ q.limits.maxChunkLineBytes)
    (hlost : ∀ r, Fresh r → r.buf = y → r.limits = q.limits →
      (DecodesTo (r.feedAll ds).1 r.resp.body ↔ rereads ts r.buf ds)) :
    DecodesTo ((chunkLoop.run q).1.feedAll ds).1 q.resp.body ↔
      chunkSize t = some 0 ∧ (ds = [] ∨ rereads ts y ds) := by
  cases hsize : chunkSize t with
  | none =>
      have hbad := run_bad_sizeLine hq.started ht hbuf hsize
      exact iff_of_false (not_decodesTo_of_failed hq.state hbad ds _) fun h => by simp at h
  | some size =>
      cases size with
      | succ n =>
          exact iff_of_false (not_decodesTo_of_sizeLine hq ht hbuf hsize (Nat.succ_pos n) ds)
            fun h => by simp at h
      | zero =>
          have hbody : (q.received [] y).resp.body = q.resp.body := List.append_nil _
          have hiff := decodesTo_trailerLoop_iff (hq.received [] y) hts hne hx hlim
            fun r hr hrbuf hrlim _ => hlost r hr hrbuf hrlim
          rw [hbody] at hiff
          rw [run_reread hq ht hbuf hsize, hiff]
          exact (and_iff_right rfl).symm

/-- **A decoder that stopped inside the trailers completes exactly when it
gets over it.** -/
theorem rereads_iff {q : HttpResponseParser} (hq : Fresh q) {ts : List (List UInt8)}
    (hts : ∀ t ∈ ts, BlockLine t) {ds : List (List UInt8)} (hne : ∀ d ∈ ds, d ≠ [])
    (hx : q.buf ++ ds.flatten = joinLines ts ++ crlf)
    (hlim : (joinLines ts ++ crlf).length ≤ q.limits.maxChunkLineBytes) :
    DecodesTo (q.feedAll ds).1 q.resp.body ↔ rereads ts q.buf ds := by
  induction ds generalizing ts q with
  | nil =>
      constructor
      · rintro ⟨h, -⟩
        have hs : q.state = .done := h
        rw [hq.state] at hs
        contradiction
      · exact fun h => by cases ts <;> exact h.elim
  | cons d ds ih =>
      have hp := hq.push d
      have hne' : ∀ x ∈ ds, x ≠ [] := fun x hx => hne x (List.mem_cons_of_mem d hx)
      rw [List.flatten_cons, ← List.append_assoc] at hx
      have hfront : q.buf ++ d <+: joinLines ts ++ crlf := hx ▸ List.prefix_append _ _
      rw [feedAll_cons, feed_chunked hq.state]
      show DecodesTo ((chunkLoop.run (q.push d)).1.feedAll ds).1 _ ↔ _
      -- an incomplete line is waited for
      have hwait : ∀ {t : List UInt8}, CrlfFree t → q.buf ++ d <+: t ++ crlf →
          (q.buf ++ d).length < t.length + 2 →
          (DecodesTo ((chunkLoop.run (q.push d)).1.feedAll ds).1 q.resp.body ↔
            rereads ts (q.buf ++ d) ds) := by
        intro t ht hpre hlt
        have hrun := (run_open_sizeLine (p := q.push d) hq.started ht hpre hlt).1
          (Nat.le_trans hfront.length_le hlim)
        rw [hrun]
        exact ih hp hts hne' hx hlim
      cases ts with
      | nil =>
          rw [joinLines_nil, List.nil_append] at hfront
          by_cases hlt : (q.buf ++ d).length < 2
          · rw [hwait crlfFree_nil hfront hlt]
            exact iff_of_false (not_rereads_nil _ _) id
          · have hlen := hfront.length_le
            rw [length_crlf] at hlen
            have hwhole : q.buf ++ d = crlf :=
              hfront.eq_of_length (Nat.le_antisymm hlen (Nat.le_of_not_lt hlt))
            have hbuf : (q.push d).buf = [] ++ crlf ++ [] := by rw [push_buf, hwhole]; rfl
            have hbad : (chunkLoop.run (q.push d)).2 = .failed :=
              run_bad_sizeLine hq.started crlfFree_nil hbuf rfl
            exact iff_of_false (not_decodesTo_of_failed hp.state hbad ds _) id
      | cons t ts =>
          have ht := hts t List.mem_cons_self
          have hts' : ∀ x ∈ ts, BlockLine x := fun x hx => hts x (List.mem_cons_of_mem t hx)
          have hline : (t ++ crlf).length = t.length + 2 := by simp
          have hsection : joinLines (t :: ts) ++ crlf = t ++ crlf ++ (joinLines ts ++ crlf) := by
            rw [joinLines_cons, List.append_assoc]
          rw [hsection] at hfront hx hlim
          rw [List.length_append, hline] at hlim
          rw [rereads]
          by_cases hlt : (q.buf ++ d).length < t.length + 2
          · rw [if_pos hlt]
            have hpre : q.buf ++ d <+: t ++ crlf :=
              List.prefix_of_prefix_length_le hfront (List.prefix_append _ _) (by omega)
            exact hwait ht.2 hpre hlt
          · obtain ⟨y, hy⟩ : t ++ crlf <+: q.buf ++ d :=
              List.prefix_of_prefix_length_le (List.prefix_append _ _) hfront (by omega)
            have hdrop : (q.buf ++ d).drop (t.length + 2) = y := by
              rw [← hy]
              exact List.drop_left' hline
            have hpbuf : (q.push d).buf = t ++ crlf ++ y := hy.symm
            rw [if_neg hlt, hdrop]
            rw [← hy, List.append_assoc (t ++ crlf), List.append_cancel_left_eq] at hx
            have hlim' : (joinLines ts ++ crlf).length ≤ q.limits.maxChunkLineBytes :=
              Nat.le_trans (Nat.le_add_left _ _) hlim
            exact decodesTo_reread_iff hp ht.2 hpbuf hts' hne' hx hlim' fun r hr hrbuf hrlim =>
              ih hr hts' hne' (by rw [hrbuf]; exact hx) (by rw [hrlim]; exact hlim')

/-! ## Chunked responses in feeds -/

/-- A decoder that has all of the body up to the last-chunk line decodes it when
the sizes are short and it does not get lost in the trailers. -/
theorem decodesTo_lead_iff {p : HttpResponseParser} (hf : Fresh p) (m : ChunkedBody)
    {x : List UInt8} (hbuf : p.buf = m.lead ++ x)
    (hlines : ∀ l ∈ m.sizeLines, l.text.length ≤ p.limits.maxChunkLineBytes)
    (hpayload : p.resp.body.length + (payload m.chunks).length ≤ p.limits.maxBodyBytes)
    (htrailers : m.trailerSection.length ≤ p.limits.maxChunkLineBytes)
    {ds : List (List UInt8)} (hx : x ++ ds.flatten = joinLines m.trailers ++ crlf)
    (hne : ∀ d ∈ ds, d ≠ []) :
    DecodesTo ((chunkLoop.run p).1.feedAll ds).1 (p.resp.body ++ payload m.chunks) ↔
      (∀ l ∈ m.sizeLines, l.Short) ∧ (ds = [] ∨ rereads m.trailers x ds) := by
  obtain ⟨hshort, hlead⟩ | ⟨hfail, hlong⟩ := run_lead hf m.last_zero hbuf
  · have hiff := decodesTo_trailerLoop_iff (hf.received (payload m.chunks) x) m.trailers_ok hne hx
      htrailers fun r hr hrbuf hrlim _ => rereads_iff hr m.trailers_ok hne
        (by rw [hrbuf]; exact hx) (by rw [hrlim]; exact htrailers)
    rw [hlead]
    exact hiff.trans (and_iff_right hshort).symm
  · exact iff_of_false (not_decodesTo_of_failed hf.state hfail ds _)
      fun h => hlong ⟨h.1, hlines, hpayload⟩

/-- **Which feeds of a chunked body decode to it.** -/
theorem decoded_body_iff {p : HttpResponseParser} (hf : Fresh p) (hb : p.buf = [])
    (m : ChunkedBody) (hlines : ∀ l ∈ m.sizeLines, l.text.length ≤ p.limits.maxChunkLineBytes)
    (hpayload : p.resp.body.length + (payload m.chunks).length ≤ p.limits.maxBodyBytes)
    (htrailers : m.trailerSection.length ≤ p.limits.maxChunkLineBytes)
    {b : List UInt8} {post : List (List UInt8)} (hbs : (b :: post).flatten = m.text)
    (hne : ∀ d ∈ post, d ≠ []) :
    DecodesTo (p.feedAll (b :: post)).1 (p.resp.body ++ payload m.chunks) ↔
      (∀ l ∈ m.sizeLines, l.Short) ∧
      ¬ CutsOverlong p.limits.maxChunkLineBytes m.chunks m.last (b :: post) ∧
      ∀ x ds, behind m.lead.length (b :: post) = x :: ds → ds = [] ∨ rereads m.trailers x ds := by
  have hlead : m.lead ≠ [] := by
    unfold ChunkedBody.lead
    simp [crlf]
  have hreach : m.lead <+: (b :: post).flatten := by
    rw [hbs]
    exact List.prefix_append _ _
  obtain ⟨pre, d, ds, x, hcut, hpd, hlt⟩ := exists_piece_reaching hlead hreach
  have hfront : pre.flatten <+: m.lead :=
    List.prefix_of_prefix_length_le (List.prefix_append _ d) (hpd ▸ List.prefix_append _ x)
      (by omega)
  have hle : m.lead.length ≤ (pre.flatten ++ d).length := by
    rw [hpd, List.length_append]
    omega
  have hbehind : behind m.lead.length (b :: post) = x :: ds := by
    rw [hcut, behind_eq hlt hle, hpd, List.drop_left]
  have hx : x ++ ds.flatten = joinLines m.trailers ++ crlf := by
    rw [hcut, List.flatten_append, List.flatten_cons, ← List.append_assoc, hpd,
      ChunkedBody.text, List.append_assoc, List.append_cancel_left_eq] at hbs
    exact hbs
  have hneds : ∀ d' ∈ ds, d' ≠ [] := by
    intro d' hd'
    cases pre with
    | nil =>
        rw [List.nil_append, List.cons.injEq] at hcut
        rw [← hcut.2] at hd'
        exact hne d' hd'
    | cons c pre =>
        rw [List.cons_append, List.cons.injEq] at hcut
        exact hne d' (by rw [hcut.2]; simp [hd'])
  have hrun : (p.feedAll (b :: post)).1 =
      (((p.feedAll pre).1.feed (some d)).1.feedAll ds).1 := by
    rw [hcut, feedAll_append, feedAll_cons]
  rw [hrun, hbehind, hcut, cutsOverlong_append_cons hle]
  obtain ⟨htrack, hok⟩ | ⟨hs, hwhy⟩ := onTrack_of_open hf hb hfront hlt
  · have hbuf : (p.push (m.lead ++ x)).buf = m.lead ++ x := by
      rw [push_buf, hb, List.nil_append]
    have hiff := decodesTo_lead_iff (hf.push (m.lead ++ x)) m hbuf hlines hpayload htrailers hx hneds
    rw [htrack.feed hf.state, hpd]
    refine hiff.trans (and_congr_right fun _ => ?_)
    constructor
    · intro h
      refine ⟨hok, fun x' ds' heq => ?_⟩
      rw [List.cons.injEq] at heq
      rw [← heq.1, ← heq.2]
      exact h
    · exact fun h => h.2 x ds rfl
  · refine iff_of_false ?_ ?_
    · rintro ⟨hdone, -⟩
      rw [feed_of_error hs, feedAll_of_error hs, hs] at hdone
      contradiction
    · rintro ⟨hshort, hok, -⟩
      obtain h | h := hwhy
      · exact hok h
      · exact h ⟨hshort, hlines, hpayload⟩

/-- A run in a chunked body keeps the head of the response. -/
theorem sameHead_feedAll {p : HttpResponseParser} (hp : p.state = .bodyChunked)
    (ds : List (List UInt8)) : SameHead p (p.feedAll ds).1 := by
  induction ds generalizing p with
  | nil => exact SameHead.rfl
  | cons d ds ih =>
      have hrun : SameHead p (chunkLoop.run (p.push d)).1 :=
        SameHead.trans SameHead.rfl (run_sameHead (p.push d))
      have hstate := run_state (p := p.push d) hp
      rw [feedAll_cons, feed_chunked hp]
      unfold ExitState at hstate
      split at hstate
      · rw [feedAll_of_error hstate]
        exact hrun
      · rw [feedAll_of_done hstate]
        exact hrun
      · exact hrun.trans (ih hstate)

/-- A response with a chunked body. -/
structure ChunkedResponse where
  statusLine : StatusLine
  lines : List (List UInt8)
  lines_ok : ∀ l ∈ lines, BlockLine l
  body : ChunkedBody

namespace ChunkedResponse

def head (r : ChunkedResponse) : List UInt8 := headerBlock r.statusLine.text r.lines

def text (r : ChunkedResponse) : List UInt8 := r.head ++ r.body.text

/-- What the client is to make of it. -/
def response (r : ChunkedResponse) : HttpResponse :=
  { status := r.statusLine.status
    statusText := r.statusLine.reasonText
    body := payload r.body.chunks }

/-- `ps` are non-empty feeds that make up the response, and all of it is
within the limits. -/
structure FeedsOf (r : ChunkedResponse) (limits : Limits) (ps : List (List UInt8)) : Prop where
  cut : Cut r.text ps
  framing : ∃ n, framingOf limits r.lines = some (.chunked, n)
  header : ∀ d ∈ ps, r.head.length + d.length ≤ limits.maxHeaderBytes
  sizeLines : ∀ l ∈ r.body.sizeLines, l.text.length ≤ limits.maxChunkLineBytes
  trailers : r.body.trailerSection.length ≤ limits.maxChunkLineBytes
  payload : (payload r.body.chunks).length ≤ limits.maxBodyBytes

end ChunkedResponse

/-- **Which feeds of a chunked response decode to it**: the sizes have at most
16 digits, no feed ends inside the break of a size line as long as the limit,
and the feed that completes the last-chunk line brings the whole trailer
section with it, or the decoder gets over its not doing so. -/
theorem decoded_iff {allow : Bool} {limits : Limits} (r : ChunkedResponse)
    {ps : List (List UInt8)} (h : r.FeedsOf limits ps) :
    (((new allow limits).feedAll ps).2 = true ∧
        ((new allow limits).feedAll ps).1.state = .done ∧
        ((new allow limits).feedAll ps).1.resp = r.response) ↔
      (∀ l ∈ r.body.sizeLines, l.Short) ∧
      ¬ CutsOverlong limits.maxChunkLineBytes r.body.chunks r.body.last
        (behind r.head.length ps) ∧
      ∀ x ds, behind (r.head.length + r.body.lead.length) ps = x :: ds →
        ds = [] ∨ rereads r.body.trailers x ds := by
  obtain ⟨n, hframe⟩ := h.framing
  have hne : r.lines ≠ [] := by
    intro hnil
    rw [hnil] at hframe
    simp [framingOf, frameLines] at hframe
  have hp : headerBlock r.statusLine.text r.lines <+: ps.flatten := by
    rw [h.cut.flatten]
    exact List.prefix_append _ _
  obtain ⟨b, post, hbehind, hflat, hmem, ⟨-, d, hd, hover⟩ | hrun⟩ :=
    feedAll_headerBlock allow r.statusLine r.lines_ok hne hframe (.inr rfl) hp
  · have := h.header d hd
    unfold ChunkedResponse.head at this
    omega
  · have hbs : (b :: post).flatten = r.body.text := by
      rw [h.cut.flatten, ChunkedResponse.text, ChunkedResponse.head,
        List.append_cancel_left_eq] at hflat
      exact hflat.symm
    generalize hstart : atBody allow limits
      { status := r.statusLine.status, reason := r.statusLine.reasonText,
        framing := .chunked, length := n } [] = p at hrun
    have hfresh : Fresh p := by
      subst hstart
      exact ⟨rfl, rfl, rfl⟩
    have hlimits : p.limits = limits := by
      subst hstart
      rfl
    have hresp : p.resp = { r.response with body := [] } := by
      subst hstart
      rfl
    have hbuf : p.buf = [] := by
      subst hstart
      rfl
    have hiff := decoded_body_iff hfresh hbuf r.body (by rw [hlimits]; exact h.sizeLines)
      (by rw [hlimits, hresp, List.length_nil, Nat.zero_add]; exact h.payload)
      (by rw [hlimits]; exact h.trailers) hbs fun d hd => h.cut.nonempty d (hmem d hd)
    obtain ⟨-, -, hstatus, htext⟩ := sameHead_feedAll hfresh.state (b :: post)
    rw [hresp] at hiff hstatus htext
    rw [hlimits, List.nil_append, ← hrun] at hiff
    rw [← hrun] at hstatus htext
    rw [behind_add, ChunkedResponse.head, hbehind, ← hiff]
    constructor
    · rintro ⟨-, hdone, hall⟩
      exact ⟨hdone, congrArg HttpResponse.body hall⟩
    · rintro ⟨hdone, hbody⟩
      refine ⟨feedAll_ok_of_done hdone, hdone, ?_⟩
      generalize ((new allow limits).feedAll ps).1.resp = resp at *
      obtain ⟨status, text, body⟩ := resp
      rw [ChunkedResponse.response, HttpResponse.mk.injEq]
      exact ⟨hstatus, htext, hbody⟩

/-- `HTTP/1.1 200 OK` -/
def okLine : StatusLine where
  minor := true
  status := 200
  status_lt := by decide
  reason := some (lit "OK")
  reason_free := by rintro r ⟨rfl⟩; decide

/-- A size line without an extension. -/
def plainSize (digits : List UInt8) (hne : digits ≠ []) (hall : digits.all isxdigit = true) :
    SizeLine where
  digits := digits
  digits_ne := hne
  digits_all := hall
  ext := []
  ext_start := .inl rfl
  ext_free := crlfFree_nil

/-- One chunk, `hello`, and trailer lines that look like another one. -/
def helloResponse : ChunkedResponse where
  statusLine := okLine
  lines := [lit "Transfer-Encoding: chunked"]
  lines_ok := by decide
  body :=
    { chunks := [
        { line := plainSize (lit "5") (by decide) (by decide)
          data := lit "hello"
          data_ne := by decide
          size_eq := by decide }]
      last := plainSize (lit "0") (by decide) (by decide)
      last_zero := by decide
      trailers := [lit "5", lit "world", lit "0"]
      trailers_ok := by decide }

theorem helloResponse_feedsOf {ps : List (List UInt8)} (hps : ps.flatten = helloResponse.text)
    (hne : ∀ d ∈ ps, d ≠ []) : helloResponse.FeedsOf {} ps := by
  have hlen : helloResponse.head.length + helloResponse.text.length ≤ 64 * 1024 := by
    decide +kernel
  constructor
  · exact ⟨hps, hne⟩
  · exact ⟨0, by decide +kernel⟩
  · intro d hd
    have hle : d.length ≤ ps.flatten.length := (List.sublist_flatten_of_mem hd).length_le
    rw [hps] at hle
    show helloResponse.head.length + d.length ≤ 64 * 1024
    omega
  · decide +kernel
  · decide +kernel
  · decide +kernel

/-- A single feed brings the whole response. -/
theorem decoded_iff_single :
    (((new true {}).feedAll [helloResponse.text]).2 = true ∧
        ((new true {}).feedAll [helloResponse.text]).1.state = .done ∧
        ((new true {}).feedAll [helloResponse.text]).1.resp = helloResponse.response) ↔
      (∀ l ∈ helloResponse.body.sizeLines, l.Short) ∧
      ¬ CutsOverlong 1024 helloResponse.body.chunks helloResponse.body.last
        (behind helloResponse.head.length [helloResponse.text]) ∧
      ∀ x ds, behind (helloResponse.head.length + helloResponse.body.lead.length)
        [helloResponse.text] = x :: ds → ds = [] ∨ rereads helloResponse.body.trailers x ds :=
  decoded_iff helloResponse (helloResponse_feedsOf (by simp) (by decide +kernel))

/-- Cut behind the last-chunk line the trailer lines of the same response enter
the body. -/
theorem decoded_smuggled :
    helloResponse.text =
        chunkedHead ++ lit "5\r\nhello\r\n0\r\n" ++ lit "5\r\nworld\r\n0\r\n\r\n" ∧
      helloResponse.FeedsOf {}
        [chunkedHead ++ lit "5\r\nhello\r\n0\r\n", lit "5\r\nworld\r\n0\r\n\r\n"] ∧
      helloResponse.response.body = lit "hello" ∧
      ((new true {}).feedAll
        [chunkedHead ++ lit "5\r\nhello\r\n0\r\n",
          lit "5\r\nworld\r\n0\r\n\r\n"]).1.state = .done ∧
      ((new true {}).feedAll
        [chunkedHead ++ lit "5\r\nhello\r\n0\r\n",
          lit "5\r\nworld\r\n0\r\n\r\n"]).1.resp.body = lit "helloworld" := by
  refine ⟨by decide +kernel, helloResponse_feedsOf (by decide +kernel) (by decide +kernel), ?_⟩
  decide +kernel

end HttpResponseParser

end ChaosForger
