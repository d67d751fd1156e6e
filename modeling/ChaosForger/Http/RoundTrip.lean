import ChaosForger.Http.Boundaries

/-!
# ChaosForger.Http.RoundTrip

Content-Length responses come out as they were sent: under every cut into
feeds that the header limit allows for, no feed fails, the parser is not done
before the last byte, and after it the response is the sender's.
-/

namespace ChaosForger

open Search Libc Cuts

namespace HttpResponseParser

/-- What the client is to make of the response. -/
def LengthResponse.response (r : LengthResponse) : HttpResponse :=
  { status := r.statusLine.status
    statusText := r.statusLine.reasonText
    body := r.body }

/-- `ps` are non-empty feeds that make up the response, and all of it is
within the limits. -/
structure LengthResponse.FeedsOf (r : LengthResponse) (limits : Limits) (ps : List (List UInt8)) :
    Prop where
  cut : Cut r.text ps
  header : ∀ d ∈ ps, r.head.length + d.length ≤ limits.maxHeaderBytes
  body : r.body.length ≤ limits.maxBodyBytes

/-- The feeds together leave the response in the parser. -/
theorem feedAll_lengthResponse (allow : Bool) {limits : Limits} (r : LengthResponse)
    {ps : List (List UInt8)} (h : r.FeedsOf limits ps) :
    ((new allow limits).feedAll ps).1.state = .done ∧
      ((new allow limits).feedAll ps).1.resp = r.response := by
  have hne : r.lines ≠ [] := by simp [LengthResponse.lines]
  have hframe : framingOf limits r.lines = some (.contentLength, r.body.length) := by
    rw [r.framingOf_lines, if_neg (Nat.not_lt.mpr h.body)]
  have hp : headerBlock r.statusLine.text r.lines <+: ps.flatten := by
    rw [h.cut.flatten]
    exact List.prefix_append _ _
  obtain ⟨b, post, -, hflat, hmem, ⟨-, d, hd, hover⟩ | hrun⟩ :=
    feedAll_headerBlock allow r.statusLine r.lines_ok hne hframe (.inl rfl) hp
  · have hfit := h.header d hd
    unfold LengthResponse.head at hfit
    omega
  · rw [h.cut.flatten, LengthResponse.text, LengthResponse.head,
      List.append_cancel_left_eq] at hflat
    have hbody := feedAll_contentLength
      (p := atBody allow limits
        { status := r.statusLine.status, reason := r.statusLine.reasonText,
          framing := .contentLength, length := r.body.length } [])
      rfl (d := b) (fun x hx => h.cut.nonempty x (hmem x hx)) (by rw [← hflat]; rfl)
    rw [hrun, hbody]
    refine ⟨rfl, ?_⟩
    show HttpResponse.mk _ _ ([] ++ (b :: post).flatten) = r.response
    rw [← hflat]
    rfl

/-- Some of the feeds do not finish the parser. -/
theorem not_done_of_missing (allow : Bool) (limits : Limits) (r : LengthResponse)
    {pre post : List (List UInt8)} (hcut : Cut r.text (pre ++ post)) (hpost : post ≠ []) :
    ((new allow limits).feedAll pre).1.state ≠ .done := by
  have hwhole : pre.flatten ++ post.flatten = r.text := by
    rw [← List.flatten_append, hcut.flatten]
  have hrest : 0 < post.flatten.length := by
    obtain ⟨d, post, rfl⟩ := List.exists_cons_of_ne_nil hpost
    have hd : 0 < d.length := List.length_pos_of_ne_nil (hcut.nonempty d (by simp))
    rw [List.flatten_cons, List.length_append]
    omega
  have hlt : pre.flatten.length < r.text.length := by
    rw [← hwhole, List.length_append]
    omega
  exact (unfinished_of_front allow limits (.contentLength r) ⟨_, hwhole⟩ hlt).1

/-- **A Content-Length response round-trips** under every cut. -/
theorem lengthResponse_roundTrip (allow : Bool) {limits : Limits} (r : LengthResponse)
    {ps : List (List UInt8)} (h : r.FeedsOf limits ps) :
    ((new allow limits).feedAll ps).2 = true ∧
      (∀ pre post, ps = pre ++ post → post ≠ [] →
        ((new allow limits).feedAll pre).1.state ≠ .done) ∧
      ((new allow limits).feedAll ps).1.state = .done ∧
      ((new allow limits).feedAll ps).1.resp = r.response := by
  obtain ⟨hdone, hresp⟩ := feedAll_lengthResponse allow r h
  refine ⟨feedAll_ok_of_done hdone, ?_, hdone, hresp⟩
  intro pre post hps hpost
  exact not_done_of_missing allow limits r (hps ▸ h.cut) hpost

/-- A body that looks like the end of a header block. -/
def blankResponse : LengthResponse where
  statusLine := okLine
  before := [lit "X-Note: Content-Length: 9"]
  before_ok := by decide
  body := lit "\r\n\r\nhi"
  body_lt := by decide
  lengthLine :=
    { name := lit "CONTENT-length"
      name_eq := by decide
      before := lit " \t"
      before_ows := by decide
      digits := lit "006"
      digits_ne := by decide
      digits_all := by decide
      digits_value := by decide
      after := lit " "
      after_ows := by decide }
  after := []
  after_ok := by decide

/-- The feeds end inside the blank line and inside the body. -/
def blankFeeds : List (List UInt8) :=
  [lit "HTTP/1.1 200 OK\r\nX-Note: Content-Length: 9\r\nCONTENT-length: \t006 \r\n\r",
    lit "\n\r\n", lit "\r\nh", lit "i"]

theorem lengthResponse_roundTrip_blank :
    ((new true {}).feedAll blankFeeds).2 = true ∧
      (∀ pre post, blankFeeds = pre ++ post → post ≠ [] →
        ((new true {}).feedAll pre).1.state ≠ .done) ∧
      ((new true {}).feedAll blankFeeds).1.state = .done ∧
      ((new true {}).feedAll blankFeeds).1.resp = blankResponse.response :=
  lengthResponse_roundTrip true blankResponse
    ⟨⟨by decide +kernel, by decide +kernel⟩, by decide +kernel, by decide +kernel⟩

end HttpResponseParser

end ChaosForger
