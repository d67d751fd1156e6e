import ChaosForger.Http.Progress

/-!
# ChaosForger.Http.Exchange

`HttpClient::request` with its effects: the calls it makes on the transport,
the caller's response object and error text.  `exchange` computes what
`request` computes (`request_eq_exchange`) and records the rest.

How the reads of a transport end is said without the loop (`Reads`); the
theorem `exchange_spec` lists the ends of a request, one case for each.
-/

namespace ChaosForger

open Libc

/-- A call on the transport. -/
inductive TransportCall where
  | connect
  | sendAll (wire : List UInt8)
  | readSome
  | close
  deriving DecidableEq, Repr

/-- What a request has done: the calls on its transport, and what the caller's
response object and error text hold. -/
structure Session where
  calls : List TransportCall := []
  out : HttpResponse := {}
  err : List UInt8 := []
  deriving DecidableEq, Repr

namespace Session

def call (s : Session) (c : TransportCall) : Session := { s with calls := s.calls ++ [c] }

def report (s : Session) (err : List UInt8) : Session := { s with err }

@[simp] theorem call_calls (s : Session) (c : TransportCall) :
    (s.call c).calls = s.calls ++ [c] := rfl

@[simp] theorem call_out (s : Session) (c : TransportCall) : (s.call c).out = s.out := rfl

/-- `k` reads in a row. -/
def reads (s : Session) (k : Nat) : Session :=
  { s with calls := s.calls ++ List.replicate k .readSome }

theorem reads_zero (s : Session) : s.reads 0 = s := by
  simp only [reads, List.replicate_zero, List.append_nil]

theorem reads_call (s : Session) (k : Nat) : (s.call .readSome).reads k = s.reads (k + 1) := by
  simp only [reads, call, List.append_assoc, List.replicate_succ, List.singleton_append]

@[simp] theorem report_calls (s : Session) (err : List UInt8) : (s.report err).calls = s.calls := rfl

@[simp] theorem report_out (s : Session) (err : List UInt8) : (s.report err).out = s.out := rfl

end Session

namespace HttpClient

open HttpResponseParser

/-- One round of the receive loop, before read `n`.  The loop is left with the
parser, or the request returns false without one. -/
def exchangePass (t : Transport) : Session × HttpResponseParser × Nat →
    Pass (Session × HttpResponseParser × Nat) (Session × Option HttpResponseParser)
  | (s, parser, n) =>
      if parser.done then .exit (s, some parser)
      else
        let s := s.call .readSome
        match t.readSome n with
        | .failed err => .exit ((s.call .close).report (lit "receive failed: " ++ err), none)
        | .eof =>
            match parser.feed none with
            | (parser, true) => .exit (s, some parser)
            | (parser, false) =>
                .exit ((s.call .close).report (lit "malformed response: " ++ parser.error), none)
        | .data bytes =>
            match parser.feed (some bytes) with
            | (parser, true) => .again (s, parser, n + 1)
            | (parser, false) =>
                .exit ((s.call .close).report (lit "malformed response: " ++ parser.error), none)

/-- The receive loop and what follows it, `none` when the fuel runs out. -/
def exchangeReads (t : Transport) (s : Session) (fuel : Nat) : Option (Session × Bool) :=
  (Loop.iterate (exchangePass t) fuel (s, parser, 0)).map fun
    | (s, none) => (s, false)
    | (s, some parser) =>
        let s := s.call .close
        if ¬ parser.done then (s.report (lit "response ended unexpectedly"), false)
        else ({ s with out := parser.resp }, true)

/-- One request and its response on a fresh connection. -/
def exchange (t : Transport) (method pathWithQuery body : List UInt8) (s : Session) (fuel : Nat) :
    Option (Session × Bool) :=
  let s := s.call .connect
  match t.connect with
  | .error err => some (s.report (lit "connect to " ++ t.describe ++ lit " failed: " ++ err), false)
  | .ok _ =>
      let wire := buildHttpRequest method pathWithQuery body
      let s := s.call (.sendAll wire)
      match t.sendAll wire with
      | .error err => some ((s.call .close).report (lit "send failed: " ++ err), false)
      | .ok _ => exchangeReads t s fuel

/-! ## The same request -/

/-- What `request` returns at this end of the session. -/
def outcome : Session × Bool → Except (List UInt8) HttpResponse
  | (s, true) => .ok s.out
  | (s, false) => .error s.err

/-- The two loops take the same rounds. -/
theorem iterate_receivePass (t : Transport) (fuel : Nat) (s : Session) (p : HttpResponseParser)
    (n : Nat) :
    Loop.iterate (receivePass t) fuel (p, n) =
      (Loop.iterate (exchangePass t) fuel (s, p, n)).map fun
        | (s, none) => .error s.err
        | (_, some parser) => .ok parser := by
  induction fuel generalizing s p n with
  | zero => rfl
  | succ fuel ih =>
      rw [Loop.iterate, Loop.iterate, receivePass, exchangePass]
      by_cases hd : p.done = true
      · rw [if_pos hd, if_pos hd]
        rfl
      · rw [if_neg hd, if_neg hd]
        cases t.readSome n with
        | failed err => rfl
        | eof =>
            obtain ⟨q, ok⟩ := p.feed none
            cases ok <;> rfl
        | data bytes =>
            dsimp only
            obtain ⟨q, ok⟩ := p.feed (some bytes)
            cases ok
            · rfl
            · exact ih (s.call .readSome) q (n + 1)

/-- **`exchange` returns what `request` returns.** -/
theorem request_eq_exchange (t : Transport) (method path body : List UInt8) (s : Session)
    (fuel : Nat) :
    request t method path body fuel = (exchange t method path body s fuel).map outcome := by
  rw [request, exchange]
  cases t.connect with
  | error err => rfl
  | ok u =>
      cases hsend : t.sendAll (buildHttpRequest method path body) with
      | error err => simp only [hsend]; rfl
      | ok u =>
          simp only [hsend]
          rw [receive, iterate_receivePass t fuel
            ((s.call .connect).call (.sendAll (buildHttpRequest method path body))),
            exchangeReads, Option.map_map, Option.map_map]
          refine congrArg (fun f => Option.map f _) (funext fun r => ?_)
          obtain ⟨s', q⟩ := r
          cases q with
          | none => rfl
          | some q =>
              dsimp only [Function.comp]
              by_cases hd : q.done = true <;> simp [hd, outcome, Session.report]

/-! ## How the reads end -/

/-- The parser takes the first `n` reads, and needs all of them. -/
def Takes (t : Transport) (n : Nat) : Prop :=
  ∀ i < n, (parserAfter t i).state ≠ .done ∧
    ∃ bytes, t.readSome i = .data bytes ∧ ((parserAfter t i).feed (some bytes)).2 = true

/-- The reads of a transport: how many the request makes, and the response
when there is a complete one. -/
inductive Reads (t : Transport) : Nat → Option HttpResponse → Prop
  | done {n : Nat} : Takes t n → (parserAfter t n).state = .done →
      Reads t n (some (parserAfter t n).resp)
  | eof {n : Nat} : Takes t n → (parserAfter t n).state ≠ .done → t.readSome n = .eof →
      ((parserAfter t n).feed none).2 = true →
      Reads t (n + 1) (some ((parserAfter t n).feed none).1.resp)
  | failed {n : Nat} {err : List UInt8} : Takes t n → (parserAfter t n).state ≠ .done →
      t.readSome n = .failed err → Reads t (n + 1) none
  | cutOff {n : Nat} : Takes t n → (parserAfter t n).state ≠ .done → t.readSome n = .eof →
      ((parserAfter t n).feed none).2 = false → Reads t (n + 1) none
  | malformed {n : Nat} {bytes : List UInt8} : Takes t n → (parserAfter t n).state ≠ .done →
      t.readSome n = .data bytes → ((parserAfter t n).feed (some bytes)).2 = false →
      Reads t (n + 1) none

/-- A complete response arrives within the first `n` reads, and not before. -/
def Completes (t : Transport) (n : Nat) (resp : HttpResponse) : Prop := Reads t n (some resp)

theorem takes_zero (t : Transport) : Takes t 0 := fun _ hi => absurd hi (Nat.not_lt_zero _)

theorem Takes.le {t : Transport} {m n : Nat} (h : Takes t n) (hmn : m ≤ n) : Takes t m :=
  fun i hi => h i (Nat.lt_of_lt_of_le hi hmn)

theorem Takes.succ {t : Transport} {n : Nat} {bytes : List UInt8} (h : Takes t n)
    (hd : (parserAfter t n).state ≠ .done) (hread : t.readSome n = .data bytes)
    (hok : ((parserAfter t n).feed (some bytes)).2 = true) : Takes t (n + 1) := by
  intro i hi
  obtain hi | rfl := Nat.lt_succ_iff_lt_or_eq.mp hi
  · exact h i hi
  · exact ⟨hd, bytes, hread, hok⟩

/-- An accepted EOF completes the response. -/
theorem feed_none_state {p : HttpResponseParser} (h : (p.feed none).2 = true) :
    (p.feed none).1.state = .done := by
  unfold feed at h ⊢
  split at h
  · next hd => rwa [if_pos hd]
  · next hd =>
      rw [if_neg hd]
      split at h
      · contradiction
      · next he =>
          rw [if_neg he]
          dsimp only at h ⊢
          split at h
          · next hb => rw [if_pos hb]
          · simp at h

/-- How the reads end at read `n`, which the parser does not simply take. -/
def ending (t : Transport) (n : Nat) : Nat × Option HttpResponse :=
  if (parserAfter t n).state = .done then (n, some (parserAfter t n).resp)
  else if t.readSome n = .eof ∧ ((parserAfter t n).feed none).2 = true then
    (n + 1, some ((parserAfter t n).feed none).1.resp)
  else (n + 1, none)

theorem not_takes_of_no_data {t : Transport} {n : Nat}
    (h : ∀ bytes, t.readSome n = .data bytes →
      ((parserAfter t n).feed (some bytes)).2 = false) : ¬ Takes t (n + 1) := by
  intro htakes
  obtain ⟨-, bytes, hread, hok⟩ := htakes n (Nat.lt_succ_self n)
  rw [h bytes hread] at hok
  contradiction

theorem Reads.ending {t : Transport} {n : Nat} {r : Option HttpResponse} (h : Reads t n r) :
    ∃ i, Takes t i ∧ ¬ Takes t (i + 1) ∧ HttpClient.ending t i = (n, r) := by
  cases h with
  | @done n h hd =>
      refine ⟨n, h, fun hn => (hn n (Nat.lt_succ_self n)).1 hd, ?_⟩
      rw [HttpClient.ending, if_pos hd]
  | @eof n h hd hread hok =>
      refine ⟨n, h, not_takes_of_no_data (by simp [hread]), ?_⟩
      rw [HttpClient.ending, if_neg hd, if_pos ⟨hread, hok⟩]
  | @failed n err h hd hread =>
      refine ⟨n, h, not_takes_of_no_data (by simp [hread]), ?_⟩
      rw [HttpClient.ending, if_neg hd, if_neg (by simp [hread])]
  | @cutOff n h hd hread hok =>
      refine ⟨n, h, not_takes_of_no_data (by simp [hread]), ?_⟩
      rw [HttpClient.ending, if_neg hd, if_neg (by simp [hok])]
  | @malformed n bytes h hd hread hok =>
      refine ⟨n, h, not_takes_of_no_data (by simpa [hread] using hok), ?_⟩
      rw [HttpClient.ending, if_neg hd, if_neg (by simp [hread])]

/-- The number of reads and the response are determined. -/
theorem Reads.unique {t : Transport} {m n : Nat} {r r' : Option HttpResponse} (h : Reads t m r)
    (h' : Reads t n r') : m = n ∧ r = r' := by
  obtain ⟨i, hi, hstop, heq⟩ := h.ending
  obtain ⟨j, hj, hstop', heq'⟩ := h'.ending
  have hij : i = j := by
    obtain hlt | heq | hgt := Nat.lt_trichotomy i j
    · exact absurd (hj.le hlt) hstop
    · exact heq
    · exact absurd (hi.le hgt) hstop'
  subst hij
  exact Prod.mk.inj (heq.symm.trans heq')

/-! ## The receive loop -/

section Rounds

variable {t : Transport} {s : Session} {m : Nat}

/-- **A round of the loop** goes on with the next read, or it ends the reads. -/
theorem exchangePass_spec (h : Takes t m) :
    (Takes t (m + 1) ∧ exchangePass t (s, parserAfter t m, m) =
      .again (s.call .readSome, parserAfter t (m + 1), m + 1)) ∨
    (∃ k q, Reads t (m + k) (some q.resp) ∧ q.state = .done ∧
      exchangePass t (s, parserAfter t m, m) = .exit (s.reads k, some q)) ∨
    ∃ err, Reads t (m + 1) none ∧ exchangePass t (s, parserAfter t m, m) =
      .exit (((s.call .readSome).call .close).report err, none) := by
  by_cases hd : (parserAfter t m).state = .done
  · refine .inr (.inl ⟨0, parserAfter t m, .done h hd, hd, ?_⟩)
    rw [exchangePass, if_pos (by simp [HttpResponseParser.done, hd]), Session.reads_zero]
  · have hlive : ¬ (parserAfter t m).done = true := by simp [HttpResponseParser.done, hd]
    rw [exchangePass, if_neg hlive]
    cases hread : t.readSome m with
    | failed err => exact .inr (.inr ⟨_, .failed h hd hread, rfl⟩)
    | eof =>
        dsimp only
        split
        · next q hq =>
            have hok : ((parserAfter t m).feed none).2 = true := by rw [hq]
            have hdone := feed_none_state hok
            have hreads := Reads.eof h hd hread hok
            rw [hq] at hdone hreads
            refine .inr (.inl ⟨1, q, hreads, hdone, ?_⟩)
            rw [← Session.reads_call, Session.reads_zero]
        · next q hq => exact .inr (.inr ⟨_, .cutOff h hd hread (by rw [hq]), rfl⟩)
    | data bytes =>
        dsimp only
        split
        · next q hq =>
            have hnext := parserAfter_succ hread
            rw [hq] at hnext
            exact .inl ⟨h.succ hd hread (by rw [hq]), by rw [hnext]⟩
        · next q hq => exact .inr (.inr ⟨_, .malformed h hd hread (by rw [hq]), rfl⟩)

/-- What the loop has done when it is left. -/
theorem exchangePass_run {fuel : Nat} {r : Session × Option HttpResponseParser} (h : Takes t m)
    (hr : Loop.iterate (exchangePass t) fuel (s, parserAfter t m, m) = some r) :
    ∃ k, (∃ q, Reads t (m + k) (some q.resp) ∧ q.state = .done ∧ r = (s.reads k, some q)) ∨
      ∃ err, Reads t (m + k) none ∧ r = (((s.reads k).call .close).report err, none) := by
  induction fuel generalizing s m with
  | zero => contradiction
  | succ fuel ih =>
      rw [Loop.iterate] at hr
      obtain ⟨hm, hpass⟩ | ⟨k, q, hreads, hd, hpass⟩ | ⟨err, hreads, hpass⟩ :=
        exchangePass_spec (s := s) h
      · rw [hpass] at hr
        obtain ⟨k, hk⟩ := ih hm hr
        rw [Session.reads_call, Nat.add_right_comm, Nat.add_assoc] at hk
        exact ⟨k + 1, hk⟩
      · rw [hpass, Option.some.injEq] at hr
        exact ⟨k, .inl ⟨q, hreads, hd, hr.symm⟩⟩
      · rw [hpass, Option.some.injEq] at hr
        refine ⟨1, .inr ⟨err, hreads, ?_⟩⟩
        rw [← hr, ← Session.reads_call, Session.reads_zero]

/-- Reads that end are ended by the loop. -/
theorem isSome_exchangePass {k : Nat} (h : Takes t (m + k)) (hend : ¬ Takes t (m + k + 1)) :
    (Loop.iterate (exchangePass t) (k + 1) (s, parserAfter t m, m)).isSome := by
  induction k generalizing s m with
  | zero =>
      rw [Nat.add_zero] at h hend
      rw [Loop.iterate]
      obtain ⟨hm, -⟩ | ⟨k, q, -, -, hpass⟩ | ⟨err, -, hpass⟩ := exchangePass_spec (s := s) h
      · exact absurd hm hend
      · rw [hpass]
        rfl
      · rw [hpass]
        rfl
  | succ k ih =>
      rw [Loop.iterate]
      obtain ⟨hm, hpass⟩ | ⟨k, q, -, -, hpass⟩ | ⟨err, -, hpass⟩ :=
        exchangePass_spec (s := s) (h.le (Nat.le_add_right m _))
      · rw [hpass]
        have hnext : m + (k + 1) = m + 1 + k := by omega
        rw [hnext] at h hend
        exact ih h hend
      · rw [hpass]
        rfl
      · rw [hpass]
        rfl

end Rounds

/-! ## The request -/

section Request

variable {t : Transport} {method path body : List UInt8} {s s' : Session} {fuel : Nat} {ok : Bool}

/-- The request goes out: connect and send succeed. -/
def Sends (t : Transport) (wire : List UInt8) : Prop :=
  t.connect = .ok () ∧ t.sendAll wire = .ok ()

/-- What follows the send: the reads, one `close`, and the response when it is
complete. -/
theorem exchangeReads_spec (h : exchangeReads t s fuel = some (s', ok)) :
    ∃ n res, Reads t n res ∧ s'.calls = s.calls ++ List.replicate n .readSome ++ [.close] ∧
      ok = res.isSome ∧ s'.out = res.getD s.out := by
  unfold exchangeReads at h
  rw [Option.map_eq_some_iff] at h
  obtain ⟨r, hr, hmap⟩ := h
  obtain ⟨k, ⟨q, hreads, hd, rfl⟩ | ⟨err, hreads, rfl⟩⟩ := exchangePass_run (takes_zero t) hr
  · have hdone : q.done = true := by simp [HttpResponseParser.done, hd]
    simp only [hdone, not_true, if_false, Prod.mk.injEq] at hmap
    obtain ⟨rfl, rfl⟩ := hmap
    exact ⟨0 + k, _, hreads, by rw [Nat.zero_add]; rfl, rfl, rfl⟩
  · rw [Prod.mk.injEq] at hmap
    obtain ⟨rfl, rfl⟩ := hmap
    exact ⟨0 + k, _, hreads, by rw [Nat.zero_add]; rfl, rfl, rfl⟩

theorem isSome_exchangeReads {n : Nat} {res : Option HttpResponse} (h : Reads t n res)
    (s : Session) : ∃ fuel, (exchangeReads t s fuel).isSome := by
  obtain ⟨i, hi, hstop, -⟩ := h.ending
  rw [← Nat.zero_add i] at hi hstop
  refine ⟨i + 1, ?_⟩
  rw [exchangeReads, Option.isSome_map]
  exact isSome_exchangePass hi hstop

/-- **The ends of a request.**  It fails to connect; it fails to send and
closes; or it reads, closes and returns the response when there is one. -/
theorem exchange_spec (h : exchange t method path body s fuel = some (s', ok)) :
    (t.connect ≠ .ok () ∧ ok = false ∧ s'.out = s.out ∧ s'.calls = s.calls ++ [.connect]) ∨
    (t.connect = .ok () ∧ t.sendAll (buildHttpRequest method path body) ≠ .ok () ∧ ok = false ∧
      s'.out = s.out ∧ s'.calls = s.calls ++
        [.connect, .sendAll (buildHttpRequest method path body), .close]) ∨
    (Sends t (buildHttpRequest method path body) ∧ ∃ n res, Reads t n res ∧
      s'.calls = s.calls ++ ([.connect, .sendAll (buildHttpRequest method path body)] ++
        List.replicate n .readSome ++ [.close]) ∧
      ok = res.isSome ∧ s'.out = res.getD s.out) := by
  unfold exchange at h
  cases hc : t.connect with
  | error err =>
      simp only [hc, Option.some.injEq, Prod.mk.injEq] at h
      obtain ⟨rfl, rfl⟩ := h
      exact .inl ⟨by simp, rfl, rfl, rfl⟩
  | ok u =>
      simp only [hc] at h
      cases hsend : t.sendAll (buildHttpRequest method path body) with
      | error err =>
          simp only [hsend, Option.some.injEq, Prod.mk.injEq] at h
          obtain ⟨rfl, rfl⟩ := h
          refine .inr (.inl ⟨rfl, by simp, rfl, rfl, ?_⟩)
          simp only [Session.report_calls, Session.call_calls, List.append_assoc,
            List.cons_append, List.nil_append]
      | ok u =>
          simp only [hsend] at h
          obtain ⟨n, res, hreads, hcalls, hok, hout⟩ := exchangeReads_spec h
          refine .inr (.inr ⟨⟨hc, hsend⟩, n, res, hreads, ?_, hok, hout⟩)
          rw [hcalls]
          simp only [Session.call_calls, List.append_assoc, List.cons_append, List.nil_append]

/-- A request whose reads end returns. -/
theorem isSome_exchange {n : Nat} {res : Option HttpResponse}
    (hs : Sends t (buildHttpRequest method path body)) (h : Reads t n res) (s : Session) :
    ∃ fuel, (exchange t method path body s fuel).isSome := by
  obtain ⟨fuel, hfuel⟩ := isSome_exchangeReads h
    ((s.call .connect).call (.sendAll (buildHttpRequest method path body)))
  refine ⟨fuel, ?_⟩
  simp only [exchange, hs.1, hs.2]
  exact hfuel

/-- **A request succeeds exactly when it goes out and is answered.** -/
theorem exchange_ok_iff :
    (∃ fuel s', exchange t method path body s fuel = some (s', true)) ↔
      Sends t (buildHttpRequest method path body) ∧ ∃ n resp, Completes t n resp := by
  constructor
  · rintro ⟨fuel, s', h⟩
    obtain ⟨-, hok, -⟩ | ⟨-, -, hok, -⟩ | ⟨hs, n, res, hreads, -, hok, -⟩ := exchange_spec h
    · contradiction
    · contradiction
    · obtain ⟨resp, rfl⟩ := Option.isSome_iff_exists.mp hok.symm
      exact ⟨hs, n, resp, hreads⟩
  · rintro ⟨hs, n, resp, hreads⟩
    obtain ⟨fuel, hfuel⟩ := isSome_exchange hs hreads s
    obtain ⟨⟨s', ok⟩, h⟩ := Option.isSome_iff_exists.mp hfuel
    obtain ⟨hc, -⟩ | ⟨-, hsend, -⟩ | ⟨-, n', res, hreads', -, hok, -⟩ := exchange_spec h
    · exact absurd hs.1 hc
    · exact absurd hs.2 hsend
    · obtain ⟨-, rfl⟩ := hreads.unique hreads'
      exact ⟨fuel, s', by rw [h, hok]; rfl⟩

end Request

end HttpClient

end ChaosForger
