import ChaosForger.Http.Exchange
import ChaosForger.Http.UnixSocket

/-!
# ChaosForger.Http.Live

`HttpClient::request` on an implementation of the transport interface, whose
calls change a state of its own.

The implementation can be replaced by a script of what its calls return: the
request ends the same way and makes the same calls (`requestOn_exchange`).  So
what is known of requests over scripts holds over any implementation, and over
UNIX sockets in particular.
-/

namespace ChaosForger

open Libc

/-- The virtual functions of `Transport`, over the state of an implementation.
A call that loops may not return. -/
structure TransportImpl (σ : Type u) where
  describe : σ → List UInt8
  connect : σ → Except (List UInt8) Unit × σ
  sendAll : List UInt8 → σ → Option (Except (List UInt8) Unit × σ)
  readSome : σ → Option (Read × σ)
  close : σ → σ

namespace HttpClient

variable {σ : Type u}

/-- One round of the receive loop. -/
def requestPass (I : TransportImpl σ) : σ × HttpResponseParser →
    Pass (σ × HttpResponseParser) (Option (Except (List UInt8) HttpResponseParser × σ))
  | (s, parser) =>
      if parser.done then .exit (some (.ok parser, s))
      else
        match I.readSome s with
        | none => .exit none
        | some (.failed err, s) => .exit (some (.error (lit "receive failed: " ++ err), I.close s))
        | some (.eof, s) =>
            match parser.feed none with
            | (parser, true) => .exit (some (.ok parser, s))
            | (parser, false) =>
                .exit (some (.error (lit "malformed response: " ++ parser.error), I.close s))
        | some (.data bytes, s) =>
            match parser.feed (some bytes) with
            | (parser, true) => .again (s, parser)
            | (parser, false) =>
                .exit (some (.error (lit "malformed response: " ++ parser.error), I.close s))

/-- The receive loop and what follows it. -/
def receiveOn (I : TransportImpl σ) (fuel : Nat) (s : σ) :
    Option (Except (List UInt8) HttpResponse × σ) :=
  match Loop.iterate (requestPass I) fuel (s, parser) with
  | none | some none => none
  | some (some (.error err, s)) => some (.error err, s)
  | some (some (.ok parser, s)) =>
      let s := I.close s
      if ¬ parser.done then some (.error (lit "response ended unexpectedly"), s)
      else some (.ok parser.resp, s)

/-- One request and its response on a fresh connection; `none` when a call
does not return, or the fuel runs out. -/
def requestOn (I : TransportImpl σ) (method pathWithQuery body : List UInt8) (fuel : Nat) (s : σ) :
    Option (Except (List UInt8) HttpResponse × σ) :=
  match I.connect s with
  | (.error err, s) =>
      some (.error (lit "connect to " ++ I.describe s ++ lit " failed: " ++ err), s)
  | (.ok _, s) =>
      match I.sendAll (buildHttpRequest method pathWithQuery body) s with
      | none => none
      | some (.error err, s) => some (.error (lit "send failed: " ++ err), I.close s)
      | some (.ok _, s) => receiveOn I fuel s

end HttpClient

/-! ## The script of an implementation -/

namespace TransportImpl

variable {σ : Type u} (I : TransportImpl σ)

/-- The state before read `n`. -/
def stateAt (s : σ) : Nat → Option σ
  | 0 => some s
  | n + 1 => (stateAt s n).bind fun s => (I.readSome s).map Prod.snd

/-- What the calls of a request for `wire` return, from a state on. -/
def script (wire : List UInt8) (s : σ) : Transport where
  describe := I.describe (I.connect s).2
  connect := (I.connect s).1
  sendAll bytes := ((I.sendAll bytes (I.connect s).2).map Prod.fst).getD (.error [])
  readSome n :=
    ((((I.sendAll wire (I.connect s).2).bind fun r => I.stateAt r.2 n).bind I.readSome).map
      Prod.fst).getD (.failed [])

/-- The state after a call. -/
def call (s : σ) : TransportCall → Option σ
  | .connect => some (I.connect s).2
  | .sendAll wire => (I.sendAll wire s).map Prod.snd
  | .readSome => (I.readSome s).map Prod.snd
  | .close => some (I.close s)

/-- The state after some calls, when they all return. -/
def replay (calls : List TransportCall) (s : σ) : Option σ := calls.foldlM I.call s

@[simp] theorem replay_nil (s : σ) : I.replay [] s = some s := rfl

theorem replay_cons (c : TransportCall) (calls : List TransportCall) (s : σ) :
    I.replay (c :: calls) s = (I.call s c).bind (I.replay calls) := rfl

theorem replay_append (calls calls' : List TransportCall) (s : σ) :
    I.replay (calls ++ calls') s = (I.replay calls s).bind (I.replay calls') :=
  List.foldlM_append

end TransportImpl

namespace HttpClient

section Replaced

variable {σ : Type u} {I : TransportImpl σ} {t : Transport} {s s' sent : σ}

/-- **The two loops take the same rounds**, on the implementation and on a
script of its reads. -/
theorem iterate_requestPass
    (hread : ∀ n s r, I.stateAt sent n = some s → I.readSome s = some r → t.readSome n = r.1)
    {fuel n : Nat} {p : HttpResponseParser} {r : Except (List UInt8) HttpResponseParser}
    (ses : Session) (hat : I.stateAt sent n = some s)
    (h : Loop.iterate (requestPass I) fuel (s, p) = some (some (r, s'))) :
    ∃ ses' q calls, Loop.iterate (exchangePass t) fuel (ses, p, n) = some (ses', q) ∧
      r = (match q with | none => .error ses'.err | some q => .ok q) ∧
      ses'.calls = ses.calls ++ calls ∧ I.replay calls s = some s' := by
  induction fuel generalizing s n p ses with
  | zero => contradiction
  | succ fuel ih =>
      rw [Loop.iterate, requestPass] at h
      rw [Loop.iterate, exchangePass]
      by_cases hd : p.done = true
      · rw [if_pos hd] at h ⊢
        simp only [Option.some.injEq, Prod.mk.injEq] at h
        obtain ⟨rfl, rfl⟩ := h
        exact ⟨_, _, [], rfl, rfl, by simp, rfl⟩
      · rw [if_neg hd] at h ⊢
        cases hr : I.readSome s with
        | none =>
            rw [hr] at h
            simp at h
        | some read =>
            rw [hread n s read hat hr]
            obtain ⟨read, s₁⟩ := read
            have hnext : I.stateAt sent (n + 1) = some s₁ := by
              rw [TransportImpl.stateAt, hat, Option.bind_some, hr]
              rfl
            have hcall : I.replay [.readSome] s = some s₁ := by
              rw [TransportImpl.replay_cons, TransportImpl.call, hr]
              rfl
            have hclose : I.replay [.readSome, .close] s = some (I.close s₁) := by
              rw [TransportImpl.replay_cons, TransportImpl.call, hr]
              rfl
            rw [hr] at h
            cases read with
            | failed err =>
                simp only [Option.some.injEq, Prod.mk.injEq] at h
                obtain ⟨rfl, rfl⟩ := h
                exact ⟨_, _, _, rfl, rfl, by simp [Session.call, Session.report], hclose⟩
            | eof =>
                dsimp only at h ⊢
                generalize p.feed none = fed at h ⊢
                obtain ⟨q, ok⟩ := fed
                cases ok with
                | true =>
                    simp only [Option.some.injEq, Prod.mk.injEq] at h
                    obtain ⟨rfl, rfl⟩ := h
                    exact ⟨_, _, _, rfl, rfl, rfl, hcall⟩
                | false =>
                    simp only [Option.some.injEq, Prod.mk.injEq] at h
                    obtain ⟨rfl, rfl⟩ := h
                    exact ⟨_, _, _, rfl, rfl, by simp [Session.call, Session.report], hclose⟩
            | data bytes =>
                dsimp only at h ⊢
                generalize p.feed (some bytes) = fed at h ⊢
                obtain ⟨q, ok⟩ := fed
                cases ok with
                | true =>
                    obtain ⟨ses', q', calls, hiter, hres, hcalls, hreplay⟩ :=
                      ih (ses.call .readSome) hnext h
                    refine ⟨ses', q', .readSome :: calls, hiter, hres, ?_, ?_⟩
                    · rw [hcalls, Session.call_calls, List.append_assoc, List.singleton_append]
                    · rw [TransportImpl.replay_cons, TransportImpl.call, hr]
                      exact hreplay
                | false =>
                    simp only [Option.some.injEq, Prod.mk.injEq] at h
                    obtain ⟨rfl, rfl⟩ := h
                    exact ⟨_, _, _, rfl, rfl, by simp [Session.call, Session.report], hclose⟩

/-- What follows the send, on the implementation and on the script. -/
theorem receiveOn_exchangeReads
    (hread : ∀ n s r, I.stateAt sent n = some s → I.readSome s = some r → t.readSome n = r.1)
    {fuel : Nat} {r : Except (List UInt8) HttpResponse} (ses : Session)
    (h : receiveOn I fuel sent = some (r, s')) :
    ∃ ses' ok calls, exchangeReads t ses fuel = some (ses', ok) ∧ r = outcome (ses', ok) ∧
      ses'.calls = ses.calls ++ calls ∧ I.replay calls sent = some s' := by
  rw [receiveOn] at h
  cases hiter : Loop.iterate (requestPass I) fuel (sent, parser) with
  | none => simp [hiter] at h
  | some received =>
      cases received with
      | none => simp [hiter] at h
      | some received =>
          obtain ⟨received, s₁⟩ := received
          obtain ⟨ses', q, calls, hex, hres, hcalls, hreplay⟩ :=
            iterate_requestPass hread ses (show I.stateAt sent 0 = some sent from rfl) hiter
          rw [hiter] at h
          rw [exchangeReads, hex]
          cases q with
          | none =>
              obtain rfl := hres
              simp only [Option.some.injEq, Prod.mk.injEq] at h
              obtain ⟨rfl, rfl⟩ := h
              exact ⟨_, _, calls, rfl, rfl, hcalls, hreplay⟩
          | some q =>
              obtain rfl := hres
              have hclosed : I.replay (calls ++ [.close]) sent = some (I.close s₁) := by
                rw [TransportImpl.replay_append, hreplay]
                rfl
              have hcalls' : (ses'.call .close).calls = ses.calls ++ (calls ++ [.close]) := by
                rw [Session.call_calls, hcalls, List.append_assoc]
              dsimp only at h
              rw [Option.map_some]
              dsimp only
              by_cases hd : ¬ q.done = true
              · rw [if_pos hd] at h ⊢
                simp only [Option.some.injEq, Prod.mk.injEq] at h
                obtain ⟨rfl, rfl⟩ := h
                exact ⟨_, _, _, rfl, rfl, hcalls', hclosed⟩
              · rw [if_neg hd] at h ⊢
                simp only [Option.some.injEq, Prod.mk.injEq] at h
                obtain ⟨rfl, rfl⟩ := h
                exact ⟨_, _, _, rfl, rfl, hcalls', hclosed⟩

end Replaced

section Request

variable {σ : Type u} {I : TransportImpl σ} {method path body : List UInt8} {s s' : σ} {fuel : Nat}
  {r : Except (List UInt8) HttpResponse}

/-- **A request on an implementation is a request over its script**: it ends
the same way, and has made the same calls. -/
theorem requestOn_exchange (h : requestOn I method path body fuel s = some (r, s')) :
    ∃ ses ok, exchange (I.script (buildHttpRequest method path body) s) method path body {} fuel =
        some (ses, ok) ∧ r = outcome (ses, ok) ∧ I.replay ses.calls s = some s' := by
  rw [requestOn] at h
  rw [exchange]
  rcases hc : I.connect s with ⟨connected, s₁⟩
  have hconnect : (I.script (buildHttpRequest method path body) s).connect = connected := by
    rw [TransportImpl.script, hc]
  rw [hc] at h
  rw [hconnect]
  cases connected with
  | error err =>
      simp only [Option.some.injEq, Prod.mk.injEq] at h
      obtain ⟨rfl, rfl⟩ := h
      refine ⟨_, _, rfl, ?_, ?_⟩
      · rw [TransportImpl.script, hc]
        rfl
      · exact congrArg (fun r => some r.2) hc
  | ok _ =>
      dsimp only at h ⊢
      cases hs : I.sendAll (buildHttpRequest method path body) s₁ with
      | none => simp [hs] at h
      | some sent =>
          obtain ⟨sent, s₂⟩ := sent
          have hsend : (I.script (buildHttpRequest method path body) s).sendAll
              (buildHttpRequest method path body) = sent := by
            simp only [TransportImpl.script, hc, hs]
            rfl
          have hsent : I.replay [.connect, .sendAll (buildHttpRequest method path body)] s =
              some s₂ := by
            simp only [TransportImpl.replay_cons, TransportImpl.call, hc, Option.bind_some, hs]
            rfl
          rw [hs] at h
          rw [hsend]
          cases sent with
          | error err =>
              simp only [Option.some.injEq, Prod.mk.injEq] at h
              obtain ⟨rfl, rfl⟩ := h
              refine ⟨_, _, rfl, rfl, ?_⟩
              have hclosed := TransportImpl.replay_append I
                [.connect, .sendAll (buildHttpRequest method path body)] [.close] s
              rw [hsent] at hclosed
              exact hclosed
          | ok _ =>
              dsimp only at h ⊢
              have hread : ∀ n s₃ r, I.stateAt s₂ n = some s₃ → I.readSome s₃ = some r →
                  (I.script (buildHttpRequest method path body) s).readSome n = r.1 := by
                intro n s₃ r hat hr
                simp only [TransportImpl.script, hc, hs, Option.bind_some, hat, hr]
                rfl
              obtain ⟨ses, ok, calls, hex, hres, hcalls, hreplay⟩ :=
                receiveOn_exchangeReads hread (({} : Session).call .connect |>.call
                  (.sendAll (buildHttpRequest method path body))) h
              refine ⟨ses, ok, hex, hres, ?_⟩
              have hall := TransportImpl.replay_append I
                [.connect, .sendAll (buildHttpRequest method path body)] calls s
              rw [hsent, Option.bind_some, hreplay] at hall
              rw [hcalls]
              exact hall

/-- The course of a request for `wire`: where it ends, and the states of the
implementation on the way. -/
inductive Course (I : TransportImpl σ) (wire : List UInt8) (s : σ) :
    Except (List UInt8) HttpResponse → σ → Prop
  | refused {err err' s₁} : I.connect s = (.error err, s₁) → Course I wire s (.error err') s₁
  | unsent {err err' s₁ s₂} : I.connect s = (.ok (), s₁) →
      I.sendAll wire s₁ = some (.error err, s₂) → Course I wire s (.error err') (I.close s₂)
  | read {res s₁ s₂ s₃ n r} : I.connect s = (.ok (), s₁) → I.sendAll wire s₁ = some (.ok (), s₂) →
      I.stateAt s₂ n = some s₃ → Reads (I.script wire s) n res → r.toOption = res →
      Course I wire s r (I.close s₃)

theorem replay_reads (I : TransportImpl σ) (s : σ) (n : Nat) :
    I.replay (List.replicate n .readSome) s = I.stateAt s n := by
  induction n with
  | zero => rfl
  | succ n ih =>
      rw [List.replicate_succ', TransportImpl.replay_append, ih, TransportImpl.stateAt]
      refine congrArg (Option.bind (I.stateAt s n)) (funext fun s₁ => ?_)
      rw [TransportImpl.replay_cons, TransportImpl.call]
      cases I.readSome s₁ <;> rfl

/-- **Every request takes one of these courses.** -/
theorem course_requestOn (h : requestOn I method path body fuel s = some (r, s')) :
    Course I (buildHttpRequest method path body) s r s' := by
  obtain ⟨ses, ok, hex, rfl, hreplay⟩ := requestOn_exchange h
  rcases hc : I.connect s with ⟨connected, s₁⟩
  have hconnect : (I.script (buildHttpRequest method path body) s).connect = connected :=
    congrArg Prod.fst hc
  have hfirst (calls : List TransportCall) :
      I.replay (.connect :: calls) s = I.replay calls s₁ := by
    rw [TransportImpl.replay_cons, TransportImpl.call, hc]
    rfl
  obtain ⟨hno, rfl, -, hcalls⟩ | ⟨hyes, hsend, rfl, -, hcalls⟩ |
    ⟨⟨hyes, hsend⟩, n, res, hreads, hcalls, rfl, hout⟩ := exchange_spec hex
  · rw [hcalls, List.nil_append, hfirst] at hreplay
    obtain rfl := Option.some.inj hreplay
    cases connected with
    | error err => exact .refused hc
    | ok _ => exact absurd hconnect hno
  all_goals
    rw [hconnect] at hyes
    subst hyes
    rcases hs : I.sendAll (buildHttpRequest method path body) s₁ with _ | ⟨sent, s₂⟩
  · simp [hcalls, hfirst, TransportImpl.replay_cons, TransportImpl.call, hs] at hreplay
  · have hscript : (I.script (buildHttpRequest method path body) s).sendAll
        (buildHttpRequest method path body) = sent := by
      simp only [TransportImpl.script, hc, hs]
      rfl
    rw [hcalls, List.nil_append, hfirst, TransportImpl.replay_cons, TransportImpl.call, hs] at hreplay
    obtain rfl := Option.some.inj hreplay
    cases sent with
    | error err => exact .unsent hc hs
    | ok _ => exact absurd hscript hsend
  · simp [hcalls, hfirst, TransportImpl.replay_cons, TransportImpl.call, hs] at hreplay
  · have hscript : (I.script (buildHttpRequest method path body) s).sendAll
        (buildHttpRequest method path body) = sent := by
      simp only [TransportImpl.script, hc, hs]
      rfl
    rw [hscript] at hsend
    subst hsend
    rw [hcalls, List.nil_append, List.append_assoc, List.cons_append, hfirst, List.cons_append,
      TransportImpl.replay_cons, TransportImpl.call, hs, List.nil_append] at hreplay
    have hclose : (I.stateAt s₂ n).bind (fun s₃ => some (I.close s₃)) = some s' := by
      rw [← replay_reads]
      exact (TransportImpl.replay_append I _ [.close] s₂).symm.trans hreplay
    obtain ⟨s₃, hat, hs₃⟩ := Option.bind_eq_some_iff.mp hclose
    obtain rfl := Option.some.inj hs₃
    refine .read hc hs hat hreads ?_
    cases res with
    | none => rfl
    | some resp => exact congrArg some hout

end Request

end HttpClient

end ChaosForger
