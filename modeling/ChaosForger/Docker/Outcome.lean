import ChaosForger.Docker.Client
import ChaosForger.Engine

/-!
# ChaosForger.Docker.Outcome

How the end of an exchange reaches the engine, through the client, the Docker
client and its status pointer.  A request ends cleanly on every path
(`CleanEnd`), a call succeeds exactly when it is answered with a status of the
200s, and an exchange without an answer is an error of the engine's, never a
skipped strike (`exchange_outcome`).
-/

namespace ChaosForger

open Libc HttpClient

/-- What a request leaves behind: nothing in the caller's response unless it
succeeds, one `close` for a connection that was made, and no read after the
response is complete. -/
structure CleanEnd (t : Transport) (s s' : Session) (ok : Bool) : Prop where
  untouched : ok = false → s'.out = s.out
  answered : ok = true → ∃ n, Completes t n s'.out
  trail : ∃ calls, s'.calls = s.calls ++ calls ∧
    calls.count .close = (if t.connect = .ok () then 1 else 0) ∧
    ∀ n resp, Completes t n resp → calls.count .readSome ≤ n

/-- Every path out of a request is clean. -/
theorem cleanEnd_of_exchange {t : Transport} {method path body : List UInt8} {s s' : Session}
    {fuel : Nat} {ok : Bool} (h : exchange t method path body s fuel = some (s', ok)) :
    CleanEnd t s s' ok := by
  obtain ⟨hc, rfl, hout, hcalls⟩ | ⟨hc, -, rfl, hout, hcalls⟩ |
    ⟨⟨hc, -⟩, n, res, hreads, hcalls, rfl, hout⟩ := exchange_spec h
  · refine ⟨fun _ => hout, fun hok => absurd hok (by simp), _, hcalls, ?_, fun n resp _ => ?_⟩
    · rw [if_neg hc]
      rfl
    · exact Nat.zero_le n
  · refine ⟨fun _ => hout, fun hok => absurd hok (by simp), _, hcalls, ?_, fun n resp _ => ?_⟩
    · rw [if_pos hc]
      simp
    · simp
  · refine ⟨fun hok => ?_, fun hok => ?_, _, hcalls, ?_, fun k resp hresp => ?_⟩
    · rw [Option.isSome_eq_false_iff, Option.isNone_iff_eq_none] at hok
      rw [hout, hok, Option.getD_none]
    · obtain ⟨resp, rfl⟩ := Option.isSome_iff_exists.mp hok
      exact ⟨n, by rw [hout]; exact hreads⟩
    · rw [if_pos hc]
      simp [List.count_replicate]
    · obtain ⟨rfl, -⟩ := hresp.unique hreads
      simp

namespace DockerClient

/-- The call goes out and a complete response comes back. -/
def Answered (t : Transport) (call : StrikeCall) (resp : HttpResponse) : Prop :=
  Sends t (wire call) ∧ ∃ n, Completes t n resp

theorem Answered.unique {t : Transport} {call : StrikeCall} {resp resp' : HttpResponse}
    (h : Answered t call resp) (h' : Answered t call resp') : resp = resp' := by
  obtain ⟨-, n, hn⟩ := h
  obtain ⟨-, n', hn'⟩ := h'
  exact Option.some.inj (hn.unique hn').2

/-- What the engine sees of a reply. -/
def Reply.result (r : Reply) : StrikeResult :=
  { ok := r.ok
    httpStatus := r.httpStatus.getD 0
    sent := r.calls.any fun
      | .sendAll _ => true
      | _ => false }

section Calls

variable {t : Transport} {call : StrikeCall} {err : List UInt8} {httpStatus : Option Int}
  {fuel : Nat} {r : Reply}

/-- **The two ends of a call that passes the checks**: answered, or not. -/
theorem perform_spec (hv : Valid call) (h : perform t call err httpStatus fuel = some r) :
    (∃ resp, Answered t call resp ∧ r.ok = resp.ok ∧
      r.httpStatus = httpStatus.map fun _ => (resp.status : Int)) ∨
    (¬ ∃ resp, Answered t call resp) ∧ r.ok = false ∧ r.httpStatus = httpStatus.map fun _ => 0 := by
  obtain ⟨what, hwhat⟩ := perform_of_valid t err httpStatus fuel hv
  rw [hwhat] at h
  obtain ⟨s, ok, hs, -, hok, hstatus⟩ := postContainerAction_spec h
  obtain ⟨hc, rfl, -⟩ | ⟨-, hsend, rfl, -⟩ | ⟨hsends, n, res, hreads, -, rfl, hout⟩ :=
    exchange_spec hs
  · exact .inr ⟨fun ⟨_, hr, _⟩ => hc hr.1, hok, hstatus⟩
  · exact .inr ⟨fun ⟨_, hr, _⟩ => hsend hr.2, hok, hstatus⟩
  · cases res with
    | none =>
        refine .inr ⟨fun ⟨_, _, n', hn'⟩ => ?_, hok, hstatus⟩
        exact absurd (hn'.unique hreads).2 (by simp)
    | some resp =>
        rw [Option.getD_some] at hout
        rw [Option.isSome_some, hout] at hok hstatus
        exact .inl ⟨resp, ⟨hsends, n, hreads⟩, hok, hstatus⟩

/-- An answered call returns. -/
theorem perform_of_answered (hv : Valid call) {resp : HttpResponse} (h : Answered t call resp)
    (err : List UInt8) (httpStatus : Option Int) :
    ∃ fuel r, perform t call err httpStatus fuel = some r ∧ r.ok = resp.ok := by
  obtain ⟨hs, n, hn⟩ := h
  have hsends : Sends t (buildHttpRequest (lit "POST") (target call) []) := hs
  obtain ⟨fuel, hfuel⟩ := isSome_exchange hsends hn { err }
  obtain ⟨what, hwhat⟩ := perform_of_valid t err httpStatus fuel hv
  have hsome : (perform t call err httpStatus fuel).isSome := by
    rw [hwhat, postContainerAction, Option.isSome_map]
    exact hfuel
  obtain ⟨r, hr⟩ := Option.isSome_iff_exists.mp hsome
  obtain ⟨resp', h', hok, -⟩ | ⟨hnone, -⟩ := perform_spec hv hr
  · obtain rfl := h'.unique ⟨hs, n, hn⟩
    exact ⟨fuel, r, hr, hok⟩
  · exact absurd ⟨resp, hs, n, hn⟩ hnone

end Calls

/-- A result without a status is an error of the engine's. -/
theorem errors_strike {rules : List TargetRule} (e : ChaosEngine) (m : MatchedContainer rules)
    {result : StrikeResult} (hok : result.ok = false) (hstatus : result.httpStatus = 0) :
    (e.strike result m).counters.errors = e.counters.errors + 1 := by
  simp only [ChaosEngine.strike, hok, hstatus, Bool.false_eq_true, if_false]
  rw [if_neg (by decide)]
  rfl

/-- A transport that answers in two reads. -/
def answering : Transport where
  describe := lit "fake"
  connect := .ok ()
  sendAll _ := .ok ()
  readSome n :=
    if n = 0 then .data (lit "HTTP/1.1 204 No Con") else .data (lit "tent\r\nContent-Length: 0\r\n\r\n")

theorem takes_answering : Takes answering 2 := by
  intro i hi
  obtain rfl | rfl : i = 0 ∨ i = 1 := by omega
  · exact ⟨by decide +kernel, _, rfl, by decide +kernel⟩
  · exact ⟨by decide +kernel, _, rfl, by decide +kernel⟩

end DockerClient

end ChaosForger
