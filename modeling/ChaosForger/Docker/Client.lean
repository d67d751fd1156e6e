import ChaosForger.Docker
import ChaosForger.Http.Exchange

/-!
# ChaosForger.Docker.Client

The stop and kill calls of the Docker client: the checks on the container id
and the timeout, the request targets, and the exchange.  The transport is the
one the factory makes for the request, so a call that makes no transport call
at all leaves `calls` empty.
-/

namespace ChaosForger

open Libc HttpClient

namespace DockerClient

def dockerApiVersion : List UInt8 := lit "v1.41"

/-! ## Request targets -/

/-- Exactly 64 hex digits. -/
def isValidContainerId (id : List UInt8) : Bool :=
  id.length == 64 &&
    id.all fun c => (48 ≤ c && c ≤ 57) || (97 ≤ c && c ≤ 102) || (65 ≤ c && c ≤ 70)

theorem isValidContainerId_iff {id : List UInt8} :
    isValidContainerId id = true ↔ id.length = 64 ∧ ∀ c ∈ id, isxdigit c = true := by
  have hbyte (c : UInt8) :
      ((48 ≤ c && c ≤ 57) || (97 ≤ c && c ≤ 102) || (65 ≤ c && c ≤ 70)) = isxdigit c := by
    rw [isxdigit, isdigit, Bool.or_assoc, Bool.or_assoc, Bool.or_comm (97 ≤ c && c ≤ 102)]
  simp only [isValidContainerId, hbyte, Bool.and_eq_true, beq_iff_eq, List.all_eq_true]

/-- `/v1.41/containers/<id>/stop?t=<n>`, with n in [1, 600]. -/
def stopContainerPath (id : List UInt8) (timeoutSeconds : Int) : Option (List UInt8) :=
  if ¬ isValidContainerId id then none
  else if timeoutSeconds < 1 ∨ 600 < timeoutSeconds then none
  else some (lit "/" ++ dockerApiVersion ++ lit "/containers/" ++ id ++ lit "/stop?t=" ++
    decimalInt timeoutSeconds)

/-- `/v1.41/containers/<id>/kill?signal=SIGKILL` -/
def killContainerPath (id : List UInt8) : Option (List UInt8) :=
  if ¬ isValidContainerId id then none
  else some (lit "/" ++ dockerApiVersion ++ lit "/containers/" ++ id ++ lit "/kill?signal=SIGKILL")

/-! ## Calls -/

/-- How a stop or kill call ends, with the calls it made on its transport.
`httpStatus` is what the caller's pointer points to, `none` for a null
pointer. -/
structure Reply where
  ok : Bool
  err : List UInt8
  httpStatus : Option Int
  calls : List TransportCall
  deriving DecidableEq, Repr

def postContainerAction (t : Transport) (path what err : List UInt8) (httpStatus : Option Int)
    (fuel : Nat) : Option Reply :=
  let httpStatus := httpStatus.map fun _ => (0 : Int)  -- unknown until a response arrives
  (exchange t (lit "POST") path [] { err } fuel).map fun
    | (s, false) => { ok := false, err := what ++ lit ": " ++ s.err, httpStatus, calls := s.calls }
    | (s, true) =>
        let httpStatus := httpStatus.map fun _ => (s.out.status : Int)
        if ¬ s.out.ok then
          { ok := false
            err := what ++ lit ": HTTP " ++ decimal s.out.status ++
              (if s.out.body = [] then [] else lit " -- " ++ s.out.body.take 200)
            httpStatus, calls := s.calls }
        else { ok := true, err := s.err, httpStatus, calls := s.calls }

def stopContainer (t : Transport) (id : List UInt8) (timeoutSeconds : Int) (err : List UInt8)
    (httpStatus : Option Int) (fuel : Nat) : Option Reply :=
  match stopContainerPath id timeoutSeconds with
  | none =>
      some { ok := false, err := lit "stop: invalid container id or timeout", httpStatus, calls := [] }
  | some path => postContainerAction t path (lit "stop") err httpStatus fuel

def killContainer (t : Transport) (id err : List UInt8) (httpStatus : Option Int) (fuel : Nat) :
    Option Reply :=
  match killContainerPath id with
  | none => some { ok := false, err := lit "kill: invalid container id", httpStatus, calls := [] }
  | some path => postContainerAction t path (lit "kill") err httpStatus fuel

/-- The call behind the client interface. -/
def perform (t : Transport) (call : StrikeCall) (err : List UInt8) (httpStatus : Option Int)
    (fuel : Nat) : Option Reply :=
  match call with
  | .stopContainer id timeoutSeconds => stopContainer t id timeoutSeconds err httpStatus fuel
  | .killContainer id => killContainer t id err httpStatus fuel

/-! ## The checks -/

/-- The id and the timeout of the call pass the client's checks. -/
def Valid : StrikeCall → Prop
  | .stopContainer id timeoutSeconds =>
      isValidContainerId id = true ∧ 1 ≤ timeoutSeconds ∧ timeoutSeconds ≤ 600
  | .killContainer id => isValidContainerId id = true

instance (call : StrikeCall) : Decidable (Valid call) :=
  match call with
  | .stopContainer _ _ => inferInstanceAs (Decidable (_ ∧ _ ∧ _))
  | .killContainer _ => inferInstanceAs (Decidable (_ = _))

/-- The target of a call that passes the checks. -/
def target : StrikeCall → List UInt8
  | .stopContainer id timeoutSeconds =>
      lit "/v1.41/containers/" ++ id ++ lit "/stop?t=" ++ decimalInt timeoutSeconds
  | .killContainer id => lit "/v1.41/containers/" ++ id ++ lit "/kill?signal=SIGKILL"

/-- The bytes of a call. -/
def wire (call : StrikeCall) : List UInt8 := buildHttpRequest (lit "POST") (target call) []

theorem path_front : lit "/" ++ dockerApiVersion ++ lit "/containers/" = lit "/v1.41/containers/" := by
  decide

/-- The path builders check the call and build its target. -/
theorem stopContainerPath_eq (id : List UInt8) (timeoutSeconds : Int) :
    stopContainerPath id timeoutSeconds =
      if Valid (.stopContainer id timeoutSeconds) then some (target (.stopContainer id timeoutSeconds))
      else none := by
  rw [stopContainerPath, path_front]
  by_cases hid : isValidContainerId id = true
  · rw [if_neg (not_not.mpr hid)]
    by_cases ht : timeoutSeconds < 1 ∨ 600 < timeoutSeconds
    · rw [if_pos ht, if_neg fun h => by have := h.2; omega]
    · rw [if_neg ht, if_pos ⟨hid, by omega, by omega⟩]
      rfl
  · rw [if_pos hid, if_neg fun h => hid h.1]

theorem killContainerPath_eq (id : List UInt8) :
    killContainerPath id =
      if Valid (.killContainer id) then some (target (.killContainer id)) else none := by
  rw [killContainerPath, path_front]
  by_cases hid : isValidContainerId id = true
  · rw [if_neg (not_not.mpr hid), if_pos (show Valid (.killContainer id) from hid)]
    rfl
  · rw [if_pos hid, if_neg (show ¬ Valid (.killContainer id) from hid)]

section Perform

variable {call : StrikeCall} (t : Transport) (err : List UInt8) (httpStatus : Option Int) (fuel : Nat)

/-- A call that fails the checks is refused locally. -/
theorem perform_of_invalid (h : ¬ Valid call) :
    ∃ err', perform t call err httpStatus fuel =
      some { ok := false, err := err', httpStatus, calls := [] } := by
  cases call with
  | stopContainer id n =>
      rw [perform, stopContainer, stopContainerPath_eq, if_neg h]
      exact ⟨_, rfl⟩
  | killContainer id =>
      rw [perform, killContainer, killContainerPath_eq, if_neg h]
      exact ⟨_, rfl⟩

/-- Any other is posted to its target. -/
theorem perform_of_valid (h : Valid call) :
    ∃ what, perform t call err httpStatus fuel =
      postContainerAction t (target call) what err httpStatus fuel := by
  cases call with
  | stopContainer id n =>
      rw [perform, stopContainer, stopContainerPath_eq, if_pos h]
      exact ⟨_, rfl⟩
  | killContainer id =>
      rw [perform, killContainer, killContainerPath_eq, if_pos h]
      exact ⟨_, rfl⟩

end Perform

/-- **The ends of a posted call**: no exchange with a status of 0, or a
complete response with its status. -/
theorem postContainerAction_spec {t : Transport} {path what err : List UInt8}
    {httpStatus : Option Int} {fuel : Nat} {r : Reply}
    (h : postContainerAction t path what err httpStatus fuel = some r) :
    ∃ s ok, exchange t (lit "POST") path [] { err } fuel = some (s, ok) ∧ r.calls = s.calls ∧
      r.ok = (ok && s.out.ok) ∧
      r.httpStatus = httpStatus.map fun _ => if ok then (s.out.status : Int) else 0 := by
  unfold postContainerAction at h
  rw [Option.map_eq_some_iff] at h
  obtain ⟨⟨s, ok⟩, hs, hr⟩ := h
  refine ⟨s, ok, hs, ?_⟩
  cases ok with
  | false =>
      subst hr
      exact ⟨rfl, rfl, by simp⟩
  | true =>
      dsimp only at hr
      split at hr
      · next hok =>
          subst hr
          exact ⟨rfl, by simpa using hok, by cases httpStatus <;> rfl⟩
      · next hok =>
          subst hr
          exact ⟨rfl, by simpa using hok, by cases httpStatus <;> rfl⟩

end DockerClient

end ChaosForger
