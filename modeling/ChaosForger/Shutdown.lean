import Mathlib.Order.Basic

/-!
# ChaosForger.Shutdown

The shutdown state: a flag that requests raise, with the reason of the first
one.
-/

namespace ChaosForger

inductive StopReason where
  | notRequested | signal | internal
  deriving DecidableEq, Repr

structure ShutdownState where
  state : Bool := false
  reason : StopReason := .notRequested
  deriving DecidableEq, Repr

namespace ShutdownState

def stopRequested (s : ShutdownState) : Bool := s.state

/-- Idempotent: the first caller wins. -/
def request (s : ShutdownState) (reason : StopReason) : ShutdownState :=
  if s.state then s else { state := true, reason }

/-- The state at each instant, when `requests` says which requests take effect
at which. -/
def during (requests : Nat → List StopReason) : Nat → ShutdownState
  | 0 => (requests 0).foldl request {}
  | t + 1 => (requests (t + 1)).foldl request (during requests t)

theorem request_stopRequested (s : ShutdownState) (reason : StopReason) :
    (s.request reason).stopRequested = true := by
  unfold request stopRequested
  split
  · assumption
  · rfl

theorem stopRequested_foldl {s : ShutdownState} (reasons : List StopReason)
    (h : s.stopRequested = true ∨ reasons ≠ []) :
    (reasons.foldl request s).stopRequested = true := by
  induction reasons generalizing s with
  | nil => simpa using h
  | cons r rs ih => exact ih (.inl (request_stopRequested s r))

/-- **Once a request has taken effect the flag stays up.** -/
theorem stopRequested_during {requests : Nat → List StopReason} {t i : Nat}
    (ht : requests t ≠ []) (hi : t ≤ i) : (during requests i).stopRequested = true := by
  induction i with
  | zero =>
      obtain rfl : t = 0 := by omega
      exact stopRequested_foldl _ (.inr ht)
  | succ i ih =>
      by_cases hit : t = i + 1
      · subst hit
        exact stopRequested_foldl _ (.inr ht)
      · exact stopRequested_foldl _ (.inl (ih (by omega)))

end ShutdownState

end ChaosForger
