import ChaosForger.Shutdown
import ChaosForger.Transitions
import Mathlib.Logic.Function.Basic

/-!
# ChaosForger.Shutdown.Concurrent

The shutdown state between threads: any number of them in `request` and in
`wait_for_stop`, over one mutex, two atomics and the wait set of the condition
variable, and observers that take no lock.

Each atomic operation, and each operation on the mutex and on the condition
variable, is one step.  A wait may end at any time or never, so that the runs
cover every timeout, early wake-ups included.

`Inv` is what holds between any two steps: the mutex excludes, a waiter that
has seen the flag down and not yet blocked still finds it down, the wait set
holds blocked threads only, and a request that has exchanged leaves the flag up.
-/

namespace ChaosForger

open Transitions

namespace Shutdown

/-- Where a thread stands: outside, in `request` or in `wait_for_stop`. -/
inductive Pc where
  | idle
  | lock (reason : StopReason)
  | exchange (reason : StopReason)
  | store (reason : StopReason)
  | unlock
  | notify
  | requested
  | waitLock
  | predicate
  | wait
  | blocked
  | lastCheck
  | leave
  deriving DecidableEq, Repr

/-- What the threads share, and where each of them stands. -/
structure Shared (T : Type u) extends ShutdownState where
  /-- The owner of `mutex_`. -/
  mutex : Option T := none
  /-- The wait set of `cv_`: the threads that no wake-up has reached. -/
  waiting : List T := []
  pc : T → Pc := fun _ => .idle

inductive Event (T : Type u) where
  | request (t : T) (reason : StopReason)
  | lock (t : T)
  | exchange (t : T) (reason : StopReason)
  | store (t : T)
  | unlock (t : T)
  | notifyAll (t : T)
  | returned (t : T)
  | waitForStop (t : T) (timeoutMs : Int)
  | predicate (t : T)
  | block (t : T)
  | wake (t : T)
  | reacquire (t : T) (timedOut : Bool)
  | lastCheck (t : T)
  | leave (t : T)
  | stopRequested (t : T) (result : Bool)
  | reason (t : T) (result : StopReason)

variable {T : Type u} [DecidableEq T]

def Shared.goto (s : Shared T) (t : T) (pc : Pc) : Shared T :=
  { s with pc := Function.update s.pc t pc }

inductive Step : Shared T → Event T → Shared T → Prop where
  | request {s t} (reason) : s.pc t = .idle → Step s (.request t reason) (s.goto t (.lock reason))
  | lock {s t reason} : s.pc t = .lock reason → s.mutex = none →
      Step s (.lock t) { s.goto t (.exchange reason) with mutex := some t }
  /-- `state_.exchange(true)`; the branch is taken when it was down. -/
  | exchange {s t reason} : s.pc t = .exchange reason →
      Step s (.exchange t reason)
        { s.goto t (if s.state then .unlock else .store reason) with state := true }
  | store {s t reason} : s.pc t = .store reason →
      Step s (.store t) { s.goto t .unlock with reason := reason }
  | unlock {s t} : s.pc t = .unlock → Step s (.unlock t) { s.goto t .notify with mutex := none }
  | notifyAll {s t} : s.pc t = .notify →
      Step s (.notifyAll t) { s.goto t .requested with waiting := [] }
  | returned {s t} : s.pc t = .requested → Step s (.returned t) (s.goto t .idle)
  | waitForStop {s t} (timeoutMs) : s.pc t = .idle →
      Step s (.waitForStop t timeoutMs) (s.goto t .waitLock)
  | acquire {s t} : s.pc t = .waitLock → s.mutex = none →
      Step s (.lock t) { s.goto t .predicate with mutex := some t }
  /-- `wait_for` loads the flag, and waits only when it is down. -/
  | predicate {s t} : s.pc t = .predicate →
      Step s (.predicate t) (s.goto t (if s.state then .leave else .wait))
  /-- Releases the mutex and enters the wait set, in one step. -/
  | block {s t} : s.pc t = .wait →
      Step s (.block t) { s.goto t .blocked with mutex := none, waiting := t :: s.waiting }
  /-- A timeout, or a spurious wake-up. -/
  | wake {s t} : t ∈ s.waiting → Step s (.wake t) { s with waiting := s.waiting.filter (· ≠ t) }
  /-- The wait returns with the mutex; after a timeout the flag is loaded only
  once more. -/
  | reacquire {s t timedOut} : s.pc t = .blocked → t ∉ s.waiting → s.mutex = none →
      Step s (.reacquire t timedOut)
        { s.goto t (if timedOut then .lastCheck else .predicate) with mutex := some t }
  | lastCheck {s t} : s.pc t = .lastCheck → Step s (.lastCheck t) (s.goto t .leave)
  | leave {s t} : s.pc t = .leave → Step s (.leave t) { s.goto t .idle with mutex := none }
  | stopRequested {s t} : s.pc t = .idle → Step s (.stopRequested t s.state) s
  | reason {s t} : s.pc t = .idle → Step s (.reason t s.reason) s

/-- The program points where a thread owns the mutex. -/
def Pc.Holds : Pc → Prop
  | .exchange _ | .store _ | .unlock | .predicate | .wait | .lastCheck | .leave => True
  | _ => False

/-- The program points of a requester between its exchange and its
`notify_all`. -/
def Pc.Announcing : Pc → Prop
  | .store _ | .unlock | .notify => True
  | _ => False

variable {s s' : Shared T} {e : Event T} {t u : T}

@[simp] theorem goto_state (t : T) (pc : Pc) : (s.goto t pc).state = s.state := rfl

@[simp] theorem goto_reason (t : T) (pc : Pc) : (s.goto t pc).reason = s.reason := rfl

@[simp] theorem goto_mutex (t : T) (pc : Pc) : (s.goto t pc).mutex = s.mutex := rfl

@[simp] theorem goto_waiting (t : T) (pc : Pc) : (s.goto t pc).waiting = s.waiting := rfl

@[simp] theorem goto_pc (t u : T) (pc : Pc) :
    (s.goto t pc).pc u = if u = t then pc else s.pc u := by
  simp [Shared.goto, Function.update_apply]

/-- What holds between any two steps. -/
structure Inv (s : Shared T) : Prop where
  holds : ∀ t, (s.pc t).Holds → s.mutex = some t
  asleep : ∀ t, s.pc t = .wait → s.state = false
  blocked : ∀ t ∈ s.waiting, s.pc t = .blocked
  raised : ∀ t, (s.pc t).Announcing → s.state = true

omit [DecidableEq T] in
/-- **The mutex excludes.** -/
theorem Inv.exclusive (hs : Inv s) (ht : (s.pc t).Holds) (hu : (s.pc u).Holds) : t = u :=
  Option.some.inj ((hs.holds t ht).symm.trans (hs.holds u hu))

omit [DecidableEq T] in
theorem inv_init : Inv ({} : Shared T) where
  holds _ h := h.elim
  asleep _ h := nomatch h
  blocked _ h := nomatch h
  raised _ h := h.elim

theorem holds_step (hs : Inv s) (h : Step s e s') (u : T) (hu : (s'.pc u).Holds) :
    s'.mutex = some u := by
  have hex := hs.holds
  cases h with
  | stopRequested | reason => exact hs.holds u hu
  | _ =>
      simp only [goto_pc, goto_mutex] at hu ⊢
      grind [Pc.Holds]

theorem asleep_step (hs : Inv s) (h : Step s e s') (u : T) (hu : s'.pc u = .wait) :
    s'.state = false := by
  have hex := @hs.exclusive
  have hasleep := hs.asleep
  cases h with
  | stopRequested | reason => exact hs.asleep u hu
  | _ =>
      simp only [goto_pc, goto_state] at hu ⊢
      grind [Pc.Holds]

theorem blocked_step (hs : Inv s) (h : Step s e s') (u : T) (hu : u ∈ s'.waiting) :
    s'.pc u = .blocked := by
  have hblocked := hs.blocked
  cases h with
  | stopRequested | reason => exact hs.blocked u hu
  | _ =>
      simp only [goto_pc, goto_waiting] at hu ⊢
      grind

theorem raised_step (hs : Inv s) (h : Step s e s') (u : T) (hu : (s'.pc u).Announcing) :
    s'.state = true := by
  have hraised := hs.raised
  cases h with
  | exchange => rfl
  | stopRequested | reason => exact hs.raised u hu
  | _ =>
      simp only [goto_pc, goto_state] at hu ⊢
      grind [Pc.Announcing]

theorem Inv.step (hs : Inv s) (h : Step s e s') : Inv s' where
  holds := holds_step hs h
  asleep := asleep_step hs h
  blocked := blocked_step hs h
  raised := raised_step hs h

/-- The flag never falls. -/
theorem state_step (h : Step s e s') (hs : s.state = true) : s'.state = true := by
  cases h <;> first | rfl | exact hs

/-- An observer reads the flag, and changes nothing. -/
theorem stopRequested_step {result : Bool} (h : Step s (.stopRequested t result) s') :
    s' = s ∧ result = s.state := by
  cases h with
  | stopRequested => exact ⟨rfl, rfl⟩

theorem reason_step {result : StopReason} (h : Step s (.reason t result) s') :
    s' = s ∧ result = s.reason := by
  cases h with
  | reason => exact ⟨rfl, rfl⟩

/-- The histories and the last states of all interleavings. -/
def Interleaving (h : List (Shared T × Event T)) (s : Shared T) : Prop := Run Step {} h s

theorem Interleaving.inv {h : List (Shared T × Event T)} (hrun : Interleaving h s) : Inv s :=
  Run.invariant inv_init (fun _ _ _ => Inv.step) hrun

end Shutdown

end ChaosForger
