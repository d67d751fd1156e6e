import ChaosForger.Main.Runs
import ChaosForger.Shutdown.WakeUps

/-!
# ChaosForger.Main.Lifecycle

The two threads of the process from the moment the signals are blocked: `main`
with its loop, its join and its report, and the signal listener of a daemon,
over the shutdown state of `ChaosForger.Shutdown.Concurrent`.

A signal may be raised at any time.  Blocked signals stay pending until the
listener consumes them in `sigwait`, and the self-signal of the join is one of
them.  A single tick has no listener.
-/

namespace ChaosForger

open Transitions

namespace Lifecycle

inductive Thread where
  | main | listener
  deriving DecidableEq, Repr

inductive Signal where
  | sigint | sigterm
  deriving DecidableEq, Repr

/-- Where `main` stands, once the signals are blocked. -/
inductive MainPc where
  | starting
  /-- in the daemon loop, or in the single tick -/
  | running
  | left
  /-- `g_signal_received` has been read -/
  | loaded
  | joining
  | reporting
  | exited
  deriving DecidableEq, Repr

/-- Where the signal listener stands. -/
inductive ListenerPc where
  | absent
  /-- in `sigwait` -/
  | waiting
  | caught (sig : Signal)
  | stored
  /-- in `request_signal` -/
  | requesting
  | finished
  deriving DecidableEq, Repr

structure State where
  shared : Shutdown.Shared Thread := {}
  main : MainPc := .starting
  listener : ListenerPc := .absent
  /-- The signals that have been sent and not been consumed. -/
  pending : Signal → Bool := fun _ => false
  /-- `g_signal_received` -/
  received : Option Signal := none
  /-- What `main` has read there. -/
  signalled : Option Signal := none

inductive Event where
  | raise (sig : Signal)
  | start
  | work (e : Shutdown.Event Thread)
  | leave
  | load (result : Option Signal)
  | selfSignal
  | join
  | report (reason : StopReason)
  | sigwait (sig : Signal)
  | storeReceived
  | announce (e : Shutdown.Event Thread)

end Lifecycle

/-- The thread that makes the step. -/
def Shutdown.Event.thread {T : Type u} : Shutdown.Event T → T
  | .request t _ | .lock t | .exchange t _ | .store t | .unlock t | .notifyAll t | .returned t
  | .waitForStop t _ | .predicate t | .block t | .wake t | .reacquire t _ | .lastCheck t | .leave t
  | .stopRequested t _ | .reason t _ => t

/-- The start of a request. -/
def Shutdown.Event.requests {T : Type u} : Shutdown.Event T → Bool
  | .request _ _ => true
  | _ => false

namespace Lifecycle

open Libc
open Shutdown (Pc)

/-- The process as a daemon, or with a single tick. -/
inductive Step (daemon : Bool) : State → Event → State → Prop where
  | raise {s sig} : Step daemon s (.raise sig) { s with pending := Function.update s.pending sig true }
  /-- A daemon spawns the listener first. -/
  | start {s} : s.main = .starting →
      Step daemon s .start
        { s with main := .running, listener := if daemon then .waiting else .absent }
  /-- The guards of the engine, and in a daemon the waits of the loop. -/
  | work {s e shared} : s.main = .running → Shutdown.Step s.shared e shared → e.thread = .main →
      e.requests = false → (daemon = false → ∃ result, e = .stopRequested .main result) →
      Step daemon s (.work e) { s with shared }
  /-- A daemon leaves its loop when it finds the flag up, a single tick at its end. -/
  | leave {s} : s.main = .running → s.shared.pc .main = .idle →
      (daemon = true → s.shared.state = true) → Step daemon s .leave { s with main := .left }
  | load {s} : s.main = .left →
      Step daemon s (.load s.received) { s with main := .loaded, signalled := s.received }
  /-- `kill(getpid(), SIGTERM)`, in front of the join of a listener that was started. -/
  | selfSignal {s} : s.main = .loaded → s.listener ≠ .absent →
      Step daemon s .selfSignal
        { s with main := .joining, pending := Function.update s.pending .sigterm true }
  | join {s} : s.main = .joining → s.listener = .finished →
      Step daemon s .join { s with main := .reporting }
  | noJoin {s} : s.main = .loaded → s.listener = .absent →
      Step daemon s .join { s with main := .reporting }
  | report {s} : s.main = .reporting →
      Step daemon s (.report s.shared.reason) { s with main := .exited }
  | sigwait {s sig} : s.listener = .waiting → s.pending sig = true →
      Step daemon s (.sigwait sig)
        { s with listener := .caught sig, pending := Function.update s.pending sig false }
  | storeReceived {s sig} : s.listener = .caught sig →
      Step daemon s .storeReceived { s with listener := .stored, received := some sig }
  | request {s shared} : s.listener = .stored →
      Shutdown.Step s.shared (.request .listener .signal) shared →
      Step daemon s (.announce (.request .listener .signal))
        { s with shared, listener := .requesting }
  | announce {s e shared} : s.listener = .requesting → Shutdown.Step s.shared e shared →
      e.thread = .listener → e.requests = false → shared.pc .listener ≠ .idle →
      Step daemon s (.announce e) { s with shared }
  | finish {s shared} : s.listener = .requesting →
      Shutdown.Step s.shared (.returned .listener) shared →
      Step daemon s (.announce (.returned .listener)) { s with shared, listener := .finished }

/-! ## The steps of a thread on the shutdown state -/

/-- The program points of `request`. -/
def Requesting : Pc → Prop
  | .lock _ | .exchange _ | .store _ | .unlock | .notify | .requested => True
  | _ => False

variable {daemon : Bool} {s s' : State} {e : Event} {h : List (State × Event)}

/-- A thread that does not request changes its own place only. -/
theorem of_main_step {a b : Shutdown.Shared Thread} {e : Shutdown.Event Thread}
    (hstep : Shutdown.Step a e b) (hthread : e.thread = .main) (he : e.requests = false)
    (hcalm : ¬ Requesting (a.pc .main)) :
    b.state = a.state ∧ b.reason = a.reason ∧ b.pc .listener = a.pc .listener ∧
      ¬ Requesting (b.pc .main) := by
  cases hstep with
  | request => simp [Shutdown.Event.requests] at he
  | stopRequested | reason | wake => exact ⟨rfl, rfl, rfl, hcalm⟩
  | _ =>
      obtain rfl := hthread
      simp only [Shutdown.goto_state, Shutdown.goto_reason, Shutdown.goto_pc]
      grind [Requesting]

/-- The listener goes through `request` point by point. -/
theorem of_listener_step {a b : Shutdown.Shared Thread} {e : Shutdown.Event Thread}
    (ha : Shutdown.Inv a) (hstep : Shutdown.Step a e b) (hthread : e.thread = .listener) (he : e.requests = false)
    (hreq : Requesting (a.pc .listener)) :
    b.pc .main = a.pc .main ∧
      ((∃ r, a.pc .listener = .lock r ∧ b.pc .listener = .exchange r ∧ b.state = a.state ∧
          b.reason = a.reason) ∨
        (∃ r, a.pc .listener = .exchange r ∧ b.state = true ∧ b.reason = a.reason ∧
          b.pc .listener = if a.state then .unlock else .store r) ∨
        (∃ r, a.pc .listener = .store r ∧ b.pc .listener = .unlock ∧ b.state = a.state ∧
          b.reason = r) ∨
        (a.pc .listener = .unlock ∧ b.pc .listener = .notify ∧ b.state = a.state ∧
          b.reason = a.reason) ∨
        (a.pc .listener = .notify ∧ b.pc .listener = .requested ∧ b.state = a.state ∧
          b.reason = a.reason) ∨
        (a.pc .listener = .requested ∧ b.pc .listener = .idle ∧ b.state = a.state ∧
          b.reason = a.reason)) := by
  cases hstep with
  | request => simp [Shutdown.Event.requests] at he
  | wake hmem =>
      obtain rfl := hthread
      simp [ha.blocked _ hmem, Requesting] at hreq
  | lock hpc =>
      obtain rfl := hthread
      exact ⟨by simp, .inl ⟨_, hpc, by simp⟩⟩
  | exchange hpc =>
      obtain rfl := hthread
      exact ⟨by simp, .inr (.inl ⟨_, hpc, by simp⟩)⟩
  | store hpc =>
      obtain rfl := hthread
      exact ⟨by simp, .inr (.inr (.inl ⟨_, hpc, by simp⟩))⟩
  | unlock hpc | notifyAll hpc | returned hpc =>
      obtain rfl := hthread
      simp [hpc]
  | _ =>
      obtain rfl := hthread
      simp_all [Requesting]

/-- The mutex is owned by a thread that is where it holds it. -/
theorem owner_step {a b : Shutdown.Shared Thread} {e : Shutdown.Event Thread}
    (ha : ∀ t, a.mutex = some t → (a.pc t).Holds) (hstep : Shutdown.Step a e b) (t : Thread)
    (ht : b.mutex = some t) : (b.pc t).Holds := by
  cases hstep with
  | stopRequested | reason => exact ha t ht
  | _ =>
      simp only [Shutdown.goto_pc, Shutdown.goto_mutex] at ht ⊢
      grind [Pc.Holds]

/-! ## The invariant -/

/-- How far `request` has come. -/
def pcPhase : Pc → Nat
  | .lock _ => 4
  | .exchange _ => 5
  | .store _ => 6
  | .unlock => 7
  | .notify => 8
  | .requested => 9
  | _ => 0

/-- How far the listener has come. -/
def State.phase (s : State) : Nat :=
  match s.listener with
  | .absent => 0
  | .waiting => 1
  | .caught _ => 2
  | .stored => 3
  | .requesting => pcPhase (s.shared.pc .listener)
  | .finished => 10

/-- What holds between any two steps: the flag, the reason and the signal
number are as far as the listener is, and `main` is where they let it be. -/
structure Inv (daemon : Bool) (s : State) : Prop where
  shared : Shutdown.Inv s.shared
  owner : ∀ t, s.shared.mutex = some t → (s.shared.pc t).Holds
  calm : ¬ Requesting (s.shared.pc .main)
  idle : s.main ≠ .running → s.shared.pc .main = .idle
  listener : s.listener ≠ .requesting → s.shared.pc .listener = .idle
  requesting : s.listener = .requesting → Requesting (s.shared.pc .listener)
  signal : ∀ r, s.shared.pc .listener = .lock r ∨ s.shared.pc .listener = .exchange r ∨
    s.shared.pc .listener = .store r → r = .signal
  flag : s.shared.state = true ↔ 6 ≤ s.phase
  reason : s.shared.reason = if 7 ≤ s.phase then .signal else .notRequested
  received : s.received.isSome = true ↔ 3 ≤ s.phase
  absent : s.listener = .absent ↔ s.main = .starting ∨ daemon = false
  left : daemon = true → s.main = .starting ∨ s.main = .running ∨ s.shared.state = true
  loaded : s.main = .starting ∨ s.main = .running ∨ s.main = .left ∨ s.signalled = s.received
  joined : daemon = true → s.main = .reporting ∨ s.main = .exited → s.listener = .finished

theorem inv_init (daemon : Bool) : Inv daemon {} where
  shared := Shutdown.inv_init
  owner t h := by simp at h
  calm := by simp [Requesting]
  idle _ := rfl
  listener _ := rfl
  requesting h := by simp at h
  signal r h := by simp at h
  flag := by simp [State.phase]
  reason := by simp [State.phase]
  received := by simp [State.phase]
  absent := by simp
  left _ := .inl rfl
  loaded := .inl rfl
  joined _ h := by simp at h

theorem Inv.work {shared : Shutdown.Shared Thread} {e : Shutdown.Event Thread} (hs : Inv daemon s)
    (hrun : s.main = .running) (hstep : Shutdown.Step s.shared e shared) (hthread : e.thread = .main)
    (he : e.requests = false) : Inv daemon { s with shared } := by
  obtain ⟨hstate, hreason, hpc, hcalm⟩ := of_main_step hstep hthread he hs.calm
  have hphase : State.phase { s with shared } = s.phase := by
    simp only [State.phase, hpc]
  refine ⟨hs.shared.step hstep, owner_step hs.owner hstep, hcalm, fun h => absurd hrun h, ?_, ?_, ?_, ?_, ?_, ?_, hs.absent,
    fun _ => .inr (.inl hrun), hs.loaded, hs.joined⟩
  · simpa only [hpc] using hs.listener
  · simpa only [hpc] using hs.requesting
  · simpa only [hpc] using hs.signal
  · simpa only [hphase, hstate] using hs.flag
  · simpa only [hphase, hreason] using hs.reason
  · simpa only [hphase] using hs.received

/-- One point of `request` to the next: what the flag and the reason are at the
next one. -/
theorem pcPhase_step {a b : Shutdown.Shared Thread} {e : Shutdown.Event Thread}
    (ha : Shutdown.Inv a) (hstep : Shutdown.Step a e b) (hthread : e.thread = .listener)
    (he : e.requests = false) (hreq : Requesting (a.pc .listener))
    (hsignal : ∀ r, a.pc .listener = .lock r ∨ a.pc .listener = .exchange r ∨
      a.pc .listener = .store r → r = .signal)
    (hflag : a.state = true ↔ 6 ≤ pcPhase (a.pc .listener))
    (hreason : a.reason = if 7 ≤ pcPhase (a.pc .listener) then .signal else .notRequested)
    (hpc : b.pc .listener ≠ .idle) :
    pcPhase (b.pc .listener) = pcPhase (a.pc .listener) + 1 ∧ Requesting (b.pc .listener) ∧
      (∀ r, b.pc .listener = .lock r ∨ b.pc .listener = .exchange r ∨
        b.pc .listener = .store r → r = .signal) ∧
      (b.state = true ↔ 6 ≤ pcPhase (b.pc .listener)) ∧
      b.reason = if 7 ≤ pcPhase (b.pc .listener) then .signal else .notRequested := by
  obtain ⟨-, hcases⟩ := of_listener_step ha hstep hthread he hreq
  clear ha hstep hthread he hreq
  obtain ⟨r, hat, hto, hst, hre⟩ | ⟨r, hat, hst, hre, hto⟩ | ⟨r, hat, hto, hst, hre⟩ |
    ⟨hat, hto, hst, hre⟩ | ⟨hat, hto, hst, hre⟩ | ⟨hat, hto, -⟩ := hcases
  · obtain rfl := hsignal r (.inl hat)
    simp only [hat, pcPhase] at hflag hreason
    simp_all [pcPhase, Requesting]
  · obtain rfl := hsignal r (.inr (.inl hat))
    have hdown : a.state = false := by simpa [hat, pcPhase] using hflag
    simp only [hat, pcPhase] at hreason
    simp_all [pcPhase, Requesting]
  · obtain rfl := hsignal r (.inr (.inr hat))
    simp only [hat, pcPhase] at hflag
    simp_all [pcPhase, Requesting]
  · simp only [hat, pcPhase] at hflag hreason
    simp_all [pcPhase, Requesting]
  · simp only [hat, pcPhase] at hflag hreason
    simp_all [pcPhase, Requesting]
  · exact absurd hto hpc

theorem four_le_pcPhase {pc : Pc} (h : Requesting pc) : 4 ≤ pcPhase pc := by
  cases pc <;> simp_all [pcPhase, Requesting]

/-- A step of the listener in `request`, short of its return. -/
theorem Inv.announce {shared : Shutdown.Shared Thread} {e : Shutdown.Event Thread}
    (hs : Inv daemon s) (hreq : s.listener = .requesting)
    (hstep : Shutdown.Step s.shared e shared) (hthread : e.thread = .listener)
    (he : e.requests = false) (hpc : shared.pc .listener ≠ .idle) :
    Inv daemon { s with shared } ∧ State.phase { s with shared } = s.phase + 1 := by
  have hphase : s.phase = pcPhase (s.shared.pc .listener) := by simp [State.phase, hreq]
  have hphase' : State.phase { s with shared } = pcPhase (shared.pc .listener) := by
    simp [State.phase, hreq]
  have hat := hs.requesting hreq
  have hflag := hs.flag
  have hreason := hs.reason
  rw [hphase] at hflag hreason
  obtain ⟨hmain, -⟩ := of_listener_step hs.shared hstep hthread he hat
  obtain ⟨hone, hrequesting, hsignal, hflag', hreason'⟩ :=
    pcPhase_step hs.shared hstep hthread he hat hs.signal hflag hreason hpc
  have hpos := four_le_pcPhase hat
  refine ⟨⟨hs.shared.step hstep, owner_step hs.owner hstep, ?_, ?_, fun h => absurd hreq h, fun _ => hrequesting, hsignal,
    by rwa [hphase'], by rwa [hphase'], ?_, hs.absent, fun hd => ?_, hs.loaded, hs.joined⟩, ?_⟩
  · rw [hmain]
    exact hs.calm
  · rw [hmain]
    exact hs.idle
  · rw [hphase', hone, hs.received, hphase]
    omega
  · obtain h | h | h := hs.left hd
    · exact .inl h
    · exact .inr (.inl h)
    · rw [hflag] at h
      exact .inr (.inr (hflag'.mpr (by omega)))
  · rw [hphase', hone, hphase]

/-- The listener enters `request`, and leaves it. -/
theorem Inv.request {shared : Shutdown.Shared Thread} (hs : Inv daemon s)
    (hstored : s.listener = .stored)
    (hstep : Shutdown.Step s.shared (.request .listener .signal) shared) :
    Inv daemon { s with shared, listener := .requesting } := by
  have hinv := hs.shared.step hstep
  have howner := owner_step hs.owner hstep
  have hphase : s.phase = 3 := by simp [State.phase, hstored]
  have hflag := hs.flag
  have hreason := hs.reason
  have hreceived := hs.received
  rw [hphase] at hflag hreason hreceived
  cases hstep with
  | request =>
      refine ⟨hinv, howner, ?_, ?_, fun h => absurd rfl h, fun _ => ?_, ?_, ?_, ?_, ?_, ?_, hs.left,
        hs.loaded, fun hd h => ?_⟩
      · simpa using hs.calm
      · simpa using hs.idle
      · simp [Requesting]
      · simp
      · simpa [State.phase, pcPhase] using hflag
      · simpa [State.phase, pcPhase] using hreason
      · simpa [State.phase, pcPhase] using hreceived
      · simpa [hstored] using hs.absent
      · simpa [hstored] using hs.joined hd h

theorem Inv.finish {shared : Shutdown.Shared Thread} (hs : Inv daemon s)
    (hreq : s.listener = .requesting)
    (hstep : Shutdown.Step s.shared (.returned .listener) shared) :
    Inv daemon { s with shared, listener := .finished } := by
  have hinv := hs.shared.step hstep
  have howner := owner_step hs.owner hstep
  have hflag := hs.flag
  have hreason := hs.reason
  have hreceived := hs.received
  cases hstep with
  | returned hpc =>
      have hphase : s.phase = 9 := by simp [State.phase, hreq, hpc, pcPhase]
      rw [hphase] at hflag hreason hreceived
      refine ⟨hinv, howner, ?_, ?_, fun _ => ?_, fun h => by simp at h, ?_, ?_, ?_, ?_, ?_, hs.left,
        hs.loaded, fun _ _ => rfl⟩
      · simpa using hs.calm
      · simpa using hs.idle
      · simp
      · simp
      · simpa [State.phase] using hflag
      · simpa [State.phase] using hreason
      · simpa [State.phase] using hreceived
      · simpa [hreq] using hs.absent

theorem Inv.start (hs : Inv daemon s) (hmain : s.main = .starting) :
    Inv daemon { s with main := .running, listener := if daemon then .waiting else .absent } := by
  have habsent : s.listener = .absent := hs.absent.mpr (.inl hmain)
  have hphase : s.phase = 0 := by simp [State.phase, habsent]
  have hflag := hs.flag
  have hreason := hs.reason
  have hreceived := hs.received
  rw [hphase] at hflag hreason hreceived
  have hidle := hs.listener (by simp [habsent])
  refine { hs with idle := fun h => absurd rfl h, listener := fun _ => hidle, requesting := ?_,
                   flag := ?_, reason := ?_, received := ?_, absent := ?_,
                   left := fun _ => .inr (.inl rfl), loaded := .inr (.inl rfl), joined := ?_ }
  all_goals cases daemon <;> simp_all [State.phase]

theorem Inv.storeReceived {sig : Signal} (hs : Inv daemon s) (hcaught : s.listener = .caught sig)
    (hmain : s.main = .starting ∨ s.main = .running) :
    Inv daemon { s with listener := .stored, received := some sig } := by
  have hphase : s.phase = 2 := by simp [State.phase, hcaught]
  have hflag := hs.flag
  have hreason := hs.reason
  rw [hphase] at hflag hreason
  have hidle := hs.listener (by simp [hcaught])
  refine { hs with listener := fun _ => hidle, requesting := fun h => by simp at h,
                   flag := ?_, reason := ?_, received := ?_, absent := ?_, loaded := ?_,
                   joined := ?_ }
  · simpa [State.phase] using hflag
  · simpa [State.phase] using hreason
  · simp [State.phase]
  · simpa [hcaught] using hs.absent
  · simpa [or_assoc] using Or.inl (b := s.main = .left ∨ s.signalled = some sig) hmain
  · rintro - h
    grind

/-- Until the listener is in `request`, `main` is in its loop. -/
theorem Inv.running (hs : Inv daemon s) (hphase : s.phase < 6) (hlistener : s.listener ≠ .absent) :
    s.main = .running := by
  have hdown : s.shared.state ≠ true := fun h => by
    have := hs.flag.mp h
    omega
  have hnot := mt hs.absent.mpr hlistener
  have hleft := hs.left
  cases daemon <;> simp_all

theorem Inv.step (hs : Inv daemon s) (hstep : Step daemon s e s') : Inv daemon s' := by
  cases hstep with
  | raise => exact { hs with }
  | start hmain => exact hs.start hmain
  | work hrun hstep hthread he => exact hs.work hrun hstep hthread he
  | leave hrun hidle hup =>
      refine { hs with idle := fun _ => hidle, absent := ?_, left := fun h => .inr (.inr (hup h)),
                       loaded := .inr (.inr (.inl rfl)), joined := fun _ h => by simp at h }
      simpa [hrun] using hs.absent
  | load hleft =>
      refine { hs with idle := fun _ => hs.idle (by simp [hleft]), absent := ?_, left := ?_,
                       loaded := .inr (.inr (.inr rfl)), joined := fun _ h => by simp at h }
      · simpa [hleft] using hs.absent
      · simpa [hleft] using hs.left
  | selfSignal hloaded =>
      refine { hs with idle := fun _ => hs.idle (by simp [hloaded]), absent := ?_, left := ?_,
                       loaded := ?_, joined := fun _ h => by simp at h }
      · simpa [hloaded] using hs.absent
      · simpa [hloaded] using hs.left
      · simpa [hloaded] using hs.loaded
  | join hjoining hfinished =>
      refine { hs with idle := fun _ => hs.idle (by simp [hjoining]), absent := ?_, left := ?_,
                       loaded := ?_, joined := fun _ _ => hfinished }
      · simpa [hjoining] using hs.absent
      · simpa [hjoining] using hs.left
      · simpa [hjoining] using hs.loaded
  | noJoin hloaded habsent =>
      have hdaemon := hs.absent.mp habsent
      refine { hs with idle := fun _ => hs.idle (by simp [hloaded]), absent := ?_, left := ?_,
                       loaded := ?_, joined := ?_ }
      · simpa [hloaded] using hs.absent
      · simpa [hloaded] using hs.left
      · simpa [hloaded] using hs.loaded
      · simp_all
  | report hreporting =>
      refine { hs with idle := fun _ => hs.idle (by simp [hreporting]), absent := ?_, left := ?_,
                       loaded := ?_, joined := fun h _ => hs.joined h (.inl hreporting) }
      · simpa [hreporting] using hs.absent
      · simpa [hreporting] using hs.left
      · simpa [hreporting] using hs.loaded
  | sigwait hwaiting =>
      have hphase : s.phase = 1 := by simp [State.phase, hwaiting]
      have hrun := hs.running (by omega) (by simp [hwaiting])
      have hflag := hs.flag
      have hreason := hs.reason
      have hreceived := hs.received
      rw [hphase] at hflag hreason hreceived
      refine { hs with listener := fun _ => hs.listener (by simp [hwaiting]),
                       requesting := fun h => by simp at h, flag := ?_, reason := ?_,
                       received := ?_, absent := ?_, joined := fun _ h => by simp [hrun] at h }
      · simpa [State.phase] using hflag
      · simpa [State.phase] using hreason
      · simpa [State.phase] using hreceived
      · simpa [hwaiting] using hs.absent
  | storeReceived hcaught =>
      refine hs.storeReceived hcaught (.inr (hs.running ?_ (by simp [hcaught])))
      simp [State.phase, hcaught]
  | request hstored hstep => exact hs.request hstored hstep
  | announce hreq hstep hthread he hpc => exact (hs.announce hreq hstep hthread he hpc).1
  | finish hreq hstep => exact hs.finish hreq hstep

/-- The interleavings of the two threads, with the signals raised on the way. -/
def Lifetime (daemon : Bool) (h : List (State × Event)) (s : State) : Prop :=
  Run (Step daemon) {} h s

theorem Lifetime.inv (hrun : Lifetime daemon h s) : Inv daemon s :=
  Run.invariant (inv_init daemon) (fun _ _ _ => Inv.step) hrun

/-! ## Where the signal came from -/

/-- The signal has been raised from outside. -/
def Raised (h : List (State × Event)) (sig : Signal) : Prop := ∃ s₀, (s₀, .raise sig) ∈ h

theorem Raised.last {sig : Signal} : Raised (h ++ [(s, .raise sig)]) sig := ⟨s, by simp⟩

theorem Raised.snoc {sig : Signal} {x : State × Event} (h' : Raised h sig) : Raised (h ++ [x]) sig := by
  obtain ⟨s₀, hmem⟩ := h'
  exact ⟨s₀, List.mem_append_left _ hmem⟩

/-- A signal is pending because it was raised, or because `main` has sent it to
itself, and then the flag is already up. -/
structure Origin (h : List (State × Event)) (s : State) : Prop where
  pending : ∀ sig, s.pending sig = true → Raised h sig ∨ s.shared.state = true
  caught : ∀ sig, s.listener = .caught sig → Raised h sig
  received : ∀ sig, s.received = some sig → Raised h sig

theorem Origin.of_shared {x : State × Event} {shared : Shutdown.Shared Thread} {e : Shutdown.Event Thread}
    {listener : ListenerPc} (ho : Origin h s) (hstep : Shutdown.Step s.shared e shared)
    (hlistener : ∀ sig, listener = .caught sig → s.listener = .caught sig) :
    Origin (h ++ [x]) { s with shared, listener } where
  pending sig hp := (ho.pending sig hp).imp Raised.snoc (Shutdown.state_step hstep)
  caught sig hc := (ho.caught sig (hlistener sig hc)).snoc
  received sig hr := (ho.received sig hr).snoc

theorem Origin.step (ho : Origin h s) (hs : Inv daemon s) (hstep : Step daemon s e s') :
    Origin (h ++ [(s, e)]) s' := by
  have hkeep : Origin (h ++ [(s, e)]) s :=
    ⟨fun sig hp => (ho.pending sig hp).imp_left Raised.snoc, fun sig hc => (ho.caught sig hc).snoc,
      fun sig hr => (ho.received sig hr).snoc⟩
  cases hstep with
  | @raise sig =>
      refine { hkeep with pending := fun other hp => ?_ }
      by_cases hother : other = sig
      · exact .inl (hother ▸ .last)
      · exact hkeep.pending other (by simpa [Function.update_apply, hother] using hp)
  | start =>
      refine { hkeep with caught := fun sig hc => ?_ }
      cases daemon <;> simp at hc
  | selfSignal hloaded hlistener =>
      refine { hkeep with pending := fun sig _ => .inr ?_ }
      have habsent := mt hs.absent.mpr hlistener
      have hleft := hs.left
      cases daemon <;> simp_all
  | @sigwait sig hwaiting hpending =>
      have hphase : s.phase = 1 := by simp [State.phase, hwaiting]
      have hdown : s.shared.state ≠ true := fun h => by
        have := hs.flag.mp h
        omega
      refine { hkeep with pending := fun other hp => ?_, caught := fun other hc => ?_ }
      · refine hkeep.pending other ?_
        by_cases hother : other = sig <;> simp_all
      · obtain rfl : sig = other := by simpa using hc
        exact (hkeep.pending sig hpending).resolve_right hdown
  | @storeReceived sig hcaught =>
      refine { hkeep with caught := fun other hc => by simp at hc, received := fun other hr => ?_ }
      obtain rfl : sig = other := by simpa using hr
      exact hkeep.caught sig hcaught
  | work hrun hstep => exact ho.of_shared hstep fun _ => id
  | announce hreq hstep => exact ho.of_shared hstep fun _ => id
  | request hstored hstep => exact ho.of_shared hstep fun sig h => by simp at h
  | finish hreq hstep => exact ho.of_shared hstep fun sig h => by simp at h
  | leave | load | join | noJoin | report => exact { hkeep with }

theorem Lifetime.origin (hrun : Lifetime daemon h s) : Origin h s := by
  induction hrun with
  | nil => exact ⟨fun sig h => by simp at h, fun sig h => by simp at h, fun sig h => by simp at h⟩
  | snoc hrun hstep ih => exact ih.step (Lifetime.inv hrun) hstep

/-! ## The progress of the listener -/

/-- The steps of the listener. -/
def Event.ofListener : Event → Bool
  | .sigwait _ | .storeReceived | .announce _ => true
  | _ => false

theorem phase_request {shared : Shutdown.Shared Thread} (hstored : s.listener = .stored)
    (hstep : Shutdown.Step s.shared (.request .listener .signal) shared) :
    State.phase { s with shared, listener := .requesting } = s.phase + 1 := by
  cases hstep
  simp [State.phase, hstored, pcPhase]

theorem phase_finish {shared : Shutdown.Shared Thread} (hreq : s.listener = .requesting)
    (hstep : Shutdown.Step s.shared (.returned .listener) shared) :
    State.phase { s with shared, listener := .finished } = s.phase + 1 := by
  cases hstep with
  | returned hpc => simp [State.phase, hreq, hpc, pcPhase]

/-- Each step of the listener takes it one place further, and nothing takes it
back. -/
theorem phase_step (hs : Inv daemon s) (hstep : Step daemon s e s') :
    s'.phase - 1 = s.phase - 1 + (if e.ofListener then 1 else 0) := by
  cases hstep with
  | start hmain =>
      have habsent : s.listener = .absent := hs.absent.mpr (.inl hmain)
      cases daemon <;> simp [State.phase, habsent, Event.ofListener]
  | work hrun hstep hthread he =>
      obtain ⟨-, -, hpc, -⟩ := of_main_step hstep hthread he hs.calm
      simp [State.phase, hpc, Event.ofListener]
  | sigwait hwaiting => simp [State.phase, hwaiting, Event.ofListener]
  | storeReceived hcaught => simp [State.phase, hcaught, Event.ofListener]
  | request hstored hstep =>
      rw [phase_request hstored hstep]
      simp [State.phase, hstored, Event.ofListener]
  | announce hreq hstep hthread he hpc =>
      have hpos : 4 ≤ s.phase := by
        simpa [State.phase, hreq] using four_le_pcPhase (hs.requesting hreq)
      rw [(hs.announce hreq hstep hthread he hpc).2]
      simp only [Event.ofListener, if_true]
      omega
  | finish hreq hstep =>
      have hpos : 4 ≤ s.phase := by
        simpa [State.phase, hreq] using four_le_pcPhase (hs.requesting hreq)
      rw [phase_finish hreq hstep]
      simp only [Event.ofListener, if_true]
      omega
  | raise | leave | load | selfSignal | join | noJoin | report => rfl

theorem phase_le (s : State) : s.phase ≤ 10 := by
  unfold State.phase
  split <;> try omega
  cases s.shared.pc .listener <;> simp [pcPhase]

theorem phase_eq_ten (s : State) : s.phase = 10 ↔ s.listener = .finished := by
  have hpc : ∀ pc, pcPhase pc ≠ 10 := fun pc => by cases pc <;> simp [pcPhase]
  cases hl : s.listener <;> simp [State.phase, hl, hpc]

/-- The listener has made as many steps as its place says. -/
theorem Lifetime.countP (hrun : Lifetime daemon h s) :
    h.countP (fun x => x.2.ofListener) = s.phase - 1 := by
  induction hrun with
  | nil => rfl
  | snoc hrun hstep ih =>
      rw [List.countP_append, ih, phase_step (Lifetime.inv hrun) hstep]
      simp [List.countP_cons]

/-- A listener in `request` has a step to make, unless `main` holds the mutex. -/
theorem Inv.announces (hs : Inv daemon s) (hreq : s.listener = .requesting)
    (hmain : ¬ (s.shared.pc .main).Holds) : ∃ e s', Step daemon s (.announce e) s' := by
  have hat := hs.requesting hreq
  have hfree : ¬ (s.shared.pc .listener).Holds → s.shared.mutex = none := by
    intro hnot
    refine Option.eq_none_iff_forall_ne_some.mpr fun t ht => ?_
    have hholds := hs.owner t ht
    cases t with
    | main => exact hmain hholds
    | listener => exact hnot hholds
  cases hpc : s.shared.pc .listener with
  | lock r =>
      exact ⟨_, _, .announce hreq (.lock hpc (hfree (by simp [hpc, Pc.Holds]))) rfl rfl (by simp)⟩
  | exchange r =>
      refine ⟨_, _, .announce hreq (.exchange hpc) rfl rfl ?_⟩
      simp only [Shutdown.goto_pc, if_true]
      split <;> simp
  | store r => exact ⟨_, _, .announce hreq (.store hpc) rfl rfl (by simp)⟩
  | unlock => exact ⟨_, _, .announce hreq (.unlock hpc) rfl rfl (by simp)⟩
  | notify => exact ⟨_, _, .announce hreq (.notifyAll hpc) rfl rfl (by simp)⟩
  | requested => exact ⟨_, _, .finish hreq (.returned hpc)⟩
  | _ => simp [hpc, Requesting] at hat

/-! ## What the process says of it -/

def Signal.number : Signal → Nat
  | .sigint => 2
  | .sigterm => 15

def Signal.name : Signal → List UInt8
  | .sigint => lit "SIGINT"
  | .sigterm => lit "SIGTERM"

/-- The environment of a process with this life: what `main` has read of the
signal, and what it will read of the reason. -/
structure Surrounds (env : Environment) (s : State) : Prop where
  signalled : env.signalled = (s.signalled.map Signal.number).getD 0
  reason : env.reason = s.shared.reason

theorem signalLines_of_some {env : Environment} {sig : Signal} (henv : Surrounds env s)
    (hsig : s.signalled = some sig) :
    signalLines env = [(.info, lit "Shutdown requested (signal " ++ sig.name ++ lit ")")] := by
  have hnumber : env.signalled = sig.number := by simp [henv.signalled, hsig]
  cases sig <;> simp [signalLines, hnumber, Signal.number, Signal.name]

/-- **A daemon stops for a signal, and says for which.**  Out of its loop, the
flag is up and one signal has been received, which was raised from outside; the
self-signal of the join is never the one.  The report waits for the listener,
so that the reason is stored by then. -/
theorem daemon_stops (hrun : Lifetime true h s) (hout : s.main ≠ .starting ∧ s.main ≠ .running) :
    s.shared.state = true ∧ ∃ sig, s.received = some sig ∧ Raised h sig ∧
      (s.main = .left ∨ s.signalled = some sig) ∧
      (s.main = .reporting ∨ s.main = .exited → s.listener = .finished ∧
        ∀ env, Surrounds env s → ∀ e, finishLines env e =
          [(.info, lit "Shutdown requested (signal " ++ sig.name ++ lit ")"),
            (.debug, lit "Docker connections closed"), (.info, reportLine e .signal)]) := by
  have hs := hrun.inv
  have hup : s.shared.state = true := by
    simpa [hout] using hs.left rfl
  have hphase : 6 ≤ s.phase := hs.flag.mp hup
  obtain ⟨sig, hsig⟩ := Option.isSome_iff_exists.mp (hs.received.mpr (by omega))
  have hloaded : s.main = .left ∨ s.signalled = some sig := by
    simpa [hout, hsig] using hs.loaded
  refine ⟨hup, sig, hsig, hrun.origin.received sig hsig, hloaded, fun hend => ?_⟩
  have hfinished := hs.joined rfl hend
  have hreason : s.shared.reason = .signal := by
    simp [hs.reason, State.phase, hfinished]
  refine ⟨hfinished, fun env henv e => ?_⟩
  have hsignalled : s.signalled = some sig := hloaded.resolve_left (by grind)
  rw [finishLines, signalLines_of_some henv hsignalled, henv.reason, hreason]
  rfl

/-- `SIGINT` is raised, and taken to the exchange of the flag. -/
theorem exists_exchanged : ∃ h s, Lifetime true h s ∧ Raised h .sigint ∧ s.main = .running ∧
    s.listener = .requesting ∧ s.shared.state = true ∧ s.shared.pc .main = .idle := by
  have hcaught : Lifetime true _ _ :=
    ((Run.nil.snoc (.start rfl)).snoc (@Step.raise _ _ .sigint)).snoc
      (@Step.sigwait _ _ .sigint rfl rfl)
  have hlocked : Lifetime true _ _ :=
    ((hcaught.snoc (.storeReceived rfl)).snoc (.request rfl (.request .signal rfl))).snoc
      (.announce rfl (.lock (t := .listener) rfl rfl) rfl rfl (by decide))
  have hexchanged : Lifetime true _ _ :=
    hlocked.snoc (.announce rfl (.exchange (t := .listener) rfl) rfl rfl (by decide))
  exact ⟨_, _, hexchanged, Raised.last.snoc.snoc.snoc.snoc.snoc, rfl, rfl, rfl, rfl⟩

/-- A daemon stops for `SIGINT`. -/
theorem daemon_stops_sigint : ∃ h s, Lifetime true h s ∧ s.main = .loaded ∧
    ∃ sig, s.received = some sig ∧ Raised h sig ∧ s.signalled = some sig := by
  obtain ⟨h, s, hrun, -, hmain, -, hup, hidle⟩ := exists_exchanged
  have hloaded : Lifetime true _ _ :=
    (hrun.snoc (.leave hmain hidle fun _ => hup)).snoc (.load rfl)
  obtain ⟨-, sig, hsig, hraised, hsignalled, -⟩ := daemon_stops hloaded (by simp)
  exact ⟨_, _, hloaded, rfl, sig, hsig, hraised, hsignalled.resolve_left (by simp)⟩

/-- **The join comes back.**  The listener makes nine steps at most in the whole
life of a process, however many signals are raised, and then it has finished;
while `main` joins, it has finished or has a step to make. -/
theorem join_returns (hrun : Lifetime daemon h s) :
    h.countP (fun x => x.2.ofListener) ≤ 9 ∧
      (h.countP (fun x => x.2.ofListener) = 9 ↔ s.listener = .finished) ∧
      (daemon = true → s.main = .joining →
        s.listener = .finished ∨ ∃ e s', Step daemon s e s' ∧ e.ofListener = true) := by
  have hs := hrun.inv
  have hle := phase_le s
  rw [hrun.countP, ← phase_eq_ten]
  refine ⟨by omega, by omega, fun hdaemon hjoin => ?_⟩
  have hup : s.shared.state = true := by simpa [hjoin] using hs.left hdaemon
  have hphase : 6 ≤ s.phase := hs.flag.mp hup
  cases hl : s.listener with
  | finished => exact .inl ((phase_eq_ten s).mpr hl)
  | requesting =>
      obtain ⟨e, s', hstep⟩ := hs.announces hl (by simp [hs.idle, hjoin, Pc.Holds])
      exact .inr ⟨_, s', hstep, rfl⟩
  | _ => simp [State.phase, hl] at hphase

/-- `main` joins while the listener has still to store the reason. -/
theorem join_returns_exchanged : ∃ h s, Lifetime true h s ∧ s.main = .joining ∧
    ∃ e s', Step true s e s' ∧ e.ofListener = true := by
  obtain ⟨h, s, hrun, -, hmain, hlistener, hup, hidle⟩ := exists_exchanged
  have hjoining : Lifetime true _ _ :=
    ((hrun.snoc (.leave hmain hidle fun _ => hup)).snoc (.load rfl)).snoc
      (.selfSignal rfl (by simp [hlistener]))
  exact ⟨_, _, hjoining, rfl,
    ((join_returns hjoining).2.2 rfl rfl).resolve_left (by simp [hlistener])⟩

/-- A raised signal is pending until the listener takes one. -/
theorem pending_step (hs : Inv daemon s) (hp : ∀ sig, Raised h sig → s.pending sig = true ∨ 2 ≤ s.phase)
    (hstep : Step daemon s e s') (sig : Signal) (hr : Raised (h ++ [(s, e)]) sig) :
    s'.pending sig = true ∨ 2 ≤ s'.phase := by
  have hphase := phase_step hs hstep
  have hkeep (hpending : s'.pending sig = s.pending sig) (hnew : e ≠ .raise sig) :
      s'.pending sig = true ∨ 2 ≤ s'.phase := by
    obtain ⟨s₀, hmem⟩ := hr
    obtain hmem | hmem := List.mem_append.mp hmem
    · rw [hpending]
      exact (hp sig ⟨s₀, hmem⟩).imp_right (by omega)
    · simp only [List.mem_singleton, Prod.mk.injEq] at hmem
      exact absurd hmem.2.symm hnew
  cases hstep with
  | @raise other =>
      by_cases hother : sig = other
      · exact .inl (by simp [hother])
      · exact hkeep (by simp [hother]) (by simpa using Ne.symm hother)
  | selfSignal =>
      by_cases hother : sig = .sigterm
      · exact .inl (by simp [hother])
      · exact hkeep (by simp [hother]) (by simp)
  | sigwait hwaiting => exact .inr (by simp [State.phase])
  | _ => exact hkeep rfl (by simp)

theorem Lifetime.pending (hrun : Lifetime daemon h s) (sig : Signal) (hr : Raised h sig) :
    s.pending sig = true ∨ 2 ≤ s.phase := by
  induction hrun generalizing sig with
  | nil => simp [Raised] at hr
  | snoc hrun hstep ih => exact pending_step (Lifetime.inv hrun) ih hstep sig hr

/-- `main` has a step of its own to make where it holds the mutex. -/
theorem Inv.works (hs : Inv true s) (hholds : (s.shared.pc .main).Holds) :
    ∃ e s', Step true s (.work e) s' ∧ e ≠ .wake .main := by
  have hrun : s.main = .running := by
    by_contra hnot
    simp [hs.idle hnot, Pc.Holds] at hholds
  have hcalm := hs.calm
  cases hpc : s.shared.pc .main with
  | predicate => exact ⟨_, _, .work hrun (.predicate hpc) rfl rfl (by simp), by simp⟩
  | wait => exact ⟨_, _, .work hrun (.block hpc) rfl rfl (by simp), by simp⟩
  | lastCheck => exact ⟨_, _, .work hrun (.lastCheck hpc) rfl rfl (by simp), by simp⟩
  | leave => exact ⟨_, _, .work hrun (.leave hpc) rfl rfl (by simp), by simp⟩
  | _ => simp [hpc, Pc.Holds, Requesting] at hholds hcalm

/-- **No signal is lost on a daemon.**  Once one has been raised, at any time,
and `main` has spawned the listener, the flag is up, or the listener has a step
to make, or `main` has one in its wait, under the mutex. -/
theorem signal_heard (hrun : Lifetime true h s) {sig : Signal} (hr : Raised h sig)
    (hmain : s.main ≠ .starting) :
    s.shared.state = true ∨ (∃ e s', Step true s e s' ∧ e.ofListener = true) ∨
      ((s.shared.pc .main).Holds ∧ ∃ e s', Step true s (.work e) s') := by
  have hs := hrun.inv
  have habsent : s.listener ≠ .absent := mt hs.absent.mp (by simpa using hmain)
  cases hl : s.listener with
  | absent => exact absurd hl habsent
  | waiting =>
      have hpending : s.pending sig = true := by
        simpa [State.phase, hl] using hrun.pending sig hr
      exact .inr (.inl ⟨_, _, .sigwait hl hpending, rfl⟩)
  | caught got => exact .inr (.inl ⟨_, _, .storeReceived hl, rfl⟩)
  | stored =>
      have hidle := hs.listener (by simp [hl])
      exact .inr (.inl ⟨_, _, .request hl (.request .signal hidle), rfl⟩)
  | requesting =>
      by_cases hholds : (s.shared.pc .main).Holds
      · obtain ⟨e, s', hstep, -⟩ := hs.works hholds
        exact .inr (.inr ⟨hholds, e, s', hstep⟩)
      · obtain ⟨e, s', hstep⟩ := hs.announces hl hholds
        exact .inr (.inl ⟨_, s', hstep, rfl⟩)
  | finished => exact .inl (hs.flag.mpr (by simp [State.phase, hl]))

/-- `SIGTERM` is raised while `main` is under the mutex, in its wait. -/
theorem signal_heard_waiting : ∃ h s, Lifetime true h s ∧ Raised h .sigterm ∧
    s.shared.mutex = some .main ∧
    (s.shared.state = true ∨ (∃ e s', Step true s e s' ∧ e.ofListener = true) ∨
      ((s.shared.pc .main).Holds ∧ ∃ e s', Step true s (.work e) s')) := by
  have hrun : Lifetime true _ _ :=
    (((Run.nil.snoc (.start rfl)).snoc
      (.work rfl (.waitForStop (t := .main) 10000 rfl) rfl rfl (by simp))).snoc
      (.work rfl (.acquire (t := .main) rfl rfl) rfl rfl (by simp))).snoc
      (@Step.raise _ _ .sigterm)
  exact ⟨_, _, hrun, .last, rfl, signal_heard hrun .last (by decide)⟩

/-! ## The way out of the wait -/

/-- The steps on the shutdown state, each with the state before it. -/
def sharedHistory (h : List (State × Event)) :
    List (Shutdown.Shared Thread × Shutdown.Event Thread) :=
  h.filterMap fun x =>
    match x.2 with
    | .work e | .announce e => some (x.1.shared, e)
    | _ => none

/-- The shutdown state goes through one of its own interleavings. -/
theorem Lifetime.interleaving (hrun : Lifetime daemon h s) :
    Shutdown.Interleaving (sharedHistory h) s.shared := by
  induction hrun with
  | nil => exact .nil
  | snoc hrun hstep ih =>
      rw [sharedHistory, List.filterMap_append, ← sharedHistory]
      cases hstep with
      | work _ hstep | announce _ hstep | request _ hstep | finish _ hstep => exact ih.snoc hstep
      | _ => simpa using ih

/-- From behind its exchange the listener gets to its `notify_all` by itself. -/
theorem notifies (hreq : s.listener = .requesting) (hat : (s.shared.pc .listener).Announcing) :
    ∃ h' s', Run (Step daemon) s h' s' ∧ h'.length ≤ 3 ∧ (∀ x ∈ h', x.2.ofListener = true) ∧
      s'.shared.waiting = [] := by
  have hnotify {s : State} (hreq : s.listener = .requesting)
      (hpc : s.shared.pc .listener = .notify) :
      ∃ s', Step daemon s (.announce (.notifyAll .listener)) s' ∧ s'.shared.waiting = [] :=
    ⟨_, .announce hreq (.notifyAll hpc) rfl rfl (by simp), rfl⟩
  have hunlock {s : State} (hreq : s.listener = .requesting)
      (hpc : s.shared.pc .listener = .unlock) :
      ∃ s', Step daemon s (.announce (.unlock .listener)) s' ∧ s'.listener = .requesting ∧
        s'.shared.pc .listener = .notify :=
    ⟨_, .announce hreq (.unlock hpc) rfl rfl (by simp), hreq, by simp⟩
  cases hpc : s.shared.pc .listener with
  | store r =>
      obtain ⟨s₁, hstep₁, hreq₁, hpc₁⟩ : ∃ s', Step daemon s (.announce (.store .listener)) s' ∧
          s'.listener = .requesting ∧ s'.shared.pc .listener = .unlock :=
        ⟨_, .announce hreq (.store hpc) rfl rfl (by simp), hreq, by simp⟩
      obtain ⟨s₂, hstep₂, hreq₂, hpc₂⟩ := hunlock hreq₁ hpc₁
      obtain ⟨s₃, hstep₃, hempty⟩ := hnotify hreq₂ hpc₂
      exact ⟨_, s₃, ((Run.nil.snoc hstep₁).snoc hstep₂).snoc hstep₃, by simp,
        by simp [Event.ofListener], hempty⟩
  | unlock =>
      obtain ⟨s₁, hstep₁, hreq₁, hpc₁⟩ := hunlock hreq hpc
      obtain ⟨s₂, hstep₂, hempty⟩ := hnotify hreq₁ hpc₁
      exact ⟨_, s₂, (Run.nil.snoc hstep₁).snoc hstep₂, by simp, by simp [Event.ofListener], hempty⟩
  | notify =>
      obtain ⟨s₁, hstep, hempty⟩ := hnotify hreq hpc
      exact ⟨_, s₁, Run.nil.snoc hstep, by simp, by simp [Event.ofListener], hempty⟩
  | _ => simp [hpc, Pc.Announcing] at hat

/-- The steps `main` has at most left in its wait, once the flag is up. -/
def waitLeft (a : Shutdown.Shared Thread) : Nat :=
  match a.pc .main with
  | .blocked => if .main ∈ a.waiting then 4 else 3
  | .waitLock => 3
  | .predicate | .lastCheck => 2
  | .leave => 1
  | _ => 0

theorem waitLeft_step {a b : Shutdown.Shared Thread} {e : Shutdown.Event Thread}
    (ha : Shutdown.Inv a) (hup : a.state = true) (hstep : Shutdown.Step a e b)
    (hthread : e.thread = .main) (hcalm : ¬ Requesting (a.pc .main)) (hin : a.pc .main ≠ .idle) :
    waitLeft b < waitLeft a := by
  cases hstep with
  | request _ hpc | waitForStop _ hpc | stopRequested hpc | reason hpc =>
      obtain rfl := hthread
      exact absurd hpc hin
  | lock hpc | exchange hpc | store hpc | unlock hpc | notifyAll hpc | returned hpc =>
      obtain rfl := hthread
      simp [hpc, Requesting] at hcalm
  | block hpc =>
      obtain rfl := hthread
      simp [ha.asleep _ hpc] at hup
  | wake hmem =>
      obtain rfl := hthread
      simp [waitLeft, ha.blocked _ hmem, hmem]
  | @reacquire t timedOut hpc hmem =>
      obtain rfl := hthread
      cases timedOut <;> simp [waitLeft, hpc, hmem]
  | acquire hpc | predicate hpc | lastCheck hpc | leave hpc =>
      obtain rfl := hthread
      simp [waitLeft, hpc, hup]

/-- The owner of the mutex has a step of its own to make. -/
theorem Inv.owner_steps (hs : Inv true s) {t : Thread} (ht : s.shared.mutex = some t) :
    (∃ e s', Step true s (.work e) s' ∧ e ≠ .wake .main ∧ s.shared.pc .main ≠ .idle) ∨
      ∃ e s', Step true s (.announce e) s' := by
  have hholds := hs.owner t ht
  cases t with
  | main =>
      obtain ⟨e, s', hstep, hwake⟩ := hs.works hholds
      refine .inl ⟨e, s', hstep, hwake, fun hidle => ?_⟩
      simp [hidle, Pc.Holds] at hholds
  | listener =>
      have hreq : s.listener = .requesting := by
        by_contra hnot
        simp [hs.listener hnot, Pc.Holds] at hholds
      refine .inr (hs.announces hreq fun hmain => ?_)
      simpa using hs.shared.exclusive hmain hholds

/-- The listener owes its `notify_all` to a `main` in the wait set. -/
theorem Lifetime.owes (hrun : Lifetime daemon h s) (hup : s.shared.state = true)
    (hmem : .main ∈ s.shared.waiting) :
    Shutdown.Owes (sharedHistory h) .listener ∧ (s.shared.pc .listener).Announcing ∧
      s.listener = .requesting := by
  have hs := hrun.inv
  obtain ⟨u, howes, hu⟩ :=
    Shutdown.owes_of_waiting hrun.interleaving hup (List.ne_nil_of_mem hmem)
  cases u with
  | main => simp [hs.shared.blocked _ hmem, Pc.Announcing] at hu
  | listener =>
      refine ⟨howes, hu, ?_⟩
      by_contra hnot
      simp [hs.listener hnot, Pc.Announcing] at hu

/-- **A single tick hears no signal.**  There is no listener, so that a signal
raised while it runs stays pending: the flag is down at each of the engine's
guards, and the report says that no stop was requested. -/
theorem single_unheard (hrun : Lifetime false h s) :
    (∀ s₀ result, (s₀, .work (.stopRequested .main result)) ∈ h → result = false) ∧
      (∀ sig, Raised h sig → s.pending sig = true) ∧
      (s.main = .reporting ∨ s.main = .exited → ∀ env, Surrounds env s → ∀ e,
        finishLines env e =
          [(.debug, lit "Docker connections closed"), (.info, reportLine e .notRequested)]) := by
  have hdown {h : List (State × Event)} {s : State} (hrun : Lifetime false h s) :
      s.phase = 0 := by
    simp [State.phase, hrun.inv.absent.mpr (.inr rfl)]
  have hs := hrun.inv
  refine ⟨fun s₀ result hmem => ?_, fun sig hr => ?_, fun hend env henv e => ?_⟩
  · obtain ⟨front, back, rfl⟩ := List.append_of_mem hmem
    obtain ⟨s₁, hfront, hstep, -⟩ := Run.cut hrun
    have hflag := (Lifetime.inv hfront).flag
    rw [hdown hfront] at hflag
    cases hstep with
    | work hmain hwork =>
        rw [(Shutdown.stopRequested_step hwork).2]
        simpa using hflag
  · simpa [hdown hrun] using hrun.pending sig hr
  · have hreceived : s.received = none := by
      simpa [hdown hrun] using hs.received
    have hsignalled : s.signalled = none := by
      have hloaded := hs.loaded
      grind
    have hreason : s.shared.reason = .notRequested := by
      simpa [hdown hrun] using hs.reason
    rw [finishLines, henv.reason, hreason]
    simp [signalLines, henv.signalled, hsignalled]

/-- `SIGINT` is raised in front of a guard, and the tick goes on to its end. -/
theorem single_unheard_sigint : ∃ h s, Lifetime false h s ∧ s.main = .reporting ∧
    Raised h .sigint ∧ s.pending .sigint = true := by
  have hguard : Lifetime false _ _ :=
    ((Run.nil.snoc (.start rfl)).snoc (@Step.raise _ _ .sigint)).snoc
      (.work rfl (.stopRequested (t := .main) rfl) rfl rfl fun _ => ⟨_, rfl⟩)
  have hreporting : Lifetime false _ _ :=
    ((hguard.snoc (.leave rfl rfl (by decide))).snoc (.load rfl)).snoc (.noJoin rfl rfl)
  exact ⟨_, _, hreporting, rfl, Raised.last.snoc.snoc.snoc.snoc,
    (single_unheard hreporting).2.1 .sigint Raised.last.snoc.snoc.snoc.snoc⟩

end Lifecycle

end ChaosForger
