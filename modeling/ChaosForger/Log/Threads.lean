import ChaosForger.Log
import ChaosForger.Transitions
import Mathlib.Logic.Function.Basic

/-!
# ChaosForger.Log.Threads

The logging backend between threads: any number of them in `log_line` and in
`set_log_level`, over one atomic level and one mutex.

The filter, the clock, the mutex and each piece of a write are steps of their
own, so that a thread may be overtaken between any two of them.  The streams
are those of one thread that logs the lines in the order of the locks
(`threads_log_whole_lines`).
-/

namespace ChaosForger

open Libc Transitions

namespace LogThreads

/-- Where a thread stands in `log_line`. -/
inductive Pc where
  | idle
  /-- past the level filter -/
  | passed (lvl : LogLevel) (msg : List UInt8)
  /-- in front of the mutex, with the line's time -/
  | stamped (tm : Tm) (lvl : LogLevel) (msg : List UInt8)
  /-- under the mutex, with these bytes to write -/
  | writing (lvl : LogLevel) (rest : List UInt8)

/-- The level and the streams, `log_mutex`, and where each thread stands. -/
structure Shared (T : Type u) extends Logger where
  mutex : Option T := none
  pc : T → Pc := fun _ => .idle

inductive Event (T : Type u) where
  | setLevel (t : T) (lvl : LogLevel)
  | call (t : T) (lvl : LogLevel) (msg : List UInt8) (passes : Bool)
  | stamp (t : T) (tm : Tm)
  | lock (t : T) (tm : Tm) (lvl : LogLevel) (msg : List UInt8)
  | write (t : T) (bytes : List UInt8)
  | unlock (t : T)

variable {T : Type u} [DecidableEq T]

def Shared.goto (s : Shared T) (t : T) (pc : Pc) : Shared T :=
  { s with pc := Function.update s.pc t pc }

/-- Bytes for the stream of a level. -/
def Shared.put (s : Shared T) (lvl : LogLevel) (bytes : List UInt8) : Shared T :=
  if lvl.goesToStderr then { s with stderr := s.stderr ++ bytes }
  else { s with stdout := s.stdout ++ bytes }

inductive Step : Shared T → Event T → Shared T → Prop where
  | setLevel {s t} (lvl) : s.pc t = .idle →
      Step s (.setLevel t lvl) { s with toLogger := s.toLogger.setLogLevel lvl }
  | filtered {s t lvl} (msg) : s.pc t = .idle → lvl.value < s.level.value →
      Step s (.call t lvl msg false) s
  | call {s t lvl} (msg) : s.pc t = .idle → ¬ lvl.value < s.level.value →
      Step s (.call t lvl msg true) (s.goto t (.passed lvl msg))
  | stamp {s t lvl msg} (tm) : s.pc t = .passed lvl msg →
      Step s (.stamp t tm) (s.goto t (.stamped tm lvl msg))
  | lock {s t tm lvl msg} : s.pc t = .stamped tm lvl msg → s.mutex = none →
      Step s (.lock t tm lvl msg)
        { s.goto t (.writing lvl (logText tm lvl msg ++ [10])) with mutex := some t }
  /-- `fprintf` and `fflush`, as far as they come at once. -/
  | write {s t lvl bytes rest} : s.pc t = .writing lvl (bytes ++ rest) →
      Step s (.write t bytes) ((s.goto t (.writing lvl rest)).put lvl bytes)
  | unlock {s t lvl} : s.pc t = .writing lvl [] →
      Step s (.unlock t) { s.goto t .idle with mutex := none }

/-- The lines, in the order of the locks. -/
def Event.line : Event T → Option LogCall
  | .lock _ tm lvl msg => some (.line tm lvl msg)
  | _ => none

/-- The message of a line. -/
def Event.message : Event T → Option (LogLevel × List UInt8)
  | .lock _ _ lvl msg => some (lvl, msg)
  | _ => none

/-- The message a thread takes the mutex for. -/
def Event.locked (t : T) : Event T → Option (LogLevel × List UInt8)
  | .lock u _ lvl msg => if u = t then some (lvl, msg) else none
  | _ => none

/-- The message a thread gets past the filter. -/
def Event.passes (t : T) : Event T → Option (LogLevel × List UInt8)
  | .call u lvl msg true => if u = t then some (lvl, msg) else none
  | _ => none

def lines (h : List (Shared T × Event T)) : List LogCall := h.filterMap fun x => x.2.line

/-- The messages, in the order of the locks. -/
def messages (h : List (Shared T × Event T)) : List (LogLevel × List UInt8) :=
  h.filterMap fun x => x.2.message

def lockedBy (t : T) (h : List (Shared T × Event T)) : List (LogLevel × List UInt8) :=
  h.filterMap fun x => x.2.locked t

def passedBy (t : T) (h : List (Shared T × Event T)) : List (LogLevel × List UInt8) :=
  h.filterMap fun x => x.2.passes t

/-- The histories and the last states of all interleavings. -/
def Interleaving (level : LogLevel) (h : List (Shared T × Event T)) (s : Shared T) : Prop :=
  Run Step { level } h s

variable {s s' : Shared T} {e : Event T} {h : List (Shared T × Event T)} {level : LogLevel}

@[simp] theorem goto_pc (t u : T) (pc : Pc) :
    (s.goto t pc).pc u = if u = t then pc else s.pc u := by
  simp [Shared.goto, Function.update_apply]

@[simp] theorem goto_mutex (t : T) (pc : Pc) : (s.goto t pc).mutex = s.mutex := rfl

@[simp] theorem goto_toLogger (t : T) (pc : Pc) : (s.goto t pc).toLogger = s.toLogger := rfl

omit [DecidableEq T] in
@[simp] theorem put_pc (lvl : LogLevel) (bytes : List UInt8) : (s.put lvl bytes).pc = s.pc := by
  unfold Shared.put
  split <;> rfl

omit [DecidableEq T] in
@[simp] theorem put_mutex (lvl : LogLevel) (bytes : List UInt8) :
    (s.put lvl bytes).mutex = s.mutex := by
  unfold Shared.put
  split <;> rfl

/-! ## The mutex -/

/-- The program points where a thread owns the mutex. -/
def Pc.Holds : Pc → Prop
  | .writing _ _ => True
  | _ => False

/-- The owner of the mutex is the one thread that writes. -/
def Excludes (s : Shared T) : Prop := ∀ t, s.mutex = some t ↔ (s.pc t).Holds

theorem Excludes.step (hs : Excludes s) (hstep : Step s e s') : Excludes s' := by
  intro u
  cases hstep with
  | setLevel | filtered => exact hs u
  | call | stamp | lock | write | unlock =>
      simp only [goto_pc, goto_mutex, put_pc, put_mutex]
      grind [Excludes, Pc.Holds]

/-! ## The streams -/

/-- One of the two streams. -/
def stream (g : Logger) (toStderr : Bool) : List UInt8 := if toStderr then g.stderr else g.stdout

/-- What a thread has still to write on it. -/
def Pc.unwritten (toStderr : Bool) : Pc → List UInt8
  | .writing lvl rest => if lvl.goesToStderr = toStderr then rest else []
  | _ => []

/-- What is missing of the line of the mutex's owner. -/
def Shared.unwritten (s : Shared T) (toStderr : Bool) : List UInt8 :=
  match s.mutex with
  | none => []
  | some t => (s.pc t).unwritten toStderr

omit [DecidableEq T] in
theorem stream_put (lvl : LogLevel) (bytes : List UInt8) (b : Bool) :
    stream (s.put lvl bytes).toLogger b =
      stream s.toLogger b ++ if lvl.goesToStderr = b then bytes else [] := by
  unfold Shared.put stream
  cases b <;> cases lvl.goesToStderr <;> simp

theorem stream_logLine {g : Logger} (hg : g.level = .debug) (tm : Tm) (lvl : LogLevel)
    (msg : List UInt8) (b : Bool) :
    stream (g.logLine tm lvl msg) b =
      stream g b ++ if lvl.goesToStderr = b then logText tm lvl msg ++ [10] else [] := by
  have hpass : ¬ lvl.value < g.level.value := by simp [hg, LogLevel.value]
  rw [Logger.logLine, if_neg hpass]
  unfold stream
  cases b <;> cases lvl.goesToStderr <;> simp

/-- A thread without the mutex leaves what is to be written. -/
theorem unwritten_goto {t : T} {pc : Pc} (ht : s.mutex ≠ some t) (b : Bool) :
    (s.goto t pc).unwritten b = s.unwritten b := by
  unfold Shared.unwritten
  rw [goto_mutex]
  cases h : s.mutex with
  | none => rfl
  | some u =>
      have hu : u ≠ t := fun hut => ht (hut ▸ h)
      simp [hu]

omit [DecidableEq T] in
theorem unwritten_of_owner {t : T} (ht : s.mutex = some t) (b : Bool) :
    s.unwritten b = (s.pc t).unwritten b := by
  rw [Shared.unwritten, ht]

/-- One thread that logs these lines, at the lowest level. -/
def sequential (h : List (Shared T × Event T)) : Logger := ({ level := .debug } : Logger).run (lines h)

omit [DecidableEq T] in
theorem sequential_snoc (h : List (Shared T × Event T)) (s : Shared T) (e : Event T) :
    sequential (h ++ [(s, e)]) = (e.line.toList).foldl Logger.step (sequential h) := by
  unfold sequential lines Logger.run
  rw [List.filterMap_append, List.foldl_append]
  cases h' : e.line <;> simp [h']

/-- The streams are behind those of one thread by what the owner of the mutex
has still to write. -/
structure Follows (h : List (Shared T × Event T)) (s : Shared T) : Prop where
  level : (sequential h).level = .debug
  stream : ∀ b, stream (sequential h) b = LogThreads.stream s.toLogger b ++ s.unwritten b

theorem Follows.step (hf : Follows h s) (hs : Excludes s) (hstep : Step s e s') :
    Follows (h ++ [(s, e)]) s' := by
  obtain ⟨hlevel, hstream⟩ := hf
  have hsame (hline : e.line = none) : sequential (h ++ [(s, e)]) = sequential h := by
    simp [sequential_snoc, hline]
  cases hstep with
  | setLevel | filtered =>
      rw [← hsame rfl] at hlevel hstream
      exact ⟨hlevel, hstream⟩
  | @call t lvl msg hpc | @stamp t lvl msg tm hpc =>
      have ht : s.mutex ≠ some t := fun hmutex => by
        simpa [hpc, Pc.Holds] using (hs t).mp hmutex
      refine ⟨by rwa [hsame rfl], fun b => ?_⟩
      rw [hsame rfl, hstream, unwritten_goto ht, goto_toLogger]
  | @lock t tm lvl msg hpc hfree =>
      have hlogged : sequential (h ++ [(s, .lock t tm lvl msg)]) =
          (sequential h).logLine tm lvl msg := by
        rw [sequential_snoc]
        rfl
      refine ⟨by rw [hlogged, logLine_level, hlevel], fun b => ?_⟩
      have hnone : s.unwritten b = [] := by rw [Shared.unwritten, hfree]
      rw [hlogged, stream_logLine hlevel, hstream, hnone, List.append_nil, unwritten_of_owner rfl]
      simp [Pc.unwritten]
  | @write t lvl bytes rest hpc =>
      have hmutex : s.mutex = some t := (hs t).mpr (by simp [hpc, Pc.Holds])
      refine ⟨by rwa [hsame rfl], fun b => ?_⟩
      rw [hsame rfl, hstream, unwritten_of_owner hmutex, stream_put,
        unwritten_of_owner (t := t) (by simpa using hmutex)]
      cases hb : decide (lvl.goesToStderr = b) <;> simp_all [Pc.unwritten]
  | @unlock t lvl hpc =>
      have hmutex : s.mutex = some t := (hs t).mpr (by simp [hpc, Pc.Holds])
      refine ⟨by rwa [hsame rfl], fun b => ?_⟩
      rw [hsame rfl, hstream, unwritten_of_owner hmutex]
      simp [hpc, Pc.unwritten, Shared.unwritten]

/-! ## The messages -/

omit [DecidableEq T] in
/-- At the lowest level every line passes. -/
theorem admitted_lines (h : List (Shared T × Event T)) : admitted .debug (lines h) = messages h := by
  induction h with
  | nil => rfl
  | cons x h ih =>
      obtain ⟨s, e⟩ := x
      cases e with
      | lock t tm lvl msg =>
          have hpass : ¬ lvl.value < LogLevel.debug.value := Nat.not_lt_zero _
          show admitted .debug (.line tm lvl msg :: lines h) = (lvl, msg) :: messages h
          rw [admitted, if_neg hpass, ih]
      | _ => exact ih

/-- The message a thread has past the filter and not yet in a line. -/
def Pc.coming : Pc → List (LogLevel × List UInt8)
  | .passed lvl msg | .stamped _ lvl msg => [(lvl, msg)]
  | _ => []

theorem lockedBy_snoc (t : T) (h : List (Shared T × Event T)) (s : Shared T) (e : Event T) :
    lockedBy t (h ++ [(s, e)]) = lockedBy t h ++ (e.locked t).toList := by
  cases h' : e.locked t <;> simp [lockedBy, h']

theorem passedBy_snoc (t : T) (h : List (Shared T × Event T)) (s : Shared T) (e : Event T) :
    passedBy t (h ++ [(s, e)]) = passedBy t h ++ (e.passes t).toList := by
  cases h' : e.passes t <;> simp [passedBy, h']

/-- A thread's lines are its messages that passed, short of the one that is
coming. -/
theorem coming_step {t : T} (ht : passedBy t h = lockedBy t h ++ (s.pc t).coming)
    (hstep : Step s e s') :
    passedBy t (h ++ [(s, e)]) = lockedBy t (h ++ [(s, e)]) ++ (s'.pc t).coming := by
  rw [passedBy_snoc, lockedBy_snoc, ht]
  cases hstep with
  | setLevel | filtered => simp [Event.passes, Event.locked]
  | @call u lvl msg hpc | @stamp u lvl msg tm hpc | @lock u tm lvl msg hpc | @write u lvl bytes rest hpc
  | @unlock u lvl hpc =>
      by_cases hu : u = t
      · subst hu
        simp [hpc, Event.passes, Event.locked, Pc.coming]
      · simp [hu, Ne.symm hu, Event.passes, Event.locked]

/-! ## The log -/

theorem Interleaving.inv (hrun : Interleaving level h s) :
    Excludes s ∧ Follows h s ∧ ∀ t, passedBy t h = lockedBy t h ++ (s.pc t).coming := by
  induction hrun with
  | nil =>
      have hnone (b : Bool) : ({ level } : Shared T).unwritten b = [] := rfl
      exact ⟨fun t => by simp [Pc.Holds], ⟨rfl, fun b => by cases b <;> rfl⟩, fun t => rfl⟩
  | snoc hrun hstep ih =>
      obtain ⟨hs, hf, hcoming⟩ := ih
      exact ⟨hs.step hstep, hf.step hs hstep, fun t => coming_step (hcoming t) hstep⟩

/-- **Threads log whole lines.**  However the threads overtake each other, the
streams are the front of what one thread writes that logs the lines in the order
of the locks, and all of it while the mutex is free; then they are whole lines,
one for each of these messages; and each thread's messages are the ones that
passed the filter, in its order, none lost and none twice. -/
theorem threads_log_whole_lines (hrun : Interleaving level h s) :
    s.stdout <+: (sequential h).stdout ∧ s.stderr <+: (sequential h).stderr ∧
      (s.mutex = none →
        s.stdout = (sequential h).stdout ∧ s.stderr = (sequential h).stderr ∧
          Records s.stdout ((messages h).filter fun m => !m.1.goesToStderr) ∧
          Records s.stderr ((messages h).filter fun m => m.1.goesToStderr)) ∧
      ∀ t, lockedBy t h <+: passedBy t h ∧ (s.pc t = .idle → lockedBy t h = passedBy t h) := by
  obtain ⟨-, ⟨-, hstream⟩, hcoming⟩ := hrun.inv
  have hout : (sequential h).stdout = s.stdout ++ s.unwritten false := hstream false
  have herr : (sequential h).stderr = s.stderr ++ s.unwritten true := hstream true
  refine ⟨⟨_, hout.symm⟩, ⟨_, herr.symm⟩, fun hfree => ?_, fun t => ⟨⟨_, (hcoming t).symm⟩, fun hidle => ?_⟩⟩
  · have hnone (b : Bool) : s.unwritten b = [] := by rw [Shared.unwritten, hfree]
    have hread := appends_run { level := .debug } (lines h)
    rw [admitted_lines] at hread
    rw [hnone, List.append_nil] at hout herr
    rw [← hout, ← herr]
    exact ⟨rfl, rfl, records_of_appends hread⟩
  · rw [hcoming t, hidle]
    exact (List.append_nil _).symm

/-- Two threads: the line of the second is complete before the first one has
the mutex. -/
theorem threads_log_whole_lines_two : ∃ h, ∃ s : Shared Bool, Interleaving .info h s ∧
    s.mutex = none ∧ passedBy false h = [(.info, lit "a")] ∧ lockedBy false h = [] ∧
    s.stderr = (sequential h).stderr ∧
    Records s.stderr ((messages h).filter fun m => m.1.goesToStderr) := by
  let text := logText ⟨2025, 1, 2, 3, 4, 5⟩ .warn (lit "b")
  have hstamped : Interleaving .info _ _ :=
    ((Run.nil.snoc (@Step.call Bool _ { level := .info } false .info (lit "a") rfl (by decide))).snoc
      (@Step.call _ _ _ true .warn (lit "b") rfl (by decide))).snoc
      (.stamp (t := true) ⟨2025, 1, 2, 3, 4, 5⟩ rfl)
  have hwritten : Interleaving .info _ _ :=
    ((hstamped.snoc (.lock (t := true) rfl rfl)).snoc
      (@Step.write _ _ _ true .warn text [10] rfl)).snoc (@Step.write _ _ _ true .warn [10] [] rfl)
  have hlogged : Interleaving .info _ _ := hwritten.snoc (.unlock (t := true) rfl)
  obtain ⟨-, herr, -, hread⟩ := (threads_log_whole_lines hlogged).2.2.1 rfl
  exact ⟨_, _, hlogged, rfl, rfl, rfl, herr, hread⟩

end LogThreads

end ChaosForger
