import Mathlib.Data.Int.ConditionallyCompleteOrder
import ChaosForger.Engine.Strikes
import ChaosForger.Pacing

/-!
# ChaosForger.Scheduler

The daemon loop: a tick when one is due, otherwise a wait until the next one
or shutdown.  The clock, the shutdown flag and the environment of the ticks
are the surroundings of the loop; the clock is a monotone sequence of readings
in nanoseconds, so that ticks and waits take whatever time lies between two
readings.  The wait itself is only recorded, with the timeout it is given.

The tick times are `Paced`; a round is described once (`round_cases`), and the
invariant of the loop (`Inv`) follows from that.
-/

namespace ChaosForger

/-- An elementary step of the scheduler. -/
inductive SchedulerEvent where
  /-- A check of the shutdown flag, with the answer it got. -/
  | check (requested : Bool)
  /-- A tick, with the clock reading that admitted it. -/
  | tick (now : Int)
  /-- A wait before `nextTick`, with the reading it is computed from. -/
  | wait (nextTick now timeoutMs : Int)
  deriving DecidableEq, Repr

/-- What surrounds the loop: the clock by the number of the reading, the
answers of `shutting_down` by the number of the check, and what the ticks
find. -/
structure Surroundings where
  clock : Nat → Int
  shuttingDown : Nat → Bool
  stop : Nat → Bool
  input : Nat → TickInput

structure Scheduler where
  engine : ChaosEngine
  nextTick : Int := 0
  /-- clock readings so far -/
  reads : Nat := 0
  checks : Nat := 0
  /-- still in the loop -/
  running : Bool := true
  trace : List SchedulerEvent := []

namespace Scheduler

/-- `std::chrono::seconds`, on a clock that counts nanoseconds. -/
def seconds (n : Int) : Int := n * 10 ^ 9

/-- `duration_cast<milliseconds>` rounds towards zero. -/
def milliseconds (d : Int) : Int := d.tdiv (10 ^ 6)

/-- `static_cast<int>`, modulo `2 ^ 32`. -/
def toInt (n : Int) : Int := n.bmod (2 ^ 32)

/-- The readings that admitted the ticks. -/
def admitted (trace : List SchedulerEvent) : List Int :=
  trace.filterMap fun
    | .tick now => some now
    | _ => none

def emit (s : Scheduler) (event : SchedulerEvent) : Scheduler :=
  { s with trace := s.trace ++ [event] }

/-- Read the clock. -/
def now (env : Surroundings) (s : Scheduler) : Int × Scheduler :=
  (env.clock s.reads, { s with reads := s.reads + 1 })

/-- Read the shutdown flag. -/
def shuttingDown (env : Surroundings) (s : Scheduler) : Bool × Scheduler :=
  (env.shuttingDown s.checks,
    { s with checks := s.checks + 1 }.emit (.check (env.shuttingDown s.checks)))

def tick (env : Surroundings) (now : Int) (s : Scheduler) : Scheduler :=
  { s with engine := (s.engine.tick env.stop (env.input (admitted s.trace).length)).1 }.emit
    (.tick now)

/-- The start of `run_until_shutdown`. -/
def start (env : Surroundings) (engine : ChaosEngine) : Scheduler :=
  let (requested, s) := shuttingDown env { engine }
  if requested then { s with running := false }
  else
    let (now, s) := s.now env
    { s with nextTick := now }

/-- One round of its loop. -/
def round (env : Surroundings) (cfg : Config) (s : Scheduler) : Scheduler :=
  if ¬ s.running then s
  else
    let (requested, s) := s.shuttingDown env
    if requested then { s with running := false }
    else
      let (now, s) := s.now env
      if s.nextTick ≤ now then
        let s := s.tick env now
        let s := { s with nextTick := s.nextTick + seconds cfg.intervalSeconds }
        let (now, s) := s.now env
        if s.nextTick ≤ now then
          -- we stalled: reset rather than burst
          let (now, s) := s.now env
          { s with nextTick := now }
        else s
      else
        let (now, s) := s.now env
        s.emit (.wait s.nextTick now (toInt (milliseconds (s.nextTick - now))))

/-- The daemon after `n` rounds. -/
def runUntilShutdown (env : Surroundings) (engine : ChaosEngine) (cfg : Config) : Nat → Scheduler
  | 0 => start env engine
  | n + 1 => round env cfg (runUntilShutdown env engine cfg n)

/-! ## One round -/

section Rounds

variable (env : Surroundings) (cfg : Config)

/-- What a round can do. -/
inductive Rounded (s : Scheduler) : Scheduler → Prop
  | stopped : s.running = false → Rounded s s
  | halts : s.running = true → env.shuttingDown s.checks = true →
      Rounded s { s with
        checks := s.checks + 1
        running := false
        trace := s.trace ++ [.check true] }
  | ticks : s.running = true → env.shuttingDown s.checks = false →
      s.nextTick ≤ env.clock s.reads →
      env.clock (s.reads + 1) < s.nextTick + seconds cfg.intervalSeconds →
      Rounded s { s with
        engine := (s.engine.tick env.stop (env.input (admitted s.trace).length)).1
        nextTick := s.nextTick + seconds cfg.intervalSeconds
        reads := s.reads + 2
        checks := s.checks + 1
        trace := s.trace ++ [.check false] ++ [.tick (env.clock s.reads)] }
  | resets : s.running = true → env.shuttingDown s.checks = false →
      s.nextTick ≤ env.clock s.reads →
      s.nextTick + seconds cfg.intervalSeconds ≤ env.clock (s.reads + 1) →
      Rounded s { s with
        engine := (s.engine.tick env.stop (env.input (admitted s.trace).length)).1
        nextTick := env.clock (s.reads + 2)
        reads := s.reads + 3
        checks := s.checks + 1
        trace := s.trace ++ [.check false] ++ [.tick (env.clock s.reads)] }
  | waits : s.running = true → env.shuttingDown s.checks = false →
      env.clock s.reads < s.nextTick →
      Rounded s { s with
        reads := s.reads + 2
        checks := s.checks + 1
        trace := s.trace ++ [.check false] ++ [.wait s.nextTick (env.clock (s.reads + 1))
          (toInt (milliseconds (s.nextTick - env.clock (s.reads + 1))))] }

theorem admitted_append (trace trace' : List SchedulerEvent) :
    admitted (trace ++ trace') = admitted trace ++ admitted trace' := List.filterMap_append

theorem admitted_check (trace : List SchedulerEvent) (requested : Bool) :
    admitted (trace ++ [.check requested]) = admitted trace := by
  rw [admitted_append]
  exact List.append_nil _

theorem rounded_round (s : Scheduler) : Rounded env cfg s (round env cfg s) := by
  unfold round
  split
  · next hrun => exact .stopped (by simpa using hrun)
  · next hrun =>
      rw [not_not] at hrun
      dsimp only [shuttingDown, emit]
      split
      · next hstop =>
          rw [hstop]
          exact .halts hrun hstop
      · next hstop =>
          rw [Bool.not_eq_true] at hstop
          rw [hstop]
          split
          · next hdue =>
              split
              · next hstall =>
                  simp only [now, tick, emit, admitted_check]
                  exact .resets hrun hstop hdue hstall
              · next hstall =>
                  simp only [now, tick, emit, admitted_check]
                  exact .ticks hrun hstop hdue (Int.not_le.mp hstall)
          · next hearly => exact .waits hrun hstop (Int.not_le.mp hearly)

end Rounds

/-! ## The invariant -/

/-- What holds of the loop at any time; `interval` is in nanoseconds. -/
structure Inv (env : Surroundings) (interval : Int) (s : Scheduler) : Prop where
  paced : ∃ next, Paced (env.clock 0) interval (admitted s.trace) next ∧
    (s.running = true → next = s.nextTick)
  /-- the next tick is never further away than an interval -/
  near : s.running = true → ∀ i, s.reads ≤ i → s.nextTick ≤ env.clock i + interval
  waits : ∀ next now ms, .wait next now ms ∈ s.trace →
    next - now ≤ interval ∧ ms = toInt (milliseconds (next - now))
  unasked : s.running = true → .check true ∉ s.trace
  last : ∀ pre post, s.trace = pre ++ .check true :: post → post = []

/-- Whatever comes next on a trace without shutdown comes last. -/
theorem last_concat {trace : List SchedulerEvent} (h : .check true ∉ trace) (e : SchedulerEvent) :
    ∀ pre post, trace ++ [e] = pre ++ .check true :: post → post = [] := by
  intro pre post heq
  rcases List.eq_nil_or_concat post with rfl | ⟨init, x, rfl⟩
  · rfl
  · have hassoc : pre ++ .check true :: (init ++ [x]) = (pre ++ .check true :: init) ++ [x] := by
      simp
    rw [List.concat_eq_append, hassoc] at heq
    have htrace := (List.append_inj' heq rfl).1
    exact absurd (by simp [htrace]) h

theorem last_of_not_mem {trace : List SchedulerEvent} (h : .check true ∉ trace) :
    ∀ pre post, trace = pre ++ .check true :: post → post = [] := by
  intro pre post heq
  exact absurd (by simp [heq]) h

theorem inv_start (env : Surroundings) (engine : ChaosEngine) {interval : Int}
    (hclock : Monotone env.clock) (hpos : 0 < interval) : Inv env interval (start env engine) := by
  unfold start
  dsimp only [shuttingDown, emit]
  split
  · next hstop =>
      refine ⟨⟨_, .start, by simp⟩, by simp, by simp, by simp, ?_⟩
      exact @last_concat [] (by simp) _
  · next hstop =>
      rw [Bool.not_eq_true] at hstop
      refine ⟨⟨_, .start, fun _ => rfl⟩, fun _ i hi => ?_, by simp [now], by simp [now, hstop], ?_⟩
      · have hle := hclock (Nat.zero_le i)
        simp only [now]
        omega
      · exact last_of_not_mem (by simp [now, hstop])

/-- A tick keeps the pace, whether the next one is scheduled or the schedule is
reset. -/
theorem Inv.tick {env : Surroundings} {interval : Int} {s s' : Scheduler}
    (h : Inv env interval s) (hrun : s.running = true)
    (hdue : s.nextTick ≤ env.clock s.reads)
    (htrace : s'.trace = s.trace ++ [.check false] ++ [.tick (env.clock s.reads)])
    (hmove : s.nextTick + interval ≤ s'.nextTick)
    (hpast : env.clock s.reads ≤ s'.nextTick)
    (hnear : ∀ i, s'.reads ≤ i → s'.nextTick ≤ env.clock i + interval) :
    Inv env interval s' := by
  obtain ⟨⟨next, hpaced, hnext⟩, -, hwaits, hunasked, hlast⟩ := h
  obtain rfl := hnext hrun
  have hnot := hunasked hrun
  have hadmitted : admitted s'.trace = admitted s.trace ++ [env.clock s.reads] := by
    rw [htrace, admitted_append, admitted_check]
    rfl
  refine ⟨⟨s'.nextTick, ?_, fun _ => rfl⟩, fun _ => hnear, ?_, ?_, ?_⟩
  · rw [hadmitted]
    exact hpaced.admission hdue hmove hpast
  · simpa [htrace] using hwaits
  · simp [htrace, hnot]
  · exact last_of_not_mem (by simp [htrace, hnot])

section Step

variable {env : Surroundings} {cfg : Config} {s s' : Scheduler} (hclock : Monotone env.clock)
  (hpos : 0 < seconds cfg.intervalSeconds)
include hclock hpos

/-- **Every round keeps the invariant.** -/
theorem Inv.rounded (h : Inv env (seconds cfg.intervalSeconds) s)
    (hr : Rounded env cfg s s') : Inv env (seconds cfg.intervalSeconds) s' := by
  cases hr with
  | stopped hrun => exact h
  | halts hrun hstop =>
      obtain ⟨⟨next, hpaced, hnext⟩, -, hwaits, hunasked, -⟩ := h
      refine ⟨⟨next, ?_, by simp⟩, by simp, by simpa using hwaits, by simp, ?_⟩
      · rw [admitted_check]
        exact hpaced
      · exact last_concat (hunasked hrun) _
  | ticks hrun hstop hdue hintime =>
      refine h.tick hrun hdue rfl le_rfl ?_ fun i hi => ?_
      · have hle : env.clock s.reads ≤ env.clock (s.reads + 1) := hclock (Nat.le_succ _)
        show env.clock s.reads ≤ s.nextTick + seconds cfg.intervalSeconds
        omega
      · have hle : env.clock s.reads ≤ env.clock i := hclock ((Nat.le_add_right _ 2).trans hi)
        show s.nextTick + seconds cfg.intervalSeconds ≤ env.clock i + seconds cfg.intervalSeconds
        omega
  | resets hrun hstop hdue hstall =>
      have hle : env.clock (s.reads + 1) ≤ env.clock (s.reads + 2) := hclock (Nat.le_succ _)
      have hle' : env.clock s.reads ≤ env.clock (s.reads + 1) := hclock (Nat.le_succ _)
      refine h.tick hrun hdue rfl ?_ ?_ fun i hi => ?_
      · show s.nextTick + seconds cfg.intervalSeconds ≤ env.clock (s.reads + 2)
        omega
      · show env.clock s.reads ≤ env.clock (s.reads + 2)
        omega
      · have hlast : env.clock (s.reads + 2) ≤ env.clock i := hclock ((Nat.le_succ _).trans hi)
        show env.clock (s.reads + 2) ≤ env.clock i + seconds cfg.intervalSeconds
        omega
  | waits hrun hstop hearly =>
      obtain ⟨⟨next, hpaced, hnext⟩, hnear, hwaits, hunasked, -⟩ := h
      have hnot := hunasked hrun
      have hclose := hnear hrun (s.reads + 1) (Nat.le_succ _)
      refine ⟨⟨next, ?_, hnext⟩, fun _ i hi => hnear hrun i ((Nat.le_add_right _ 2).trans hi), ?_, ?_, ?_⟩
      · rw [admitted_append, admitted_check]
        exact (List.append_nil _).symm ▸ hpaced
      · intro n m ms hmem
        simp only [List.append_assoc, List.mem_append, List.mem_singleton, reduceCtorEq,
          false_or] at hmem
        rcases hmem with hmem | hmem
        · exact hwaits n m ms hmem
        · obtain ⟨rfl, rfl, rfl⟩ := SchedulerEvent.wait.inj hmem
          exact ⟨by omega, rfl⟩
      · simp [hnot]
      · exact last_of_not_mem (by simp [hnot])

theorem inv_runUntilShutdown (engine : ChaosEngine) (n : Nat) :
    Inv env (seconds cfg.intervalSeconds) (runUntilShutdown env engine cfg n) := by
  induction n with
  | zero => exact inv_start env engine hclock hpos
  | succ n ih => exact ih.rounded hclock hpos (rounded_round env cfg _)

end Step

/-! ## Pace and timeouts -/

/-- The daemon keeps its pace: tick `k` comes after `k` intervals and any two
ticks in a row span one, waits are never longer than an interval and their
timeout is the rounded time to the next tick, and nothing happens after a
check that saw shutdown. -/
structure NeverBursts (t₀ interval : Int) (trace : List SchedulerEvent) : Prop where
  spacing : ∀ (k : Nat) a, (admitted trace)[k]? = some a → t₀ + k * interval ≤ a
  count : ∀ t, t₀ ≤ t → ((admitted trace).countP (· ≤ t) : Int) ≤ (t - t₀) / interval + 1
  catchUp : ∀ (k : Nat) a b, (admitted trace)[k]? = some a → (admitted trace)[k + 2]? = some b →
    a + interval ≤ b
  waits : ∀ next now ms, .wait next now ms ∈ trace → next - now ≤ interval
  timeouts : ∀ next now ms, .wait next now ms ∈ trace → ms = milliseconds (next - now)
  halts : ∀ pre post, trace = pre ++ .check true :: post → post = []

/-- The milliseconds before or after a tick fit an `int` up to almost 25 days
after it. -/
theorem toInt_milliseconds_iff {d : Int} (h : d ≤ seconds 86400) :
    toInt (milliseconds d) = milliseconds d ↔ -(2 ^ 31 + 1) * 10 ^ 6 < d := by
  have hsign : (10 ^ 6 : Int).sign = 1 := by decide
  unfold toInt milliseconds
  unfold seconds at h
  rw [Int.bmod_def, Int.tdiv_eq_ediv, hsign]
  split <;> omega

/-- **The daemon never bursts**, and the timeout of every wait is right as
long as no reading is more than 2 ^ 31 ms past the tick the wait is for. -/
theorem neverBursts_iff {env : Surroundings} {cfg : Config} (hclock : Monotone env.clock)
    (hlow : 1 ≤ cfg.intervalSeconds) (hhigh : cfg.intervalSeconds ≤ 86400)
    (engine : ChaosEngine) (n : Nat) :
    NeverBursts (env.clock 0) (seconds cfg.intervalSeconds)
        (runUntilShutdown env engine cfg n).trace ↔
      ∀ next now ms, .wait next now ms ∈ (runUntilShutdown env engine cfg n).trace →
        now < next + (2 ^ 31 + 1) * 10 ^ 6 := by
  have hpos : 0 < seconds cfg.intervalSeconds := by
    unfold seconds
    omega
  have hmax : seconds cfg.intervalSeconds ≤ seconds 86400 := by
    unfold seconds
    omega
  obtain ⟨⟨next, hpaced, -⟩, -, hwaits, -, hlast⟩ := inv_runUntilShutdown hclock hpos engine n
  constructor
  · intro h next now ms hmem
    obtain ⟨hle, hms⟩ := hwaits next now ms hmem
    have hexact := h.timeouts next now ms hmem
    have hin := (toInt_milliseconds_iff (hle.trans hmax)).mp (hms.symm.trans hexact)
    omega
  · intro h
    refine ⟨fun k a hk => ?_, fun t ht => hpaced.countP_le hpos ht,
      fun k a b hk hk' => hpaced.catchUp hk hk', fun next now ms hmem => (hwaits next now ms hmem).1,
      fun next now ms hmem => ?_, hlast⟩
    · simpa using hpaced.spacing hk
    · obtain ⟨hle, hms⟩ := hwaits next now ms hmem
      have hlate := h next now ms hmem
      rw [hms]
      exact (toInt_milliseconds_iff (hle.trans hmax)).mpr (by omega)

/-- A clock that stands at some readings and then jumps. -/
def jumping (jump : Int) : Surroundings where
  clock i := if i ≤ 1 then 0 else if i ≤ 3 then seconds 1 else seconds 1 + jump
  shuttingDown _ := false
  stop _ := false
  input _ := { list := none, rolled := ChaosEngine.rolledZero, strike := fun _ => ⟨false, 0, false⟩ }

theorem monotone_jumping {jump : Int} (h : 0 ≤ jump) : Monotone (jumping jump).clock := by
  intro i j hij
  simp only [jumping, seconds]
  split_ifs <;> omega

theorem neverBursts_iff_jumping :
    NeverBursts 0 (seconds 5) (runUntilShutdown (jumping (seconds 9)) (.new false {} none) {} 2).trace ↔
      ∀ next now ms, .wait next now ms ∈
          (runUntilShutdown (jumping (seconds 9)) (.new false {} none) {} 2).trace →
        now < next + (2 ^ 31 + 1) * 10 ^ 6 :=
  @neverBursts_iff (jumping (seconds 9)) {} (monotone_jumping (by decide)) (by decide) (by decide) _ 2

/-- Stopped for 25 days between two readings the daemon waits for another 24
days, with the next tick long overdue. -/
theorem neverBursts_overflow :
    Monotone (jumping (seconds (25 * 86400))).clock ∧
      .wait (seconds 5) (seconds (1 + 25 * 86400)) 2134971296 ∈
        (runUntilShutdown (jumping (seconds (25 * 86400))) (.new false {} none) {} 2).trace ∧
      ¬ NeverBursts 0 (seconds 5)
        (runUntilShutdown (jumping (seconds (25 * 86400))) (.new false {} none) {} 2).trace := by
  have hmem : .wait (seconds 5) (seconds (1 + 25 * 86400)) 2134971296 ∈
      (runUntilShutdown (jumping (seconds (25 * 86400))) (.new false {} none) {} 2).trace := by
    decide +kernel
  refine ⟨monotone_jumping (by decide), hmem, fun h => ?_⟩
  exact absurd (h.timeouts _ _ _ hmem) (by decide)

/-! ## The ticks of the engine -/

/-- A round ticks the engine exactly when it admits a tick. -/
theorem Rounded.engine {env : Surroundings} {cfg : Config} {s s' : Scheduler}
    (h : Rounded env cfg s s') :
    (s'.engine = s.engine ∧ admitted s'.trace = admitted s.trace) ∨
      ∃ a, s'.engine = s.engine.step env.stop (.tick (env.input (admitted s.trace).length)) ∧
        admitted s'.trace = admitted s.trace ++ [a] := by
  cases h with
  | stopped hrun => exact .inl ⟨rfl, rfl⟩
  | halts hrun hstop => exact .inl ⟨rfl, admitted_check _ _⟩
  | ticks hrun hstop hdue hintime =>
      refine .inr ⟨env.clock s.reads, rfl, ?_⟩
      rw [admitted_append, admitted_check]
      rfl
  | resets hrun hstop hdue hstall =>
      refine .inr ⟨env.clock s.reads, rfl, ?_⟩
      rw [admitted_append, admitted_check]
      rfl
  | waits hrun hstop hearly =>
      refine .inl ⟨rfl, ?_⟩
      rw [admitted_append, admitted_check]
      exact List.append_nil _

/-- **The engine of the daemon has gone through one tick for each admission**,
so that everything said of engine runs holds of it. -/
theorem engine_runUntilShutdown (env : Surroundings) (engine : ChaosEngine) (cfg : Config)
    (n : Nat) :
    (runUntilShutdown env engine cfg n).engine =
      engine.run env.stop ((List.range (admitted (runUntilShutdown env engine cfg n).trace).length).map
        fun i => .tick (env.input i)) := by
  induction n with
  | zero =>
      have hstart : (start env engine).engine = engine ∧ admitted (start env engine).trace = [] := by
        unfold start
        dsimp only [shuttingDown, emit]
        split <;> exact ⟨rfl, rfl⟩
      rw [runUntilShutdown, hstart.1, hstart.2]
      rfl
  | succ n ih =>
      rw [runUntilShutdown]
      rcases (rounded_round env cfg (runUntilShutdown env engine cfg n)).engine with
        ⟨heng, hadm⟩ | ⟨a, heng, hadm⟩
      · rw [heng, hadm, ih]
      · rw [heng, hadm, ih, List.length_append, List.length_singleton, List.range_succ,
          List.map_append, ChaosEngine.run, ChaosEngine.run, List.foldl_append]
        rfl

end Scheduler

end ChaosForger
