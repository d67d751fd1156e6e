import ChaosForger.Engine.Live
import ChaosForger.Scheduler

/-!
# ChaosForger.Scheduler.Live

The daemon loop on a client of the Docker interface, with its log line.

The loop cannot tell a client either: its runs on a client are the runs of
`ChaosForger.Scheduler` for some inputs (`runUntilShutdownOn_run`), and the
engine goes through one tick on the client for each admission
(`runUntilShutdownOn_runOn`).
-/

namespace ChaosForger

open Libc

namespace Scheduler

variable {σ : Type u}

/-- What the loop says when it starts. -/
def startedLine (engine : ChaosEngine) (cfg : Config) : List UInt8 :=
  lit "Scheduler started: interval=" ++ decimalInt cfg.intervalSeconds ++
    lit "s, chaos_probability=" ++ formatProbability cfg.chaosProbability ++
    (if engine.discoverOnly then lit ", DISCOVERY-ONLY MODE (no dice, no strikes)"
     else if engine.dryRun then lit ", DRY-RUN MODE (no strikes will be issued)"
     else lit ", *** LIVE MODE: real stop/kill against " ++ cfg.dockerSocket ++ lit " ***")

/-- The roll of the next tick. -/
def nextRoll (env : Surroundings) (s : Scheduler) : Rolled :=
  (env.input (admitted s.trace).length).rolled

/-- A tick on a client; of the inputs only the rolls are used. -/
def tickOn (env : Surroundings) (docker : IDockerClient σ) (now : Int) (s : Scheduler)
    (w : World σ) : Option (Scheduler × World σ) :=
  (ChaosEngine.tickOn env.stop docker (s.nextRoll env) s.engine w).map fun ((engine, _), w) =>
    ({ s with engine }.emit (.tick now), w)

/-- The start of `run_until_shutdown`. -/
def startOn (env : Surroundings) (engine : ChaosEngine) (cfg : Config) (w : World σ) :
    Scheduler × World σ :=
  let (requested, s) := shuttingDown env { engine }
  if requested then ({ s with running := false }, w)
  else
    let w := w.log .info (startedLine engine cfg)
    let (now, s) := s.now env
    ({ s with nextTick := now }, w)

/-- What follows a tick. -/
def reschedule (env : Surroundings) (cfg : Config) (s : Scheduler) : Scheduler :=
  let s := { s with nextTick := s.nextTick + seconds cfg.intervalSeconds }
  let (now, s) := s.now env
  if s.nextTick ≤ now then
    -- we stalled: reset rather than burst
    let (now, s) := s.now env
    { s with nextTick := now }
  else s

/-- One round of its loop. -/
def roundOn (env : Surroundings) (docker : IDockerClient σ) (cfg : Config) (s : Scheduler)
    (w : World σ) : Option (Scheduler × World σ) :=
  if ¬ s.running then some (s, w)
  else
    let (requested, s) := s.shuttingDown env
    if requested then some ({ s with running := false }, w)
    else
      let (now, s) := s.now env
      if s.nextTick ≤ now then
        (s.tickOn env docker now w).map fun (s, w) => (s.reschedule env cfg, w)
      else
        let (now, s) := s.now env
        some (s.emit (.wait s.nextTick now (toInt (milliseconds (s.nextTick - now)))), w)

/-- The daemon after `n` rounds. -/
def runUntilShutdownOn (env : Surroundings) (docker : IDockerClient σ) (engine : ChaosEngine)
    (cfg : Config) (w : World σ) : Nat → Option (Scheduler × World σ)
  | 0 => some (startOn env engine cfg w)
  | n + 1 => (runUntilShutdownOn env docker engine cfg w n).bind fun (s, w) =>
      roundOn env docker cfg s w

/-! ## Rounds that differ in their inputs -/

section Inputs

variable {env : Surroundings} {cfg : Config} {s s' : Scheduler} {input : Nat → TickInput}

/-- A round takes what `Rounded` says only. -/
theorem Rounded.round_eq (h : Rounded env cfg s s') : round env cfg s = s' := by
  cases h with
  | stopped hrun => simp [round, hrun]
  | halts hrun hstop => simp [round, shuttingDown, emit, hrun, hstop]
  | ticks hrun hstop hdue hintime =>
      have hnot : ¬ s.nextTick + seconds cfg.intervalSeconds ≤ env.clock (s.reads + 1) :=
        Int.not_le.mpr hintime
      simp [round, shuttingDown, emit, now, tick, admitted_check, hrun, hstop, hdue, hnot]
  | resets hrun hstop hdue hstall =>
      simp [round, shuttingDown, emit, now, tick, admitted_check, hrun, hstop, hdue, hstall]
  | waits hrun hstop hearly =>
      have hnot : ¬ s.nextTick ≤ env.clock s.reads := Int.not_le.mpr hearly
      simp [round, shuttingDown, emit, now, hrun, hstop, hnot]

/-- Inputs past the admitted ticks play no part in a round. -/
theorem Rounded.congr (h : Rounded env cfg s s')
    (hinput : ∀ k < (admitted s'.trace).length, input k = env.input k) :
    Rounded { env with input } cfg s s' := by
  have hlast {now : Int} (htrace : s'.trace = s.trace ++ [.check false] ++ [.tick now]) :
      input (admitted s.trace).length = env.input (admitted s.trace).length := by
    apply hinput
    rw [htrace, admitted_append, admitted_check]
    simp [admitted]
  cases h with
  | stopped hrun => exact .stopped hrun
  | halts hrun hstop => exact @Rounded.halts { env with input } cfg s hrun hstop
  | ticks hrun hstop hdue hintime =>
      have h := @Rounded.ticks { env with input } cfg s hrun hstop hdue hintime
      dsimp only at h
      rwa [hlast rfl] at h
  | resets hrun hstop hdue hstall =>
      have h := @Rounded.resets { env with input } cfg s hrun hstop hdue hstall
      dsimp only at h
      rwa [hlast rfl] at h
  | waits hrun hstop hearly => exact @Rounded.waits { env with input } cfg s hrun hstop hearly

/-- In a round without a tick they play none at all. -/
theorem Rounded.of_admitted_eq (h : Rounded env cfg s s')
    (hadm : admitted s'.trace = admitted s.trace) (input : Nat → TickInput) :
    Rounded { env with input } cfg s s' := by
  have hnot {now : Int} (htrace : s'.trace = s.trace ++ [.check false] ++ [.tick now]) : False := by
    rw [htrace, admitted_append, admitted_check] at hadm
    simp [admitted] at hadm
  cases h with
  | stopped hrun => exact .stopped hrun
  | halts hrun hstop => exact @Rounded.halts { env with input } cfg s hrun hstop
  | ticks => exact (hnot rfl).elim
  | resets => exact (hnot rfl).elim
  | waits hrun hstop hearly => exact @Rounded.waits { env with input } cfg s hrun hstop hearly

/-- Rounds admit ticks and take none back. -/
theorem Rounded.admitted_le (h : Rounded env cfg s s') :
    (admitted s.trace).length ≤ (admitted s'.trace).length := by
  obtain ⟨-, hadm⟩ | ⟨a, -, hadm⟩ := h.engine
  · rw [hadm]
  · simp [hadm]

theorem runUntilShutdown_congr {engine : ChaosEngine} {n : Nat}
    (hinput : ∀ k < (admitted (runUntilShutdown env engine cfg n).trace).length,
      input k = env.input k) :
    runUntilShutdown { env with input } engine cfg n = runUntilShutdown env engine cfg n := by
  induction n with
  | zero => rfl
  | succ n ih =>
      rw [runUntilShutdown] at hinput
      have hround := rounded_round env cfg (runUntilShutdown env engine cfg n)
      have hbefore := ih fun k hk => hinput k (hk.trans_le hround.admitted_le)
      rw [runUntilShutdown, hbefore, (hround.congr hinput).round_eq, runUntilShutdown]

end Inputs

/-! ## Rounds on a client -/

section Client

variable {env : Surroundings} {docker : IDockerClient σ} {engine : ChaosEngine} {cfg : Config}
  {s s' : Scheduler} {w w' : World σ}

/-- The scheduler between the tick of a round and what follows it. -/
def ticked (env : Surroundings) (s : Scheduler) (engine : ChaosEngine) : Scheduler :=
  { s with
    engine
    reads := s.reads + 1
    checks := s.checks + 1
    trace := s.trace ++ [.check false] ++ [.tick (env.clock s.reads)] }

theorem reschedule_ticked (env : Surroundings) (cfg : Config) (s : Scheduler)
    (engine : ChaosEngine) :
    (s.ticked env engine).reschedule env cfg =
      if s.nextTick + seconds cfg.intervalSeconds ≤ env.clock (s.reads + 1) then
        { s.ticked env engine with nextTick := env.clock (s.reads + 2), reads := s.reads + 3 }
      else
        { s.ticked env engine with
          nextTick := s.nextTick + seconds cfg.intervalSeconds
          reads := s.reads + 2 } := rfl

theorem rounded_reschedule (hrun : s.running = true) (hstop : env.shuttingDown s.checks = false)
    (hdue : s.nextTick ≤ env.clock s.reads) {input : Nat → TickInput}
    (htick : (s.engine.tick env.stop (input (admitted s.trace).length)).1 = engine) :
    Rounded { env with input } cfg s ((s.ticked env engine).reschedule env cfg) := by
  subst htick
  rw [reschedule_ticked]
  split
  · next hstall => exact @Rounded.resets { env with input } cfg s hrun hstop hdue hstall
  · next hstall =>
      exact @Rounded.ticks { env with input } cfg s hrun hstop hdue (Int.not_le.mp hstall)

theorem reschedule_engine (env : Surroundings) (cfg : Config) (s : Scheduler) :
    (s.reschedule env cfg).engine = s.engine ∧ (s.reschedule env cfg).trace = s.trace := by
  unfold reschedule
  dsimp only [now]
  split <;> exact ⟨rfl, rfl⟩

/-- A round on a client ticks at most once, and is a round for what the client
returned. -/
theorem roundOn_spec (h : roundOn env docker cfg s w = some (s', w')) :
    (s'.engine = s.engine ∧ w' = w ∧ admitted s'.trace = admitted s.trace ∧
        Rounded env cfg s s') ∨
      ∃ ok now, ChaosEngine.tickOn env.stop docker (s.nextRoll env) s.engine w =
          some ((s'.engine, ok), w') ∧
        admitted s'.trace = admitted s.trace ++ [now] ∧
        ∀ input : Nat → TickInput,
          (s.engine.tick env.stop (input (admitted s.trace).length)).1 = s'.engine →
            Rounded { env with input } cfg s s' := by
  unfold roundOn at h
  split at h
  · next hrun =>
      obtain ⟨rfl, rfl⟩ := Prod.mk.inj (Option.some.inj h)
      exact .inl ⟨rfl, rfl, rfl, .stopped (by simpa using hrun)⟩
  · next hrun =>
      rw [not_not] at hrun
      dsimp only [shuttingDown, emit, now] at h
      split at h
      · next hstop =>
          obtain ⟨rfl, rfl⟩ := Prod.mk.inj (Option.some.inj h)
          refine .inl ⟨rfl, rfl, admitted_check _ _, ?_⟩
          rw [hstop]
          exact .halts hrun hstop
      · next hstop =>
          rw [Bool.not_eq_true] at hstop
          rw [hstop] at h
          split at h
          · next hdue =>
              obtain ⟨⟨s₁, w₁⟩, htick, heq⟩ := Option.map_eq_some_iff.mp h
              obtain ⟨⟨⟨e, ok⟩, w₂⟩, hengine, heq₁⟩ := Option.map_eq_some_iff.mp htick
              rw [nextRoll, admitted_check] at hengine
              have hs₁ : s₁ = s.ticked env e := (Prod.mk.inj heq₁).1.symm
              obtain ⟨hs', hw'⟩ := Prod.mk.inj heq
              obtain rfl : w₂ = w' := (Prod.mk.inj heq₁).2.trans hw'
              rw [hs₁] at hs'
              subst hs'
              have hsame := reschedule_engine env cfg (s.ticked env e)
              refine .inr ⟨ok, env.clock s.reads, ?_, ?_, fun input htick => ?_⟩
              · rw [hsame.1]
                exact hengine
              · rw [hsame.2, ticked, admitted_append, admitted_check]
                rfl
              · rw [hsame.1] at htick
                exact rounded_reschedule hrun hstop hdue htick
          · next hearly =>
              obtain ⟨rfl, rfl⟩ := Prod.mk.inj (Option.some.inj h)
              refine .inl ⟨rfl, rfl, ?_, .waits hrun hstop (Int.not_le.mp hearly)⟩
              rw [admitted_append, admitted_check]
              exact List.append_nil _

/-- The engine and the world before the first round. -/
theorem startOn_spec (env : Surroundings) (engine : ChaosEngine) (cfg : Config) (w : World σ) :
    (startOn env engine cfg w).1 = start env engine ∧
      (startOn env engine cfg w).2 =
        if env.shuttingDown 0 then w else w.log .info (startedLine engine cfg) := by
  unfold startOn start
  dsimp only [shuttingDown]
  split <;> exact ⟨rfl, rfl⟩

/-- **The daemon on a client is the daemon**, for what the client returned: its
ticks keep the pace and its waits the timeouts, whatever the client does. -/
theorem runUntilShutdownOn_run {n : Nat}
    (h : runUntilShutdownOn env docker engine cfg w n = some (s, w')) :
    ∃ input : Nat → TickInput, (∀ k, (input k).rolled = (env.input k).rolled) ∧
      runUntilShutdown { env with input } engine cfg n = s := by
  induction n generalizing s w' with
  | zero =>
      have hstart : startOn env engine cfg w = (s, w') := Option.some.inj h
      have hspec := startOn_spec env engine cfg w
      rw [hstart] at hspec
      exact ⟨env.input, fun _ => rfl, hspec.1.symm⟩
  | succ n ih =>
      obtain ⟨⟨s₁, w₁⟩, hbefore, hround⟩ := Option.bind_eq_some_iff.mp h
      obtain ⟨input, hrolls, hrun⟩ := ih hbefore
      obtain ⟨-, -, hadm, hrounded⟩ | ⟨ok, now, htick, -, hrounded⟩ := roundOn_spec hround
      · have hcongr : Rounded { env with input } cfg s₁ s :=
          Rounded.of_admitted_eq hrounded hadm input
        exact ⟨input, hrolls, by rw [runUntilShutdown, hrun, hcongr.round_eq]⟩
      · -- the rounds before have not used the input of this tick
        obtain ⟨new, hnew, heng, -⟩ := ChaosEngine.tickOn_tick htick
        subst hrun
        let s₁ := runUntilShutdown { env with input } engine cfg n
        let k := (admitted s₁.trace).length
        let input' : Nat → TickInput := fun i => if i = k then new else input i
        have hbefore' : runUntilShutdown { env with input := input' } engine cfg n = s₁ := by
          have hsame : ∀ i < k, input' i = input i := fun i hi => if_neg (Nat.ne_of_lt hi)
          exact @runUntilShutdown_congr { env with input } cfg input' engine n hsame
        have hround' : Rounded { env with input := input' } cfg s₁ s := by
          apply hrounded
          rw [show input' (admitted s₁.trace).length = new from if_pos rfl, heng]
        refine ⟨input', fun i => ?_, by rw [runUntilShutdown, hbefore', hround'.round_eq]⟩
        by_cases hi : i = k
        · rw [show input' i = new from if_pos hi, hnew, hi]
          rfl
        · rw [show input' i = input i from if_neg hi, hrolls]

/-- A client whose list calls fail. -/
def refusing : IDockerClient Unit where
  listContainers w := some (.error (lit "listing containers: HTTP 500"), w)
  stopContainer _ _ w := some ({ ok := false, httpStatus := 0, sent := false, err := [] }, w)
  killContainer _ w := some ({ ok := false, httpStatus := 0, sent := false, err := [] }, w)
  ping w := some (.ok (), w)

/-- Nine rounds over a step of the clock, with a daemon that refuses. -/
theorem runUntilShutdownOn_run_refusing : ∃ s w',
    runUntilShutdownOn (jumping (seconds 9)) refusing (.new false {} none) {} { os := () } 9 =
      some (s, w') ∧
    ∃ input : Nat → TickInput,
      runUntilShutdown { jumping (seconds 9) with input } (.new false {} none) {} 9 = s := by
  have hsome : (runUntilShutdownOn (jumping (seconds 9)) refusing (.new false {} none) {} { os := () }
      9).isSome = true := by decide +kernel
  obtain ⟨⟨s, w'⟩, hrun⟩ := Option.isSome_iff_exists.mp hsome
  obtain ⟨input, -, hsame⟩ := runUntilShutdownOn_run hrun
  exact ⟨s, w', hrun, input, hsame⟩

/-- **The engine goes through one tick on the client for each admission.** -/
theorem runUntilShutdownOn_runOn {n : Nat}
    (h : runUntilShutdownOn env docker engine cfg w n = some (s, w')) :
    ChaosEngine.runOn env.stop docker
        ((List.range (admitted s.trace).length).map fun k => (env.input k).rolled) engine
        (startOn env engine cfg w).2 = some (s.engine, w') := by
  induction n generalizing s w' with
  | zero =>
      have hstarted : startOn env engine cfg w = (s, w') := Option.some.inj h
      have hstart : (start env engine).engine = engine ∧ admitted (start env engine).trace = [] := by
        unfold start
        dsimp only [shuttingDown, emit]
        split <;> exact ⟨rfl, rfl⟩
      have hspec := startOn_spec env engine cfg w
      rw [hstarted] at hspec ⊢
      obtain rfl : s = start env engine := hspec.1
      rw [hstart.1, hstart.2]
      rfl
  | succ n ih =>
      obtain ⟨⟨s₁, w₁⟩, hbefore, hround⟩ := Option.bind_eq_some_iff.mp h
      have hrun := ih hbefore
      obtain ⟨heng, rfl, hadm, -⟩ | ⟨ok, now, htick, hadm, -⟩ := roundOn_spec hround
      · rw [heng, hadm, hrun]
      · rw [hadm, List.length_append, List.length_singleton, List.range_succ, List.map_append,
          ChaosEngine.runOn_append, hrun, Option.bind_some, List.map_singleton]
        rw [nextRoll] at htick
        dsimp only
        rw [ChaosEngine.runOn, htick]
        rfl

end Client

end Scheduler

end ChaosForger
