import ChaosForger.Engine.Audit
import ChaosForger.Engine.Wire
import ChaosForger.Main
import ChaosForger.Validate.Accepted

/-!
# ChaosForger.Main.Runs

What the process can have done: it ends before its first system call on a
socket, or it goes on with an accepted configuration (`Started`); then it ends
with the probe, or its engine goes through a run of ticks over the sockets
(`Operated`).
-/

namespace ChaosForger

open Libc DockerClient

/-! ## The configuration -/

/-- The level a value names. -/
theorem applyLogLevel_ok {lvl : List UInt8} {level : LogLevel} (h : applyLogLevel lvl = .ok level) :
    lvl ∈ logLevels := by
  unfold applyLogLevel at h
  grind [logLevels]

/-- What the log level in force comes from. -/
def Setup.levelText (env : Environment) (cfg : Config) : List UInt8 :=
  (logLevelFromEnv env.logLevelVar).getD cfg.logLevel

/-- A setup that `configure` ends with. -/
structure Configured (env : Environment) (o : Options) (s : Setup) : Prop where
  accepted : ∃ text root cfg warnings, env.files o.configPath = .ok text ∧
    validateConfig root {} = .ok (cfg, warnings) ∧
    Derives (scanned env.host.toDouble) JsonParser.maxDepth (.padded root) text ∧ Denotes root cfg ∧
    s.cfg = { cfg with
      dryRun := cfg.dryRun || o.dryRunFlag
      logLevel := Setup.levelText env cfg } ∧
    s.output = warnings.map (.line .warn) ++ [.setLevel s.level]
  level : applyLogLevel s.cfg.logLevel = .ok s.level

/-- A file that loads holds a text of a value that validates. -/
theorem loaded {toDouble : ℚ → Option ℚ} {path : List UInt8}
    {file : Except (List UInt8) (List UInt8)} {accepted : Config × List (List UInt8)}
    (h : loadConfig toDouble path file {} = .ok (.ok accepted)) :
    ∃ text root, file = .ok text ∧
      Derives (scanned toDouble) JsonParser.maxDepth (.padded root) text ∧
      validateConfig root {} = .ok accepted := by
  cases file with
  | error reason => simp [loadConfig] at h
  | ok text =>
      obtain ⟨err, o, hparse, hspec⟩ := JsonParser.parse_spec toDouble text []
      rw [loadConfig, hparse] at h
      by_cases htrim : trim text = []
      · simp [htrim] at h
      · cases o with
        | none => simp [htrim, bind, Except.bind, pure, Except.pure] at h
        | some root =>
            have hvalid : validateConfig root {} = .ok accepted := by
              simpa [htrim, bind, Except.bind, pure, Except.pure] using h
            exact ⟨text, root, rfl, (hspec root rfl).2, hvalid⟩

theorem configured_configure {env : Environment} {o : Options} {s : Setup}
    (h : configure env o = .ok (.ok s)) : Configured env o s := by
  unfold configure at h
  dsimp only at h
  obtain ⟨r, hload, hrest⟩ := bind_ok_iff.mp h
  cases r with
  | error e => simp [pure, Except.pure] at hrest
  | ok accepted =>
      obtain ⟨cfg, warnings⟩ := accepted
      obtain ⟨text, root, hfile, htext, hvalid⟩ := loaded hload
      have htext' : env.files o.configPath = .ok text := by
        cases hf : env.files o.configPath <;> simp_all [Except.mapError]
      have hdry : (if o.dryRunFlag then { cfg with dryRun := true } else cfg) =
          { cfg with dryRun := cfg.dryRun || o.dryRunFlag } := by
        cases o.dryRunFlag <;> simp
      dsimp only at hrest
      rw [hdry] at hrest
      split at hrest
      · next envLevel henv =>
          split at hrest
          · simp [pure, Except.pure] at hrest
          · next level hlevel =>
              obtain rfl := Except.ok.inj (Except.ok.inj hrest)
              refine ⟨⟨text, root, cfg, warnings, htext', hvalid, htext,
                validateConfig_ok_iff.mp ⟨_, hvalid⟩, ?_, rfl⟩, hlevel⟩
              rw [Setup.levelText, henv, Option.getD_some]
      · next henv =>
          split at hrest
          · simp [pure, Except.pure] at hrest
          · next level hlevel =>
              obtain rfl := Except.ok.inj (Except.ok.inj hrest)
              refine ⟨⟨text, root, cfg, warnings, htext', hvalid, htext,
                validateConfig_ok_iff.mp ⟨_, hvalid⟩, ?_, rfl⟩, hlevel⟩
              rw [Setup.levelText, henv, Option.getD_none]

/-! ## The process -/

/-- The process has passed every check before the probe. -/
structure Started (env : Environment) (o : Options) (s : Setup) : Prop where
  arguments : readArguments env.arguments {} = .run o
  configured : Configured env o s
  stat : env.stat s.cfg.dockerSocket = .ok true
  sigmask : env.sigmask = .ok ()

theorem checkSocket_ok {env : Environment} {cfg : Config} (h : checkSocket env cfg = .ok ()) :
    env.stat cfg.dockerSocket = .ok true ∧ env.sigmask = .ok () := by
  unfold checkSocket at h
  split at h
  · contradiction
  · next isSocket hstat =>
      split at h
      · contradiction
      · next hsocket =>
          split at h
          · contradiction
          · next hmask => exact ⟨by rw [hstat, not_not.mp hsocket], hmask⟩

theorem checkSocket_error {env : Environment} {cfg : Config} {output : List Output}
    (h : checkSocket env cfg = .error output) : ∃ msg, .line .error msg ∈ output := by
  unfold checkSocket at h
  split at h
  · obtain rfl := Except.error.inj h
    exact ⟨_, List.mem_cons_self ..⟩
  · split at h
    · obtain rfl := Except.error.inj h
      exact ⟨_, List.mem_cons_self ..⟩
    · split at h
      · obtain rfl := Except.error.inj h
        exact ⟨_, List.mem_cons_self ..⟩
      · contradiction

theorem configure_error {env : Environment} {o : Options} {output : List Output}
    (h : configure env o = .ok (.error output)) : ∃ msg, .line .error msg ∈ output := by
  have hlast (front : List Output) (msg : List UInt8) :
      ∃ msg', .line .error msg' ∈ front ++ errorLines [msg] :=
    ⟨msg, List.mem_append_right _ (List.mem_singleton_self _)⟩
  unfold configure at h
  dsimp only at h
  obtain ⟨r, -, hrest⟩ := bind_ok_iff.mp h
  cases r with
  | error e =>
      obtain rfl := Except.error.inj (Except.ok.inj hrest)
      exact hlast [] _
  | ok accepted =>
      dsimp only at hrest
      split at hrest
      · split at hrest
        · obtain rfl := Except.error.inj (Except.ok.inj hrest)
          exact hlast _ _
        · simp [pure, Except.pure] at hrest
      · split at hrest
        · obtain rfl := Except.error.inj (Except.ok.inj hrest)
          exact hlast _ _
        · simp [pure, Except.pure] at hrest

/-- **The process ends before the probe or starts.** -/
theorem main_cases {env : Environment} {rounds : Nat} {p : Process} (h : main env rounds = some p) :
    (p.os = [] ∧ p.engine = none ∧ p.exitCode = some 0 ∧
        (readArguments env.arguments {} = .help ∨ readArguments env.arguments {} = .version)) ∨
      (p.os = [] ∧ p.engine = none ∧ p.exitCode = some 1 ∧
        ¬ (readArguments env.arguments {} = .help ∨ readArguments env.arguments {} = .version) ∧
        ∃ msg, .line .error msg ∈ p.output) ∨
      ∃ o s w, Started env o s ∧ operate env o s rounds = some (w, p.engine, p.exitCode) ∧
        p.os = w.os ∧ p.output = s.output ++ w.logged.map fun line => .line line.1 line.2 := by
  unfold main at h
  split at h
  · next hread =>
      obtain rfl := Option.some.inj h
      exact .inr (.inl ⟨rfl, rfl, rfl, by simp [hread], _, List.mem_singleton_self _⟩)
  · next hread =>
      obtain rfl := Option.some.inj h
      exact .inl ⟨rfl, rfl, rfl, .inl hread⟩
  · next hread =>
      obtain rfl := Option.some.inj h
      exact .inl ⟨rfl, rfl, rfl, .inr hread⟩
  · next arg hread =>
      obtain rfl := Option.some.inj h
      exact .inr (.inl ⟨rfl, rfl, rfl, by simp [hread], _, List.mem_cons_self ..⟩)
  · next o hread =>
      split at h
      · contradiction
      · next output hconf =>
          obtain rfl := Option.some.inj h
          exact .inr (.inl ⟨rfl, rfl, rfl, by simp [hread], configure_error hconf⟩)
      · next s hconf =>
          split at h
          · next output hsocket =>
              obtain rfl := Option.some.inj h
              obtain ⟨msg, hmsg⟩ := checkSocket_error hsocket
              exact .inr (.inl ⟨rfl, rfl, rfl, by simp [hread], msg,
                List.mem_append_right _ hmsg⟩)
          · next hsocket =>
              obtain ⟨⟨w, engine, exitCode⟩, hop, rfl⟩ := Option.map_eq_some_iff.mp h
              obtain ⟨hstat, hmask⟩ := checkSocket_ok hsocket
              exact .inr (.inr ⟨o, s, w, ⟨hread, configured_configure hconf, hstat, hmask⟩, hop,
                rfl, rfl⟩)

/-! ## The main loop -/

/-- What the scheduler logs before the first tick. -/
def schedulerLines (o : Options) (cfg : Config) : List (List (LogLevel × List UInt8)) :=
  [[], [(.info, Scheduler.startedLine (engineOf o cfg) cfg)]]

/-- One-shot or daemon, the main loop is a run of ticks. -/
theorem mainLoop_runOn {env : Environment} {o : Options} {cfg : Config}
    {docker : IDockerClient (List Syscall)} {rounds : Nat} {w w' : World (List Syscall)}
    {e : ChaosEngine} {ended : Bool}
    (h : mainLoop env o cfg docker rounds w = some (e, w', ended)) :
    ∃ rolls, ∃ lines ∈ schedulerLines o cfg,
      ChaosEngine.runOn env.surroundings.stop docker rolls (engineOf o cfg)
          { w with logged := w.logged ++ lines } = some (e, w') ∧
        (ended = false → o.once = false ∧ o.discoverFlag = false) ∧
        (o.once = true ∨ o.discoverFlag = true → rolls.length = 1) := by
  unfold mainLoop at h
  dsimp only at h
  split at h
  · next hshot =>
      obtain ⟨⟨⟨e', ok⟩, w₁⟩, htick, heq⟩ := Option.map_eq_some_iff.mp h
      cases heq
      refine ⟨[(env.surroundings.input 0).rolled], [], by simp [schedulerLines], ?_, by simp, by simp⟩
      rw [List.append_nil, ChaosEngine.runOn, htick]
      rfl
  · next hshot =>
      obtain ⟨⟨s, w₁⟩, hloop, heq⟩ := Option.map_eq_some_iff.mp h
      cases heq
      simp only [not_or, Bool.not_eq_true] at hshot
      have hrun := Scheduler.runUntilShutdownOn_runOn hloop
      rw [(Scheduler.startOn_spec env.surroundings (engineOf o cfg) cfg w).2] at hrun
      have hmode : (!s.running) = false → o.once = false ∧ o.discoverFlag = false := fun _ => hshot
      have hsingle {rolls : List Rolled} :
          o.once = true ∨ o.discoverFlag = true → rolls.length = 1 := by simp [hshot]
      cases hdown : env.surroundings.shuttingDown 0 with
      | true =>
          rw [hdown, if_pos rfl] at hrun
          refine ⟨(List.range (Scheduler.admitted s.trace).length).map fun k =>
            (env.surroundings.input k).rolled, [], by simp [schedulerLines], ?_, hmode, hsingle⟩
          rw [List.append_nil]
          exact hrun
      | false =>
          rw [hdown, if_neg Bool.false_ne_true] at hrun
          exact ⟨_, _, by simp [schedulerLines], hrun, hmode, hsingle⟩

/-- The world the probe is made in. -/
def probeWorld : World (List Syscall) :=
  { os := [], logged := [(.info, lit "Chaos_Forger starting"), (.info, lit "Connecting to Docker")] }

/-- The factory of the clients. -/
def factoryOf (cfg : Config) : UnixSocketFactory := { socketPath := cfg.dockerSocket }

/-- What is logged between the probe and the main loop. -/
def bannerLines (o : Options) (s : Setup) : List (LogLevel × List UInt8) :=
  [(.info, lit "Connected to Docker"), (.info, settingsLine o s)] ++
    (s.cfg.targets.map ruleLine).map (fun line => (LogLevel.info, line)) ++
    safetyLines o s.cfg (engineOf o s.cfg)

/-- The line for a signal. -/
def signalLines (env : Environment) : List (LogLevel × List UInt8) :=
  if env.signalled ≠ 0 then
    [(.info, lit "Shutdown requested (signal " ++
      (if env.signalled = 2 then lit "SIGINT" else lit "SIGTERM") ++ lit ")")]
  else []

/-- What is logged behind the main loop. -/
def finishLines (env : Environment) (e : ChaosEngine) : List (LogLevel × List UInt8) :=
  signalLines env ++ [(.debug, lit "Docker connections closed")] ++
    [(.info, reportLine e env.reason)]

theorem finish_eq (env : Environment) (e : ChaosEngine) (w : World (List Syscall)) :
    finish env e w = { w with logged := w.logged ++ finishLines env e } := by
  unfold finish finishLines signalLines
  split <;> simp [World.log]

/-- The probe has succeeded, and the engine has gone through a run. -/
structure Operated (env : Environment) (o : Options) (s : Setup) (w : World (List Syscall))
    (e : ChaosEngine) (exitCode : Option Nat) (rolls : List Rolled) : Prop where
  run : ∃ w₁ w₂, ∃ lines ∈ schedulerLines o s.cfg,
    pingOver env.host (factoryOf s.cfg) probeWorld = some (.ok (), w₁) ∧
    ChaosEngine.runOn env.surroundings.stop (live env.host (factoryOf s.cfg)) rolls
        (engineOf o s.cfg) { w₁ with logged := w₁.logged ++ bannerLines o s ++ lines } =
      some (e, w₂) ∧
    ((exitCode = none ∧ w = w₂ ∧ o.once = false ∧ o.discoverFlag = false) ∨
      (exitCode = some 0 ∧ w = finish env e w₂))
  single : o.once = true ∨ o.discoverFlag = true → rolls.length = 1

/-- **The process ends with the probe or runs its engine.** -/
theorem operate_cases {env : Environment} {o : Options} {s : Setup} {rounds : Nat}
    {w : World (List Syscall)} {engine : Option ChaosEngine} {exitCode : Option Nat}
    (h : operate env o s rounds = some (w, engine, exitCode)) :
    (∃ err w₁, pingOver env.host (factoryOf s.cfg) probeWorld = some (.error err, w₁) ∧
        w = w₁.log .error (lit "docker engine unreachable: " ++ err) ∧ engine = none ∧
        exitCode = some 1) ∨
      ∃ e rolls, engine = some e ∧ Operated env o s w e exitCode rolls := by
  have hprobe : (({ os := [] } : World (List Syscall)).log .info (lit "Chaos_Forger starting")).log
      .info (lit "Connecting to Docker") = probeWorld := rfl
  unfold operate at h
  dsimp only at h
  rw [hprobe] at h
  split at h
  · contradiction
  · next err w₁ hping =>
      obtain ⟨rfl, heq⟩ := Prod.mk.inj (Option.some.inj h)
      obtain ⟨rfl, rfl⟩ := Prod.mk.inj heq
      exact .inl ⟨err, w₁, hping, rfl, rfl, rfl⟩
  · next w₁ hping =>
      obtain ⟨⟨e, w₂, ended⟩, hloop, heq⟩ := Option.map_eq_some_iff.mp h
      obtain ⟨rolls, lines, hlines, hrun, hended, hsingle⟩ := mainLoop_runOn hloop
      have hbanner : w₁.logged ++ [(.info, lit "Connected to Docker")] ++
          [(.info, settingsLine o s)] ++
          (s.cfg.targets.map ruleLine).map (fun line => (LogLevel.info, line)) ++
          safetyLines o s.cfg (engineOf o s.cfg) ++ lines =
            w₁.logged ++ bannerLines o s ++ lines := by
        simp [bannerLines]
      simp only [World.logAll, World.log, hbanner] at hrun
      cases ended with
      | true =>
          cases heq
          exact .inr ⟨e, rolls, rfl, ⟨w₁, w₂, lines, hlines, hping, hrun, .inr ⟨rfl, rfl⟩⟩, hsingle⟩
      | false =>
          cases heq
          exact .inr ⟨e, rolls, rfl, ⟨w₁, _, lines, hlines, hping, hrun,
            .inl ⟨rfl, rfl, hended rfl⟩⟩, hsingle⟩

end ChaosForger
