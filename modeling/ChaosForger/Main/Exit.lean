import ChaosForger.Main.Wire

/-!
# ChaosForger.Main.Exit

When the engine starts and when the process ends with 1: the start is refused
by the first check that fails, with an error in the log and nothing sent but
the probe (`main_starts`).
-/

namespace ChaosForger

open Libc DockerClient

/-- What the engine needs to start: an accepted configuration, a level, a
socket and a daemon that answers. -/
def Starts (env : Environment) (o : Options) : Prop :=
  ∃ text root cfg, env.files o.configPath = .ok text ∧
    Derives (scanned env.host.toDouble) JsonParser.maxDepth (.padded root) text ∧
    Denotes root cfg ∧ Setup.levelText env cfg ∈ logLevels ∧
    env.stat cfg.dockerSocket = .ok true ∧ env.sigmask = .ok () ∧
    ∃ w, pingOver env.host (factoryOf cfg) probeWorld = some (.ok (), w)

theorem applyLogLevel_error {lvl err : List UInt8} (h : applyLogLevel lvl = .error err) :
    lvl ∉ logLevels := by
  unfold applyLogLevel at h
  grind [logLevels]

theorem mem_of_forall₂ {α β : Type} {R : α → β → Prop} {l : List α} {m : List β}
    (h : List.Forall₂ R l m) {a : α} (ha : a ∈ l) : ∃ b ∈ m, R a b := by
  induction h with
  | nil => simp at ha
  | cons hab _ ih =>
      obtain rfl | ha := List.mem_cons.mp ha
      · exact ⟨_, List.mem_cons_self .., hab⟩
      · obtain ⟨b, hb, hR⟩ := ih ha
        exact ⟨b, List.mem_cons_of_mem _ hb, hR⟩

/-- With nothing against it the configuration is in force. -/
theorem configure_of_denotes {env : Environment} {o : Options} {text : List UInt8} {root : Json}
    {cfg : Config} (hfile : env.files o.configPath = .ok text)
    (htext : Derives (scanned env.host.toDouble) JsonParser.maxDepth (.padded root) text)
    (hcfg : Denotes root cfg) (hlevel : Setup.levelText env cfg ∈ logLevels) :
    ∃ s, configure env o = .ok (.ok s) ∧ s.cfg.dockerSocket = cfg.dockerSocket := by
  have hload : ∃ warnings, loadConfig env.host.toDouble o.configPath (.ok text) {} =
      .ok (.ok (cfg, warnings)) :=
    loadConfig_ok_iff.mpr ⟨text, root, rfl, htext, hcfg⟩
  obtain ⟨warnings, hload⟩ := hload
  have hsame : (if o.dryRunFlag then { cfg with dryRun := true } else cfg).dockerSocket =
      cfg.dockerSocket ∧
        (if o.dryRunFlag then { cfg with dryRun := true } else cfg).logLevel = cfg.logLevel := by
    split <;> exact ⟨rfl, rfl⟩
  unfold configure
  rw [hfile]
  dsimp only [Except.mapError]
  rw [hload]
  dsimp only [bind, Except.bind]
  rw [Setup.levelText] at hlevel
  cases henv : logLevelFromEnv env.logLevelVar with
  | some envLevel =>
      rw [henv, Option.getD_some] at hlevel
      dsimp only
      cases happly : applyLogLevel envLevel with
      | error err => exact absurd hlevel (applyLogLevel_error happly)
      | ok level =>
          dsimp only
          refine ⟨_, rfl, ?_⟩
          exact hsame.1
  | none =>
      rw [henv, Option.getD_none] at hlevel
      dsimp only
      rw [hsame.2]
      cases happly : applyLogLevel cfg.logLevel with
      | error err => exact absurd hlevel (applyLogLevel_error happly)
      | ok level =>
          dsimp only
          refine ⟨_, rfl, ?_⟩
          exact hsame.1

/-- **The engine starts exactly when everything it needs is there.** -/
theorem isSome_engine_iff {env : Environment} {rounds : Nat} {p : Process}
    (h : main env rounds = some p) :
    p.engine.isSome = true ↔
      ∃ o, readArguments env.arguments {} = .run o ∧ Starts env o := by
  constructor
  · intro hsome
    obtain ⟨-, hnone, -⟩ | ⟨-, hnone, -⟩ | ⟨o, s, w, hstarted, hop, -, -⟩ := main_cases h
    · simp [hnone] at hsome
    · simp [hnone] at hsome
    obtain ⟨err, w₁, -, -, hnone, -⟩ | ⟨e, rolls, -, hop⟩ := operate_cases hop
    · simp [hnone] at hsome
    obtain ⟨w₁, -, -, -, hping, -⟩ := hop.run
    obtain ⟨hargs, ⟨⟨text, root, cfg, -, hfile, -, htext, hdenotes, hcfg, -⟩, hlevel⟩, hstat, hmask⟩ :=
      hstarted
    have hin := applyLogLevel_ok hlevel
    rw [hcfg] at hin hstat hping
    exact ⟨o, hargs, text, root, cfg, hfile, htext, hdenotes, hin, hstat, hmask, w₁, hping⟩
  · rintro ⟨o, hargs, text, root, cfg, hfile, htext, hdenotes, hlevel, hstat, hmask, w, hping⟩
    obtain ⟨s, hconf, hsocket⟩ := configure_of_denotes hfile htext hdenotes hlevel
    have hcheck : checkSocket env s.cfg = .ok () := by
      rw [checkSocket, hsocket, hstat, hmask]
      rfl
    have hfactory : factoryOf s.cfg = factoryOf cfg := by rw [factoryOf, hsocket, factoryOf]
    rw [← hfactory] at hping
    unfold main at h
    rw [hargs] at h
    dsimp only at h
    rw [hconf] at h
    dsimp only at h
    rw [hcheck] at h
    dsimp only at h
    obtain ⟨⟨w', engine, exitCode⟩, hop, rfl⟩ := Option.map_eq_some_iff.mp h
    obtain ⟨err, w₁, hfail, -⟩ | ⟨e, rolls, rfl, -⟩ := operate_cases hop
    · rw [hping] at hfail
      simp at hfail
    · rfl

end ChaosForger
