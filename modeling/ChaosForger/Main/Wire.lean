import ChaosForger.Main.Streams

/-!
# ChaosForger.Main.Wire

What the process asks the daemon for, from its first system call to its last:
the probe, list calls, and strikes only when the configuration file, the
command line and the environment arm it (`main_armed`).
-/

namespace ChaosForger

open Libc DockerClient

/-- Everything that has to hold for a strike to be sent. -/
structure LiveBy (env : Environment) (p : Process) (o : Options) (cfg : Config) : Prop where
  arguments : readArguments env.arguments {} = .run o
  flags : o.discoverFlag = false ∧ o.dryRunFlag = false
  file : ∃ text root, env.files o.configPath = .ok text ∧
    Derives (scanned env.host.toDouble) JsonParser.maxDepth (.padded root) text ∧
    Denotes root cfg ∧ root.find (lit "dry_run") = some (.bool false)
  level : Setup.levelText env cfg ∈ logLevels
  socket : env.stat cfg.dockerSocket = .ok true
  emitted : ∃ rest, .line .warn (lit "SAFETY: LIVE CHAOS MODE" ++ rest) ∈ p.output
  /-- only the level `error` keeps the warning off the stream -/
  warned : Setup.levelText env cfg ≠ lit "error" → ∀ clock, ∃ rest,
    (.warn, lit "SAFETY: LIVE CHAOS MODE" ++ rest) ∈ readLog (p.streams env clock).stderr

/-- What the process has asked for. -/
structure ProcessAsked (env : Environment) (p : Process) (asked : List (List UInt8)) : Prop where
  /-- the probe comes first, and the rest follows the trace of the engine -/
  sublist : asked.Sublist (pingWire :: requests (p.engine.elim [] ChaosEngine.trace))
  /-- a strike is armed, and for a matched container of a response -/
  armed : ∀ wire ∈ asked, wire = pingWire ∨ wire = listWire ∨
    ∃ o cfg body l, LiveBy env p o cfg ∧
      parseContainerList env.host.toDouble body [] [] = .ok l ∧ l.ok = true ∧
      ∃ m ∈ matchContainers l.out cfg.targets, WellFormed (ChaosEngine.callOf cfg m) ∧
        wire = DockerClient.wire (ChaosEngine.callOf cfg m)

theorem settled_probeWorld : Settled probeWorld := ⟨Handles.disciplined_nil 1, rfl⟩

theorem safetyLines_live {o : Options} (cfg : Config) {engine : ChaosEngine}
    (hdiscover : o.discoverFlag = false) (hdry : engine.dryRun = false) :
    ∃ rest, (LogLevel.warn, lit "SAFETY: LIVE CHAOS MODE" ++ rest) ∈ safetyLines o cfg engine := by
  have hfront : lit "SAFETY: LIVE CHAOS MODE - matching containers WILL be stopped or " =
      lit "SAFETY: LIVE CHAOS MODE" ++ lit " - matching containers WILL be stopped or " := by
    decide +kernel
  rw [safetyLines, if_pos ⟨by simp [hdiscover], by simp [hdry]⟩, hfront]
  simp only [List.append_assoc]
  exact ⟨_, List.mem_cons_self ..⟩

/-- The warning is read on the stream of errors. -/
theorem warned_of_configured {env : Environment} {o : Options} {s : Setup} {p : Process}
    {lines : List (LogLevel × List UInt8)} {rest : List UInt8} (h : Configured env o s)
    (hout : p.output = s.output ++ asOutput lines)
    (hline : (LogLevel.warn, lit "SAFETY: LIVE CHAOS MODE" ++ rest) ∈ lines)
    (hlevel : s.cfg.logLevel ≠ lit "error") (clock : Nat → Tm) :
    ∃ rest', (.warn, lit "SAFETY: LIVE CHAOS MODE" ++ rest') ∈ readLog (p.streams env clock).stderr := by
  obtain ⟨_, _, logged, -, happends⟩ := appends_streams h hout clock
  have hpass : (LogLevel.warn, lit "SAFETY: LIVE CHAOS MODE" ++ rest) ∈ passing s.level lines :=
    List.mem_filter.mpr ⟨hline, decide_eq_true (value_le_warn h.level hlevel)⟩
  have hread := shown_mem_readLog happends (List.mem_append_right _ hpass) rfl
  rw [shown, Mark.printed_append (by decide)] at hread
  exact ⟨printed rest, hread⟩

/-- A setup is live when the file says so and no flag contradicts it. -/
theorem liveBy_of_started {env : Environment} {o : Options} {s : Setup} {p : Process}
    {lines : List (LogLevel × List UInt8)} (h : Started env o s) (hdiscover : o.discoverFlag = false)
    (hdry : (engineOf o s.cfg).dryRun = false) (hout : p.output = s.output ++ asOutput lines)
    (hlines : ∀ line ∈ bannerLines o s, line ∈ lines) :
    ∃ cfg, LiveBy env p o cfg ∧
      s.cfg = { cfg with
        dryRun := cfg.dryRun || o.dryRunFlag
        logLevel := Setup.levelText env cfg } := by
  have hconfigured := h.configured
  obtain ⟨hargs, ⟨⟨text, root, cfg, warnings, hfile, -, htext, hdenotes, hcfg, -⟩, hlevel⟩, hstat, -⟩ := h
  have hflag : o.dryRunFlag = false ∧ s.cfg.dryRun = false := by
    simp only [engineOf, ChaosEngine.new] at hdry
    cases hf : o.dryRunFlag <;> simp_all
  have hlive : cfg.dryRun = false := by
    have hboth := hflag.2
    rw [hcfg] at hboth
    simpa [hflag.1] using hboth
  have hin := applyLogLevel_ok hlevel
  have hsame : s.cfg.logLevel = Setup.levelText env cfg := by rw [hcfg]
  rw [hsame] at hin
  rw [hcfg] at hstat
  obtain ⟨rest, hsafety⟩ := safetyLines_live s.cfg hdiscover hdry
  have hbanner := hlines _ (List.mem_append_right _ hsafety)
  have hemitted : .line .warn (lit "SAFETY: LIVE CHAOS MODE" ++ rest) ∈ p.output := by
    rw [hout]
    exact List.mem_append_right _ (List.mem_map.mpr ⟨_, hbanner, rfl⟩)
  have hwarned (hlevel : Setup.levelText env cfg ≠ lit "error") :=
    warned_of_configured hconfigured hout hbanner (hsame ▸ hlevel)
  exact ⟨cfg, ⟨hargs, ⟨hdiscover, hflag.1⟩, ⟨text, root, hfile, htext, hdenotes,
    dryRun_of_denotes hdenotes hlive⟩, hin, hstat, ⟨rest, hemitted⟩, hwarned⟩, hcfg⟩

/-- What follows the probe is what the run of the engine asked for. -/
theorem processAsked_of_asked {env : Environment} {o : Options} {s : Setup} {p : Process}
    {e : ChaosEngine} {n : Nat} {probed asked : List (List UInt8)}
    {lines : List (LogLevel × List UInt8)} (h : Started env o s) (hengine : p.engine = some e)
    (hout : p.output = s.output ++ asOutput lines) (hlines : ∀ line ∈ bannerLines o s, line ∈ lines)
    (hprobed : probed.Sublist [pingWire])
    (hasked : ChaosEngine.Asked env.host.toDouble s.cfg
      (!o.discoverFlag && !(engineOf o s.cfg).dryRun) n e.trace asked) :
    ProcessAsked env p (probed ++ asked) := by
  constructor
  · rw [hengine]
    exact hprobed.append hasked.sublist
  · intro wire hwire
    obtain hwire | hwire := List.mem_append.mp hwire
    · exact .inl (List.mem_singleton.mp (hprobed.subset hwire))
    · right
      obtain hlist | ⟨body, l, hl, hok, m, hm, hwell, hwire'⟩ := hasked.armed wire hwire
      · exact .inl hlist
      · cases hstrikes : (!o.discoverFlag && !(engineOf o s.cfg).dryRun) with
        | false => exact .inl (hasked.disarmed hstrikes wire hwire)
        | true =>
            rw [Bool.and_eq_true, Bool.not_eq_true', Bool.not_eq_true'] at hstrikes
            obtain ⟨cfg, hlive, hcfg⟩ := liveBy_of_started h hstrikes.1 hstrikes.2 hout hlines
            obtain ⟨scfg, fromEnv, level, output⟩ := s
            dsimp only at hcfg
            subst hcfg
            exact .inr ⟨o, cfg, body, l, hlive, hl, hok, m, hm, hwell, hwire'⟩

/-- **Only an armed process strikes.**  The process opens one socket at a time
and leaves none open; its connections carry fronts of the probe, of list calls
and of strikes, in the order of the trace and none twice; and a strike needs a
configuration file, a command line and an environment that all allow it, and a
warning, which is on the stream of errors unless the log level is `error`. -/
theorem main_armed {env : Environment} {rounds : Nat} {p : Process}
    (h : main env rounds = some p) :
    Handles.Disciplined 1 (accesses p.os) ∧ openFds p.os = [] ∧
      ∃ asked, List.Forall₂ (· <+: ·) (connections p.os) asked ∧ ProcessAsked env p asked := by
  have hnone (hos : p.os = []) : Handles.Disciplined 1 (accesses p.os) ∧ openFds p.os = [] ∧
      ∃ asked, List.Forall₂ (· <+: ·) (connections p.os) asked ∧ ProcessAsked env p asked := by
    rw [hos]
    exact ⟨Handles.disciplined_nil 1, rfl, [], .nil, List.nil_sublist _, by simp⟩
  obtain ⟨hos, -⟩ | ⟨hos, -⟩ | ⟨o, s, w, hstarted, hop, hos, hout⟩ := main_cases h
  · exact hnone hos
  · exact hnone hos
  · obtain ⟨err, w₁, hping, rfl, hengine, -⟩ | ⟨e, rolls, hengine, hop⟩ := operate_cases hop
    · obtain ⟨hset, -, new, asked, hnew, hsub, hfront⟩ := (asks_pingOver hping).1
      obtain ⟨hdisc, hopen⟩ := hset settled_probeWorld
      have hconn : connections p.os = new := by
        rw [hos]
        exact hnew
      rw [← World.log_os w₁, ← hos] at hdisc hopen
      rw [hconn]
      refine ⟨hdisc, hopen, asked, hfront, ?_, fun wire hwire => .inl ?_⟩
      · rw [hengine]
        exact hsub
      · exact List.mem_singleton.mp (hsub.subset hwire)
    · obtain ⟨w₁, w₂, lines, -, hping, hrun, hend⟩ := hop.run
      obtain ⟨hset, -, new, probed, hnew, hsub, hfront⟩ := (asks_pingOver hping).1
      obtain ⟨hset', new', asked, hnew', hfront', hasked⟩ := ChaosEngine.asked_runOn hrun
      have hsettled := hset' (hset settled_probeWorld)
      have hos₂ : p.os = w₂.os := by
        rw [hos]
        obtain ⟨-, rfl, -⟩ | ⟨-, rfl⟩ := hend
        · rfl
        · rw [finish_eq]
      have hconn : connections p.os = new ++ new' := by
        rw [hos₂, hnew']
        exact congrArg (· ++ new') hnew
      have hlines : ∀ line ∈ bannerLines o s, line ∈ w.logged := by
        intro line hline
        obtain ⟨-, later, -, hlog, -⟩ :=
          (ChaosEngine.agrees_runOn (ChaosEngine.quiet_live _ _) hrun).1
        have hmem₂ : line ∈ w₂.logged := by simp [hlog, hline]
        obtain ⟨-, rfl, -⟩ | ⟨-, rfl⟩ := hend
        · exact hmem₂
        · rw [finish_eq]
          exact List.mem_append_left _ hmem₂
      refine ⟨by rw [hos₂]; exact hsettled.1, by rw [hos₂]; exact hsettled.2, probed ++ asked, ?_, ?_⟩
      · rw [hconn]
        exact List.rel_append hfront hfront'
      · exact processAsked_of_asked hstarted hengine hout hlines hsub hasked

/-! ## A process that strikes -/

def strikingConfig : List UInt8 :=
  lit "\x7b\"dry_run\": false, \"chaos_probability\": 1.0, " ++
    lit "\"targets\": [\x7b\"name_match\": \"db\", \"action\": \"stop\"\x7d]\x7d"

/-- One container that the rule matches. -/
def strikingListing : List UInt8 :=
  lit "[\x7b\"Id\":\"" ++ List.replicate 64 97 ++
    lit "\",\"Names\":[\"/db-1\"],\"State\":\"running\"\x7d]"

/-- A single tick in live mode, whose stop call succeeds. -/
def striking : Environment where
  argv0 := lit "Chaos_Forger"
  arguments := [lit "--once"]
  logLevelVar := none
  files _ := .ok strikingConfig
  stat _ := .ok true
  sigmask := .ok ()
  host := {
    kernel := HttpClient.replay [lit "HTTP/1.1 204 No Content\r\n\r\n",
      lit "HTTP/1.1 200 OK\r\nContent-Length: " ++ decimal strikingListing.length ++
        lit "\r\n\r\n" ++ strikingListing,
      lit "HTTP/1.1 204 No Content\r\n\r\n"]
    toDouble := some
    fuel := 400 }
  surroundings := Scheduler.jumping 0
  signalled := 0
  reason := .notRequested

def LogLevel.setBy : Output → Option LogLevel
  | .setLevel lvl => some lvl
  | _ => none

theorem striking_runs : ∃ p e, main striking 0 = some p ∧ p.engine = some e ∧
    p.exitCode = some 0 ∧ (connections p.os).length = 3 ∧ e.counters.strikes = 1 ∧
    p.output.filterMap LogLevel.setBy = [.info] := by
  have hruns : ((main striking 0).bind fun p => p.engine.map fun e =>
      (p.exitCode, (connections p.os).length, e.counters.strikes,
        p.output.filterMap LogLevel.setBy)) = some (some 0, 3, 1, [.info]) := by
    decide +kernel
  obtain ⟨p, hmain, hp⟩ := Option.bind_eq_some_iff.mp hruns
  obtain ⟨e, hengine, heq⟩ := Option.map_eq_some_iff.mp hp
  obtain ⟨hcode, heq⟩ := Prod.mk.inj heq
  obtain ⟨hconn, heq⟩ := Prod.mk.inj heq
  obtain ⟨hstrikes, hlevels⟩ := Prod.mk.inj heq
  exact ⟨p, e, hmain, hengine, hcode, hconn, hstrikes, hlevels⟩

theorem main_armed_striking : ∃ p, main striking 0 = some p ∧ (connections p.os).length = 3 ∧
    openFds p.os = [] ∧
    ∃ asked, List.Forall₂ (· <+: ·) (connections p.os) asked ∧ ProcessAsked striking p asked := by
  obtain ⟨p, e, hmain, -, -, hconn, -, -⟩ := striking_runs
  obtain ⟨-, hopen, hasked⟩ := main_armed hmain
  exact ⟨p, hmain, hconn, hopen, hasked⟩

end ChaosForger
