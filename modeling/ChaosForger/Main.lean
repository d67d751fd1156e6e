import ChaosForger.Scheduler.Live
import ChaosForger.Validate

/-!
# ChaosForger.Main

The program: the command line, the configuration and the log level, the checks
before the first system call on a socket, the probe, the engine or the daemon
loop, and the report.

What surrounds the process is an `Environment`; `main` says what the process
has done when the daemon loop has gone through some rounds.
-/

namespace ChaosForger

open Libc DockerClient

/-- `Chaos_Forger_VERSION` -/
def version : List UInt8 := lit "1.0.0"

/-! ## The command line -/

structure Options where
  configPath : List UInt8 := lit "config.json"
  once : Bool := false
  dryRunFlag : Bool := false
  discoverFlag : Bool := false
  deriving DecidableEq, Repr

/-- What the arguments ask for. -/
inductive CommandLine where
  | run (options : Options)
  | help
  | version
  | missingValue
  | unknown (arg : List UInt8)
  deriving DecidableEq, Repr

/-- The argument loop. -/
def readArguments : List (List UInt8) → Options → CommandLine
  | [], o => .run o
  | arg :: rest, o =>
      if arg = lit "-c" ∨ arg = lit "--config" then
        match rest with
        | [] => .missingValue
        | value :: rest => readArguments rest { o with configPath := value }
      else if arg = lit "-o" ∨ arg = lit "--once" then readArguments rest { o with once := true }
      else if arg = lit "-n" ∨ arg = lit "--dry-run" then
        readArguments rest { o with dryRunFlag := true }
      else if arg = lit "-d" ∨ arg = lit "--discover" then
        readArguments rest { o with discoverFlag := true }
      else if arg = lit "-h" ∨ arg = lit "--help" then .help
      else if arg = lit "-v" ∨ arg = lit "--version" then .version
      else .unknown arg

/-- `print_usage` -/
def usage (argv0 : List UInt8) : List UInt8 :=
  lit "Chaos_Forger " ++ version ++ lit " -- local Docker chaos daemon\n" ++
    lit "\n" ++
    lit "Usage: " ++ argv0 ++ lit " [options]\n" ++
    lit "\n" ++
    lit "Options:\n" ++
    lit "  -c, --config <path>   path to config.json (default: ./config.json)\n" ++
    lit "  -o, --once            run a single tick and exit\n" ++
    lit "  -n, --dry-run         log strikes without executing them\n" ++
    lit "  -d, --discover        list running containers, log rule matches, exit\n" ++
    lit "  -h, --help            show this help\n" ++
    lit "  -v, --version         print version\n"

/-! ## The log level -/

/-- The level the environment asks for; an empty value counts as unset. -/
def logLevelFromEnv : Option (List UInt8) → Option (List UInt8)
  | none => none
  | some raw => if raw = [] then none else some (toLower raw)

def applyLogLevel (lvl : List UInt8) : Except (List UInt8) LogLevel :=
  if lvl = lit "debug" then .ok .debug
  else if lvl = lit "info" then .ok .info
  else if lvl = lit "warn" then .ok .warn
  else if lvl = lit "error" then .ok .error
  else .error (lit "unknown log level '" ++ lvl ++ lit "'")

/-! ## The process -/

/-- What surrounds the process. -/
structure Environment where
  argv0 : List UInt8
  arguments : List (List UInt8)
  /-- `Chaos_Forger_LOG_LEVEL` -/
  logLevelVar : Option (List UInt8)
  files : List UInt8 → Except Errno (List UInt8)
  /-- Whether the file is a socket. -/
  stat : List UInt8 → Except Errno Bool
  sigmask : Except Errno Unit
  host : Host
  surroundings : Surroundings
  /-- The signal that was caught, or 0. -/
  signalled : Nat
  /-- The reason of the shutdown state. -/
  reason : StopReason

/-- What the process writes: text of its own, or through the log. -/
inductive Output where
  | text (toStderr : Bool) (bytes : List UInt8)
  | setLevel (lvl : LogLevel)
  | line (lvl : LogLevel) (msg : List UInt8)

structure Process where
  output : List Output
  os : List Syscall := []
  engine : Option ChaosEngine := none
  /-- Absent while the daemon runs. -/
  exitCode : Option Nat

def errorLines (msgs : List (List UInt8)) : List Output := msgs.map (.line .error)

/-- The configuration with its log level in force. -/
structure Setup where
  cfg : Config
  levelFromEnv : Bool
  level : LogLevel
  output : List Output

/-- From the file to the log level, or the lines `main` returns 1 with. -/
def configure (env : Environment) (o : Options) : Except Fault (Except (List Output) Setup) := do
  let file := (env.files o.configPath).mapError env.host.kernel.strerror
  match ← loadConfig env.host.toDouble o.configPath file {} with
  | .error (err, _) => return .error (errorLines [lit "configuration error: " ++ err])
  | .ok (cfg, warnings) =>
      let output := warnings.map (.line .warn)
      let cfg := if o.dryRunFlag then { cfg with dryRun := true } else cfg  -- CLI overrides config
      match logLevelFromEnv env.logLevelVar with
      | some envLevel =>
          match applyLogLevel envLevel with
          | .error err =>
              return .error (output ++
                errorLines [lit "configuration error: Chaos_Forger_LOG_LEVEL: " ++ err])
          | .ok level =>
              return .ok { cfg := { cfg with logLevel := envLevel }, levelFromEnv := true, level
                           output := output ++ [.setLevel level] }
      | none =>
          match applyLogLevel cfg.logLevel with
          | .error err => return .error (output ++ errorLines [lit "configuration error: " ++ err])
          | .ok level =>
              return .ok { cfg, levelFromEnv := false, level, output := output ++ [.setLevel level] }

/-- The checks before the first connection. -/
def checkSocket (env : Environment) (cfg : Config) : Except (List Output) Unit :=
  match env.stat cfg.dockerSocket with
  | .error errno =>
      .error (errorLines [lit "docker socket not found at '" ++ cfg.dockerSocket ++ lit "': " ++
          env.host.kernel.strerror errno,
        lit "is the Docker daemon running? (WSL2: sudo service docker start)"])
  | .ok isSocket =>
      if ¬ isSocket then
        .error (errorLines [lit "'" ++ cfg.dockerSocket ++ lit "' exists but is not a socket"])
      else
        match env.sigmask with
        | .error errno =>
            .error (errorLines [lit "startup error: " ++
              sysError env.host.kernel (lit "pthread_sigmask(SIG_BLOCK) failed") errno])
        | .ok () => .ok ()

/-- The line with the settings in force. -/
def settingsLine (o : Options) (s : Setup) : List UInt8 :=
  lit "Chaos_Forger " ++ version ++ lit ": config='" ++ o.configPath ++ lit "' socket='" ++
    s.cfg.dockerSocket ++ lit "' api=" ++ dockerApiVersion ++ lit " interval=" ++
    decimalInt s.cfg.intervalSeconds ++ lit "s" ++ lit " chaos_probability=" ++
    formatProbability s.cfg.chaosProbability ++ lit " targets=" ++ decimal s.cfg.targets.length ++
    lit " log=" ++ s.cfg.logLevel ++ (if s.levelFromEnv then lit " (env)" else lit " (config)")

def ruleLine (rule : TargetRule) : List UInt8 :=
  lit "  rule: name~='" ++ rule.nameMatch ++ lit "' -> " ++ actionName rule.action

/-- The safety lines, for one-shot and daemon modes. -/
def safetyLines (o : Options) (cfg : Config) (engine : ChaosEngine) :
    List (LogLevel × List UInt8) :=
  if ¬ o.discoverFlag ∧ ¬ engine.dryRun then
    [(.warn, lit "SAFETY: LIVE CHAOS MODE - matching containers WILL be stopped or " ++
        lit "killed. probability=" ++ formatProbability cfg.chaosProbability ++
        lit " max/cycle=" ++ decimalInt cfg.maxActionsPerCycle ++
        (if 0 < cfg.maxActionsPerRun then lit " max/run=" ++ decimalInt cfg.maxActionsPerRun
         else lit " max/run=unlimited")),
      (.warn, lit "SAFETY: if this is not intentional, stop now (Ctrl+C) and set " ++
        lit "\"dry_run\": true in " ++ o.configPath)]
  else if ¬ o.discoverFlag then [(.info, lit "safety: dry-run mode - no strikes will be issued")]
  else []

def stopReasonName : StopReason → List UInt8
  | .notRequested => lit "not requested"
  | .signal => lit "signal"
  | .internal => lit "internal shutdown"

/-- The last line of a process that ran. -/
def reportLine (engine : ChaosEngine) (reason : StopReason) : List UInt8 :=
  lit "Chaos_Forger stopped | rolls=" ++ decimal engine.counters.rolls ++ lit " strikes=" ++
    decimal engine.counters.strikes ++ lit " errors=" ++ decimal engine.counters.errors ++
    lit " | reason=" ++ stopReasonName reason

/-- Shutdown: what is logged behind the main loop. -/
def finish (env : Environment) (engine : ChaosEngine) (w : World (List Syscall)) :
    World (List Syscall) :=
  let w :=
    if env.signalled ≠ 0 then
      w.log .info (lit "Shutdown requested (signal " ++
        (if env.signalled = 2 then lit "SIGINT" else lit "SIGTERM") ++ lit ")")
    else w
  let w := w.log .debug (lit "Docker connections closed")
  w.log .info (reportLine engine env.reason)

def engineOf (o : Options) (cfg : Config) : ChaosEngine :=
  .new o.discoverFlag cfg (if o.dryRunFlag then some true else none)

/-- The main loop: a single tick, or the daemon. -/
def mainLoop (env : Environment) (o : Options) (cfg : Config) (docker : IDockerClient (List Syscall))
    (rounds : Nat) (w : World (List Syscall)) :
    Option (ChaosEngine × World (List Syscall) × Bool) :=
  let engine := engineOf o cfg
  if o.once ∨ o.discoverFlag then
    (engine.tickOn env.surroundings.stop docker (env.surroundings.input 0).rolled w).map
      fun ((engine, _), w) => (engine, w, true)
  else
    (Scheduler.runUntilShutdownOn env.surroundings docker engine cfg w rounds).map
      fun (s, w) => (s.engine, w, !s.running)

/-- From the probe to the report. -/
def operate (env : Environment) (o : Options) (s : Setup) (rounds : Nat) :
    Option (World (List Syscall) × Option ChaosEngine × Option Nat) :=
  let f : UnixSocketFactory := { socketPath := s.cfg.dockerSocket }
  let w : World (List Syscall) := { os := [] }
  let w := w.log .info (lit "Chaos_Forger starting")
  let w := w.log .info (lit "Connecting to Docker")
  match pingOver env.host f w with
  | none => none
  | some (.error err, w) =>
      some (w.log .error (lit "docker engine unreachable: " ++ err), none, some 1)
  | some (.ok (), w) =>
      let w := w.log .info (lit "Connected to Docker")
      let w := w.log .info (settingsLine o s)
      let w := w.logAll .info (s.cfg.targets.map ruleLine)
      let w := { w with logged := w.logged ++ safetyLines o s.cfg (engineOf o s.cfg) }
      (mainLoop env o s.cfg (live env.host f) rounds w).map fun (engine, w, ended) =>
        if ended then (finish env engine w, some engine, some 0) else (w, some engine, none)

/-- The process, when the daemon loop has had so many rounds; `none` if a call
has not returned. -/
def main (env : Environment) (rounds : Nat) : Option Process :=
  match readArguments env.arguments {} with
  | .missingValue =>
      some { output := errorLines [lit "--config requires a value"], exitCode := some 1 }
  | .help => some { output := [.text true (usage env.argv0)], exitCode := some 0 }
  | .version =>
      some { output := [.text false (lit "Chaos_Forger " ++ version ++ lit "\n")], exitCode := some 0 }
  | .unknown arg =>
      some { output := errorLines [lit "unknown argument '" ++ arg ++ lit "'"] ++
               [.text true (usage env.argv0)]
             exitCode := some 1 }
  | .run o =>
      match configure env o with
      | .error _ => none
      | .ok (.error output) => some { output, exitCode := some 1 }
      | .ok (.ok s) =>
          match checkSocket env s.cfg with
          | .error output => some { output := s.output ++ output, exitCode := some 1 }
          | .ok () =>
              (operate env o s rounds).map fun (w, engine, exitCode) =>
                { output := s.output ++ w.logged.map fun line => .line line.1 line.2
                  os := w.os, engine, exitCode }

end ChaosForger
