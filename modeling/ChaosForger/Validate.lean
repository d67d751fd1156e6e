import Mathlib.Data.Int.Log
import Mathlib.Data.Rat.Floor
import ChaosForger.Config
import ChaosForger.Json
import ChaosForger.Trim

/-!
# ChaosForger.Validate

`validate_config`: the checks of a parsed configuration, in the order of
`config.cpp`, each with its message.

A key that may be absent is a `Setting`: how its value is read and where it is
stored.  The numbers of a `Json` are exact rationals.  A failed validation
keeps what was stored before it.
-/

namespace ChaosForger

open Libc

/-! ## Texts -/

def toLower (s : List UInt8) : List UInt8 := s.map tolower

/-- A byte of `" \t\r\n"`. -/
def isBlank (c : UInt8) : Bool := c == 32 || c == 9 || c == 13 || c == 10

def trim (s : List UInt8) : List UInt8 := Trim.trim isBlank s

def quoted (s : List UInt8) : List UInt8 := lit "'" ++ s ++ lit "'"

/-- The nearest integer, the even one of two. -/
def roundHalfEven (q : ℚ) : Int :=
  if q - ⌊q⌋ < 1 / 2 then ⌊q⌋
  else if 1 / 2 < q - ⌊q⌋ then ⌊q⌋ + 1
  else if ⌊q⌋ % 2 = 0 then ⌊q⌋ else ⌊q⌋ + 1

/-- A point and the digits behind it, without the zeros at their end. -/
def fractionText (digits : List UInt8) : List UInt8 :=
  match (digits.reverse.dropWhile (· == 48)).reverse with
  | [] => []
  | ds => 46 :: ds

/-- `os << v` of a double other than zero: six significant digits, as a
decimal fraction when its exponent is in `[-4, 6)`. -/
def general (q : ℚ) : List UInt8 :=
  let exponent := Int.log 10 |q|
  let rounded := (roundHalfEven (|q| * (10 : ℚ) ^ (5 - exponent))).toNat
  let (significant, exponent) :=
    if rounded = 1000000 then (decimal 100000, exponent + 1) else (decimal rounded, exponent)
  (if q < 0 then [45] else []) ++
    if 0 ≤ exponent ∧ exponent < 6 then
      significant.take (exponent.toNat + 1) ++ fractionText (significant.drop (exponent.toNat + 1))
    else if -4 ≤ exponent ∧ exponent < 0 then
      48 :: fractionText (List.replicate (-exponent - 1).toNat 48 ++ significant)
    else
      significant.take 1 ++ fractionText (significant.drop 1) ++ [101] ++
        [if exponent < 0 then 45 else 43] ++
        (if exponent.natAbs < 10 then [48] else []) ++ decimal exponent.natAbs

/-- `static_cast` of a double to an integer type that holds it. -/
def truncate (q : ℚ) : Int := q.num.tdiv q.den

/-- A number as the messages show it.  The conversion to `long long` is
undefined out of range; x86-64 gives the smallest value. -/
def num (q : ℚ) : List UInt8 :=
  if q = ⌊q⌋ then
    if -2 ^ 63 ≤ q ∧ q < 2 ^ 63 then decimalInt (truncate q) else decimalInt (-2 ^ 63)
  else general q

def actionName : Action → List UInt8
  | .stop => lit "stop"
  | .kill => lit "kill"

def actionFromString (s : List UInt8) : Except (List UInt8) Action :=
  let v := toLower (trim s)
  if v = lit "stop" then .ok .stop
  else if v = lit "kill" then .ok .kill
  else .error (lit "must be \"stop\" or \"kill\", got " ++ quoted s)

/-! ## Keys with a default -/

/-- The settings, or the message validation stops with and the settings so far. -/
abbrev Checked := Except (List UInt8 × Config) Config

/-- A key that may be absent. -/
structure Setting (α : Type) where
  key : List UInt8
  read : Json → Except (List UInt8) α
  store : Config → α → Config

/-- `if (const Json* v = root.find(key))` -/
def Setting.check {α : Type} (s : Setting α) (root : Json) (cfg : Config) : Checked :=
  match root.find s.key with
  | none => .ok cfg
  | some v =>
      match s.read v with
      | .error err => .error (err, cfg)
      | .ok a => .ok (s.store cfg a)

/-- A number that is an integer in `[lo, hi]`. -/
def readInteger (lo hi : Int) (msg : List UInt8) : Json → Except (List UInt8) Int
  | .number q =>
      if q ≠ ⌊q⌋ ∨ q < lo ∨ hi < q then .error (msg ++ (lit ", got " ++ num q))
      else .ok (truncate q)
  | _ => .error msg

def readProbability (msg : List UInt8) : Json → Except (List UInt8) Double
  | .number q =>
      if q < 0 ∨ 1 < q then .error (msg ++ (lit ", got " ++ num q)) else .ok (.finite q)
  | _ => .error msg

def readText (msg : List UInt8) : Json → Except (List UInt8) (List UInt8)
  | .string s => if s = [] then .error msg else .ok s
  | _ => .error msg

def readBool (msg : List UInt8) : Json → Except (List UInt8) Bool
  | .bool b => .ok b
  | _ => .error msg

def readLevel : Json → Except (List UInt8) (List UInt8)
  | .string s =>
      let lvl := toLower (trim s)
      if lvl ≠ lit "debug" ∧ lvl ≠ lit "info" ∧ lvl ≠ lit "warn" ∧ lvl ≠ lit "error" then
        .error (lit "'log_level' must be one of debug|info|warn|error, got " ++ quoted s)
      else .ok lvl
  | _ => .error (lit "'log_level' must be a string (debug|info|warn|error)")

namespace Setting

def intervalSeconds : Setting Int where
  key := lit "interval_seconds"
  read := readInteger 1 86400 (lit "'interval_seconds' must be an integer in [1, 86400]")
  store cfg n := { cfg with intervalSeconds := n }

def chaosProbability : Setting Double where
  key := lit "chaos_probability"
  read := readProbability (lit "'chaos_probability' must be a number in [0.0, 1.0]")
  store cfg q := { cfg with chaosProbability := q }

def dockerSocket : Setting (List UInt8) where
  key := lit "docker_socket"
  read := readText (lit "'docker_socket' must be a non-empty string")
  store cfg s := { cfg with dockerSocket := s }

def stopTimeoutSeconds : Setting Int where
  key := lit "stop_timeout_seconds"
  read := readInteger 1 600 (lit "'stop_timeout_seconds' must be an integer in [1, 600]")
  store cfg n := { cfg with stopTimeoutSeconds := n }

def dryRun : Setting Bool where
  key := lit "dry_run"
  read := readBool (lit "'dry_run' can only be true or false")
  store cfg b := { cfg with dryRun := b }

def maxActionsPerCycle : Setting Int where
  key := lit "max_actions_per_cycle"
  read := readInteger 1 1000 (lit "'max_actions_per_cycle' must be an integer in [1, 1000]")
  store cfg n := { cfg with maxActionsPerCycle := n }

def maxActionsPerRun : Setting Int where
  key := lit "max_actions_per_run"
  read := readInteger 0 1000000
    (lit "'max_actions_per_run' must be an integer in [0, 1000000] (0 = unlimited)")
  store cfg n := { cfg with maxActionsPerRun := n }

def logLevel : Setting (List UInt8) where
  key := lit "log_level"
  read := readLevel
  store cfg s := { cfg with logLevel := s }

end Setting

/-! ## The rules -/

/-- One entry of `targets`; `name` is what messages call it. -/
def readRule (name : List UInt8) (entry : Json) : Except (List UInt8) TargetRule :=
  match entry with
  | .object _ =>
      match entry.find (lit "name_match") with
      | none => .error (name ++ lit " is missing 'name_match'")
      | some (.string text) =>
          if trim text = [] then
            .error (name ++ lit ".name_match must be a non-empty string" ++
              lit " (got an empty/whitespace string)")
          else
            match entry.find (lit "action") with
            | none => .error (name ++ lit " is missing 'action'")
            | some (.string action) =>
                match actionFromString action with
                | .error err => .error (name ++ lit ".action " ++ err)
                | .ok action => .ok { nameMatch := trim text, action }
            | some _ => .error (name ++ lit ".action must be a string (\"stop\" or \"kill\")")
      | some _ => .error (name ++ lit ".name_match must be a non-empty string")
  | _ => .error (name ++ lit " must be an object with 'name_match' and 'action'")

/-- The loop over the entries, at the entry with this index. -/
def checkRules (index : Nat) : List Json → Config → Checked
  | [], cfg => .ok cfg
  | entry :: entries, cfg =>
      match readRule (lit "targets[" ++ decimal index ++ lit "]") entry with
      | .error err => .error (err, cfg)
      | .ok rule => checkRules (index + 1) entries { cfg with targets := cfg.targets ++ [rule] }

/-- The required key. -/
def checkTargets (root : Json) (cfg : Config) : Checked :=
  match root.find (lit "targets") with
  | none =>
      .error (lit "'targets' is required: add at least one rule, e.g. " ++
        lit "\"targets\": [\x7b\"name_match\": \"web-app\", \"action\": \"stop\"\x7d]", cfg)
  | some (.array (entry :: entries)) => checkRules 0 (entry :: entries) cfg
  | some _ => .error (lit "'targets' must be a non-empty array of rule objects", cfg)

/-! ## Warnings -/

def knownKeys : List (List UInt8) :=
  [lit "interval_seconds", lit "chaos_probability", lit "docker_socket",
    lit "stop_timeout_seconds", lit "dry_run", lit "max_actions_per_cycle",
    lit "max_actions_per_run", lit "log_level", lit "targets"]

/-- One warning for each later copy of a rule, and so for each of the rules. -/
def duplicateWarnings : List TargetRule → List (List UInt8)
  | [] => []
  | rule :: rules =>
      (rules.filter (· = rule)).map (fun _ =>
        lit "config: duplicate rule " ++ quoted rule.nameMatch ++ lit " -> " ++
          actionName rule.action) ++ duplicateWarnings rules

/-- What an accepted configuration logs. -/
def warnings (root : Json) (obj : JsonObject) (cfg : Config) : List (List UInt8) :=
  (if (root.find (lit "dry_run")).isNone then
    [lit "config: 'dry_run' not set - defaulting to DRY-RUN mode " ++
      lit "(no strikes; set \"dry_run\": false to go live)"]
   else []) ++
  (obj.filter fun member => member.1 ∉ knownKeys).map (fun member =>
    lit "config: ignoring unknown key " ++ quoted member.1) ++
  duplicateWarnings cfg.targets

/-! ## The configuration -/

/-- The settings and what is logged, or the message and the settings so far. -/
def validateConfig (root : Json) (cfg : Config) :
    Except (List UInt8 × Config) (Config × List (List UInt8)) :=
  match root with
  | .object obj => do
      let cfg ← Setting.intervalSeconds.check root cfg
      let cfg ← Setting.chaosProbability.check root cfg
      let cfg ← Setting.dockerSocket.check root cfg
      let cfg ← Setting.stopTimeoutSeconds.check root cfg
      let cfg ← Setting.dryRun.check root cfg
      let cfg ← Setting.maxActionsPerCycle.check root cfg
      let cfg ← Setting.maxActionsPerRun.check root cfg
      let cfg ← Setting.logLevel.check root cfg
      let cfg ← checkTargets root cfg
      return (cfg, warnings root obj cfg)
  | .null => .error (lit "config root must be a JSON object (got null)", cfg)
  | .array _ => .error (lit "config root must be a JSON object (got array)", cfg)
  | _ => .error (lit "config root must be a JSON object (got scalar)", cfg)

/-- The file's bytes, parsed and validated; `none` for a file that cannot be
opened, with the reason the system gives. -/
def loadConfig (toDouble : ℚ → Option ℚ) (path : List UInt8) (file : Except (List UInt8) (List UInt8))
    (cfg : Config) :
    Except Fault (Except (List UInt8 × Config) (Config × List (List UInt8))) :=
  match file with
  | .error reason =>
      .ok (.error (lit "cannot open config file " ++ quoted path ++ lit ": " ++ reason, cfg))
  | .ok text =>
      if trim text = [] then
        .ok (.error (lit "config file " ++ quoted path ++ lit " is empty", cfg))
      else do
        match ← JsonParser.parse toDouble text [] with
        | (jerr, none) =>
            return .error (lit "JSON parse error in " ++ quoted path ++ lit ": " ++ jerr, cfg)
        | (_, some root) => return validateConfig root cfg

end ChaosForger
