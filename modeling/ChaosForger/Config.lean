import Mathlib.Data.Rat.Defs
import ChaosForger.Libc

/-!
# ChaosForger.Config

The configuration model: target rules, and the settings the engine reads.
`int` and `long` settings are integers, `double` settings are exact rationals
or one of the special values.
-/

namespace ChaosForger

open Libc

/-- A `double`: NaN, an infinity, or the rational it stands for. -/
inductive Double where
  | nan
  | infinite (negative : Bool)
  | finite (value : ℚ)
  deriving DecidableEq, Repr

inductive Action where
  | stop | kill
  deriving DecidableEq, Repr

structure TargetRule where
  nameMatch : List UInt8
  action : Action := .stop
  deriving DecidableEq, Repr

structure Config where
  intervalSeconds : Int := 5
  /-- Exactly 0.3.  The source's default is the double nearest to it, which a roll
  and a parsed 0.3 can equal. -/
  chaosProbability : Double := .finite (3 / 10)
  dockerSocket : List UInt8 := lit "/var/run/docker.sock"
  stopTimeoutSeconds : Int := 10
  dryRun : Bool := true
  maxActionsPerCycle : Int := 1
  /-- The lifetime budget for the whole process; 0 is unlimited. -/
  maxActionsPerRun : Int := 0
  logLevel : List UInt8 := lit "info"
  targets : List TargetRule := []
  deriving DecidableEq, Repr

end ChaosForger
