import Mathlib.Algebra.Order.Ring.Rat
import ChaosForger.Discovery

/-!
# ChaosForger.Chaos

The probability decision core and the blast-radius budget: how many of the
armed containers a sweep may strike.
-/

namespace ChaosForger

/-- Cap the strikes of a cycle and of the whole process. -/
def actionBudget (armed : List α) (maxPerCycle maxPerRun alreadyUsed : Int) : List α :=
  let maxPerCycle := if maxPerCycle < 1 then 1 else maxPerCycle  -- must not disable strikes
  let maxPerRun := if maxPerRun < 0 then 0 else maxPerRun
  if 0 < maxPerRun ∧ maxPerRun ≤ alreadyUsed then []
  else
    let allowed := maxPerCycle.toNat
    let allowed :=
      if 0 < maxPerRun then
        let remaining := maxPerRun - alreadyUsed
        let remainingSz := if 0 < remaining then remaining.toNat else 0
        if remainingSz < allowed then remainingSz else allowed
      else allowed
    if armed.length ≤ allowed then armed else armed.take allowed

/-- How many strikes the budget allows: the cycle cap, and what is left of the
run budget when there is one. -/
def allowance (maxPerCycle maxPerRun alreadyUsed : Int) : Nat :=
  if 0 < maxPerRun then
    min (max 1 maxPerCycle).toNat (max 0 (maxPerRun - alreadyUsed)).toNat
  else (max 1 maxPerCycle).toNat

/-- **The budget keeps the first armed containers, in match order.** -/
theorem actionBudget_eq (armed : List α) (maxPerCycle maxPerRun alreadyUsed : Int) :
    actionBudget armed maxPerCycle maxPerRun alreadyUsed =
      armed.take (allowance maxPerCycle maxPerRun alreadyUsed) := by
  have hcycle : (if maxPerCycle < 1 then 1 else maxPerCycle) = max 1 maxPerCycle := by
    split <;> omega
  have htake (n : Nat) : (if armed.length ≤ n then armed else armed.take n) = armed.take n := by
    split
    · next hle => exact (List.take_of_length_le hle).symm
    · rfl
  unfold actionBudget allowance
  dsimp only
  rw [hcycle]
  by_cases hrun : 0 < maxPerRun
  · have hpos : ¬ maxPerRun < 0 := by omega
    rw [if_neg hpos, if_pos hrun, if_pos hrun, htake]
    split
    · next hused =>
        have hzero : (max 0 (maxPerRun - alreadyUsed)).toNat = 0 := by omega
        rw [hzero, Nat.min_zero, List.take_zero]
    · congr 1
      split <;> split <;> omega
  · have hnone : ¬ 0 < (if maxPerRun < 0 then 0 else maxPerRun) := by split <;> omega
    rw [if_neg (fun h => hnone h.1), if_neg hnone, if_neg hrun, htake]

/-- The gate of a scheduler cycle. -/
structure ChaosRoller where
  probability : ℚ := 0
  rolls : Nat := 0
  deriving DecidableEq, Repr

/-- What a roll yields: `uniform_real_distribution` over `[0, 1)`. -/
def Rolled : Type := { value : ℚ // 0 ≤ value ∧ value < 1 }

namespace ChaosRoller

/-- Clamp to `[0, 1]`; NaN must not mean "always fire". -/
def setProbability (r : ChaosRoller) : Double → ChaosRoller
  | .nan => { r with probability := 0 }
  | .infinite negative => { r with probability := if negative then 0 else 1 }
  | .finite p => { r with probability := if p < 0 then 0 else if 1 < p then 1 else p }

/-- One gate evaluation: true when chaos fires this cycle. -/
def roll (r : ChaosRoller) (rolled : Rolled) : Bool × ChaosRoller :=
  (rolled.val < r.probability, { r with rolls := r.rolls + 1 })

end ChaosRoller

end ChaosForger
