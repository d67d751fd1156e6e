import ChaosForger.Chaos
import ChaosForger.Machine
import ChaosForger.Shutdown

/-!
# ChaosForger.Engine

The chaos engine: one tick is discover, match, roll, strike.  The Docker
client, the dice and the shutdown flag are the environment of a tick
(`TickInput`, `stop`); the trace records what the tick did with them, one
event for each elementary step, and the flag is read by the position of the
guard in the trace.

`Ticked` and `Sweep` say once and for all what a tick and a sweep can do.
-/

namespace ChaosForger

/-- An elementary step of the engine. -/
inductive Event where
  /-- A shutdown guard, with the answer it got. -/
  | guard (requested : Bool)
  | listCall
  | listReturn (ok : Bool)
  | roll (fires : Bool)
  | strikeCall (call : StrikeCall)
  | strikeReturn (result : StrikeResult)
  deriving DecidableEq, Repr

/-- What the environment does in a tick: the result of the list call, the
roll, and how each stop or kill call of the sweep ends. -/
structure TickInput where
  list : Option (List Container)
  rolled : Rolled
  strike : Nat → StrikeResult

/-- Without a bound, where the source counts in `unsigned long long`. -/
structure Counters where
  rolls : Nat := 0
  strikes : Nat := 0
  errors : Nat := 0
  deriving DecidableEq, Repr

structure ChaosEngine where
  discoverOnly : Bool
  cfg : Config
  dryRunOverride : Option Bool
  dryRun : Bool
  roller : ChaosRoller
  forcedRoll : Option Bool := none
  counters : Counters := {}
  /-- A `long` of the source, here without a bound. -/
  runBudgetUsed : Int := 0
  /-- What the engine has done so far. -/
  trace : List Event := []
  deriving DecidableEq, Repr

namespace ChaosEngine

/-- The constructor. -/
def new (discoverOnly : Bool) (cfg : Config) (dryRunOverride : Option Bool) : ChaosEngine :=
  { discoverOnly, cfg, dryRunOverride
    dryRun := dryRunOverride.getD cfg.dryRun
    roller := ChaosRoller.setProbability {} cfg.chaosProbability }

def emit (e : ChaosEngine) (event : Event) : ChaosEngine := { e with trace := e.trace ++ [event] }

/-- Read the shutdown flag. -/
def stopRequested (stop : Nat → Bool) (e : ChaosEngine) : Bool × ChaosEngine :=
  (stop e.trace.length, e.emit (.guard (stop e.trace.length)))

/-- The probability gate: evaluated once per scheduler cycle, before any strike. -/
def shouldStrike (e : ChaosEngine) (rolled : Rolled) : Bool × ChaosEngine :=
  let e := { e with counters.rolls := e.counters.rolls + 1 }
  match e.forcedRoll with
  | some fires => (fires, { e with forcedRoll := none }.emit (.roll fires))  -- one-shot
  | none =>
      let (fires, roller) := e.roller.roll rolled
      (fires, { e with roller }.emit (.roll fires))

/-- The call that strikes an armed container. -/
def callOf {rules : List TargetRule} (cfg : Config) (m : MatchedContainer rules) : StrikeCall :=
  match m.rule.action with
  | .stop => .stopContainer m.container.id cfg.stopTimeoutSeconds
  | .kill => .killContainer m.container.id

/-- One strike of the sweep, and what it counts as. -/
def strike {rules : List TargetRule} (e : ChaosEngine) (result : StrikeResult)
    (m : MatchedContainer rules) : ChaosEngine :=
  let e := (e.emit (.strikeCall (callOf e.cfg m))).emit (.strikeReturn result)
  if result.ok then
    { e with
      counters.strikes := e.counters.strikes + 1
      runBudgetUsed := e.runBudgetUsed + 1 }
  else if result.httpStatus = 404 ∨ result.httpStatus = 409 then e
  else { e with counters.errors := e.counters.errors + 1 }

def executeStrikes {rules : List TargetRule} (stop : Nat → Bool) :
    (Nat → StrikeResult) → List (MatchedContainer rules) → ChaosEngine → ChaosEngine
  | _, [], e => e
  | result, m :: armed, e =>
      let (requested, e) := e.stopRequested stop  -- guard #3
      if requested then e
      else if e.dryRun then executeStrikes stop result armed e
      else executeStrikes stop (fun k => result (k + 1)) armed (e.strike (result 0) m)

/-- One scheduler tick; false when discovery failed. -/
def tick (stop : Nat → Bool) (input : TickInput) (e : ChaosEngine) : ChaosEngine × Bool :=
  let (requested, e) := e.stopRequested stop  -- guard #1
  if requested then (e, true)
  else
    let e := (e.emit .listCall).emit (.listReturn input.list.isSome)
    match input.list with
    | none => ({ e with counters.errors := e.counters.errors + 1 }, false)
    | some running =>
        let matched := matchContainers running e.cfg.targets
        if matched = [] then (e, true)
        else
          let (requested, e) := e.stopRequested stop  -- guard #2
          if requested then (e, true)
          else if e.discoverOnly then (e, true)
          else
            let (fires, e) := e.shouldStrike input.rolled
            if fires then
              let selected := actionBudget matched e.cfg.maxActionsPerCycle e.cfg.maxActionsPerRun
                e.runBudgetUsed
              (executeStrikes stop input.strike selected e, true)
            else (e, true)

def forceNextRoll (e : ChaosEngine) (fires : Bool) : ChaosEngine :=
  { e with forcedRoll := some fires }

/-- A call of the engine's interface. -/
inductive Op where
  | tick (input : TickInput)
  | forceNextRoll (fires : Bool)

def step (stop : Nat → Bool) (e : ChaosEngine) : Op → ChaosEngine
  | .tick input => (tick stop input e).1
  | .forceNextRoll fires => e.forceNextRoll fires

/-- The engine after a sequence of calls. -/
def run (stop : Nat → Bool) (e : ChaosEngine) (ops : List Op) : ChaosEngine :=
  ops.foldl (step stop) e

/-! ## Elementary steps -/

section Steps

variable (e : ChaosEngine)

@[simp] theorem emit_trace (event : Event) : (e.emit event).trace = e.trace ++ [event] := rfl

@[simp] theorem emit_counters (event : Event) : (e.emit event).counters = e.counters := rfl

@[simp] theorem emit_runBudgetUsed (event : Event) :
    (e.emit event).runBudgetUsed = e.runBudgetUsed := rfl

@[simp] theorem emit_cfg (event : Event) : (e.emit event).cfg = e.cfg := rfl

@[simp] theorem emit_dryRun (event : Event) : (e.emit event).dryRun = e.dryRun := rfl

/-- **A strike puts the call and its result on the trace** and counts the result. -/
theorem strike_eq {rules : List TargetRule} (result : StrikeResult) (m : MatchedContainer rules) :
    e.strike result m = { e with
      counters.strikes := e.counters.strikes + result.ok.toNat
      counters.errors := e.counters.errors + result.failed.toNat
      runBudgetUsed := e.runBudgetUsed + result.ok.toNat
      trace := e.trace ++ [.strikeCall (callOf e.cfg m), .strikeReturn result] } := by
  obtain ⟨ok, status, sent⟩ := result
  unfold strike
  cases ok with
  | true => simp [emit, StrikeResult.failed]
  | false =>
      by_cases hs : status = 404 ∨ status = 409
      · obtain rfl | rfl := hs <;> simp [emit, StrikeResult.failed]
      · obtain ⟨h404, h409⟩ := not_or.mp hs
        have hcount : (status != 404 && status != 409) = true := by simp [h404, h409]
        simp [emit, StrikeResult.failed, hs, hcount]

end Steps

/-- What the engine never changes. -/
structure SameSetup (e e' : ChaosEngine) : Prop where
  discoverOnly : e'.discoverOnly = e.discoverOnly
  cfg : e'.cfg = e.cfg
  dryRunOverride : e'.dryRunOverride = e.dryRunOverride
  dryRun : e'.dryRun = e.dryRun
  probability : e'.roller.probability = e.roller.probability

theorem SameSetup.rfl {e : ChaosEngine} : SameSetup e e :=
  ⟨Eq.refl _, Eq.refl _, Eq.refl _, Eq.refl _, Eq.refl _⟩

theorem SameSetup.trans {e e' e'' : ChaosEngine} (h : SameSetup e e') (h' : SameSetup e' e'') :
    SameSetup e e'' where
  discoverOnly := h'.discoverOnly.trans h.discoverOnly
  cfg := h'.cfg.trans h.cfg
  dryRunOverride := h'.dryRunOverride.trans h.dryRunOverride
  dryRun := h'.dryRun.trans h.dryRun
  probability := h'.probability.trans h.probability

theorem sameSetup_emit (e : ChaosEngine) (event : Event) : SameSetup e (e.emit event) :=
  ⟨rfl, rfl, rfl, rfl, rfl⟩

theorem sameSetup_strike {rules : List TargetRule} (e : ChaosEngine) (result : StrikeResult)
    (m : MatchedContainer rules) : SameSetup e (e.strike result m) := by
  rw [strike_eq]
  exact ⟨rfl, rfl, rfl, rfl, rfl⟩

/-! ## What a sweep can do -/

/-- The runs of the strike loop. -/
inductive Sweep {rules : List TargetRule} (stop : Nat → Bool) :
    (Nat → StrikeResult) → List (MatchedContainer rules) → ChaosEngine → ChaosEngine → Prop where
  | done {result e} : Sweep stop result [] e e
  | cancelled {result m armed e} (hstop : stop e.trace.length = true) :
      Sweep stop result (m :: armed) e (e.emit (.guard true))
  | dry {result m armed e e'} (hstop : stop e.trace.length = false) (hdry : e.dryRun = true)
      (rest : Sweep stop result armed (e.emit (.guard false)) e') :
      Sweep stop result (m :: armed) e e'
  | struck {result m armed e e'} (hstop : stop e.trace.length = false) (hdry : e.dryRun = false)
      (rest : Sweep stop (fun k => result (k + 1)) armed
        ((e.emit (.guard false)).strike (result 0) m) e') :
      Sweep stop result (m :: armed) e e'

theorem sweep_executeStrikes {rules : List TargetRule} (stop : Nat → Bool)
    (result : Nat → StrikeResult) (armed : List (MatchedContainer rules)) (e : ChaosEngine) :
    Sweep stop result armed e (executeStrikes stop result armed e) := by
  induction armed generalizing result e with
  | nil => exact .done
  | cons m armed ih =>
      rw [executeStrikes, stopRequested]
      dsimp only
      cases hstop : stop e.trace.length with
      | true => exact .cancelled hstop
      | false =>
          rw [if_neg (by simp)]
          split
          · next hdry => exact .dry hstop hdry (ih result _)
          · next hdry => exact .struck hstop (Bool.eq_false_of_not_eq_true hdry) (ih _ _)

section

variable {rules : List TargetRule} {stop : Nat → Bool} {result : Nat → StrikeResult}
  {armed : List (MatchedContainer rules)} {e e' : ChaosEngine}

theorem Sweep.sameSetup (h : Sweep stop result armed e e') : SameSetup e e' := by
  induction h with
  | done => exact .rfl
  | cancelled => exact sameSetup_emit _ _
  | dry _ _ _ ih => exact (sameSetup_emit _ _).trans ih
  | struck _ _ _ ih => exact ((sameSetup_emit _ _).trans (sameSetup_strike _ _ _)).trans ih

end

/-! ## What a tick can do -/

/-- Whether chaos fires on this roll. -/
def fires (e : ChaosEngine) (rolled : Rolled) : Bool :=
  e.forcedRoll.getD (rolled.val < e.roller.probability)

/-- The engine after discovery. -/
def listed (e : ChaosEngine) (ok : Bool) : ChaosEngine :=
  ((e.emit (.guard false)).emit .listCall).emit (.listReturn ok)

/-- The engine with one more roll on the books. -/
def rolled (e : ChaosEngine) (fires : Bool) : ChaosEngine :=
  { e with
    counters.rolls := e.counters.rolls + 1
    forcedRoll := none
    roller.rolls := if e.forcedRoll.isSome then e.roller.rolls else e.roller.rolls + 1
    trace := e.trace ++ [.roll fires] }

theorem trace_listed (e : ChaosEngine) (ok : Bool) :
    (e.listed ok).trace = e.trace ++ [.guard false, .listCall, .listReturn ok] := by
  simp [listed]

/-- What a tick has put on the trace when it has rolled. -/
theorem trace_opened (e : ChaosEngine) (fires : Bool) :
    (((e.listed true).emit (.guard false)).rolled fires).trace =
      e.trace ++ [.guard false, .listCall, .listReturn true, .guard false, .roll fires] := by
  simp [rolled, trace_listed]

theorem shouldStrike_eq (e : ChaosEngine) (r : Rolled) :
    e.shouldStrike r = (e.fires r, e.rolled (e.fires r)) := by
  obtain ⟨_, _, _, _, _, forced, _, _, _⟩ := e
  cases forced <;> rfl

/-- The budget's selection from the matched containers. -/
def selected (e : ChaosEngine) (running : List Container) :
    List (MatchedContainer e.cfg.targets) :=
  actionBudget (matchContainers running e.cfg.targets) e.cfg.maxActionsPerCycle
    e.cfg.maxActionsPerRun e.runBudgetUsed

/-- The runs of a tick, by where they end. -/
inductive Ticked (stop : Nat → Bool) (input : TickInput) (e : ChaosEngine) :
    ChaosEngine × Bool → Prop where
  | skipped (hstop : stop e.trace.length = true) : Ticked stop input e (e.emit (.guard true), true)
  | listFailed (hstop : stop e.trace.length = false) (hlist : input.list = none) :
      Ticked stop input e
        ({ e.listed false with counters.errors := e.counters.errors + 1 }, false)
  | quiet {running} (hstop : stop e.trace.length = false) (hlist : input.list = some running)
      (hmatch : matchContainers running e.cfg.targets = []) :
      Ticked stop input e (e.listed true, true)
  | released {running} (hstop : stop e.trace.length = false) (hlist : input.list = some running)
      (hmatch : matchContainers running e.cfg.targets ≠ [])
      (hstop₂ : stop (e.trace.length + 3) = true) :
      Ticked stop input e ((e.listed true).emit (.guard true), true)
  | discovered {running} (hstop : stop e.trace.length = false) (hlist : input.list = some running)
      (hmatch : matchContainers running e.cfg.targets ≠ [])
      (hstop₂ : stop (e.trace.length + 3) = false) (honly : e.discoverOnly = true) :
      Ticked stop input e ((e.listed true).emit (.guard false), true)
  | noChaos {running} (hstop : stop e.trace.length = false) (hlist : input.list = some running)
      (hmatch : matchContainers running e.cfg.targets ≠ [])
      (hstop₂ : stop (e.trace.length + 3) = false) (honly : e.discoverOnly = false)
      (hfires : e.fires input.rolled = false) :
      Ticked stop input e (((e.listed true).emit (.guard false)).rolled false, true)
  | swept {running e'} (hstop : stop e.trace.length = false) (hlist : input.list = some running)
      (hmatch : matchContainers running e.cfg.targets ≠ [])
      (hstop₂ : stop (e.trace.length + 3) = false) (honly : e.discoverOnly = false)
      (hfires : e.fires input.rolled = true)
      (hsweep : Sweep stop input.strike (e.selected running)
        (((e.listed true).emit (.guard false)).rolled true) e') :
      Ticked stop input e (e', true)

/-- **Every tick is one of these.** -/
theorem ticked_tick (stop : Nat → Bool) (input : TickInput) (e : ChaosEngine) :
    Ticked stop input e (tick stop input e) := by
  rw [tick, stopRequested]
  dsimp only
  cases hstop : stop e.trace.length with
  | true => exact .skipped hstop
  | false =>
      have hlisted (ok : Bool) :
          ((e.emit (.guard false)).emit .listCall).emit (.listReturn ok) = e.listed ok := rfl
      have hlen : (e.listed true).trace.length = e.trace.length + 3 := by simp [trace_listed]
      rw [if_neg (by simp), hlisted]
      cases hlist : input.list with
      | none => exact .listFailed hstop hlist
      | some running =>
          dsimp only
          split
          · next hmatch => exact .quiet hstop hlist hmatch
          · next hmatch =>
              rw [Option.isSome_some, stopRequested, hlen]
              dsimp only
              cases hstop₂ : stop (e.trace.length + 3) with
              | true => exact .released hstop hlist hmatch hstop₂
              | false =>
                  rw [if_neg (by simp)]
                  split
                  · next honly => exact .discovered hstop hlist hmatch hstop₂ honly
                  · next honly =>
                      have honly' := Bool.eq_false_of_not_eq_true honly
                      rw [shouldStrike_eq]
                      show Ticked stop input e
                        (if e.fires input.rolled = true then
                          (executeStrikes stop input.strike (e.selected running)
                            (((e.listed true).emit (.guard false)).rolled (e.fires input.rolled)),
                            true)
                        else
                          (((e.listed true).emit (.guard false)).rolled (e.fires input.rolled),
                            true))
                      cases hfires : e.fires input.rolled with
                      | true =>
                          exact .swept hstop hlist hmatch hstop₂ honly' hfires
                            (sweep_executeStrikes stop _ _ _)
                      | false => exact .noChaos hstop hlist hmatch hstop₂ honly' hfires

theorem sameSetup_listed (e : ChaosEngine) (ok : Bool) : SameSetup e (e.listed ok) :=
  ((sameSetup_emit e _).trans (sameSetup_emit _ _)).trans (sameSetup_emit _ _)

theorem sameSetup_opened (e : ChaosEngine) (fires : Bool) :
    SameSetup e (((e.listed true).emit (.guard false)).rolled fires) :=
  have hrolled (e : ChaosEngine) : SameSetup e (e.rolled fires) := ⟨rfl, rfl, rfl, rfl, rfl⟩
  ((sameSetup_listed e true).trans (sameSetup_emit _ _)).trans (hrolled _)

/-- The budget is untouched when a sweep begins. -/
theorem runBudgetUsed_opened (e : ChaosEngine) (fires : Bool) :
    (((e.listed true).emit (.guard false)).rolled fires).runBudgetUsed = e.runBudgetUsed := by
  simp only [rolled, listed, emit_runBudgetUsed]

theorem Ticked.sameSetup {stop : Nat → Bool} {input : TickInput} {e : ChaosEngine}
    {r : ChaosEngine × Bool} (h : Ticked stop input e r) : SameSetup e r.1 := by
  have hasked (requested : Bool) : SameSetup e ((e.listed true).emit (.guard requested)) :=
    (sameSetup_listed e true).trans (sameSetup_emit _ _)
  cases h with
  | skipped => exact sameSetup_emit e _
  | listFailed =>
      obtain ⟨h1, h2, h3, h4, h5⟩ := sameSetup_listed e false
      exact ⟨h1, h2, h3, h4, h5⟩
  | quiet => exact sameSetup_listed e true
  | released => exact hasked true
  | discovered => exact hasked false
  | noChaos => exact sameSetup_opened e false
  | swept _ _ _ _ _ _ hsweep => exact (sameSetup_opened e true).trans hsweep.sameSetup

theorem sameSetup_step (stop : Nat → Bool) (e : ChaosEngine) (op : Op) :
    SameSetup e (step stop e op) := by
  cases op with
  | tick input => exact (ticked_tick stop input e).sameSetup
  | forceNextRoll fires => exact ⟨rfl, rfl, rfl, rfl, rfl⟩

/-- The setup of a reachable engine is the one it was built with. -/
theorem sameSetup_of_reachable {stop : Nat → Bool} {init e : ChaosEngine}
    (h : Machine.Reachable (step stop) init e) : SameSetup init e :=
  h.invariant .rfl fun e op he => he.trans (sameSetup_step stop e op)

end ChaosEngine

end ChaosForger
