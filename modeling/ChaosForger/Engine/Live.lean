import ChaosForger.Docker.Live
import ChaosForger.Engine
import ChaosForger.Validate

/-!
# ChaosForger.Engine.Live

The engine on a client of the Docker interface, with its log lines.

A client has a state of its own, and what it returns may depend on everything
that was asked of it before.  The engine cannot tell: a tick on a client is the
tick of `ChaosForger.Engine` for some input (`tickOn_tick`), so that what is
proved of every input holds for every client.
-/

namespace ChaosForger

open Libc DockerClient

/-- The client interface, over the state of a client.  A call may not return. -/
structure IDockerClient (σ : Type u) where
  listContainers : World σ → Option (Except (List UInt8) (List Container) × World σ)
  stopContainer : List UInt8 → Int → World σ → Option (LiveReply × World σ)
  killContainer : List UInt8 → World σ → Option (LiveReply × World σ)
  ping : World σ → Option (Except (List UInt8) Unit × World σ)

/-- The real client. -/
def DockerClient.live (h : Host) (f : UnixSocketFactory) : IDockerClient (List Syscall) where
  listContainers := listContainersOver h f
  stopContainer := stopContainerOver h f
  killContainer := killContainerOver h f
  ping := pingOver h f

/-- What the engine sees of a reply. -/
def DockerClient.LiveReply.result (r : LiveReply) : StrikeResult :=
  { ok := r.ok, httpStatus := r.httpStatus, sent := r.sent }

/-- `std::fixed` with two digits; a NaN is shown without its sign. -/
def formatProbability : Double → List UInt8
  | .nan => lit "nan"
  | .infinite negative => if negative then lit "-inf" else lit "inf"
  | .finite p =>
      let hundredths := (roundHalfEven (|p| * 100)).toNat
      (if p < 0 then lit "-" else []) ++ decimal (hundredths / 100) ++ lit "." ++
        twoDigits (hundredths % 100)

namespace ChaosEngine

variable {σ : Type u}

/-! ## Log lines -/

/-- The friendly name of an armed container. -/
def friendlyName (c : Container) : List UInt8 :=
  match c.names with
  | [] => c.id.take 12
  | name :: _ => name

def strikeLabel (c : Container) : List UInt8 :=
  match c.names with
  | [] => c.id.take 12
  | name :: _ => name ++ lit " (" ++ c.id.take 12 ++ lit ")"

/-- The one INFO line a quiet cycle is allowed to spend. -/
def quietTickLine (running : Nat) (cfg : Config) : List UInt8 :=
  lit "tick: " ++ decimal running ++ lit " running container(s), no match for " ++
    decimal cfg.targets.length ++ lit " rule(s)"

/-- The two lines of an armed container. -/
def matchLines {rules : List TargetRule} (m : MatchedContainer rules) :
    List (LogLevel × List UInt8) :=
  [(.info, lit "Matched container " ++ friendlyName m.container),
    (.debug, lit "matched rule: '" ++ m.rule.nameMatch ++ lit "' -> " ++ actionName m.rule.action ++
      lit " (targets[" ++ decimal m.ruleIndex ++ lit "]) id=" ++ m.container.id)]

def diceLine (cfg : Config) (rolled : Rolled) (fires : Bool) : List UInt8 :=
  lit "dice roll: " ++ formatProbability (.finite rolled.val) ++
    (if fires then lit " < " else lit " >= ") ++ formatProbability cfg.chaosProbability ++
    (if fires then lit " -> CHAOS FIRES" else lit " -> no chaos this cycle")

def budgetLine (cfg : Config) (selected matched : Nat) (used : Int) : List UInt8 :=
  lit "cycle budget: " ++ decimal (matched - selected) ++ lit " of " ++ decimal matched ++
    lit " armed target(s) held back " ++ lit "(max_actions_per_cycle=" ++
    decimalInt cfg.maxActionsPerCycle ++ lit ", run budget " ++ decimalInt used ++ lit "/" ++
    (if 0 < cfg.maxActionsPerRun then decimalInt cfg.maxActionsPerRun else lit "unlimited") ++
    lit ")"

/-- What a strike logs before its call. -/
def strikeLine (cfg : Config) {rules : List TargetRule} (m : MatchedContainer rules) : List UInt8 :=
  match m.rule.action with
  | .stop =>
      lit "strike: stop container " ++ strikeLabel m.container ++ lit " id=" ++ m.container.id ++
        lit " (graceful, t=" ++ decimalInt cfg.stopTimeoutSeconds ++ lit "s)"
  | .kill =>
      lit "strike: kill container " ++ strikeLabel m.container ++ lit " id=" ++ m.container.id ++
        lit " (SIGKILL)"

/-- What it logs behind the call. -/
def resultLine {rules : List TargetRule} (m : MatchedContainer rules) (r : LiveReply) :
    LogLevel × List UInt8 :=
  if r.ok then
    (.info, lit "strike ok: action=" ++ actionName m.rule.action ++ lit " target=" ++
      strikeLabel m.container ++ lit " http=" ++ decimalInt r.httpStatus)
  else if r.httpStatus = 404 ∨ r.httpStatus = 409 then
    (.warn, lit "strike skipped: action=" ++ actionName m.rule.action ++ lit " target=" ++
      strikeLabel m.container ++ lit " http=" ++ decimalInt r.httpStatus ++ lit " reason=" ++ r.err)
  else
    (.error, lit "strike failed: action=" ++ actionName m.rule.action ++ lit " target=" ++
      strikeLabel m.container ++ lit " http=" ++
      (if 0 < r.httpStatus then decimalInt r.httpStatus else lit "none") ++
      lit " reason=" ++ r.err)

def dryRunLine {rules : List TargetRule} (m : MatchedContainer rules) : List UInt8 :=
  lit "Dry-run: would " ++ actionName m.rule.action ++ lit " " ++ strikeLabel m.container

/-! ## A tick on a client -/

/-- The probability gate, with its line. -/
def shouldStrikeOn (e : ChaosEngine) (rolled : Rolled) (w : World σ) :
    Bool × ChaosEngine × World σ :=
  let (fires, e') := e.shouldStrike rolled
  match e.forcedRoll with
  | some _ =>
      (fires, e', w.log .debug (lit "forced roll (test): -> " ++
        (if fires then lit "FIRES" else lit "no chaos")))
  | none =>
      (fires, e', w.log (if fires then .info else .debug) (diceLine e.cfg rolled fires))

/-- The call of a strike. -/
def callOn (docker : IDockerClient σ) (call : StrikeCall) (w : World σ) :
    Option (LiveReply × World σ) :=
  match call with
  | .stopContainer id timeoutSeconds => docker.stopContainer id timeoutSeconds w
  | .killContainer id => docker.killContainer id w

def executeStrikesOn {rules : List TargetRule} (stop : Nat → Bool) (docker : IDockerClient σ) :
    List (MatchedContainer rules) → ChaosEngine → World σ → Option (ChaosEngine × World σ)
  | [], e, w => some (e, w)
  | m :: armed, e, w =>
      let (requested, e) := e.stopRequested stop  -- guard #3
      if requested then
        some (e, w.log .warn (lit "shutdown requested mid-sweep: remaining strike(s) cancelled"))
      else if e.dryRun then executeStrikesOn stop docker armed e (w.log .warn (dryRunLine m))
      else
        match callOn docker (callOf e.cfg m) (w.log .info (strikeLine e.cfg m)) with
        | none => none
        | some (r, w) =>
            executeStrikesOn stop docker armed (e.strike r.result m)
              (w.log (resultLine m r).1 (resultLine m r).2)

/-- One scheduler tick; false when discovery failed. -/
def tickOn (stop : Nat → Bool) (docker : IDockerClient σ) (rolled : Rolled) (e : ChaosEngine)
    (w : World σ) : Option ((ChaosEngine × Bool) × World σ) :=
  let (requested, e) := e.stopRequested stop  -- guard #1
  if requested then
    some ((e, true), w.log .debug (lit "shutdown in progress: cycle skipped before discovery"))
  else
    match docker.listContainers w with
    | none => none
    | some (list, w) =>
        let e := (e.emit .listCall).emit (.listReturn list.toOption.isSome)
        match list with
        | .error err =>
            some (({ e with counters.errors := e.counters.errors + 1 }, false),
              w.log .error (lit "discovery failed: " ++ err))
        | .ok running =>
            let w := w.log .debug
              (lit "tick: " ++ decimal running.length ++ lit " running container(s) discovered")
            let matched := matchContainers running e.cfg.targets
            if matched = [] then some ((e, true), w.log .info (quietTickLine running.length e.cfg))
            else
              let w := { w with logged := w.logged ++ matched.flatMap matchLines }
              let (requested, e) := e.stopRequested stop  -- guard #2
              if requested then
                some ((e, true), w.log .warn (lit "shutdown requested mid-cycle: " ++
                  decimal matched.length ++ lit " armed target(s) released without strikes"))
              else if e.discoverOnly then some ((e, true), w)
              else
                let (fires, e, w) := e.shouldStrikeOn rolled w
                if fires then
                  let selected := actionBudget matched e.cfg.maxActionsPerCycle
                    e.cfg.maxActionsPerRun e.runBudgetUsed
                  let w :=
                    if selected.length < matched.length then
                      w.log .warn (budgetLine e.cfg selected.length matched.length e.runBudgetUsed)
                    else w
                  (executeStrikesOn stop docker selected e w).map fun (e, w) => ((e, true), w)
                else some ((e, true), w)

/-- Some ticks in a row. -/
def runOn (stop : Nat → Bool) (docker : IDockerClient σ) :
    List Rolled → ChaosEngine → World σ → Option (ChaosEngine × World σ)
  | [], e, w => some (e, w)
  | rolled :: rolls, e, w =>
      match tickOn stop docker rolled e w with
      | none => none
      | some ((e, _), w) => runOn stop docker rolls e w

/-! ## What a tick on a client can do -/

/-- The runs of the strike loop on a client. -/
inductive SweepOn {rules : List TargetRule} (stop : Nat → Bool) (docker : IDockerClient σ) :
    List (MatchedContainer rules) → ChaosEngine → World σ → ChaosEngine → World σ → Prop where
  | done {e w} : SweepOn stop docker [] e w e w
  | cancelled {m armed e w} (hstop : stop e.trace.length = true) :
      SweepOn stop docker (m :: armed) e w (e.emit (.guard true))
        (w.log .warn (lit "shutdown requested mid-sweep: remaining strike(s) cancelled"))
  | dry {m armed e e' w w'} (hstop : stop e.trace.length = false) (hdry : e.dryRun = true)
      (rest : SweepOn stop docker armed (e.emit (.guard false)) (w.log .warn (dryRunLine m)) e' w') :
      SweepOn stop docker (m :: armed) e w e' w'
  | struck {m armed e e' w w' w₁ r} (hstop : stop e.trace.length = false) (hdry : e.dryRun = false)
      (hcall : callOn docker (callOf e.cfg m) (w.log .info (strikeLine e.cfg m)) = some (r, w₁))
      (rest : SweepOn stop docker armed ((e.emit (.guard false)).strike r.result m)
        (w₁.log (resultLine m r).1 (resultLine m r).2) e' w') :
      SweepOn stop docker (m :: armed) e w e' w'

/-- The world after discovery. -/
def listedWorld (w : World σ) (running : List Container) : World σ :=
  w.log .debug (lit "tick: " ++ decimal running.length ++ lit " running container(s) discovered")

/-- The world after matching. -/
def matchedWorld (w : World σ) (running : List Container) (rules : List TargetRule) : World σ :=
  { listedWorld w running with
    logged := (listedWorld w running).logged ++ (matchContainers running rules).flatMap matchLines }

/-- The line of the roll. -/
def rollLine (e : ChaosEngine) (rolled : Rolled) : LogLevel × List UInt8 :=
  if e.forcedRoll.isSome then
    (.debug, lit "forced roll (test): -> " ++
      (if e.fires rolled then lit "FIRES" else lit "no chaos"))
  else (if e.fires rolled then .info else .debug, diceLine e.cfg rolled (e.fires rolled))

theorem shouldStrikeOn_eq (e : ChaosEngine) (rolled : Rolled) (w : World σ) :
    e.shouldStrikeOn rolled w = (e.fires rolled, e.rolled (e.fires rolled),
      w.log (e.rollLine rolled).1 (e.rollLine rolled).2) := by
  rw [shouldStrikeOn, shouldStrike_eq, rollLine]
  cases e.forcedRoll <;> rfl

/-- The world when the sweep begins. -/
def sweepWorld (e : ChaosEngine) (rolled : Rolled) (running : List Container) (w : World σ) :
    World σ :=
  let w := (matchedWorld w running e.cfg.targets).log (e.rollLine rolled).1 (e.rollLine rolled).2
  if (e.selected running).length < (matchContainers running e.cfg.targets).length then
    w.log .warn (budgetLine e.cfg (e.selected running).length
      (matchContainers running e.cfg.targets).length e.runBudgetUsed)
  else w

/-- The runs of a tick on a client, by where they end. -/
inductive TickedOn (stop : Nat → Bool) (docker : IDockerClient σ) (rolled : Rolled)
    (e : ChaosEngine) (w : World σ) : ChaosEngine × Bool → World σ → Prop where
  | skipped (hstop : stop e.trace.length = true) :
      TickedOn stop docker rolled e w (e.emit (.guard true), true)
        (w.log .debug (lit "shutdown in progress: cycle skipped before discovery"))
  | listFailed {err w₁} (hstop : stop e.trace.length = false)
      (hlist : docker.listContainers w = some (.error err, w₁)) :
      TickedOn stop docker rolled e w
        ({ e.listed false with counters.errors := e.counters.errors + 1 }, false)
        (w₁.log .error (lit "discovery failed: " ++ err))
  | quiet {running w₁} (hstop : stop e.trace.length = false)
      (hlist : docker.listContainers w = some (.ok running, w₁))
      (hmatch : matchContainers running e.cfg.targets = []) :
      TickedOn stop docker rolled e w (e.listed true, true)
        ((listedWorld w₁ running).log .info (quietTickLine running.length e.cfg))
  | released {running w₁} (hstop : stop e.trace.length = false)
      (hlist : docker.listContainers w = some (.ok running, w₁))
      (hmatch : matchContainers running e.cfg.targets ≠ [])
      (hstop₂ : stop (e.trace.length + 3) = true) :
      TickedOn stop docker rolled e w ((e.listed true).emit (.guard true), true)
        ((matchedWorld w₁ running e.cfg.targets).log .warn (lit "shutdown requested mid-cycle: " ++
          decimal (matchContainers running e.cfg.targets).length ++
          lit " armed target(s) released without strikes"))
  | discovered {running w₁} (hstop : stop e.trace.length = false)
      (hlist : docker.listContainers w = some (.ok running, w₁))
      (hmatch : matchContainers running e.cfg.targets ≠ [])
      (hstop₂ : stop (e.trace.length + 3) = false) (honly : e.discoverOnly = true) :
      TickedOn stop docker rolled e w ((e.listed true).emit (.guard false), true)
        (matchedWorld w₁ running e.cfg.targets)
  | noChaos {running w₁} (hstop : stop e.trace.length = false)
      (hlist : docker.listContainers w = some (.ok running, w₁))
      (hmatch : matchContainers running e.cfg.targets ≠ [])
      (hstop₂ : stop (e.trace.length + 3) = false) (honly : e.discoverOnly = false)
      (hfires : e.fires rolled = false) :
      TickedOn stop docker rolled e w (((e.listed true).emit (.guard false)).rolled false, true)
        ((matchedWorld w₁ running e.cfg.targets).log (e.rollLine rolled).1 (e.rollLine rolled).2)
  | swept {running w₁ e' w'} (hstop : stop e.trace.length = false)
      (hlist : docker.listContainers w = some (.ok running, w₁))
      (hmatch : matchContainers running e.cfg.targets ≠ [])
      (hstop₂ : stop (e.trace.length + 3) = false) (honly : e.discoverOnly = false)
      (hfires : e.fires rolled = true)
      (hsweep : SweepOn stop docker (e.selected running)
        (((e.listed true).emit (.guard false)).rolled true) (e.sweepWorld rolled running w₁) e' w') :
      TickedOn stop docker rolled e w (e', true) w'

section Spec

variable {stop : Nat → Bool} {docker : IDockerClient σ} {e e' : ChaosEngine} {w w' : World σ}

theorem sweepOn_executeStrikesOn {rules : List TargetRule} {armed : List (MatchedContainer rules)}
    (h : executeStrikesOn stop docker armed e w = some (e', w')) :
    SweepOn stop docker armed e w e' w' := by
  induction armed generalizing e w with
  | nil =>
      obtain ⟨rfl, rfl⟩ := Prod.mk.inj (Option.some.inj h)
      exact .done
  | cons m armed ih =>
      rw [executeStrikesOn, stopRequested] at h
      dsimp only at h
      cases hstop : stop e.trace.length with
      | true =>
          rw [hstop, if_pos rfl] at h
          obtain ⟨rfl, rfl⟩ := Prod.mk.inj (Option.some.inj h)
          exact .cancelled hstop
      | false =>
          rw [hstop, if_neg Bool.false_ne_true, emit_dryRun, emit_cfg] at h
          split at h
          · next hdry => exact .dry hstop hdry (ih h)
          · next hdry =>
              split at h
              · contradiction
              · next r w₁ hcall =>
                  exact .struck hstop (Bool.eq_false_of_not_eq_true hdry) hcall (ih h)

/-- **Every tick on a client is one of these.** -/
theorem tickedOn_tickOn {rolled : Rolled} {r : ChaosEngine × Bool}
    (h : tickOn stop docker rolled e w = some (r, w')) : TickedOn stop docker rolled e w r w' := by
  rw [tickOn, stopRequested] at h
  dsimp only at h
  cases hstop : stop e.trace.length with
  | true =>
      rw [hstop, if_pos rfl] at h
      obtain ⟨rfl, rfl⟩ := Prod.mk.inj (Option.some.inj h)
      exact .skipped hstop
  | false =>
      have hlen : (e.listed true).trace.length = e.trace.length + 3 := by simp [trace_listed]
      rw [hstop, if_neg Bool.false_ne_true] at h
      cases hlist : docker.listContainers w with
      | none => simp [hlist] at h
      | some res =>
          obtain ⟨list, w₁⟩ := res
          rw [hlist] at h
          cases list with
          | error err =>
              obtain ⟨rfl, rfl⟩ := Prod.mk.inj (Option.some.inj h)
              exact .listFailed hstop hlist
          | ok running =>
              have hlisted : ((e.emit (.guard false)).emit .listCall).emit
                  (.listReturn (Except.ok (ε := List UInt8) running).toOption.isSome) =
                    e.listed true := rfl
              dsimp only at h
              rw [hlisted] at h
              split at h
              · next hmatch =>
                  obtain ⟨rfl, rfl⟩ := Prod.mk.inj (Option.some.inj h)
                  exact .quiet hstop hlist hmatch
              · next hmatch =>
                  rw [stopRequested, hlen] at h
                  dsimp only at h
                  cases hstop₂ : stop (e.trace.length + 3) with
                  | true =>
                      rw [hstop₂, if_pos rfl] at h
                      obtain ⟨rfl, rfl⟩ := Prod.mk.inj (Option.some.inj h)
                      exact .released hstop hlist hmatch hstop₂
                  | false =>
                      rw [hstop₂, if_neg Bool.false_ne_true] at h
                      split at h
                      · next honly =>
                          obtain ⟨rfl, rfl⟩ := Prod.mk.inj (Option.some.inj h)
                          exact .discovered hstop hlist hmatch hstop₂ honly
                      · next honly =>
                          have honly' := Bool.eq_false_of_not_eq_true honly
                          have hf : ((e.listed true).emit (.guard false)).fires rolled =
                            e.fires rolled := rfl
                          have hl : ((e.listed true).emit (.guard false)).rollLine rolled =
                            e.rollLine rolled := rfl
                          rw [shouldStrikeOn_eq, hf, hl] at h
                          dsimp only at h
                          cases hfires : e.fires rolled with
                          | false =>
                              rw [hfires, if_neg Bool.false_ne_true] at h
                              obtain ⟨rfl, rfl⟩ := Prod.mk.inj (Option.some.inj h)
                              exact .noChaos hstop hlist hmatch hstop₂ honly' hfires
                          | true =>
                              rw [hfires, if_pos rfl, Option.map_eq_some_iff] at h
                              obtain ⟨⟨e', w''⟩, hsweep, heq⟩ := h
                              obtain ⟨rfl, rfl⟩ := Prod.mk.inj heq
                              exact .swept hstop hlist hmatch hstop₂ honly' hfires
                                (sweepOn_executeStrikesOn hsweep)

/-! ## The same tick -/

/-- A sweep on a client is a sweep, for the results of the client. -/
theorem SweepOn.sweep {rules : List TargetRule} {armed : List (MatchedContainer rules)}
    (h : SweepOn stop docker armed e w e' w') : ∃ result, Sweep stop result armed e e' := by
  induction h with
  | done => exact ⟨fun _ => ⟨false, 0, false⟩, .done⟩
  | cancelled hstop => exact ⟨fun _ => ⟨false, 0, false⟩, .cancelled hstop⟩
  | dry hstop hdry _ ih =>
      obtain ⟨result, hsweep⟩ := ih
      exact ⟨result, .dry hstop hdry hsweep⟩
  | @struck _ _ _ _ _ _ _ r hstop hdry _ _ ih =>
      obtain ⟨result, hsweep⟩ := ih
      exact ⟨fun k => if k = 0 then r.result else result (k - 1), .struck hstop hdry hsweep⟩

/-- A run on a client is a run for what the client returned. -/
theorem TickedOn.ticked {rolled : Rolled} {r : ChaosEngine × Bool}
    (h : TickedOn stop docker rolled e w r w') :
    ∃ input, input.rolled = rolled ∧ Ticked stop input e r ∧
      ∀ running, input.list = some running →
        ∃ w₁, docker.listContainers w = some (.ok running, w₁) := by
  have hnone : ∀ result : Nat → StrikeResult, ∀ running,
      ({ list := none, rolled, strike := result } : TickInput).list = some running →
        ∃ w₁, docker.listContainers w = some (.ok running, w₁) := by simp
  have hsome {running w₁} (hlist : docker.listContainers w = some (.ok running, w₁)) :
      ∀ result : Nat → StrikeResult, ∀ running',
        ({ list := some running, rolled, strike := result } : TickInput).list = some running' →
          ∃ w₁, docker.listContainers w = some (.ok running', w₁) := by
    rintro result _ ⟨⟩
    exact ⟨w₁, hlist⟩
  let idle : Nat → StrikeResult := fun _ => ⟨false, 0, false⟩
  let failed : TickInput := { list := none, rolled, strike := idle }
  let quiet (running : List Container) : TickInput := { list := some running, rolled, strike := idle }
  cases h with
  | skipped hstop => exact ⟨failed, rfl, .skipped hstop, hnone idle⟩
  | listFailed hstop => exact ⟨failed, rfl, .listFailed hstop rfl, hnone idle⟩
  | @quiet running _ hstop hlist hmatch =>
      exact ⟨quiet running, rfl, .quiet hstop rfl hmatch, hsome hlist idle⟩
  | @released running _ hstop hlist hmatch hstop₂ =>
      exact ⟨quiet running, rfl, .released hstop rfl hmatch hstop₂, hsome hlist idle⟩
  | @discovered running _ hstop hlist hmatch hstop₂ honly =>
      exact ⟨quiet running, rfl, .discovered hstop rfl hmatch hstop₂ honly, hsome hlist idle⟩
  | @noChaos running _ hstop hlist hmatch hstop₂ honly hfires =>
      exact ⟨quiet running, rfl, .noChaos hstop rfl hmatch hstop₂ honly hfires, hsome hlist idle⟩
  | @swept running _ _ _ hstop hlist hmatch hstop₂ honly hfires hsweep =>
      obtain ⟨result, hsweep⟩ := hsweep.sweep
      let input : TickInput := { list := some running, rolled, strike := result }
      have hticked : Ticked stop input e _ := .swept hstop rfl hmatch hstop₂ honly hfires hsweep
      exact ⟨input, rfl, hticked, hsome hlist result⟩

/-- The strike loop takes the runs of `Sweep` only. -/
theorem Sweep.executeStrikes_eq {rules : List TargetRule} {result : Nat → StrikeResult}
    {armed : List (MatchedContainer rules)} (h : Sweep stop result armed e e') :
    executeStrikes stop result armed e = e' := by
  induction h with
  | done => rfl
  | cancelled hstop => rw [executeStrikes, stopRequested, hstop]; rfl
  | dry hstop hdry _ ih =>
      rw [executeStrikes, stopRequested, hstop]
      dsimp only
      rw [if_neg Bool.false_ne_true, emit_dryRun, if_pos hdry, ih]
  | struck hstop hdry _ ih =>
      rw [executeStrikes, stopRequested, hstop]
      dsimp only
      rw [if_neg Bool.false_ne_true, emit_dryRun, if_neg (by simp [hdry]), ih]

/-- A tick that has matched. -/
theorem tick_of_matched {input : TickInput} {running : List Container}
    (hstop : stop e.trace.length = false) (hlist : input.list = some running)
    (hmatch : matchContainers running e.cfg.targets ≠ []) :
    tick stop input e =
      if stop (e.trace.length + 3) = true then ((e.listed true).emit (.guard true), true)
      else if e.discoverOnly = true then ((e.listed true).emit (.guard false), true)
      else if e.fires input.rolled = true then
        (executeStrikes stop input.strike (e.selected running)
          (((e.listed true).emit (.guard false)).rolled true), true)
      else (((e.listed true).emit (.guard false)).rolled false, true) := by
  have hlisted (ok : Bool) :
      ((e.emit (.guard false)).emit .listCall).emit (.listReturn ok) = e.listed ok := rfl
  have hlen : (e.listed true).trace.length = e.trace.length + 3 := by simp [trace_listed]
  have hf : ((e.listed true).emit (.guard false)).fires input.rolled = e.fires input.rolled := rfl
  rw [tick, stopRequested, hstop]
  dsimp only
  rw [if_neg Bool.false_ne_true, hlisted, hlist]
  dsimp only
  rw [Option.isSome_some]
  refine (if_neg hmatch).trans ?_
  rw [stopRequested, hlen]
  dsimp only
  cases hstop₂ : stop (e.trace.length + 3) with
  | true => rfl
  | false =>
      rw [if_neg Bool.false_ne_true, if_neg Bool.false_ne_true]
      refine ite_congr rfl (fun _ => rfl) fun _ => ?_
      rw [shouldStrike_eq, hf]
      cases e.fires input.rolled with
      | true => rfl
      | false => rfl

/-- So does the tick. -/
theorem Ticked.tick_eq {input : TickInput} {r : ChaosEngine × Bool} (h : Ticked stop input e r) :
    tick stop input e = r := by
  cases h with
  | skipped hstop =>
      rw [tick, stopRequested, hstop]
      rfl
  | listFailed hstop hlist =>
      rw [tick, stopRequested, hstop, hlist]
      rfl
  | quiet hstop hlist hmatch =>
      rw [tick, stopRequested, hstop, hlist]
      exact if_pos hmatch
  | released hstop hlist hmatch hstop₂ =>
      rw [tick_of_matched hstop hlist hmatch, if_pos hstop₂]
  | discovered hstop hlist hmatch hstop₂ honly =>
      rw [tick_of_matched hstop hlist hmatch, if_neg (by simp [hstop₂]), if_pos honly]
  | noChaos hstop hlist hmatch hstop₂ honly hfires =>
      rw [tick_of_matched hstop hlist hmatch, if_neg (by simp [hstop₂]), if_neg (by simp [honly]),
        if_neg (by simp [hfires])]
  | swept hstop hlist hmatch hstop₂ honly hfires hsweep =>
      rw [tick_of_matched hstop hlist hmatch, if_neg (by simp [hstop₂]), if_neg (by simp [honly]),
        if_pos hfires, hsweep.executeStrikes_eq]

/-- **A tick on a client is a tick**: the engine cannot tell a client from what
it returns. -/
theorem tickOn_tick {rolled : Rolled} {r : ChaosEngine × Bool}
    (h : tickOn stop docker rolled e w = some (r, w')) :
    ∃ input, input.rolled = rolled ∧ tick stop input e = r ∧ ∀ running,
      input.list = some running → ∃ w₁, docker.listContainers w = some (.ok running, w₁) := by
  obtain ⟨input, hrolled, hticked, hlist⟩ := (tickedOn_tickOn h).ticked
  exact ⟨input, hrolled, hticked.tick_eq, hlist⟩

/-- A run on a client is a run. -/
theorem runOn_run {rolls : List Rolled} (h : runOn stop docker rolls e w = some (e', w')) :
    ∃ inputs : List TickInput, inputs.map TickInput.rolled = rolls ∧
      run stop e (inputs.map .tick) = e' ∧ ∀ input ∈ inputs, ∀ running,
        input.list = some running → ∃ w w₁, docker.listContainers w = some (.ok running, w₁) := by
  induction rolls generalizing e w with
  | nil =>
      obtain ⟨rfl, rfl⟩ := Prod.mk.inj (Option.some.inj h)
      exact ⟨[], rfl, rfl, by simp⟩
  | cons rolled rolls ih =>
      rw [runOn] at h
      split at h
      · contradiction
      · next e₁ ok w₁ htick =>
          obtain ⟨input, hrolled, hinput, hlist⟩ := tickOn_tick htick
          obtain ⟨inputs, hrolls, hrun, hlists⟩ := ih h
          refine ⟨input :: inputs, by rw [List.map_cons, hrolled, hrolls], ?_, ?_⟩
          · rw [← hrun, List.map_cons, run, List.foldl_cons, step, hinput]
            rfl
          · simp only [List.forall_mem_cons]
            exact ⟨fun running hrunning => ⟨w, hlist running hrunning⟩, hlists⟩

theorem runOn_append {rolls rolls' : List Rolled} :
    runOn stop docker (rolls ++ rolls') e w =
      (runOn stop docker rolls e w).bind fun (e, w) => runOn stop docker rolls' e w := by
  induction rolls generalizing e w with
  | nil => rfl
  | cons rolled rolls ih =>
      rw [List.cons_append, runOn, runOn]
      cases tickOn stop docker rolled e w with
      | none => rfl
      | some r => exact ih

end Spec

end ChaosEngine

end ChaosForger
