import ChaosForger.Engine

/-!
# ChaosForger.Engine.Strikes

The stop and kill calls of one tick.  Without shutdown a sweep strikes every
selected container in order, whatever the results (`Sweep.trace_of_live`), and
the calls of a tick are those of the first armed containers the budget allows
(`strikeCalls_of_tick`).
-/

namespace ChaosForger

open Libc

/-- The stop or kill call an event starts. -/
def Event.strikeCall? : Event → Option StrikeCall
  | .strikeCall call => some call
  | _ => none

/-- The stop and kill calls of a trace, in order. -/
def strikeCalls (trace : List Event) : List StrikeCall := trace.filterMap Event.strikeCall?

namespace ChaosEngine

section Sweep

variable {rules : List TargetRule} {stop : Nat → Bool} {result : Nat → StrikeResult}
  {armed : List (MatchedContainer rules)} {e e' : ChaosEngine}

/-- The trace of a sweep that is not cancelled. -/
def sweepTrace (cfg : Config) :
    (Nat → StrikeResult) → List (MatchedContainer rules) → List Event
  | _, [] => []
  | result, m :: armed =>
      .guard false :: .strikeCall (callOf cfg m) :: .strikeReturn (result 0) ::
        sweepTrace cfg (fun k => result (k + 1)) armed

theorem strikeCalls_sweepTrace (cfg : Config) (result : Nat → StrikeResult)
    (armed : List (MatchedContainer rules)) :
    strikeCalls (sweepTrace cfg result armed) = armed.map (callOf cfg) := by
  induction armed generalizing result with
  | nil => rfl
  | cons m armed ih =>
      have hhead : strikeCalls (sweepTrace cfg result (m :: armed)) =
          callOf cfg m :: strikeCalls (sweepTrace cfg (fun k => result (k + 1)) armed) := rfl
      rw [hhead, ih, List.map_cons]

/-- **A live sweep strikes every armed container in order**; no result ends it early. -/
theorem Sweep.trace_of_live (h : Sweep stop result armed e e') (hdry : e.dryRun = false)
    (hstop : ∀ i, e.trace.length ≤ i → i < e'.trace.length → stop i = false) :
    e'.trace = e.trace ++ sweepTrace e.cfg result armed := by
  induction h with
  | done => simp [sweepTrace]
  | cancelled hs =>
      have hno := hstop _ (Nat.le_refl _) (by simp)
      rw [hs] at hno
      contradiction
  | dry _ hd =>
      rw [hdry] at hd
      contradiction
  | struck _ _ _ ih =>
      rw [strike_eq] at ih
      have htrace := ih hdry fun i hi => hstop i (by
        simp only [emit_trace, List.length_append] at hi
        omega)
      rw [htrace]
      simp [sweepTrace]

/-- A dry run sends nothing. -/
theorem Sweep.strikeCalls_of_dry (h : Sweep stop result armed e e') (hdry : e.dryRun = true) :
    ∃ seg, e'.trace = e.trace ++ seg ∧ strikeCalls seg = [] := by
  induction h with
  | done => exact ⟨[], by simp, rfl⟩
  | cancelled => exact ⟨[.guard true], rfl, rfl⟩
  | dry _ _ _ ih =>
      obtain ⟨seg, htrace, hseg⟩ := ih hdry
      refine ⟨.guard false :: seg, ?_, hseg⟩
      rw [htrace, emit_trace, List.append_assoc]
      rfl
  | struck _ hd =>
      rw [hdry] at hd
      contradiction

end Sweep

/-- How many strikes a sweep over `matched` containers makes. -/
def strikeCount (cfg : Config) (matched : Nat) (used : Int) : Nat :=
  min (min matched (max 1 cfg.maxActionsPerCycle).toNat)
    (if 0 < cfg.maxActionsPerRun then (max 0 (cfg.maxActionsPerRun - used)).toNat else matched)

theorem selected_eq (e : ChaosEngine) (running : List Container) :
    e.selected running = (matchContainers running e.cfg.targets).take
      (strikeCount e.cfg (matchContainers running e.cfg.targets).length e.runBudgetUsed) := by
  rw [selected, actionBudget_eq, List.take_eq_take_iff, allowance, strikeCount]
  split <;> omega

/-- No gate of the tick stands between the list it got and the sweep. -/
structure Armed (e : ChaosEngine) (input : TickInput) (running : List Container) : Prop where
  list : input.list = some running
  matched : matchContainers running e.cfg.targets ≠ []
  strikes : e.discoverOnly = false
  fires : e.fires input.rolled = true
  live : e.dryRun = false

section Tick

variable {discoverOnly : Bool} {cfg : Config} {override : Option Bool} {stop : Nat → Bool}
  {input : TickInput} {e : ChaosEngine} {r : ChaosEngine × Bool}

/-- A tick fails exactly when discovery does. -/
theorem Ticked.failed_iff (h : Ticked stop input e r)
    (hstop : ∀ i, e.trace.length ≤ i → i < r.1.trace.length → stop i = false) :
    r.2 = false ↔ input.list = none := by
  cases h with
  | skipped hs =>
      have hno := hstop _ (Nat.le_refl _) (by simp)
      rw [hs] at hno
      contradiction
  | listFailed _ hlist | quiet _ hlist | released _ hlist | discovered _ hlist
  | noChaos _ hlist | swept _ hlist => simp [hlist]

/-- A tick whose gates are not all open ends without a strike call. -/
theorem Ticked.strikeCalls_of_not_armed (h : Ticked stop input e r)
    (hclosed : ∀ running, ¬ e.Armed input running) :
    ∃ seg, r.1.trace = e.trace ++ seg ∧ strikeCalls seg = [] := by
  cases h with
  | skipped => exact ⟨[.guard true], rfl, rfl⟩
  | listFailed => exact ⟨[.guard false, .listCall, .listReturn false], by simp [listed], rfl⟩
  | quiet => exact ⟨[.guard false, .listCall, .listReturn true], by simp [listed], rfl⟩
  | released =>
      exact ⟨[.guard false, .listCall, .listReturn true, .guard true], by simp [listed], rfl⟩
  | discovered =>
      exact ⟨[.guard false, .listCall, .listReturn true, .guard false], by simp [listed], rfl⟩
  | noChaos =>
      exact ⟨[.guard false, .listCall, .listReturn true, .guard false, .roll false],
        by simp [listed, rolled], rfl⟩
  | @swept running _ _ hlist hmatch _ honly hfires hsweep =>
      -- every gate before the sweep is open, so this is a dry run
      have hdry : e.dryRun = true := by
        by_contra hlive
        exact hclosed running
          ⟨hlist, hmatch, honly, hfires, Bool.eq_false_of_not_eq_true hlive⟩
      obtain ⟨seg, htrace, hseg⟩ :=
        hsweep.strikeCalls_of_dry ((sameSetup_opened e true).dryRun.trans hdry)
      refine ⟨[.guard false, .listCall, .listReturn true, .guard false, .roll true] ++ seg, ?_,
        hseg⟩
      rw [htrace, trace_opened, List.append_assoc]

/-- With every gate open and no shutdown the sweep strikes all it selected. -/
theorem Ticked.strikeCalls_of_armed {running : List Container} (h : Ticked stop input e r)
    (harmed : e.Armed input running)
    (hstop : ∀ i, e.trace.length ≤ i → i < r.1.trace.length → stop i = false) :
    ∃ seg, r.1.trace = e.trace ++ seg ∧
      strikeCalls seg = (e.selected running).map (callOf e.cfg) := by
  obtain ⟨hrun, hsome, hstrikes, hroll, hlive⟩ := harmed
  cases h with
  | skipped hs =>
      have hno := hstop _ (Nat.le_refl _) (by simp)
      rw [hs] at hno
      contradiction
  | listFailed _ hlist =>
      rw [hlist] at hrun
      contradiction
  | quiet _ hlist hmatch =>
      rw [hlist, Option.some.injEq] at hrun
      subst hrun
      contradiction
  | released _ _ _ hs =>
      have hno := hstop (e.trace.length + 3) (by omega) (by simp [listed])
      rw [hs] at hno
      contradiction
  | discovered _ _ _ _ honly =>
      rw [honly] at hstrikes
      contradiction
  | noChaos _ _ _ _ _ hfires =>
      rw [hfires] at hroll
      contradiction
  | swept _ hlist _ _ _ _ hsweep =>
      rw [hlist, Option.some.injEq] at hrun
      subst hrun
      have hlive' := (sameSetup_opened e true).dryRun.trans hlive
      have htrace := hsweep.trace_of_live hlive' fun i hi hlt => hstop i (by
        rw [trace_opened, List.length_append] at hi
        omega) hlt
      rw [trace_opened, List.append_assoc, (sameSetup_opened e true).cfg] at htrace
      exact ⟨_, htrace, strikeCalls_sweepTrace e.cfg input.strike _⟩

/-- A gate that is closed leaves nothing armed. -/
theorem not_armed
    (hclosed : input.list = none ∨
      (∃ running, input.list = some running ∧ matchContainers running e.cfg.targets = []) ∨
      e.discoverOnly = true ∨ e.fires input.rolled = false ∨ e.dryRun = true)
    (running : List Container) : ¬ e.Armed input running := by
  rintro ⟨hrun, hsome, hstrikes, hroll, hlive⟩
  obtain hnone | ⟨running', hlist, hnil⟩ | hd | hf | hdry := hclosed
  · rw [hnone] at hrun
    contradiction
  · rw [hlist, Option.some.injEq] at hrun
    subst hrun
    contradiction
  · rw [hstrikes] at hd
    contradiction
  · rw [hroll] at hf
    contradiction
  · rw [hlive] at hdry
    contradiction

/-- **The strikes of a tick.**  A tick that is not shut down fails exactly when
the list call fails; it makes no strike call when some gate is closed, and
otherwise strikes the first matched containers the budgets leave, each as the
first rule that hits it says. -/
theorem strikeCalls_of_tick
    (he : Machine.Reachable (step stop) (new discoverOnly cfg override) e) (input : TickInput)
    (hstop : ∀ i, e.trace.length ≤ i → i < (tick stop input e).1.trace.length → stop i = false) :
    ((tick stop input e).2 = false ↔ input.list = none) ∧
    ∃ seg, (tick stop input e).1.trace = e.trace ++ seg ∧
      (input.list = none ∨
          (∃ running, input.list = some running ∧ matchContainers running cfg.targets = []) ∨
          discoverOnly = true ∨ e.fires input.rolled = false ∨
          override.getD cfg.dryRun = true →
        strikeCalls seg = []) ∧
      ∀ running, input.list = some running →
        (∀ m ∈ matchContainers running cfg.targets,
          m.container ∈ running ∧ hit m.container m.rule = true ∧
            ∀ r < m.ruleIndex, hit m.container cfg.targets[r] = false) ∧
        (matchContainers running cfg.targets ≠ [] → discoverOnly = false →
          e.fires input.rolled = true → override.getD cfg.dryRun = false →
          strikeCalls seg =
            ((matchContainers running cfg.targets).take
              (strikeCount cfg (matchContainers running cfg.targets).length e.runBudgetUsed)).map
                (callOf cfg)) := by
  obtain ⟨honly, hcfg, -, hdry, -⟩ := sameSetup_of_reachable he
  have hcfg' : e.cfg = cfg := hcfg
  have honly' : e.discoverOnly = discoverOnly := honly
  have hdry' : e.dryRun = override.getD cfg.dryRun := hdry
  subst hcfg' honly'
  rw [← hdry']
  have hticked := ticked_tick stop input e
  have hrules (running : List Container) : ∀ m ∈ matchContainers running e.cfg.targets,
      m.container ∈ running ∧ hit m.container m.rule = true ∧
        ∀ r < m.ruleIndex, hit m.container e.cfg.targets[r] = false :=
    fun m hm => mem_matchContainers.mp hm
  refine ⟨hticked.failed_iff hstop, ?_⟩
  by_cases harmed : ∃ running, e.Armed input running
  · obtain ⟨running, hrunning⟩ := harmed
    obtain ⟨seg, htrace, hseg⟩ := hticked.strikeCalls_of_armed hrunning hstop
    refine ⟨seg, htrace, fun hclosed => absurd hrunning (not_armed hclosed _), ?_⟩
    intro running' hrun
    obtain rfl : running = running' := Option.some.inj (hrunning.list.symm.trans hrun)
    refine ⟨hrules running, fun _ _ _ _ => ?_⟩
    rw [hseg, selected_eq]
  · have hclosed : ∀ running, ¬ e.Armed input running := not_exists.mp harmed
    obtain ⟨seg, htrace, hseg⟩ := hticked.strikeCalls_of_not_armed hclosed
    refine ⟨seg, htrace, fun _ => hseg, ?_⟩
    intro running hrun
    refine ⟨hrules running, fun hsome hstrikes hroll hlive => ?_⟩
    exact absurd ⟨hrun, hsome, hstrikes, hroll, hlive⟩ (hclosed running)

end Tick

/-- Two web containers and a database, with a rule to stop the one kind and to
kill the other. -/
def webTargets : List TargetRule :=
  [{ nameMatch := lit "web" }, { nameMatch := lit "db", action := .kill }]

def webContainers : List Container :=
  [{ id := lit "a1", names := [lit "web-1"] }, { id := lit "b2", names := [lit "cache"] },
    { id := lit "c3", names := [lit "db-1"] }, { id := lit "d4", names := [lit "web-2"] }]

/-- The lowest roll. -/
def rolledZero : Rolled := ⟨0, by decide, by decide⟩

/-- With room for two the first two matched containers are struck, also when
the first strike fails. -/
theorem strikeCalls_of_tick_web :
    ∃ seg, (tick (fun _ => false)
        { list := some webContainers, rolled := rolledZero
          strike := fun _ => { ok := false, httpStatus := 500, sent := true } }
        (new false { targets := webTargets, maxActionsPerCycle := 2 } (some false))).1.trace =
          [] ++ seg ∧
      strikeCalls seg = [.stopContainer (lit "a1") 10, .killContainer (lit "c3")] := by
  obtain ⟨-, seg, htrace, -, hopen⟩ := strikeCalls_of_tick
    (.init : Machine.Reachable (step fun _ => false)
      (new false { targets := webTargets, maxActionsPerCycle := 2 } (some false)) _)
    { list := some webContainers, rolled := rolledZero
      strike := fun _ => { ok := false, httpStatus := 500, sent := true } }
    (fun _ _ _ => rfl)
  refine ⟨seg, htrace, ?_⟩
  rw [(hopen webContainers rfl).2 (by decide +kernel) rfl (by decide +kernel) rfl]
  decide +kernel

end ChaosEngine

end ChaosForger
