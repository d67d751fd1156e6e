import ChaosForger.Engine.Accounting

/-!
# ChaosForger.Engine.Budget

The lifetime cap on strikes that took effect, or may have: those that
succeeded and those whose answer was lost.  The run budget is charged for
successes only, so the cap holds as long as no answer is lost, and from any
lost answer on the engine goes on to break it (`runCap_sharp`).
-/

namespace ChaosForger

open Libc

namespace Event

/-- A stop or kill call whose answer was lost. -/
def lost : Event → Bool
  | .strikeReturn result => result.lost
  | _ => false

/-- A stop or kill call that took effect, or may have. -/
def spent : Event → Bool
  | .strikeReturn result => result.ok || result.lost
  | _ => false

end Event

theorem countP_spent (events : List Event) :
    events.countP Event.spent = events.countP Event.succeeded + events.countP Event.lost := by
  induction events with
  | nil => rfl
  | cons x xs ih =>
      have hx : (if x.spent = true then 1 else 0) =
          (if x.succeeded = true then 1 else 0) + if x.lost = true then 1 else 0 := by
        cases x with
        | strikeReturn result =>
            obtain ⟨ok, status, sent⟩ := result
            cases ok <;> simp [Event.spent, Event.succeeded, Event.lost, StrikeResult.lost]
        | _ => rfl
      rw [List.countP_cons, List.countP_cons, List.countP_cons, ih, hx]
      omega

namespace ChaosEngine

/-! ## Traces grow -/

theorem Sweep.trace_grows {rules : List TargetRule} {stop : Nat → Bool}
    {result : Nat → StrikeResult} {armed : List (MatchedContainer rules)} {e e' : ChaosEngine}
    (h : Sweep stop result armed e e') : e.trace <+: e'.trace := by
  induction h with
  | done => exact List.prefix_refl _
  | cancelled => exact List.prefix_append _ _
  | dry _ _ _ ih => exact (List.prefix_append _ _).trans ih
  | struck _ _ _ ih =>
      rw [strike_eq] at ih
      exact ((List.prefix_append _ _).trans (List.prefix_append _ _)).trans ih

theorem Ticked.trace_grows {stop : Nat → Bool} {input : TickInput} {e : ChaosEngine}
    {r : ChaosEngine × Bool} (h : Ticked stop input e r) : e.trace <+: r.1.trace := by
  cases h with
  | swept _ _ _ _ _ _ hsweep =>
      refine List.IsPrefix.trans ?_ hsweep.trace_grows
      simp [listed, rolled]
  | _ => simp [listed, rolled]

/-! ## An engine that can strike -/

/-- Nothing but a shutdown and the budget keeps the engine from striking. -/
structure Ready (e : ChaosEngine) : Prop where
  live : e.dryRun = false
  strikes : e.discoverOnly = false
  unforced : e.forcedRoll = none
  chance : 0 < e.roller.probability
  target : ∃ running, matchContainers running e.cfg.targets ≠ []

theorem Ready.of_sameSetup {e e' : ChaosEngine} (h : Ready e) (hs : SameSetup e e')
    (hf : e'.forcedRoll = none) : Ready e' where
  live := hs.dryRun.trans h.live
  strikes := hs.discoverOnly.trans h.strikes
  unforced := hf
  chance := hs.probability ▸ h.chance
  target := hs.cfg ▸ h.target

theorem Sweep.forcedRoll {rules : List TargetRule} {stop : Nat → Bool}
    {result : Nat → StrikeResult} {armed : List (MatchedContainer rules)} {e e' : ChaosEngine}
    (h : Sweep stop result armed e e') : e'.forcedRoll = e.forcedRoll := by
  induction h with
  | done => rfl
  | cancelled => rfl
  | dry _ _ _ ih => exact ih
  | struck _ _ _ ih =>
      rw [ih, strike_eq]
      rfl

theorem Ticked.forcedRoll {stop : Nat → Bool} {input : TickInput} {e : ChaosEngine}
    {r : ChaosEngine × Bool} (h : Ticked stop input e r) (he : e.forcedRoll = none) :
    r.1.forcedRoll = none := by
  cases h with
  | noChaos => rfl
  | swept _ _ _ _ _ _ hsweep => exact hsweep.forcedRoll
  | _ => exact he

/-- A dry run loses no answers. -/
theorem Sweep.lost_of_dry {rules : List TargetRule} {stop : Nat → Bool}
    {result : Nat → StrikeResult} {armed : List (MatchedContainer rules)} {e e' : ChaosEngine}
    (h : Sweep stop result armed e e') (hdry : e.dryRun = true) :
    e'.trace.countP Event.lost = e.trace.countP Event.lost := by
  induction h with
  | done => rfl
  | cancelled => simp [Event.lost]
  | dry _ _ _ ih =>
      rw [ih hdry]
      simp [Event.lost]
  | struck _ hd =>
      rw [hdry] at hd
      contradiction

/-- **An engine that has lost an answer is one that can strike.** -/
theorem Ticked.ready {stop : Nat → Bool} {input : TickInput} {e : ChaosEngine}
    {r : ChaosEngine × Bool} (h : Ticked stop input e r) (hf : e.forcedRoll = none)
    (he : 0 < e.trace.countP Event.lost → Ready e) (hlost : 0 < r.1.trace.countP Event.lost) :
    Ready r.1 := by
  by_cases hold : 0 < e.trace.countP Event.lost
  · exact (he hold).of_sameSetup h.sameSetup (h.forcedRoll hf)
  · have hsame := h.sameSetup
    have hforced := h.forcedRoll hf
    cases h with
    | @swept running e' _ _ hmatch _ honly hfires hsweep =>
        have hfront : (((e.listed true).emit (.guard false)).rolled true).trace.countP Event.lost =
            e.trace.countP Event.lost := by
          simp [trace_opened, Event.lost]
        have hlive : e.dryRun = false := by
          by_contra hdry
          have hopened : (((e.listed true).emit (.guard false)).rolled true).dryRun = true :=
            (sameSetup_opened e true).dryRun.trans (Bool.eq_true_of_not_eq_false hdry)
          have hcount := hsweep.lost_of_dry hopened
          have hlost' : 0 < e'.trace.countP Event.lost := hlost
          rw [hfront] at hcount
          omega
        have hchance : 0 < e.roller.probability := by
          rw [fires, hf, Option.getD_none, decide_eq_true_eq] at hfires
          exact lt_of_le_of_lt input.rolled.property.1 hfires
        exact Ready.of_sameSetup ⟨hlive, honly, hf, hchance, running, hmatch⟩ hsame hforced
    | _ =>
        refine absurd hlost ?_
        simpa [listed, rolled, Event.lost] using hold

/-- The engine after some ticks. -/
def ticks (stop : Nat → Bool) (e : ChaosEngine) (inputs : List TickInput) : ChaosEngine :=
  run stop e (inputs.map .tick)

theorem ready_ticks {stop : Nat → Bool} {e : ChaosEngine} (hf : e.forcedRoll = none)
    (he : 0 < e.trace.countP Event.lost → Ready e) (inputs : List TickInput)
    (hlost : 0 < (ticks stop e inputs).trace.countP Event.lost) :
    Ready (ticks stop e inputs) := by
  induction inputs generalizing e with
  | nil => exact he hlost
  | cons input inputs ih =>
      have h := ticked_tick stop input e
      exact ih (h.forcedRoll hf) (h.ready hf he) hlost

/-! ## Breaking the cap -/

theorem Sweep.runBudgetUsed_of_ok {rules : List TargetRule} {stop : Nat → Bool}
    {result : Nat → StrikeResult} {armed : List (MatchedContainer rules)} {e e' : ChaosEngine}
    (h : Sweep stop result armed e e') (hdry : e.dryRun = false)
    (hstop : ∀ i, e.trace.length ≤ i → stop i = false) (hok : ∀ k, (result k).ok = true) :
    e'.runBudgetUsed = e.runBudgetUsed + armed.length := by
  induction h with
  | done => simp
  | cancelled hs =>
      rw [hstop _ (Nat.le_refl _)] at hs
      contradiction
  | dry _ hd =>
      rw [hdry] at hd
      contradiction
  | @struck result m armed e e' _ _ _ ih =>
      rw [strike_eq, hok 0] at ih
      have hrest : e'.runBudgetUsed = e.runBudgetUsed + 1 + armed.length :=
        ih hdry (fun i hi => hstop i (by
          simp only [emit_trace, List.length_append] at hi
          omega)) fun k => hok (k + 1)
      rw [hrest, List.length_cons]
      omega

/-- A tick in which the dice fall low and every strike succeeds. -/
def luckyTick (running : List Container) : TickInput where
  list := some running
  rolled := rolledZero
  strike _ := { ok := true, httpStatus := 204, sent := true }

/-- Below the cap it uses up some of the budget. -/
theorem runBudgetUsed_lt_luckyTick {stop : Nat → Bool} {e : ChaosEngine} (h : Ready e)
    {running : List Container} (hmatch : matchContainers running e.cfg.targets ≠ [])
    (hstop : ∀ i, e.trace.length ≤ i → stop i = false)
    (hused : e.runBudgetUsed < e.cfg.maxActionsPerRun) :
    e.runBudgetUsed < (tick stop (luckyTick running) e).1.runBudgetUsed := by
  have hfires : e.fires rolledZero = true := by
    rw [fires, h.unforced, Option.getD_none, decide_eq_true_eq]
    exact h.chance
  have hticked := ticked_tick stop (luckyTick running) e
  generalize tick stop (luckyTick running) e = r at hticked
  cases hticked with
  | skipped hs =>
      rw [hstop _ (Nat.le_refl _)] at hs
      contradiction
  | listFailed _ hlist => contradiction
  | quiet _ hlist hnil =>
      obtain rfl := Option.some.inj hlist
      contradiction
  | released _ _ _ hs =>
      rw [hstop _ (by omega)] at hs
      contradiction
  | discovered _ _ _ _ honly =>
      rw [h.strikes] at honly
      contradiction
  | noChaos _ _ _ _ _ hno =>
      rw [show (luckyTick running).rolled = rolledZero from rfl, hfires] at hno
      contradiction
  | @swept running' e' _ hlist _ _ _ _ hsweep =>
      obtain rfl := Option.some.inj hlist
      have hlive : (((e.listed true).emit (.guard false)).rolled true).dryRun = false :=
        (sameSetup_opened e true).dryRun.trans h.live
      have hall := hsweep.runBudgetUsed_of_ok hlive (fun i hi => hstop i (by
        simp only [listed, rolled, emit_trace, List.length_append] at hi
        omega)) fun _ => rfl
      rw [runBudgetUsed_opened] at hall
      have hlen := List.length_pos_of_ne_nil hmatch
      have hpos : 0 < (e.selected running).length := by
        rw [selected_eq, List.length_take, strikeCount]
        split <;> omega
      show e.runBudgetUsed < e'.runBudgetUsed
      omega

/-- A ready engine can use up its budget without losing an answer. -/
theorem exists_ticks_to_cap {stop : Nat → Bool} {e : ChaosEngine} {n : Nat} (h : Ready e)
    (hstop : ∀ i, e.trace.length ≤ i → stop i = false)
    (hcap : e.cfg.maxActionsPerRun - e.runBudgetUsed ≤ n) :
    ∃ more : List TickInput, (∀ input ∈ more, ∀ k, (input.strike k).lost = false) ∧
      e.cfg.maxActionsPerRun ≤ (ticks stop e more).runBudgetUsed ∧
      e.trace <+: (ticks stop e more).trace := by
  induction n generalizing e with
  | zero =>
      refine ⟨[], by simp, ?_, List.prefix_refl _⟩
      show e.cfg.maxActionsPerRun ≤ e.runBudgetUsed
      omega
  | succ n ih =>
      by_cases hused : e.runBudgetUsed < e.cfg.maxActionsPerRun
      · obtain ⟨running, hmatch⟩ := h.target
        have hlt := runBudgetUsed_lt_luckyTick h hmatch hstop hused
        have hticked := ticked_tick stop (luckyTick running) e
        have hgrows := hticked.trace_grows
        have hsame := hticked.sameSetup
        have hready := h.of_sameSetup hsame (hticked.forcedRoll h.unforced)
        obtain ⟨more, hmore, hfull, hext⟩ := ih hready
          (fun i hi => hstop i (Nat.le_trans hgrows.length_le hi))
          (by rw [hsame.cfg]; omega)
        refine ⟨luckyTick running :: more, ?_, ?_, hgrows.trans hext⟩
        · intro input hinput k
          rw [List.mem_cons] at hinput
          obtain rfl | hinput := hinput
          · rfl
          · exact hmore input hinput k
        · rw [← hsame.cfg]
          exact hfull
      · refine ⟨[], by simp, ?_, List.prefix_refl _⟩
        show e.cfg.maxActionsPerRun ≤ e.runBudgetUsed
        omega

/-- **The lifetime cap and lost answers.**  As long as no answer is lost the
strikes that took effect, or may have, keep the cap in every state; once one
is lost the engine can go on, losing no other, until they exceed it. -/
theorem runCap_sharp (stop : Nat → Bool) (discoverOnly : Bool) (cfg : Config)
    (override : Option Bool) (hM : 0 < cfg.maxActionsPerRun) (inputs : List TickInput) :
    let e := ticks stop (new discoverOnly cfg override) inputs
    ((∀ x ∈ e.trace, x.lost = false) →
        (e.trace.countP Event.spent : Int) ≤ cfg.maxActionsPerRun) ∧
      ((∃ x ∈ e.trace, x.lost = true) → (∀ i, e.trace.length ≤ i → stop i = false) →
        ∃ more : List TickInput, (∀ input ∈ more, ∀ k, (input.strike k).lost = false) ∧
          cfg.maxActionsPerRun < ((ticks stop e more).trace.countP Event.spent : Int)) := by
  intro e
  have hnew : Accounts (new discoverOnly cfg override) ∧ WithinRun (new discoverOnly cfg override) :=
    ⟨accounts_new discoverOnly cfg override, withinRun_new discoverOnly cfg override⟩
  have hrun : Accounts e ∧ WithinRun e := accounts_run hnew (inputs.map .tick)
  have hcfg : e.cfg = cfg := (sameSetup_run stop (new discoverOnly cfg override) _).cfg
  constructor
  · intro hnone
    have hzero : e.trace.countP Event.lost = 0 :=
      List.countP_eq_zero.mpr fun x hx => by simp [hnone x hx]
    have hle : e.runBudgetUsed ≤ e.cfg.maxActionsPerRun := hrun.2 (by rw [hcfg]; exact hM)
    rw [hrun.1.budget, hrun.1.strikes, hcfg] at hle
    rw [countP_spent, hzero, Nat.add_zero]
    exact hle
  · rintro ⟨x, hx, hlost⟩ hstop
    have hpos : 0 < e.trace.countP Event.lost := List.countP_pos_iff.mpr ⟨x, hx, hlost⟩
    have hready : Ready e :=
      ready_ticks (e := new discoverOnly cfg override) rfl (fun h => absurd h (by simp [new]))
        inputs hpos
    obtain ⟨more, hmore, hfull, hext⟩ := exists_ticks_to_cap hready hstop (Int.self_le_toNat _)
    refine ⟨more, hmore, ?_⟩
    have hacc : Accounts (ticks stop e more) := (accounts_run hrun (more.map .tick)).1
    have hgrown : e.trace.countP Event.lost ≤ (ticks stop e more).trace.countP Event.lost :=
      hext.sublist.countP_le
    have hused : cfg.maxActionsPerRun ≤ ((ticks stop e more).trace.countP Event.succeeded : Int) := by
      rw [← hcfg, ← hacc.strikes, ← hacc.budget]
      exact hfull
    rw [countP_spent, Int.natCast_add]
    omega

/-- A budget of one, and a strike that succeeds. -/
theorem runCap_sharp_web :
    ((ticks (fun _ => false) (new false { targets := webTargets, maxActionsPerRun := 1 } (some false))
      [luckyTick webContainers]).trace.countP Event.spent : Int) ≤ 1 :=
  (runCap_sharp (fun _ => false) false { targets := webTargets, maxActionsPerRun := 1 } (some false)
    (by decide) [luckyTick webContainers]).1 (by decide +kernel)

/-- A budget of one, and the answers of two strikes are lost. -/
theorem runCap_broken :
    let lostTick : TickInput :=
      { list := some webContainers, rolled := rolledZero
        strike := fun _ => { ok := false, httpStatus := 0, sent := true } }
    (ticks (fun _ => false) (new false { targets := webTargets, maxActionsPerRun := 1 } (some false))
      [lostTick, lostTick]).trace.countP Event.spent = 2 := by
  decide +kernel

end ChaosEngine

end ChaosForger
