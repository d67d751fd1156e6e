import ChaosForger.Engine.Strikes

/-!
# ChaosForger.Engine.Accounting

The counters and the run budget against the trace.  Every counter is a count
of events (`Accounts`), the rolls are the ticks that pass both guards with a
match (`rolls_run`), and the run budget never exceeds its cap
(`WithinRun`).
-/

namespace ChaosForger

open Libc

namespace Event

/-- A stop or kill call that returned true. -/
def succeeded : Event → Bool
  | .strikeReturn result => result.ok
  | _ => false

/-- One that returned false with a status other than 404 and 409. -/
def strikeFailed : Event → Bool
  | .strikeReturn result => result.failed
  | _ => false

/-- A list call that failed. -/
def listFailed : Event → Bool
  | .listReturn ok => !ok
  | _ => false

/-- The start of a stop or kill call. -/
def struck : Event → Bool
  | .strikeCall _ => true
  | _ => false

end Event

namespace ChaosEngine

/-! ## Strikes and errors -/

/-- The strikes, the errors and the run budget agree with the trace. -/
structure Accounts (e : ChaosEngine) : Prop where
  strikes : e.counters.strikes = e.trace.countP Event.succeeded
  budget : e.runBudgetUsed = e.counters.strikes
  errors : e.counters.errors =
    e.trace.countP Event.listFailed + e.trace.countP Event.strikeFailed

theorem accounts_new (discoverOnly : Bool) (cfg : Config) (override : Option Bool) :
    Accounts (new discoverOnly cfg override) := ⟨rfl, rfl, rfl⟩

/-- Events that are no results change nothing. -/
theorem Accounts.append {e : ChaosEngine} (h : Accounts e) {seg : List Event}
    (hseg : ∀ x ∈ seg, x.succeeded = false ∧ x.listFailed = false ∧ x.strikeFailed = false) :
    Accounts { e with trace := e.trace ++ seg } := by
  have hzero {p : Event → Bool} (hp : ∀ x ∈ seg, p x = false) : seg.countP p = 0 :=
    List.countP_eq_zero.mpr fun x hx => by simp [hp x hx]
  have hs := hzero fun x hx => (hseg x hx).1
  have hl := hzero fun x hx => (hseg x hx).2.1
  have hf := hzero fun x hx => (hseg x hx).2.2
  constructor
  · show e.counters.strikes = (e.trace ++ seg).countP Event.succeeded
    rw [List.countP_append, hs, h.strikes, Nat.add_zero]
  · exact h.budget
  · show e.counters.errors =
      (e.trace ++ seg).countP Event.listFailed + (e.trace ++ seg).countP Event.strikeFailed
    rw [List.countP_append, List.countP_append, hl, hf, h.errors, Nat.add_zero, Nat.add_zero]

theorem Accounts.guard {e : ChaosEngine} (h : Accounts e) (requested : Bool) :
    Accounts (e.emit (.guard requested)) :=
  h.append (by simp [Event.succeeded, Event.listFailed, Event.strikeFailed])

theorem Accounts.strike {rules : List TargetRule} {e : ChaosEngine} (h : Accounts e)
    (result : StrikeResult) (m : MatchedContainer rules) : Accounts (e.strike result m) := by
  have hcount (p : Event → Bool) (hcall : ∀ call, p (.strikeCall call) = false) :
      (e.strike result m).trace.countP p =
        e.trace.countP p + (p (.strikeReturn result)).toNat := by
    rw [strike_eq]
    simp only [List.countP_append, List.countP_cons, List.countP_nil, hcall]
    cases p (.strikeReturn result) <;> rfl
  constructor
  · rw [hcount Event.succeeded fun _ => rfl, ← h.strikes, strike_eq]
    rfl
  · rw [strike_eq]
    show e.runBudgetUsed + (result.ok.toNat : Int) = (e.counters.strikes + result.ok.toNat : Nat)
    rw [h.budget, Int.natCast_add]
  · rw [hcount Event.listFailed fun _ => rfl, hcount Event.strikeFailed fun _ => rfl, strike_eq]
    show e.counters.errors + result.failed.toNat = _
    rw [h.errors, Nat.add_assoc]
    rfl

theorem Sweep.accounts {rules : List TargetRule} {stop : Nat → Bool}
    {result : Nat → StrikeResult} {armed : List (MatchedContainer rules)} {e e' : ChaosEngine}
    (h : Sweep stop result armed e e') (he : Accounts e) : Accounts e' := by
  induction h with
  | done => exact he
  | cancelled => exact he.guard true
  | dry _ _ _ ih => exact ih (he.guard false)
  | struck _ _ _ ih => exact ih ((he.guard false).strike _ _)

theorem Accounts.listed {e : ChaosEngine} (h : Accounts e) : Accounts (e.listed true) := by
  have htrace : e.listed true =
      { e with trace := e.trace ++ [.guard false, .listCall, .listReturn true] } := by
    simp [ChaosEngine.listed, emit]
  rw [htrace]
  exact h.append (by simp [Event.succeeded, Event.listFailed, Event.strikeFailed])

theorem Accounts.rolled {e : ChaosEngine} (h : Accounts e) (fires : Bool) :
    Accounts (e.rolled fires) := by
  have hroll : Accounts { e with trace := e.trace ++ [.roll fires] } :=
    h.append (by simp [Event.succeeded, Event.listFailed, Event.strikeFailed])
  exact ⟨hroll.strikes, hroll.budget, hroll.errors⟩

theorem Ticked.accounts {stop : Nat → Bool} {input : TickInput} {e : ChaosEngine}
    {r : ChaosEngine × Bool} (h : Ticked stop input e r) (he : Accounts e) : Accounts r.1 := by
  cases h with
  | skipped => exact he.guard true
  | listFailed =>
      constructor
      · simp [ChaosEngine.listed, List.countP_append, Event.succeeded, he.strikes]
      · exact he.budget
      · simp [ChaosEngine.listed, List.countP_append, Event.listFailed, Event.strikeFailed, he.errors]
        omega
  | quiet => exact he.listed
  | released => exact he.listed.guard true
  | discovered => exact he.listed.guard false
  | noChaos => exact (he.listed.guard false).rolled false
  | swept _ _ _ _ _ _ hsweep => exact hsweep.accounts ((he.listed.guard false).rolled true)

theorem accounts_step {stop : Nat → Bool} {e : ChaosEngine} (he : Accounts e) (op : Op) :
    Accounts (step stop e op) := by
  cases op with
  | tick input => exact (ticked_tick stop input e).accounts he
  | forceNextRoll fires => exact ⟨he.strikes, he.budget, he.errors⟩

/-! ## Rolls -/

/-- The call is a tick that finds a match and sees no shutdown at its first
two guards.  The second one is the fourth step of the tick. -/
def rollsDice (stop : Nat → Bool) (e : ChaosEngine) : Op → Bool
  | .tick input =>
      !stop e.trace.length &&
        (input.list.any fun running => matchContainers running e.cfg.targets ≠ []) &&
        !stop (e.trace.length + 3) && !e.discoverOnly
  | .forceNextRoll _ => false

theorem Sweep.rolls {rules : List TargetRule} {stop : Nat → Bool}
    {result : Nat → StrikeResult} {armed : List (MatchedContainer rules)} {e e' : ChaosEngine}
    (h : Sweep stop result armed e e') : e'.counters.rolls = e.counters.rolls := by
  induction h with
  | done => rfl
  | cancelled => rfl
  | dry _ _ _ ih => exact ih
  | struck _ _ _ ih =>
      rw [ih, strike_eq]
      rfl

theorem rolls_step (stop : Nat → Bool) (e : ChaosEngine) (op : Op) :
    (step stop e op).counters.rolls = e.counters.rolls + (rollsDice stop e op).toNat := by
  cases op with
  | forceNextRoll fires => rfl
  | tick input =>
      have hticked := ticked_tick stop input e
      rw [step, rollsDice]
      generalize tick stop input e = r at hticked
      cases hticked with
      | skipped hs => simp [hs]
      | listFailed hs hlist => simp [hs, hlist, listed]
      | quiet hs hlist hmatch => simp [hs, hlist, hmatch, listed]
      | released hs hlist hmatch hs₂ => simp [hs, hlist, hmatch, hs₂, listed]
      | discovered hs hlist hmatch hs₂ honly => simp [hs, hlist, hmatch, hs₂, honly, listed]
      | noChaos hs hlist hmatch hs₂ honly => simp [hs, hlist, hmatch, hs₂, honly, listed, rolled]
      | swept hs hlist hmatch hs₂ honly _ hsweep =>
          rw [hsweep.rolls]
          simp [hs, hlist, hmatch, hs₂, honly, listed, rolled]

theorem rolls_run (stop : Nat → Bool) (e : ChaosEngine) (ops : List Op) :
    (run stop e ops).counters.rolls =
      e.counters.rolls + Machine.countMarked (step stop) (rollsDice stop) e ops := by
  induction ops generalizing e with
  | nil => rfl
  | cons op ops ih =>
      have hrest := ih (step stop e op)
      have hdice : (rollsDice stop e op).toNat = if rollsDice stop e op = true then 1 else 0 := by
        cases rollsDice stop e op <;> rfl
      rw [rolls_step, hdice] at hrest
      rw [Machine.countMarked, ← Nat.add_assoc]
      exact hrest

/-! ## The caps -/

theorem Sweep.runBudgetUsed_le {rules : List TargetRule} {stop : Nat → Bool}
    {result : Nat → StrikeResult} {armed : List (MatchedContainer rules)} {e e' : ChaosEngine}
    (h : Sweep stop result armed e e') : e'.runBudgetUsed ≤ e.runBudgetUsed + armed.length := by
  induction h with
  | done => simp
  | cancelled =>
      rw [emit_runBudgetUsed, List.length_cons]
      omega
  | dry _ _ _ ih =>
      rw [emit_runBudgetUsed] at ih
      rw [List.length_cons]
      omega
  | @struck result m armed e e' _ _ _ ih =>
      rw [strike_eq] at ih
      have hle := Bool.toNat_le (result 0).ok
      have ih' : e'.runBudgetUsed ≤ e.runBudgetUsed + (result 0).ok.toNat + armed.length := ih
      rw [List.length_cons]
      omega

theorem Sweep.struck_le {rules : List TargetRule} {stop : Nat → Bool}
    {result : Nat → StrikeResult} {armed : List (MatchedContainer rules)} {e e' : ChaosEngine}
    (h : Sweep stop result armed e e') :
    e'.trace.countP Event.struck ≤ e.trace.countP Event.struck + armed.length := by
  induction h with
  | done => simp
  | cancelled => simp [Event.struck]
  | dry _ _ _ ih =>
      simp only [emit_trace, List.countP_append, List.countP_cons, List.countP_nil, Event.struck,
        List.length_cons, Bool.false_eq_true, if_false] at ih ⊢
      omega
  | struck _ _ _ ih =>
      rw [strike_eq] at ih
      simp only [emit_trace, List.countP_append, List.countP_cons, List.countP_nil, Event.struck,
        List.length_cons, Bool.false_eq_true, if_false, if_true] at ih ⊢
      omega

/-- The run budget keeps its cap. -/
def WithinRun (e : ChaosEngine) : Prop :=
  0 < e.cfg.maxActionsPerRun → e.runBudgetUsed ≤ e.cfg.maxActionsPerRun

theorem Ticked.withinRun {stop : Nat → Bool} {input : TickInput} {e : ChaosEngine}
    {r : ChaosEngine × Bool} (h : Ticked stop input e r) (he : WithinRun e) : WithinRun r.1 := by
  cases h with
  | @swept running e' _ _ _ _ _ _ hsweep =>
      intro hM
      rw [hsweep.sameSetup.cfg, (sameSetup_opened e true).cfg] at hM ⊢
      have hle := hsweep.runBudgetUsed_le
      have hused := he hM
      rw [runBudgetUsed_opened, selected_eq, List.length_take, strikeCount, if_pos hM] at hle
      show e'.runBudgetUsed ≤ e.cfg.maxActionsPerRun
      omega
  | _ => exact he

theorem withinRun_step {stop : Nat → Bool} {e : ChaosEngine} (he : WithinRun e) (op : Op) :
    WithinRun (step stop e op) := by
  cases op with
  | tick input => exact (ticked_tick stop input e).withinRun he
  | forceNextRoll fires => exact he

theorem Ticked.struck_le {stop : Nat → Bool} {input : TickInput} {e : ChaosEngine}
    {r : ChaosEngine × Bool} (h : Ticked stop input e r) :
    r.1.trace.countP Event.struck ≤
      e.trace.countP Event.struck + (max 1 e.cfg.maxActionsPerCycle).toNat := by
  cases h with
  | @swept running e' _ _ _ _ _ _ hsweep =>
      have hle := hsweep.struck_le
      have hfront : (((e.listed true).emit (.guard false)).rolled true).trace.countP Event.struck =
          e.trace.countP Event.struck := by
        simp [trace_opened, Event.struck]
      rw [hfront, selected_eq, List.length_take, strikeCount] at hle
      show e'.trace.countP Event.struck ≤ _
      omega
  | _ => simp [listed, rolled, Event.struck]

/-- The accounts of a run: every state a run reaches has them. -/
theorem accounts_run {stop : Nat → Bool} {e : ChaosEngine} (he : Accounts e ∧ WithinRun e)
    (ops : List Op) : Accounts (run stop e ops) ∧ WithinRun (run stop e ops) := by
  induction ops generalizing e with
  | nil => exact he
  | cons op ops ih => exact ih ⟨accounts_step he.1 op, withinRun_step he.2 op⟩

theorem sameSetup_run (stop : Nat → Bool) (e : ChaosEngine) (ops : List Op) :
    SameSetup e (run stop e ops) :=
  sameSetup_of_reachable (Machine.Reachable.foldl .init ops)

theorem withinRun_new (discoverOnly : Bool) (cfg : Config) (override : Option Bool) :
    WithinRun (new discoverOnly cfg override) := fun hM => Int.le_of_lt hM

/-- **The engine's accounts hold in every reachable state.** -/
theorem accounting (stop : Nat → Bool) (discoverOnly : Bool) (cfg : Config)
    (override : Option Bool) (ops : List Op) :
    let e := run stop (new discoverOnly cfg override) ops
    e.runBudgetUsed = e.counters.strikes ∧
      e.counters.strikes = e.trace.countP Event.succeeded ∧
      e.counters.errors = e.trace.countP Event.listFailed + e.trace.countP Event.strikeFailed ∧
      e.counters.rolls = Machine.countMarked (step stop) (rollsDice stop)
        (new discoverOnly cfg override) ops ∧
      (0 < cfg.maxActionsPerRun → e.runBudgetUsed ≤ cfg.maxActionsPerRun) ∧
      ∀ input, (tick stop input e).1.trace.countP Event.struck ≤
        e.trace.countP Event.struck + (max 1 cfg.maxActionsPerCycle).toNat := by
  intro e
  obtain ⟨hacc, hwithin⟩ : Accounts e ∧ WithinRun e := accounts_run
    ⟨accounts_new discoverOnly cfg override, withinRun_new discoverOnly cfg override⟩ ops
  have hcfg : e.cfg = cfg := (sameSetup_run stop (new discoverOnly cfg override) ops).cfg
  have hrolls := rolls_run stop (new discoverOnly cfg override) ops
  refine ⟨hacc.budget, hacc.strikes, hacc.errors, ?_, ?_, fun input => ?_⟩
  · rw [← Nat.zero_add (Machine.countMarked _ _ _ _)]
    exact hrolls
  · rw [← hcfg]
    exact hwithin
  · rw [← hcfg]
    exact (ticked_tick stop input e).struck_le

end ChaosEngine

end ChaosForger
