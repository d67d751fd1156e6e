import ChaosForger.Engine.Accounting
import ChaosForger.Gates

/-!
# ChaosForger.Engine.Halting

Shutdown.  Every client call and every roll of a run has a guard of its own in
front of it that found the flag down (`orderly_run`), and the guards read the
flag as it is (`truthful_run`).  So once the flag is up, at most one call and
one roll are still to come (`halts_within_one_call`).
-/

namespace ChaosForger

open Libc Gates

namespace Event

/-- A guard that let the engine pass. -/
def passed : Event → Bool
  | .guard requested => !requested
  | _ => false

/-- The start of a call of the Docker client. -/
def callStart : Event → Bool
  | .listCall => true
  | .strikeCall _ => true
  | _ => false

def isRoll : Event → Bool
  | .roll _ => true
  | _ => false

end Event

namespace ChaosEngine

/-! ## A guard for every call -/

/-- Every call and every roll has a guard of its own in front of it. -/
structure Orderly (trace : List Event) : Prop where
  calls : Gated Event.passed Event.callStart false trace
  rolls : Gated Event.passed Event.isRoll false trace

theorem orderly_nil : Orderly [] := ⟨trivial, trivial⟩

theorem Orderly.append {xs ys : List Event} (hx : Orderly xs) (hy : Orderly ys) :
    Orderly (xs ++ ys) :=
  ⟨gated_append.mpr ⟨hx.calls, hy.calls.of_closed⟩, gated_append.mpr ⟨hx.rolls, hy.rolls.of_closed⟩⟩

theorem Sweep.orderly {rules : List TargetRule} {stop : Nat → Bool}
    {result : Nat → StrikeResult} {armed : List (MatchedContainer rules)} {e e' : ChaosEngine}
    (h : Sweep stop result armed e e') (he : Orderly e.trace) : Orderly e'.trace := by
  induction h with
  | done => exact he
  | cancelled => exact he.append ⟨trivial, trivial⟩
  | dry _ _ _ ih => exact ih (he.append ⟨trivial, trivial⟩)
  | @struck result m armed e e' _ _ _ ih =>
      rw [strike_eq] at ih
      refine ih ?_
      rw [emit_trace, List.append_assoc]
      exact he.append ⟨⟨rfl, trivial⟩, trivial⟩

theorem Ticked.orderly {stop : Nat → Bool} {input : TickInput} {e : ChaosEngine}
    {r : ChaosEngine × Bool} (h : Ticked stop input e r) (he : Orderly e.trace) :
    Orderly r.1.trace := by
  have hlisted (ok : Bool) : Orderly (e.listed ok).trace := by
    rw [trace_listed]
    exact he.append ⟨⟨rfl, trivial⟩, trivial⟩
  have hrolled (fires : Bool) :
      Orderly (((e.listed true).emit (.guard false)).rolled fires).trace := by
    have htrace : (((e.listed true).emit (.guard false)).rolled fires).trace =
        (e.listed true).trace ++ [.guard false, .roll fires] := by
      simp [rolled]
    rw [htrace]
    exact (hlisted true).append ⟨trivial, rfl, trivial⟩
  cases h with
  | skipped => exact he.append ⟨trivial, trivial⟩
  | listFailed => exact hlisted false
  | quiet => exact hlisted true
  | released => exact (hlisted true).append ⟨trivial, trivial⟩
  | discovered => exact (hlisted true).append ⟨trivial, trivial⟩
  | noChaos => exact hrolled false
  | swept _ _ _ _ _ _ hsweep => exact hsweep.orderly (hrolled true)

theorem orderly_step {stop : Nat → Bool} {e : ChaosEngine} (he : Orderly e.trace) (op : Op) :
    Orderly (step stop e op).trace := by
  cases op with
  | tick input => exact (ticked_tick stop input e).orderly he
  | forceNextRoll fires => exact he

/-! ## The guards read the flag -/

/-- Each guard of the trace got the answer of the flag at its time. -/
def Truthful (stop : Nat → Bool) (events : List Event) : Prop :=
  ∀ i requested, events[i]? = some (.guard requested) → stop i = requested

theorem truthful_nil (stop : Nat → Bool) : Truthful stop [] := by
  intro i requested h
  simp at h

theorem Truthful.emit {stop : Nat → Bool} {e : ChaosEngine} {event : Event}
    (h : Truthful stop e.trace)
    (hevent : ∀ requested, event = .guard requested → stop e.trace.length = requested) :
    Truthful stop (e.emit event).trace := by
  intro i requested hi
  rw [emit_trace, List.getElem?_append] at hi
  split at hi
  · exact h i requested hi
  · next hlt =>
      have hlen : i - e.trace.length = 0 := by
        by_contra hne
        rw [List.getElem?_eq_none (by rw [List.length_singleton]; omega)] at hi
        contradiction
      have hie : i = e.trace.length := by omega
      rw [hlen, List.getElem?_cons_zero, Option.some.injEq] at hi
      rw [hie]
      exact hevent requested hi

theorem Truthful.guard {stop : Nat → Bool} {e : ChaosEngine} {requested : Bool}
    (h : Truthful stop e.trace) (hr : stop e.trace.length = requested) :
    Truthful stop (e.emit (.guard requested)).trace := by
  refine h.emit fun r heq => ?_
  rw [Event.guard.injEq] at heq
  rw [hr, heq]

theorem Truthful.strike {rules : List TargetRule} {stop : Nat → Bool} {e : ChaosEngine}
    (h : Truthful stop e.trace) (result : StrikeResult) (m : MatchedContainer rules) :
    Truthful stop (e.strike result m).trace := by
  have hcall : Truthful stop
      ((e.emit (.strikeCall (callOf e.cfg m))).emit (.strikeReturn result)).trace :=
    (h.emit (by simp)).emit (by simp)
  have htrace : (e.strike result m).trace =
      ((e.emit (.strikeCall (callOf e.cfg m))).emit (.strikeReturn result)).trace := by
    rw [strike_eq]
    simp
  rw [htrace]
  exact hcall

theorem Sweep.truthful {rules : List TargetRule} {stop : Nat → Bool}
    {result : Nat → StrikeResult} {armed : List (MatchedContainer rules)} {e e' : ChaosEngine}
    (h : Sweep stop result armed e e') (he : Truthful stop e.trace) : Truthful stop e'.trace := by
  induction h with
  | done => exact he
  | cancelled hs => exact he.guard hs
  | dry hs _ _ ih => exact ih (he.guard hs)
  | struck hs _ _ ih => exact ih ((he.guard hs).strike _ _)

theorem Ticked.truthful {stop : Nat → Bool} {input : TickInput} {e : ChaosEngine}
    {r : ChaosEngine × Bool} (h : Ticked stop input e r) (he : Truthful stop e.trace) :
    Truthful stop r.1.trace := by
  have hlisted (hs : stop e.trace.length = false) (ok : Bool) :
      Truthful stop (e.listed ok).trace :=
    ((he.guard hs).emit (by simp)).emit (by simp)
  have hlen : (e.listed true).trace.length = e.trace.length + 3 := by simp [listed]
  have hsecond (hs : stop e.trace.length = false) {requested : Bool}
      (hs₂ : stop (e.trace.length + 3) = requested) :
      Truthful stop ((e.listed true).emit (.guard requested)).trace :=
    (hlisted hs true).guard (by rw [hlen, hs₂])
  have hrolled (hs : stop e.trace.length = false) (hs₂ : stop (e.trace.length + 3) = false)
      (fires : Bool) :
      Truthful stop (((e.listed true).emit (.guard false)).rolled fires).trace := by
    have hroll : Truthful stop (((e.listed true).emit (.guard false)).emit (.roll fires)).trace :=
      (hsecond hs hs₂).emit (by simp)
    exact hroll
  cases h with
  | skipped hs => exact he.guard hs
  | listFailed hs => exact hlisted hs false
  | quiet hs => exact hlisted hs true
  | released hs _ _ hs₂ => exact hsecond hs hs₂
  | discovered hs _ _ hs₂ => exact hsecond hs hs₂
  | noChaos hs _ _ hs₂ => exact hrolled hs hs₂ false
  | swept hs _ _ hs₂ _ _ hsweep => exact hsweep.truthful (hrolled hs hs₂ true)

theorem truthful_step {stop : Nat → Bool} {e : ChaosEngine} (he : Truthful stop e.trace)
    (op : Op) : Truthful stop (step stop e op).trace := by
  cases op with
  | tick input => exact (ticked_tick stop input e).truthful he
  | forceNextRoll fires => exact he

/-! ## After a request -/

theorem orderly_run {stop : Nat → Bool} {e : ChaosEngine}
    (he : Orderly e.trace ∧ Truthful stop e.trace) (ops : List Op) :
    Orderly (run stop e ops).trace ∧ Truthful stop (run stop e ops).trace := by
  induction ops generalizing e with
  | nil => exact he
  | cons op ops ih => exact ih ⟨orderly_step he.1 op, truthful_step he.2 op⟩

/-- Behind the instant the flag goes up no guard lets the engine pass. -/
theorem passed_eq_false {stop : Nat → Bool} {events : List Event} (h : Truthful stop events)
    {t : Nat} (hstop : ∀ i, t ≤ i → stop i = true) : ∀ x ∈ events.drop t, x.passed = false := by
  intro x hx
  obtain ⟨i, hi⟩ := List.mem_iff_getElem?.mp hx
  rw [List.getElem?_drop] at hi
  cases x with
  | guard requested =>
      have hread := h (t + i) requested hi
      rw [hstop (t + i) (by omega)] at hread
      simp [Event.passed, ← hread]
  | _ => rfl

/-- **Shutdown stops the engine within one call.**  At most one client call
and one roll start after a request takes effect, wherever in the run it does,
and no call at all when it does inside of one. -/
theorem halts_within_one_call (requests : Nat → List StopReason) {t : Nat}
    (ht : requests t ≠ []) (discoverOnly : Bool) (cfg : Config) (override : Option Bool)
    (ops : List Op) :
    let stop := fun i => (ShutdownState.during requests i).stopRequested
    let events := (run stop (new discoverOnly cfg override) ops).trace
    (events.drop t).countP Event.callStart ≤ 1 ∧
      (events.drop t).countP Event.isRoll ≤ 1 ∧
      ∀ i event, t = i + 1 → events[i]? = some event → event.callStart = true →
        (events.drop t).countP Event.callStart = 0 := by
  intro stop events
  have hstop : ∀ i, t ≤ i → stop i = true := fun i hi => ShutdownState.stopRequested_during ht hi
  obtain ⟨horderly, htruthful⟩ : Orderly events ∧ Truthful stop events :=
    orderly_run ⟨orderly_nil, truthful_nil stop⟩ ops
  have hclosed := passed_eq_false htruthful hstop
  have hsplit := List.take_append_drop t events
  have hcalls := horderly.calls
  have hrolls := horderly.rolls
  rw [← hsplit, gated_append] at hcalls hrolls
  have hcount := countP_le_of_gated hcalls.2 hclosed
  refine ⟨hcount.trans (Bool.toNat_le _), ?_, ?_⟩
  · exact (countP_le_of_gated hrolls.2 hclosed).trans (Bool.toNat_le _)
  · rintro i event rfl hi hstart
    have htake : events.take (i + 1) = events.take i ++ [event] := by
      rw [List.take_add_one, hi]
      rfl
    rw [htake, openAfter_concat_marked hstart] at hcount
    exact Nat.eq_zero_of_le_zero hcount

/-- A request during the first strike of a sweep: the second one is cancelled. -/
theorem halts_within_one_call_midSweep :
    let requests := fun t => if t = 7 then [StopReason.signal] else []
    let stop := fun i => (ShutdownState.during requests i).stopRequested
    ((run stop (new false { targets := webTargets, maxActionsPerCycle := 2 } (some false))
      [.tick { list := some webContainers, rolled := rolledZero,
               strike := fun _ => { ok := true, httpStatus := 204, sent := true } }]).trace.drop
        7).countP Event.callStart = 0 := by
  intro requests stop
  exact (halts_within_one_call requests (t := 7) (by decide) false
    { targets := webTargets, maxActionsPerCycle := 2 } (some false) _).2.2 6
      (.strikeCall (.stopContainer (lit "a1") 10)) rfl (by decide +kernel) rfl

end ChaosEngine

end ChaosForger
