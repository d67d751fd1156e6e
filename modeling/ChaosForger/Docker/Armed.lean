import ChaosForger.Docker.Listing
import ChaosForger.Docker.Wire
import ChaosForger.Engine.Strikes
import ChaosForger.Validate.Accepted

/-!
# ChaosForger.Docker.Armed

From an accepted configuration and list response to the socket: every strike
the engine attempts is well formed, and only well-formed strikes are sent, each
as its one request.
-/

namespace ChaosForger

open Libc HttpClient

namespace DockerClient

/-! ## What a call sends -/

/-- The bytes written, one list for each write. -/
def sends (calls : List TransportCall) : List (List UInt8) :=
  calls.filterMap fun
    | .sendAll bytes => some bytes
    | _ => none

section Calls

variable {t : Transport} {call : StrikeCall} {err : List UInt8} {httpStatus : Option Int}
  {fuel : Nat} {r : Reply}

/-- A well-formed call connects, and writes its request when it can. -/
theorem calls_of_wellFormed (hv : WellFormed call)
    (h : perform t call err httpStatus fuel = some r) :
    .connect ∈ r.calls ∧ sends r.calls = if t.connect = .ok () then [wire call] else [] := by
  obtain ⟨what, hwhat⟩ := perform_of_valid t err httpStatus fuel ((valid_iff call).mpr hv)
  rw [hwhat] at h
  obtain ⟨s, ok, hs, hcalls, -⟩ := postContainerAction_spec h
  rw [hcalls]
  obtain ⟨hc, -, -, hcalls⟩ | ⟨hc, -, -, -, hcalls⟩ | ⟨⟨hc, -⟩, n, -, -, hcalls, -⟩ := exchange_spec hs
  · rw [hcalls, if_neg hc]
    exact ⟨by simp, rfl⟩
  · rw [hcalls, if_pos hc]
    exact ⟨by simp, rfl⟩
  · rw [hcalls, if_pos hc]
    exact ⟨by simp, by simp [sends, List.filterMap_append, wire]⟩

/-- Any other is refused before a connection is made. -/
theorem calls_of_not_wellFormed (t : Transport) (err : List UInt8) (httpStatus : Option Int)
    (fuel : Nat) (hv : ¬ WellFormed call) :
    ∃ r, perform t call err httpStatus fuel = some r ∧ r.ok = false ∧ r.calls = [] := by
  obtain ⟨err', h⟩ := perform_of_invalid t err httpStatus fuel (mt (valid_iff call).mp hv)
  exact ⟨_, h, rfl, rfl⟩

end Calls

end DockerClient

namespace ChaosEngine

open DockerClient

/-! ## What the engine strikes -/

section Strikes

variable {stop : Nat → Bool} {input : TickInput} {e e' : ChaosEngine} {r : ChaosEngine × Bool}

theorem strikeCalls_append (trace seg : List Event) :
    strikeCalls (trace ++ seg) = strikeCalls trace ++ strikeCalls seg := List.filterMap_append

/-- A sweep calls for some of the armed containers, in order. -/
theorem Sweep.strikeCalls_eq {rules : List TargetRule} {result : Nat → StrikeResult}
    {armed : List (MatchedContainer rules)} (h : Sweep stop result armed e e') :
    ∃ called : List (MatchedContainer rules), called.Sublist armed ∧
      strikeCalls e'.trace = strikeCalls e.trace ++ called.map (callOf e.cfg) := by
  induction h with
  | done => exact ⟨[], .slnil, by simp⟩
  | cancelled => exact ⟨[], List.nil_sublist _, strikeCalls_append _ _⟩
  | @dry _ m _ _ _ _ _ _ ih =>
      obtain ⟨called, hsub, heq⟩ := ih
      refine ⟨called, hsub.cons m, ?_⟩
      rw [heq, emit_trace, strikeCalls_append, show strikeCalls [.guard false] = [] from rfl,
        List.append_nil, emit_cfg]
  | @struck _ m _ _ _ _ _ _ ih =>
      obtain ⟨called, hsub, heq⟩ := ih
      refine ⟨m :: called, hsub.cons_cons m, ?_⟩
      rw [strike_eq] at heq
      rw [heq, emit_trace, emit_cfg, List.append_assoc, strikeCalls_append, List.append_assoc]
      rfl

/-- A tick calls for matched containers of the list it got. -/
theorem Ticked.mem_strikeCalls (h : Ticked stop input e r) :
    ∀ call ∈ strikeCalls r.1.trace, call ∈ strikeCalls e.trace ∨
      ∃ running, input.list = some running ∧
        ∃ m ∈ matchContainers running e.cfg.targets, call = callOf e.cfg m := by
  cases h with
  | @swept running e' _ hlist _ _ _ _ hsweep =>
      obtain ⟨called, hsub, heq⟩ := hsweep.strikeCalls_eq
      have hfront : strikeCalls (((e.listed true).emit (.guard false)).rolled true).trace =
          strikeCalls e.trace := by
        simp [trace_opened, strikeCalls, Event.strikeCall?]
      intro call hcall
      rw [heq, hfront, List.mem_append, List.mem_map] at hcall
      obtain hold | ⟨m, hm, rfl⟩ := hcall
      · exact .inl hold
      · have hselected : m ∈ e.selected running := hsub.subset hm
        rw [selected_eq] at hselected
        rw [(sameSetup_opened e true).cfg]
        exact .inr ⟨running, hlist, m, List.mem_of_mem_take hselected, rfl⟩
  | _ =>
      intro call hcall
      left
      simpa [listed, rolled, strikeCalls, Event.strikeCall?] using hcall

/-- A container's strike is well formed when its id and the timeout are. -/
theorem wellFormed_callOf {rules : List TargetRule} {cfg : Config} {m : MatchedContainer rules}
    (hid : isValidContainerId m.container.id = true)
    (htimeout : 1 ≤ cfg.stopTimeoutSeconds ∧ cfg.stopTimeoutSeconds ≤ 600) :
    WellFormed (callOf cfg m) := by
  rw [isValidContainerId_iff] at hid
  unfold callOf
  split
  · exact ⟨hid, htimeout⟩
  · exact hid

end Strikes

/-- The list the tick gets, if any, was parsed from a response body. -/
def FromListing (toDouble : ℚ → Option ℚ) (input : TickInput) : Prop :=
  ∀ running, input.list = some running → ∃ body err l,
    parseContainerList toDouble body [] err = .ok l ∧ l.ok = true ∧ l.out = running

theorem stopTimeoutSeconds_of_denotes {root : Json} {cfg : Config} (h : Denotes root cfg) :
    1 ≤ cfg.stopTimeoutSeconds ∧ cfg.stopTimeoutSeconds ≤ 600 := by
  have ht := h.stopTimeoutSeconds
  unfold Takes at ht
  split at ht
  · rw [ht]
    decide
  · exact ht.2

section Run

variable {toDouble : ℚ → Option ℚ} {cfg : Config} {stop : Nat → Bool}

/-- One step keeps the strikes well formed. -/
theorem wellFormed_step {e : ChaosEngine} {op : Op}
    (htimeout : 1 ≤ e.cfg.stopTimeoutSeconds ∧ e.cfg.stopTimeoutSeconds ≤ 600)
    (hop : ∀ input, op = .tick input → FromListing toDouble input)
    (he : ∀ call ∈ strikeCalls e.trace, WellFormed call) :
    ∀ call ∈ strikeCalls (step stop e op).trace, WellFormed call := by
  cases op with
  | forceNextRoll fires => exact he
  | tick input =>
      intro call hcall
      obtain hold | ⟨running, hlist, m, hm, rfl⟩ :=
        (ticked_tick stop input e).mem_strikeCalls call hcall
      · exact he call hold
      · obtain ⟨body, err, l, hparse, -, rfl⟩ := hop input rfl running hlist
        have hc : m.container ∈ l.out := (mem_matchContainers.mp hm).1
        exact wellFormed_callOf (isValidContainerId_of_mem hparse _ hc) htimeout

/-- **Every strike of a run is well formed.** -/
theorem wellFormed_run {e : ChaosEngine} {ops : List Op}
    (htimeout : 1 ≤ e.cfg.stopTimeoutSeconds ∧ e.cfg.stopTimeoutSeconds ≤ 600)
    (hops : ∀ input, .tick input ∈ ops → FromListing toDouble input)
    (he : ∀ call ∈ strikeCalls e.trace, WellFormed call) :
    ∀ call ∈ strikeCalls (run stop e ops).trace, WellFormed call := by
  induction ops generalizing e with
  | nil => exact he
  | cons op ops ih =>
      have hcfg : (step stop e op).cfg = e.cfg := (sameSetup_step stop e op).cfg
      refine ih (e := step stop e op) (hcfg ▸ htimeout)
        (fun input hinput => hops input (by simp [hinput])) ?_
      exact wellFormed_step htimeout (fun input hinput => hops input (by simp [hinput])) he

end Run

/-- A list response with one container. -/
def dbBody : List UInt8 :=
  lit "[\x7b\"Id\": \"" ++ List.replicate 64 97 ++ lit "\", \"Names\": [\"/db-1\"]\x7d]"

def dbContainers : List Container := [{ id := List.replicate 64 97, names := [lit "db-1"] }]

/-- A tick that gets this list and fires. -/
def dbTick : Op :=
  .tick { list := some dbContainers, rolled := rolledZero
          strike := fun _ => { ok := true, httpStatus := 204, sent := true } }

theorem fromListing_dbTick (input : TickInput) (h : .tick input ∈ [dbTick]) :
    FromListing some input := by
  obtain rfl := Op.tick.inj (List.mem_singleton.mp h)
  rintro _ ⟨⟩
  exact ⟨dbBody, [], { ok := true, out := dbContainers, err := [] }, rfl, rfl, rfl⟩

end ChaosEngine

end ChaosForger
