import ChaosForger.Docker.Armed
import ChaosForger.Engine.Accounting
import ChaosForger.Engine.Live

/-!
# ChaosForger.Engine.Wire

The engine over real sockets.  The connections of the process follow the trace
of the engine: each list call and each strike has at most one connection, in
the order of the trace, and a connection carries a front of its one request
(`follows_runOn`).
-/

namespace ChaosForger

open Libc DockerClient

/-- The requests an event is for. -/
def Event.wires : Event → List (List UInt8)
  | .listCall => [listWire]
  | .strikeCall call => DockerClient.wires call
  | _ => []

/-- The requests of a trace, in order. -/
def requests (trace : List Event) : List (List UInt8) := trace.flatMap Event.wires

/-- From one engine and world to the other, the connections follow the trace. -/
def Follows (e : ChaosEngine) (w : World (List Syscall)) (e' : ChaosEngine)
    (w' : World (List Syscall)) : Prop :=
  ∃ seg, e'.trace = e.trace ++ seg ∧ Asks (requests seg) w w'

namespace Follows

variable {e e' e'' : ChaosEngine} {w w' w'' : World (List Syscall)}

theorem trans (h : Follows e w e' w') (h' : Follows e' w' e'' w'') : Follows e w e'' w'' := by
  obtain ⟨seg, htrace, hasks⟩ := h
  obtain ⟨seg', htrace', hasks'⟩ := h'
  refine ⟨seg ++ seg', by rw [htrace', htrace, List.append_assoc], ?_⟩
  rw [requests, List.flatMap_append]
  exact hasks.trans hasks'

/-- Steps without a system call. -/
theorem of_os_eq (seg : List Event) (htrace : e'.trace = e.trace ++ seg)
    (hseg : requests seg = []) (hos : w'.os = w.os) : Follows e w e' w' :=
  ⟨seg, htrace, by rw [hseg]; exact .of_os_eq hos⟩

end Follows

namespace ChaosEngine

variable {stop : Nat → Bool} {h : Host} {f : UnixSocketFactory} {e e' : ChaosEngine}
  {w w' : World (List Syscall)}

theorem asks_callOn {call : StrikeCall} {r : LiveReply}
    (hr : callOn (live h f) call w = some (r, w')) : Asks (DockerClient.wires call) w w' := by
  have hperform : performOver h f call w = some (r, w') := by cases call <;> exact hr
  exact (asks_performOver hperform).1

theorem SweepOn.follows {rules : List TargetRule} {armed : List (MatchedContainer rules)}
    (hsweep : SweepOn stop (live h f) armed e w e' w') : Follows e w e' w' := by
  induction hsweep with
  | done => exact .of_os_eq [] (by simp) rfl rfl
  | cancelled => exact .of_os_eq [.guard true] rfl rfl rfl
  | @dry m _ e _ w _ _ _ _ ih =>
      have hguard : Follows e w (e.emit (.guard false)) (w.log .warn (dryRunLine m)) :=
        .of_os_eq [.guard false] rfl rfl rfl
      exact hguard.trans ih
  | @struck m _ e _ w _ w₁ r _ _ hcall _ ih =>
      refine .trans ?_ ih
      refine ⟨[.guard false, .strikeCall (callOf e.cfg m), .strikeReturn r.result], ?_, ?_⟩
      · rw [strike_eq]
        simp
      · have hasks := (asks_callOn hcall).of_os (World.log_os w₁ (resultLine m r).1 (resultLine m r).2)
        have hseg : requests [.guard false, .strikeCall (callOf e.cfg m), .strikeReturn r.result] =
            DockerClient.wires (callOf e.cfg m) := by
          simp [requests, Event.wires]
        rw [hseg]
        exact (Asks.of_os_eq (World.log_os w .info _)).trans hasks

theorem sweepWorld_os (e : ChaosEngine) (rolled : Rolled) (running : List Container)
    (w : World (List Syscall)) : (e.sweepWorld rolled running w).os = w.os := by
  unfold sweepWorld
  split <;> rfl

/-- **A tick over sockets**: its connections follow its trace. -/
theorem TickedOn.follows {rolled : Rolled} {r : ChaosEngine × Bool}
    (htick : TickedOn stop (live h f) rolled e w r w') : Follows e w r.1 w' := by
  have hlisted {list : Except (List UInt8) (List Container)} {w₁ w₂ : World (List Syscall)}
      {e' : ChaosEngine} {ok : Bool}
      (hlist : (live h f).listContainers w = some (list, w₁)) (hos : w₂.os = w₁.os)
      (htrace : e'.trace = e.trace ++ [.guard false, .listCall, .listReturn ok]) :
      Follows e w e' w₂ := by
    refine ⟨_, htrace, ?_⟩
    have hseg : requests [.guard false, .listCall, .listReturn ok] = [listWire] := rfl
    rw [hseg]
    exact (asks_listContainersOver hlist).1.of_os hos
  cases htick with
  | skipped => exact .of_os_eq [.guard true] rfl rfl rfl
  | listFailed _ hlist => exact hlisted hlist rfl (trace_listed e false)
  | quiet _ hlist => exact hlisted hlist rfl (trace_listed e true)
  | released _ hlist =>
      refine (hlisted hlist rfl (trace_listed e true)).trans ?_
      exact .of_os_eq [.guard true] rfl rfl rfl
  | discovered _ hlist =>
      refine (hlisted hlist rfl (trace_listed e true)).trans ?_
      exact .of_os_eq [.guard false] rfl rfl rfl
  | noChaos _ hlist =>
      refine (hlisted hlist rfl (trace_listed e true)).trans ?_
      exact .of_os_eq [.guard false, .roll false] (by simp [ChaosEngine.rolled]) rfl rfl
  | @swept running w₁ _ _ _ hlist _ _ _ _ hsweep =>
      have hopened : Follows e w (((e.listed true).emit (.guard false)).rolled true)
          (e.sweepWorld rolled running w₁) := by
        refine (hlisted hlist rfl (trace_listed e true)).trans ?_
        exact .of_os_eq [.guard false, .roll true] (by simp [ChaosEngine.rolled]) rfl
          (sweepWorld_os e rolled running w₁)
      exact hopened.trans hsweep.follows

theorem follows_runOn {rolls : List Rolled}
    (hrun : runOn stop (live h f) rolls e w = some (e', w')) : Follows e w e' w' := by
  induction rolls generalizing e w with
  | nil =>
      obtain ⟨rfl, rfl⟩ := Prod.mk.inj (Option.some.inj hrun)
      exact .of_os_eq [] (by simp) rfl rfl
  | cons rolled rolls ih =>
      rw [runOn] at hrun
      split at hrun
      · contradiction
      · next e₁ ok w₁ htick => exact (tickedOn_tickOn htick).follows.trans (ih hrun)

/-! ## The requests of a run -/

/-- A request of a trace is the list call or a valid strike. -/
theorem mem_requests {trace : List Event} {wire : List UInt8} (hwire : wire ∈ requests trace) :
    wire = listWire ∨
      ∃ call ∈ strikeCalls trace, Valid call ∧ wire = DockerClient.wire call := by
  obtain ⟨event, hevent, hmem⟩ := List.mem_flatMap.mp hwire
  cases event with
  | listCall => exact .inl (List.mem_singleton.mp hmem)
  | strikeCall call =>
      have hcall : call ∈ strikeCalls trace := List.mem_filterMap.mpr ⟨_, hevent, rfl⟩
      rw [Event.wires, DockerClient.wires] at hmem
      split at hmem
      · next hv => exact .inr ⟨call, hcall, hv, List.mem_singleton.mp hmem⟩
      · simp at hmem
  | _ => simp [Event.wires] at hmem

/-- The strikes of a run are for matched containers of the lists it got. -/
theorem mem_strikeCalls_run {P : List Container → Prop} {inputs : List TickInput}
    (hlists : ∀ input ∈ inputs, ∀ running, input.list = some running → P running) :
    ∀ call ∈ strikeCalls (run stop e (inputs.map .tick)).trace, call ∈ strikeCalls e.trace ∨
      ∃ running, P running ∧ ∃ m ∈ matchContainers running e.cfg.targets, call = callOf e.cfg m := by
  induction inputs generalizing e with
  | nil => exact fun call hcall => .inl hcall
  | cons input inputs ih =>
      have hticked := ticked_tick stop input e
      have hcfg : (tick stop input e).1.cfg = e.cfg := hticked.sameSetup.cfg
      intro call hcall
      obtain hold | hnew := ih (e := (tick stop input e).1)
        (fun input hinput => hlists input (by simp [hinput])) call hcall
      · obtain hold | ⟨running, hrunning, hm⟩ := hticked.mem_strikeCalls call hold
        · exact .inl hold
        · exact .inr ⟨running, hlists input (by simp) running hrunning, hm⟩
      · rw [hcfg] at hnew
        exact .inr hnew

/-- Without strikes to make, a run makes none. -/
theorem strikeCalls_run_of_disarmed {ops : List Op}
    (hclosed : e.discoverOnly = true ∨ e.dryRun = true) :
    strikeCalls (run stop e ops).trace = strikeCalls e.trace := by
  induction ops generalizing e with
  | nil => rfl
  | cons op ops ih =>
      have hsetup := sameSetup_step stop e op
      have hrest : strikeCalls (run stop e (op :: ops)).trace =
          strikeCalls (step stop e op).trace :=
        ih (by rwa [hsetup.discoverOnly, hsetup.dryRun])
      rw [hrest]
      cases op with
      | forceNextRoll fires => rfl
      | tick input =>
          have hnone (running : List Container) : ¬ e.Armed input running := by
            rintro ⟨-, -, honly, -, hlive⟩
            simp [honly, hlive] at hclosed
          obtain ⟨seg, htrace, hseg⟩ := (ticked_tick stop input e).strikeCalls_of_not_armed hnone
          rw [step, htrace, strikeCalls_append, hseg, List.append_nil]

/-- Every tick strikes as often as its cap says. -/
theorem struck_run_le (inputs : List TickInput) :
    (run stop e (inputs.map .tick)).trace.countP Event.struck ≤
      e.trace.countP Event.struck + inputs.length * (max 1 e.cfg.maxActionsPerCycle).toNat := by
  induction inputs generalizing e with
  | nil => simp [run]
  | cons input inputs ih =>
      have hticked := ticked_tick stop input e
      have hcfg : (tick stop input e).1.cfg = e.cfg := hticked.sameSetup.cfg
      have hone := hticked.struck_le
      have hrest := ih (e := (tick stop input e).1)
      rw [hcfg] at hrest
      rw [List.length_cons, Nat.add_mul, Nat.one_mul]
      have hrun : (run stop e ((input :: inputs).map .tick)).trace.countP Event.struck =
          (run stop (tick stop input e).1 (inputs.map .tick)).trace.countP Event.struck := rfl
      omega

/-- A request that is no list call is a strike of the trace. -/
theorem countP_requests_le (trace : List Event) :
    (requests trace).countP (· ≠ listWire) ≤ trace.countP Event.struck := by
  induction trace with
  | nil => simp [requests]
  | cons event trace ih =>
      rw [requests, List.flatMap_cons, List.countP_append, List.countP_cons, Nat.add_comm]
      have hone : event.wires.countP (· ≠ listWire) ≤ if event.struck then 1 else 0 := by
        cases event with
        | strikeCall call =>
            rw [Event.wires, DockerClient.wires]
            split
            · exact List.countP_le_length
            · exact Nat.zero_le _
        | _ => simp [Event.wires, Event.struck]
      exact Nat.add_le_add ih hone

/-- What a run over sockets has asked for. -/
structure Asked (toDouble : ℚ → Option ℚ) (cfg : Config) (strikes : Bool) (ticks : Nat)
    (trace : List Event) (asked : List (List UInt8)) : Prop where
  /-- no request is repeated, and none overtakes another -/
  sublist : asked.Sublist (requests trace)
  /-- a strike is for a matched container of a response -/
  armed : ∀ wire ∈ asked, wire = listWire ∨
    ∃ body l, parseContainerList toDouble body [] [] = .ok l ∧ l.ok = true ∧
      ∃ m ∈ matchContainers l.out cfg.targets, WellFormed (callOf cfg m) ∧
        wire = DockerClient.wire (callOf cfg m)
  disarmed : strikes = false → ∀ wire ∈ asked, wire = listWire
  capped : asked.countP (· ≠ listWire) ≤ ticks * (max 1 cfg.maxActionsPerCycle).toNat

/-- **A run over sockets asks for what its configuration allows.** -/
theorem asked_runOn {cfg : Config} {discoverOnly : Bool} {override : Option Bool}
    {rolls : List Rolled}
    (hrun : runOn stop (live h f) rolls (new discoverOnly cfg override) w = some (e, w')) :
    (Settled w → Settled w') ∧ ∃ new asked, connections w'.os = connections w.os ++ new ∧
      List.Forall₂ (· <+: ·) new asked ∧
      Asked h.toDouble cfg (!discoverOnly && !override.getD cfg.dryRun) rolls.length e.trace asked := by
  obtain ⟨seg, htrace, hasks⟩ := follows_runOn hrun
  obtain ⟨hset, -, new, asked, hnew, hsub, hfront⟩ := hasks
  obtain rfl : e.trace = seg := by simpa [ChaosEngine.new] using htrace
  obtain ⟨inputs, hrolls, heng, hlists⟩ := runOn_run hrun
  have hlen : inputs.length = rolls.length := by rw [← hrolls, List.length_map]
  refine ⟨hset, new, asked, hnew, hfront, hsub, fun wire hwire => ?_, fun hdis wire hwire => ?_, ?_⟩
  · obtain hlist | ⟨call, hcall, hv, hwire⟩ := mem_requests (hsub.subset hwire)
    · exact .inl hlist
    · have hparsed : ∀ input ∈ inputs, ∀ running, input.list = some running → ∃ body l,
          parseContainerList h.toDouble body [] [] = .ok l ∧ l.ok = true ∧ l.out = running := by
        intro input hinput running hrunning
        obtain ⟨w₁, w₂, hlist⟩ := hlists input hinput running hrunning
        exact (asks_listContainersOver hlist).2.2 running rfl
      rw [← heng] at hcall
      obtain hold | ⟨running, ⟨body, l, hl, hok, rfl⟩, m, hm, rfl⟩ :=
        mem_strikeCalls_run hparsed call hcall
      · simp [ChaosEngine.new, strikeCalls] at hold
      · exact .inr ⟨body, l, hl, hok, m, hm, (valid_iff _).mp hv, hwire⟩
  · obtain hlist | ⟨call, hcall, -⟩ := mem_requests (hsub.subset hwire)
    · exact hlist
    · have hclosed : discoverOnly = true ∨ override.getD cfg.dryRun = true := by
        cases discoverOnly with
        | true => exact .inl rfl
        | false => exact .inr (by simpa using hdis)
      have hnone : strikeCalls e.trace = [] := by
        rw [← heng]
        exact strikeCalls_run_of_disarmed hclosed
      rw [hnone] at hcall
      contradiction
  · have hstruck : e.trace.countP Event.struck ≤
        0 + inputs.length * (max 1 cfg.maxActionsPerCycle).toNat := by
      rw [← heng]
      exact struck_run_le inputs
    rw [hlen, Nat.zero_add] at hstruck
    calc
      asked.countP (· ≠ listWire) ≤ (requests e.trace).countP (· ≠ listWire) := hsub.countP_le
      _ ≤ e.trace.countP Event.struck := countP_requests_le e.trace
      _ ≤ rolls.length * (max 1 cfg.maxActionsPerCycle).toNat := hstruck

end ChaosEngine

end ChaosForger
