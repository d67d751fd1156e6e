import ChaosForger.Main.Wire

/-!
# ChaosForger.Main.Report

What the two streams of the process say: every list call that failed and every
strike with its end, once and in order, and in the last line the counters,
which are the tallies of these lines (`main_report`).
-/

namespace ChaosForger

open Libc DockerClient

/-! ## Marks behind the filter -/

theorem level_of_ofLine {line : LogLevel × List UInt8} {k : Mark} (h : Mark.ofLine line = some k) :
    k.level = line.1 := by
  have hfound := List.find?_some h
  simp only [decide_eq_true_eq] at hfound
  exact hfound.1

theorem ofLog_cons (line : LogLevel × List UInt8) (lines : List (LogLevel × List UInt8)) :
    Mark.ofLog (line :: lines) = (Mark.ofLine line).toList ++ Mark.ofLog lines := by
  cases h : Mark.ofLine line <;> simp [Mark.ofLog, h]

/-- Each mark is on the stream of its level. -/
theorem ofLog_filter (q : LogLevel → Bool) (lines : List (LogLevel × List UInt8)) :
    Mark.ofLog (lines.filter fun line => q line.1) =
      (Mark.ofLog lines).filter fun k => q k.level := by
  induction lines with
  | nil => rfl
  | cons line lines ih =>
      rw [List.filter_cons, ofLog_cons, List.filter_append, ← ih]
      cases h : Mark.ofLine line with
      | none => split <;> simp [ofLog_cons, h]
      | some k =>
          have hk := level_of_ofLine h
          split <;> simp_all [ofLog_cons]

/-- The marked lines of a log, as they are read back. -/
def markedLines (lines : List (LogLevel × List UInt8)) : List (LogLevel × List UInt8) :=
  lines.filter fun line => (Mark.ofLine line).isSome

theorem markedLines_map_shown (lines : List (LogLevel × List UInt8)) :
    markedLines (lines.map shown) = (lines.filter Mark.marked).map shown := by
  rw [markedLines, List.filter_map]
  rfl

/-- No mark is a debug line. -/
theorem filter_marked_passing {level : LogLevel} (h : level.value ≤ LogLevel.info.value)
    (lines : List (LogLevel × List UInt8)) :
    (passing level lines).filter Mark.marked = lines.filter Mark.marked := by
  rw [passing, List.filter_filter]
  refine List.filter_congr fun line _ => ?_
  cases hline : Mark.ofLine (shown line) with
  | none => simp [Mark.marked, hline]
  | some k =>
      have hk : k.level = (shown line).1 := level_of_ofLine hline
      have hlow : LogLevel.info.value ≤ k.level.value := by
        cases k <;> simp [Mark.level, LogLevel.value]
      rw [hk] at hlow
      have hpass : level.value ≤ line.1.value := h.trans hlow
      simp [Mark.marked, hline, hpass]

theorem filter_marked_passing_of_silent {lines : List (LogLevel × List UInt8)}
    (h : Mark.ofLogged lines = []) (level : LogLevel) :
    (passing level lines).filter Mark.marked = [] := by
  rw [passing, List.filter_comm, Mark.filter_marked_of_silent h]
  rfl

/-! ## The lines of the program -/

/-- What the validator logs begins with `config: `. -/
theorem front_of_warnings {root : Json} {obj : JsonObject} {cfg : Config} :
    ∀ msg ∈ warnings root obj cfg, lit "config: " <+: msg := by
  have hunset : lit "config: 'dry_run' not set - defaulting to DRY-RUN mode " =
      lit "config: " ++ lit "'dry_run' not set - defaulting to DRY-RUN mode " := by decide
  have hunknown : lit "config: ignoring unknown key " =
      lit "config: " ++ lit "ignoring unknown key " := by decide
  have hduplicate : lit "config: duplicate rule " =
      lit "config: " ++ lit "duplicate rule " := by decide
  have hrules (rules : List TargetRule) :
      ∀ msg ∈ duplicateWarnings rules, lit "config: " <+: msg := by
    induction rules with
    | nil => simp [duplicateWarnings]
    | cons rule rules ih =>
        intro msg hmsg
        rw [duplicateWarnings, List.mem_append, List.mem_map] at hmsg
        obtain ⟨-, -, rfl⟩ | hmsg := hmsg
        · simp [hduplicate]
        · exact ih msg hmsg
  intro msg hmsg
  rw [warnings, List.mem_append, List.mem_append, List.mem_map] at hmsg
  obtain (hmsg | ⟨member, -, rfl⟩) | hmsg := hmsg
  · split at hmsg
    · rw [List.mem_singleton.mp hmsg]
      simp [hunset]
    · simp at hmsg
  · simp [hunknown]
  · exact hrules _ msg hmsg

theorem silent_warnings {root : Json} {cfg : Config} {logged : List (List UInt8)}
    (h : validateConfig root {} = .ok (cfg, logged)) (lvl : LogLevel) :
    Mark.ofLogged (logged.map fun msg => (lvl, msg)) = [] := by
  refine Mark.ofLogged_of_front (x := lit "config: ") (by decide) ?_ lvl
  cases root with
  | object obj =>
      simp only [validateConfig, bind_ok_iff, pure, Except.pure, Except.ok.injEq,
        Prod.mk.injEq] at h
      obtain ⟨_, -, _, -, _, -, _, -, _, -, _, -, _, -, _, -, _, -, -, rfl⟩ := h
      exact front_of_warnings
  | _ => simp [validateConfig] at h

theorem silent_probeWorld : Mark.ofLogged probeWorld.logged = [] := by
  decide

theorem silent_bannerLines (o : Options) (s : Setup) : Mark.ofLogged (bannerLines o s) = [] := by
  have hrules : Mark.ofLogged ((s.cfg.targets.map ruleLine).map fun line => (LogLevel.info, line)) =
      [] := by
    refine Mark.ofLogged_of_front (x := lit "  rule: name~='") (by decide) ?_ .info
    simp only [List.mem_map, forall_exists_index, and_imp]
    rintro _ rule - rfl
    simp [ruleLine]
  have hsettings : Mark.ofLogged [(.info, settingsLine o s)] = [] := by
    simp only [settingsLine, List.append_assoc]
    exact Mark.ofLogged_silent (by decide) .info _
  have hconnected : Mark.ofLogged [(.info, lit "Connected to Docker")] = [] := by decide
  have hsafety : Mark.ofLogged (safetyLines o s.cfg (engineOf o s.cfg)) = [] := by
    unfold safetyLines
    split
    · rw [← List.singleton_append, Mark.ofLogged_append]
      simp only [List.append_assoc]
      rw [Mark.ofLogged_silent (by decide), Mark.ofLogged_silent (by decide)]
      rfl
    · split <;> decide
  rw [bannerLines, Mark.ofLogged_append, Mark.ofLogged_append, hrules, hsafety,
    ← List.singleton_append, Mark.ofLogged_append, hsettings, hconnected]
  rfl

theorem silent_schedulerLines {o : Options} {cfg : Config} {lines : List (LogLevel × List UInt8)}
    (h : lines ∈ schedulerLines o cfg) : Mark.ofLogged lines = [] := by
  simp only [schedulerLines, List.mem_cons, List.not_mem_nil, or_false] at h
  obtain rfl | rfl := h
  · rfl
  · simp only [Scheduler.startedLine, List.append_assoc]
    exact Mark.ofLogged_silent (by decide) .info _

theorem silent_finishLines (env : Environment) (e : ChaosEngine) :
    Mark.ofLogged (finishLines env e) = [] := by
  have hreport : Mark.ofLogged [(.info, reportLine e env.reason)] = [] := by
    simp only [reportLine, List.append_assoc]
    exact Mark.ofLogged_silent (by decide) .info _
  have hclosed : Mark.ofLogged [(.debug, lit "Docker connections closed")] = [] := by decide
  have hsignal (r : List UInt8) :
      Mark.ofLogged [(.info, lit "Shutdown requested (signal " ++ r)] = [] :=
    Mark.ofLogged_silent (by decide) .info r
  have hsignals : Mark.ofLogged (signalLines env) = [] := by
    unfold signalLines
    split
    · rw [List.append_assoc, hsignal]
    · rfl
  rw [finishLines, Mark.ofLogged_append, Mark.ofLogged_append, hsignals, hclosed, hreport]
  rfl

/-- Of the messages of a started process, the marked ones are in its log. -/
theorem filter_marked_messages {root : Json} {cfg : Config} {logged : List (List UInt8)}
    {level : LogLevel} (initial : LogLevel) (hvalid : validateConfig root {} = .ok (cfg, logged))
    (hlow : level.value ≤ LogLevel.info.value) (lines : List (LogLevel × List UInt8)) :
    (passing initial (logged.map fun msg => (.warn, msg)) ++ passing level lines).filter
      Mark.marked = lines.filter Mark.marked := by
  rw [List.filter_append, filter_marked_passing_of_silent (silent_warnings hvalid .warn),
    List.nil_append, filter_marked_passing hlow]

/-! ## The report -/

/-- What the process has logged behind the log level, up to the report. -/
theorem logged_of_operated {env : Environment} {o : Options} {s : Setup}
    {w : World (List Syscall)} {e : ChaosEngine} {exitCode : Option Nat} {rolls : List Rolled}
    (h : Operated env o s w e exitCode rolls) :
    Tells (live env.host (factoryOf e.cfg)) e.cfg w.os w.logged e.trace ∧ e.Accounts ∧
      (exitCode = some 0 → ∃ front, w.logged = front ++ [(.info, reportLine e env.reason)]) := by
  obtain ⟨w₁, w₂, lines, hlines, hping, hrun, hend⟩ := h.run
  have hprobed : w₁.logged = probeWorld.logged := (asks_pingOver hping).2
  obtain ⟨⟨seg, later, htrace, hlog, -, htells⟩, hcfg⟩ :=
    ChaosEngine.agrees_runOn (ChaosEngine.quiet_live _ _) hrun
  obtain rfl : e.trace = seg := by simpa [engineOf, ChaosEngine.new] using htrace
  have hfront : Mark.ofLogged (w₁.logged ++ bannerLines o s ++ lines) = [] := by
    rw [Mark.ofLogged_append, Mark.ofLogged_append, hprobed, silent_probeWorld,
      silent_bannerLines, silent_schedulerLines hlines]
    rfl
  have hloop : Tells (live env.host (factoryOf e.cfg)) e.cfg w₂.os w₂.logged e.trace := by
    have hquiet : Tells (live env.host (factoryOf s.cfg)) s.cfg w₂.os
        (w₁.logged ++ bannerLines o s ++ lines) [] := .of_silent hfront rfl
    rw [hlog, hcfg]
    exact hquiet.append htells
  obtain ⟨inputs, -, heng, -⟩ := ChaosEngine.runOn_run hrun
  have hacc : e.Accounts := by
    rw [← heng]
    exact (ChaosEngine.accounts_run ⟨ChaosEngine.accounts_new _ _ _,
      ChaosEngine.withinRun_new _ _ _⟩ (inputs.map .tick)).1
  obtain ⟨hcode, rfl, -⟩ | ⟨-, rfl⟩ := hend
  · exact ⟨hloop, hacc, by simp [hcode]⟩
  · rw [finish_eq]
    refine ⟨?_, hacc, fun _ => ?_⟩
    · have hquiet : Tells (live env.host (factoryOf e.cfg)) e.cfg w₂.os (finishLines env e) [] :=
        .of_silent (silent_finishLines env e) rfl
      have hall := hloop.append hquiet
      rwa [List.append_nil] at hall
    · rw [finishLines]
      exact ⟨w₂.logged ++ (signalLines env ++ [(.debug, lit "Docker connections closed")]),
        (List.append_assoc _ _ _).symm⟩

/-- The report is printed as it is. -/
theorem printed_reportLine (e : ChaosEngine) (reason : StopReason) :
    printed (reportLine e reason) = reportLine e reason := by
  have hdecimal (n : Nat) : Mark.plain (decimal n) = true := by
    rw [Mark.plain, List.all_eq_true]
    intro c hc
    have hdigit := List.all_eq_true.mp (all_isdigit_decimal n) c hc
    have hother : c ≠ 0 ∧ c ≠ 10 ∧ c ≠ 13 := by
      refine ⟨?_, ?_, ?_⟩ <;> rintro rfl <;> exact absurd hdigit (by decide)
    simpa using hother
  have hname : Mark.plain (stopReasonName reason) = true := by cases reason <;> decide
  have hplain : Mark.plain (reportLine e reason) = true := by
    simp only [reportLine, Mark.plain_append, hdecimal, hname, Bool.and_true]
    decide
  exact printed_of_clean fun c hc => by simpa using List.all_eq_true.mp hplain c hc

/-- The marked lines of the two streams are those of these entries, about the
trace of the engine and the system calls of the process. -/
structure Audited (env : Environment) (p : Process) (e : ChaosEngine) (g : Logger)
    (entries : List Entry) : Prop where
  trace : e.trace.filter Event.reported = entries.flatMap Entry.events
  sound : ∀ x ∈ entries, x.Sound (live env.host (factoryOf e.cfg)) e.cfg p.os
  stdout : List.Forall₂ ShownAs
    ((entries.flatMap Entry.lines).filter fun m => !m.1.goesToStderr) (markedLines (readLog g.stdout))
  stderr : List.Forall₂ ShownAs
    ((entries.flatMap Entry.lines).filter fun m => m.1.goesToStderr) (markedLines (readLog g.stderr))

/-- The marked lines of one stream. -/
theorem shownAs_markedLines {q : LogLevel → Bool} {msgs lines : List (LogLevel × List UInt8)}
    (h : msgs.filter Mark.marked = lines) :
    List.Forall₂ ShownAs (lines.filter fun m => q m.1)
      (markedLines ((msgs.map shown).filter fun m => q m.1)) := by
  have hsplit : markedLines ((msgs.map shown).filter fun m => q m.1) =
      (lines.filter fun m => q m.1).map shown := by
    rw [List.filter_map, markedLines_map_shown, ← h, List.filter_comm]
    rfl
  rw [hsplit]
  exact shownAs_shown _

end ChaosForger
