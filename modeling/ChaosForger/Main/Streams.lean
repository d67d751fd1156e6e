import ChaosForger.Main.Runs

/-!
# ChaosForger.Main.Streams

The streams of the process.  Its writes are lines and texts; the lines that
pass the filter in force are what a reader of the streams gets, behind the
warnings of the configuration file (`appends_streams`).
-/

namespace ChaosForger

open Libc DockerClient

/-- One write; a line carries the time it is written at. -/
def Output.write (tm : Tm) (g : Logger) : Output → Logger
  | .text true bytes => { g with stderr := g.stderr ++ bytes }
  | .text false bytes => { g with stdout := g.stdout ++ bytes }
  | .setLevel lvl => g.setLogLevel lvl
  | .line lvl msg => g.logLine tm lvl msg

/-- The writes of a process, at these times. -/
def writeAll (clock : Nat → Tm) : Logger → List Output → Logger
  | g, [] => g
  | g, out :: output => writeAll (fun i => clock (i + 1)) (out.write (clock 0) g) output

/-- The streams of a process. -/
def Process.streams (env : Environment) (clock : Nat → Tm) (p : Process) : Logger :=
  writeAll clock { level := .fromEnvOrDefault env.logLevelVar } p.output

/-- The lines that pass the filter. -/
def passing (level : LogLevel) (lines : List (LogLevel × List UInt8)) :
    List (LogLevel × List UInt8) :=
  lines.filter fun line => level.value ≤ line.1.value

/-- Logged lines in the place of writes. -/
def asOutput (lines : List (LogLevel × List UInt8)) : List Output :=
  lines.map fun line => .line line.1 line.2

theorem passing_append (level : LogLevel) (lines lines' : List (LogLevel × List UInt8)) :
    passing level (lines ++ lines') = passing level lines ++ passing level lines' :=
  List.filter_append ..

theorem passing_singleton {level lvl : LogLevel} (h : level.value ≤ lvl.value) (msg : List UInt8) :
    passing level [(lvl, msg)] = [(lvl, msg)] := by
  simp [passing, h]

theorem writeAll_append (clock : Nat → Tm) (g : Logger) (output output' : List Output) :
    writeAll clock g (output ++ output') =
      writeAll (fun i => clock (i + output.length)) (writeAll clock g output) output' := by
  induction output generalizing clock g with
  | nil => rfl
  | cons out output ih =>
      rw [List.cons_append, writeAll, ih, writeAll, List.length_cons]
      simp only [Nat.add_assoc]

/-- Lines append what passes the filter. -/
theorem appends_writeAll (clock : Nat → Tm) (g : Logger) (lines : List (LogLevel × List UInt8)) :
    Appends g (writeAll clock g (asOutput lines)) ((passing g.level lines).map shown) ∧
      (writeAll clock g (asOutput lines)).level = g.level := by
  induction lines generalizing clock g with
  | nil => exact ⟨.nil g, rfl⟩
  | cons line lines ih =>
      obtain ⟨lvl, msg⟩ := line
      have hline := appends_logLine g (clock 0) lvl msg
      obtain ⟨hrest, hsame⟩ := ih (fun i => clock (i + 1)) (g.logLine (clock 0) lvl msg)
      rw [logLine_level] at hrest hsame
      refine ⟨?_, hsame⟩
      have hall := hline.trans hrest
      by_cases hlow : lvl.value < g.level.value
      · rw [if_pos hlow, List.nil_append] at hall
        rw [passing, List.filter_cons_of_neg (by simpa using hlow)]
        exact hall
      · rw [if_neg hlow] at hall
        rw [passing, List.filter_cons_of_pos (by simpa using hlow)]
        exact hall

/-- **The messages of a started process**: the warnings of its configuration
file behind the filter of the environment, and its lines behind the filter of
the level in force. -/
theorem appends_streams {env : Environment} {o : Options} {s : Setup} {p : Process}
    {lines : List (LogLevel × List UInt8)} (h : Configured env o s)
    (hout : p.output = s.output ++ asOutput lines) (clock : Nat → Tm) :
    ∃ root cfg logged, validateConfig root {} = .ok (cfg, logged) ∧
      Appends { level := .fromEnvOrDefault env.logLevelVar } (p.streams env clock)
        ((passing (.fromEnvOrDefault env.logLevelVar) (logged.map fun msg => (.warn, msg)) ++
          passing s.level lines).map shown) := by
  obtain ⟨⟨text, root, cfg, logged, -, hvalid, -, -, -, hearly⟩, -⟩ := h
  refine ⟨root, cfg, logged, hvalid, ?_⟩
  let warned := logged.map fun msg => (LogLevel.warn, msg)
  let initial : Logger := { level := .fromEnvOrDefault env.logLevelVar }
  have hwarnings : logged.map (Output.line .warn) = asOutput warned := by
    simp [asOutput, warned]
  have hfirst := (appends_writeAll clock initial warned).1
  have hlast (clock' : Nat → Tm) (g : Logger) :=
    (appends_writeAll clock' (g.setLogLevel s.level) lines).1
  rw [hearly, hwarnings] at hout
  rw [Process.streams, hout, writeAll_append, writeAll_append, List.map_append,
    ← List.append_nil ((passing _ warned).map shown)]
  exact (hfirst.trans (appends_setLogLevel _ _)).trans (hlast _ _)

/-- A line that passes the filter is read back from its stream. -/
theorem shown_mem_readLog {level : LogLevel} {g : Logger} {msgs : List (LogLevel × List UInt8)}
    (h : Appends { level } g (msgs.map shown)) {m : LogLevel × List UInt8} (hm : m ∈ msgs)
    (herr : m.1.goesToStderr = true) : shown m ∈ readLog g.stderr := by
  rw [(readLog_of_appends h).2, List.mem_filter]
  exact ⟨List.mem_map_of_mem hm, herr⟩

/-- Only at `error` is a warning filtered. -/
theorem value_le_warn {lvl : List UInt8} {level : LogLevel} (h : applyLogLevel lvl = .ok level)
    (hne : lvl ≠ lit "error") : level.value ≤ LogLevel.warn.value := by
  unfold applyLogLevel at h
  grind [LogLevel.value]

end ChaosForger
