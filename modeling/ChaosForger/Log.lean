import ChaosForger.Libc.Numeral
import ChaosForger.Lines

/-!
# ChaosForger.Log

The logging backend: the level filter, the two streams, and the form of a
line.

CR and LF of a message are folded to spaces, so a message never begins a line
of its own.  `readLog` takes a stream apart again: it finds one line for each
message that passed the filter and nothing else (`readLog_run`), whatever their
bytes, and what a line says is the message but for line breaks and what stands
behind a NUL (`Shows`).
-/

namespace ChaosForger

open Libc

inductive LogLevel where
  | debug | info | warn | error
  deriving DecidableEq, Repr

namespace LogLevel

/-- The underlying `int`. -/
def value : LogLevel → Nat
  | .debug => 0
  | .info => 1
  | .warn => 2
  | .error => 3

/-- What `Chaos_Forger_LOG_LEVEL` says before `main` runs; unrecognized values
are no error here. -/
def fromEnvOrDefault : Option (List UInt8) → LogLevel
  | none => .info
  | some v =>
      if v = lit "debug" then .debug
      else if v = lit "info" then .info
      else if v = lit "warn" then .warn
      else if v = lit "error" then .error
      else .info

def tag : LogLevel → List UInt8
  | .debug => lit "DEBUG"
  | .info => lit "INFO"
  | .warn => lit "WARN"
  | .error => lit "ERROR"

def goesToStderr (lvl : LogLevel) : Bool := LogLevel.warn.value ≤ lvl.value

end LogLevel

/-- The local time, by the fields `strftime` prints. -/
structure Tm where
  year : Nat
  month : Nat
  day : Nat
  hour : Nat
  minute : Nat
  second : Nat

/-- At least two digits. -/
def twoDigits (n : Nat) : List UInt8 := if n < 10 then 48 :: decimal n else decimal n

/-- `%Y-%m-%d %H:%M:%S` -/
def Tm.stamp (tm : Tm) : List UInt8 :=
  decimal tm.year ++ lit "-" ++ twoDigits tm.month ++ lit "-" ++ twoDigits tm.day ++ lit " " ++
    twoDigits tm.hour ++ lit ":" ++ twoDigits tm.minute ++ lit ":" ++ twoDigits tm.second

/-- CR and LF folded to spaces. -/
def safe (msg : List UInt8) : List UInt8 := msg.map fun c => if c = 10 ∨ c = 13 then 32 else c

/-- What is left of a message on its line; `%s` ends at a NUL. -/
def printed (msg : List UInt8) : List UInt8 := cstr (safe msg)

/-- `"[%s] [%s] %s"`, without the line feed. -/
def logText (tm : Tm) (lvl : LogLevel) (msg : List UInt8) : List UInt8 :=
  lit "[" ++ tm.stamp ++ lit "] [" ++ lvl.tag ++ lit "] " ++ printed msg

/-- The level and what has been written. -/
structure Logger where
  level : LogLevel := .info
  stdout : List UInt8 := []
  stderr : List UInt8 := []

/-- A call of the backend; a line carries the time it is written at. -/
inductive LogCall where
  | setLevel (lvl : LogLevel)
  | line (tm : Tm) (lvl : LogLevel) (msg : List UInt8)

namespace Logger

def setLogLevel (g : Logger) (lvl : LogLevel) : Logger := { g with level := lvl }

def logLine (g : Logger) (tm : Tm) (lvl : LogLevel) (msg : List UInt8) : Logger :=
  if lvl.value < g.level.value then g
  else if lvl.goesToStderr then { g with stderr := g.stderr ++ (logText tm lvl msg ++ [10]) }
  else { g with stdout := g.stdout ++ (logText tm lvl msg ++ [10]) }

def step (g : Logger) : LogCall → Logger
  | .setLevel lvl => g.setLogLevel lvl
  | .line tm lvl msg => g.logLine tm lvl msg

def run (g : Logger) (calls : List LogCall) : Logger := calls.foldl step g

end Logger

/-! ## Reading a log -/

def levelOfTag (tag : List UInt8) : Option LogLevel :=
  [LogLevel.debug, .info, .warn, .error].find? fun lvl => lvl.tag = tag

/-- The level and the message of a line. -/
def readLine : List UInt8 → Option (LogLevel × List UInt8)
  | 91 :: rest =>
      match rest.dropWhile (· != 93) with
      | 93 :: 32 :: 91 :: rest =>
          match rest.dropWhile (· != 93) with
          | 93 :: 32 :: msg =>
              (levelOfTag (rest.takeWhile (· != 93))).map fun lvl => (lvl, msg)
          | _ => none
      | _ => none
  | _ => none

def readLog (stream : List UInt8) : List (LogLevel × List UInt8) :=
  (Lines.complete 10 stream).filterMap readLine

/-- The messages that pass the filter in force, each with its level. -/
def admitted : LogLevel → List LogCall → List (LogLevel × List UInt8)
  | _, [] => []
  | _, .setLevel lvl :: calls => admitted lvl calls
  | level, .line _ lvl msg :: calls =>
      if lvl.value < level.value then admitted level calls
      else (lvl, msg) :: admitted level calls

/-- What a reader sees of a message: every byte of it, with a space in the place
of a CR or LF, up to the first NUL. -/
inductive Shows : List UInt8 → List UInt8 → Prop where
  | nil : Shows [] []
  | nul {msg : List UInt8} : Shows (0 :: msg) []
  | fold {c : UInt8} {msg text : List UInt8} : c = 10 ∨ c = 13 → Shows msg text →
      Shows (c :: msg) (32 :: text)
  | byte {c : UInt8} {msg text : List UInt8} : c ≠ 0 → c ≠ 10 → c ≠ 13 → Shows msg text →
      Shows (c :: msg) (c :: text)

/-- A line that was read says this message, at its level. -/
def ShownAs (m line : LogLevel × List UInt8) : Prop := line.1 = m.1 ∧ Shows m.2 line.2

/-- A stream of these messages: whole lines, each of which is read, and one for
each message. -/
structure Records (stream : List UInt8) (msgs : List (LogLevel × List UInt8)) : Prop where
  lines : ∃ ls, stream = Lines.render 10 ls ∧ (∀ l ∈ ls, (10 : UInt8) ∉ l) ∧
    ls.map readLine = (readLog stream).map some
  read : List.Forall₂ ShownAs msgs (readLog stream)

/-- The line of a message. -/
def shown (m : LogLevel × List UInt8) : LogLevel × List UInt8 := (m.1, printed m.2)

/-! ## What a line says -/

theorem shows_printed (msg : List UInt8) : Shows msg (printed msg) := by
  induction msg with
  | nil => exact .nil
  | cons c msg ih =>
      by_cases hnul : c = 0
      · subst hnul
        exact .nul
      · by_cases hbreak : c = 10 ∨ c = 13
        · have hline : printed (c :: msg) = 32 :: printed msg := by
            simp [printed, safe, cstr, hbreak]
          rw [hline]
          exact .fold hbreak ih
        · have hline : printed (c :: msg) = c :: printed msg := by
            simp [printed, safe, cstr, hbreak, hnul]
          rw [hline]
          rw [not_or] at hbreak
          exact .byte hnul hbreak.1 hbreak.2 ih

/-- A message shows in one way only. -/
theorem Shows.unique {msg text text' : List UInt8} (h : Shows msg text) (h' : Shows msg text') :
    text = text' := by
  induction h generalizing text' with
  | nil =>
      cases h'
      rfl
  | nul =>
      cases h' with
      | nul => rfl
      | fold hc => simp at hc
      | byte hc => exact absurd rfl hc
  | fold hc _ ih =>
      cases h' with
      | nul => simp at hc
      | fold _ h' => rw [ih h']
      | byte _ h10 h13 => exact absurd hc (by simp [h10, h13])
  | byte h0 h10 h13 _ ih =>
      cases h' with
      | nul => exact absurd rfl h0
      | fold hc => exact absurd hc (by simp [h10, h13])
      | byte _ _ _ h' => rw [ih h']

/-- **A message without line breaks and NULs is read back byte by byte.** -/
theorem shows_self {msg : List UInt8} (h : ∀ c ∈ msg, c ≠ 0 ∧ c ≠ 10 ∧ c ≠ 13) :
    Shows msg msg := by
  induction msg with
  | nil => exact .nil
  | cons c msg ih =>
      obtain ⟨h0, h10, h13⟩ := h c List.mem_cons_self
      exact .byte h0 h10 h13 (ih fun d hd => h d (List.mem_cons_of_mem c hd))

theorem printed_of_clean {msg : List UInt8} (h : ∀ c ∈ msg, c ≠ 0 ∧ c ≠ 10 ∧ c ≠ 13) :
    printed msg = msg := (shows_printed msg).unique (shows_self h)

theorem shownAs_shown (msgs : List (LogLevel × List UInt8)) :
    List.Forall₂ ShownAs msgs (msgs.map shown) := by
  induction msgs with
  | nil => exact .nil
  | cons m msgs ih => exact .cons ⟨rfl, shows_printed m.2⟩ ih

/-! ## One line -/

theorem not_mem_printed {c : UInt8} (hc : c = 10 ∨ c = 13 ∨ c = 0) (msg : List UInt8) :
    c ∉ printed msg := by
  intro h
  have hsafe : c ∈ safe msg := List.takeWhile_subset _ h
  have hnul : (c != 0) = true := List.mem_takeWhile_imp (p := (· != 0)) h
  simp only [safe, List.mem_map] at hsafe
  obtain ⟨d, -, hd⟩ := hsafe
  grind

theorem mem_twoDigits {n : Nat} {c : UInt8} (h : c ∈ twoDigits n) : isdigit c = true := by
  have hdigit := List.all_eq_true.mp (all_isdigit_decimal n)
  unfold twoDigits at h
  split at h
  · obtain rfl | h := List.mem_cons.mp h
    · decide
    · exact hdigit c h
  · exact hdigit c h

/-- The time holds no bracket and no line feed. -/
theorem not_mem_stamp {tm : Tm} {c : UInt8} (hc : c = 93 ∨ c = 10) : c ∉ tm.stamp := by
  have hdigit : isdigit c = false := by obtain rfl | rfl := hc <;> decide
  have hyear : c ∉ decimal tm.year := fun h => by
    have := List.all_eq_true.mp (all_isdigit_decimal tm.year) c h
    simp [hdigit] at this
  have htwo (n : Nat) : c ∉ twoDigits n := fun h => by
    have := mem_twoDigits h
    simp [hdigit] at this
  have hdash : c ∉ lit "-" ∧ c ∉ lit " " ∧ c ∉ lit ":" := by
    obtain rfl | rfl := hc <;> decide
  simp [Tm.stamp, hyear, htwo, hdash]

theorem takeWhile_append_stop {l r : List UInt8} {c : UInt8} (h : c ∉ l) :
    (l ++ c :: r).takeWhile (· != c) = l ∧ (l ++ c :: r).dropWhile (· != c) = c :: r := by
  have hall : ∀ d ∈ l, (d != c) = true := by
    intro d hd
    simp only [bne_iff_ne]
    rintro rfl
    exact h hd
  rw [List.takeWhile_append_of_pos hall, List.dropWhile_append_of_pos hall]
  simp

theorem readLine_logText (tm : Tm) (lvl : LogLevel) (msg : List UInt8) :
    readLine (logText tm lvl msg) = some (lvl, printed msg) := by
  have htag : (93 : UInt8) ∉ lvl.tag := by cases lvl <;> decide
  have hlevel : levelOfTag lvl.tag = some lvl := by cases lvl <;> decide
  have hopen : lit "[" = [91] := by decide
  have hmid : lit "] [" = [93, 32, 91] := by decide
  have hclose : lit "] " = [93, 32] := by decide
  have htext : logText tm lvl msg =
      91 :: (tm.stamp ++ 93 :: 32 :: 91 :: (lvl.tag ++ 93 :: 32 :: printed msg)) := by
    simp only [logText, hopen, hmid, hclose, List.append_assoc, List.cons_append, List.nil_append]
  obtain ⟨-, hstamp⟩ := takeWhile_append_stop (l := tm.stamp)
    (r := 32 :: 91 :: (lvl.tag ++ 93 :: 32 :: printed msg)) (not_mem_stamp (.inl rfl))
  obtain ⟨htake, hdrop⟩ := takeWhile_append_stop (l := lvl.tag) (r := 32 :: printed msg) htag
  rw [htext, readLine, hstamp]
  simp only [hdrop, htake, hlevel, Option.map_some]

theorem not_mem_logText (tm : Tm) (lvl : LogLevel) (msg : List UInt8) :
    (10 : UInt8) ∉ logText tm lvl msg := by
  have htag : (10 : UInt8) ∉ lvl.tag := by cases lvl <;> decide
  have htexts : (10 : UInt8) ∉ lit "[" ∧ (10 : UInt8) ∉ lit "] [" ∧ (10 : UInt8) ∉ lit "] " := by
    decide
  simp [logText, htag, htexts, not_mem_stamp, not_mem_printed]

/-! ## The streams -/

/-- What a run of the backend appends to one of the streams. -/
structure Appends (g g' : Logger) (msgs : List (LogLevel × List UInt8)) : Prop where
  stdout : ∃ ls, g'.stdout = g.stdout ++ Lines.render 10 ls ∧ (∀ l ∈ ls, (10 : UInt8) ∉ l) ∧
    ls.map readLine = (msgs.filter fun m => !m.1.goesToStderr).map some
  stderr : ∃ ls, g'.stderr = g.stderr ++ Lines.render 10 ls ∧ (∀ l ∈ ls, (10 : UInt8) ∉ l) ∧
    ls.map readLine = (msgs.filter fun m => m.1.goesToStderr).map some

theorem Appends.nil (g : Logger) : Appends g g [] :=
  ⟨⟨[], by simp, by simp, rfl⟩, ⟨[], by simp, by simp, rfl⟩⟩

theorem Appends.trans {g g' g'' : Logger} {msgs msgs' : List (LogLevel × List UInt8)}
    (h : Appends g g' msgs) (h' : Appends g' g'' msgs') : Appends g g'' (msgs ++ msgs') := by
  obtain ⟨⟨ls, hout, hline, hread⟩, ms, herr, hline₂, hread₂⟩ := h
  obtain ⟨⟨ls', hout', hline', hread'⟩, ms', herr', hline₂', hread₂'⟩ := h'
  refine ⟨⟨ls ++ ls', ?_, ?_, ?_⟩, ⟨ms ++ ms', ?_, ?_, ?_⟩⟩
  · rw [hout', hout, Lines.render_append, List.append_assoc]
  · simpa [or_imp, forall_and] using ⟨hline, hline'⟩
  · rw [List.map_append, hread, hread', List.filter_append, List.map_append]
  · rw [herr', herr, Lines.render_append, List.append_assoc]
  · simpa [or_imp, forall_and] using ⟨hline₂, hline₂'⟩
  · rw [List.map_append, hread₂, hread₂', List.filter_append, List.map_append]

theorem logLine_level (g : Logger) (tm : Tm) (lvl : LogLevel) (msg : List UInt8) :
    (g.logLine tm lvl msg).level = g.level := by
  unfold Logger.logLine
  split <;> [rfl; split <;> rfl]

theorem appends_logLine (g : Logger) (tm : Tm) (lvl : LogLevel) (msg : List UInt8) :
    Appends g (g.logLine tm lvl msg)
      (if lvl.value < g.level.value then [] else [(lvl, printed msg)]) := by
  have hline : ∀ l ∈ [logText tm lvl msg], (10 : UInt8) ∉ l := by
    simpa using not_mem_logText tm lvl msg
  unfold Logger.logLine
  split
  · exact .nil g
  · split
    · next herr =>
        refine ⟨⟨[], by simp, by simp, by simp [herr]⟩, [logText tm lvl msg], ?_, hline, ?_⟩
        · rw [Lines.render_singleton]
        · simp [herr, readLine_logText]
    · next hout =>
        refine ⟨⟨[logText tm lvl msg], ?_, hline, ?_⟩, [], by simp, by simp, by simp [hout]⟩
        · rw [Lines.render_singleton]
        · simp [hout, readLine_logText]

theorem appends_setLogLevel (g : Logger) (lvl : LogLevel) : Appends g (g.setLogLevel lvl) [] :=
  ⟨⟨[], by simp [Logger.setLogLevel], by simp, rfl⟩, ⟨[], by simp [Logger.setLogLevel], by simp, rfl⟩⟩

theorem appends_run (g : Logger) (calls : List LogCall) :
    Appends g (g.run calls) ((admitted g.level calls).map shown) := by
  induction calls generalizing g with
  | nil => exact .nil g
  | cons c calls ih =>
      cases c with
      | setLevel lvl => exact (appends_setLogLevel g lvl).trans (ih (g.setLogLevel lvl))
      | line tm lvl msg =>
          have hrest := (appends_logLine g tm lvl msg).trans (ih (g.logLine tm lvl msg))
          rw [logLine_level] at hrest
          rw [admitted]
          split at hrest
          · next hlow =>
              rw [if_pos hlow]
              exact hrest
          · next hlow =>
              rw [if_neg hlow]
              exact hrest

theorem readLog_of_lines {ls : List (List UInt8)} {msgs : List (LogLevel × List UInt8)}
    (hline : ∀ l ∈ ls, (10 : UInt8) ∉ l) (hread : ls.map readLine = msgs.map some) :
    readLog (Lines.render 10 ls) = msgs := by
  have hcomplete := Lines.complete_render hline (List.not_mem_nil (a := (10 : UInt8)))
  rw [List.append_nil] at hcomplete
  calc
    readLog (Lines.render 10 ls) = (ls.map readLine).filterMap id := by
      rw [readLog, hcomplete, List.filterMap_map]
      rfl
    _ = msgs := by
      rw [hread, List.filterMap_map]
      exact List.filterMap_some

theorem readLog_of_appends {level : LogLevel} {g : Logger} {msgs : List (LogLevel × List UInt8)}
    (h : Appends { level } g msgs) :
    readLog g.stdout = msgs.filter (fun m => !m.1.goesToStderr) ∧
      readLog g.stderr = msgs.filter fun m => m.1.goesToStderr := by
  obtain ⟨⟨ls, hout, hline, hread⟩, ms, herr, hline', hread'⟩ := h
  rw [hout, herr]
  exact ⟨readLog_of_lines hline hread, readLog_of_lines hline' hread'⟩

theorem records_of_lines {stream : List UInt8} {msgs : List (LogLevel × List UInt8)}
    (h : ∃ ls, stream = Lines.render 10 ls ∧ (∀ l ∈ ls, (10 : UInt8) ∉ l) ∧
      ls.map readLine = (msgs.map shown).map some) : Records stream msgs := by
  obtain ⟨ls, rfl, hline, hread⟩ := h
  have hlog := readLog_of_lines hline hread
  exact ⟨⟨ls, rfl, hline, by rw [hlog, hread]⟩, by rw [hlog]; exact shownAs_shown msgs⟩

/-- A log against the messages it is for. -/
theorem records_of_appends {level : LogLevel} {g : Logger} {msgs : List (LogLevel × List UInt8)}
    (h : Appends { level } g (msgs.map shown)) :
    Records g.stdout (msgs.filter fun m => !m.1.goesToStderr) ∧
      Records g.stderr (msgs.filter fun m => m.1.goesToStderr) := by
  obtain ⟨hout, herr⟩ := h
  rw [List.filter_map] at hout herr
  exact ⟨records_of_lines hout, records_of_lines herr⟩

/-- **The log says what was logged**, and nothing else: the two streams are
whole lines, one for each message that passed the filter, with its level and on
its own stream, in order, whatever the bytes of the messages. -/
theorem readLog_run (level : LogLevel) (calls : List LogCall) :
    Records (({ level } : Logger).run calls).stdout
        ((admitted level calls).filter fun m => !m.1.goesToStderr) ∧
      Records (({ level } : Logger).run calls).stderr
        ((admitted level calls).filter fun m => m.1.goesToStderr) :=
  records_of_appends (appends_run { level } calls)

end ChaosForger
