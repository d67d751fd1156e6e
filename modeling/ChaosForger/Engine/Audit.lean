import ChaosForger.Engine.Accounting
import ChaosForger.Engine.Live

/-!
# ChaosForger.Engine.Audit

The log against the trace.  Five kinds of lines tell an operator what the
engine did to the containers (`Mark`); container names and daemon errors reach
the log too, and none of them can add such a line, hide one or change its kind.
What these lines say is what the trace has (`Tells`): each failed list call, and
each strike with its call and its result (`Entry`).
-/

namespace ChaosForger

open Libc DockerClient

/-- What a line says the engine did. -/
inductive Mark where
  | attempt (action : Action)
  | ok | skipped | failed | discoveryFailed
  deriving DecidableEq, Repr

namespace Mark

def level : Mark → LogLevel
  | .attempt _ | .ok => .info
  | .skipped => .warn
  | .failed | .discoveryFailed => .error

/-- How the line begins. -/
def head : Mark → List UInt8
  | .attempt .stop => lit "strike: stop container "
  | .attempt .kill => lit "strike: kill container "
  | .ok => lit "strike ok: "
  | .skipped => lit "strike skipped: "
  | .failed => lit "strike failed: "
  | .discoveryFailed => lit "discovery failed: "

def all : List Mark := [.attempt .stop, .attempt .kill, .ok, .skipped, .failed, .discoveryFailed]

theorem mem_all (k : Mark) : k ∈ all := by
  obtain (_ | _) | _ | _ | _ | _ := k <;> decide

/-- The mark of a line, read by its level and its front. -/
def ofLine (line : LogLevel × List UInt8) : Option Mark :=
  all.find? fun k => k.level = line.1 ∧ k.head <+: line.2

/-- The marks of a log. -/
def ofLog (lines : List (LogLevel × List UInt8)) : List Mark := lines.filterMap ofLine

/-- The marks of what has been logged. -/
def ofLogged (lines : List (LogLevel × List UInt8)) : List Mark := ofLog (lines.map shown)

@[simp] theorem ofLogged_nil : ofLogged [] = [] := rfl

@[simp] theorem ofLogged_append (lines lines' : List (LogLevel × List UInt8)) :
    ofLogged (lines ++ lines') = ofLogged lines ++ ofLogged lines' := by
  simp [ofLogged, ofLog]

theorem ofLogged_singleton (line : LogLevel × List UInt8) :
    ofLogged [line] = (ofLine (shown line)).toList := by
  cases h : ofLine (shown line) <;> simp [ofLogged, ofLog, h]

/-! ## Fronts -/

/-- The bytes a line shows as they are. -/
def plain (bytes : List UInt8) : Bool := bytes.all fun c => c ≠ 0 ∧ c ≠ 10 ∧ c ≠ 13

theorem plain_append (x y : List UInt8) : plain (x ++ y) = (plain x && plain y) := List.all_append

theorem printed_append {x : List UInt8} (hx : plain x = true) (r : List UInt8) :
    printed (x ++ r) = x ++ printed r := by
  induction x with
  | nil => rfl
  | cons c x ih =>
      simp only [plain, List.all_cons, Bool.and_eq_true, decide_eq_true_eq] at hx
      obtain ⟨⟨hnul, hlf, hcr⟩, hrest⟩ := hx
      have hsafe : printed (c :: (x ++ r)) = c :: printed (x ++ r) := by
        simp [printed, safe, cstr, hlf, hcr, hnul]
      rw [List.cons_append, hsafe, ih hrest, List.cons_append]

/-- Neither of them begins with the other. -/
def apart (x y : List UInt8) : Bool := !x.isPrefixOf y && !y.isPrefixOf x

theorem not_prefix_of_apart {x y r : List UInt8} (h : apart x y = true) : ¬ x <+: y ++ r := by
  intro hx
  have hor := List.prefix_or_prefix_of_prefix hx (List.prefix_append y r)
  simp only [apart, Bool.and_eq_true, Bool.not_eq_true', ← Bool.not_eq_true,
    List.isPrefixOf_iff_prefix] at h
  exact hor.elim h.1 h.2

theorem plain_head (k : Mark) : plain k.head = true := by
  obtain (_ | _) | _ | _ | _ | _ := k <;> decide

theorem apart_head : ∀ k ∈ all, ∀ k' ∈ all, k' ≠ k → apart k'.head k.head = true := by
  decide

/-- A line that begins like a mark is one. -/
theorem ofLogged_head (k : Mark) (r : List UInt8) : ofLogged [(k.level, k.head ++ r)] = [k] := by
  have hiff (k' : Mark) :
      (k'.level = k.level ∧ k'.head <+: k.head ++ printed r) ↔ k' = k := by
    constructor
    · rintro ⟨-, hprefix⟩
      by_contra hne
      exact not_prefix_of_apart (apart_head k k.mem_all k' k'.mem_all hne) hprefix
    · rintro rfl
      simp
  have hfind : all.find? (fun k' => decide (k' = k)) = some k := by
    obtain (_ | _) | _ | _ | _ | _ := k <;> decide
  simp only [ofLogged_singleton, shown, printed_append (plain_head k), ofLine, hiff, hfind,
    Option.toList_some]

/-- The front of a line that is no mark. -/
def silent (x : List UInt8) : Bool := plain x && all.all fun k => apart k.head x

theorem ofLogged_silent {x : List UInt8} (hx : silent x = true) (lvl : LogLevel)
    (r : List UInt8) : ofLogged [(lvl, x ++ r)] = [] := by
  simp only [silent, Bool.and_eq_true, List.all_eq_true] at hx
  obtain ⟨hplain, hapart⟩ := hx
  have hnone : ofLine (lvl, x ++ printed r) = none := by
    rw [ofLine, List.find?_eq_none]
    intro k hk
    simp [not_prefix_of_apart (hapart k hk)]
  simp [ofLogged_singleton, shown, printed_append hplain, hnone]

/-- Lines that all begin like this. -/
theorem ofLogged_of_front {x : List UInt8} (hx : silent x = true) {msgs : List (List UInt8)}
    (hmsgs : ∀ msg ∈ msgs, x <+: msg) (lvl : LogLevel) :
    ofLogged (msgs.map fun msg => (lvl, msg)) = [] := by
  induction msgs with
  | nil => rfl
  | cons msg msgs ih =>
      obtain ⟨r, rfl⟩ := hmsgs msg (by simp)
      rw [List.map_cons, ← List.singleton_append, ofLogged_append, ofLogged_silent hx,
        ih fun m hm => hmsgs m (by simp [hm]), List.nil_append]

/-! ## Marked lines -/

/-- The line is one of the marked ones. -/
def marked (line : LogLevel × List UInt8) : Bool := (ofLine (shown line)).isSome

theorem filter_marked_of_silent {lines : List (LogLevel × List UInt8)}
    (h : ofLogged lines = []) : lines.filter marked = [] := by
  rw [ofLogged, ofLog, List.filterMap_map, List.filterMap_eq_nil_iff] at h
  rw [List.filter_eq_nil_iff]
  intro line hline
  have hnone : ofLine (shown line) = none := h line hline
  simp [marked, hnone]

theorem marked_of_ofLogged {line : LogLevel × List UInt8} (h : ofLogged [line] ≠ []) :
    marked line = true := by
  cases hline : ofLine (shown line) with
  | none => simp [ofLogged_singleton, hline] at h
  | some k => simp [marked, hline]

/-- The marks of a log are those of its marked lines. -/
theorem ofLogged_filter_marked (lines : List (LogLevel × List UInt8)) :
    ofLogged (lines.filter marked) = ofLogged lines := by
  induction lines with
  | nil => rfl
  | cons line lines ih =>
      rw [← List.singleton_append (l := lines), ofLogged_append, ← ih, List.singleton_append,
        List.filter_cons]
      split
      · rw [← List.singleton_append, ofLogged_append]
      · next h =>
          have hnone : ofLine (shown line) = none := by
            rw [marked, Bool.not_eq_true, Option.isSome_eq_false_iff,
              Option.isNone_iff_eq_none] at h
            exact h
          simp [ofLogged_singleton, hnone]

end Mark

/-- The mark an event leaves. -/
def Event.mark? : Event → Option Mark
  | .listReturn false => some .discoveryFailed
  | .strikeCall (.stopContainer _ _) => some (.attempt .stop)
  | .strikeCall (.killContainer _) => some (.attempt .kill)
  | .strikeReturn result =>
      some (if result.ok then .ok else if result.failed then .failed else .skipped)
  | _ => none

/-- The marks of a trace. -/
def marks (trace : List Event) : List Mark := trace.filterMap Event.mark?

@[simp] theorem marks_append (trace seg : List Event) :
    marks (trace ++ seg) = marks trace ++ marks seg := List.filterMap_append

/-! ## Counting marks -/

theorem mark?_eq_ok (x : Event) : (x.mark? == some .ok) = x.succeeded := by
  cases x with
  | strikeReturn result =>
      obtain ⟨ok, status, sent⟩ := result
      cases ok with
      | true => rfl
      | false =>
          simp only [Event.mark?, Event.succeeded, Bool.false_eq_true, if_false]
          split <;> rfl
  | listReturn ok => cases ok <;> rfl
  | strikeCall call => cases call <;> rfl
  | _ => rfl

theorem mark?_eq_failed (x : Event) : (x.mark? == some .failed) = x.strikeFailed := by
  cases x with
  | strikeReturn result =>
      obtain ⟨ok, status, sent⟩ := result
      cases ok with
      | true => rfl
      | false =>
          simp only [Event.mark?, Event.strikeFailed, Bool.false_eq_true, if_false]
          split
          · next hfailed => exact hfailed.symm
          · next hfailed => exact (Bool.eq_false_of_not_eq_true hfailed).symm
  | listReturn ok => cases ok <;> rfl
  | strikeCall call => cases call <;> rfl
  | _ => rfl

theorem mark?_eq_discoveryFailed (x : Event) :
    (x.mark? == some .discoveryFailed) = x.listFailed := by
  cases x with
  | strikeReturn result =>
      obtain ⟨ok, status, sent⟩ := result
      cases ok with
      | true => rfl
      | false =>
          simp only [Event.mark?, Event.listFailed, Bool.false_eq_true, if_false]
          split <;> rfl
  | listReturn ok => cases ok <;> rfl
  | strikeCall call => cases call <;> rfl
  | _ => rfl

/-- **The counters are counts of marks.** -/
theorem ChaosEngine.Accounts.marks {e : ChaosEngine} (h : e.Accounts) :
    (marks e.trace).count .ok = e.counters.strikes ∧
      (ChaosForger.marks e.trace).count .failed +
        (ChaosForger.marks e.trace).count .discoveryFailed = e.counters.errors := by
  have hcount {k : Mark} {p : Event → Bool} (hk : ∀ x : Event, (x.mark? == some k) = p x) :
      (ChaosForger.marks e.trace).count k = e.trace.countP p := by
    rw [ChaosForger.marks, List.count_filterMap]
    simp only [hk]
  rw [hcount mark?_eq_ok, hcount mark?_eq_failed, hcount mark?_eq_discoveryFailed, h.strikes,
    h.errors, Nat.add_comm]
  exact ⟨rfl, rfl⟩

/-! ## Entries -/

/-- What the log says of a failed list call, or of a strike on a container with
these names. -/
inductive Entry where
  | discoveryFailed (err : List UInt8)
  | strike (names : List (List UInt8)) (call : StrikeCall) (result : StrikeResult)
      (err : List UInt8)

namespace Entry

/-- The events it is about. -/
def events : Entry → List Event
  | .discoveryFailed _ => [.listReturn false]
  | .strike _ call result _ => [.strikeCall call, .strikeReturn result]

/-- The container by its first name and the front of its id. -/
def target (names : List (List UInt8)) (id : List UInt8) : List UInt8 :=
  match names.head? with
  | none => id.take 12
  | some name => name ++ lit " (" ++ id.take 12 ++ lit ")"

/-- The line of a call: what is done to which container, and within which time. -/
def callText (names : List (List UInt8)) : StrikeCall → List UInt8
  | .stopContainer id timeoutSeconds =>
      lit "strike: stop container " ++ target names id ++ lit " id=" ++ id ++
        lit " (graceful, t=" ++ decimalInt timeoutSeconds ++ lit "s)"
  | .killContainer id =>
      lit "strike: kill container " ++ target names id ++ lit " id=" ++ id ++ lit " (SIGKILL)"

/-- The action and the container of a call, as its end names them. -/
def callName (names : List (List UInt8)) : StrikeCall → List UInt8
  | .stopContainer id _ => lit "action=stop target=" ++ target names id
  | .killContainer id => lit "action=kill target=" ++ target names id

/-- The line of its end: how, with which status, and why. -/
def resultText (names : List (List UInt8)) (call : StrikeCall) (result : StrikeResult)
    (err : List UInt8) : LogLevel × List UInt8 :=
  if result.ok then
    (.info, lit "strike ok: " ++ callName names call ++ lit " http=" ++
      decimalInt result.httpStatus)
  else if result.failed then
    (.error, lit "strike failed: " ++ callName names call ++ lit " http=" ++
      (if 0 < result.httpStatus then decimalInt result.httpStatus else lit "none") ++
      lit " reason=" ++ err)
  else
    (.warn, lit "strike skipped: " ++ callName names call ++ lit " http=" ++
      decimalInt result.httpStatus ++ lit " reason=" ++ err)

/-- Its lines, each with its level. -/
def lines : Entry → List (LogLevel × List UInt8)
  | .discoveryFailed err => [(.error, lit "discovery failed: " ++ err)]
  | .strike names call result err =>
      [(.info, callText names call), resultText names call result err]

section Sound

variable (docker : IDockerClient (List Syscall)) (cfg : Config) (os : List Syscall)

/-- Within these system calls a list call has returned a container with these
names, and a rule matches it for this call. -/
def Called (names : List (List UInt8)) (call : StrikeCall) : Prop :=
  ∃ w running w', docker.listContainers w = some (.ok running, w') ∧ w'.os <+: os ∧
    ∃ m ∈ matchContainers running cfg.targets,
      names = m.container.names ∧ call = ChaosEngine.callOf cfg m

/-- It is about calls within these system calls, with their errors and results. -/
def Sound : Entry → Prop
  | .discoveryFailed err =>
      ∃ w w', docker.listContainers w = some (.error err, w') ∧ w'.os <+: os
  | .strike names call result err => Called docker cfg os names call ∧
      ∃ w r w', ChaosEngine.callOn docker call w = some (r, w') ∧ w'.os <+: os ∧
        result = r.result ∧ err = r.err

end Sound

theorem Called.mono {docker : IDockerClient (List Syscall)} {cfg : Config} {os os' : List Syscall}
    {names : List (List UInt8)} {call : StrikeCall} (h : Called docker cfg os names call)
    (hos : os <+: os') : Called docker cfg os' names call := by
  obtain ⟨w, running, w', hlist, hle, hm⟩ := h
  exact ⟨w, running, w', hlist, hle.trans hos, hm⟩

theorem Sound.mono {docker : IDockerClient (List Syscall)} {cfg : Config} {os os' : List Syscall}
    {x : Entry} (h : x.Sound docker cfg os) (hos : os <+: os') : x.Sound docker cfg os' := by
  cases x with
  | discoveryFailed err =>
      obtain ⟨w, w', hlist, hle⟩ := h
      exact ⟨w, w', hlist, hle.trans hos⟩
  | strike names call result err =>
      obtain ⟨hcalled, w, r, w', hcall, hle, hr⟩ := h
      exact ⟨hcalled.mono hos, w, r, w', hcall, hle.trans hos, hr⟩

/-- The mark of the call. -/
theorem ofLogged_callText (names : List (List UInt8)) (call : StrikeCall) :
    Mark.ofLogged [(.info, callText names call)] = marks [.strikeCall call] := by
  cases call with
  | stopContainer id timeoutSeconds =>
      simp only [callText, List.append_assoc]
      exact Mark.ofLogged_head (.attempt .stop) _
  | killContainer id =>
      simp only [callText, List.append_assoc]
      exact Mark.ofLogged_head (.attempt .kill) _

/-- The mark of the result. -/
theorem ofLogged_resultText (names : List (List UInt8)) (call : StrikeCall)
    (result : StrikeResult) (err : List UInt8) :
    Mark.ofLogged [resultText names call result err] = marks [.strikeReturn result] := by
  have hmark : marks [.strikeReturn result] =
      [if result.ok then .ok else if result.failed then .failed else .skipped] := rfl
  rw [hmark, resultText]
  split
  · simp only [List.append_assoc]
    exact Mark.ofLogged_head .ok _
  · split
    · simp only [List.append_assoc]
      exact Mark.ofLogged_head .failed _
    · simp only [List.append_assoc]
      exact Mark.ofLogged_head .skipped _

/-- The marks of the lines are those of the events. -/
theorem ofLogged_lines (x : Entry) : Mark.ofLogged x.lines = marks x.events := by
  cases x with
  | discoveryFailed err => exact Mark.ofLogged_head .discoveryFailed err
  | strike names call result err =>
      rw [lines, events, ← List.singleton_append, Mark.ofLogged_append, ofLogged_callText,
        ofLogged_resultText, ← marks_append]
      rfl

theorem ofLogged_flatMap_lines (entries : List Entry) :
    Mark.ofLogged (entries.flatMap lines) = marks (entries.flatMap events) := by
  induction entries with
  | nil => rfl
  | cons x entries ih =>
      rw [List.flatMap_cons, List.flatMap_cons, Mark.ofLogged_append, marks_append, ih,
        ofLogged_lines]

theorem marked_callText (names : List (List UInt8)) (call : StrikeCall) :
    Mark.marked (.info, callText names call) = true := by
  apply Mark.marked_of_ofLogged
  rw [ofLogged_callText]
  cases call <;> simp [marks, Event.mark?]

theorem marked_resultText (names : List (List UInt8)) (call : StrikeCall)
    (result : StrikeResult) (err : List UInt8) :
    Mark.marked (resultText names call result err) = true := by
  apply Mark.marked_of_ofLogged
  rw [ofLogged_resultText]
  simp [marks, Event.mark?]

theorem marked_discoveryFailed (err : List UInt8) :
    Mark.marked (.error, lit "discovery failed: " ++ err) = true := by
  apply Mark.marked_of_ofLogged
  have hmark : Mark.ofLogged [(.error, lit "discovery failed: " ++ err)] = [.discoveryFailed] :=
    Mark.ofLogged_head .discoveryFailed err
  simp [hmark]

end Entry

/-- The events the log tells of. -/
def Event.reported : Event → Bool
  | .listReturn ok => !ok
  | .strikeCall _ | .strikeReturn _ => true
  | _ => false

theorem mark?_isSome (x : Event) : x.mark?.isSome = x.reported := by
  cases x with
  | listReturn ok => cases ok <;> rfl
  | strikeCall call => cases call <;> rfl
  | _ => rfl

theorem filter_reported_of_marks {seg : List Event} (h : marks seg = []) :
    seg.filter Event.reported = [] := by
  rw [marks, List.filterMap_eq_nil_iff] at h
  rw [List.filter_eq_nil_iff]
  intro x hx
  rw [← mark?_isSome, h x hx]
  simp

theorem marks_filter_reported (seg : List Event) : marks (seg.filter Event.reported) = marks seg := by
  induction seg with
  | nil => rfl
  | cons x seg ih =>
      rw [List.filter_cons, ← mark?_isSome]
      cases hx : x.mark? with
      | none => simpa [marks, hx] using ih
      | some k => simpa [marks, hx] using ih

/-- The marked lines are about the events of this piece of the trace, an entry
for each failed list call and each strike, in order. -/
def Tells (docker : IDockerClient (List Syscall)) (cfg : Config) (os : List Syscall)
    (lines : List (LogLevel × List UInt8)) (seg : List Event) : Prop :=
  ∃ entries : List Entry, lines.filter Mark.marked = entries.flatMap Entry.lines ∧
    seg.filter Event.reported = entries.flatMap Entry.events ∧
    ∀ x ∈ entries, x.Sound docker cfg os

namespace Tells

variable {docker : IDockerClient (List Syscall)} {cfg : Config} {os os' : List Syscall}
  {lines lines' : List (LogLevel × List UInt8)} {seg seg' : List Event}

theorem mono (h : Tells docker cfg os lines seg) (hos : os <+: os') :
    Tells docker cfg os' lines seg := by
  obtain ⟨entries, hlines, hseg, hsound⟩ := h
  exact ⟨entries, hlines, hseg, fun x hx => (hsound x hx).mono hos⟩

theorem append (h : Tells docker cfg os lines seg) (h' : Tells docker cfg os lines' seg') :
    Tells docker cfg os (lines ++ lines') (seg ++ seg') := by
  obtain ⟨entries, hlines, hseg, hsound⟩ := h
  obtain ⟨entries', hlines', hseg', hsound'⟩ := h'
  refine ⟨entries ++ entries', ?_, ?_, ?_⟩
  · rw [List.filter_append, hlines, hlines', List.flatMap_append]
  · rw [List.filter_append, hseg, hseg', List.flatMap_append]
  · simpa [or_imp, forall_and] using ⟨hsound, hsound'⟩

/-- Lines and events without a mark. -/
theorem of_silent (hlines : Mark.ofLogged lines = []) (hseg : ChaosForger.marks seg = []) :
    Tells docker cfg os lines seg :=
  ⟨[], Mark.filter_marked_of_silent hlines, filter_reported_of_marks hseg, by simp⟩

/-- A failed list call, behind silent lines and events. -/
theorem of_discoveryFailed {err : List UInt8} (hlines : Mark.ofLogged lines = [])
    (hseg : ChaosForger.marks seg = []) (h : (Entry.discoveryFailed err).Sound docker cfg os) :
    Tells docker cfg os (lines ++ [(.error, lit "discovery failed: " ++ err)])
      (seg ++ [.listReturn false]) := by
  refine ⟨[.discoveryFailed err], ?_, ?_, by simpa using h⟩
  · rw [List.filter_append, Mark.filter_marked_of_silent hlines, List.nil_append,
      List.filter_cons_of_pos (Entry.marked_discoveryFailed err)]
    rfl
  · rw [List.filter_append, filter_reported_of_marks hseg]
    rfl

/-- A strike, with silent lines between its two and silent events before it. -/
theorem of_strike {names : List (List UInt8)} {call : StrikeCall} {result : StrikeResult}
    {err : List UInt8} (hlines : Mark.ofLogged lines = []) (hseg : ChaosForger.marks seg = [])
    (h : (Entry.strike names call result err).Sound docker cfg os) :
    Tells docker cfg os
      ((.info, Entry.callText names call) ::
        (lines ++ [Entry.resultText names call result err]))
      (seg ++ [.strikeCall call, .strikeReturn result]) := by
  refine ⟨[.strike names call result err], ?_, ?_, by simpa using h⟩
  · rw [List.filter_cons_of_pos (Entry.marked_callText names call), List.filter_append,
      Mark.filter_marked_of_silent hlines, List.nil_append,
      List.filter_cons_of_pos (Entry.marked_resultText names call result err)]
    rfl
  · rw [List.filter_append, filter_reported_of_marks hseg]
    rfl

/-- The marks of the lines are those of the events. -/
theorem marks_eq (h : Tells docker cfg os lines seg) :
    Mark.ofLogged lines = ChaosForger.marks seg := by
  obtain ⟨entries, hlines, hseg, -⟩ := h
  rw [← Mark.ofLogged_filter_marked, hlines, ← marks_filter_reported, hseg]
  exact Entry.ofLogged_flatMap_lines entries

end Tells

/-! ## The lines of a tick -/

/-- From one engine and world to the other, the log tells what the trace has got. -/
def Agrees (docker : IDockerClient (List Syscall)) (cfg : Config) (e : ChaosEngine)
    (w : World (List Syscall)) (e' : ChaosEngine) (w' : World (List Syscall)) : Prop :=
  ∃ seg lines, e'.trace = e.trace ++ seg ∧ w'.logged = w.logged ++ lines ∧ w.os <+: w'.os ∧
    Tells docker cfg w'.os lines seg

/-- A world whose log has got no mark. -/
def Reticent (w w' : World (List Syscall)) : Prop :=
  ∃ lines, w'.logged = w.logged ++ lines ∧ w.os <+: w'.os ∧ Mark.ofLogged lines = []

namespace Agrees

variable {docker : IDockerClient (List Syscall)} {cfg : Config} {e e' e'' : ChaosEngine}
  {w w' w'' : World (List Syscall)}

theorem refl (e : ChaosEngine) (w : World (List Syscall)) : Agrees docker cfg e w e w :=
  ⟨[], [], by simp, by simp, List.prefix_refl _, .of_silent rfl rfl⟩

theorem trans (h : Agrees docker cfg e w e' w') (h' : Agrees docker cfg e' w' e'' w'') :
    Agrees docker cfg e w e'' w'' := by
  obtain ⟨seg, lines, htrace, hlog, hgrows, htells⟩ := h
  obtain ⟨seg', lines', htrace', hlog', hgrows', htells'⟩ := h'
  refine ⟨seg ++ seg', lines ++ lines', ?_, ?_, hgrows.trans hgrows',
    (htells.mono hgrows').append htells'⟩
  · rw [htrace', htrace, List.append_assoc]
  · rw [hlog', hlog, List.append_assoc]

/-- Steps that leave no mark. -/
theorem of_reticent (seg : List Event) (htrace : e'.trace = e.trace ++ seg)
    (hseg : marks seg = []) (hw : Reticent w w') : Agrees docker cfg e w e' w' := by
  obtain ⟨lines, hlog, hgrows, hlines⟩ := hw
  exact ⟨seg, lines, htrace, hlog, hgrows, .of_silent hlines hseg⟩

end Agrees

namespace Reticent

variable {w w' w'' : World (List Syscall)}

/-- The same system calls, and lines without a mark. -/
theorem of_lines {lines : List (LogLevel × List UInt8)} (hlog : w'.logged = w.logged ++ lines)
    (hos : w'.os = w.os) (hlines : Mark.ofLogged lines = []) : Reticent w w' :=
  ⟨lines, hlog, by rw [hos], hlines⟩

theorem trans (h : Reticent w w') (h' : Reticent w' w'') : Reticent w w'' := by
  obtain ⟨lines, hlog, hgrows, hlines⟩ := h
  obtain ⟨lines', hlog', hgrows', hlines'⟩ := h'
  exact ⟨lines ++ lines', by rw [hlog', hlog, List.append_assoc], hgrows.trans hgrows',
    by simp [hlines, hlines']⟩

theorem log {x msg : List UInt8} (hx : Mark.silent x = true) (hmsg : x <+: msg)
    (w : World (List Syscall)) (lvl : LogLevel) : Reticent w (w.log lvl msg) := by
  obtain ⟨r, rfl⟩ := hmsg
  exact .of_lines rfl rfl (Mark.ofLogged_silent hx lvl r)

end Reticent

namespace ChaosEngine

section Lines

variable {rules : List TargetRule} (cfg : Config) (w : World (List Syscall))

theorem reticent_listedWorld (running : List Container) : Reticent w (listedWorld w running) :=
  .log (x := lit "tick: ") (by decide) (by simp) w .debug

theorem reticent_matchLines (matched : List (MatchedContainer rules)) :
    Mark.ofLogged (matched.flatMap matchLines) = [] := by
  induction matched with
  | nil => rfl
  | cons m matched ih =>
      have hname (r : List UInt8) :
          Mark.ofLogged [(.info, lit "Matched container " ++ r)] = [] :=
        Mark.ofLogged_silent (by decide) .info r
      have hrule (r : List UInt8) : Mark.ofLogged [(.debug, lit "matched rule: '" ++ r)] = [] :=
        Mark.ofLogged_silent (by decide) .debug r
      rw [List.flatMap_cons, Mark.ofLogged_append, ih, List.append_nil, matchLines]
      simp only [List.append_assoc]
      rw [← List.singleton_append, Mark.ofLogged_append, hname, hrule, List.append_nil]

theorem reticent_matchedWorld (running : List Container) (rules : List TargetRule) :
    Reticent w (matchedWorld w running rules) :=
  (reticent_listedWorld w running).trans
    (.of_lines rfl rfl (reticent_matchLines (matchContainers running rules)))

theorem reticent_rollLine (e : ChaosEngine) (rolled : Rolled) :
    Reticent w (w.log (e.rollLine rolled).1 (e.rollLine rolled).2) := by
  unfold rollLine
  split
  · exact .log (x := lit "forced roll (test): -> ") (by decide) (by simp) w _
  · exact .log (x := lit "dice roll: ") (by decide) (by simp [diceLine]) w _

theorem reticent_sweepWorld (e : ChaosEngine) (rolled : Rolled) (running : List Container) :
    Reticent w (e.sweepWorld rolled running w) := by
  have hroll := (reticent_matchedWorld w running e.cfg.targets).trans
    (reticent_rollLine (matchedWorld w running e.cfg.targets) e rolled)
  rw [sweepWorld]
  split
  · exact hroll.trans (.log (x := lit "cycle budget: ") (by decide) (by simp [budgetLine]) _ _)
  · exact hroll

/-- The line before a call. -/
theorem strikeLine_eq (m : MatchedContainer rules) :
    strikeLine cfg m = Entry.callText m.container.names (callOf cfg m) := by
  rw [strikeLine, callOf, strikeLabel]
  cases m.rule.action <;> cases h : m.container.names <;> simp [Entry.callText, Entry.target]

/-- The line behind it. -/
theorem resultLine_eq (m : MatchedContainer rules) (r : LiveReply) :
    resultLine m r = Entry.resultText m.container.names (callOf cfg m) r.result r.err := by
  have hok : lit "strike ok: action=" = lit "strike ok: " ++ lit "action=" := by decide
  have hskipped : lit "strike skipped: action=" = lit "strike skipped: " ++ lit "action=" := by
    decide
  have hfailed : lit "strike failed: action=" = lit "strike failed: " ++ lit "action=" := by decide
  have hname : lit "action=" ++ (actionName m.rule.action ++ (lit " target=" ++
      strikeLabel m.container)) = Entry.callName m.container.names (callOf cfg m) := by
    have hstop : lit "action=stop target=" = lit "action=" ++ (lit "stop" ++ lit " target=") := by
      decide
    have hkill : lit "action=kill target=" = lit "action=" ++ (lit "kill" ++ lit " target=") := by
      decide
    rw [callOf, strikeLabel]
    cases m.rule.action <;> cases h : m.container.names <;>
      simp [Entry.callName, Entry.target, actionName, hstop, hkill]
  obtain ⟨ok, err, status, sent⟩ := r
  rw [Entry.resultText, ← hname]
  cases ok with
  | true => simp [resultLine, LiveReply.result, hok]
  | false =>
      by_cases hskip : status = 404 ∨ status = 409
      · have hnot : StrikeResult.failed ⟨false, status, sent⟩ = false := by
          obtain rfl | rfl := hskip <;> rfl
        simp [resultLine, LiveReply.result, hskip, hnot, hskipped]
      · have hfail : StrikeResult.failed ⟨false, status, sent⟩ = true := by
          simp only [not_or] at hskip
          simp [StrikeResult.failed, hskip]
        by_cases hpos : 0 < status <;>
          simp [resultLine, LiveReply.result, hskip, hfail, hfailed, hpos]

end Lines

/-! ## The audit -/

/-- A client that leaves no mark of its own. -/
structure Quiet (docker : IDockerClient (List Syscall)) : Prop where
  list : ∀ {w r w'}, docker.listContainers w = some (r, w') → Reticent w w'
  call : ∀ {call w r w'}, callOn docker call w = some (r, w') → Reticent w w'

theorem quiet_live (h : Host) (f : UnixSocketFactory) : Quiet (DockerClient.live h f) where
  list := by
    intro w r w' hlist
    obtain ⟨hasks, ⟨warnings, hwarn, hlog⟩, -⟩ := asks_listContainersOver hlist
    refine ⟨_, hlog, hasks.grows, ?_⟩
    refine Mark.ofLogged_of_front (x := lit "container list: ") (by decide) ?_ .warn
    intro msg hmsg
    obtain ⟨text, rfl⟩ := hwarn msg hmsg
    exact List.prefix_append _ text
  call := by
    intro call w r w' hcall
    have hperform : performOver h f call w = some (r, w') := by cases call <;> exact hcall
    obtain ⟨hasks, hlog⟩ := asks_performOver hperform
    exact ⟨[], by rw [hlog, List.append_nil], hasks.grows, rfl⟩

section Runs

variable {stop : Nat → Bool} {docker : IDockerClient (List Syscall)} {cfg : Config}
  {e e' : ChaosEngine} {w w' : World (List Syscall)}

theorem agrees_emit {event : Event} (hevent : event.mark? = none) (hw : Reticent w w') :
    Agrees docker cfg e w (e.emit event) w' :=
  .of_reticent [event] rfl (by simp [marks, hevent]) hw

/-- A strike with its two lines. -/
theorem agrees_strike {rules : List TargetRule} {m : MatchedContainer rules}
    {w₁ : World (List Syscall)} {r : LiveReply} (hdocker : Quiet docker)
    (hcall : callOn docker (callOf e.cfg m) (w.log .info (strikeLine e.cfg m)) = some (r, w₁))
    (hm : Entry.Called docker e.cfg w.os m.container.names (callOf e.cfg m)) :
    Agrees docker e.cfg e w ((e.emit (.guard false)).strike r.result m)
      (w₁.log (resultLine m r).1 (resultLine m r).2) := by
  obtain ⟨lines, hlog, hgrows, hlines⟩ := hdocker.call hcall
  rw [World.log_os] at hgrows
  -- what the client logs comes between the two lines of the strike
  refine ⟨[.guard false] ++ [.strikeCall (callOf e.cfg m), .strikeReturn r.result],
    (.info, strikeLine e.cfg m) :: (lines ++ [resultLine m r]), ?_, ?_, hgrows, ?_⟩
  · simp [strike_eq]
  · simp [hlog]
  · rw [strikeLine_eq, resultLine_eq e.cfg]
    exact .of_strike hlines rfl
      ⟨hm.mono hgrows, _, r, w₁, hcall, List.prefix_refl _, rfl, rfl⟩

theorem SweepOn.agrees {rules : List TargetRule} {armed : List (MatchedContainer rules)}
    (hdocker : Quiet docker) (hcfg : e.cfg = cfg)
    (harmed : ∀ m ∈ armed, Entry.Called docker cfg w.os m.container.names (callOf cfg m))
    (h : SweepOn stop docker armed e w e' w') : Agrees docker cfg e w e' w' := by
  induction h with
  | done => exact .refl _ _
  | @cancelled _ _ _ w =>
      exact agrees_emit rfl (.log (by decide) (List.prefix_refl _) w .warn)
  | @dry m _ _ _ w _ _ _ _ ih =>
      have hline : Reticent w (w.log .warn (dryRunLine m)) :=
        .log (x := lit "Dry-run: would ") (by decide) (by simp [dryRunLine]) w .warn
      exact (agrees_emit rfl hline).trans
        (ih hcfg fun m' hm' => harmed m' (List.mem_cons_of_mem m hm'))
  | @struck m _ e _ w _ w₁ r _ _ hcall _ ih =>
      subst hcfg
      have hstruck := agrees_strike hdocker hcall (harmed m List.mem_cons_self)
      have hgrows : w.os <+: (w₁.log (resultLine m r).1 (resultLine m r).2).os := by
        obtain ⟨-, -, -, -, hgrows, -⟩ := hstruck
        exact hgrows
      have hcfg : ((e.emit (.guard false)).strike r.result m).cfg = e.cfg := by
        rw [strike_eq]
        rfl
      exact hstruck.trans
        (ih hcfg fun m' hm' => (harmed m' (List.mem_cons_of_mem m hm')).mono hgrows)

theorem TickedOn.agrees {rolled : Rolled} {r : ChaosEngine × Bool} (hdocker : Quiet docker)
    (h : TickedOn stop docker rolled e w r w') : Agrees docker e.cfg e w r.1 w' := by
  have hlisted {running : List Container} {w₁ w₂ : World (List Syscall)}
      (hlist : docker.listContainers w = some (.ok running, w₁)) (hrest : Reticent w₁ w₂) :
      Agrees docker e.cfg e w (e.listed true) w₂ :=
    .of_reticent _ (trace_listed e true) rfl ((hdocker.list hlist).trans hrest)
  cases h with
  | skipped => exact agrees_emit rfl (.log (by decide) (List.prefix_refl _) w .debug)
  | @listFailed err w₁ _ hlist =>
      obtain ⟨lines, hlog, hgrows, hlines⟩ := hdocker.list hlist
      refine ⟨[.guard false, .listCall] ++ [.listReturn false],
        lines ++ [(.error, lit "discovery failed: " ++ err)], trace_listed e false, ?_, hgrows, ?_⟩
      · simp [hlog]
      · exact .of_discoveryFailed hlines rfl ⟨w, w₁, hlist, List.prefix_refl _⟩
  | @quiet running w₁ _ hlist =>
      exact hlisted hlist ((reticent_listedWorld w₁ running).trans
        (.log (x := lit "tick: ") (by decide) (by simp [quietTickLine]) _ _))
  | @released running w₁ _ hlist =>
      refine (hlisted hlist (reticent_matchedWorld w₁ running e.cfg.targets)).trans ?_
      exact agrees_emit rfl
        (.log (x := lit "shutdown requested mid-cycle: ") (by decide) (by simp) _ _)
  | @discovered running w₁ _ hlist =>
      refine (hlisted hlist (reticent_matchedWorld w₁ running e.cfg.targets)).trans ?_
      exact agrees_emit rfl (.of_lines (List.append_nil _).symm rfl rfl)
  | @noChaos running w₁ _ hlist =>
      have hroll := (reticent_matchedWorld w₁ running e.cfg.targets).trans
        (reticent_rollLine (matchedWorld w₁ running e.cfg.targets) e rolled)
      exact .of_reticent _ (trace_opened e false) rfl ((hdocker.list hlist).trans hroll)
  | @swept running w₁ _ _ _ hlist _ _ _ _ hsweep =>
      have hworld := reticent_sweepWorld w₁ e rolled running
      have hopened : Agrees docker e.cfg e w (((e.listed true).emit (.guard false)).rolled true)
          (e.sweepWorld rolled running w₁) :=
        .of_reticent _ (trace_opened e true) rfl ((hdocker.list hlist).trans hworld)
      refine hopened.trans (hsweep.agrees hdocker (sameSetup_opened e true).cfg ?_)
      intro m hm
      obtain ⟨-, -, hgrows, -⟩ := hworld
      rw [selected_eq] at hm
      exact ⟨w, running, w₁, hlist, hgrows, m, List.mem_of_mem_take hm, rfl, rfl⟩

/-- **The log of a run tells its trace.** -/
theorem agrees_runOn {rolls : List Rolled} (hdocker : Quiet docker)
    (h : runOn stop docker rolls e w = some (e', w')) :
    Agrees docker e.cfg e w e' w' ∧ e'.cfg = e.cfg := by
  induction rolls generalizing e w with
  | nil =>
      obtain ⟨rfl, rfl⟩ := Prod.mk.inj (Option.some.inj h)
      exact ⟨.refl e w, rfl⟩
  | cons rolled rolls ih =>
      rw [runOn] at h
      split at h
      · contradiction
      · next e₁ ok w₁ htick =>
          have hcfg : e₁.cfg = e.cfg := by
            obtain ⟨input, -, hinput, -⟩ := tickOn_tick htick
            have hsame := (ticked_tick stop input e).sameSetup.cfg
            rwa [hinput] at hsame
          have hrest := ih h
          rw [hcfg] at hrest
          exact ⟨((tickedOn_tickOn htick).agrees hdocker).trans hrest.1, hrest.2⟩

end Runs

end ChaosEngine

end ChaosForger
