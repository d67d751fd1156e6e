import ChaosForger.Json.Values
import ChaosForger.Validate

/-!
# ChaosForger.Validate.Accepted

Which configurations `validateConfig` accepts, and what it makes of them.

The documented format is stated on its own (`Acceptable`, and `Denotes` for
the settings that go with it): a rule for each key, a default for each key
that may be absent.  Every check of the source is then shown to be its rule,
and a configuration file is loaded when it holds an acceptable value
(`loadConfig_ok_iff`).
-/

namespace ChaosForger

open Libc Trim

/-! ## The documented format -/

/-- `s` without the blanks around it, and in lower case. -/
def Normalized (s w : List UInt8) : Prop := ∃ core, Trims isBlank s core ∧ w = toLower core

def IntegerIn (lo hi : Int) (v : Json) (n : Int) : Prop := v = .number n ∧ lo ≤ n ∧ n ≤ hi

def Probability (v : Json) (x : Double) : Prop :=
  ∃ q, v = .number q ∧ 0 ≤ q ∧ q ≤ 1 ∧ x = .finite q

def NonEmptyString (v : Json) (s : List UInt8) : Prop := v = .string s ∧ s ≠ []

def Boolean (v : Json) (b : Bool) : Prop := v = .bool b

/-- One of the words, up to case and surrounding blanks. -/
def Word (words : List (List UInt8)) (v : Json) (w : List UInt8) : Prop :=
  ∃ s, v = .string s ∧ Normalized s w ∧ w ∈ words

def logLevels : List (List UInt8) := [lit "debug", lit "info", lit "warn", lit "error"]

/-- An entry of `targets` and the rule it states. -/
structure RuleEntry (entry : Json) (rule : TargetRule) : Prop where
  nameMatch : ∃ text, entry.find (lit "name_match") = some (.string text) ∧
    Trims isBlank text rule.nameMatch ∧ rule.nameMatch ≠ []
  action : ∃ text, entry.find (lit "action") = some (.string text) ∧
    Normalized text (actionName rule.action)

/-- A key that is present satisfies its rule. -/
def Obeys {α : Type} (root : Json) (key : List UInt8) (rule : Json → α → Prop) : Prop :=
  ∀ v, root.find key = some v → ∃ a, rule v a

/-- The value of a key that is present, and the default of one that is absent. -/
def Takes {α : Type} (root : Json) (key : List UInt8) (rule : Json → α → Prop) (default a : α) :
    Prop :=
  match root.find key with
  | none => a = default
  | some v => rule v a

/-- The documented configurations. -/
structure Acceptable (root : Json) : Prop where
  object : ∃ obj, root = .object obj
  intervalSeconds : Obeys root (lit "interval_seconds") (IntegerIn 1 86400)
  chaosProbability : Obeys root (lit "chaos_probability") Probability
  dockerSocket : Obeys root (lit "docker_socket") NonEmptyString
  stopTimeoutSeconds : Obeys root (lit "stop_timeout_seconds") (IntegerIn 1 600)
  dryRun : Obeys root (lit "dry_run") Boolean
  maxActionsPerCycle : Obeys root (lit "max_actions_per_cycle") (IntegerIn 1 1000)
  maxActionsPerRun : Obeys root (lit "max_actions_per_run") (IntegerIn 0 1000000)
  logLevel : Obeys root (lit "log_level") (Word logLevels)
  targets : ∃ entries, root.find (lit "targets") = some (.array entries) ∧ entries ≠ [] ∧
    ∀ entry ∈ entries, ∃ rule, RuleEntry entry rule

/-- The settings a configuration stands for. -/
structure Denotes (root : Json) (cfg : Config) : Prop where
  object : ∃ obj, root = .object obj
  intervalSeconds : Takes root (lit "interval_seconds") (IntegerIn 1 86400) 5 cfg.intervalSeconds
  chaosProbability : Takes root (lit "chaos_probability") Probability (.finite (3 / 10))
    cfg.chaosProbability
  dockerSocket : Takes root (lit "docker_socket") NonEmptyString (lit "/var/run/docker.sock")
    cfg.dockerSocket
  stopTimeoutSeconds : Takes root (lit "stop_timeout_seconds") (IntegerIn 1 600) 10
    cfg.stopTimeoutSeconds
  dryRun : Takes root (lit "dry_run") Boolean true cfg.dryRun
  maxActionsPerCycle : Takes root (lit "max_actions_per_cycle") (IntegerIn 1 1000) 1
    cfg.maxActionsPerCycle
  maxActionsPerRun : Takes root (lit "max_actions_per_run") (IntegerIn 0 1000000) 0
    cfg.maxActionsPerRun
  logLevel : Takes root (lit "log_level") (Word logLevels) (lit "info") cfg.logLevel
  targets : ∃ entries, root.find (lit "targets") = some (.array entries) ∧ entries ≠ [] ∧
    List.Forall₂ RuleEntry entries cfg.targets

/-! ## Every check is its rule -/

theorem normalized_iff {s w : List UInt8} : Normalized s w ↔ toLower (trim s) = w := by
  constructor
  · rintro ⟨core, hcore, rfl⟩
    rw [trims_iff.mp hcore, trim]
  · intro h
    exact ⟨trim s, trims_iff.mpr rfl, h.symm⟩

theorem truncate_intCast (n : Int) : truncate n = n := by simp [truncate]

theorem readInteger_ok_iff {lo hi : Int} {msg : List UInt8} {v : Json} {n : Int} :
    readInteger lo hi msg v = .ok n ↔ IntegerIn lo hi v n := by
  cases v with
  | number q =>
      by_cases hq : q = ⌊q⌋
      · rw [hq]
        simp only [readInteger, IntegerIn, Int.floor_intCast, Json.number.injEq, Int.cast_inj,
          truncate_intCast, Int.cast_lt, ne_eq, not_true_eq_false, false_or]
        split <;> grind
      · have hne : q ≠ (n : ℚ) := fun h => hq (by simp [h])
        simp [readInteger, IntegerIn, hq, hne]
  | _ => simp [readInteger, IntegerIn]

theorem readProbability_ok_iff {msg : List UInt8} {v : Json} {x : Double} :
    readProbability msg v = .ok x ↔ Probability v x := by
  cases v with
  | number q =>
      simp only [readProbability, Probability, Json.number.injEq]
      split <;> grind
  | _ => simp [readProbability, Probability]

theorem readText_ok_iff {msg : List UInt8} {v : Json} {s : List UInt8} :
    readText msg v = .ok s ↔ NonEmptyString v s := by
  cases v with
  | string t =>
      simp only [readText, NonEmptyString, Json.string.injEq]
      split <;> grind
  | _ => simp [readText, NonEmptyString]

theorem readBool_ok_iff {msg : List UInt8} {v : Json} {b : Bool} :
    readBool msg v = .ok b ↔ Boolean v b := by
  cases v <;> simp [readBool, Boolean]

theorem readLevel_ok_iff {v : Json} {w : List UInt8} :
    readLevel v = .ok w ↔ Word logLevels v w := by
  cases v with
  | string s =>
      simp only [readLevel, Word, Json.string.injEq, normalized_iff, logLevels, List.mem_cons,
        List.not_mem_nil, or_false]
      split <;> grind
  | _ => simp [readLevel, Word]

theorem actionFromString_ok_iff {s : List UInt8} {action : Action} :
    actionFromString s = .ok action ↔ Normalized s (actionName action) := by
  have hne : lit "stop" ≠ lit "kill" := by decide
  simp only [actionFromString, normalized_iff]
  cases action <;> simp only [actionName] <;> split <;> grind

/-- The reader of an entry that is an object. -/
theorem readRule_object {name : List UInt8} {obj : JsonObject} {rule : TargetRule} :
    readRule name (.object obj) = .ok rule ↔ RuleEntry (.object obj) rule := by
  constructor
  · intro h
    simp only [readRule] at h
    split at h
    · cases h
    · next text hname =>
        split at h
        · cases h
        · next hne =>
            split at h
            · cases h
            · next action haction =>
                split at h
                · cases h
                · next a hread =>
                    obtain rfl := Except.ok.inj h
                    exact ⟨⟨text, hname, trims_iff.mpr rfl, hne⟩, action, haction,
                      actionFromString_ok_iff.mp hread⟩
            · cases h
    · cases h
  · rintro ⟨⟨text, hname, htrim, hne⟩, action, haction, hread⟩
    have htext : trim text = rule.nameMatch := (trims_iff.mp htrim).symm
    simp [readRule, hname, haction, htext, hne, actionFromString_ok_iff.mpr hread]

theorem readRule_ok_iff {name : List UInt8} {entry : Json} {rule : TargetRule} :
    readRule name entry = .ok rule ↔ RuleEntry entry rule := by
  cases entry with
  | object obj => exact readRule_object
  | _ =>
      simp only [readRule, reduceCtorEq, false_iff]
      rintro ⟨⟨text, hname, -⟩, -⟩
      simp [Json.find] at hname

/-! ## From the checks to the settings -/

section Checks

variable {root : Json} {cfg cfg' : Config}

/-- One key: it is absent and the settings stay, or its value is stored. -/
theorem check_ok_iff {α : Type} {s : Setting α} {rule : Json → α → Prop} (get : Config → α)
    (hread : ∀ v a, s.read v = .ok a ↔ rule v a) (hget : ∀ cfg, s.store cfg (get cfg) = cfg) :
    s.check root cfg = .ok cfg' ↔
      ∃ a, Takes root s.key rule (get cfg) a ∧ cfg' = s.store cfg a := by
  unfold Setting.check Takes
  cases root.find s.key with
  | none => simp [hget, eq_comm]
  | some v =>
      cases hv : s.read v with
      | error err => simp [← hread, hv]
      | ok a => simp [← hread, hv, eq_comm]

theorem checkRules_ok_iff {index : Nat} {entries : List Json} :
    checkRules index entries cfg = .ok cfg' ↔
      ∃ rules, List.Forall₂ RuleEntry entries rules ∧
        cfg' = { cfg with targets := cfg.targets ++ rules } := by
  induction entries generalizing index cfg with
  | nil => simp [checkRules, eq_comm]
  | cons entry entries ih =>
      rw [checkRules]
      split
      · next err hread =>
          simp only [reduceCtorEq, false_iff]
          rintro ⟨_, hall, -⟩
          cases hall with
          | cons hentry _ => simp [readRule_ok_iff.mpr hentry] at hread
      · next rule hread =>
          have hentry := readRule_ok_iff.mp hread
          rw [ih]
          constructor
          · rintro ⟨rules, hall, rfl⟩
            exact ⟨rule :: rules, .cons hentry hall, by simp⟩
          · rintro ⟨_, hall, rfl⟩
            cases hall with
            | cons hentry' hall =>
                obtain rfl := Except.ok.inj (hread.symm.trans (readRule_ok_iff.mpr hentry'))
                exact ⟨_, hall, by simp⟩

theorem checkTargets_ok_iff :
    checkTargets root cfg = .ok cfg' ↔
      ∃ entries rules, root.find (lit "targets") = some (.array entries) ∧ entries ≠ [] ∧
        List.Forall₂ RuleEntry entries rules ∧
        cfg' = { cfg with targets := cfg.targets ++ rules } := by
  unfold checkTargets
  split
  · next hfind => simp [hfind]
  · next entry entries hfind => simp [hfind, checkRules_ok_iff]
  · next v hne hfind =>
      simp only [reduceCtorEq, hfind, false_iff]
      rintro ⟨entries, rules, hv, hentries, -⟩
      obtain ⟨entry, entries, rfl⟩ := List.exists_cons_of_ne_nil hentries
      exact hne _ _ (Option.some.inj hv)

end Checks

section Whole

variable {root : Json} {cfg : Config}

theorem bind_ok_iff {ε α β : Type} {x : Except ε α} {f : α → Except ε β} {b : β} :
    (x >>= f) = .ok b ↔ ∃ a, x = .ok a ∧ f a = .ok b := by
  cases x <;> simp [bind, Except.bind]

/-- **The validator returns the settings the configuration denotes.** -/
theorem validateConfig_ok_iff :
    (∃ logged, validateConfig root {} = .ok (cfg, logged)) ↔ Denotes root cfg := by
  cases root with
  | object obj =>
      simp only [validateConfig, bind_ok_iff, pure, Except.pure, Except.ok.injEq, Prod.mk.injEq,
        check_ok_iff (s := .intervalSeconds) Config.intervalSeconds
          (fun _ _ => readInteger_ok_iff) (fun _ => rfl),
        check_ok_iff (s := .chaosProbability) Config.chaosProbability
          (fun _ _ => readProbability_ok_iff) (fun _ => rfl),
        check_ok_iff (s := .dockerSocket) Config.dockerSocket
          (fun _ _ => readText_ok_iff) (fun _ => rfl),
        check_ok_iff (s := .stopTimeoutSeconds) Config.stopTimeoutSeconds
          (fun _ _ => readInteger_ok_iff) (fun _ => rfl),
        check_ok_iff (s := .dryRun) Config.dryRun (fun _ _ => readBool_ok_iff) (fun _ => rfl),
        check_ok_iff (s := .maxActionsPerCycle) Config.maxActionsPerCycle
          (fun _ _ => readInteger_ok_iff) (fun _ => rfl),
        check_ok_iff (s := .maxActionsPerRun) Config.maxActionsPerRun
          (fun _ _ => readInteger_ok_iff) (fun _ => rfl),
        check_ok_iff (s := .logLevel) Config.logLevel (fun _ _ => readLevel_ok_iff)
          (fun _ => rfl),
        checkTargets_ok_iff]
      constructor
      · rintro ⟨_, _, ⟨_, h1, rfl⟩, _, ⟨_, h2, rfl⟩, _, ⟨_, h3, rfl⟩, _, ⟨_, h4, rfl⟩,
          _, ⟨_, h5, rfl⟩, _, ⟨_, h6, rfl⟩, _, ⟨_, h7, rfl⟩, _, ⟨_, h8, rfl⟩,
          _, ⟨entries, rules, hfind, hne, hall, rfl⟩, rfl, -⟩
        exact ⟨⟨_, rfl⟩, h1, h2, h3, h4, h5, h6, h7, h8, entries, hfind, hne, hall⟩
      · rintro ⟨-, h1, h2, h3, h4, h5, h6, h7, h8, entries, hfind, hne, hall⟩
        refine ⟨_, _, ⟨cfg.intervalSeconds, h1, rfl⟩, _, ⟨cfg.chaosProbability, h2, rfl⟩,
          _, ⟨cfg.dockerSocket, h3, rfl⟩, _, ⟨cfg.stopTimeoutSeconds, h4, rfl⟩,
          _, ⟨cfg.dryRun, h5, rfl⟩, _, ⟨cfg.maxActionsPerCycle, h6, rfl⟩,
          _, ⟨cfg.maxActionsPerRun, h7, rfl⟩, _, ⟨cfg.logLevel, h8, rfl⟩,
          cfg, ⟨entries, cfg.targets, hfind, hne, hall, ?_⟩, rfl, rfl⟩
        simp [Setting.intervalSeconds, Setting.chaosProbability, Setting.dockerSocket,
          Setting.stopTimeoutSeconds, Setting.dryRun, Setting.maxActionsPerCycle,
          Setting.maxActionsPerRun, Setting.logLevel]
  | _ =>
      simp only [validateConfig, reduceCtorEq, exists_false, false_iff]
      rintro ⟨⟨obj, hobj⟩, -⟩
      cases hobj

/-- A key obeys its rule when it has a value to take. -/
theorem obeys_iff {α : Type} {key : List UInt8} {rule : Json → α → Prop} {default : α} :
    Obeys root key rule ↔ ∃ a, Takes root key rule default a := by
  unfold Obeys Takes
  cases root.find key <;> simp

theorem forall₂_of_forall {α β : Type} {R : α → β → Prop} {l : List α}
    (h : ∀ a ∈ l, ∃ b, R a b) : ∃ m, List.Forall₂ R l m := by
  induction l with
  | nil => exact ⟨[], .nil⟩
  | cons a l ih =>
      obtain ⟨b, hb⟩ := h a (by simp)
      obtain ⟨m, hm⟩ := ih fun x hx => h x (by simp [hx])
      exact ⟨b :: m, .cons hb hm⟩

/-- The acceptable configurations are those that denote settings. -/
theorem acceptable_iff : Acceptable root ↔ ∃ cfg, Denotes root cfg := by
  constructor
  · rintro ⟨hobj, h1, h2, h3, h4, h5, h6, h7, h8, entries, hfind, hne, hall⟩
    obtain ⟨n1, h1⟩ := obeys_iff.mp h1
    obtain ⟨n2, h2⟩ := obeys_iff.mp h2
    obtain ⟨n3, h3⟩ := obeys_iff.mp h3
    obtain ⟨n4, h4⟩ := obeys_iff.mp h4
    obtain ⟨n5, h5⟩ := obeys_iff.mp h5
    obtain ⟨n6, h6⟩ := obeys_iff.mp h6
    obtain ⟨n7, h7⟩ := obeys_iff.mp h7
    obtain ⟨n8, h8⟩ := obeys_iff.mp h8
    obtain ⟨rules, hrules⟩ := forall₂_of_forall hall
    exact ⟨⟨n1, n2, n3, n4, n5, n6, n7, n8, rules⟩, hobj, h1, h2, h3, h4, h5, h6, h7, h8,
      entries, hfind, hne, hrules⟩
  · rintro ⟨cfg, hobj, h1, h2, h3, h4, h5, h6, h7, h8, entries, hfind, hne, hall⟩
    refine ⟨hobj, obeys_iff.mpr ⟨_, h1⟩, obeys_iff.mpr ⟨_, h2⟩, obeys_iff.mpr ⟨_, h3⟩,
      obeys_iff.mpr ⟨_, h4⟩, obeys_iff.mpr ⟨_, h5⟩, obeys_iff.mpr ⟨_, h6⟩, obeys_iff.mpr ⟨_, h7⟩,
      obeys_iff.mpr ⟨_, h8⟩, entries, hfind, hne, fun entry hentry => ?_⟩
    obtain ⟨i, hi, rfl⟩ := List.getElem_of_mem hentry
    exact ⟨_, hall.get hi (hall.length_eq ▸ hi)⟩

/-- Live mode has to be asked for. -/
theorem dryRun_of_denotes (h : Denotes root cfg) (hlive : cfg.dryRun = false) :
    root.find (lit "dry_run") = some (.bool false) := by
  have hdry := h.dryRun
  rw [hlive, Takes] at hdry
  split at hdry
  · cases hdry
  · next v hv => rw [hv, show v = .bool false from hdry]

end Whole

/-! ## The file -/

section File

variable {toDouble : ℚ → Option ℚ} {path text : List UInt8} {root : Json} {cfg : Config}

/-- A JSON text is not blank. -/
theorem trim_ne_nil {n : Nat} (h : Derives (scanned toDouble) n (.padded root) text) :
    trim text ≠ [] := by
  obtain ⟨w, t, w', -, ht, -, rfl⟩ := JsonParser.padded_iff.mpr h
  obtain ⟨c, r, rfl, hc⟩ := JsonParser.starts_value root t ht
  intro hnil
  have hblank : isBlank c = true := List.all_eq_true.mp (all_of_trim_eq_nil hnil) c (by simp)
  simp_all [isBlank, JsonParser.isWs]

/-- **A configuration file is loaded when it holds a text of an acceptable
value**, with the settings this value denotes. -/
theorem loadConfig_ok_iff {file : Except (List UInt8) (List UInt8)} :
    (∃ logged, loadConfig toDouble path file {} = .ok (.ok (cfg, logged))) ↔
      ∃ text root, file = .ok text ∧
        Derives (scanned toDouble) JsonParser.maxDepth (.padded root) text ∧ Denotes root cfg := by
  cases file with
  | error reason => simp [loadConfig]
  | ok text =>
      constructor
      · rintro ⟨logged, h⟩
        obtain ⟨err, o, hparse, hspec⟩ := JsonParser.parse_spec toDouble text []
        rw [loadConfig, hparse] at h
        by_cases htrim : trim text = []
        · simp [htrim] at h
        · cases o with
          | none => simp [htrim, bind, Except.bind, pure, Except.pure] at h
          | some root =>
              have hok : validateConfig root {} = .ok (cfg, logged) := by
                simpa [htrim, bind, Except.bind, pure, Except.pure] using h
              exact ⟨text, root, rfl, (hspec root rfl).2, validateConfig_ok_iff.mp ⟨logged, hok⟩⟩
      · rintro ⟨_, root, ⟨⟩, htext, hcfg⟩
        obtain ⟨logged, hok⟩ := validateConfig_ok_iff.mpr hcfg
        refine ⟨logged, ?_⟩
        rw [loadConfig, JsonParser.parse_iff.mpr htext]
        simp [trim_ne_nil htext, hok, bind, Except.bind, pure, Except.pure]

end File

/-- **The validator accepts the documented configurations, reads the settings
they denote, and never arms the daemon unasked.** -/
theorem validateConfig_accepts (root : Json) :
    ((∃ out, validateConfig root {} = .ok out) ↔ Acceptable root) ∧
      ∀ cfg logged, validateConfig root {} = .ok (cfg, logged) →
        Denotes root cfg ∧ (cfg.dryRun = false → root.find (lit "dry_run") = some (.bool false)) := by
  constructor
  · rw [acceptable_iff, Prod.exists]
    exact exists_congr fun cfg => validateConfig_ok_iff
  · intro cfg logged h
    have hcfg : Denotes root cfg := validateConfig_ok_iff.mp ⟨logged, h⟩
    exact ⟨hcfg, dryRun_of_denotes hcfg⟩

/-- `{"dry_run": false, "log_level": " WARN", "targets": [{"action": "Kill ", "name_match": " db"}]}` -/
def liveRoot : Json :=
  .object [(lit "dry_run", .bool false), (lit "log_level", .string (lit " WARN")),
    (lit "targets", .array [.object
      [(lit "action", .string (lit "Kill ")), (lit "name_match", .string (lit " db"))]])]

/-- The settings this configuration denotes. -/
def liveConfig : Config :=
  { dryRun := false, logLevel := lit "warn", targets := [{ nameMatch := lit "db", action := .kill }] }

theorem validateConfig_accepts_live : Acceptable liveRoot ∧ Denotes liveRoot liveConfig ∧
    liveRoot.find (lit "dry_run") = some (.bool false) := by
  have hrun : validateConfig liveRoot {} = .ok (liveConfig, []) := rfl
  have h := validateConfig_accepts liveRoot
  have hlive := h.2 liveConfig [] hrun
  exact ⟨h.1.mp ⟨_, hrun⟩, hlive.1, hlive.2 rfl⟩

end ChaosForger
