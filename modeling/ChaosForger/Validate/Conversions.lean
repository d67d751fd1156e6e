import ChaosForger.Validate.Accepted

/-!
# ChaosForger.Validate.Conversions

The conversions of the validator from `double` to an integer type.

A number that is accepted is converted to the type of its setting, exactly.
An integer that is rejected is converted to `long long` for the message, with
no check in front: the conversion is defined, and the message shows the
value, when the value fits `long long` (`num_conversions`).
-/

namespace ChaosForger

open Libc

/-! ## Conversions -/

/-- The conversion of a `double` to an integer type with the range `[lo, hi]`
cuts off the fraction, and is undefined when the result does not fit. -/
def convert (lo hi : Int) (q : ℚ) : Option Int :=
  if lo ≤ truncate q ∧ truncate q ≤ hi then some (truncate q) else none

/-- `static_cast<int>` -/
def toInt (q : ℚ) : Option Int := convert (-2 ^ 31) (2 ^ 31 - 1) q

/-- `static_cast<long>` -/
def toLong (q : ℚ) : Option Int := convert (-2 ^ 63) (2 ^ 63 - 1) q

/-- `static_cast<long long>` -/
def toLongLong (q : ℚ) : Option Int := convert (-2 ^ 63) (2 ^ 63 - 1) q

theorem convert_intCast {lo hi n : Int} (hlo : lo ≤ n) (hhi : n ≤ hi) :
    convert lo hi n = some n := by
  rw [convert, truncate_intCast, if_pos ⟨hlo, hhi⟩]

theorem toLongLong_isSome {n : Int} :
    (toLongLong n).isSome = true ↔ -2 ^ 63 ≤ n ∧ n < 2 ^ 63 := by
  simp only [toLongLong, convert, truncate_intCast, Int.le_sub_one_iff]
  split <;> simp_all

/-- `num` shows the integer that the conversion makes. -/
theorem num_intCast (n : Int) : num n = decimalInt ((toLongLong n).getD (-2 ^ 63)) := by
  have hfits : (-2 ^ 63 ≤ (n : ℚ) ∧ (n : ℚ) < 2 ^ 63) ↔ -2 ^ 63 ≤ n ∧ n < 2 ^ 63 := by
    exact_mod_cast Iff.rfl
  simp only [num, Int.floor_intCast, if_true, hfits, toLongLong, convert, truncate_intCast,
    Int.le_sub_one_iff]
  split <;> rfl

/-! ## The numeric settings -/

inductive NumberKey where
  | intervalSeconds | chaosProbability | stopTimeoutSeconds | maxActionsPerCycle | maxActionsPerRun
  deriving DecidableEq, Repr

namespace NumberKey

def key : NumberKey → List UInt8
  | intervalSeconds => Setting.intervalSeconds.key
  | chaosProbability => Setting.chaosProbability.key
  | stopTimeoutSeconds => Setting.stopTimeoutSeconds.key
  | maxActionsPerCycle => Setting.maxActionsPerCycle.key
  | maxActionsPerRun => Setting.maxActionsPerRun.key

def check : NumberKey → Json → Config → Checked
  | intervalSeconds => Setting.intervalSeconds.check
  | chaosProbability => Setting.chaosProbability.check
  | stopTimeoutSeconds => Setting.stopTimeoutSeconds.check
  | maxActionsPerCycle => Setting.maxActionsPerCycle.check
  | maxActionsPerRun => Setting.maxActionsPerRun.check

/-- What the message says before the value. -/
def message : NumberKey → List UInt8
  | intervalSeconds => lit "'interval_seconds' must be an integer in [1, 86400]"
  | chaosProbability => lit "'chaos_probability' must be a number in [0.0, 1.0]"
  | stopTimeoutSeconds => lit "'stop_timeout_seconds' must be an integer in [1, 600]"
  | maxActionsPerCycle => lit "'max_actions_per_cycle' must be an integer in [1, 1000]"
  | maxActionsPerRun =>
      lit "'max_actions_per_run' must be an integer in [0, 1000000] (0 = unlimited)"

/-- The setting holds the number: converted without loss, and within the type,
or as it is. -/
def Holds (cfg : Config) (q : ℚ) : NumberKey → Prop
  | intervalSeconds => toInt q = some cfg.intervalSeconds ∧ (cfg.intervalSeconds : ℚ) = q
  | chaosProbability => cfg.chaosProbability = .finite q
  | stopTimeoutSeconds => toInt q = some cfg.stopTimeoutSeconds ∧ (cfg.stopTimeoutSeconds : ℚ) = q
  | maxActionsPerCycle => toInt q = some cfg.maxActionsPerCycle ∧ (cfg.maxActionsPerCycle : ℚ) = q
  | maxActionsPerRun => toLong q = some cfg.maxActionsPerRun ∧ (cfg.maxActionsPerRun : ℚ) = q

/-- The place of the key's check among the checks. -/
def place : NumberKey → Nat
  | intervalSeconds => 0
  | chaosProbability => 1
  | stopTimeoutSeconds => 3
  | maxActionsPerCycle => 5
  | maxActionsPerRun => 6

end NumberKey

/-- The checks of an object, in their order. -/
def checks : List (Json → Config → Checked) :=
  [Setting.intervalSeconds.check, Setting.chaosProbability.check, Setting.dockerSocket.check,
    Setting.stopTimeoutSeconds.check, Setting.dryRun.check, Setting.maxActionsPerCycle.check,
    Setting.maxActionsPerRun.check, Setting.logLevel.check, checkTargets]

def runChecks (cs : List (Json → Config → Checked)) (root : Json) (cfg : Config) : Checked :=
  cs.foldlM (fun cfg check => check root cfg) cfg

/-- The checks before the key's pass, and the key's rejects its value, the
number `q`. -/
def Rejects (root : Json) (cfg : Config) (k : NumberKey) (q : ℚ) : Prop :=
  root.find k.key = some (.number q) ∧ ∃ before err,
    runChecks (checks.take k.place) root cfg = .ok before ∧ k.check root before = .error err

theorem validateConfig_object (obj : JsonObject) (cfg : Config) :
    validateConfig (.object obj) cfg = do
      let cfg ← runChecks checks (.object obj) cfg
      return (cfg, warnings (.object obj) obj cfg) := by
  simp only [validateConfig, runChecks, checks, List.foldlM_cons, List.foldlM_nil, bind_assoc,
    pure_bind]

/-- The checks stop at the first that fails. -/
theorem runChecks_error {root : Json} {cfg before : Config} {err : List UInt8 × Config}
    {cs after : List (Json → Config → Checked)} {check : Json → Config → Checked}
    (hcs : runChecks cs root cfg = .ok before) (hcheck : check root before = .error err) :
    runChecks (cs ++ check :: after) root cfg = .error err := by
  rw [runChecks] at hcs ⊢
  simp only [List.foldlM_append, List.foldlM_cons, hcs, bind, Except.bind, hcheck]

theorem checks_place (k : NumberKey) : ∃ after, checks.drop k.place = k.check :: after := by
  cases k <;> exact ⟨_, rfl⟩

/-! ## Rejected numbers -/

theorem readInteger_error {lo hi : Int} {msg err : List UInt8} {q : ℚ}
    (h : readInteger lo hi msg (.number q) = .error err) : err = msg ++ (lit ", got " ++ num q) := by
  simp only [readInteger] at h
  split at h
  · exact (Except.error.inj h).symm
  · cases h

theorem readProbability_error {msg err : List UInt8} {q : ℚ}
    (h : readProbability msg (.number q) = .error err) :
    err = msg ++ (lit ", got " ++ num q) := by
  simp only [readProbability] at h
  split at h
  · exact (Except.error.inj h).symm
  · cases h

section Key

variable {root : Json} {cfg cfg' : Config} {k : NumberKey} {q : ℚ} {err : List UInt8 × Config}

theorem Setting.check_error {α : Type} {s : Setting α} {v : Json} {err : List UInt8 × Config}
    (hfind : root.find s.key = some v) (h : s.check root cfg = .error err) :
    s.read v = .error err.1 ∧ err.2 = cfg := by
  simp only [Setting.check, hfind] at h
  split at h
  · next hread =>
      obtain rfl := Except.error.inj h
      exact ⟨hread, rfl⟩
  · cases h

/-- The message of a rejected number ends in the text of its value. -/
theorem NumberKey.check_error (hfind : root.find k.key = some (.number q))
    (h : k.check root cfg = .error err) : err = (k.message ++ (lit ", got " ++ num q), cfg) := by
  cases k with
  | chaosProbability =>
      obtain ⟨hread, hcfg⟩ := Setting.check_error hfind h
      exact Prod.ext (readProbability_error hread) hcfg
  | _ =>
      obtain ⟨hread, hcfg⟩ := Setting.check_error hfind h
      exact Prod.ext (readInteger_error hread) hcfg

theorem validateConfig_of_rejects (h : Rejects root cfg k q) : ∃ before,
    validateConfig root cfg = .error (k.message ++ (lit ", got " ++ num q), before) := by
  obtain ⟨hfind, before, err, hbefore, hcheck⟩ := h
  obtain ⟨after, hafter⟩ := checks_place k
  obtain rfl := NumberKey.check_error hfind hcheck
  obtain ⟨obj, rfl⟩ : ∃ obj, root = .object obj := by
    cases root <;> simp [Json.find] at hfind ⊢
  have hrun : runChecks checks (.object obj) cfg =
      .error (k.message ++ (lit ", got " ++ num q), before) := by
    rw [← List.take_append_drop k.place checks, hafter]
    exact runChecks_error hbefore hcheck
  exact ⟨before, by rw [validateConfig_object, hrun]; rfl⟩

/-! ## Accepted numbers -/

theorem Setting.check_ok {α : Type} {s : Setting α} {v : Json}
    (hfind : root.find s.key = some v) (h : s.check root cfg = .ok cfg') :
    ∃ a, s.read v = .ok a ∧ cfg' = s.store cfg a := by
  simp only [Setting.check, hfind] at h
  split at h
  · cases h
  · next a hread => exact ⟨a, hread, (Except.ok.inj h).symm⟩

/-- An accepted integer fits every type that holds the range of its setting. -/
theorem convert_of_readInteger {lo hi lo' hi' n : Int} {msg : List UInt8}
    (h : readInteger lo hi msg (.number q) = .ok n) (hlo : lo' ≤ lo) (hhi : hi ≤ hi') :
    convert lo' hi' q = some n ∧ (n : ℚ) = q := by
  obtain ⟨hq, hn, hn'⟩ := readInteger_ok_iff.mp h
  obtain rfl := Json.number.inj hq
  exact ⟨convert_intCast (hlo.trans hn) (hn'.trans hhi), rfl⟩

theorem NumberKey.holds_of_check (hfind : root.find k.key = some (.number q))
    (h : k.check root cfg = .ok cfg') : k.Holds cfg' q := by
  cases k with
  | chaosProbability =>
      obtain ⟨x, hread, rfl⟩ := Setting.check_ok hfind h
      have hread : readProbability _ (.number q) = .ok x := hread
      obtain ⟨q', hq, -, -, rfl⟩ := readProbability_ok_iff.mp hread
      exact congrArg Double.finite (Json.number.inj hq).symm
  | _ =>
      obtain ⟨n, hread, rfl⟩ := Setting.check_ok hfind h
      exact convert_of_readInteger hread (by decide) (by decide)

/-- **The message of a rejected integer shows it, with a defined conversion,
exactly when it fits `long long`; accepted numbers are converted exactly.** -/
theorem num_conversions (root : Json) (cfg : Config) (k : NumberKey) :
    (∀ n : Int, Rejects root cfg k n →
      (((toLongLong n).isSome = true ∧ ∃ before,
          validateConfig root cfg = .error (k.message ++ (lit ", got " ++ decimalInt n), before)) ↔
        -2 ^ 63 ≤ n ∧ n < 2 ^ 63)) ∧
      ∀ q before after, root.find k.key = some (.number q) → k.check root before = .ok after →
        k.Holds after q := by
  refine ⟨fun n hrejects => ?_, fun q before after => NumberKey.holds_of_check⟩
  rw [toLongLong_isSome]
  constructor
  · exact fun h => h.1
  · intro hfits
    have hshown : num n = decimalInt n := by
      rw [num_intCast, toLongLong, convert_intCast hfits.1 (Int.le_sub_one_of_lt hfits.2),
        Option.getD_some]
    exact ⟨hfits, hshown ▸ validateConfig_of_rejects hrejects⟩

end Key

/-- A configuration with one number, and nothing else. -/
def oneNumber (k : NumberKey) (n : Int) : Json := .object [(k.key, .number n)]

theorem rejects_oneNumber {n : Int} (h : n < 1 ∨ 86400 < n) :
    Rejects (oneNumber .intervalSeconds n) {} .intervalSeconds n := by
  have hfind : (oneNumber .intervalSeconds n).find Setting.intervalSeconds.key =
      some (.number n) := rfl
  have hout : (n : ℚ) ≠ ⌊(n : ℚ)⌋ ∨ (n : ℚ) < (1 : Int) ∨ ((86400 : Int) : ℚ) < n :=
    .inr (by exact_mod_cast h)
  have hread : Setting.intervalSeconds.read (.number n) =
      .error (NumberKey.intervalSeconds.message ++ (lit ", got " ++ num n)) := if_pos hout
  refine ⟨hfind, {}, (NumberKey.intervalSeconds.message ++ (lit ", got " ++ num n), {}), rfl, ?_⟩
  simp only [NumberKey.check, Setting.check, hfind, hread]

/-- `{"interval_seconds": 0}` is rejected with its value, and
`{"max_actions_per_run": 100}` is converted. -/
theorem num_conversions_small :
    (∃ before, validateConfig (oneNumber .intervalSeconds 0) {} =
      .error (lit "'interval_seconds' must be an integer in [1, 86400]" ++
        (lit ", got " ++ lit "0"), before)) ∧
      toLong 100 = some 100 := by
  have hshown := ((num_conversions (oneNumber .intervalSeconds 0) {} .intervalSeconds).1 0
    (rejects_oneNumber (by decide))).mpr (by decide)
  have hfind : (oneNumber .maxActionsPerRun 100).find NumberKey.maxActionsPerRun.key =
      some (.number 100) := rfl
  have hcheck : NumberKey.maxActionsPerRun.check (oneNumber .maxActionsPerRun 100) {} =
      .ok { maxActionsPerRun := 100 } := rfl
  exact ⟨hshown.2, ((num_conversions _ {} .maxActionsPerRun).2 100 _ _ hfind hcheck).1⟩

/-- The largest finite `double`. -/
def doubleMax : Int := (2 ^ 53 - 1) * 2 ^ 971

/-- `{"interval_seconds": 1e19}` -/
theorem num_overflows : ¬ ∀ root cfg (k : NumberKey) (n : Int), |n| ≤ doubleMax →
    Rejects root cfg k n → (toLongLong n).isSome = true ∧ ∃ before,
      validateConfig root cfg = .error (k.message ++ (lit ", got " ++ decimalInt n), before) := by
  intro hall
  have hfinite : |(10 ^ 19 : Int)| ≤ doubleMax :=
    calc |(10 ^ 19 : Int)| = 10 ^ 19 := by decide
      _ ≤ (2 ^ 53 - 1) * 2 ^ 20 := by decide
      _ ≤ (2 ^ 53 - 1) * 2 ^ 971 :=
        Int.mul_le_mul_of_nonneg_left (pow_le_pow_right₀ (by decide) (by decide)) (by decide)
  have hfits := toLongLong_isSome.mp (hall _ _ _ _ hfinite (rejects_oneNumber (by decide))).1
  exact absurd hfits.2 (by decide)

end ChaosForger
