import ChaosForger.Discovery
import ChaosForger.Picks

/-!
# ChaosForger.Discovery.Matching

The loops of `match_containers`, and what they select.

The loops break off at two levels and push what they find to the back of a
vector, with the index of the rule as a plain number.  They compute
`matchContainers` (`matchLoops_eq`); what they select is stated by position
(`Selection`), over the names of the containers only.
-/

namespace ChaosForger

open Search Picks

/-! ## The loops -/

/-- An entry of the result vector. -/
structure ArmedContainer where
  container : Container
  ruleIndex : Nat
  deriving DecidableEq, Repr

/-- The loop over the names of a container; it breaks at the first hit. -/
def scanNames (needle : List UInt8) : List (List UInt8) → Bool
  | [] => false
  | name :: names => if containsSubstring name needle then true else scanNames needle names

/-- The loop over the rules, at the rule with index `r`; it breaks at the
first rule that hits. -/
def scanRules (c : Container) (matched : List ArmedContainer) :
    Nat → List TargetRule → List ArmedContainer
  | _, [] => matched
  | r, rule :: rules =>
      if scanNames rule.nameMatch c.names then matched ++ [{ container := c, ruleIndex := r }]
      else scanRules c matched (r + 1) rules

/-- The loop over the containers. -/
def scanContainers (rules : List TargetRule) :
    List Container → List ArmedContainer → List ArmedContainer
  | [], matched => matched
  | c :: containers, matched => scanContainers rules containers (scanRules c matched 0 rules)

/-- `match_containers`, loop by loop. -/
def matchLoops (containers : List Container) (rules : List TargetRule) : List ArmedContainer :=
  scanContainers rules containers []

theorem scanNames_eq (c : Container) (rule : TargetRule) :
    scanNames rule.nameMatch c.names = hit c rule := by
  unfold hit
  induction c.names with
  | nil => rfl
  | cons name names ih =>
      rw [scanNames, List.any_cons, ih]
      cases containsSubstring name rule.nameMatch <;> rfl

theorem scanRules_eq (c : Container) (matched : List ArmedContainer) (r : Nat)
    (rules : List TargetRule) : scanRules c matched r rules =
      matched ++ ((rules.findIdx? (hit c)).map fun j =>
        ({ container := c, ruleIndex := r + j } : ArmedContainer)).toList := by
  induction rules generalizing r with
  | nil => simp [scanRules]
  | cons rule rules ih =>
      rw [scanRules, scanNames_eq, List.findIdx?_cons]
      cases hit c rule with
      | true => rfl
      | false =>
          rw [if_neg Bool.false_ne_true, if_neg Bool.false_ne_true, ih, Option.map_map]
          simp only [Function.comp_def, Nat.add_assoc, Nat.add_comm 1]

theorem scanContainers_eq (rules : List TargetRule) (containers : List Container)
    (matched : List ArmedContainer) : scanContainers rules containers matched =
      matched ++ containers.filterMap fun c =>
        (rules.findIdx? (hit c)).map fun r => { container := c, ruleIndex := r } := by
  induction containers generalizing matched with
  | nil => simp [scanContainers]
  | cons c containers ih =>
      rw [scanContainers, ih, scanRules_eq, List.append_assoc, List.filterMap_cons]
      simp only [Nat.zero_add]
      cases rules.findIdx? (hit c) <;> rfl

/-- **The loops compute the matching.** -/
theorem matchLoops_eq (containers : List Container) (rules : List TargetRule) :
    matchLoops containers rules = (matchContainers containers rules).map fun m =>
      { container := m.container, ruleIndex := m.ruleIndex } := by
  rw [matchLoops, scanContainers_eq, List.nil_append, matchContainers, List.map_filterMap]
  refine List.filterMap_congr fun c _ => ?_
  rw [List.findIdx?_eq_map_findFinIdx?_val, Option.map_map, Option.map_map]
  rfl

/-! ## What they select -/

/-- Some name contains the rule's text, which is not empty. -/
def Hits (names : List (List UInt8)) (rule : TargetRule) : Prop :=
  rule.nameMatch ≠ [] ∧ ∃ name ∈ names, rule.nameMatch <:+: name

/-- `r` is the index of the first rule that hits. -/
def ArmedBy (rules : List TargetRule) (names : List (List UInt8)) (r : Nat) : Prop :=
  (∃ rule, rules[r]? = some rule ∧ Hits names rule) ∧
    ∀ r' < r, ∀ rule, rules[r']? = some rule → ¬ Hits names rule

/-- The positions that are armed, in order, each with its rule. -/
structure Selection (containers : List Container) (rules : List TargetRule)
    (ps : List (Nat × Nat)) : Prop where
  increasing : Increasing ps
  mem : ∀ i r, (i, r) ∈ ps ↔ ∃ c, containers[i]? = some c ∧ ArmedBy rules c.names r

/-- The result holds the containers at these positions, as they are, with
these rules. -/
def Holds (containers : List Container) (ps : List (Nat × Nat)) (result : List ArmedContainer) :
    Prop :=
  List.Forall₂ (fun p m => ∃ c, containers[p.1]? = some c ∧
    m = { container := c, ruleIndex := p.2 }) ps result

/-- The first rule that hits, by the names alone. -/
def firstRule (rules : List TargetRule) (names : List (List UInt8)) : Option Nat :=
  rules.findIdx? fun rule => names.any fun name => containsSubstring name rule.nameMatch

theorem hits_iff {names : List (List UInt8)} {rule : TargetRule} :
    (names.any fun name => containsSubstring name rule.nameMatch) = true ↔ Hits names rule := by
  simp only [List.any_eq_true, containsSubstring_iff, Hits]
  grind

theorem firstRule_iff {rules : List TargetRule} {names : List (List UInt8)} {r : Nat} :
    firstRule rules names = some r ↔ ArmedBy rules names r := by
  rw [firstRule, List.findIdx?_eq_some_iff_getElem]
  constructor
  · rintro ⟨hr, hhit, hfirst⟩
    refine ⟨⟨rules[r], List.getElem?_eq_getElem hr, hits_iff.mp hhit⟩, fun r' hr' rule hrule => ?_⟩
    obtain ⟨_, rfl⟩ := List.getElem?_eq_some_iff.mp hrule
    exact fun hhit' => hfirst r' hr' (hits_iff.mpr hhit')
  · rintro ⟨⟨rule, hrule, hhit⟩, hfirst⟩
    obtain ⟨hr, rfl⟩ := List.getElem?_eq_some_iff.mp hrule
    refine ⟨hr, hits_iff.mpr hhit, fun j hj hhit' => ?_⟩
    exact hfirst j hj rules[j] (List.getElem?_eq_getElem _) (hits_iff.mp hhit')

/-- Only the names matter. -/
theorem selection_iff {containers : List Container} {rules : List TargetRule}
    {ps : List (Nat × Nat)} :
    Selection containers rules ps ↔
      ps = picks (firstRule rules) (containers.map Container.names) := by
  rw [picks_map, eq_picks_iff]
  simp only [firstRule_iff]
  exact ⟨fun h => ⟨h.increasing, h.mem⟩, fun h => ⟨h.1, h.2⟩⟩

theorem holds_picks (containers : List Container) (rules : List TargetRule) :
    Holds containers (picks (firstRule rules) (containers.map Container.names))
      (matchLoops containers rules) := by
  rw [picks_map, matchLoops, scanContainers_eq, List.nil_append]
  exact forall₂_picks (fun c : Container => firstRule rules c.names)
    (fun c r => ({ container := c, ruleIndex := r } : ArmedContainer)) containers

/-- Rules behind the others find only what these leave. -/
theorem firstRule_append {rules : List TargetRule} (more : List TargetRule)
    (names : List (List UInt8)) (r : Nat) (h : firstRule rules names = some r) :
    firstRule (rules ++ more) names = some r := by
  rw [firstRule] at h
  rw [firstRule, List.findIdx?_append, h, Option.some_or]

/-- **Matching arms exactly the right containers**, by their names alone: the
result is the selection, which containers that agree on the names share, and
which more rules at the end only add to. -/
theorem matchLoops_selects (containers : List Container) (rules : List TargetRule) :
    ∃ ps, Selection containers rules ps ∧ Holds containers ps (matchLoops containers rules) ∧
      (∀ p ∈ ps, p.2 < rules.length) ∧
      (∀ containers', containers'.map Container.names = containers.map Container.names →
        Selection containers' rules ps ∧ Holds containers' ps (matchLoops containers' rules)) ∧
      ∀ more, (matchLoops containers rules).Sublist (matchLoops containers (rules ++ more)) ∧
        ∃ ps', Selection containers (rules ++ more) ps' ∧
          Holds containers ps' (matchLoops containers (rules ++ more)) ∧ ps.Sublist ps' := by
  refine ⟨picks (firstRule rules) (containers.map Container.names), selection_iff.mpr rfl,
    holds_picks containers rules, ?_, fun containers' hnames => ?_, fun more => ⟨?_, ?_⟩⟩
  · rintro ⟨i, r⟩ hp
    obtain ⟨names, -, hr⟩ := mem_picks.mp hp
    obtain ⟨⟨rule, hrule, -⟩, -⟩ := firstRule_iff.mp hr
    exact (List.getElem?_eq_some_iff.mp hrule).1
  · rw [← hnames]
    exact ⟨selection_iff.mpr rfl, holds_picks containers' rules⟩
  · simp only [matchLoops, scanContainers_eq, List.nil_append]
    refine filterMap_sublist (fun c m hm => ?_) containers
    obtain ⟨r, hr, rfl⟩ := Option.map_eq_some_iff.mp hm
    have hmore := firstRule_append more c.names r hr
    exact Option.map_eq_some_iff.mpr ⟨r, hmore, rfl⟩
  · exact ⟨_, selection_iff.mpr rfl, holds_picks containers _,
      picks_sublist (firstRule_append more) _⟩

end ChaosForger
