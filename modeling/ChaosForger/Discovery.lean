import ChaosForger.Docker
import ChaosForger.Search

/-!
# ChaosForger.Discovery

Container discovery matching: rules match container names by substring, and
the first matching rule arms the container.
-/

namespace ChaosForger

open Search

/-- Case-sensitive substring test.  An empty needle never matches. -/
def containsSubstring (haystack needle : List UInt8) : Bool :=
  if needle = [] then false else (find needle haystack).isSome

/-- A container that matched one of the configured rules. -/
structure MatchedContainer (rules : List TargetRule) where
  container : Container
  ruleIndex : Fin rules.length
  deriving DecidableEq, Repr

/-- The rule that armed the container. -/
def MatchedContainer.rule {rules : List TargetRule} (m : MatchedContainer rules) : TargetRule :=
  rules[m.ruleIndex]

/-- Some name of the container contains the rule's text. -/
def hit (c : Container) (rule : TargetRule) : Bool :=
  c.names.any fun name => containsSubstring name rule.nameMatch

/-- Apply the rules to a discovered container list: one entry per container
that some rule hits, for the first such rule. -/
def matchContainers (containers : List Container) (rules : List TargetRule) :
    List (MatchedContainer rules) :=
  containers.filterMap fun c =>
    (rules.findFinIdx? (hit c)).map fun r => { container := c, ruleIndex := r }

theorem containsSubstring_iff {haystack needle : List UInt8} :
    containsSubstring haystack needle = true ↔ needle ≠ [] ∧ needle <:+: haystack := by
  unfold containsSubstring
  by_cases h : needle = []
  · simp [h]
  · simp [h, Option.isSome_iff_ne_none, find_eq_none_iff]

variable {containers : List Container} {rules : List TargetRule}

/-- **The first rule that hits a container arms it.** -/
theorem mem_matchContainers {m : MatchedContainer rules} :
    m ∈ matchContainers containers rules ↔
      m.container ∈ containers ∧ hit m.container m.rule = true ∧
        ∀ r < m.ruleIndex, hit m.container rules[r] = false := by
  unfold matchContainers
  rw [List.mem_filterMap]
  constructor
  · rintro ⟨c, hc, hm⟩
    obtain ⟨r, hr, rfl⟩ := Option.map_eq_some_iff.mp hm
    rw [List.findFinIdx?_eq_some_iff] at hr
    refine ⟨hc, hr.1, fun j hj => ?_⟩
    simpa using hr.2 j hj
  · rintro ⟨hc, hhit, hfirst⟩
    refine ⟨m.container, hc, Option.map_eq_some_iff.mpr ⟨m.ruleIndex, ?_, rfl⟩⟩
    rw [List.findFinIdx?_eq_some_iff]
    exact ⟨hhit, fun j hj => by simpa using hfirst j hj⟩

end ChaosForger
