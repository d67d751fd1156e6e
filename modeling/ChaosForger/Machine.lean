/-!
# Machine

Deterministic machines driven by a list of inputs: reachable states, the
invariant rule, and a bound on the length of runs.

The bound is for machines that make progress on every input but some marked
ones: a potential that grows with each unmarked input of a live run, and is
bounded as long as the run is live, leaves room for only so many inputs
between two marked ones.
-/

namespace Machine

variable {σ : Type u} {ι : Type v}

/-- The states some inputs lead to from `init`. -/
inductive Reachable (step : σ → ι → σ) (init : σ) : σ → Prop where
  | init : Reachable step init init
  | step {s : σ} (i : ι) : Reachable step init s → Reachable step init (step s i)

/-- **The invariant rule.** -/
theorem Reachable.invariant {step : σ → ι → σ} {init s : σ} {P : σ → Prop}
    (hinit : P init) (hstep : ∀ s i, P s → P (step s i)) (h : Reachable step init s) : P s := by
  induction h with
  | init => exact hinit
  | step i _ ih => exact hstep _ i ih

/-- A run from a reachable state ends in one. -/
theorem Reachable.foldl {step : σ → ι → σ} {init s : σ} (h : Reachable step init s)
    (is : List ι) : Reachable step init (is.foldl step s) := by
  induction is generalizing s with
  | nil => exact h
  | cons i is ih => exact ih (h.step i)

/-- How many inputs of a run are marked in the state that takes them. -/
def countMarked (step : σ → ι → σ) (marked : σ → ι → Bool) : σ → List ι → Nat
  | _, [] => 0
  | s, i :: is => (if marked s i then 1 else 0) + countMarked step marked (step s i) is

theorem countMarked_append (step : σ → ι → σ) (marked : σ → ι → Bool) (s : σ) (is js : List ι) :
    countMarked step marked s (is ++ js) =
      countMarked step marked s is + countMarked step marked (is.foldl step s) js := by
  induction is generalizing s with
  | nil => simp [countMarked]
  | cons i is ih => simp only [List.cons_append, countMarked, ih, List.foldl_cons, Nat.add_assoc]

section Potential

variable {step : σ → ι → σ} {marked : σ → ι → Bool} (Inv Live : σ → Prop) (Ok : ι → Prop)
  (potential : σ → Nat) {bound : Nat}

/-- **A live run is no longer than the bound allows between marked inputs.** -/
theorem length_lt_of_potential
    (hinv : ∀ s i, Inv s → Inv (step s i))
    (hdead : ∀ s i, ¬ Live s → ¬ Live (step s i))
    (hbound : ∀ s, Inv s → Live s → potential s < bound)
    (hprogress : ∀ s i, Inv s → Ok i → Live (step s i) → marked s i = false →
      potential s < potential (step s i))
    {s : σ} (hs : Inv s) {is : List ι} (hok : ∀ i ∈ is, Ok i) (hlive : Live (is.foldl step s)) :
    is.length < bound * (countMarked step marked s is + 1) := by
  have hback : ∀ {s : σ} {is : List ι}, Live (is.foldl step s) → Live s := by
    intro s is
    induction is generalizing s with
    | nil => exact id
    | cons i is ih =>
        intro h
        exact Classical.byContradiction fun hn => hdead s i hn (ih h)
  suffices h : is.length + potential s ≤
      potential (is.foldl step s) + bound * countMarked step marked s is by
    have hinv' : ∀ {s : σ} (is : List ι), Inv s → Inv (is.foldl step s) := by
      intro s is
      induction is generalizing s with
      | nil => exact id
      | cons i is ih => exact fun h => ih (hinv s i h)
    have := hbound _ (hinv' is hs) hlive
    rw [Nat.mul_add]
    omega
  induction is generalizing s with
  | nil => simp [countMarked]
  | cons i is ih =>
      have hrest := ih (hinv s i hs) (fun j hj => hok j (List.mem_cons_of_mem i hj)) hlive
      have hnext : Live (step s i) := hback hlive
      rw [List.foldl_cons, countMarked, List.length_cons, Nat.mul_add]
      by_cases hm : marked s i = true
      · have hhere : Live s := hback (show Live ((i :: is).foldl step s) from hlive)
        have hlt := hbound s hs hhere
        rw [if_pos hm]
        omega
      · rw [Bool.not_eq_true] at hm
        have hlt := hprogress s i hs (hok i List.mem_cons_self) hnext hm
        rw [hm]
        simp only [Bool.false_eq_true, if_false]
        omega

end Potential

end Machine
