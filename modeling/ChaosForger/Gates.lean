import Mathlib.Data.List.Basic

/-!
# Gates

Traces of events in which every marked event needs a gate of its own: a gate
event opens the way for one marked event, which closes it again.  Where no
gate is passed any more, at most one marked event is left.
-/

namespace Gates

variable {ε : Type u} (gate marked : ε → Bool)

/-- Each marked event has a gate between it and the one before; `opened` says
whether a gate stands open at the start. -/
def Gated : Bool → List ε → Prop
  | _, [] => True
  | opened, e :: es =>
      if marked e then opened = true ∧ Gated false es else Gated (opened || gate e) es

/-- Whether a gate stands open at the end. -/
def openAfter : Bool → List ε → Bool
  | opened, [] => opened
  | opened, e :: es => openAfter (if marked e then false else opened || gate e) es

variable {gate marked}

theorem gated_append {opened : Bool} {xs ys : List ε} :
    Gated gate marked opened (xs ++ ys) ↔
      Gated gate marked opened xs ∧ Gated gate marked (openAfter gate marked opened xs) ys := by
  induction xs generalizing opened with
  | nil => simp [Gated, openAfter]
  | cons e es ih =>
      rw [List.cons_append, Gated, Gated, openAfter]
      by_cases hm : marked e = true
      · simp only [hm, if_true, ih, and_assoc]
      · simp only [hm, if_false, ih, Bool.false_eq_true]

/-- What may follow a closed gate may follow an open one. -/
theorem Gated.of_closed {opened : Bool} {es : List ε} (h : Gated gate marked false es) :
    Gated gate marked opened es := by
  induction es generalizing opened with
  | nil => trivial
  | cons e es ih =>
      rw [Gated] at h ⊢
      by_cases hm : marked e = true
      · rw [if_pos hm] at h
        exact absurd h.1 (by simp)
      · rw [if_neg hm] at h ⊢
        cases opened with
        | false => exact h
        | true =>
            rw [Bool.true_or]
            rw [Bool.false_or] at h
            cases hg : gate e with
            | true => rwa [hg] at h
            | false =>
                rw [hg] at h
                exact ih h

theorem openAfter_concat_marked {opened : Bool} {xs : List ε} {e : ε} (hm : marked e = true) :
    openAfter gate marked opened (xs ++ [e]) = false := by
  induction xs generalizing opened with
  | nil => simp [openAfter, hm]
  | cons x xs ih => exact ih

/-- **Without gates at most one marked event is left**, and none when the way
is closed. -/
theorem countP_le_of_gated {opened : Bool} {es : List ε} (h : Gated gate marked opened es)
    (hg : ∀ e ∈ es, gate e = false) : es.countP marked ≤ opened.toNat := by
  induction es generalizing opened with
  | nil => exact Nat.zero_le _
  | cons e es ih =>
      have hrest : ∀ x ∈ es, gate x = false := fun x hx => hg x (List.mem_cons_of_mem e hx)
      rw [Gated] at h
      by_cases hm : marked e = true
      · rw [if_pos hm] at h
        have hle := ih h.2 hrest
        rw [List.countP_cons_of_pos hm, h.1]
        exact Nat.succ_le_succ hle
      · rw [if_neg hm, hg e List.mem_cons_self, Bool.or_false] at h
        rw [List.countP_cons_of_neg hm]
        exact ih h hrest

end Gates
