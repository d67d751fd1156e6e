import Mathlib.Algebra.Order.Group.Defs
import Mathlib.Algebra.Order.Monoid.NatCast
import Mathlib.Tactic.Linarith
import Mathlib.Tactic.GCongr

/-!
# Pacing

Admissions under a moving deadline: an event is admitted when the deadline has
passed, and the deadline then moves on by at least one interval and past the
admission.  However late the admissions are, the `k`-th one is not before `k`
intervals have gone by (`Paced.spacing`), and every two of them span one
(`Paced.catchUp`): a delay is made up for once, and never by a burst.
-/

/-- Admission times under deadlines that start at `t₀`, and the next deadline. -/
inductive Paced {α : Type u} [AddCommGroup α] [LinearOrder α] (t₀ interval : α) :
    List α → α → Prop where
  | start : Paced t₀ interval [] t₀
  | admission {as : List α} {next next' a : α} : Paced t₀ interval as next →
      next ≤ a → next + interval ≤ next' → a ≤ next' → Paced t₀ interval (as ++ [a]) next'

namespace Paced

theorem getElem?_concat {α : Type u} {as : List α} {a b : α} {k : Nat} (h : (as ++ [a])[k]? = some b) :
    as[k]? = some b ∨ k = as.length ∧ b = a := by
  rcases Nat.lt_or_ge k as.length with hk | hk
  · exact .inl (by rwa [List.getElem?_append_left hk] at h)
  · rw [List.getElem?_append_right hk, List.getElem?_singleton] at h
    split at h
    · exact .inr ⟨by omega, (Option.some.inj h).symm⟩
    · contradiction

variable {α : Type u} [AddCommGroup α] [LinearOrder α] [IsOrderedAddMonoid α]
  {t₀ interval next : α} {as : List α}

/-- Every admission moves the deadline by an interval. -/
theorem deadline (h : Paced t₀ interval as next) : t₀ + as.length • interval ≤ next := by
  induction h with
  | start => simp
  | @admission as next next' a _ _ hmove _ ih =>
      calc t₀ + (as ++ [a]).length • interval
          = t₀ + as.length • interval + interval := by
            simp only [List.length_append, List.length_singleton, succ_nsmul, add_assoc]
        _ ≤ next + interval := by gcongr
        _ ≤ next' := hmove

/-- **The `k`-th admission comes after `k` intervals.** -/
theorem spacing (h : Paced t₀ interval as next) {k : Nat} {a : α} (hk : as[k]? = some a) :
    t₀ + k • interval ≤ a := by
  induction h with
  | start => simp at hk
  | @admission as next next' b hp hdue _ _ ih =>
      rcases getElem?_concat hk with hk | ⟨rfl, rfl⟩
      · exact ih hk
      · exact hp.deadline.trans hdue

omit [IsOrderedAddMonoid α] in
/-- The last admission is not after the next deadline. -/
theorem le_deadline (h : Paced t₀ interval as next) {k : Nat} {a : α} (hk : as[k]? = some a)
    (hlast : as.length = k + 1) : a ≤ next := by
  cases h with
  | start => simp at hk
  | @admission as _ _ b _ _ _ hle =>
      rcases getElem?_concat hk with hk | ⟨-, rfl⟩
      · have hlt := (List.getElem?_eq_some_iff.mp hk).1
        simp only [List.length_append, List.length_singleton] at hlast
        omega
      · exact hle

/-- The one before it is an interval earlier. -/
theorem add_le_deadline (h : Paced t₀ interval as next) {k : Nat} {a : α} (hk : as[k]? = some a)
    (hlast : as.length = k + 2) : a + interval ≤ next := by
  cases h with
  | start => simp at hk
  | @admission as next' _ b hp _ hmove _ =>
      simp only [List.length_append, List.length_singleton] at hlast
      rcases getElem?_concat hk with hk | ⟨rfl, -⟩
      · calc a + interval ≤ next' + interval := by
              gcongr
              exact hp.le_deadline hk (by omega)
          _ ≤ next := hmove
      · omega

/-- **A delay is made up for once**: any admission but one spans an interval. -/
theorem catchUp (h : Paced t₀ interval as next) {k : Nat} {a b : α} (hk : as[k]? = some a)
    (hk' : as[k + 2]? = some b) : a + interval ≤ b := by
  induction h with
  | start => simp at hk
  | @admission as next next' c hp hdue _ _ ih =>
      rcases getElem?_concat hk' with hk' | ⟨hlen, rfl⟩
      · have hlt := (List.getElem?_eq_some_iff.mp hk').1
        rw [List.getElem?_append_left (by omega)] at hk
        exact ih hk hk'
      · rw [List.getElem?_append_left (by omega)] at hk
        exact (hp.add_le_deadline hk hlen.symm).trans hdue

/-- **So many admissions fit into a time**: one at its start and one for each
whole interval. -/
theorem countP_le {t₀ interval next : ℤ} {as : List ℤ} (h : Paced t₀ interval as next)
    (hpos : 0 < interval) {t : ℤ} (ht : t₀ ≤ t) :
    (as.countP (· ≤ t) : ℤ) ≤ (t - t₀) / interval + 1 := by
  induction h with
  | start =>
      have hquot : 0 ≤ (t - t₀) / interval := Int.ediv_nonneg (by omega) hpos.le
      simp only [List.countP_nil, Nat.cast_zero]
      omega
  | @admission as next next' a hp hdue _ _ ih =>
      rw [List.countP_append, List.countP_singleton]
      by_cases ha : a ≤ t
      · have hle := hp.deadline.trans (hdue.trans ha)
        rw [nsmul_eq_mul] at hle
        have hquot : (as.length : ℤ) ≤ (t - t₀) / interval :=
          (Int.le_ediv_iff_mul_le hpos).mpr (by linarith)
        have hcount : as.countP (· ≤ t) ≤ as.length := List.countP_le_length
        simp only [ha, decide_true, if_true]
        omega
      · simpa [ha] using ih

end Paced
