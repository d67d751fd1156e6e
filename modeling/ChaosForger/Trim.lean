import Mathlib.Data.List.TakeWhile

/-!
# Trim

Stripping blanks from both ends of a list, over any kind of blank, and the
relation between a list and what is left of it.
-/

namespace Trim

variable {α : Type*} (blank : α → Bool)

/-- The list without the blanks at its ends. -/
def trim (s : List α) : List α := ((s.dropWhile blank).reverse.dropWhile blank).reverse

/-- `s` is `core` with blanks around it, and `core` neither starts nor ends in one. -/
structure Trims (s core : List α) : Prop where
  around : ∃ before after, s = before ++ (core ++ after) ∧ before.all blank = true ∧
    after.all blank = true
  head : ∀ c ∈ core.head?, blank c = false
  last : ∀ c ∈ core.getLast?, blank c = false

variable {blank}

theorem dropWhile_of_head {s : List α} (h : ∀ c ∈ s.head?, blank c = false) :
    s.dropWhile blank = s := by
  cases s with
  | nil => rfl
  | cons c r => rw [List.dropWhile_cons_of_neg]; simpa using h c

theorem dropWhile_of_all {s : List α} (h : s.all blank = true) : s.dropWhile blank = [] := by
  rw [List.dropWhile_eq_nil_iff]
  exact fun c hc => List.all_eq_true.mp h c hc

theorem head_dropWhile (s : List α) : ∀ c ∈ (s.dropWhile blank).head?, blank c = false := by
  intro c hc
  have h := List.head?_dropWhile_not blank s
  rw [Option.mem_def.mp hc] at h
  exact h

theorem trims_trim (s : List α) : Trims blank s (trim blank s) := by
  have hback : s.dropWhile blank =
      trim blank s ++ ((s.dropWhile blank).reverse.takeWhile blank).reverse := by
    have h := congrArg List.reverse
      (List.takeWhile_append_dropWhile (p := blank) (l := (s.dropWhile blank).reverse))
    rw [List.reverse_append, List.reverse_reverse] at h
    exact h.symm
  refine ⟨⟨s.takeWhile blank, ((s.dropWhile blank).reverse.takeWhile blank).reverse, ?_, ?_, ?_⟩,
    ?_, ?_⟩
  · rw [← hback, List.takeWhile_append_dropWhile]
  · simp
  · rw [List.all_reverse, List.all_eq_true]
    exact fun c hc => List.mem_takeWhile_imp hc
  · intro c hc
    refine head_dropWhile s c ?_
    rw [hback]
    cases htrim : trim blank s with
    | nil => simp [htrim] at hc
    | cons d r => simpa [htrim] using hc
  · intro c hc
    rw [trim, List.getLast?_reverse] at hc
    exact head_dropWhile _ c hc

theorem all_of_trim_eq_nil {s : List α} (h : trim blank s = []) : s.all blank = true := by
  have htrims : Trims blank s (trim blank s) := trims_trim s
  obtain ⟨before, after, hs, hbefore, hafter⟩ := htrims.around
  rw [hs, h, List.nil_append, List.all_append, hbefore, hafter]
  rfl

/-- **What is left is determined.** -/
theorem trims_iff {s core : List α} : Trims blank s core ↔ core = trim blank s := by
  constructor
  · rintro ⟨⟨before, after, rfl, hbefore, hafter⟩, hhead, hlast⟩
    have hfront : (before ++ (core ++ after)).dropWhile blank = (core ++ after).dropWhile blank :=
      List.dropWhile_append_of_pos fun c hc => List.all_eq_true.mp hbefore c hc
    by_cases hcore : core = []
    · rw [trim, hfront, hcore, List.nil_append, dropWhile_of_all hafter]
      rfl
    · have hkeep : (core ++ after).dropWhile blank = core ++ after := by
        apply dropWhile_of_head
        obtain ⟨d, r, rfl⟩ := List.exists_cons_of_ne_nil hcore
        simpa using hhead
      have hrev : core.reverse.dropWhile blank = core.reverse :=
        dropWhile_of_head (by simpa using hlast)
      rw [trim, hfront, hkeep, List.reverse_append,
        List.dropWhile_append_of_pos fun c hc =>
          List.all_eq_true.mp hafter c (List.mem_reverse.mp hc),
        hrev, List.reverse_reverse]
  · rintro rfl
    exact trims_trim s

end Trim
