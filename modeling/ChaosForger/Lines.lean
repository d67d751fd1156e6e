import Mathlib.Data.List.Infix

/-!
# Lines

Streams of terminated lines: lists that do not hold the terminator, written
one after the other, each with the terminator behind it.  The lines are found
again, also when the stream ends in the middle of one (`complete_render`).
-/

namespace Lines

variable {α : Type u}

/-- The lines, each with the terminator behind it. -/
def render (x : α) (ls : List (List α)) : List α := ls.flatMap (· ++ [x])

/-- The terminated lines of a stream. -/
def complete [BEq α] (x : α) (s : List α) : List (List α) := (s.splitOn x).dropLast

@[simp] theorem render_nil (x : α) : render x [] = [] := rfl

theorem render_cons (x : α) (l : List α) (ls : List (List α)) :
    render x (l :: ls) = l ++ x :: render x ls := by
  simp [render]

theorem render_append (x : α) (ls ms : List (List α)) :
    render x (ls ++ ms) = render x ls ++ render x ms := List.flatMap_append

theorem render_singleton (x : α) (l : List α) : render x [l] = l ++ [x] := by
  simp [render]

variable [BEq α] [LawfulBEq α]

theorem splitOn_append_cons {l : List α} {x : α} (h : x ∉ l) (r : List α) :
    (l ++ x :: r).splitOn x = l :: r.splitOn x := by
  rw [List.splitOn_eq_splitOnP, List.splitOnP_append_cons_of_forall_mem _ _ (by simp),
    List.splitOn_eq_splitOnP]
  intro y hy
  exact beq_eq_false_iff_ne.mpr fun hyx => h (hyx ▸ hy)

/-- **The lines are found again**, and what stands behind the last of them is
not taken for one. -/
theorem complete_render {x : α} {ls : List (List α)} (h : ∀ l ∈ ls, x ∉ l) {rest : List α}
    (hrest : x ∉ rest) : complete x (render x ls ++ rest) = ls := by
  induction ls with
  | nil =>
      rw [complete, render_nil, List.nil_append, List.splitOn_eq_singleton hrest]
      rfl
  | cons l ls ih =>
      have hrec := ih fun m hm => h m (List.mem_cons_of_mem l hm)
      rw [complete] at hrec
      rw [complete, render_cons, List.append_assoc, List.cons_append,
        splitOn_append_cons (h l List.mem_cons_self), List.dropLast_cons_of_ne_nil
          (List.splitOn_ne_nil x _), hrec]

end Lines
