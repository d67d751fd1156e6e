import Mathlib.Data.List.Basic

/-!
# Cuts

Byte streams that arrive in pieces.  A cut of a stream is a list of non-empty
pieces whose concatenation it is; the lemmas locate a position of the stream
in the pieces of a cut.
-/

namespace Cuts

variable {α : Type*}

/-- `ps` are non-empty pieces that make up `s`. -/
structure Cut (s : List α) (ps : List (List α)) : Prop where
  flatten : ps.flatten = s
  nonempty : ∀ d ∈ ps, d ≠ []

theorem Cut.tail {s : List α} {d : List α} {ps : List (List α)} (h : Cut s (d :: ps)) :
    Cut ps.flatten ps :=
  ⟨rfl, fun x hx => h.nonempty x (List.mem_cons_of_mem d hx)⟩

/-- The pieces behind some first pieces cut what is left of the stream. -/
theorem Cut.right {s : List α} {ps qs : List (List α)} (h : Cut s (ps ++ qs)) :
    Cut qs.flatten qs :=
  ⟨rfl, fun x hx => h.nonempty x (List.mem_append_right ps hx)⟩

/-- The cut into a single piece. -/
theorem cut_singleton {s : List α} (hs : s ≠ []) : Cut s [s] :=
  ⟨by simp, by simpa using hs⟩

theorem exists_cut (s : List α) : ∃ ps, Cut s ps := by
  by_cases hs : s = []
  · exact ⟨[], by simp [hs], by simp⟩
  · exact ⟨[s], cut_singleton hs⟩

/-- **Some piece reaches the end of a given front part**: the pieces before it
stay inside, and it carries the rest of the part and the bytes `b` behind it. -/
theorem exists_piece_reaching {front : List α} {ps : List (List α)} (hfront : front ≠ [])
    (h : front <+: ps.flatten) :
    ∃ pre d post b, ps = pre ++ d :: post ∧ pre.flatten ++ d = front ++ b ∧
      pre.flatten.length < front.length := by
  induction ps generalizing front with
  | nil => exact absurd (List.prefix_nil.mp h) hfront
  | cons d ps ih =>
      by_cases hd : front.length ≤ d.length
      · obtain ⟨b, hb⟩ := List.prefix_of_prefix_length_le h (by simp [List.flatten_cons]) hd
        exact ⟨[], d, ps, b, rfl, hb.symm, List.length_pos_of_ne_nil hfront⟩
      · have hdf : d <+: front :=
          List.prefix_of_prefix_length_le (by simp [List.flatten_cons]) h (by omega)
        obtain ⟨f, rfl⟩ := hdf
        rw [List.flatten_cons, List.prefix_append_right_inj] at h
        have hf : f ≠ [] := by
          rintro rfl
          simp at hd
        obtain ⟨pre, d', post, b, rfl, hb, hlen⟩ := ih hf h
        refine ⟨d :: pre, d', post, b, rfl, ?_, ?_⟩
        · rw [List.flatten_cons, List.append_assoc, hb, List.append_assoc]
        · simpa [List.flatten_cons] using hlen

/-- A front part of two texts is one of the first, or the first and a front
part of the second. -/
theorem prefix_append_cases {y a b : List α} (h : y <+: a ++ b) :
    (y <+: a ∧ y.length < a.length) ∨ ∃ y', y = a ++ y' ∧ y' <+: b := by
  by_cases hlen : y.length < a.length
  · exact .inl ⟨List.prefix_of_prefix_length_le h (List.prefix_append a b) (by omega), hlen⟩
  · obtain ⟨y', rfl⟩ := List.prefix_of_prefix_length_le (List.prefix_append a b) h (by omega)
    exact .inr ⟨y', rfl, (List.prefix_append_right_inj a).mp h⟩

/-- What the pieces bring behind the first `n` bytes, from the piece on that
reaches them. -/
def behind : Nat → List (List α) → List (List α)
  | _, [] => []
  | n, d :: ps => if d.length < n then behind (n - d.length) ps else d.drop n :: ps

theorem behind_eq {n : Nat} {pre post : List (List α)} {d : List α}
    (hpre : pre.flatten.length < n) (hd : n ≤ (pre.flatten ++ d).length) :
    behind n (pre ++ d :: post) = (pre.flatten ++ d).drop n :: post := by
  induction pre generalizing n with
  | nil => exact if_neg (Nat.not_lt.mpr hd)
  | cons c pre ih =>
      simp only [List.flatten_cons, List.length_append] at hpre hd
      have hc : c.length < n := by omega
      have hdrop : ((c :: pre).flatten ++ d).drop n = (pre.flatten ++ d).drop (n - c.length) := by
        rw [List.flatten_cons, List.append_assoc, List.drop_append, List.drop_eq_nil_of_le (by omega),
          List.nil_append]
      rw [List.cons_append, behind, if_pos hc, hdrop]
      exact ih (by omega) (by rw [List.length_append]; omega)

theorem behind_add (m n : Nat) (ps : List (List α)) :
    behind (m + n) ps = behind n (behind m ps) := by
  induction ps generalizing m with
  | nil => rfl
  | cons d ps ih =>
      rw [behind, behind]
      by_cases hm : d.length < m
      · rw [if_pos hm, if_pos (by omega), ← ih]
        congr 1
        omega
      · rw [if_neg hm, behind, List.length_drop]
        by_cases hn : d.length < m + n
        · rw [if_pos hn, if_pos (by omega)]
          congr 1
          omega
        · rw [if_neg hn, if_neg (by omega), List.drop_drop]

end Cuts
