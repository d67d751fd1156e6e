import Mathlib.Data.List.Forall2
import Mathlib.Data.List.Sort

/-!
# Picks

What a partial function finds in a list, with the positions it finds it at.

`picks f l` has one pair for each position whose element `f` accepts, in the
order of the list.  These pairs are determined by being in order and by which
pairs there are (`eq_picks_iff`), and `l.filterMap` is what they stand for
(`forall₂_picks`).
-/

namespace Picks

variable {α : Type u} {β : Type v} {γ : Type w}

def picks (f : α → Option β) (l : List α) : List (Nat × β) :=
  l.zipIdx.filterMap fun x => (f x.1).map (x.2, ·)

/-- The first components increase. -/
def Increasing (ps : List (Nat × β)) : Prop := ps.Pairwise fun p q => p.1 < q.1

theorem mem_picks {f : α → Option β} {l : List α} {i : Nat} {b : β} :
    (i, b) ∈ picks f l ↔ ∃ a, l[i]? = some a ∧ f a = some b := by
  simp only [picks, List.mem_filterMap, List.mem_zipIdx_iff_getElem?]
  constructor
  · rintro ⟨⟨a, j⟩, ha, hb⟩
    obtain ⟨b', hb', heq⟩ := Option.map_eq_some_iff.mp hb
    obtain ⟨rfl, rfl⟩ := Prod.mk.inj heq
    exact ⟨a, ha, hb'⟩
  · rintro ⟨a, ha, hb⟩
    exact ⟨(a, i), ha, by simp [hb]⟩

theorem increasing_picks (f : α → Option β) (l : List α) : Increasing (picks f l) := by
  have hindex : l.zipIdx.Pairwise fun x y => x.2 < y.2 := by
    rw [← List.pairwise_map, List.zipIdx_map_snd]
    exact List.pairwise_lt_range'
  refine List.Pairwise.filterMap _ (fun x y hxy p hp q hq => ?_) hindex
  obtain ⟨b, -, rfl⟩ := Option.map_eq_some_iff.mp hp
  obtain ⟨c, -, rfl⟩ := Option.map_eq_some_iff.mp hq
  exact hxy

/-- **Order and membership say which list it is.** -/
theorem eq_of_increasing {ps qs : List (Nat × β)} (hp : Increasing ps) (hq : Increasing qs)
    (h : ∀ i b, (i, b) ∈ ps ↔ (i, b) ∈ qs) : ps = qs := by
  have : Std.Irrefl fun p q : Nat × β => p.1 < q.1 := ⟨fun p => Nat.lt_irrefl p.1⟩
  have : Std.Antisymm fun p q : Nat × β => p.1 < q.1 :=
    ⟨fun p q hpq hqp => absurd hpq (Nat.lt_asymm hqp)⟩
  exact hp.eq_of_mem_iff hq fun p => h p.1 p.2

theorem eq_picks_iff {f : α → Option β} {l : List α} {ps : List (Nat × β)} :
    ps = picks f l ↔
      Increasing ps ∧ ∀ i b, (i, b) ∈ ps ↔ ∃ a, l[i]? = some a ∧ f a = some b := by
  constructor
  · rintro rfl
    exact ⟨increasing_picks f l, fun i b => mem_picks⟩
  · rintro ⟨hps, hmem⟩
    exact eq_of_increasing hps (increasing_picks f l) fun i b => (hmem i b).trans mem_picks.symm

/-- Only what the function sees of an element matters. -/
theorem picks_map (f : β → Option γ) (g : α → β) (l : List α) :
    picks f (l.map g) = picks (fun a => f (g a)) l := by
  simp only [picks, List.zipIdx_map, List.filterMap_map]
  rfl

/-- The elements `f` accepts, as the picks stand for them. -/
theorem forall₂_picks (f : α → Option β) (k : α → β → γ) (l : List α) :
    List.Forall₂ (fun p c => ∃ a, l[p.1]? = some a ∧ c = k a p.2) (picks f l)
      (l.filterMap fun a => (f a).map (k a)) := by
  have hvalue : (l.filterMap fun a => (f a).map (k a)) =
      l.zipIdx.filterMap fun x => (f x.1).map (k x.1) := by
    conv_lhs => rw [← List.zipIdx_map_fst 0 l, List.filterMap_map]
    rfl
  have hboth : ∀ xs : List (α × Nat), (∀ x ∈ xs, l[x.2]? = some x.1) →
      List.Forall₂ (fun (p : Nat × β) c => ∃ a, l[p.1]? = some a ∧ c = k a p.2)
        (xs.filterMap fun x => (f x.1).map (x.2, ·)) (xs.filterMap fun x => (f x.1).map (k x.1)) := by
    intro xs hxs
    induction xs with
    | nil => exact .nil
    | cons x xs ih =>
        have hrest := ih fun y hy => hxs y (List.mem_cons_of_mem x hy)
        cases hx : f x.1 with
        | none => simpa [hx] using hrest
        | some b => simpa [hx] using ⟨⟨x.1, hxs x List.mem_cons_self, rfl⟩, hrest⟩
  rw [hvalue]
  exact hboth l.zipIdx fun x => List.mem_zipIdx_iff_getElem?.mp

theorem filterMap_sublist {f g : α → Option β} (h : ∀ a b, f a = some b → g a = some b)
    (l : List α) : (l.filterMap f).Sublist (l.filterMap g) := by
  induction l with
  | nil => exact .slnil
  | cons a l ih =>
      cases hf : f a with
      | some b => rw [List.filterMap_cons_some hf, List.filterMap_cons_some (h a b hf)]; exact ih.cons_cons b
      | none =>
          rw [List.filterMap_cons_none hf, List.filterMap_cons]
          split
          · exact ih
          · exact ih.cons _

/-- A function that accepts more, with the same results, keeps every pick. -/
theorem picks_sublist {f g : α → Option β} (h : ∀ a b, f a = some b → g a = some b) (l : List α) :
    (picks f l).Sublist (picks g l) := by
  refine filterMap_sublist (fun x p hp => ?_) _
  obtain ⟨b, hb, rfl⟩ := Option.map_eq_some_iff.mp hp
  rw [h _ b hb, Option.map_some]

end Picks
