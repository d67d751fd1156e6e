/-!
# Transitions

Runs of a transition relation with labelled steps.

A run carries its history: each event, with the state it happened in.  The
rules are the invariant rule, the relation that every later state has to every
earlier one, the cut of a run at one of its events, and the event that brings
about what holds at the end only.
-/

namespace Transitions

variable {σ : Type u} {ε : Type v}

/-- The runs from `init`, with their history and the state they end in. -/
inductive Run (Step : σ → ε → σ → Prop) (init : σ) : List (σ × ε) → σ → Prop where
  | nil : Run Step init [] init
  | snoc {h : List (σ × ε)} {s s' : σ} {e : ε} :
      Run Step init h s → Step s e s' → Run Step init (h ++ [(s, e)]) s'

/-- The states a run goes through, the last one included. -/
def visited (h : List (σ × ε)) (s : σ) : List σ := h.map Prod.fst ++ [s]

@[simp] theorem visited_nil (s : σ) : visited ([] : List (σ × ε)) s = [s] := rfl

theorem visited_snoc (h : List (σ × ε)) (s s' : σ) (e : ε) :
    visited (h ++ [(s, e)]) s' = visited h s ++ [s'] := by
  simp [visited]

variable {Step : σ → ε → σ → Prop} {init s : σ} {h : List (σ × ε)}

/-- **The invariant rule.** -/
theorem Run.invariant {P : σ → Prop} (hinit : P init)
    (hstep : ∀ s e s', P s → Step s e s' → P s') (hrun : Run Step init h s) : P s := by
  induction hrun with
  | nil => exact hinit
  | snoc _ hs ih => exact hstep _ _ _ ih hs

/-- **The order rule**: what a step keeps of the state before it, a run keeps
of every earlier state. -/
theorem Run.pairwise {R : σ → σ → Prop} (hrefl : ∀ s, R s s)
    (htrans : ∀ a b c, R a b → R b c → R a c)
    (hstep : ∀ h s e s', Run Step init h s → Step s e s' → R s s')
    (hrun : Run Step init h s) : (visited h s).Pairwise R ∧ ∀ a ∈ visited h s, R a s := by
  induction hrun with
  | nil => simp [hrefl]
  | @snoc h s s' e hrun hs ih =>
      have hlast : ∀ a ∈ visited h s, R a s' := fun a ha =>
        htrans a s s' (ih.2 a ha) (hstep h s e s' hrun hs)
      rw [visited_snoc, List.pairwise_append]
      refine ⟨⟨ih.1, List.pairwise_singleton R s', by simpa using hlast⟩, fun a ha => ?_⟩
      obtain ha | ha := List.mem_append.mp ha
      · exact hlast a ha
      · rw [List.mem_singleton.mp ha]
        exact hrefl s'

/-- **A run cut at one of its events.** -/
theorem Run.cut {front back : List (σ × ε)} {s₀ : σ} {e : ε}
    (hrun : Run Step init (front ++ (s₀, e) :: back) s) :
    ∃ s₁, Run Step init front s₀ ∧ Step s₀ e s₁ ∧ Run Step s₁ back s := by
  generalize hh : front ++ (s₀, e) :: back = h at hrun
  induction hrun generalizing back with
  | nil => simp at hh
  | @snoc h s s' e' hrun hs ih =>
      obtain rfl | ⟨back, x, rfl⟩ := List.eq_nil_or_concat back
      · obtain ⟨rfl, hx⟩ := List.append_inj' hh rfl
        obtain ⟨rfl, rfl⟩ := Prod.mk.inj (List.cons.inj hx).1
        exact ⟨s', hrun, hs, .nil⟩
      · rw [List.concat_eq_append] at hh ⊢
        rw [← List.cons_append, ← List.append_assoc] at hh
        obtain ⟨hcut, hx⟩ := List.append_inj' hh rfl
        obtain rfl := (List.cons.inj hx).1
        obtain ⟨s₁, hfront, hs₁, hback⟩ := ih hcut
        exact ⟨s₁, hfront, hs₁, hback.snoc hs⟩

/-- **What holds at the end and not at the start was brought by an event.** -/
theorem Run.exists_event {P : σ → Prop} {E : ε → Prop} (hinit : ¬ P init)
    (hstep : ∀ s e s', Step s e s' → P s' → P s ∨ E e) (hrun : Run Step init h s) (hs : P s) :
    ∃ s₀ e, (s₀, e) ∈ h ∧ E e := by
  induction hrun with
  | nil => exact absurd hs hinit
  | @snoc h s s' e hrun hse ih =>
      obtain hbefore | he := hstep s e s' hse hs
      · obtain ⟨s₀, e₀, hmem, he₀⟩ := ih hbefore
        exact ⟨s₀, e₀, List.mem_append_left _ hmem, he₀⟩
      · exact ⟨s, e, by simp, he⟩

end Transitions
