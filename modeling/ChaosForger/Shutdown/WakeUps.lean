import ChaosForger.Shutdown.Concurrent

/-!
# ChaosForger.Shutdown.WakeUps

No wake-up is lost: the flag goes up under the mutex under which a waiter
looks at it, and a waiter gives the mutex up only as it enters the wait set.
So whoever is in the wait set when the flag goes up is there for a
`notify_all` that is still to come, and nobody enters it later.
-/

namespace ChaosForger

open Transitions

namespace Shutdown

variable {T : Type u} {s s' : Shared T} {e : Event T} {t u : T} {h : List (Shared T × Event T)}

/-- The thread is blocked in the condition variable, and no wake-up has
reached it. -/
def Blocked (s : Shared T) (t : T) : Prop := s.pc t = .blocked ∧ t ∈ s.waiting

/-- The thread has set the flag and has not called `notify_all` since. -/
def Owes (h : List (Shared T × Event T)) (u : T) : Prop :=
  ∃ front s₀ reason back, h = front ++ (s₀, .exchange u reason) :: back ∧
    ∀ x ∈ back, x.2 ≠ .notifyAll u

theorem Owes.snoc (howes : Owes h u) (he : e ≠ .notifyAll u) : Owes (h ++ [(s, e)]) u := by
  obtain ⟨front, s₀, reason, back, rfl, hback⟩ := howes
  refine ⟨front, s₀, reason, back ++ [(s, e)], by simp, fun x hx => ?_⟩
  obtain hx | hx := List.mem_append.mp hx
  · exact hback x hx
  · simpa [List.mem_singleton.mp hx] using he

variable [DecidableEq T]

/-! ## What one step does -/

theorem announcing_step (h : Step s e s') (hu : (s.pc u).Announcing) (he : e ≠ .notifyAll u) :
    (s'.pc u).Announcing := by
  cases h with
  | wake | stopRequested | reason => exact hu
  | _ =>
      simp only [goto_pc]
      grind [Pc.Announcing]

/-- Only a waiter that blocks lengthens the wait set. -/
theorem waiting_step (h : Step s e s') (hs : s.waiting = []) :
    s'.waiting = [] ∨ ∃ t, e = .block t := by
  cases h with
  | block => exact .inr ⟨_, rfl⟩
  | _ => simp_all

/-- A thread blocks only while the flag is down. -/
theorem state_of_block (hs : Inv s) (h : Step s (.block t) s') : s'.state = false := by
  cases h with
  | block ht => exact hs.asleep t ht

/-- Once the flag is up, an empty wait set stays empty. -/
theorem quiet_step (hs : Inv s) (h : Step s e s') (hq : s.state = true ∧ s.waiting = []) :
    s'.state = true ∧ s'.waiting = [] := by
  have hup := state_step h hq.1
  refine ⟨hup, (waiting_step h hq.2).resolve_right ?_⟩
  rintro ⟨t, rfl⟩
  exact Bool.false_ne_true ((state_of_block hs h).symm.trans hup)

/-! ## What holds in every run -/

theorem quiet_run {init : Shared T} (hrun : Run Step init h s) (hinit : Inv init)
    (hq : init.state = true ∧ init.waiting = []) : s.state = true ∧ s.waiting = [] :=
  (Run.invariant (P := fun s => Inv s ∧ s.state = true ∧ s.waiting = []) ⟨hinit, hq⟩
    (fun _ _ _ hs h => ⟨hs.1.step h, quiet_step hs.1 h hs.2⟩) hrun).2

/-- After a `notify_all` the wait set is empty for good. -/
theorem waiting_of_notifyAll {s₀ : Shared T} (hrun : Interleaving h s)
    (hmem : (s₀, .notifyAll u) ∈ h) : s.waiting = [] := by
  obtain ⟨front, back, rfl⟩ := List.append_of_mem hmem
  obtain ⟨s₁, hfront, hstep, hback⟩ := hrun.cut
  have hs₀ : Inv s₀ := Interleaving.inv hfront
  refine (quiet_run hback (hs₀.step hstep) ?_).2
  cases hstep with
  | notifyAll hu => exact ⟨hs₀.raised u (by simp [hu, Pc.Announcing]), rfl⟩

/-- Only its `notify_all` brings a thread to the end of `request`. -/
theorem requested_step (h : Step s e s') (hu : s'.pc u = .requested) :
    s.pc u = .requested ∨ e = .notifyAll u := by
  cases h with
  | wake | stopRequested | reason => exact .inl hu
  | _ =>
      simp only [goto_pc] at hu
      grind

theorem notifyAll_of_requested (hrun : Interleaving h s) (hu : s.pc u = .requested) :
    ∃ s₀, (s₀, .notifyAll u) ∈ h := by
  obtain ⟨s₀, e, hmem, rfl⟩ := Run.exists_event (P := fun s : Shared T => s.pc u = .requested)
    (E := (· = .notifyAll u)) (by simp) (fun _ _ _ => requested_step) hrun hu
  exact ⟨s₀, hmem⟩

/-- A request returns after its `notify_all`. -/
theorem notifyAll_of_returned {s₀ : Shared T} (hrun : Interleaving h s)
    (hmem : (s₀, .returned u) ∈ h) : ∃ s₁, (s₁, .notifyAll u) ∈ h := by
  obtain ⟨front, back, rfl⟩ := List.append_of_mem hmem
  obtain ⟨_, hfront, hstep, -⟩ := hrun.cut
  cases hstep with
  | returned hu =>
      obtain ⟨s₁, hs₁⟩ := notifyAll_of_requested hfront hu
      exact ⟨s₁, List.mem_append_left _ hs₁⟩

/-- While the flag is up and someone waits, a `notify_all` is owed. -/
theorem owes_of_waiting (hrun : Interleaving h s) (hup : s.state = true) (hw : s.waiting ≠ []) :
    ∃ u, Owes h u ∧ (s.pc u).Announcing := by
  induction hrun with
  | nil => exact nomatch hup
  | @snoc h s s' e hrun hstep ih =>
      have hkept (he : ∀ u, e ≠ .notifyAll u) (hs : s.state = true) (hws : s.waiting ≠ []) :
          ∃ u, Owes (h ++ [(s, e)]) u ∧ (s'.pc u).Announcing := by
        obtain ⟨u, howes, hu⟩ := ih hs hws
        exact ⟨u, Owes.snoc howes (he u), announcing_step hstep hu (he u)⟩
      cases hstep with
      | @exchange t reason =>
          refine ⟨t, ⟨h, s, reason, [], rfl, by simp⟩, ?_⟩
          rw [goto_pc, if_pos rfl]
          split <;> trivial
      | notifyAll => exact absurd rfl hw
      | block ht =>
          have hdown := (Interleaving.inv hrun).asleep _ ht
          exact absurd (hdown.symm.trans hup) Bool.false_ne_true
      | wake =>
          refine hkept (by simp) hup fun hnil => hw ?_
          simp [hnil]
      | _ => exact hkept (by simp) hup hw

/-- **Wake-ups are never lost.**  A thread blocked while the flag is up has a
`notify_all` coming, and once a request has returned nobody is blocked. -/
theorem wakeUps_delivered (hrun : Interleaving h s) :
    (∀ t, Blocked s t → s.state = true → ∃ u, Owes h u ∧ (s.pc u).Announcing) ∧
      ∀ u s₀, (s₀, .returned u) ∈ h → ∀ t, ¬ Blocked s t := by
  refine ⟨fun t ht hup => owes_of_waiting hrun hup (List.ne_nil_of_mem ht.2), fun u s₀ hmem t ht => ?_⟩
  obtain ⟨s₁, hs₁⟩ := notifyAll_of_returned hrun hmem
  exact List.ne_nil_of_mem ht.2 (waiting_of_notifyAll hrun hs₁)

/-- A waiter blocks, a requester sets the flag: its `notify_all` is owed. -/
theorem wakeUps_delivered_blocked : ∃ h, ∃ s : Shared Bool, Interleaving h s ∧ Blocked s true ∧
    s.state = true ∧ ∃ u, Owes h u ∧ (s.pc u).Announcing := by
  obtain ⟨h, s, hrun, hblocked, hup⟩ :
      ∃ h, ∃ s : Shared Bool, Interleaving h s ∧ Blocked s true ∧ s.state = true := by
    have hwaiter : Interleaving (T := Bool) _ _ :=
      (((Run.nil.snoc (.waitForStop (t := true) 10000 rfl)).snoc
        (.acquire (t := true) rfl rfl)).snoc (.predicate (t := true) rfl)).snoc
        (.block (t := true) rfl)
    have hrequester : Interleaving (T := Bool) _ _ :=
      ((hwaiter.snoc (.request (t := false) .signal rfl)).snoc
        (.lock (t := false) rfl rfl)).snoc (.exchange (t := false) rfl)
    exact ⟨_, _, hrequester, ⟨rfl, List.mem_singleton.mpr rfl⟩, rfl⟩
  exact ⟨h, s, hrun, hblocked, hup, (wakeUps_delivered hrun).1 true hblocked hup⟩

end Shutdown

end ChaosForger
