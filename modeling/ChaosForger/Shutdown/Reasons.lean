import ChaosForger.Shutdown.Concurrent

/-!
# ChaosForger.Shutdown.Reasons

The flag and the reason, as observers that take no lock see them.

`request` raises the flag first and writes the reason after it.  Between the
two the observers find a flag without its reason; elsewhere flag and reason are
those of the sequential state (`Simulates`).  Hence what observers are told
agrees exactly when none of them asks in between (`agrees_iff`).
-/

namespace ChaosForger

open Transitions

namespace Shutdown

variable {T : Type u} {s s' : Shared T} {e : Event T} {t : T} {h : List (Shared T × Event T)}

/-- The reason that an exchange announces. -/
def Event.exchanged : Event T → Option StopReason
  | .exchange _ r => some r
  | _ => none

theorem eq_exchange {r : StopReason} (h : e.exchanged = some r) : ∃ t, e = .exchange t r := by
  cases e <;> simp_all [Event.exchanged]

/-- What the requests make of the sequential state, in the order of their
exchanges. -/
def settled (h : List (Shared T × Event T)) : ShutdownState :=
  (h.filterMap fun x => x.2.exchanged).foldl ShutdownState.request {}

/-- The reason of the request that first set the flag. -/
def firstReason (h : List (Shared T × Event T)) : Option StopReason :=
  h.findSome? fun x => if x.1.state then none else x.2.exchanged

/-- No request stands between its exchange and its store. -/
def Written (s : Shared T) : Prop := ∀ t reason, s.pc t ≠ .store reason

/-- An observer that has seen the flag up asks for the reason in `s`. -/
def Asks (h : List (Shared T × Event T)) (s : Shared T) (result : StopReason) : Prop :=
  ∃ t front s₀ mid back, h = (front ++ (s₀, .stopRequested t true) :: mid) ++
    (s, .reason t result) :: back

/-- Flag and reason agree for every observer. -/
structure Agrees (h : List (Shared T × Event T)) (s : Shared T) : Prop where
  /-- The flag never falls. -/
  flag : (visited h s).Pairwise fun a b => a.state = true → b.state = true
  /-- The reason changes at most once. -/
  once : (visited h s).Pairwise fun a b => a.reason ≠ .notRequested → b.reason = a.reason
  /-- It changes to the reason of the first request. -/
  first : ∀ a ∈ visited h s, a.reason ≠ .notRequested → firstReason h = some a.reason
  /-- Observers that have seen the flag get that reason. -/
  observer : ∀ a result, Asks h a result → firstReason h = some result ∧ result ≠ .notRequested

/-- No request of the history has the reason `NotRequested`. -/
def Proper (h : List (Shared T × Event T)) : Prop := ∀ x ∈ h, ∀ t, x.2 ≠ .request t .notRequested

/-! ## The sequential state -/

/-- What an event makes of the sequential state. -/
def settle (q : ShutdownState) (e : Event T) : ShutdownState := (e.exchanged.map q.request).getD q

theorem settled_snoc (h : List (Shared T × Event T)) (s : Shared T) (e : Event T) :
    settled (h ++ [(s, e)]) = settle (settled h) e := by
  unfold settled settle
  cases he : e.exchanged <;> simp [he]

/-- The shared state stands for the sequential one, up to the store that a
request may still owe. -/
structure Simulates (q : ShutdownState) (s : Shared T) : Prop where
  state : q.state = s.state
  fresh : q.state = false → q.reason = .notRequested
  owed : ∀ t reason, s.pc t = .store reason → q.reason = reason ∧ s.reason = .notRequested
  paid : Written s → q.reason = s.reason

variable [DecidableEq T]

theorem simulates_exchange {q : ShutdownState} {r : StopReason} (hs : Inv s) (hsim : Simulates q s)
    (ht : s.pc t = .exchange r) :
    Simulates (q.request r)
      { s.goto t (if s.state then .unlock else .store r) with state := true } := by
  have hothers : ∀ u r', s.pc u ≠ .store r' := fun u r' hu => by
    obtain rfl := hs.exclusive (t := t) (u := u) (by simp [ht, Pc.Holds]) (by simp [hu, Pc.Holds])
    simp [ht] at hu
  have hpaid : q.reason = s.reason := hsim.paid hothers
  cases hup : s.state with
  | true =>
      have hq : q.request r = q := by simp [ShutdownState.request, hsim.state, hup]
      rw [hq]
      refine ⟨hsim.state.trans hup, hsim.fresh, fun u r' hu => ?_, fun _ => hpaid⟩
      simp only [if_true, goto_pc] at hu
      split at hu
      · simp at hu
      · exact absurd hu (hothers u r')
  | false =>
      have hdown : q.state = false := hsim.state.trans hup
      have hq : q.request r = { state := true, reason := r } := by
        simp [ShutdownState.request, hdown]
      rw [hq]
      refine ⟨rfl, by simp, fun u r' hu => ?_, fun hw => ?_⟩
      · simp only [Bool.false_eq_true, if_false, goto_pc] at hu
        split at hu
        · exact ⟨Pc.store.inj hu, hpaid.symm.trans (hsim.fresh hdown)⟩
        · exact absurd hu (hothers u r')
      · exact absurd (by simp) (hw t r)

theorem simulates_store {q : ShutdownState} {r : StopReason} (hs : Inv s) (hsim : Simulates q s)
    (ht : s.pc t = .store r) : Simulates q { s.goto t .unlock with reason := r } := by
  refine ⟨hsim.state, hsim.fresh, fun u r' hu => ?_, fun _ => (hsim.owed t r ht).1⟩
  simp only [goto_pc] at hu
  split at hu
  · simp at hu
  · next hut =>
      exact absurd (hs.exclusive (by simp [hu, Pc.Holds]) (by simp [ht, Pc.Holds])) hut

theorem Simulates.step {q : ShutdownState} (hs : Inv s) (hsim : Simulates q s)
    (hstep : Step s e s') : Simulates (settle q e) s' := by
  cases hstep with
  | exchange ht => exact simulates_exchange hs hsim ht
  | store ht => exact simulates_store hs hsim ht
  | wake | stopRequested | reason => exact ⟨hsim.state, hsim.fresh, hsim.owed, hsim.paid⟩
  | _ =>
      -- no store is owed or paid by the other steps
      refine ⟨hsim.state, hsim.fresh, fun u r hu => ?_, fun hw => hsim.paid fun u r hu => ?_⟩
      · simp only [goto_pc] at hu
        exact hsim.owed u r (by grind)
      · have := hw u r
        simp only [goto_pc] at this
        grind

theorem simulates (hrun : Interleaving h s) : Simulates (settled h) s := by
  induction hrun with
  | nil => exact ⟨rfl, fun _ => rfl, fun _ _ h => (nomatch h), fun _ => rfl⟩
  | snoc hrun hstep ih =>
      rw [settled_snoc]
      exact ih.step (Interleaving.inv hrun) hstep

/-! ## What observers are told -/

omit [DecidableEq T] in
theorem firstReason_append (h h' : List (Shared T × Event T)) :
    firstReason (h ++ h') = (firstReason h).or (firstReason h') := by
  simp [firstReason, List.findSome?_append]

omit [DecidableEq T] in
/-- Only the first request makes a difference. -/
theorem settle_reason (q : ShutdownState) (e : Event T) :
    (if (settle q e).state then some (settle q e).reason else none) =
      (if q.state then some q.reason else none).or (if q.state then none else e.exchanged) := by
  cases hup : q.state <;> cases he : e.exchanged <;>
    simp [settle, he, hup, ShutdownState.request]

/-- The first reason is the settled one, once the flag is up. -/
theorem firstReason_eq (hrun : Interleaving h s) :
    firstReason h = if s.state then some (settled h).reason else none := by
  rw [← (simulates hrun).state]
  induction hrun with
  | nil => rfl
  | @snoc h s s' e hrun hstep ih =>
      have hlast : firstReason [(s, e)] = if s.state then none else e.exchanged := by
        cases hup : s.state <;> cases he : e.exchanged <;> simp [firstReason, hup, he]
      rw [firstReason_append, ih, hlast, settled_snoc, settle_reason, (simulates hrun).state]

/-- A reason that is read is the first one. -/
theorem firstReason_of_reason (hrun : Interleaving h s) (hs : s.reason ≠ .notRequested) :
    firstReason h = some s.reason := by
  have hsim := simulates hrun
  have hpaid : (settled h).reason = s.reason :=
    hsim.paid fun t r ht => hs (hsim.owed t r ht).2
  have hup : s.state = true := by
    rw [← hsim.state, ← Bool.not_eq_false]
    exact fun hdown => hs (hpaid.symm.trans (hsim.fresh hdown))
  rw [firstReason_eq hrun, if_pos hup, hpaid]

/-- A step changes the reason only from `NotRequested`. -/
theorem reason_kept (hrun : Interleaving h s) (hstep : Step s e s')
    (hs : s.reason ≠ .notRequested) : s'.reason = s.reason := by
  cases hstep with
  | store ht => exact absurd ((simulates hrun).owed _ _ ht).2 hs
  | _ => rfl

theorem flag_pairwise (hrun : Interleaving h s) :
    (visited h s).Pairwise fun a b => a.state = true → b.state = true :=
  (Run.pairwise (R := fun a b : Shared T => a.state = true → b.state = true) (fun _ => id)
    (fun _ _ _ hab hbc ha => hbc (hab ha)) (fun _ _ _ _ _ => state_step) hrun).1

theorem reason_pairwise (hrun : Interleaving h s) :
    (visited h s).Pairwise fun a b => a.reason ≠ .notRequested → b.reason = a.reason := by
  refine (Run.pairwise
    (R := fun a b : Shared T => a.reason ≠ .notRequested → b.reason = a.reason)
    (fun _ _ => rfl) (fun a b c hab hbc ha => ?_) (fun _ _ _ _ hrun => reason_kept hrun) hrun).1
  have hb : b.reason = a.reason := hab ha
  exact (hbc (hb ▸ ha)).trans hb

theorem firstReason_of_visited (hrun : Interleaving h s) :
    ∀ a ∈ visited h s, a.reason ≠ .notRequested → firstReason h = some a.reason := by
  induction hrun with
  | nil => exact fun a ha hne => absurd (congrArg (·.reason) (List.mem_singleton.mp ha)) hne
  | @snoc h s s' e hrun hstep ih =>
      intro a ha hne
      rw [visited_snoc] at ha
      obtain ha | ha := List.mem_append.mp ha
      · rw [firstReason_append, ih a ha hne, Option.some_or]
      · rw [List.mem_singleton.mp ha] at hne ⊢
        exact firstReason_of_reason (hrun.snoc hstep) hne

/-- What an observer that has seen the flag is told. -/
theorem firstReason_of_asks {a : Shared T} {result : StopReason} (hrun : Interleaving h s)
    (hasks : Asks h a result) : ∃ q, Simulates q a ∧ q.state = true ∧ result = a.reason ∧
      firstReason h = some q.reason := by
  obtain ⟨t, front, s₀, mid, back, rfl⟩ := hasks
  obtain ⟨_, ha, hask, -⟩ := hrun.cut
  obtain ⟨s₁, -, hsaw, hmid⟩ := ha.cut
  obtain ⟨rfl, hseen⟩ := stopRequested_step hsaw
  have hup : a.state = true :=
    Run.invariant (P := fun s : Shared T => s.state = true) hseen.symm
      (fun _ _ _ hs h => state_step h hs) hmid
  have hsim := simulates ha
  refine ⟨_, hsim, hsim.state.trans hup, (reason_step hask).2, ?_⟩
  rw [firstReason_append, firstReason_eq ha, if_pos hup, Option.some_or]

/-- Only a request brings a thread to its exchange. -/
theorem asking_step {r : StopReason} (h : Step s e s')
    (ht : s'.pc t = .lock r ∨ s'.pc t = .exchange r) :
    (s.pc t = .lock r ∨ s.pc t = .exchange r) ∨ e = .request t r := by
  cases h with
  | wake | stopRequested | reason => exact .inl ht
  | _ =>
      simp only [goto_pc] at ht
      grind

theorem request_of_pc {r : StopReason} (hrun : Interleaving h s) (ht : s.pc t = .exchange r) :
    ∃ s₀, (s₀, .request t r) ∈ h := by
  obtain ⟨s₀, e, hmem, rfl⟩ := Run.exists_event
    (P := fun s : Shared T => s.pc t = .lock r ∨ s.pc t = .exchange r)
    (E := (· = .request t r)) (by simp) (fun _ _ _ => asking_step) hrun (.inr ht)
  exact ⟨s₀, hmem⟩

theorem exchange_pc {r : StopReason} (h : Step s (.exchange t r) s') : s.pc t = .exchange r := by
  cases h
  assumption

/-- Some request has brought the first reason. -/
theorem request_of_firstReason {r : StopReason} (hrun : Interleaving h s)
    (hr : firstReason h = some r) : ∃ t s₀, (s₀, .request t r) ∈ h := by
  obtain ⟨⟨s₀, e⟩, hmem, he⟩ := List.exists_of_findSome?_eq_some hr
  have hexchanged : e.exchanged = some r := by
    by_cases hup : s₀.state = true <;> simp_all
  obtain ⟨t, rfl⟩ := eq_exchange hexchanged
  obtain ⟨front, back, rfl⟩ := List.append_of_mem hmem
  obtain ⟨_, hfront, hstep, -⟩ := hrun.cut
  obtain ⟨s₁, hs₁⟩ := request_of_pc hfront (exchange_pc hstep)
  exact ⟨t, s₁, List.mem_append_left _ hs₁⟩

/-- **Flag and reason agree for every observer exactly when none of them, having
seen the flag, asks for the reason between an exchange and its store.** -/
theorem agrees_iff (hrun : Interleaving h s) (hproper : Proper h) :
    Agrees h s ↔ ∀ a result, Asks h a result → Written a := by
  constructor
  · intro hagrees a result hasks t r ht
    obtain ⟨q, hsim, -, hresult, -⟩ := firstReason_of_asks hrun hasks
    refine (hagrees.observer a result hasks).2 ?_
    rw [hresult, (hsim.owed t r ht).2]
  · intro hwritten
    refine ⟨flag_pairwise hrun, reason_pairwise hrun, firstReason_of_visited hrun,
      fun a result hasks => ?_⟩
    obtain ⟨q, hsim, hup, hresult, hfirst⟩ := firstReason_of_asks hrun hasks
    have hpaid : q.reason = a.reason := hsim.paid (hwritten a result hasks)
    rw [hpaid, ← hresult] at hfirst
    obtain ⟨t, s₀, hmem⟩ := request_of_firstReason hrun hfirst
    refine ⟨hfirst, ?_⟩
    rintro rfl
    exact hproper _ hmem t rfl

/-- An observer sees the flag of a request that has yet to write its reason. -/
theorem not_agrees : ¬ ∀ (h : List (Shared Bool × Event Bool)) s, Interleaving h s → Proper h →
    Agrees h s := by
  intro hall
  have hrun : Interleaving (T := Bool) _ _ :=
    ((((Run.nil.snoc (.request (t := false) .signal rfl)).snoc
      (.lock (t := false) rfl rfl)).snoc (.exchange (t := false) rfl)).snoc
      (.stopRequested (t := true) rfl)).snoc (.reason (t := true) rfl)
  have hagrees := hall _ _ hrun (by simp [Proper])
  refine (hagrees.observer _ _ ⟨true, [_, _, _], _, [], [], rfl⟩).2 rfl

/-- One that asks after the store is told the reason. -/
theorem agrees_after_store : ∃ h, ∃ s : Shared Bool, Interleaving h s ∧
    (∃ a, Asks h a .signal) ∧ Agrees h s := by
  have hrequest : Interleaving (T := Bool) _ _ :=
    (((Run.nil.snoc (.request (t := false) .signal rfl)).snoc
      (.lock (t := false) rfl rfl)).snoc (.exchange (t := false) rfl)).snoc (.store (t := false) rfl)
  have hrun : Interleaving (T := Bool) _ _ :=
    (hrequest.snoc (.stopRequested (t := true) rfl)).snoc (.reason (t := true) rfl)
  refine ⟨_, _, hrun, ⟨_, true, [_, _, _, _], _, [], [], rfl⟩, ?_⟩
  refine (agrees_iff hrun (by simp [Proper])).mpr fun a result hasks => ?_
  obtain ⟨t, front, s₀, mid, back, heq⟩ := hasks
  have hmem : (a, Event.reason t result) ∈ front ++ (s₀, .stopRequested t true) :: mid ++
      (a, .reason t result) :: back := by simp
  rw [← heq] at hmem
  simp only [List.mem_append, List.mem_singleton, Prod.mk.injEq, reduceCtorEq, and_false, false_or,
    List.not_mem_nil] at hmem
  intro u r
  rw [hmem.1]
  cases u <;> exact fun h => nomatch h

end Shutdown

end ChaosForger
