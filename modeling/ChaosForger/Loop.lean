/-!
# Loop

`while (true)` loops with early exits, as total functions.  A `Loop` packs
the body of the loop with a measure that every further round decreases, so
that running it needs no fuel argument and always gives a result.

The rules at the end are what proofs about such loops use: one unfolding
(`run_eq`), induction on the rounds (`induct`) and the invariant rule
(`run_invariant`).  `Visits` names the states a run passes at the head of
the loop.  A body with no such measure has `iterate` alone: when no round
raises a rank, `returns_iff_stalls` says when it returns.
-/

/-- One round of a loop body: go round again, or leave with a result. -/
inductive Pass (σ : Type u) (ρ : Type v) where
  | again (s : σ)
  | exit (r : ρ)

/-- A loop whose rounds decrease a measure. -/
structure Loop (σ : Type u) (ρ : Type v) where
  body : σ → Pass σ ρ
  measure : σ → Nat
  decreasing : ∀ s s', body s = .again s' → measure s' < measure s

namespace Loop

variable {σ : Type u} {ρ : Type v}

/-- At most `fuel` rounds of the body. -/
def iterate (body : σ → Pass σ ρ) : Nat → σ → Option ρ
  | 0, _ => none
  | fuel + 1, s =>
      match body s with
      | .again s' => iterate body fuel s'
      | .exit r => some r

/-- Rounds beyond the measure of the state are never needed. -/
theorem isSome_iterate (L : Loop σ ρ) (fuel : Nat) (s : σ) (h : L.measure s < fuel) :
    (iterate L.body fuel s).isSome := by
  induction fuel generalizing s with
  | zero => omega
  | succ fuel ih =>
      rw [iterate]
      split
      · next s' hs => exact ih s' (by have := L.decreasing s s' hs; omega)
      · rfl

/-- The result of the loop. -/
def run (L : Loop σ ρ) (s : σ) : ρ :=
  (iterate L.body (L.measure s + 1) s).get (L.isSome_iterate _ s (Nat.lt_succ_self _))

/-- Any fuel above the measure gives the same result. -/
theorem iterate_eq_run (L : Loop σ ρ) (fuel : Nat) (s : σ) (h : L.measure s < fuel) :
    iterate L.body fuel s = some (L.run s) := by
  suffices ∀ n m (s : σ), L.measure s < n → L.measure s < m →
      iterate L.body n s = iterate L.body m s by
    rw [this fuel (L.measure s + 1) s h (Nat.lt_succ_self _), run, Option.some_get]
  intro n
  induction n with
  | zero => intro m s hn; omega
  | succ n ih =>
      intro m s hn hm
      cases m with
      | zero => omega
      | succ m =>
          simp only [iterate]
          split
          · next s' hs =>
              have := L.decreasing s s' hs
              exact ih m s' (by omega) (by omega)
          · rfl

/-- One round of the loop, then the rest of it. -/
theorem run_eq (L : Loop σ ρ) (s : σ) :
    L.run s = match L.body s with
      | .again s' => L.run s'
      | .exit r => r := by
  apply Option.some.inj
  rw [← L.iterate_eq_run (L.measure s + 1) s (Nat.lt_succ_self _), iterate]
  split
  · next s' hs => exact L.iterate_eq_run _ s' (L.decreasing s s' hs)
  · rfl

theorem run_of_again {L : Loop σ ρ} {s s' : σ} (h : L.body s = .again s') : L.run s = L.run s' := by
  rw [run_eq, h]

theorem run_of_exit {L : Loop σ ρ} {s : σ} {r : ρ} (h : L.body s = .exit r) : L.run s = r := by
  rw [run_eq, h]

/-- **Induction on the rounds of a loop.** -/
theorem induct (L : Loop σ ρ) {motive : σ → Prop}
    (again : ∀ s s', L.body s = .again s' → motive s' → motive s)
    (exit : ∀ s r, L.body s = .exit r → motive s) (s : σ) : motive s := by
  suffices ∀ n (s : σ), L.measure s < n → motive s from this _ s (Nat.lt_succ_self _)
  intro n
  induction n with
  | zero => intro s h; omega
  | succ n ih =>
      intro s h
      cases hb : L.body s with
      | again s' => exact again s s' hb (ih s' (by have := L.decreasing s s' hb; omega))
      | exit r => exact exit s r hb

/-- **The invariant rule**: what a round keeps at the head of the loop holds
of every exit the loop can take. -/
theorem run_invariant (L : Loop σ ρ) {P : σ → Prop} {Q : ρ → Prop}
    (again : ∀ s s', P s → L.body s = .again s' → P s')
    (exit : ∀ s r, P s → L.body s = .exit r → Q r) (s : σ) (hs : P s) : Q (L.run s) := by
  induction s using L.induct with
  | again s s' hb ih => rw [run_of_again hb]; exact ih (again s s' hs hb)
  | exit s r hb => rw [run_of_exit hb]; exact exit s r hs hb

/-- The states at the head of the loop in the run from a state. -/
inductive Visits (L : Loop σ ρ) : σ → σ → Prop where
  | head (s : σ) : Visits L s s
  | again {s s' t : σ} : L.body s = .again s' → Visits L s' t → Visits L s t

/-- What a round keeps holds at every head of the loop. -/
theorem Visits.invariant {L : Loop σ ρ} {P : σ → Prop}
    (again : ∀ s s', P s → L.body s = .again s' → P s') {s t : σ} (h : L.Visits s t)
    (hs : P s) : P t := by
  induction h with
  | head => exact hs
  | again hb _ ih => exact ih (again _ _ hs hb)

/-! ## Loops that may stall -/

/-- The states of the first rounds. -/
def rounds (body : σ → Pass σ ρ) : Nat → σ → List σ
  | 0, _ => []
  | n + 1, s =>
      s :: match body s with
        | .again s' => rounds body n s'
        | .exit _ => []

/-- The round leaves the rank of the state as it was. -/
def stalls (body : σ → Pass σ ρ) (rank : σ → Nat) (s : σ) : Bool :=
  match body s with
  | .again s' => rank s' = rank s
  | .exit _ => false

variable {body : σ → Pass σ ρ} {rank : σ → Nat}

/-- A loop that has not returned has stalled in every round beyond the rank. -/
theorem le_of_iterate_eq_none (hrank : ∀ s s', body s = .again s' → rank s' ≤ rank s) {fuel : Nat}
    {s : σ} (h : iterate body fuel s = none) :
    fuel ≤ rank s + (rounds body fuel s).countP (stalls body rank) := by
  induction fuel generalizing s with
  | zero => exact Nat.zero_le _
  | succ fuel ih =>
      rw [iterate] at h
      cases hs : body s with
      | exit r => simp [hs] at h
      | again s' =>
          rw [hs] at h
          have hle := hrank s s' hs
          have hrest := ih h
          have hstall : stalls body rank s = decide (rank s' = rank s) := by rw [stalls, hs]
          rw [rounds, hs, List.countP_cons, hstall]
          by_cases heq : rank s' = rank s
          · simp only [heq, decide_true, if_true]
            omega
          · simp only [heq, decide_false, Bool.false_eq_true, if_false]
            omega

theorem length_rounds_le {fuel : Nat} {s : σ} (h : (iterate body fuel s).isSome = true) (n : Nat) :
    (rounds body n s).length ≤ fuel := by
  induction fuel generalizing s n with
  | zero => simp [iterate] at h
  | succ fuel ih =>
      cases n with
      | zero => exact Nat.zero_le _
      | succ n =>
          rw [iterate] at h
          rw [rounds, List.length_cons]
          cases hs : body s with
          | exit r => simp
          | again s' =>
              rw [hs] at h
              exact Nat.succ_le_succ (ih h n)

/-- **A loop that never loses rank returns exactly when it stalls finitely
often**, and its rounds are bounded by the rank and the stalls. -/
theorem returns_iff_stalls (hrank : ∀ s s', body s = .again s' → rank s' ≤ rank s) (s : σ) :
    (∀ bound, (∀ n, (rounds body n s).countP (stalls body rank) ≤ bound) →
        (iterate body (rank s + bound + 1) s).isSome = true) ∧
      ∀ fuel, (iterate body fuel s).isSome = true →
        ∀ n, (rounds body n s).countP (stalls body rank) ≤ fuel := by
  refine ⟨fun bound hbound => ?_, fun fuel h n => ?_⟩
  · cases hrun : iterate body (rank s + bound + 1) s with
    | some r => rfl
    | none =>
        have hle := le_of_iterate_eq_none hrank hrun
        have hcount := hbound (rank s + bound + 1)
        omega
  · exact Nat.le_trans List.countP_le_length (length_rounds_le h n)

end Loop
