import Mathlib.Data.List.Induction

/-!
# Handles

Logs of accesses to handles that are acquired, used and released, such as file
descriptors.

A log is disciplined when every access in it is allowed at its turn: only a
free handle is acquired, and only a held one is used or released.  A discipline
is kept access by access (`Disciplined.snoc`).
-/

namespace Handles

variable {κ : Type u} [DecidableEq κ]

inductive Access (κ : Type u) where
  | acquire (h : κ)
  | use (h : κ)
  | release (h : κ)
  deriving DecidableEq, Repr

/-- The handles held after one more access. -/
def after (held : List κ) : Access κ → List κ
  | .acquire h => h :: held
  | .use _ => held
  | .release h => held.erase h

/-- The handles a log holds at its end, the latest first. -/
def held (log : List (Access κ)) : List κ := log.foldl after []

/-- The access is allowed while these handles are held. -/
def Allowed (held : List κ) : Access κ → Prop
  | .acquire h => h ∉ held
  | .use h | .release h => h ∈ held

instance (held : List κ) (a : Access κ) : Decidable (Allowed held a) :=
  match a with
  | .acquire h => inferInstanceAs (Decidable (h ∉ held))
  | .use h | .release h => inferInstanceAs (Decidable (h ∈ held))

/-- Every access is allowed at its turn, and at most `cap` handles are held at
any time. -/
def Disciplined (cap : Nat) (log : List (Access κ)) : Prop :=
  ∀ pre a post, log = pre ++ a :: post →
    Allowed (held pre) a ∧ (after (held pre) a).length ≤ cap

@[simp] theorem held_nil : held ([] : List (Access κ)) = [] := rfl

@[simp] theorem held_snoc (log : List (Access κ)) (a : Access κ) :
    held (log ++ [a]) = after (held log) a := by
  rw [held, List.foldl_append]
  rfl

theorem disciplined_nil (cap : Nat) : Disciplined cap ([] : List (Access κ)) := by
  intro pre a post h
  simp at h

variable {cap : Nat} {log : List (Access κ)} {a : Access κ}

/-- **The step rule**: one more access that is allowed. -/
theorem Disciplined.snoc (h : Disciplined cap log) (ha : Allowed (held log) a)
    (hcap : (after (held log) a).length ≤ cap) : Disciplined cap (log ++ [a]) := by
  intro pre b post heq
  obtain rfl | ⟨init, x, rfl⟩ := List.eq_nil_or_concat post
  · obtain ⟨rfl, hb⟩ := List.append_inj' heq rfl
    obtain rfl := (List.cons.inj hb).1
    exact ⟨ha, hcap⟩
  · have hassoc : pre ++ b :: init.concat x = (pre ++ b :: init) ++ [x] := by simp
    rw [hassoc] at heq
    exact h pre b init (List.append_inj' heq rfl).1

end Handles
