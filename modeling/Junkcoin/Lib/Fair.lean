-- Endless runs of a step relation whose steps carry the name of who takes
-- them. An actor is treated fairly if it is not passed over forever while it
-- can act, and what such a run must reach follows from single steps.
import Mathlib.Order.Basic

namespace Fair

variable {S A : Type} {step : A → S → S → Prop}

/-- A run without end. -/
structure Run (step : A → S → S → Prop) where
  st : Nat → S
  act : Nat → A
  next : ∀ n, step (act n) (st n) (st (n + 1))

/-- The actor can take a step. -/
def Enabled (step : A → S → S → Prop) (a : A) (s : S) : Prop := ∃ s', step a s s'

/-- Time and again the actor acts or cannot act. -/
def Run.WeaklyFair (r : Run step) (a : A) : Prop :=
  ∀ n, ∃ m ≥ n, r.act m = a ∨ ¬ Enabled step a (r.st m)

namespace Run

variable (r : Run step)

theorem always {I : S → Prop} (h0 : I (r.st 0)) (hstep : ∀ a s s', step a s s' → I s → I s')
    (n : Nat) : I (r.st n) := by
  induction n with
  | zero => exact h0
  | succ n ih => exact hstep _ _ _ (r.next n) ih

/-- What every step keeps or turns into `Q` still holds later, unless `Q` came
first. -/
theorem kept_or {P Q : S → Prop} (hstep : ∀ a s s', step a s s' → P s → P s' ∨ Q s') {n : Nat}
    (hP : P (r.st n)) (k : Nat) : P (r.st (n + k)) ∨ ∃ m ≥ n, Q (r.st m) := by
  induction k with
  | zero => exact .inl hP
  | succ k ih =>
    obtain hk | hQ := ih
    · obtain hP' | hQ' := hstep _ _ _ (r.next (n + k)) hk
      · exact .inl hP'
      · exact .inr ⟨n + k + 1, by omega, hQ'⟩
    · exact .inr hQ

/-- A fair actor that can act as long as `P` holds, and whose step makes `Q`
true, brings about `Q`. -/
theorem leads_to {a : A} (hfair : r.WeaklyFair a) {P Q : S → Prop}
    (henabled : ∀ s, P s → Enabled step a s)
    (hact : ∀ s s', step a s s' → P s → Q s')
    (hothers : ∀ b s s', b ≠ a → step b s s' → P s → P s' ∨ Q s') {n : Nat} (hP : P (r.st n)) :
    ∃ m ≥ n, Q (r.st m) := by
  have hstep : ∀ b s s', step b s s' → P s → P s' ∨ Q s' := by
    intro b s s' hs hPs
    by_cases hb : b = a
    · subst hb
      exact .inr (hact s s' hs hPs)
    · exact hothers b s s' hb hs hPs
  obtain ⟨m, hm, hturn⟩ := hfair n
  obtain ⟨k, rfl⟩ := Nat.exists_eq_add_of_le hm
  obtain hPm | hQ := r.kept_or hstep hP k
  · obtain ha | hstuck := hturn
    · exact ⟨n + k + 1, by omega, hact _ _ (ha ▸ r.next (n + k)) hPm⟩
    · exact absurd (henabled _ hPm) hstuck
  · exact hQ

end Run

end Fair
