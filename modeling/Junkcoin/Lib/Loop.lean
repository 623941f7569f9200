-- A loop that takes fallible steps until its state is done, with fuel for
-- the steps. A state that the loop visits is one that its steps reach.
import Mathlib.Logic.Relation

namespace Loop

variable {ε σ : Type}

/-- Take steps until the state is done, at most `fuel` of them. -/
def run (done : σ → Bool) (step : σ → Except ε σ) : (fuel : Nat) → σ → Except ε σ
  | 0, s => .ok s
  | fuel + 1, s =>
    if done s then .ok s
    else
      match step s with
      | .error e => .error e
      | .ok t => run done step fuel t

/-- The loop goes from one state to the next. -/
def Steps (done : σ → Bool) (step : σ → Except ε σ) (s t : σ) : Prop :=
  done s = false ∧ step s = .ok t

/-- The loop comes from one state to another. -/
abbrev Reaches (done : σ → Bool) (step : σ → Except ε σ) : σ → σ → Prop :=
  Relation.ReflTransGen (Steps done step)

section Rules

variable {done : σ → Bool} {step : σ → Except ε σ} {s t u : σ} {n : Nat}

/-- One round of the loop. -/
theorem run_succ (h : run done step (n + 1) s = .ok t) :
    (done s = true ∧ t = s) ∨ ∃ u, Steps done step s u ∧ run done step n u = .ok t := by
  rw [run] at h
  cases hd : done s with
  | true =>
    rw [hd, if_pos rfl] at h
    cases h
    exact Or.inl ⟨rfl, rfl⟩
  | false =>
    rw [hd, if_neg (by simp)] at h
    split at h
    · cases h
    · rename_i u hu
      exact Or.inr ⟨u, ⟨hd, hu⟩, h⟩

/-- The loop reaches the state that it returns. -/
theorem run_reaches (h : run done step n s = .ok t) : Reaches done step s t := by
  induction n generalizing s with
  | zero =>
    cases h
    exact Relation.ReflTransGen.refl
  | succ n ih =>
    rcases run_succ h with ⟨_, rfl⟩ | ⟨u, hstep, hrun⟩
    · exact Relation.ReflTransGen.refl
    · exact Relation.ReflTransGen.head hstep (ih hrun)

/-- What every step keeps holds in every state that the loop reaches. -/
theorem reaches_keeps {P : σ → Prop} (hstep : ∀ s t, P s → step s = .ok t → P t) (hs : P s)
    (h : Reaches done step s t) : P t := by
  induction h with
  | refl => exact hs
  | tail _ hlast ih => exact hstep _ _ ih hlast.2

/-- A loop with enough fuel for a measure that every step lowers ends in a
state that is done. -/
theorem run_done (P : σ → Prop) (measure : σ → Nat)
    (hstep : ∀ s t, P s → Steps done step s t → P t ∧ measure t < measure s)
    (hzero : ∀ s, P s → measure s = 0 → done s = true) (hs : P s) (hn : measure s ≤ n)
    (h : run done step n s = .ok t) : done t = true := by
  induction n generalizing s with
  | zero =>
    cases h
    exact hzero _ hs (by omega)
  | succ n ih =>
    rcases run_succ h with ⟨hd, rfl⟩ | ⟨u, hu, hrun⟩
    · exact hd
    · obtain ⟨hP, hlt⟩ := hstep _ _ hs hu
      exact ih hP (by omega) hrun

/-- A loop whose steps include the steps of another returns what that one
returns. -/
theorem run_mono {step' : σ → Except ε σ} (hle : ∀ s t, step s = .ok t → step' s = .ok t)
    (h : run done step n s = .ok t) : run done step' n s = .ok t := by
  induction n generalizing s with
  | zero => exact h
  | succ n ih =>
    rw [run]
    rcases run_succ h with ⟨hd, rfl⟩ | ⟨u, ⟨hd, hu⟩, hrun⟩
    · rw [if_pos hd]
    · rw [hd, if_neg (by simp), hle _ _ hu]
      exact ih hrun

theorem steps_unique : Relator.RightUnique (Steps done step) := by
  intro a b c hb hc
  have := hb.2.symm.trans hc.2
  cases this
  rfl

/-- A loop that has come to an end passed through every state that it
reaches. -/
theorem reaches_end (hd : done t = true) (ht : Reaches done step s t)
    (hu : Reaches done step s u) : Reaches done step u t := by
  rcases Relation.ReflTransGen.total_of_right_unique steps_unique ht hu with h | h
  · rcases Relation.ReflTransGen.cases_head h with rfl | ⟨v, hv, _⟩
    · exact Relation.ReflTransGen.refl
    · exact absurd hv.1 (by simp [hd])
  · exact h

end Rules

/-- A loop over a list: what holds at the start and is kept by the turn of
each element holds at the end, and no turn fails. -/
theorem foldlM_ok {α : Type} {f : σ → α → Except ε σ} {l : List α} {s : σ}
    (I : List α → σ → Prop) (hinit : I [] s)
    (hstep : ∀ done a rest s, l = done ++ a :: rest → I done s →
      ∃ t, f s a = .ok t ∧ I (done ++ [a]) t) :
    ∃ t, l.foldlM f s = .ok t ∧ I l t := by
  have hrest : ∀ rest done s, l = done ++ rest → I done s →
      ∃ t, rest.foldlM f s = .ok t ∧ I l t := by
    intro rest
    induction rest with
    | nil =>
      intro done s hl hs
      rw [List.append_nil] at hl
      exact ⟨s, rfl, hl ▸ hs⟩
    | cons a rest ih =>
      intro done s hl hs
      obtain ⟨t, hf, ht⟩ := hstep done a rest s hl hs
      obtain ⟨u, hu, hI⟩ := ih (done ++ [a]) t (by simp [hl]) ht
      refine ⟨u, ?_, hI⟩
      rw [List.foldlM_cons, hf]
      exact hu
  exact hrest l [] s rfl hinit

end Loop
