-- Runs of a machine that takes one step for each input. A property holds all
-- along a run just if every step meets the condition under which one step
-- keeps it.
import Mathlib.Logic.Basic

namespace Runs

variable {S A : Type} (step : S → A → S)

/-- The state after some steps. -/
def run (s : S) (as : List A) : S := as.foldl step s

/-- Every step of the run meets the condition. -/
def Meets (ok : S → A → Prop) : S → List A → Prop
  | _, [] => True
  | s, a :: as => ok s a ∧ Meets ok (step s a) as

instance decidableMeets (ok : S → A → Prop) [∀ s a, Decidable (ok s a)] :
    ∀ s as, Decidable (Meets step ok s as)
  | _, [] => .isTrue trivial
  | s, a :: as => @instDecidableAnd _ _ _ (decidableMeets ok (step s a) as)

variable {step} {ok : S → A → Prop}

/-- `aux` holds along every run of legal steps, and helps to see what keeps
`inv`. -/
theorem always_iff_of_legal (inv aux : S → Prop) {legal : S → A → Prop}
    (haux : ∀ s a, aux s → legal s a → aux (step s a))
    (hstep : ∀ s a, aux s → legal s a → inv s → (inv (step s a) ↔ ok s a)) {s : S} (hs : aux s)
    (h : inv s) (as : List A) (hlegal : Meets step legal s as) :
    (∀ n, inv (run step s (as.take n))) ↔ Meets step ok s as := by
  induction as generalizing s with
  | nil => exact iff_of_true (fun n => by simpa [run] using h) trivial
  | cons a as ih =>
    obtain ⟨ha, hrest⟩ := hlegal
    have hnext := haux s a hs ha
    constructor
    · intro hall
      have hfirst : inv (step s a) := by simpa [run] using hall 1
      refine ⟨(hstep s a hs ha h).mp hfirst, (ih hnext hfirst hrest).mp fun n => ?_⟩
      simpa [run] using hall (n + 1)
    · rintro ⟨hok, hoks⟩ n
      cases n with
      | zero => simpa [run] using h
      | succ n => simpa [run] using (ih hnext ((hstep s a hs ha h).mpr hok) hrest).mpr hoks n

theorem meets_of_forall (h : ∀ s a, ok s a) (s : S) (as : List A) : Meets step ok s as := by
  induction as generalizing s with
  | nil => trivial
  | cons a as ih => exact ⟨h s a, ih _⟩

theorem always_iff (inv : S → Prop) (hstep : ∀ s a, inv s → (inv (step s a) ↔ ok s a)) {s : S}
    (h : inv s) (as : List A) : (∀ n, inv (run step s (as.take n))) ↔ Meets step ok s as :=
  always_iff_of_legal inv (fun _ => True) (fun _ _ _ _ => trivial) (fun s a _ _ => hstep s a)
    trivial h as (meets_of_forall (fun _ _ => True.intro) s as)

end Runs
