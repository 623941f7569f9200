-- Comparators of sorted containers: the laws of a strict weak order, for
-- comparators that compare a key, and ratios that are compared by cross
-- multiplication.
import Mathlib.Algebra.Order.Field.Rat
import Mathlib.Data.Prod.Lex
import Mathlib.Tactic.Linarith
import Mathlib.Tactic.FieldSimp

namespace WeakOrder

variable {α β : Type} [LinearOrder β] {less : α → α → Bool} {dom : α → Prop} {a b c : α}

/-- The laws of a strict weak order, at three elements. At `b = a` the first
one is irreflexivity. -/
structure LawsAt (less : α → α → Bool) (a b c : α) : Prop where
  asymm : ¬ (less a b ∧ less b a)
  trans : less a b → less b c → less a c
  incomp_trans : ¬ less a b → ¬ less b a → ¬ less b c → ¬ less c b → ¬ less a c ∧ ¬ less c a

/-- A comparator that compares keys strictly. -/
theorem lawsAt_of_key (key : α → β) (h : ∀ x y, dom x → dom y → (less x y ↔ key x < key y))
    (ha : dom a) (hb : dom b) (hc : dom c) : LawsAt less a b c where
  asymm := by
    rw [h a b ha hb, h b a hb ha]
    exact fun ⟨hab, hba⟩ => lt_asymm hab hba
  trans := by
    rw [h a b ha hb, h b c hb hc, h a c ha hc]
    exact lt_trans
  incomp_trans := by
    rw [h a b ha hb, h b a hb ha, h b c hb hc, h c b hc hb, h a c ha hc, h c a hc ha]
    simp only [not_lt]
    exact fun hba hab hcb hbc => ⟨hcb.trans hba, hab.trans hbc⟩

theorem lawsAt_of_total_key (key : α → β) (h : ∀ x y, less x y ↔ key x < key y) :
    LawsAt less a b c :=
  lawsAt_of_key key (fun x y (_ : (fun _ => True) x) _ => h x y) trivial trivial trivial

/-- One that lets equal keys pass breaks the first law at equal keys, and no other. -/
theorem lawsAt_iff_of_key (key : α → β) (h : ∀ x y, dom x → dom y → (less x y ↔ key x ≤ key y))
    (ha : dom a) (hb : dom b) (hc : dom c) : LawsAt less a b c ↔ key a ≠ key b := by
  constructor
  · intro hlaws hab
    apply hlaws.asymm
    rw [h a b ha hb, h b a hb ha]
    exact ⟨hab.le, hab.ge⟩
  · intro hne
    refine ⟨?_, ?_, ?_⟩
    · rw [h a b ha hb, h b a hb ha]
      exact fun ⟨hab, hba⟩ => hne (le_antisymm hab hba)
    · rw [h a b ha hb, h b c hb hc, h a c ha hc]
      exact le_trans
    · intro hab hba
      rw [h a b ha hb] at hab
      rw [h b a hb ha] at hba
      exact absurd (le_of_not_ge hba) hab

/-! ## Ratios -/

theorem ratio_eq_iff {n m d e : Int} (hd : 0 < d) (he : 0 < e) :
    (n : ℚ) / d = m / e ↔ n * e = m * d := by
  have hd' : (d : ℚ) ≠ 0 := by exact_mod_cast hd.ne'
  have he' : (e : ℚ) ≠ 0 := by exact_mod_cast he.ne'
  rw [div_eq_div_iff hd' he']
  exact_mod_cast Iff.rfl

theorem ratio_lt_iff {n m d e : Int} (hd : 0 < d) (he : 0 < e) :
    (n : ℚ) / d < m / e ↔ n * e < m * d := by
  have hd' : (0 : ℚ) < d := by exact_mod_cast hd
  have he' : (0 : ℚ) < e := by exact_mod_cast he
  rw [div_lt_div_iff₀ hd' he']
  exact_mod_cast Iff.rfl

end WeakOrder
