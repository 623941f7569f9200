-- Matching a list against another in order: each element of the first gets
-- an element of the second that fits it, and the choices go strictly
-- forward. Taking the first that fits, again and again, decides whether
-- there is such a matching.
import Mathlib.Data.List.NodupEquivFin
import Mathlib.Data.List.Forall2

namespace OrderedMatch

variable {α β : Type} {fits : α → β → Prop} {x : α} {y : β} {xs : List α} {ys : List β}

/-- A strictly increasing assignment of the elements of `xs` to elements of
`ys` that fit them. -/
def Matches (fits : α → β → Prop) (xs : List α) (ys : List β) : Prop :=
  ∃ f : Fin xs.length → Fin ys.length, StrictMono f ∧ ∀ i, fits (xs.get i) (ys.get (f i))

/-- An assignment is a choice of a sublist that fits element by element. -/
theorem matches_iff_sublist :
    Matches fits xs ys ↔ ∃ chosen, chosen.Sublist ys ∧ List.Forall₂ fits xs chosen := by
  constructor
  · rintro ⟨f, hmono, hfits⟩
    refine ⟨List.ofFn fun i => ys.get (f i), ?_, ?_⟩
    · rw [List.sublist_iff_exists_fin_orderEmbedding_get_eq]
      have hlen : (List.ofFn fun i => ys.get (f i)).length = xs.length := List.length_ofFn
      refine ⟨(Fin.castOrderIso hlen).toOrderEmbedding.trans (OrderEmbedding.ofStrictMono f hmono),
        ?_⟩
      intro i
      simp [OrderEmbedding.ofStrictMono]
      rfl
    · rw [List.forall₂_iff_get]
      refine ⟨by simp, ?_⟩
      intro i hi _
      simpa using hfits ⟨i, hi⟩
  · rintro ⟨chosen, hsub, hall⟩
    obtain ⟨f, hf⟩ := List.sublist_iff_exists_fin_orderEmbedding_get_eq.mp hsub
    obtain ⟨hlen, hget⟩ := List.forall₂_iff_get.mp hall
    refine ⟨fun i => f (i.cast hlen), ?_, ?_⟩
    · intro i j hij
      exact f.strictMono hij
    · intro i
      rw [← hf]
      exact hget i i.2 (hlen ▸ i.2)

theorem matches_nil : Matches fits [] ys :=
  matches_iff_sublist.mpr ⟨[], List.nil_sublist ys, List.Forall₂.nil⟩

/-- Every element needs one of its own. -/
theorem Matches.length_le (h : Matches fits xs ys) : xs.length ≤ ys.length := by
  obtain ⟨chosen, hsub, hall⟩ := matches_iff_sublist.mp h
  exact hall.length_eq ▸ hsub.length_le

/-- Where the first two fit nothing is lost by taking them. -/
theorem matches_cons_of_fits (h : fits x y) :
    Matches fits (x :: xs) (y :: ys) ↔ Matches fits xs ys := by
  simp only [matches_iff_sublist]
  constructor
  · rintro ⟨chosen, hsub, hall⟩
    obtain ⟨c, rest, _, hrest, rfl⟩ := List.forall₂_cons_left_iff.mp hall
    exact ⟨rest, hsub.tail, hrest⟩
  · rintro ⟨chosen, hsub, hall⟩
    exact ⟨y :: chosen, hsub.cons_cons y, List.Forall₂.cons h hall⟩

/-- An element that does not fit the first one is given to no other. -/
theorem matches_cons_of_not_fits (h : ¬ fits x y) :
    Matches fits (x :: xs) (y :: ys) ↔ Matches fits (x :: xs) ys := by
  simp only [matches_iff_sublist]
  constructor
  · rintro ⟨chosen, hsub, hall⟩
    obtain ⟨c, rest, hc, _, rfl⟩ := List.forall₂_cons_left_iff.mp hall
    rcases List.sublist_cons_iff.mp hsub with hsub | ⟨_, heq, _⟩
    · exact ⟨_, hsub, hall⟩
    · cases heq
      exact absurd hc h
  · rintro ⟨chosen, hsub, hall⟩
    exact ⟨chosen, hsub.cons y, hall⟩

/-- Read from the other end the same matchings are strictly increasing. -/
theorem matches_reverse : Matches fits xs.reverse ys.reverse ↔ Matches fits xs ys := by
  have hflip : ∀ {xs : List α} {ys : List β}, Matches fits xs ys →
      Matches fits xs.reverse ys.reverse := by
    intro xs ys h
    obtain ⟨chosen, hsub, hall⟩ := matches_iff_sublist.mp h
    exact matches_iff_sublist.mpr ⟨chosen.reverse, hsub.reverse, List.rel_reverse hall⟩
  refine ⟨fun h => ?_, hflip⟩
  simpa using hflip h

end OrderedMatch
