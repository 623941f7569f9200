-- Connected components, kept as labels: every element of a group has a label,
-- and two elements have the same one when a chain of groups connects them. A
-- new group and all elements that it meets take one fresh label.
import Mathlib.Logic.Relation
import Mathlib.Tactic.ByContra

open Relation

namespace Components

variable {α γ ι : Type} [Membership α γ] {gs hs : List γ} {g : γ} {label label' : α → Option ι}
  {a b c : α} {p : ι}

def Linked (gs : List γ) (a b : α) : Prop := ∃ g ∈ gs, a ∈ g ∧ b ∈ g

/-- A chain of groups leads from one element to the other. -/
abbrev Connected (gs : List γ) : α → α → Prop := ReflTransGen (Linked gs)

theorem Linked.symm (h : Linked gs a b) : Linked gs b a := by
  obtain ⟨g, hg, ha, hb⟩ := h
  exact ⟨g, hg, hb, ha⟩

theorem connected_symm (h : Connected gs a b) : Connected gs b a := by
  induction h with
  | refl => exact .refl
  | tail _ hlink ih => exact ih.head hlink.symm

theorem connected_mono (hsub : ∀ g ∈ gs, g ∈ hs) (h : Connected gs a b) : Connected hs a b := by
  refine ReflTransGen.mono (fun a b hab => ?_) a b h
  obtain ⟨g, hg, ha, hb⟩ := hab
  exact ⟨g, hsub g hg, ha, hb⟩

/-- The labels of two elements are there and equal. -/
def Same (label : α → Option ι) (a b : α) : Prop := ∃ p, label a = some p ∧ label b = some p

theorem Same.symm (h : Same label a b) : Same label b a := by
  obtain ⟨p, ha, hb⟩ := h
  exact ⟨p, hb, ha⟩

theorem Same.trans (hab : Same label a b) (hbc : Same label b c) : Same label a c := by
  obtain ⟨p, ha, hb⟩ := hab
  obtain ⟨q, hb', hc⟩ := hbc
  obtain rfl : p = q := Option.some.inj (hb.symm.trans hb')
  exact ⟨p, ha, hc⟩

/-- The labels are those of the components of the groups. -/
def Labels (gs : List γ) (label : α → Option ι) : Prop :=
  ∀ a b, Same label a b ↔ (∃ g ∈ gs, a ∈ g) ∧ Connected gs a b

theorem labels_nil : Labels ([] : List γ) fun _ : α => (none : Option ι) := by
  intro a b
  simp [Same]

/-- The elements that a new group meets: its own, and those that have the label
of one of them. -/
def Met (label : α → Option ι) (g : γ) (a : α) : Prop := a ∈ g ∨ ∃ b ∈ g, Same label a b

theorem Met.of_same (h : Met label g a) (hab : Same label a b) : Met label g b := by
  rcases h with ha | ⟨c, hc, hac⟩
  · exact Or.inr ⟨a, ha, hab.symm⟩
  · exact Or.inr ⟨c, hc, hab.symm.trans hac⟩

/-- What a new group does to the labels. -/
structure Merged (label : α → Option ι) (g : γ) (p : ι) (label' : α → Option ι) : Prop where
  met : ∀ a, Met label g a → label' a = some p
  rest : ∀ a, ¬ Met label g a → label' a = label a
  fresh : ∀ a, label a = some p → Met label g a

/-- A label outside of what was met is an old one, and the new one is fresh. -/
theorem Merged.met_of_same (hm : Merged label g p label') (hab : Same label' a b)
    (ha : Met label g a) : Met label g b := by
  obtain ⟨q, hqa, hqb⟩ := hab
  obtain rfl : q = p := Option.some.inj (hqa.symm.trans (hm.met a ha))
  by_contra hb
  exact hb (hm.fresh b ((hm.rest b hb).symm.trans hqb))

section

variable (h : Labels gs label) (hm : Merged label g p label')

include h

/-- An element that the group meets is connected to an element of it. -/
theorem Labels.connected_of_met (ha : Met label g a) :
    (∃ g' ∈ gs ++ [g], a ∈ g') ∧ ∃ x ∈ g, Connected (gs ++ [g]) a x := by
  have hsub : ∀ g' ∈ gs, g' ∈ gs ++ [g] := fun g' => List.mem_append_left _
  rcases ha with ha | ⟨x, hx, hax⟩
  · exact ⟨⟨g, List.mem_append_right _ (List.mem_singleton_self g), ha⟩, a, ha, .refl⟩
  · obtain ⟨⟨g', hg', ha⟩, hcon⟩ := (h a x).mp hax
    exact ⟨⟨g', hsub g' hg', ha⟩, x, hx, connected_mono hsub hcon⟩

include hm

/-- Elements of one group, the new one among them, get the same label. -/
theorem Labels.same_of_linked (hab : Linked (gs ++ [g]) a b) : Same label' a b := by
  obtain ⟨g', hg', ha, hb⟩ := hab
  rcases List.mem_append.mp hg' with hg' | hg'
  · have hsame : Same label a b := (h a b).mpr ⟨⟨g', hg', ha⟩, .single ⟨g', hg', ha, hb⟩⟩
    by_cases hmet : Met label g a
    · exact ⟨p, hm.met a hmet, hm.met b (hmet.of_same hsame)⟩
    · have hb' : ¬ Met label g b := fun hb' => hmet (hb'.of_same hsame.symm)
      obtain ⟨q, hqa, hqb⟩ := hsame
      exact ⟨q, (hm.rest a hmet).trans hqa, (hm.rest b hb').trans hqb⟩
  · obtain rfl := List.mem_singleton.mp hg'
    exact ⟨p, hm.met a (Or.inl ha), hm.met b (Or.inl hb)⟩

/-- Elements with the same new label are connected. -/
theorem Labels.connected_of_same (hab : Same label' a b) :
    (∃ g' ∈ gs ++ [g], a ∈ g') ∧ Connected (gs ++ [g]) a b := by
  by_cases ha : Met label g a
  · obtain ⟨hmem, x, hx, hax⟩ := h.connected_of_met ha
    obtain ⟨-, y, hy, hby⟩ := h.connected_of_met (hm.met_of_same hab ha)
    have hxy : Linked (gs ++ [g]) x y :=
      ⟨g, List.mem_append_right _ (List.mem_singleton_self g), hx, hy⟩
    exact ⟨hmem, (hax.tail hxy).trans (connected_symm hby)⟩
  · have hb : ¬ Met label g b := fun hb => ha (hm.met_of_same hab.symm hb)
    obtain ⟨q, hqa, hqb⟩ := hab
    have hsame : Same label a b :=
      ⟨q, (hm.rest a ha).symm.trans hqa, (hm.rest b hb).symm.trans hqb⟩
    obtain ⟨⟨g', hg', hmem⟩, hcon⟩ := (h a b).mp hsame
    exact ⟨⟨g', List.mem_append_left _ hg', hmem⟩,
      connected_mono (fun g' => List.mem_append_left _) hcon⟩

/-- The labels stay those of the components. -/
theorem Labels.merge : Labels (gs ++ [g]) label' := by
  intro a b
  refine ⟨h.connected_of_same hm, ?_⟩
  rintro ⟨⟨g', hg', ha⟩, hcon⟩
  induction hcon with
  | refl => exact h.same_of_linked hm ⟨g', hg', ha, ha⟩
  | tail _ hlink ih => exact ih.trans (h.same_of_linked hm hlink)

end

end Components
