-- Trees that are given by a link to the parent and a height: the ancestors of a
-- node form a line, one for every height from the root up to the node.
import Mathlib.Order.Basic

namespace ParentTree

variable {α : Type}

/-- Follow the link `n` times. -/
def back (prev : α → Option α) : (n : Nat) → α → Option α
  | 0, x => some x
  | n + 1, x => (prev x).bind (back prev n)

/-- The height goes down by one along a link, and is zero where there is none. -/
structure Ranked (prev : α → Option α) (height : α → Nat) : Prop where
  root {x : α} : prev x = none → height x = 0
  parent {x y : α} : prev x = some y → height x = height y + 1

/-- An ancestor, or the node itself. -/
def Ancestor (prev : α → Option α) (y x : α) : Prop := ∃ n, back prev n x = some y

/-- The highest of the nodes with a property. -/
def Highest (height : α → Nat) (P : α → Prop) (x : α) : Prop :=
  P x ∧ ∀ y, P y → height y ≤ height x

variable {prev : α → Option α} {height : α → Nat} {x y z : α} {m n : Nat}

theorem back_succ (h : prev x = some y) : back prev (n + 1) x = back prev n y := by
  rw [back, h, Option.bind_some]

theorem back_add (h : back prev m x = some y) : back prev (m + n) x = back prev n y := by
  induction m generalizing x with
  | zero =>
    cases h
    rw [Nat.zero_add]
  | succ m ih =>
    cases hx : prev x with
    | none =>
      rw [back, hx] at h
      cases h
    | some w =>
      rw [back_succ hx] at h
      rw [Nat.add_right_comm, back_succ hx, ih h]

theorem Ancestor.refl (x : α) : Ancestor prev x x := ⟨0, rfl⟩

theorem Ancestor.trans (hzy : Ancestor prev z y) (hyx : Ancestor prev y x) :
    Ancestor prev z x := by
  obtain ⟨n, hn⟩ := hzy
  obtain ⟨m, hm⟩ := hyx
  exact ⟨m + n, (back_add hm).trans hn⟩

theorem Ancestor.of_prev (h : prev x = some y) : Ancestor prev y x := ⟨1, back_succ h⟩

namespace Ranked

variable (hr : Ranked prev height)

include hr

theorem height_back (h : back prev n x = some y) : height x = height y + n := by
  induction n generalizing x with
  | zero =>
    cases h
    rfl
  | succ n ih =>
    cases hx : prev x with
    | none =>
      rw [back, hx] at h
      cases h
    | some w =>
      rw [back_succ hx] at h
      have h1 := hr.parent hx
      have h2 := ih h
      omega

/-- The link can be followed down to the root. -/
theorem exists_back (h : n ≤ height x) : ∃ y, back prev n x = some y := by
  induction n generalizing x with
  | zero => exact ⟨x, rfl⟩
  | succ n ih =>
    cases hx : prev x with
    | none =>
      have := hr.root hx
      omega
    | some w =>
      have := hr.parent hx
      rw [back_succ hx]
      exact ih (by omega)

theorem height_le (h : Ancestor prev y x) : height y ≤ height x := by
  obtain ⟨n, hn⟩ := h
  have := hr.height_back hn
  omega

/-- An ancestor is found by its height. -/
theorem back_of_ancestor (h : Ancestor prev y x) : back prev (height x - height y) x = some y := by
  obtain ⟨n, hn⟩ := h
  have := hr.height_back hn
  rwa [show height x - height y = n by omega]

theorem eq_of_height (h : Ancestor prev y x) (heq : height y = height x) : y = x := by
  have hy := hr.back_of_ancestor h
  rw [heq, Nat.sub_self] at hy
  exact (Option.some.inj hy).symm

/-- Of two ancestors of a node, the lower one is an ancestor of the other. -/
theorem ancestor_of_le (hy : Ancestor prev y x) (hz : Ancestor prev z x)
    (hle : height y ≤ height z) : Ancestor prev y z := by
  have hzx := hr.height_le hz
  have h1 := hr.back_of_ancestor hy
  have h2 := hr.back_of_ancestor hz
  rw [show height x - height y = (height x - height z) + (height z - height y) by omega,
    back_add h2] at h1
  exact ⟨_, h1⟩

/-- A proper ancestor is an ancestor of the parent. -/
theorem ancestor_prev (h : Ancestor prev y x) (hlt : height y < height x)
    (hz : prev x = some z) : Ancestor prev y z := by
  have := hr.parent hz
  exact hr.ancestor_of_le h (.of_prev hz) (by omega)

end Ranked

end ParentTree
