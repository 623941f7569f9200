-- Sorting a list and cutting off its end. Only what a sort promises is used:
-- its result is a permutation in order, and elements that the comparator
-- does not tell apart may come in any order.
import Junkcoin.Lib.WeakOrder
import Mathlib.Data.List.Perm.Subperm
import Mathlib.Data.List.Sort

namespace Ranked

variable {α : Type}

/-- A sort by comparators that are strict weak orders. -/
structure Sorter (α : Type) where
  sort : (less : α → α → Bool) → List α → List α
  sorts : ∀ less, (∀ a b c, WeakOrder.LawsAt less a b c) → ∀ l,
    (sort less l).Perm l ∧ (sort less l).Pairwise fun a b => less b a = false

/-- Insertion sort is one. -/
def insertionSorter : Sorter α where
  sort less l := l.insertionSort fun a b => less b a = false
  sorts less hless l := by
    have htotal : Std.Total fun a b : α => less b a = false := ⟨fun a b => by
      have := (hless a b a).asymm
      cases hab : less a b <;> simp_all⟩
    have htrans : IsTrans α fun a b => less b a = false := ⟨fun a b c hab hbc => by
      have h1 := (hless c a b).trans
      have h2 := (hless b c a).trans
      have h3 := (hless a b c).incomp_trans
      cases hba : less a b <;> cases hcb : less b c <;> cases hca : less c a <;> simp_all⟩
    exact ⟨List.perm_insertionSort _ l, List.pairwise_insertionSort _ l⟩

/-- The list without its last `k` elements. -/
def cut (k : Nat) (l : List α) : List α := l.take (l.length - k)

theorem cut_sublist (k : Nat) (l : List α) : (cut k l).Sublist l := List.take_sublist _ _

/-- An element with fewer than `k` others that are not below it is among the
last `k`. -/
theorem not_mem_cut [DecidableEq α] {less : α → α → Bool} {s : List α} {k : Nat} {x : α}
    (hsorted : s.Pairwise fun a b => less b a = false) (hnodup : s.Nodup)
    (hfew : (s.filter fun y => decide (y ≠ x) && !less y x).length < k) : x ∉ cut k s := by
  intro hx
  obtain ⟨p, q, hpq⟩ := List.append_of_mem hx
  have hlen : 0 < (cut k s).length := List.length_pos_of_mem hx
  have hsplit : s = p ++ x :: (q ++ s.drop (s.length - k)) := by
    conv_lhs => rw [← List.take_append_drop (s.length - k) s]
    rw [show s.take (s.length - k) = p ++ x :: q from hpq]
    simp
  -- what comes after `x` is not below it
  have hafter : ∀ y ∈ q ++ s.drop (s.length - k), (decide (y ≠ x) && !less y x) = true := by
    rw [hsplit, List.pairwise_append] at hsorted
    rw [hsplit, List.nodup_append] at hnodup
    intro y hy
    have hne : y ≠ x := fun h => (List.nodup_cons.mp hnodup.2.1).1 (h ▸ hy)
    simp [hne, (List.pairwise_cons.mp hsorted.2.1).1 y hy]
  have hk : k ≤ (q ++ s.drop (s.length - k)).length := by
    simp only [cut, List.length_take] at hlen
    simp only [List.length_append, List.length_drop]
    omega
  have hle : (q ++ s.drop (s.length - k)).length ≤
      (s.filter fun y => decide (y ≠ x) && !less y x).length := by
    conv_rhs => rw [hsplit]
    rw [List.filter_append, List.filter_cons_of_neg (by simp), List.filter_eq_self.mpr hafter]
    exact (List.suffix_append _ _).length_le
  omega

end Ranked
