-- The median of a list of numbers, and when it cannot go down.
import Mathlib.Data.List.Sort

namespace Median

variable {l : List Int}

/-- The element at the middle of the sorted list. -/
def median (l : List Int) : Int := (l.insertionSort (· ≤ ·)).getD (l.length / 2) 0

theorem length_sorted (l : List Int) : (l.insertionSort (· ≤ ·)).length = l.length :=
  List.length_insertionSort _ l

theorem half_lt (h : l ≠ []) : l.length / 2 < l.length := by
  have : 0 < l.length := List.length_pos_iff.mpr h
  omega

theorem median_eq_getElem (h : l ≠ []) :
    ∃ hk : l.length / 2 < (l.insertionSort (· ≤ ·)).length,
      median l = (l.insertionSort (· ≤ ·))[l.length / 2] := by
  have hk : l.length / 2 < (l.insertionSort (· ≤ ·)).length := by
    rw [length_sorted]
    exact half_lt h
  exact ⟨hk, by simp [median, List.getD, List.getElem?_eq_getElem hk]⟩

/-- The median is one of the numbers. -/
theorem median_mem (h : l ≠ []) : median l ∈ l := by
  obtain ⟨hk, hm⟩ := median_eq_getElem h
  rw [hm]
  exact (List.perm_insertionSort (· ≤ ·) l).subset (List.getElem_mem _)

/-- In a sorted list the element at `k` is at least `m` when at most `k`
elements are below `m`. -/
theorem le_getElem_of_count {s : List Int} (hs : s.Pairwise (· ≤ ·)) {k : Nat} (hk : k < s.length)
    {m : Int} (hc : s.countP (· < m) ≤ k) : m ≤ s[k] := by
  by_contra hlt
  have hall : ∀ x ∈ s.take (k + 1), (decide (x < m)) = true := by
    intro x hx
    obtain ⟨i, hi, rfl⟩ := List.mem_take_iff_getElem.mp hx
    have hle : s[i] ≤ s[k] := by
      rcases Nat.lt_or_ge i k with h | h
      · exact List.pairwise_iff_getElem.mp hs i k _ hk h
      · have : i = k := by omega
        subst this
        exact le_refl _
    exact decide_eq_true (by omega)
  have hcount : (s.take (k + 1)).countP (· < m) = k + 1 := by
    rw [List.countP_eq_length.mpr hall, List.length_take]
    omega
  have hsub : (s.take (k + 1)).countP (· < m) ≤ s.countP (· < m) :=
    (List.take_sublist (k + 1) s).countP_le
  omega

theorem count_of_le_getElem {s : List Int} (hs : s.Pairwise (· ≤ ·)) {k : Nat} (hk : k < s.length)
    {m : Int} (hm : m ≤ s[k]) : s.countP (· < m) ≤ k := by
  have hdrop : (s.drop k).countP (· < m) = 0 := by
    rw [List.countP_eq_zero]
    intro x hx
    obtain ⟨i, hi, rfl⟩ := List.mem_drop_iff_getElem.mp hx
    have hle : s[k] ≤ s[k + i] := by
      rcases Nat.eq_zero_or_pos i with h | h
      · subst h
        simp
      · exact List.pairwise_iff_getElem.mp hs k (k + i) hk _ (by omega)
    simp only [decide_eq_true_eq]
    omega
  have hsplit : s.countP (· < m) = (s.take k).countP (· < m) + (s.drop k).countP (· < m) := by
    rw [← List.countP_append, List.take_append_drop]
  have hlen : (s.take k).countP (· < m) ≤ (s.take k).length := List.countP_le_length
  rw [List.length_take] at hlen
  omega

/-- The median is at least `m` exactly when at most half of the numbers are
below `m`. -/
theorem le_median_iff (h : l ≠ []) (m : Int) : m ≤ median l ↔ l.countP (· < m) ≤ l.length / 2 := by
  have hs : (l.insertionSort (· ≤ ·)).Pairwise (· ≤ ·) := List.pairwise_insertionSort _ l
  obtain ⟨hk, hmed⟩ := median_eq_getElem h
  have hp : (l.insertionSort (· ≤ ·)).countP (· < m) = l.countP (· < m) :=
    (List.perm_insertionSort (· ≤ ·) l).countP_eq _
  rw [hmed, ← hp]
  exact ⟨fun hm => count_of_le_getElem hs hk hm, fun hc => le_getElem_of_count hs hk hc⟩

/-- A new number that is not below the median, in the place of old numbers,
never lowers the median while the list does not get shorter. -/
theorem median_mono {l' : List Int} {t : Int} (h : l ≠ []) (hsub : l'.Sublist l)
    (hlen : l.length ≤ l'.length + 1) (ht : median l ≤ t) : median l ≤ median (t :: l') := by
  rw [le_median_iff (by simp)]
  have hold : l.countP (· < median l) ≤ l.length / 2 := (le_median_iff h _).mp (le_refl _)
  have hnew : l'.countP (· < median l) ≤ l.countP (· < median l) := hsub.countP_le
  have hcons : (t :: l').countP (· < median l) = l'.countP (· < median l) := by
    rw [List.countP_cons_of_neg]
    simp only [decide_eq_true_eq]
    omega
  rw [hcons, List.length_cons]
  omega

/-- No median is above all of its numbers. -/
theorem median_le (h : l ≠ []) {u : Int} (hu : ∀ x ∈ l, x ≤ u) : median l ≤ u :=
  hu _ (median_mem h)

theorem le_median (h : l ≠ []) {u : Int} (hu : ∀ x ∈ l, u ≤ x) : u ≤ median l :=
  hu _ (median_mem h)

end Median
