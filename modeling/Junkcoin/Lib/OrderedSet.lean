-- Ordered sets: the elements stand in ascending order, each one once. A loop
-- over a set visits them in that order, and sets of sets are ordered by their
-- elements.
import Mathlib.Data.List.Sort
import Mathlib.Data.List.Lex

structure OrderedSet (α : Type) [LinearOrder α] where
  toList : List α
  sorted : toList.SortedLT
  deriving DecidableEq

namespace OrderedSet

variable {α : Type} [LinearOrder α] {s t : OrderedSet α} {a b : α} {l : List α}

instance : Membership α (OrderedSet α) := ⟨fun s a => a ∈ s.toList⟩

instance : Decidable (a ∈ s) := inferInstanceAs (Decidable (a ∈ s.toList))

theorem mem_toList : a ∈ s.toList ↔ a ∈ s := Iff.rfl

@[ext] theorem ext (h : ∀ a, a ∈ s ↔ a ∈ t) : s = t := by
  obtain ⟨l, hl⟩ := s
  obtain ⟨m, hm⟩ := t
  obtain rfl : l = m := hl.eq_of_mem_iff hm h
  rfl

theorem toList_injective : Function.Injective (toList : OrderedSet α → List α) := by
  intro s t h
  exact ext fun a => by rw [← mem_toList, h, mem_toList]

instance : LinearOrder (OrderedSet α) := LinearOrder.lift' toList toList_injective

def empty : OrderedSet α := ⟨[], List.Pairwise.nil.sortedLT⟩

@[simp] theorem not_mem_empty : ¬ a ∈ (empty : OrderedSet α) := List.not_mem_nil

/-! ## Insertion -/

def insertList (a : α) : List α → List α
  | [] => [a]
  | b :: l => if a < b then a :: b :: l else if a = b then b :: l else b :: insertList a l

theorem mem_insertList : b ∈ insertList a l ↔ b = a ∨ b ∈ l := by
  induction l with
  | nil => simp [insertList]
  | cons c l ih =>
    rw [insertList]
    split
    · exact List.mem_cons
    · split
      · rename_i h
        simp [h]
      · rw [List.mem_cons, ih, List.mem_cons]
        exact or_left_comm

theorem sorted_insertList (h : l.SortedLT) : (insertList a l).SortedLT := by
  rw [List.sortedLT_iff_pairwise] at h ⊢
  induction l with
  | nil => exact List.pairwise_singleton _ _
  | cons c l ih =>
    obtain ⟨hc, hl⟩ := List.pairwise_cons.mp h
    rw [insertList]
    split
    · rename_i hac
      refine List.pairwise_cons.mpr ⟨fun x hx => ?_, h⟩
      rcases List.mem_cons.mp hx with rfl | hx
      · exact hac
      · exact hac.trans (hc x hx)
    · rename_i hac
      split
      · exact h
      · rename_i hne
        refine List.pairwise_cons.mpr ⟨fun x hx => ?_, ih hl⟩
        rcases mem_insertList.mp hx with rfl | hx
        · exact lt_of_le_of_ne (not_lt.mp hac) (Ne.symm hne)
        · exact hc x hx

def insert (a : α) (s : OrderedSet α) : OrderedSet α :=
  ⟨insertList a s.toList, sorted_insertList s.sorted⟩

@[simp] theorem mem_insert : b ∈ s.insert a ↔ b = a ∨ b ∈ s := mem_insertList

/-- Insert all elements of another set. -/
def insertAll (s t : OrderedSet α) : OrderedSet α := t.toList.foldl (fun s a => s.insert a) s

theorem mem_foldl_insert : a ∈ l.foldl (fun s a => s.insert a) s ↔ a ∈ s ∨ a ∈ l := by
  induction l generalizing s with
  | nil => simp
  | cons b l ih =>
    rw [List.foldl_cons, ih, mem_insert, List.mem_cons]
    tauto

@[simp] theorem mem_insertAll : a ∈ s.insertAll t ↔ a ∈ s ∨ a ∈ t := mem_foldl_insert

def ofList (l : List α) : OrderedSet α := l.foldl (fun s a => s.insert a) empty

@[simp] theorem mem_ofList : a ∈ ofList l ↔ a ∈ l := by
  rw [ofList, mem_foldl_insert]
  exact or_iff_right not_mem_empty

/-! ## Removal -/

def erase (a : α) (s : OrderedSet α) : OrderedSet α :=
  ⟨s.toList.erase a, (s.sorted.pairwise.sublist List.erase_sublist).sortedLT⟩

theorem nodup (s : OrderedSet α) : s.toList.Nodup := s.sorted.nodup

@[simp] theorem mem_erase : b ∈ s.erase a ↔ b ≠ a ∧ b ∈ s := s.nodup.mem_erase_iff

end OrderedSet
