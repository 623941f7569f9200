-- Lists that stand for a finite table: past the end every place is null,
-- and null places at the end are dropped. A trimmed list is determined by
-- what it holds at each place.
import Mathlib.Data.List.DropRight
import Mathlib.Algebra.BigOperators.Group.List.Basic
import Mathlib.Algebra.Ring.Int.Defs

namespace Trim

variable {α : Type} (isNull : α → Bool) (null : α)

/-- What the table holds at place `n`. -/
def get (l : List α) (n : Nat) : α := (l[n]?).getD null

/-- Drop the null places at the end. -/
def trim (l : List α) : List α := l.rdropWhile isNull

/-- Make the list long enough for place `n`, and write there. -/
def put (l : List α) (n : Nat) (x : α) : List α :=
  (l ++ List.replicate (n + 1 - l.length) null).set n x

/-- The only null element in the list is `null`. -/
def Canonical (l : List α) : Prop := ∀ x ∈ l, isNull x = true → x = null

/-- No null place at the end. -/
def Trimmed (l : List α) : Prop := trim isNull l = l

/-! ## Reading -/

theorem get_of_lt {l : List α} {n : Nat} (h : n < l.length) : get null l n = l[n] := by
  simp [get, h]

theorem get_of_le {l : List α} {n : Nat} (h : l.length ≤ n) : get null l n = null := by
  simp [get, h]

theorem get_concat (l : List α) (x : α) (n : Nat) :
    get null (l ++ [x]) n = if n = l.length then x else get null l n := by
  unfold get
  split
  · rename_i h
    simp [h]
  · rcases Nat.lt_or_ge n l.length with h | h
    · rw [List.getElem?_append_left h]
    · rw [List.getElem?_eq_none (by simp; omega), List.getElem?_eq_none h]

theorem get_set {l : List α} {n : Nat} (h : n < l.length) (x : α) (m : Nat) :
    get null (l.set n x) m = if m = n then x else get null l m := by
  unfold get
  rw [List.getElem?_set]
  by_cases hm : n = m
  · subst hm
    simp [h]
  · rw [if_neg hm, if_neg (Ne.symm hm)]

theorem get_put (l : List α) (n : Nat) (x : α) (m : Nat) :
    get null (put null l n x) m = if m = n then x else get null l m := by
  unfold put
  rw [get_set _ (by simp; omega)]
  congr 1
  unfold get
  rcases Nat.lt_or_ge m l.length with h | h
  · rw [List.getElem?_append_left h]
  · rw [List.getElem?_append_right h, List.getElem?_replicate, List.getElem?_eq_none h]
    split <;> rfl

variable {isNull null}

/-! ## Trimming -/

theorem trim_subset (l : List α) : trim isNull l ⊆ l :=
  (List.rdropWhile_prefix isNull l).subset

theorem trimmed_trim (l : List α) : Trimmed isNull (trim isNull l) :=
  List.rdropWhile_idempotent isNull l

theorem canonical_trim {l : List α} (h : Canonical isNull null l) :
    Canonical isNull null (trim isNull l) :=
  fun x hx => h x (trim_subset l hx)

theorem canonical_set {l : List α} (h : Canonical isNull null l) (n : Nat) {x : α}
    (hx : isNull x = true → x = null) : Canonical isNull null (l.set n x) := by
  intro y hy hn
  rcases List.mem_or_eq_of_mem_set hy with hy | rfl
  · exact h y hy hn
  · exact hx hn

theorem Canonical.get {l : List α} (h : Canonical isNull null l) {n : Nat}
    (hn : isNull (Trim.get null l n) = true) : Trim.get null l n = null := by
  rcases Nat.lt_or_ge n l.length with hlt | hge
  · rw [get_of_lt _ hlt] at hn ⊢
    exact h _ (List.getElem_mem hlt) hn
  · exact get_of_le _ hge

/-- Trimming changes no place that is `null` or not null. -/
theorem get_trim {l : List α} {n : Nat}
    (h : isNull (get null l n) = true → get null l n = null) :
    get null (trim isNull l) n = get null l n := by
  induction l using List.reverseRecOn with
  | nil => rfl
  | append_singleton l x ih =>
    unfold trim at *
    by_cases hx : isNull x = true
    · rw [List.rdropWhile_concat_pos _ _ _ hx]
      rw [get_concat] at h ⊢
      by_cases hn : n = l.length
      · rw [if_pos hn] at h ⊢
        have hle := (List.rdropWhile_prefix isNull l).length_le
        rw [get_of_le _ (by omega), h hx]
      · rw [if_neg hn] at h ⊢
        exact ih h
    · rw [List.rdropWhile_concat_neg _ _ _ hx]

theorem trim_eq_nil_iff {l : List α} : trim isNull l = [] ↔ ∀ x ∈ l, isNull x = true :=
  List.rdropWhile_eq_nil_iff

/-- The last place of a trimmed list is not null. -/
theorem Trimmed.last (null : α) {l : List α} (h : Trimmed isNull l) {n : Nat}
    (hn : n + 1 = l.length) :
    isNull (get null l n) = false := by
  have hne : l ≠ [] := List.ne_nil_of_length_pos (by omega)
  have hlast := List.rdropWhile_eq_self_iff.mp h hne
  rw [List.getLast_eq_getElem] at hlast
  rw [get_of_lt _ (by omega)]
  simpa [← hn] using hlast

theorem trimmed_of_last (null : α) {l : List α}
    (h : ∀ n, n + 1 = l.length → isNull (get null l n) = false) :
    Trimmed isNull l := by
  refine List.rdropWhile_eq_self_iff.mpr fun hne => ?_
  have hpos := List.length_pos_of_ne_nil hne
  have hlast := h (l.length - 1) (by omega)
  rw [get_of_lt _ (by omega)] at hlast
  rw [List.getLast_eq_getElem]
  simpa using hlast

theorem length_put (l : List α) (n : Nat) (x : α) :
    (put null l n x).length = max l.length (n + 1) := by
  simp [put]
  omega

theorem trimmed_put {l : List α} (h : Trimmed isNull l) (n : Nat) {x : α}
    (hx : isNull x = false) : Trimmed isNull (put null l n x) := by
  refine trimmed_of_last null fun m hm => ?_
  rw [length_put] at hm
  rw [get_put]
  split
  · exact hx
  · exact h.last null (by omega)

/-- A trimmed list is never longer than another list with the same places. -/
theorem Trimmed.length_le (hnull : isNull null = true) {l l' : List α} (h : Trimmed isNull l)
    (he : ∀ n, get null l n = get null l' n) : l.length ≤ l'.length := by
  by_contra hlt
  have hlast := h.last null (n := l.length - 1) (by omega)
  rw [he, get_of_le _ (by omega), hnull] at hlast
  cases hlast

/-- Trimmed lists with the same places are the same. -/
theorem Trimmed.ext (hnull : isNull null = true) {l l' : List α} (h : Trimmed isNull l)
    (h' : Trimmed isNull l') (he : ∀ n, get null l n = get null l' n) : l = l' := by
  have hlen : l.length = l'.length :=
    Nat.le_antisymm (h.length_le hnull he) (h'.length_le hnull fun n => (he n).symm)
  refine List.ext_getElem hlen fun n h1 h2 => ?_
  have := he n
  rwa [get_of_lt _ h1, get_of_lt _ h2] at this

/-- Writing back what a place held undoes its removal. -/
theorem put_trim_set (hnull : isNull null = true) {l : List α} (h : Trimmed isNull l)
    (hc : Canonical isNull null l) {n : Nat} (hn : n < l.length)
    (hx : isNull (get null l n) = false) :
    put null (trim isNull (l.set n null)) n (get null l n) = l := by
  refine Trimmed.ext hnull (trimmed_put (trimmed_trim _) n hx) h fun m => ?_
  rw [get_put]
  split
  · rename_i hm
    rw [hm]
  · rename_i hm
    rw [get_trim (canonical_set hc n fun _ => rfl).get, get_set _ hn, if_neg hm]

/-! ## Sums -/

section Sum

variable {f : α → Int}

theorem sum_trim (hf : ∀ x, isNull x = true → f x = 0) (l : List α) :
    ((trim isNull l).map f).sum = (l.map f).sum := by
  induction l using List.reverseRecOn with
  | nil => rfl
  | append_singleton l x ih =>
    unfold trim at *
    by_cases hx : isNull x = true
    · rw [List.rdropWhile_concat_pos _ _ _ hx, ih]
      simp [hf x hx]
    · rw [List.rdropWhile_concat_neg _ _ _ hx]

theorem sum_set (null : α) {l : List α} {n : Nat} (h : n < l.length) (x : α) :
    ((l.set n x).map f).sum = (l.map f).sum - f (get null l n) + f x := by
  induction l generalizing n with
  | nil => cases h
  | cons y l ih =>
    cases n with
    | zero =>
      simp [get]
      omega
    | succ n =>
      have hi := ih (n := n) (by simpa using h)
      simp only [List.set_cons_succ, List.map_cons, List.sum_cons, hi]
      simp only [get, List.getElem?_cons_succ]
      omega

end Sum

end Trim
