-- A finite map with the list of its keys: what a search for a key finds, and
-- in which order a loop over the map visits it.
import Mathlib.Data.Finset.Card

structure Table (κ ν : Type) where
  get : κ → Option ν
  keys : List κ
  nodup : keys.Nodup
  mem_keys : ∀ k, k ∈ keys ↔ (get k).isSome

namespace Table

variable {κ ν : Type}

def empty : Table κ ν where
  get _ := none
  keys := []
  nodup := List.nodup_nil
  mem_keys k := by simp

@[simp] theorem get_empty (k : κ) : (empty : Table κ ν).get k = none := rfl

@[simp] theorem keys_empty : (empty : Table κ ν).keys = [] := rfl

variable [DecidableEq κ]

/-- Put a value under a new key; a value that is there stays. -/
def insert (k : κ) (v : ν) (t : Table κ ν) : Table κ ν :=
  match h : t.get k with
  | some _ => t
  | none =>
    { get := Function.update t.get k (some v)
      keys := k :: t.keys
      nodup := List.nodup_cons.mpr ⟨by simp [t.mem_keys, h], t.nodup⟩
      mem_keys := fun k' => by
        by_cases he : k' = k
        · simp [he]
        · simp [he, t.mem_keys] }

def erase (k : κ) (t : Table κ ν) : Table κ ν where
  get := Function.update t.get k none
  keys := t.keys.erase k
  nodup := t.nodup.erase k
  mem_keys k' := by
    rw [t.nodup.mem_erase_iff]
    by_cases he : k' = k
    · simp [he]
    · simp [he, t.mem_keys]

/-- Change the value under a key. -/
def modify (k : κ) (f : ν → ν) (t : Table κ ν) : Table κ ν where
  get := Function.update t.get k ((t.get k).map f)
  keys := t.keys
  nodup := t.nodup
  mem_keys k' := by
    by_cases he : k' = k
    · simp [he, t.mem_keys]
    · simp [he, t.mem_keys]

/-! ## What a search finds -/

variable (t : Table κ ν) {k k' : κ} {v w : ν}

theorem get_insert (hk : t.get k = none) :
    (t.insert k v).get k' = if k' = k then some v else t.get k' := by
  unfold insert
  split
  · rename_i h
    exact nomatch hk.symm.trans h
  · exact Function.update_apply ..

theorem insert_of_some (hk : t.get k = some w) : t.insert k v = t := by
  unfold insert
  split
  · rfl
  · rename_i h
    exact nomatch hk.symm.trans h

theorem get_erase : (t.erase k).get k' = if k' = k then none else t.get k' :=
  Function.update_apply ..

@[simp] theorem keys_erase : (t.erase k).keys = t.keys.erase k := rfl

theorem get_modify (f : ν → ν) :
    (t.modify k f).get k' = if k' = k then (t.get k).map f else t.get k' :=
  Function.update_apply ..

theorem get_modify_cases {t : Table κ ν} {f : ν → ν} (hk : t.get k = some v)
    (h : (t.modify k f).get k' = some w) :
    (k' = k ∧ w = f v) ∨ (k' ≠ k ∧ t.get k' = some w) := by
  rw [get_modify, hk] at h
  split at h
  · rename_i he
    exact Or.inl ⟨he, (Option.some.inj h).symm⟩
  · rename_i he
    exact Or.inr ⟨he, h⟩

end Table
