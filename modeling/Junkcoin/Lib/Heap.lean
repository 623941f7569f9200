-- A heap of cells with explicit deletion. Reading, writing or deleting what is
-- not allocated is a fault. The heap keeps count: an address was deleted as
-- often as it was handed out, except where a cell is allocated now.
import Junkcoin.Lib.Table

/-- What goes wrong at an access to memory. -/
inductive Fault
  | outOfRange
  | useAfterFree
  | doubleFree
  deriving DecidableEq

structure Heap (α : Type) where
  cells : Table Nat α
  given : List Nat
  deleted : List Nat
  balanced : ∀ p, given.count p = deleted.count p + if (cells.get p).isSome then 1 else 0

/-- Where the next cell is put. An address that was deleted may come again or
never. -/
structure Allocator (α : Type) where
  address : Heap α → Nat
  fresh : ∀ h : Heap α, h.cells.get (address h) = none

namespace Heap

variable {α : Type} {h h' : Heap α} {p q : Nat} {v w : α}

def empty : Heap α where
  cells := .empty
  given := []
  deleted := []
  balanced p := by simp

def new (A : Allocator α) (v : α) (h : Heap α) : Heap α where
  cells := h.cells.insert (A.address h) v
  given := A.address h :: h.given
  deleted := h.deleted
  balanced p := by
    rw [Table.get_insert _ (A.fresh h), List.count_cons, h.balanced p]
    by_cases hp : p = A.address h
    · subst hp
      simp [A.fresh h]
    · simp [hp, Ne.symm hp]

def read (p : Nat) (h : Heap α) : Except Fault α :=
  match h.cells.get p with
  | none => .error .useAfterFree
  | some v => .ok v

def write (p : Nat) (v : α) (h : Heap α) : Except Fault (Heap α) :=
  match h.cells.get p with
  | none => .error .useAfterFree
  | some _ => .ok
    { h with
      cells := h.cells.modify p fun _ => v
      balanced := fun q => by
        rw [h.balanced q, Table.get_modify]
        by_cases hq : q = p
        · simp [hq]
        · simp [hq] }

def delete (p : Nat) (h : Heap α) : Except Fault (Heap α) :=
  match hp : h.cells.get p with
  | none => .error .doubleFree
  | some _ => .ok
    { cells := h.cells.erase p
      given := h.given
      deleted := p :: h.deleted
      balanced := fun q => by
        rw [h.balanced q, Table.get_erase, List.count_cons]
        by_cases hq : q = p
        · subst hq
          simp [hp]
        · simp [hq, Ne.symm hq] }

theorem get_new (A : Allocator α) :
    (h.new A v).cells.get q = if q = A.address h then some v else h.cells.get q :=
  Table.get_insert _ (A.fresh h)

theorem read_of_get (hp : h.cells.get p = some v) : h.read p = .ok v := by
  rw [read, hp]

theorem write_of_get (hp : h.cells.get p = some v) : ∃ h', h.write p w = .ok h' ∧
    ∀ q, h'.cells.get q = if q = p then some w else h.cells.get q := by
  rw [write, hp]
  refine ⟨_, rfl, fun q => ?_⟩
  rw [Table.get_modify]
  split <;> simp_all

theorem delete_of_get (hp : h.cells.get p = some v) : ∃ h', h.delete p = .ok h' ∧
    ∀ q, h'.cells.get q = if q = p then none else h.cells.get q := by
  unfold delete
  split
  · rename_i hn
    cases hp.symm.trans hn
  · exact ⟨_, rfl, fun q => Table.get_erase _⟩

/-- When nothing is allocated, every cell was deleted, and no more than once. -/
theorem deleted_of_empty (he : ∀ p, h.cells.get p = none) :
    h.deleted.count p = h.given.count p := by
  rw [h.balanced p, he p]
  rfl

end Heap
