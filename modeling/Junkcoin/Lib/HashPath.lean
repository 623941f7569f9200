-- Paths in a hash tree: folding a leaf with its siblings up to the root, and
-- that the root pins the leaf wherever the node hash has no collision.
import Mathlib.Data.Set.Function

namespace HashPath

variable {α : Type}

/-- The two children of the node above `leaf`. In a step, `true` says that
the sibling is on the left. -/
def children (leaf : α) (step : Bool × α) : α × α :=
  if step.1 then (step.2, leaf) else (leaf, step.2)

variable (f : α × α → α)

/-- The root that a path gives to a leaf. -/
def fold (leaf : α) : List (Bool × α) → α
  | [] => leaf
  | step :: path => fold (f (children leaf step)) path

/-- The pairs that are hashed on the way up. -/
def inputs (leaf : α) : List (Bool × α) → List (α × α)
  | [] => []
  | step :: path => children leaf step :: inputs (f (children leaf step)) path

variable {f}

theorem fold_append (leaf : α) (p q : List (Bool × α)) :
    fold f leaf (p ++ q) = fold f (fold f leaf p) q := by
  induction p generalizing leaf with
  | nil => rfl
  | cons step p ih => exact ih _

theorem children_inj {a b : α} {s t : Bool × α} (hs : s.1 = t.1)
    (h : children a s = children b t) : a = b ∧ s = t := by
  obtain ⟨d, x⟩ := s
  obtain ⟨e, y⟩ := t
  cases hs
  unfold children at h
  split at h <;> simp_all

/-- Two paths with the same turns and the same root have the same leaf and
the same siblings, when no two of the pairs that they hash collide. -/
theorem fold_inj {a b : α} {p q : List (Bool × α)} {s : Set (α × α)} (hf : s.InjOn f)
    (ha : ∀ x ∈ inputs f a p, x ∈ s) (hb : ∀ x ∈ inputs f b q, x ∈ s)
    (turns : p.map (·.1) = q.map (·.1)) (h : fold f a p = fold f b q) : a = b ∧ p = q := by
  induction p generalizing a b q with
  | nil =>
    have hq : q = [] := by simpa using turns.symm
    subst hq
    exact ⟨h, rfl⟩
  | cons u p ih =>
    cases q with
    | nil => simp at turns
    | cons v q =>
      simp only [List.map_cons, List.cons.injEq] at turns
      simp only [inputs, List.mem_cons, forall_eq_or_imp] at ha hb
      -- peel the upper part first: it gives the equality of the hashes below
      obtain ⟨hnode, hpq⟩ := ih ha.2 hb.2 turns.2 h
      obtain ⟨hab, huv⟩ := children_inj turns.1 (hf ha.1 hb.1 hnode)
      exact ⟨hab, by rw [huv, hpq]⟩

end HashPath
