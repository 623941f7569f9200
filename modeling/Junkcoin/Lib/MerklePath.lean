-- The tree over a list of leaves level by level, and the siblings on the way
-- from a leaf to the root.
import Junkcoin.Lib.MerkleTree

namespace MerkleTree

variable {α : Type} (f : α → α → α)

/-! ## Level by level -/

/-- The next level: the last node of an odd level is paired with itself. -/
def pairUp : List α → List α
  | [] => []
  | [a] => [f a a]
  | a :: b :: l => f a b :: pairUp l

theorem length_pairUp (l : List α) : (pairUp f l).length = (l.length + 1) / 2 := by
  fun_induction pairUp f l with
  | case1 => simp
  | case2 a => simp
  | case3 a b l ih =>
    simp only [List.length_cons, ih]
    omega

/-- Pair up each level until one node is left. -/
def merkleRoot : List α → Option α
  | [] => none
  | [a] => some a
  | a :: b :: l => merkleRoot (pairUp f (a :: b :: l))
termination_by l => l.length
decreasing_by
  rw [length_pairUp]
  simp only [List.length_cons]
  omega

theorem pairUp_map_range (g : Nat → α) (w : Nat) : pairUp f ((List.range w).map g) =
    (List.range ((w + 1) / 2)).map fun i =>
      f (g (2 * i)) (if 2 * i + 1 < w then g (2 * i + 1) else g (2 * i)) := by
  induction w using Nat.twoStepInduction generalizing g with
  | zero => rfl
  | one => rfl
  | more w ih _ =>
    have hrange : (List.range (w + 2)).map g =
        g 0 :: g 1 :: (List.range w).map fun i => g (i + 2) := by
      rw [List.range_succ_eq_map, List.range_succ_eq_map]
      simp [Function.comp_def]
    rw [hrange, pairUp, ih, show (w + 2 + 1) / 2 = (w + 1) / 2 + 1 by omega,
      List.range_succ_eq_map, List.map_cons, List.map_map]
    refine congrArg₂ List.cons (by simp) (List.map_congr_left fun i _ => ?_)
    change f (g (2 * i + 2)) _ = f (g (2 * i + 2))
      (if 2 * i + 2 + 1 < w + 2 then g (2 * i + 1 + 2) else g (2 * i + 2))
    by_cases hlt : 2 * i + 1 < w
    · rw [if_pos hlt, if_pos (by omega)]
    · rw [if_neg hlt, if_neg (by omega)]

variable {f} {leaf : Nat → α} {n : Nat}

/-- The nodes of a level. -/
def nodes (f : α → α → α) (leaf : Nat → α) (n level : Nat) : List α :=
  (List.range (width n level)).map (node f leaf n level)

theorem pairUp_nodes (level : Nat) : pairUp f (nodes f leaf n level) =
    nodes f leaf n (level + 1) := by
  rw [nodes, pairUp_map_range, nodes, width_succ]
  rfl

theorem merkleRoot_nodes (hn : 0 < n) {level : Nat} (hlevel : level ≤ height n) :
    merkleRoot f (nodes f leaf n level) = some (root f leaf n) := by
  obtain ⟨d, hd⟩ := Nat.exists_eq_add_of_le hlevel
  induction d generalizing level with
  | zero =>
    rw [Nat.add_zero] at hd
    rw [← hd, nodes, width_height hn, root]
    simp [List.range_succ, merkleRoot]
  | succ d ih =>
    have hwide : 1 < width n level := by
      by_contra h
      have := width_le_one.mp (not_lt.mp h)
      omega
    have hlen : (nodes f leaf n level).length = width n level := by simp [nodes]
    have hpair : merkleRoot f (nodes f leaf n (level + 1)) = some (root f leaf n) :=
      ih (by omega) (by omega)
    rw [← pairUp_nodes] at hpair
    match hlist : nodes f leaf n level with
    | [] => simp [hlist] at hlen; omega
    | [a] => simp [hlist] at hlen; omega
    | a :: b :: l =>
      rw [merkleRoot, ← hlist]
      exact hpair

/-! ## Paths -/

/-- The other child of the node above, or the node itself where it has no
sibling. -/
def sibling (f : α → α → α) (leaf : Nat → α) (n level pos : Nat) : α :=
  if pos % 2 = 1 then node f leaf n level (pos - 1)
  else if pos + 1 < width n level then node f leaf n level (pos + 1)
  else node f leaf n level pos

/-- The siblings of a leaf and of the nodes above it, below `level`. -/
def path (f : α → α → α) (leaf : Nat → α) (n pos level : Nat) : List α :=
  (List.range level).map fun i => sibling f leaf n i (pos / 2 ^ i)

theorem path_succ (pos level : Nat) : path f leaf n pos (level + 1) =
    path f leaf n pos level ++ [sibling f leaf n level (pos / 2 ^ level)] := by
  rw [path, List.range_succ, List.map_append]
  rfl

@[simp] theorem length_path (pos level : Nat) : (path f leaf n pos level).length = level := by
  simp [path]

/-- A node and its sibling are hashed for the node above. -/
theorem node_half {level pos : Nat} (hpos : pos < width n level) :
    node f leaf n (level + 1) (pos / 2) =
      if pos % 2 = 1 then f (sibling f leaf n level pos) (node f leaf n level pos)
      else f (node f leaf n level pos) (sibling f leaf n level pos) := by
  rw [node_succ, sibling]
  by_cases hodd : pos % 2 = 1
  · have hleft : 2 * (pos / 2) = pos - 1 := by omega
    have hright : 2 * (pos / 2) + 1 = pos := by omega
    rw [children_of_right (by omega), if_pos hodd, if_pos hodd, hright, hleft]
    rfl
  · have hleft : 2 * (pos / 2) = pos := by omega
    rw [if_neg hodd, if_neg hodd]
    by_cases hlast : pos + 1 < width n level
    · rw [children_of_right (by omega), if_pos hlast, hleft]
      rfl
    · rw [children_of_last (by omega), if_neg hlast, hleft]
      rfl

end MerkleTree
