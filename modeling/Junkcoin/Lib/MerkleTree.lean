-- Hash trees over a list of leaves in which a node without a right sibling is
-- paired with itself. Two lists can have one root then, but only if two
-- siblings are equal in one of the trees.
import Mathlib.Data.Nat.Log
import Mathlib.Data.Set.Function
import Mathlib.Tactic.Ring

namespace MerkleTree

/-! ## Widths -/

/-- The number of nodes at a level above `n` leaves. -/
def width (n level : Nat) : Nat := (n + 2 ^ level - 1) / 2 ^ level

variable {n level pos : Nat}

theorem lt_width : pos < width n level ↔ pos * 2 ^ level < n := by
  have hpos : 0 < 2 ^ level := Nat.two_pow_pos level
  rw [width, Nat.lt_iff_add_one_le, Nat.le_div_iff_mul_le hpos, Nat.add_mul, Nat.one_mul]
  omega

theorem width_zero : width n 0 = n := by simp [width]

theorem width_eq_iff {w : Nat} (hw : 0 < w) :
    width n level = w ↔ (w - 1) * 2 ^ level < n ∧ n ≤ w * 2 ^ level := by
  rw [← lt_width, ← not_lt, ← lt_width]
  omega

theorem width_succ (n level : Nat) : width n (level + 1) = (width n level + 1) / 2 := by
  have hlt (pos : Nat) : pos < width n (level + 1) ↔ pos < (width n level + 1) / 2 := by
    have hpow : pos * 2 ^ (level + 1) = 2 * pos * 2 ^ level := by ring
    rw [lt_width, hpow, ← lt_width]
    omega
  have h1 := hlt (width n (level + 1))
  have h2 := hlt ((width n level + 1) / 2)
  omega

theorem width_pos : 0 < width n level ↔ 0 < n := by
  rw [lt_width, Nat.zero_mul]

/-- The level of the root. -/
def height (n : Nat) : Nat := Nat.clog 2 n

theorem width_le_one : width n level ≤ 1 ↔ height n ≤ level := by
  rw [height, Nat.clog_le_iff_le_pow Nat.one_lt_two, ← not_lt, lt_width, Nat.one_mul, not_lt]

theorem width_height (hn : 0 < n) : width n (height n) = 1 := by
  have h1 : width n (height n) ≤ 1 := width_le_one.mpr (le_refl _)
  have h2 : 0 < width n (height n) := width_pos.mpr hn
  omega

/-! ## Nodes -/

variable {α : Type} (f : α → α → α) (leaf : Nat → α)

/-- The node at a level and a position. -/
def node (n : Nat) : (level : Nat) → (pos : Nat) → α
  | 0, pos => leaf pos
  | level + 1, pos =>
    let left := node n level (2 * pos)
    f left (if 2 * pos + 1 < width n level then node n level (2 * pos + 1) else left)

/-- The two nodes that are hashed for a node. -/
def children (n level pos : Nat) : α × α :=
  (node f leaf n level (2 * pos),
    if 2 * pos + 1 < width n level then node f leaf n level (2 * pos + 1)
    else node f leaf n level (2 * pos))

/-- The root of the tree. -/
def root (n : Nat) : α := node f leaf n (height n) 0

/-- All the pairs that are hashed for a tree. -/
def pairs (n : Nat) : List (α × α) :=
  (List.range (height n)).flatMap fun level =>
    (List.range (width n (level + 1))).map (children f leaf n level)

variable {f leaf}

theorem node_succ : node f leaf n (level + 1) pos =
    Function.uncurry f (children f leaf n level pos) := rfl

theorem children_of_right (h : 2 * pos + 1 < width n level) :
    children f leaf n level pos =
      (node f leaf n level (2 * pos), node f leaf n level (2 * pos + 1)) := by
  rw [children, if_pos h]

theorem children_of_last (h : ¬ 2 * pos + 1 < width n level) :
    children f leaf n level pos =
      (node f leaf n level (2 * pos), node f leaf n level (2 * pos)) := by
  rw [children, if_neg h]

theorem mem_pairs {x : α × α} : x ∈ pairs f leaf n ↔
    ∃ level pos, level < height n ∧ pos < width n (level + 1) ∧
      children f leaf n level pos = x := by
  simp only [pairs, List.mem_flatMap, List.mem_range, List.mem_map]
  constructor
  · rintro ⟨level, hlevel, pos, hpos, hx⟩
    exact ⟨level, pos, hlevel, hpos, hx⟩
  · rintro ⟨level, pos, hlevel, hpos, hx⟩
    exact ⟨level, hlevel, pos, hpos, hx⟩

/-! ## Equal siblings -/

/-- Two siblings that are both there are equal. -/
def Twins (f : α → α → α) (leaf : Nat → α) (n level pos : Nat) : Prop :=
  2 * pos + 1 < width n level ∧
    node f leaf n level (2 * pos) = node f leaf n level (2 * pos + 1)

/-- Two siblings with all their leaves are equal. -/
def FullTwins (f : α → α → α) (leaf : Nat → α) (n level pos : Nat) : Prop :=
  (2 * pos + 2) * 2 ^ level ≤ n ∧
    node f leaf n level (2 * pos) = node f leaf n level (2 * pos + 1)

/-- The pairs below a level are among those of a set without collisions. -/
structure Below (f : α → α → α) (leaf : Nat → α) (n top : Nat) (S : Set (α × α)) : Prop where
  inj : S.InjOn (Function.uncurry f)
  mem : ∀ level pos, level < top → pos < width n (level + 1) → children f leaf n level pos ∈ S

section Collisions

variable {top : Nat} {S : Set (α × α)} (hS : Below f leaf n top S)
include hS

theorem Below.children_eq {p q : Nat} (hlevel : level < top) (hp : p < width n (level + 1))
    (hq : q < width n (level + 1))
    (h : node f leaf n (level + 1) p = node f leaf n (level + 1) q) :
    children f leaf n level p = children f leaf n level q :=
  hS.inj (hS.mem level p hlevel hp) (hS.mem level q hlevel hq) h

/-- A node with all its leaves equals one where the last leaves are doubled
only if it has equal siblings itself. -/
theorem Below.fullTwins_of_eq {p q : Nat} (hlevel : level ≤ top)
    (hp : (p + 1) * 2 ^ level ≤ n) (hq : q < width n level) (hlast : n < (q + 1) * 2 ^ level)
    (h : node f leaf n level p = node f leaf n level q) :
    ∃ l pos, l < level ∧ FullTwins f leaf n l pos := by
  induction level generalizing p q with
  | zero =>
    rw [lt_width] at hq
    omega
  | succ level ih =>
    have hpow : (p + 1) * 2 ^ (level + 1) = (2 * p + 1 + 1) * 2 ^ level := by ring
    have hqpow : (q + 1) * 2 ^ (level + 1) = (2 * q + 1 + 1) * 2 ^ level := by ring
    have hpw : p < width n (level + 1) := by
      rw [lt_width]
      have : p * 2 ^ (level + 1) < (p + 1) * 2 ^ (level + 1) :=
        Nat.mul_lt_mul_of_pos_right (by omega) (Nat.two_pow_pos _)
      omega
    have hpr : 2 * p + 1 < width n level := by
      rw [lt_width]
      have : (2 * p + 1) * 2 ^ level < (2 * p + 1 + 1) * 2 ^ level :=
        Nat.mul_lt_mul_of_pos_right (by omega) (Nat.two_pow_pos _)
      omega
    have hchildren := hS.children_eq (by omega) hpw hq h
    rw [children_of_right hpr] at hchildren
    by_cases hqr : 2 * q + 1 < width n level
    · -- The right child of the other node is there: it is the one that is cut.
      rw [children_of_right hqr, Prod.mk.injEq] at hchildren
      obtain ⟨l, pos, hl, htwins⟩ :=
        ih (by omega) (hpow ▸ hp) hqr (hqpow ▸ hlast) hchildren.2
      exact ⟨l, pos, by omega, htwins⟩
    · rw [children_of_last hqr, Prod.mk.injEq] at hchildren
      exact ⟨level, p, by omega, by rw [hpow] at hp; exact hp,
        hchildren.1.trans hchildren.2.symm⟩

/-- Equal siblings anywhere give equal siblings with all their leaves. -/
theorem Below.fullTwins_of_twins (hlevel : level ≤ top) (h : Twins f leaf n level pos) :
    ∃ l pos, l ≤ level ∧ FullTwins f leaf n l pos := by
  obtain ⟨hright, heq⟩ := h
  by_cases hfull : (2 * pos + 2) * 2 ^ level ≤ n
  · exact ⟨level, pos, le_refl _, hfull, heq⟩
  · have hleft : (2 * pos + 1) * 2 ^ level ≤ n := (lt_width.mp hright).le
    obtain ⟨l, p, hl, htwins⟩ :=
      hS.fullTwins_of_eq hlevel hleft hright (not_le.mp hfull) heq
    exact ⟨l, p, hl.le, htwins⟩

end Collisions

/-! ## Two trees -/

/-- A level of one tree is a level of another. -/
def SameLevel (f : α → α → α) (leaf leaf' : Nat → α) (n n' k k' : Nat) : Prop :=
  width n k = width n' k' ∧
    ∀ pos, pos < width n k → node f leaf n k pos = node f leaf' n' k' pos

section TwoTrees

variable {leaf' : Nat → α} {n' top top' k k' : Nat} {S : Set (α × α)}

/-- The levels below equal levels are equal, unless there are equal
siblings. -/
theorem SameLevel.below (hS : Below f leaf n top S) (hS' : Below f leaf' n' top' S)
    (hk : k < top) (hk' : k' < top') (hno : ∀ pos, ¬ Twins f leaf n k pos)
    (hno' : ∀ pos, ¬ Twins f leaf' n' k' pos)
    (h : SameLevel f leaf leaf' n n' (k + 1) (k' + 1)) : SameLevel f leaf leaf' n n' k k' := by
  obtain ⟨hwidth, hnode⟩ := h
  have hchildren (pos : Nat) (hpos : pos < width n (k + 1)) :
      children f leaf n k pos = children f leaf' n' k' pos :=
    hS.inj (hS.mem k pos hk hpos) (hS'.mem k' pos hk' (hwidth ▸ hpos)) (hnode pos hpos)
  have hleft (pos : Nat) (hpos : pos < width n (k + 1)) :
      node f leaf n k (2 * pos) = node f leaf' n' k' (2 * pos) :=
    congrArg Prod.fst (hchildren pos hpos)
  -- A right child that one tree has and the other lacks would be a twin.
  have hright (pos : Nat) : 2 * pos + 1 < width n k ↔ 2 * pos + 1 < width n' k' := by
    have hw := width_succ n k
    have hw' := width_succ n' k'
    constructor
    · intro hr
      by_contra hr'
      have hpos : pos < width n (k + 1) := by omega
      have hc := hchildren pos hpos
      rw [children_of_right hr, children_of_last hr', Prod.mk.injEq] at hc
      exact hno pos ⟨hr, hc.1.trans hc.2.symm⟩
    · intro hr'
      by_contra hr
      have hpos : pos < width n (k + 1) := by omega
      have hc := hchildren pos hpos
      rw [children_of_last hr, children_of_right hr', Prod.mk.injEq] at hc
      exact hno' pos ⟨hr', hc.1.symm.trans hc.2⟩
  have hw := width_succ n k
  have hw' := width_succ n' k'
  have hsame : width n k = width n' k' := by
    have h3 := hright (width n k / 2 - 1)
    have h4 := hright (width n' k' / 2 - 1)
    omega
  refine ⟨hsame, fun pos hpos => ?_⟩
  obtain ⟨q, rfl | rfl⟩ : ∃ q, pos = 2 * q ∨ pos = 2 * q + 1 := ⟨pos / 2, by omega⟩
  · exact hleft q (by omega)
  · have hc := hchildren q (by omega)
    rw [children_of_right hpos, children_of_right ((hright q).mp hpos), Prod.mk.injEq] at hc
    exact hc.2

/-- Going down the same number of levels. -/
theorem SameLevel.down (hS : Below f leaf n top S) (hS' : Below f leaf' n' top' S) {i : Nat}
    (hk : k + i ≤ top) (hk' : k' + i ≤ top') (hno : ∀ level pos, ¬ Twins f leaf n level pos)
    (hno' : ∀ level pos, ¬ Twins f leaf' n' level pos)
    (h : SameLevel f leaf leaf' n n' (k + i) (k' + i)) : SameLevel f leaf leaf' n n' k k' := by
  induction i with
  | zero => exact h
  | succ i ih =>
    exact ih (by omega) (by omega) (SameLevel.below hS hS' (by omega) (by omega) (hno _)
      (hno' _) h)

end TwoTrees

/-- The pairs of a tree, with those of another. -/
theorem below_pairs {S : Set (α × α)} (hinj : S.InjOn (Function.uncurry f))
    (hmem : ∀ x ∈ pairs f leaf n, x ∈ S) : Below f leaf n (height n) S :=
  ⟨hinj, fun level pos hlevel hpos => hmem _ (mem_pairs.mpr ⟨level, pos, hlevel, hpos, rfl⟩)⟩

/-- Only the levels below the root have siblings. -/
theorem Twins.level_lt (h : Twins f leaf n level pos) : level < height n := by
  have h1 := h.1
  by_contra hle
  have := width_le_one.mpr (not_lt.mp hle)
  omega

section Unique

variable {leaf' : Nat → α} {n' : Nat} {S : Set (α × α)}

/-- A node is a leaf of no tree. -/
theorem not_sameLevel_leaf (hn : 0 < n) {k : Nat} (hk : k < height n')
    (hleaf : ∀ pos < n, ∀ x ∈ pairs f leaf' n', Function.uncurry f x ≠ leaf pos) :
    ¬ SameLevel f leaf leaf' n n' 0 (k + 1) := by
  rintro ⟨hwidth, hnode⟩
  rw [width_zero] at hwidth hnode
  refine hleaf 0 hn (children f leaf' n' k 0) ?_ (hnode 0 hn).symm
  exact mem_pairs.mpr ⟨k, 0, hk, by omega, rfl⟩

/-- Without equal siblings and without collisions, the root fixes the number
of leaves and the leaves. -/
theorem leaves_eq_of_root_eq (hn : 0 < n) (hn' : 0 < n') (hinj : S.InjOn (Function.uncurry f))
    (hmem : ∀ x ∈ pairs f leaf n, x ∈ S) (hmem' : ∀ x ∈ pairs f leaf' n', x ∈ S)
    (hleaf : ∀ pos < n, ∀ x ∈ pairs f leaf' n', Function.uncurry f x ≠ leaf pos)
    (hleaf' : ∀ pos < n', ∀ x ∈ pairs f leaf n, Function.uncurry f x ≠ leaf' pos)
    (hno : ∀ level pos, ¬ Twins f leaf n level pos)
    (hno' : ∀ level pos, ¬ Twins f leaf' n' level pos)
    (hroot : root f leaf n = root f leaf' n') :
    n = n' ∧ ∀ pos < n, leaf pos = leaf' pos := by
  have hS := below_pairs hinj hmem
  have hS' := below_pairs hinj hmem'
  have htop : SameLevel f leaf leaf' n n' (height n) (height n') := by
    rw [SameLevel, width_height hn, width_height hn']
    refine ⟨rfl, fun pos hpos => ?_⟩
    have : pos = 0 := by omega
    rw [this]
    exact hroot
  rcases lt_trichotomy (height n) (height n') with hlt | heq | hgt
  · -- A leaf of the lower tree would be a node of the higher one.
    obtain ⟨d, hd⟩ := Nat.exists_eq_add_of_lt hlt
    have hdown : SameLevel f leaf leaf' n n' 0 (d + 1) :=
      SameLevel.down hS hS' (i := height n) (by omega) (by omega) hno hno' (by
        have h1 : 0 + height n = height n := by omega
        have h2 : d + 1 + height n = height n' := by omega
        rw [h1, h2]
        exact htop)
    exact absurd hdown (not_sameLevel_leaf hn (by omega) hleaf)
  · have hdown : SameLevel f leaf leaf' n n' 0 0 :=
      SameLevel.down hS hS' (i := height n) (by omega) (by omega) hno hno' (by
        rw [Nat.zero_add]
        nth_rewrite 2 [heq]
        exact htop)
    rw [SameLevel, width_zero, width_zero] at hdown
    exact hdown
  · obtain ⟨d, hd⟩ := Nat.exists_eq_add_of_lt hgt
    have htop' : SameLevel f leaf' leaf n' n (height n') (height n) :=
      ⟨htop.1.symm, fun pos hpos => (htop.2 pos (htop.1 ▸ hpos)).symm⟩
    have hdown : SameLevel f leaf' leaf n' n 0 (d + 1) :=
      SameLevel.down hS' hS (i := height n') (by omega) (by omega) hno' hno (by
        have h1 : 0 + height n' = height n' := by omega
        have h2 : d + 1 + height n' = height n := by omega
        rw [h1, h2]
        exact htop')
    exact absurd hdown (not_sameLevel_leaf hn' (by omega) hleaf')

end Unique

end MerkleTree
