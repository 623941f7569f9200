-- `MerkleComputation` with its branch: one loop over the leaves keeps the
-- hashes of full subtrees by the bits of a 32-bit counter, follows the one that
-- has the leaf in question, and collects its siblings.
import Junkcoin.AuxPow
import Junkcoin.MerkleRoot
import Junkcoin.Lib.MerklePath

open MerkleTree

namespace junkcoin

/-! ## The computation -/

/-- What goes up with a hash: the hash, whether it depends on the matching
leaf, and the branch so far. -/
structure Climb where
  h : Uint256
  matchh : Bool
  branch : List Uint256

variable (H : Hashes)

/-- Combine with `inner[level]`. A `matchlevel` of -1 is `none`. -/
def climb (inner : Nat → Uint256) (matchlevel : Option Nat) (level : Nat) (c : Climb) : Climb where
  h := hashNodes H (inner level) c.h
  matchh := c.matchh || matchlevel = some level
  branch :=
    if c.matchh then c.branch ++ [inner level]
    else if matchlevel = some level then c.branch ++ [c.h]
    else c.branch

/-- The loops over the low bits of `count` that are zero; `none` where they
come to the 33rd bit. -/
def climbUp (inner : Nat → Uint256) (matchlevel : Option Nat) (count : Nat) :
    (left : Nat) → (level : Nat) → Climb → Option (Nat × Climb)
  | 0, _, _ => none
  | left + 1, level, c =>
    if count.testBit level then some (level, c)
    else climbUp inner matchlevel count left (level + 1) (climb H inner matchlevel level c)

/-- What the loop over the leaves keeps. -/
structure LeafLoop where
  count : Nat
  inner : Nat → Uint256
  matchlevel : Option Nat
  branch : List Uint256

/-- Process the leaves into `inner` values. The count is a `uint32_t`. -/
def leafLoop (branchpos : Nat) : List Uint256 → LeafLoop → Option LeafLoop
  | [], s => some s
  | leaf :: leaves, s => do
    let count := (s.count + 1) % 2 ^ 32
    let (level, c) ← climbUp H s.inner s.matchlevel count 32 0
      ⟨leaf, s.count = branchpos, s.branch⟩
    leafLoop branchpos leaves
      { count
        inner := Function.update s.inner level c.h
        matchlevel := if c.matchh then some level else s.matchlevel
        branch := c.branch }

/-- The sweep over the rightmost branch of the tree. -/
def sweepLoop (inner : Nat → Uint256) (matchlevel : Option Nat) :
    (fuel : Nat) → (count level : Nat) → Climb → Option Climb
  | 0, _, _, _ => none
  | fuel + 1, count, level, c =>
    if count = 2 ^ level then some c
    else do
      let branch := if c.matchh then c.branch ++ [c.h] else c.branch
      let count := (count + 2 ^ level) % 2 ^ 32
      let (level, c) ← climbUp H inner matchlevel count (31 - level) (level + 1)
        ⟨hashNodes H c.h c.h, c.matchh, branch⟩
      sweepLoop inner matchlevel fuel count level c

/-- `MerkleComputation`: the root and the branch, where it returns. -/
def merkleComputation (leaves : List Uint256) (branchpos : Nat) :
    Option (Uint256 × List Uint256) :=
  if leaves.isEmpty then some (0, [])
  else do
    let s ← leafLoop H branchpos leaves ⟨0, fun _ => 0, none, []⟩
    let level := lowestBit s.count 32 0
    let c ← sweepLoop H s.inner s.matchlevel 33 s.count level
      ⟨s.inner level, s.matchlevel = some level, s.branch⟩
    pure (c.h, c.branch)

def computeMerkleRootFromBranch (hash : Uint256) : List Uint256 → (nIndex : Nat) → Uint256
  | [], _ => hash
  | it :: vMerkleBranch, nIndex =>
    computeMerkleRootFromBranch
      (if nIndex % 2 = 1 then hashNodes H it hash else hashNodes H hash it) vMerkleBranch
      (nIndex / 2)

/-! ## Climbing -/

section Climbing

variable {H} {leaf : Nat → Uint256} {n pos count level : Nat} {inner : Nat → Uint256}
  {matchlevel : Option Nat} {c : Climb}

/-- What the match says while a hash goes up: it is over the leaf at `pos` and
the branch is complete below it, or the leaf is under an `inner` value further
up, or it is still to come. -/
structure Tracks (H : Hashes) (leaf : Nat → Uint256) (n pos count level : Nat)
    (matchlevel : Option Nat) (c : Climb) : Prop where
  matched : c.matchh = true →
    pos / 2 ^ level = count / 2 ^ level - 1 ∧ c.branch = path (hashNodes H) leaf n pos level
  waiting : c.matchh = false → ∀ m ∈ matchlevel, level ≤ m ∧
    c.branch = path (hashNodes H) leaf n pos m ∧
      (2 ^ (m + 1) ∣ count → pos / 2 ^ m = count / 2 ^ m - 2)
  unseen : c.matchh = false → matchlevel = none → c.branch = []

/-- One step keeps it: the sibling is `inner[level]`, or the hash itself. -/
theorem Tracks.climb (h : Tracks H leaf n pos count level matchlevel c) (hcount : 0 < count)
    (hdvd : 2 ^ (level + 1) ∣ count) (hw : count / 2 ^ level ≤ width n level)
    (hinner : inner level = node (hashNodes H) leaf n level (count / 2 ^ level - 2))
    (hh : c.h = node (hashNodes H) leaf n level (count / 2 ^ level - 1)) :
    Tracks H leaf n pos count (level + 1) matchlevel (climb H inner matchlevel level c) := by
  have heven := even_of_dvd hdvd
  have hpos : 0 < count / 2 ^ (level + 1) :=
    Nat.div_pos (Nat.le_of_dvd hcount hdvd) (Nat.two_pow_pos _)
  have hhalf : pos / 2 ^ (level + 1) = pos / 2 ^ level / 2 := by
    rw [pow_succ, Nat.div_div_eq_div_mul]
  refine ⟨fun hm => ?_, fun hm m hlevel => ?_, fun hm hnone => ?_⟩
  · cases hmatch : c.matchh with
    | true =>
      -- the hash is the right child
      obtain ⟨hplace, hbranch⟩ := h.matched hmatch
      refine ⟨by omega, ?_⟩
      simp only [junkcoin.climb, hmatch, if_true]
      rw [hbranch, path_succ, sibling, if_pos (by omega), hinner, hplace, Nat.sub_sub]
    | false =>
      simp only [junkcoin.climb, hmatch, Bool.false_or, decide_eq_true_eq] at hm
      obtain ⟨-, hbranch, hplace⟩ := h.waiting hmatch level (by rw [hm]; rfl)
      have hleft := hplace hdvd
      refine ⟨by omega, ?_⟩
      simp only [junkcoin.climb, hmatch, hm, if_true, Bool.false_eq_true, if_false]
      rw [hbranch, path_succ, sibling, if_neg (by omega), if_pos (by omega), hh, hleft]
      congr 3
      omega
  · simp only [junkcoin.climb, Bool.or_eq_false_iff, decide_eq_false_iff_not] at hm
    obtain ⟨hle, hbranch, hplace⟩ := h.waiting hm.1 m hlevel
    have hne : level ≠ m := fun heq => hm.2 (heq ▸ hlevel)
    refine ⟨by omega, ?_, hplace⟩
    simp only [junkcoin.climb, hm.1, hm.2, if_false, Bool.false_eq_true]
    exact hbranch
  · simp only [junkcoin.climb, Bool.or_eq_false_iff, decide_eq_false_iff_not] at hm
    simp only [junkcoin.climb, hm.1, hm.2, if_false, Bool.false_eq_true]
    exact h.unseen hm.1 hnone

/-- The hash goes up to the next level where it has no left sibling. -/
theorem climbUp_spec (left : Nat) (hcount : 0 < count) (hleft : count < 2 ^ (level + left))
    (hdvd : 2 ^ level ∣ count)
    (hinner : ∀ i, level ≤ i → 2 ^ (i + 1) ∣ count → count / 2 ^ i ≤ width n i ∧
      inner i = node (hashNodes H) leaf n i (count / 2 ^ i - 2))
    (hh : c.h = node (hashNodes H) leaf n level (count / 2 ^ level - 1))
    (htracks : Tracks H leaf n pos count level matchlevel c) :
    ∃ top c', climbUp H inner matchlevel count left level c = some (top, c') ∧ level ≤ top ∧
      2 ^ top ∣ count ∧ count.testBit top = true ∧
      c'.h = node (hashNodes H) leaf n top (count / 2 ^ top - 1) ∧
      (c.matchh = true ∨ matchlevel = none → c'.matchh = c.matchh) ∧
      Tracks H leaf n pos count top matchlevel c' := by
  induction left generalizing level c with
  | zero =>
    have := Nat.le_of_dvd hcount hdvd
    rw [Nat.add_zero] at hleft
    omega
  | succ left ih =>
    rw [climbUp]
    cases hbit : count.testBit level with
    | true => exact ⟨level, c, by simp, le_refl _, hdvd, hbit, hh, fun _ => rfl, htracks⟩
    | false =>
      have hdvd' := dvd_of_not_testBit hdvd hbit
      obtain ⟨hw, hin⟩ := hinner level (le_refl _) hdvd'
      obtain ⟨top, c', hclimb, hle, htop, hbit', hh', hkeep, htracks'⟩ := ih
        (by rw [show level + 1 + left = level + (left + 1) by omega]; exact hleft) hdvd'
        (fun i hi => hinner i (by omega))
        (show (climb H inner matchlevel level c).h = _ by
          rw [climb, hin, hh, hashNodes_left hcount hdvd' hw])
        (htracks.climb hcount hdvd' hw hin hh)
      refine ⟨top, c', hclimb, by omega, htop, hbit', hh', fun hm => ?_, htracks'⟩
      have hsame : (climb H inner matchlevel level c).matchh = c.matchh := by
        rcases hm with hm | hm
        · simp [climb, hm]
        · simp [climb, hm]
      exact (hkeep (hm.imp_left fun hm => hsame.trans hm)).trans hsame

end Climbing

/-! ## The loop over the leaves -/

section Leaves

variable {H} {leaf : Nat → Uint256} {n pos : Nat} {s : LeafLoop}

/-- Once the leaf at `pos` has been processed, it is under the `inner` value of
the match level, and the branch is complete below it. -/
structure LeafInv (H : Hashes) (leaf : Nat → Uint256) (n pos : Nat) (s : LeafLoop) : Prop where
  holds : Holds H leaf n s.inner s.count
  before : s.count ≤ pos → s.matchlevel = none ∧ s.branch = []
  after : pos < s.count → ∃ m, s.matchlevel = some m ∧ s.count.testBit m = true ∧
    pos / 2 ^ m = s.count / 2 ^ m - 1 ∧ s.branch = path (hashNodes H) leaf n pos m

theorem LeafInv.tracks (h : LeafInv H leaf n pos s) (hash : Uint256) :
    Tracks H leaf n pos (s.count + 1) 0 s.matchlevel ⟨hash, s.count = pos, s.branch⟩ := by
  refine ⟨fun hm => ?_, fun hm m hlevel => ?_, fun hm hnone => ?_⟩
  · simp only [decide_eq_true_eq] at hm
    exact ⟨by simp [hm], (h.before hm.le).2⟩
  · have hlt : pos < s.count := by
      by_contra hge
      rw [(h.before (not_lt.mp hge)).1] at hlevel
      cases hlevel
    obtain ⟨m', hm', -, hplace, hbranch⟩ := h.after hlt
    cases hm'.symm.trans hlevel
    refine ⟨Nat.zero_le _, hbranch, fun hdvd => ?_⟩
    have := (div_of_dvd_succ hdvd).1
    omega
  · by_cases hle : s.count ≤ pos
    · exact (h.before hle).2
    · obtain ⟨m, hm', -⟩ := h.after (not_le.mp hle)
      cases hnone.symm.trans hm'

/-- The level of the next leaf was not set in the count before. -/
theorem testBit_lowest_succ {count top : Nat} (hdvd : 2 ^ top ∣ count + 1)
    (hbit : (count + 1).testBit top = true) : count.testBit top = false := by
  have hodd := odd_of_testBit hbit
  have hdiv := Nat.succ_div_of_dvd hdvd
  rw [Nat.testBit_eq_decide_div_mod_eq, decide_eq_false_iff_not]
  omega

theorem LeafInv.next (h : LeafInv H leaf n pos s) {top : Nat} {c : Climb}
    (hdvd : 2 ^ top ∣ s.count + 1) (hbit : (s.count + 1).testBit top = true)
    (hh : c.h = node (hashNodes H) leaf n top ((s.count + 1) / 2 ^ top - 1))
    (hkeep : s.count = pos ∨ s.matchlevel = none → c.matchh = decide (s.count = pos))
    (htracks : Tracks H leaf n pos (s.count + 1) top s.matchlevel c) :
    LeafInv H leaf n pos
      { count := s.count + 1
        inner := Function.update s.inner top c.h
        matchlevel := if c.matchh then some top else s.matchlevel
        branch := c.branch } := by
  refine ⟨hh ▸ h.holds.update hdvd hbit, fun hle => ?_, fun hlt => ?_⟩
  · have hlt : s.count < pos := hle
    have hnone := (h.before (by omega)).1
    have hm : c.matchh = false := by
      rw [hkeep (Or.inr hnone)]
      exact decide_eq_false (by omega)
    refine ⟨?_, htracks.unseen hm hnone⟩
    simpa [hm] using hnone
  · have hle : pos ≤ s.count := Nat.lt_succ_iff.mp hlt
    cases hm : c.matchh with
    | true =>
      obtain ⟨hplace, hbranch⟩ := htracks.matched hm
      exact ⟨top, by simp, hbit, hplace, hbranch⟩
    | false =>
      have hlt' : pos < s.count := by
        refine lt_of_le_of_ne hle fun heq => ?_
        rw [hkeep (Or.inl heq.symm)] at hm
        exact of_decide_eq_false hm heq.symm
      obtain ⟨m, hlevel, hbitm, hplace, -⟩ := h.after hlt'
      obtain ⟨hge, hbranch, -⟩ := htracks.waiting hm m hlevel
      have hne : top ≠ m := by
        rintro rfl
        rw [testBit_lowest_succ hdvd hbit] at hbitm
        cases hbitm
      have hdiv := div_succ_above hdvd hbit (show top < m by omega)
      refine ⟨m, by simpa using hlevel, ?_, by rw [hplace, hdiv], hbranch⟩
      show (s.count + 1).testBit m = true
      rw [Nat.testBit_eq_decide_div_mod_eq, ← hdiv, ← Nat.testBit_eq_decide_div_mod_eq]
      exact hbitm

theorem leafLoop_spec (leaves : List Uint256) (hn : s.count + leaves.length = n)
    (hsmall : n < 2 ^ 32) (hleaf : ∀ i (h : i < leaves.length), leaf (s.count + i) = leaves[i])
    (h : LeafInv H leaf n pos s) :
    ∃ s', leafLoop H pos leaves s = some s' ∧ s'.count = n ∧ LeafInv H leaf n pos s' := by
  induction leaves generalizing s with
  | nil => exact ⟨s, rfl, by simpa using hn, h⟩
  | cons hash leaves ih =>
    rw [List.length_cons] at hn
    have h0 : hash = node (hashNodes H) leaf n 0 ((s.count + 1) / 2 ^ 0 - 1) := by
      have := hleaf 0 (by simp)
      simpa [node] using this.symm
    obtain ⟨top, c, hclimb, -, hdvd, hbit, hh, hkeep, htracks⟩ := climbUp_spec 32
      (show 0 < s.count + 1 by omega) (by omega) (by simp)
      (fun i _ hi => h.holds.left (by omega) hi) h0 (h.tracks hash)
    rw [leafLoop]
    simp only [Nat.mod_eq_of_lt (show s.count + 1 < 2 ^ 32 by omega), hclimb,
      Option.bind_eq_bind, Option.bind_some]
    refine ih (by dsimp only; omega) (fun i hi => ?_)
      (h.next hdvd hbit hh (fun heq => hkeep (heq.imp_left decide_eq_true)) htracks)
    have := hleaf (i + 1) (by simpa using hi)
    rw [show s.count + 1 + i = s.count + (i + 1) by omega]
    simpa using this

end Leaves

/-! ## The sweep -/

section Sweep

variable {H} {leaf : Nat → Uint256} {n pos level : Nat} {inner : Nat → Uint256}
  {matchlevel : Option Nat} {c : Climb}

/-- The hash is the last node of its level; the leaf at `pos` is under it, or
under an `inner` value further up, or there is none. -/
structure SweepInv (H : Hashes) (leaf : Nat → Uint256) (n pos level : Nat)
    (matchlevel : Option Nat) (c : Climb) : Prop where
  last : c.h = node (hashNodes H) leaf n level (width n level - 1)
  matched : c.matchh = true →
    pos / 2 ^ level = width n level - 1 ∧ c.branch = path (hashNodes H) leaf n pos level
  waiting : c.matchh = false → pos < n → ∃ m, matchlevel = some m ∧ level < m ∧
    n.testBit m = true ∧ pos / 2 ^ m = n / 2 ^ m - 1 ∧
      c.branch = path (hashNodes H) leaf n pos m
  absent : n ≤ pos → matchlevel = none ∧ c.matchh = false ∧ c.branch = []

/-- The hash is combined with itself, and is its own sibling. -/
theorem SweepInv.tracks (h : SweepInv H leaf n pos level matchlevel c)
    (hodd : width n level % 2 = 1) (hash : Uint256) :
    Tracks H leaf n pos ((width n level + 1) * 2 ^ level) (level + 1) matchlevel
      ⟨hash, c.matchh, if c.matchh then c.branch ++ [c.h] else c.branch⟩ := by
  have hwidth := (width_of_dvd (Nat.lt_succ_self level) rfl (by omega)
    (sweep_dvd hodd : _ ∣ (width n level + 1) * 2 ^ level)).1
  rw [Nat.succ_eq_add_one, width_succ] at hwidth
  have hhalf : pos / 2 ^ (level + 1) = pos / 2 ^ level / 2 := by
    rw [pow_succ, Nat.div_div_eq_div_mul]
  refine ⟨fun hm => ?_, fun hm m hlevel => ?_, fun hm hnone => ?_⟩
  · obtain ⟨hplace, hbranch⟩ := h.matched hm
    refine ⟨by omega, ?_⟩
    rw [if_pos hm, hbranch, path_succ, sibling, if_neg (by omega), if_neg (by omega), h.last,
      hplace]
  · dsimp only at hm ⊢
    have hpos : pos < n := by
      by_contra hge
      cases (h.absent (not_lt.mp hge)).1.symm.trans hlevel
    obtain ⟨m', hm', hlt, hbit, hplace, hbranch⟩ := h.waiting hm hpos
    cases hm'.symm.trans hlevel
    refine ⟨hlt, by rw [if_neg (by simp [hm])]; exact hbranch, fun hdvd => ?_⟩
    have := (width_of_dvd (n := n) hlt rfl (by omega)
      ((pow_dvd_pow 2 (Nat.le_succ m)).trans hdvd)).2
    omega
  · dsimp only at hm ⊢
    have hpos : n ≤ pos := by
      by_contra hlt
      obtain ⟨m, hm', -⟩ := h.waiting hm (not_le.mp hlt)
      cases hnone.symm.trans hm'
    rw [if_neg (by simp [hm])]
    exact (h.absent hpos).2.2

/-- The match level is no level that the virtual count has instead of the real
one. -/
theorem SweepInv.next {top : Nat} {c' : Climb} (h : SweepInv H leaf n pos level matchlevel c)
    (hodd : width n level % 2 = 1) (hlt : level < top)
    (htop : 2 ^ top ∣ (width n level + 1) * 2 ^ level) (hoddTop : width n top % 2 = 1)
    (hmatch : c.matchh = true ∨ matchlevel = none → c'.matchh = c.matchh)
    (hh : c'.h =
      node (hashNodes H) leaf n top ((width n level + 1) * 2 ^ level / 2 ^ top - 1))
    (htracks : Tracks H leaf n pos ((width n level + 1) * 2 ^ level) top matchlevel c') :
    SweepInv H leaf n pos top matchlevel c' := by
  obtain ⟨hwidth, hdiv⟩ := width_of_dvd (n := n) hlt rfl (by omega) htop
  refine ⟨by rw [hh, hwidth], fun hm => ?_, fun hm hpos => ?_, fun hpos => ?_⟩
  · rw [hwidth]
    exact htracks.matched hm
  · have hm₀ : c.matchh = false := by
      cases hc : c.matchh with
      | true => rw [hmatch (Or.inl hc), hc] at hm; cases hm
      | false => rfl
    obtain ⟨m, hlevel, -, hbit, hplace, -⟩ := h.waiting hm₀ hpos
    obtain ⟨hge, hbranch, -⟩ := htracks.waiting hm m hlevel
    refine ⟨m, hlevel, lt_of_le_of_ne hge ?_, hbit, hplace, hbranch⟩
    rintro rfl
    have := odd_of_testBit hbit
    omega
  · obtain ⟨hnone, hm₀, -⟩ := h.absent hpos
    have hm : c'.matchh = false := (hmatch (Or.inr hnone)).trans hm₀
    exact ⟨hnone, hm, htracks.unseen hm hnone⟩

theorem width_mul_le (hlevel : level ≤ height n) : width n level * 2 ^ level ≤ 2 ^ height n := by
  have hle : width n level ≤ 2 ^ (height n - level) := by
    rw [← not_lt, lt_width, not_lt, ← pow_add, Nat.sub_add_cancel hlevel]
    exact Nat.le_pow_clog Nat.one_lt_two n
  calc width n level * 2 ^ level ≤ 2 ^ (height n - level) * 2 ^ level :=
        Nat.mul_le_mul_right _ hle
    _ = 2 ^ height n := by rw [← pow_add, Nat.sub_add_cancel hlevel]

/-- The counter of the sweep does not leave its 32 bits. -/
theorem sweep_bound (hsmall : n ≤ 2 ^ 31) (hlt : level < height n)
    (hodd : width n level % 2 = 1) : (width n level + 1) * 2 ^ level ≤ 2 ^ 31 := by
  have hheight : height n ≤ 31 := (Nat.clog_le_iff_le_pow Nat.one_lt_two).mpr hsmall
  have hdvd : 2 ^ (level + 1) ∣ (width n level + 1) * 2 ^ level := sweep_dvd hodd
  have hw := (width_of_dvd (Nat.lt_succ_self level) rfl (by omega) hdvd).1
  rw [← Nat.div_mul_cancel hdvd, ← Nat.succ_eq_add_one level, ← hw]
  exact (width_mul_le hlt).trans (Nat.pow_le_pow_right (by decide) hheight)

theorem sweepLoop_spec (hinner : Holds H leaf n inner n) (hn : 0 < n) (hsmall : n ≤ 2 ^ 31)
    {fuel : Nat} (hlevel : level ≤ height n) (hodd : width n level % 2 = 1)
    (hfuel : height n < level + fuel) (h : SweepInv H leaf n pos level matchlevel c) :
    ∃ c', sweepLoop H inner matchlevel fuel (width n level * 2 ^ level) level c = some c' ∧
      c'.h = root (hashNodes H) leaf n ∧
      (pos < n → c'.branch = path (hashNodes H) leaf n pos (height n)) := by
  induction fuel generalizing level c with
  | zero => omega
  | succ fuel ih =>
    rw [sweepLoop]
    by_cases hone : width n level = 1
    · obtain rfl : level = height n := le_antisymm hlevel (width_le_one.mp hone.le)
      refine ⟨c, by rw [hone, Nat.one_mul, if_pos rfl], by rw [h.last, hone]; rfl, fun hpos => ?_⟩
      cases hm : c.matchh with
      | true => exact (h.matched hm).2
      | false =>
        -- no level above the root has a bit of the count
        obtain ⟨m, -, hlt, hbit, -⟩ := h.waiting hm hpos
        have hge := Nat.ge_two_pow_of_testBit hbit
        have hpow : 2 ^ height n < 2 ^ m := Nat.pow_lt_pow_right Nat.one_lt_two hlt
        have hle : n ≤ 2 ^ height n := Nat.le_pow_clog Nat.one_lt_two n
        omega
    · have hne : ¬ width n level * 2 ^ level = 2 ^ level := by
        intro heq
        exact hone (Nat.eq_of_mul_eq_mul_right (Nat.two_pow_pos level) (by omega))
      have hcount : width n level * 2 ^ level + 2 ^ level = (width n level + 1) * 2 ^ level := by
        ring
      have hlt : level < height n := by
        refine lt_of_le_of_ne hlevel fun heq => ?_
        rw [heq, width_height hn] at hone
        exact hone rfl
      have hheight : height n ≤ 31 := (Nat.clog_le_iff_le_pow Nat.one_lt_two).mpr hsmall
      have hdvd : 2 ^ (level + 1) ∣ (width n level + 1) * 2 ^ level := sweep_dvd hodd
      have hbound := sweep_bound hsmall hlt hodd
      obtain ⟨top, c', hclimb, hle, htop, hbit, hh, hmatch, htracks⟩ := climbUp_spec (31 - level)
        (Nat.mul_pos (by omega) (Nat.two_pow_pos level))
        (by rw [show level + 1 + (31 - level) = 32 by omega]; omega) hdvd
        (fun i hi hi' => sweep_left hinner hn rfl (by omega) hi hi')
        (show (⟨hashNodes H c.h c.h, c.matchh, _⟩ : Climb).h = _ by
          rw [h.last]; exact sweep_last rfl hodd)
        (h.tracks hodd (hashNodes H c.h c.h))
      obtain ⟨hmul, htopLe, htopOdd⟩ := sweep_top hn rfl (by omega) hone hle htop hbit
      obtain ⟨c'', hsweep, hroot, hbranch⟩ := ih htopLe htopOdd (by omega)
        (h.next hodd hle htop htopOdd hmatch hh htracks)
      refine ⟨c'', ?_, hroot, hbranch⟩
      rw [if_neg hne, hcount]
      simp only [Nat.mod_eq_of_lt (show (width n level + 1) * 2 ^ level < 2 ^ 32 by omega), hclimb,
        Option.bind_eq_bind, Option.bind_some]
      rw [hmul]
      exact hsweep

/-- After the last leaf the sweep starts at the lowest bit of the count. -/
theorem LeafInv.sweep {s : LeafLoop} (h : LeafInv H leaf n pos s) (hcount : s.count = n)
    (hn : 0 < n) (hdvd : 2 ^ level ∣ n) (hbit : n.testBit level = true) :
    SweepInv H leaf n pos level s.matchlevel
      ⟨s.inner level, s.matchlevel = some level, s.branch⟩ := by
  subst hcount
  have hplace : width s.count level - 1 = s.count / 2 ^ level - 1 := by
    rw [← Nat.mul_div_cancel (width s.count level) (Nat.two_pow_pos level),
      (width_lowest hn hdvd hbit).1]
  refine ⟨by rw [hplace]; exact h.holds level hbit, fun hm => ?_, fun hm hpos => ?_,
    fun hpos => ?_⟩
  · simp only [decide_eq_true_eq] at hm
    have hpos : pos < s.count := by
      by_contra hge
      cases (h.before (not_lt.mp hge)).1.symm.trans hm
    obtain ⟨m, hm', -, hdiv, hbranch⟩ := h.after hpos
    cases hm'.symm.trans hm
    exact ⟨by rw [hplace, hdiv], hbranch⟩
  · simp only [decide_eq_false_iff_not] at hm
    obtain ⟨m, hm', hbitm, hdiv, hbranch⟩ := h.after hpos
    refine ⟨m, hm', ?_, hbitm, hdiv, hbranch⟩
    -- the level is the lowest bit of the count
    by_contra hle
    have hlt : m < level := lt_of_le_of_ne (not_lt.mp hle) fun heq => hm (heq ▸ hm')
    have heven := even_of_dvd ((pow_dvd_pow 2 hlt).trans hdvd)
    have hoddm := odd_of_testBit hbitm
    omega
  · obtain ⟨hnone, hbranch⟩ := h.before hpos
    exact ⟨hnone, by simp [hnone], hbranch⟩

end Sweep

/-! ## The counter -/

section Counter

variable {H} {leaves : List Uint256} {inner : Nat → Uint256} {matchlevel : Option Nat}

theorem leafLoop_start (pos : Nat) (hsmall : leaves.length < 2 ^ 32) :
    ∃ s, leafLoop H pos leaves ⟨0, fun _ => 0, none, []⟩ = some s ∧ s.count = leaves.length ∧
      LeafInv H (leafAt leaves) leaves.length pos s :=
  leafLoop_spec leaves (Nat.zero_add _) hsmall
    (fun i hi => by rw [Nat.zero_add, leafAt_eq hi])
    ⟨fun level hlevel => by simp at hlevel, fun _ => ⟨rfl, rfl⟩,
      fun h => absurd h (Nat.not_lt_zero _)⟩

theorem climbUp_zero (inner : Nat → Uint256) (matchlevel : Option Nat) (left level : Nat)
    (c : Climb) : climbUp H inner matchlevel 0 left level c = none := by
  induction left generalizing level c with
  | zero => rfl
  | succ left ih =>
    rw [climbUp, Nat.zero_testBit, if_neg (by simp)]
    exact ih _ _

/-- After 2^32 leaves the counter is zero, and no bit of it is found. -/
theorem leafLoop_wraps (pos : Nat) (leaves : List Uint256) {s : LeafLoop}
    (hs : s.count < 2 ^ 32) (h : 2 ^ 32 ≤ s.count + leaves.length) :
    leafLoop H pos leaves s = none := by
  induction leaves generalizing s with
  | nil =>
    rw [List.length_nil] at h
    omega
  | cons leaf leaves ih =>
    rw [List.length_cons] at h
    rw [leafLoop]
    by_cases hlast : s.count + 1 = 2 ^ 32
    · rw [hlast, Nat.mod_self, climbUp_zero]
      rfl
    · rw [Nat.mod_eq_of_lt (by omega)]
      cases climbUp H s.inner s.matchlevel (s.count + 1) 32 0
          ⟨leaf, s.count = pos, s.branch⟩ with
      | none => rfl
      | some r => exact ih (by dsimp only; omega) (by dsimp only; omega)

theorem climbUp_some {count left level top : Nat} {c c' : Climb} (hdvd : 2 ^ level ∣ count)
    (h : climbUp H inner matchlevel count left level c = some (top, c')) :
    2 ^ top ∣ count ∧ count.testBit top = true := by
  induction left generalizing level c with
  | zero => cases h
  | succ left ih =>
    rw [climbUp] at h
    cases hbit : count.testBit level with
    | true =>
      rw [hbit, if_pos rfl] at h
      cases h
      exact ⟨hdvd, hbit⟩
    | false =>
      rw [hbit, if_neg (by simp)] at h
      exact ih (dvd_of_not_testBit hdvd hbit) h

/-- Above 2^31 the counter of the sweep is rounded up to 2^32, which is zero. -/
theorem sweepLoop_wraps {fuel count level : Nat} {c : Climb} (hlow : 2 ^ 31 < count)
    (hhigh : count < 2 ^ 32) (hdvd : 2 ^ level ∣ count) (hbit : count.testBit level = true) :
    sweepLoop H inner matchlevel fuel count level c = none := by
  induction fuel generalizing count level c with
  | zero => rfl
  | succ fuel ih =>
    have hle : level ≤ 31 := by
      by_contra hlt
      have hge := Nat.ge_two_pow_of_testBit hbit
      have hpow : 2 ^ 32 ≤ 2 ^ level := Nat.pow_le_pow_right (by decide) (by omega)
      omega
    have hpos := Nat.two_pow_pos level
    have hfull : 2 ^ level ∣ 2 ^ 32 := pow_dvd_pow 2 (by omega)
    have hround : count + 2 ^ level ≤ 2 ^ 32 := by
      have hdiff := Nat.le_of_dvd (by omega) (Nat.dvd_sub hfull hdvd)
      omega
    rw [sweepLoop, if_neg (by omega)]
    dsimp only
    rcases Nat.eq_or_lt_of_le hround with heq | hlt
    · rw [heq, Nat.mod_self, climbUp_zero]
      rfl
    · rw [Nat.mod_eq_of_lt hlt]
      have hnext : 2 ^ (level + 1) ∣ count + 2 ^ level := by
        refine dvd_of_not_testBit (Nat.dvd_add hdvd (Nat.dvd_refl _)) ?_
        rw [Nat.testBit_eq_decide_div_mod_eq, Nat.add_div_right _ hpos]
        have hodd := odd_of_testBit hbit
        exact decide_eq_false (by omega)
      rcases hclimb : climbUp H inner matchlevel (count + 2 ^ level) (31 - level) (level + 1)
        ⟨hashNodes H c.h c.h, c.matchh, if c.matchh then c.branch ++ [c.h] else c.branch⟩ with
        _ | ⟨top, c'⟩
      · rfl
      · obtain ⟨htop, hbit'⟩ := climbUp_some hnext hclimb
        exact ih (by omega) hlt htop hbit'

/-- On more than 2^31 leaves the computation does not return. -/
theorem merkleComputation_of_large (hlarge : 2 ^ 31 < leaves.length) (pos : Nat) :
    merkleComputation H leaves pos = none := by
  have hne : ¬ leaves.isEmpty = true := by
    rw [List.isEmpty_iff, ← List.length_eq_zero_iff]
    omega
  rw [merkleComputation, if_neg hne]
  by_cases hwide : 2 ^ 32 ≤ leaves.length
  · rw [leafLoop_wraps pos leaves (show 0 < 2 ^ 32 by omega) (by dsimp only; omega)]
    rfl
  · obtain ⟨s, hloop, hcount, -⟩ := leafLoop_start (H := H) pos (not_le.mp hwide)
    obtain ⟨hdvd, hbit⟩ :=
      lowestBit_spec 32 0 (show 0 < leaves.length by omega) (by omega) (by simp)
    rw [hloop, Option.bind_eq_bind, Option.bind_some, hcount]
    dsimp only
    rw [sweepLoop_wraps hlarge (by omega) hdvd hbit]
    rfl

end Counter

/-! ## The tree -/

section Tree

variable {H} {leaves : List Uint256}

theorem merkleComputation_spec (hne : leaves ≠ []) (hsmall : leaves.length ≤ 2 ^ 31)
    (pos : Nat) :
    ∃ branch, merkleComputation H leaves pos =
        some (root (hashNodes H) (leafAt leaves) leaves.length, branch) ∧
      (pos < leaves.length → branch =
        path (hashNodes H) (leafAt leaves) leaves.length pos (height leaves.length)) := by
  have hn : 0 < leaves.length := List.length_pos_iff.mpr hne
  obtain ⟨s, hloop, hcount, hinv⟩ := leafLoop_start (H := H) pos
    (show leaves.length < 2 ^ 32 by omega)
  have hholds : Holds H (leafAt leaves) leaves.length s.inner leaves.length := hcount ▸ hinv.holds
  obtain ⟨hdvd, hbit⟩ := lowestBit_spec 32 0 hn (by omega) (by simp)
  have hcompute : merkleComputation H leaves pos =
      (sweepLoop H s.inner s.matchlevel 33 leaves.length (lowestBit leaves.length 32 0)
        ⟨s.inner (lowestBit leaves.length 32 0),
          s.matchlevel = some (lowestBit leaves.length 32 0), s.branch⟩).bind
        fun c => some (c.h, c.branch) := by
    rw [merkleComputation, if_neg (by simpa using hne), hloop, ← hcount]
    rfl
  generalize lowestBit leaves.length 32 0 = level at *
  obtain ⟨hmul, hodd, hlevel⟩ := width_lowest hn hdvd hbit
  have hheight : height leaves.length ≤ 31 :=
    (Nat.clog_le_iff_le_pow Nat.one_lt_two).mpr hsmall
  obtain ⟨c, hc, hroot, hbranch⟩ := sweepLoop_spec hholds hn hsmall hlevel hodd
    (show height leaves.length < level + 33 by omega) (hinv.sweep hcount hn hdvd hbit)
  rw [hmul] at hc
  exact ⟨c.branch, by rw [hcompute, hc, Option.bind_some, hroot], hbranch⟩

theorem branchSteps_snoc (branch : List Uint256) (it : Uint256) (nIndex : Nat) :
    branchSteps (branch ++ [it]) nIndex =
      branchSteps branch nIndex ++ [(decide (nIndex / 2 ^ branch.length % 2 = 1), it)] := by
  induction branch generalizing nIndex with
  | nil =>
    simp only [List.nil_append, branchSteps, List.length_nil, pow_zero, Nat.div_one]
    congr 2
    exact decide_eq_decide.mpr (by omega)
  | cons b branch ih =>
    have hhalf : (nIndex : Int) / 2 = (nIndex / 2 : Nat) := by omega
    rw [List.cons_append, branchSteps, branchSteps, hhalf, ih, List.length_cons, pow_succ',
      Nat.div_div_eq_div_mul]
    rfl

theorem computeMerkleRootFromBranch_eq (hash : Uint256) (branch : List Uint256) (nIndex : Nat) :
    computeMerkleRootFromBranch H hash branch nIndex =
      HashPath.fold (Function.uncurry (hashNodes H)) hash (branchSteps branch nIndex) := by
  induction branch generalizing hash nIndex with
  | nil => rfl
  | cons it branch ih =>
    have hhalf : (nIndex : Int) / 2 = (nIndex / 2 : Nat) := by omega
    rw [computeMerkleRootFromBranch, ih, branchSteps, hhalf, HashPath.fold]
    congr 1
    by_cases hodd : nIndex % 2 = 1
    · rw [if_pos hodd, HashPath.children, if_pos (by simp; omega)]
      rfl
    · rw [if_neg hodd, HashPath.children, if_neg (by simp; omega)]
      rfl

/-- The branch of a leaf leads to the root. -/
theorem fold_path (leaf : Nat → Uint256) {n pos : Nat} (hpos : pos < n) (level : Nat) :
    HashPath.fold (Function.uncurry (hashNodes H)) (leaf pos)
        (branchSteps (path (hashNodes H) leaf n pos level) pos) =
      node (hashNodes H) leaf n level (pos / 2 ^ level) := by
  induction level with
  | zero =>
    rw [pow_zero, Nat.div_one]
    rfl
  | succ level ih =>
    have hlt : pos / 2 ^ level < width n level := by
      rw [lt_width]
      exact lt_of_le_of_lt (Nat.div_mul_le_self _ _) hpos
    rw [path_succ, branchSteps_snoc, length_path, HashPath.fold_append, ih, pow_succ,
      ← Nat.div_div_eq_div_mul, node_half hlt, HashPath.fold, HashPath.fold, HashPath.children]
    simp only [decide_eq_true_eq]
    split
    · rfl
    · rfl

theorem nodes_leafAt : nodes (hashNodes H) (leafAt leaves) leaves.length 0 = leaves := by
  rw [nodes, width_zero]
  refine List.ext_getElem (by simp) fun i hi hi' => ?_
  rw [List.getElem_map, List.getElem_range]
  exact leafAt_eq hi'

theorem ofLe_bytes (h : Uint256) : BitVec.ofNat 256 (Bytes.ofLe h.bytes) = h := by
  have hlt : h.toNat < 256 ^ 32 := h.isLt
  rw [Uint256.bytes, Bytes.ofLe_le, Nat.mod_eq_of_lt hlt, BitVec.ofNat_toNat, BitVec.setWidth_eq]

/-- Every pairing of two hashes is the `hashNodes` of some hash of their bytes. -/
theorem hashNodes_surjective (pairing : Uint256 → Uint256 → Uint256) :
    ∃ H, hashNodes H = pairing := by
  let half (b : List UInt8) : Uint256 := BitVec.ofNat 256 (Bytes.ofLe b)
  refine ⟨⟨fun b => pairing (half (b.take 32)) (half (b.drop 32)), fun _ => 0⟩, ?_⟩
  funext left right
  have hlen : left.bytes.length = 32 := CAuxPow.length_bytes left
  simp only [hashNodes, half, List.take_left' hlen, List.drop_left' hlen, ofLe_bytes]

/-- `ComputeMerkleRoot` and `ComputeMerkleBranch` compute the tree that is built
level by level, and the branch of every leaf leads to its root, where there are
at most 2^31 leaves. On more of them the counter wraps and they do not return. -/
theorem merkle_computation_is_tree_iff (pairing : Uint256 → Uint256 → Uint256)
    (leaves : List Uint256) (hne : leaves ≠ []) :
    ((∃ H, hashNodes H = pairing) ∧ ∀ H, hashNodes H = pairing →
      ∃ hashRoot, merkleRoot pairing leaves = some hashRoot ∧
        (computeMerkleRoot H leaves).1 = hashRoot ∧
        (∀ branchpos, ∃ branch, merkleComputation H leaves branchpos = some (hashRoot, branch)) ∧
        ∀ (pos : Nat) leaf, leaves[pos]? = some leaf → ∃ branch,
          merkleComputation H leaves pos = some (hashRoot, branch) ∧
          computeMerkleRootFromBranch H leaf branch pos = hashRoot ∧
          CAuxPow.checkMerkleBranch H leaf branch pos = hashRoot) ↔
      leaves.length ≤ 2 ^ 31 := by
  constructor
  · rintro ⟨⟨H, hH⟩, htree⟩
    obtain ⟨hashRoot, -, -, hreturns, -⟩ := htree H hH
    obtain ⟨branch, hcompute⟩ := hreturns 0
    by_contra hlarge
    rw [merkleComputation_of_large (not_le.mp hlarge)] at hcompute
    cases hcompute
  intro hsmall
  refine ⟨hashNodes_surjective pairing, fun H hH => ?_⟩
  subst hH
  have hn : 0 < leaves.length := List.length_pos_iff.mpr hne
  refine ⟨root (hashNodes H) (leafAt leaves) leaves.length, ?_,
    (computeMerkleRoot_spec hne (by omega)).1, fun branchpos => ?_, fun pos leaf hleaf => ?_⟩
  · rw [← merkleRoot_nodes hn (Nat.zero_le _), nodes_leafAt]
  · obtain ⟨branch, hcompute, -⟩ := merkleComputation_spec (H := H) hne hsmall branchpos
    exact ⟨branch, hcompute⟩
  · obtain ⟨hpos, hleaf⟩ := List.getElem?_eq_some_iff.mp hleaf
    obtain ⟨branch, hcompute, hbranch⟩ := merkleComputation_spec (H := H) hne hsmall pos
    have hfold := fold_path (H := H) (leafAt leaves) hpos (height leaves.length)
    have htop : pos / 2 ^ height leaves.length = 0 :=
      Nat.div_eq_of_lt (hpos.trans_le (Nat.le_pow_clog Nat.one_lt_two _))
    rw [← hbranch hpos, leafAt_eq hpos, hleaf, htop] at hfold
    refine ⟨branch, hcompute, ?_, ?_⟩
    · rw [computeMerkleRootFromBranch_eq]
      exact hfold
    · exact hfold

/-- Three leaves, where the last one is its own sibling. -/
theorem merkle_computation_of_three : ∃ hashRoot branch,
    merkleRoot (hashNodes remainderHashes) [1, 2, 3] = some hashRoot ∧
      merkleComputation remainderHashes [1, 2, 3] 2 = some (hashRoot, branch) ∧
      CAuxPow.checkMerkleBranch remainderHashes 3 branch 2 = hashRoot := by
  obtain ⟨-, htree⟩ := (merkle_computation_is_tree_iff (hashNodes remainderHashes) [1, 2, 3]
    (by decide)).mpr (by decide)
  obtain ⟨hashRoot, hroot, -, -, hbranch⟩ := htree remainderHashes rfl
  obtain ⟨branch, hcompute, -, hcheck⟩ := hbranch 2 3 rfl
  exact ⟨hashRoot, branch, hroot, hcompute, hcheck⟩

/-- One leaf more than 2^31, which is below the limit that the source gives. -/
theorem merkleComputation_wraps :
    merkleComputation remainderHashes (List.replicate (2 ^ 31 + 1) 0) 0 = none :=
  merkleComputation_of_large (by rw [List.length_replicate]; exact Nat.lt_succ_self _) 0

end Tree

end junkcoin
