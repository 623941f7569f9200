-- The one-pass computation of `consensus/merkle.cpp` gives the root of the
-- tree over the leaves, and says `mutated` where two siblings with all their
-- leaves are equal. So a root that is not mutated binds the list of leaves.
import Junkcoin.Merkle
import Junkcoin.Lib.MerkleTree

open MerkleTree

namespace junkcoin

variable {H : Hashes}

/-! ## Merging -/

/-- A number that has no bit below `level`, and none there. -/
theorem dvd_of_not_testBit {count level : Nat} (hdvd : 2 ^ level ∣ count)
    (hbit : count.testBit level = false) : 2 ^ (level + 1) ∣ count := by
  obtain ⟨q, rfl⟩ := hdvd
  rw [Nat.testBit_eq_decide_div_mod_eq, Nat.mul_div_cancel_left q (Nat.two_pow_pos level)] at hbit
  have hq : q % 2 = 0 := by
    have := of_decide_eq_false hbit
    omega
  exact Nat.mul_dvd_mul_left _ (Nat.dvd_of_mod_eq_zero hq)

theorem odd_of_testBit {count level : Nat} (hbit : count.testBit level = true) :
    count / 2 ^ level % 2 = 1 := by
  rw [Nat.testBit_eq_decide_div_mod_eq] at hbit
  exact of_decide_eq_true hbit

theorem even_of_dvd {count level : Nat} (hdvd : 2 ^ (level + 1) ∣ count) :
    count / 2 ^ level = 2 * (count / 2 ^ (level + 1)) := by
  obtain ⟨q, rfl⟩ := hdvd
  have hpow : 2 ^ (level + 1) * q = 2 ^ level * (2 * q) := by ring
  rw [Nat.mul_div_cancel_left q (Nat.two_pow_pos _), hpow,
    Nat.mul_div_cancel_left _ (Nat.two_pow_pos _)]

/-- The last node of a level and its left sibling are hashed for the node above. -/
theorem hashNodes_left {leaf : Nat → Uint256} {n count level : Nat} (hcount : 0 < count)
    (hdvd : 2 ^ (level + 1) ∣ count) (hw : count / 2 ^ level ≤ width n level) :
    hashNodes H (node (hashNodes H) leaf n level (count / 2 ^ level - 2))
        (node (hashNodes H) leaf n level (count / 2 ^ level - 1)) =
      node (hashNodes H) leaf n (level + 1) (count / 2 ^ (level + 1) - 1) := by
  have heven := even_of_dvd hdvd
  have hpos : 0 < count / 2 ^ (level + 1) :=
    Nat.div_pos (Nat.le_of_dvd hcount hdvd) (Nat.two_pow_pos _)
  have hleft : count / 2 ^ level - 2 = 2 * (count / 2 ^ (level + 1) - 1) := by omega
  have hright : count / 2 ^ level - 1 = 2 * (count / 2 ^ (level + 1) - 1) + 1 := by omega
  rw [node_succ, children_of_right (by omega), hleft, hright]
  rfl

/-- `mergeUp` goes from the last node of a level to the last node of the next
level where it has no left sibling. -/
theorem mergeUp_spec {leaf : Nat → Uint256} {n : Nat} {inner : Nat → Uint256}
    {count : Nat} (fuel level : Nat) (mutated : Bool) (hcount : 0 < count)
    (hfuel : count < 2 ^ (level + fuel)) (hdvd : 2 ^ level ∣ count)
    (hwidth : ∀ i, level ≤ i → 2 ^ (i + 1) ∣ count → count / 2 ^ i ≤ width n i)
    (hinner : ∀ i, level ≤ i → 2 ^ (i + 1) ∣ count →
      inner i = node (hashNodes H) leaf n i (count / 2 ^ i - 2)) :
    ∃ top m, mergeUp H inner count fuel level
        (node (hashNodes H) leaf n level (count / 2 ^ level - 1)) mutated =
        (top, node (hashNodes H) leaf n top (count / 2 ^ top - 1), m) ∧
      level ≤ top ∧ 2 ^ top ∣ count ∧ count.testBit top = true ∧
      (m = true ↔ mutated = true ∨ ∃ i, level ≤ i ∧ i < top ∧
        node (hashNodes H) leaf n i (count / 2 ^ i - 2) =
          node (hashNodes H) leaf n i (count / 2 ^ i - 1)) := by
  induction fuel generalizing level mutated with
  | zero =>
    have := Nat.le_of_dvd hcount hdvd
    rw [Nat.add_zero] at hfuel
    omega
  | succ fuel ih =>
    rw [mergeUp]
    cases hbit : count.testBit level with
    | true =>
      refine ⟨level, mutated, by simp, le_refl _, hdvd, hbit, ?_⟩
      constructor
      · exact Or.inl
      · rintro (h | ⟨i, h1, h2, _⟩)
        · exact h
        · omega
    | false =>
      have hdvd' := dvd_of_not_testBit hdvd hbit
      have hin := hinner level (le_refl _) hdvd'
      rw [if_neg (by simp), hin, hashNodes_left hcount hdvd' (hwidth level (le_refl _) hdvd')]
      obtain ⟨top, m, hmerge, hle, htop, hbit', hm⟩ := ih (level + 1)
        (mutated || node (hashNodes H) leaf n level (count / 2 ^ level - 2) ==
          node (hashNodes H) leaf n level (count / 2 ^ level - 1))
        (by rw [show level + 1 + fuel = level + (fuel + 1) by omega]; exact hfuel) hdvd'
        (fun i hi => hwidth i (by omega)) (fun i hi => hinner i (by omega))
      refine ⟨top, m, hmerge, by omega, htop, hbit', hm.trans ?_⟩
      rw [Bool.or_eq_true, beq_iff_eq]
      constructor
      · rintro ((h | h) | ⟨i, h1, h2, h3⟩)
        · exact Or.inl h
        · exact Or.inr ⟨level, le_refl _, by omega, h⟩
        · exact Or.inr ⟨i, by omega, h2, h3⟩
      · rintro (h | ⟨i, h1, h2, h3⟩)
        · exact Or.inl (Or.inl h)
        · rcases Nat.eq_or_lt_of_le h1 with rfl | hlt
          · exact Or.inl (Or.inr h3)
          · exact Or.inr ⟨i, hlt, h2, h3⟩

/-! ## The loop over the leaves -/

variable {leaf : Nat → Uint256} {n : Nat} (leaves : List Uint256)

/-- For every bit of the count there is the node over that many leaves. -/
def Holds (H : Hashes) (leaf : Nat → Uint256) (n : Nat) (inner : Nat → Uint256) (count : Nat) :
    Prop :=
  ∀ level, count.testBit level = true →
    inner level = node (hashNodes H) leaf n level (count / 2 ^ level - 1)

/-- Two equal siblings over the first `count` leaves. -/
def Doubled (H : Hashes) (leaf : Nat → Uint256) (n count : Nat) : Prop :=
  ∃ level pos, (2 * pos + 2) * 2 ^ level ≤ count ∧
    node (hashNodes H) leaf n level (2 * pos) = node (hashNodes H) leaf n level (2 * pos + 1)

/-- Below the lowest bit of `count + 1`, the bits of `count` are set. -/
theorem div_of_dvd_succ {count level : Nat} (hdvd : 2 ^ (level + 1) ∣ count + 1) :
    count / 2 ^ level = (count + 1) / 2 ^ level - 1 ∧ count.testBit level = true := by
  have heven := even_of_dvd hdvd
  have hpos : 0 < (count + 1) / 2 ^ (level + 1) :=
    Nat.div_pos (Nat.le_of_dvd (by omega) hdvd) (Nat.two_pow_pos _)
  have hdiv : count / 2 ^ level = (count + 1) / 2 ^ level - 1 := by
    obtain ⟨q, hq⟩ := (pow_dvd_pow 2 (Nat.le_succ level)).trans hdvd
    have hq' : (count + 1) / 2 ^ level = q := by
      rw [hq, Nat.mul_div_cancel_left q (Nat.two_pow_pos _)]
    rw [hq']
    have hpow := Nat.two_pow_pos level
    rw [Nat.div_eq_iff hpow]
    obtain ⟨r, rfl⟩ : ∃ r, q = r + 1 := ⟨q - 1, by omega⟩
    have hexp : 2 ^ level * (r + 1) = r * 2 ^ level + 2 ^ level := by ring
    rw [Nat.add_sub_cancel]
    omega
  refine ⟨hdiv, ?_⟩
  rw [Nat.testBit_eq_decide_div_mod_eq, decide_eq_true_iff, hdiv]
  omega

/-- Above the lowest bit of `count + 1`, the bits are those of `count`. -/
theorem div_succ_above {count top level : Nat} (hdvd : 2 ^ top ∣ count + 1)
    (hbit : (count + 1).testBit top = true) (hlt : top < level) :
    count / 2 ^ level = (count + 1) / 2 ^ level := by
  have hodd := odd_of_testBit hbit
  obtain ⟨q, hq⟩ := hdvd
  rw [hq, Nat.mul_div_cancel_left q (Nat.two_pow_pos _)] at hodd
  have hpow := Nat.two_pow_pos top
  have htop : count / 2 ^ (top + 1) = (count + 1) / 2 ^ (top + 1) := by
    obtain ⟨r, rfl⟩ : ∃ r, q = 2 * r + 1 := ⟨q / 2, by omega⟩
    have h1 : 2 ^ top * (2 * r + 1) = r * 2 ^ (top + 1) + 2 ^ top := by ring
    have h3 : count / 2 ^ (top + 1) = r := by
      rw [Nat.div_eq_iff (Nat.two_pow_pos _)]
      omega
    have h4 : (count + 1) / 2 ^ (top + 1) = r := by
      rw [Nat.div_eq_iff (Nat.two_pow_pos _)]
      omega
    rw [h3, h4]
  obtain ⟨d, rfl⟩ := Nat.exists_eq_add_of_le (Nat.succ_le_of_lt hlt)
  rw [Nat.succ_eq_add_one, pow_add, ← Nat.div_div_eq_div_mul, htop, Nat.div_div_eq_div_mul]

theorem doubled_succ {count top : Nat} (hdvd : 2 ^ top ∣ count + 1)
    (hbit : (count + 1).testBit top = true) :
    Doubled H leaf n (count + 1) ↔ Doubled H leaf n count ∨ ∃ i, 0 ≤ i ∧ i < top ∧
      node (hashNodes H) leaf n i ((count + 1) / 2 ^ i - 2) =
        node (hashNodes H) leaf n i ((count + 1) / 2 ^ i - 1) := by
  constructor
  · rintro ⟨level, pos, hle, heq⟩
    rcases Nat.lt_or_eq_of_le hle with hlt | hcount
    · exact Or.inl ⟨level, pos, by omega, heq⟩
    · have hdiv : (count + 1) / 2 ^ level = 2 * pos + 2 := by
        rw [← hcount, Nat.mul_div_cancel _ (Nat.two_pow_pos _)]
      have hlevel : level < top := by
        by_contra hge
        have hpow : 2 ^ (top + 1) ∣ count + 1 := by
          refine (pow_dvd_pow 2 (show top + 1 ≤ level + 1 by omega)).trans ⟨pos + 1, ?_⟩
          rw [← hcount]
          ring
        have hodd := odd_of_testBit hbit
        have heven := even_of_dvd hpow
        omega
      refine Or.inr ⟨level, by omega, hlevel, ?_⟩
      rw [hdiv]
      exact heq
  · rintro (⟨level, pos, hle, heq⟩ | ⟨i, _, hi, heq⟩)
    · exact ⟨level, pos, by omega, heq⟩
    · have hpow : 2 ^ (i + 1) ∣ count + 1 := (pow_dvd_pow 2 (show i + 1 ≤ top by omega)).trans hdvd
      have heven := even_of_dvd hpow
      obtain ⟨q, hq⟩ := hpow
      have hq' : (count + 1) / 2 ^ (i + 1) = q := by
        rw [hq, Nat.mul_div_cancel_left q (Nat.two_pow_pos _)]
      have hpos : 0 < q := by
        rcases Nat.eq_zero_or_pos q with rfl | h
        · omega
        · exact h
      refine ⟨i, q - 1, ?_, ?_⟩
      · obtain ⟨r, rfl⟩ : ∃ r, q = r + 1 := ⟨q - 1, by omega⟩
        rw [hq, Nat.add_sub_cancel]
        apply le_of_eq
        ring
      · have h1 : 2 * (q - 1) = (count + 1) / 2 ^ i - 2 := by omega
        have h2 : 2 * (q - 1) + 1 = (count + 1) / 2 ^ i - 1 := by omega
        rw [h2, h1]
        exact heq

/-- The nodes that the next leaf is merged with. -/
theorem Holds.left {inner : Nat → Uint256} {count : Nat} (hinner : Holds H leaf n inner count)
    (hn : count < n) {i : Nat} (hi : 2 ^ (i + 1) ∣ count + 1) :
    (count + 1) / 2 ^ i ≤ width n i ∧
      inner i = node (hashNodes H) leaf n i ((count + 1) / 2 ^ i - 2) := by
  constructor
  · have hpos : 0 < (count + 1) / 2 ^ i :=
      Nat.div_pos (Nat.le_of_dvd (by omega) ((pow_dvd_pow 2 (Nat.le_succ i)).trans hi))
        (Nat.two_pow_pos _)
    have hlt : (count + 1) / 2 ^ i - 1 < width n i := by
      rw [lt_width]
      have hle := Nat.div_mul_le_self (count + 1) (2 ^ i)
      have hmul : ((count + 1) / 2 ^ i - 1) * 2 ^ i < (count + 1) / 2 ^ i * 2 ^ i :=
        Nat.mul_lt_mul_of_pos_right (by omega) (Nat.two_pow_pos _)
      omega
    omega
  · obtain ⟨hdiv, hbit⟩ := div_of_dvd_succ hi
    rw [hinner i hbit, hdiv, Nat.sub_sub]

/-- The node that the next leaf gives is stored at the lowest bit of the count. -/
theorem Holds.update {inner : Nat → Uint256} {count top : Nat}
    (hinner : Holds H leaf n inner count) (hdvd : 2 ^ top ∣ count + 1)
    (hbit : (count + 1).testBit top = true) :
    Holds H leaf n (Function.update inner top
      (node (hashNodes H) leaf n top ((count + 1) / 2 ^ top - 1))) (count + 1) := by
  intro level hlevel
  rcases lt_trichotomy level top with hlt | rfl | hgt
  · have heven := even_of_dvd ((pow_dvd_pow 2 (show level + 1 ≤ top by omega)).trans hdvd)
    have hodd := odd_of_testBit hlevel
    omega
  · rw [Function.update_self]
  · rw [Function.update_of_ne (by omega), ← div_succ_above hdvd hbit hgt]
    refine hinner level ?_
    rw [Nat.testBit_eq_decide_div_mod_eq, decide_eq_true_iff, div_succ_above hdvd hbit hgt]
    exact odd_of_testBit hlevel

/-- The loop over the leaves leaves the nodes over them in `inner`. -/
theorem addLeaves_spec {count : Nat} {inner : Nat → Uint256} {mutated : Bool}
    (hn : count + leaves.length = n) (hsmall : n < 2 ^ 32)
    (hleaf : ∀ i (h : i < leaves.length), leaf (count + i) = leaves[i])
    (hinner : Holds H leaf n inner count) (hmut : mutated = true ↔ Doubled H leaf n count) :
    ∃ inner' m, addLeaves H leaves count inner mutated = (n, inner', m) ∧
      Holds H leaf n inner' n ∧ (m = true ↔ Doubled H leaf n n) := by
  induction leaves generalizing count inner mutated with
  | nil =>
    subst hn
    exact ⟨inner, mutated, rfl, hinner, hmut⟩
  | cons h leaves ih =>
    rw [List.length_cons] at hn
    have h0 : h = node (hashNodes H) leaf n 0 ((count + 1) / 2 ^ 0 - 1) := by
      have := hleaf 0 (by simp)
      simpa [node] using this.symm
    obtain ⟨top, m, hmerge, _, hdvd, hbit, hm⟩ := mergeUp_spec 32 0 mutated
      (show 0 < count + 1 by omega) (by omega) (by simp)
      (fun i _ hi => (hinner.left (by omega) hi).1) fun i _ hi => (hinner.left (by omega) hi).2
    rw [← h0] at hmerge
    rw [addLeaves, hmerge]
    refine ih (by omega) (fun i hi => ?_) (hinner.update hdvd hbit) ?_
    · have := hleaf (i + 1) (by simpa using hi)
      rw [show count + 1 + i = count + (i + 1) by omega]
      simpa using this
    · rw [hm, hmut, ← doubled_succ hdvd hbit]

/-! ## The sweep -/

/-- The widths of the levels that the sweep merges: where the virtual count is
one node above a level of odd width, it is the width of every level that
divides it. -/
theorem width_of_dvd {level i : Nat} (hlt : level < i) {w : Nat} (hw : width n level = w)
    (hpos : 0 < w) (hdvd : 2 ^ i ∣ (w + 1) * 2 ^ level) :
    width n i = (w + 1) * 2 ^ level / 2 ^ i ∧
      n / 2 ^ i = (w + 1) * 2 ^ level / 2 ^ i - 1 := by
  obtain ⟨hlow, hhigh⟩ := (width_eq_iff hpos).mp hw
  obtain ⟨v, hv⟩ := hdvd
  have hpow := Nat.two_pow_pos i
  have hpow' := Nat.two_pow_pos level
  have hstep : 2 * 2 ^ level ≤ 2 ^ i := by
    have := Nat.pow_le_pow_right (show 0 < 2 by omega) (show level + 1 ≤ i by omega)
    omega
  have hvpos : 0 < v := by
    rcases Nat.eq_zero_or_pos v with rfl | h
    · rw [Nat.mul_zero, Nat.mul_eq_zero] at hv
      omega
    · exact h
  obtain ⟨u, rfl⟩ : ∃ u, v = u + 1 := ⟨v - 1, by omega⟩
  obtain ⟨x, rfl⟩ : ∃ x, w = x + 1 := ⟨w - 1, by omega⟩
  have h1 : (x + 1 + 1) * 2 ^ level = x * 2 ^ level + 2 * 2 ^ level := by ring
  have h2 : 2 ^ i * (u + 1) = u * 2 ^ i + 2 ^ i := by ring
  have h3 : (x + 1) * 2 ^ level = x * 2 ^ level + 2 ^ level := by ring
  rw [Nat.add_sub_cancel] at hlow
  rw [hv, Nat.mul_div_cancel_left _ hpow, width_eq_iff (by omega), Nat.add_sub_cancel,
    Nat.div_eq_iff hpow]
  have h4 : (u + 1) * 2 ^ i = u * 2 ^ i + 2 ^ i := by ring
  omega

section Sweep

variable {inner : Nat → Uint256} {level w : Nat}

theorem sweep_dvd (hodd : w % 2 = 1) : 2 ^ (level + 1) ∣ (w + 1) * 2 ^ level := by
  refine ⟨(w + 1) / 2, ?_⟩
  have hhalf : w + 1 = 2 * ((w + 1) / 2) := by omega
  calc (w + 1) * 2 ^ level = 2 * ((w + 1) / 2) * 2 ^ level := by rw [← hhalf]
    _ = 2 ^ (level + 1) * ((w + 1) / 2) := by ring

/-- A last node without a sibling is merged with itself. -/
theorem sweep_last (hw : width n level = w) (hodd : w % 2 = 1) :
    hashNodes H (node (hashNodes H) leaf n level (w - 1))
        (node (hashNodes H) leaf n level (w - 1)) =
      node (hashNodes H) leaf n (level + 1) ((w + 1) * 2 ^ level / 2 ^ (level + 1) - 1) := by
  have hwidths := (width_of_dvd (n := n) (Nat.lt_succ_self level) hw (by omega)
    (sweep_dvd hodd)).1
  have hsucc := width_succ n level
  have hpos : w - 1 = 2 * ((w + 1) * 2 ^ level / 2 ^ (level + 1) - 1) := by
    rw [← hwidths, Nat.succ_eq_add_one, hsucc, hw]
    omega
  rw [node_succ, children_of_last (by rw [hw]; omega), ← hpos]
  rfl

/-- The nodes that it is merged with further up. -/
theorem sweep_left (hinner : Holds H leaf n inner n) (hn : 0 < n) (hw : width n level = w)
    (hwpos : 0 < w) {i : Nat} (hi : level < i) (hi' : 2 ^ (i + 1) ∣ (w + 1) * 2 ^ level) :
    (w + 1) * 2 ^ level / 2 ^ i ≤ width n i ∧
      inner i = node (hashNodes H) leaf n i ((w + 1) * 2 ^ level / 2 ^ i - 2) := by
  obtain ⟨hwi, hdiv⟩ := width_of_dvd (n := n) hi hw hwpos
    ((pow_dvd_pow 2 (Nat.le_succ i)).trans hi')
  have heven := even_of_dvd hi'
  have hipos : 0 < width n i := width_pos.mpr hn
  have hbit : n.testBit i = true := by
    rw [Nat.testBit_eq_decide_div_mod_eq, decide_eq_true_iff]
    omega
  exact ⟨hwi.ge, by rw [hinner i hbit, hdiv, Nat.sub_sub]⟩

/-- The level where it has no left sibling is of odd width again. -/
theorem sweep_top (hn : 0 < n) (hw : width n level = w) (hwpos : 0 < w) (hone : w ≠ 1) {top : Nat}
    (hlt : level < top) (htop : 2 ^ top ∣ (w + 1) * 2 ^ level)
    (hbit : ((w + 1) * 2 ^ level).testBit top = true) :
    (w + 1) * 2 ^ level = width n top * 2 ^ top ∧ top ≤ height n ∧ width n top % 2 = 1 := by
  have hwtop := (width_of_dvd (n := n) hlt hw hwpos htop).1
  refine ⟨?_, ?_, ?_⟩
  · rw [hwtop, Nat.div_mul_cancel htop]
  · by_contra hgt
    -- The level below `top` was merged, so it is wider than one.
    have hwide : 1 < width n (top - 1) := by
      rcases Nat.eq_or_lt_of_le (Nat.succ_le_of_lt hlt) with heq | hlt'
      · rw [← heq, Nat.succ_sub_one, hw]
        omega
      · have hwt := (width_of_dvd (n := n) (show level < top - 1 by omega) hw hwpos
          ((pow_dvd_pow 2 (Nat.sub_le top 1)).trans htop)).1
        have heven : (w + 1) * 2 ^ level / 2 ^ (top - 1) =
            2 * ((w + 1) * 2 ^ level / 2 ^ (top - 1 + 1)) :=
          even_of_dvd (by rw [show top - 1 + 1 = top by omega]; exact htop)
        have hpos : 0 < width n (top - 1) := width_pos.mpr hn
        omega
    have := width_le_one.mpr (show height n ≤ top - 1 by omega)
    omega
  · rw [hwtop]
    exact odd_of_testBit hbit

/-- Where the last node of a level has no sibling, it is merged with itself and
then up to the next such level. -/
theorem sweep_step (hinner : Holds H leaf n inner n) (hn : 0 < n) (hsmall : n < 2 ^ 32)
    (hw : width n level = w) (hodd : w % 2 = 1) (hone : w ≠ 1) :
    ∃ top m, mergeUp H inner ((w + 1) * 2 ^ level) 32 (level + 1)
        (hashNodes H (node (hashNodes H) leaf n level (w - 1))
          (node (hashNodes H) leaf n level (w - 1))) false =
        (top, node (hashNodes H) leaf n top (width n top - 1), m) ∧
      (w + 1) * 2 ^ level = width n top * 2 ^ top ∧ level < top ∧ top ≤ height n ∧
      width n top % 2 = 1 := by
  have hpow := Nat.two_pow_pos level
  have hwpos : 0 < w := by omega
  have hlow := ((width_eq_iff hwpos).mp hw).1
  have hfuel : (w + 1) * 2 ^ level < 2 ^ (level + 1 + 32) := by
    have h1 : (w + 1) * 2 ^ level = (w - 1) * 2 ^ level + 2 * 2 ^ level := by
      obtain ⟨x, rfl⟩ : ∃ x, w = x + 1 := ⟨w - 1, by omega⟩
      rw [Nat.add_sub_cancel]
      ring
    have h2 : 2 ^ (level + 1 + 32) = 2 ^ 33 * 2 ^ level := by ring
    omega
  obtain ⟨top, m, hmerge, hle, htop, hbit, _⟩ := mergeUp_spec (H := H) 32 (level + 1) false
    (Nat.mul_pos (by omega) hpow) hfuel (sweep_dvd hodd)
    (fun i hi hi' => (sweep_left hinner hn hw hwpos hi hi').1)
    fun i hi hi' => (sweep_left hinner hn hw hwpos hi hi').2
  obtain ⟨hmul, htopLe, htopOdd⟩ := sweep_top hn hw hwpos hone hle htop hbit
  refine ⟨top, m, ?_, hmul, by omega, htopLe, htopOdd⟩
  rw [sweep_last hw hodd, hmerge, hmul, Nat.mul_div_cancel _ (Nat.two_pow_pos top)]

end Sweep

/-- The sweep goes from the last node of a level of odd width to the root. -/
theorem sweep_spec {inner : Nat → Uint256} (hinner : Holds H leaf n inner n) (hn : 0 < n)
    (hsmall : n < 2 ^ 32) {fuel level : Nat} (hlevel : level ≤ height n)
    (hodd : width n level % 2 = 1) (hfuel : height n ≤ level + fuel) :
    sweep H inner fuel (width n level * 2 ^ level) level
      (node (hashNodes H) leaf n level (width n level - 1)) = root (hashNodes H) leaf n := by
  induction fuel generalizing level with
  | zero =>
    have heq : level = height n := by omega
    subst heq
    rw [width_height hn]
    rfl
  | succ fuel ih =>
    rw [sweep]
    by_cases hone : width n level = 1
    · have heq : level = height n := by
        have := width_le_one.mp hone.le
        omega
      subst heq
      rw [hone, Nat.one_mul, if_pos rfl]
      rfl
    · have hne : ¬ width n level * 2 ^ level = 2 ^ level := by
        intro h
        exact hone (Nat.eq_of_mul_eq_mul_right (Nat.two_pow_pos level) (by omega))
      have hcount : width n level * 2 ^ level + 2 ^ level = (width n level + 1) * 2 ^ level := by
        ring
      obtain ⟨top, m, hmerge, hmul, hlt, hle, hoddtop⟩ := sweep_step hinner hn hsmall rfl hodd hone
      rw [if_neg hne, hcount]
      dsimp only
      rw [hmerge, hmul]
      exact ih hle hoddtop (by omega)

theorem lowestBit_spec {count : Nat} (fuel level : Nat) (hcount : 0 < count)
    (hfuel : count < 2 ^ (level + fuel)) (hdvd : 2 ^ level ∣ count) :
    2 ^ lowestBit count fuel level ∣ count ∧
      count.testBit (lowestBit count fuel level) = true := by
  induction fuel generalizing level with
  | zero =>
    have := Nat.le_of_dvd hcount hdvd
    rw [Nat.add_zero] at hfuel
    omega
  | succ fuel ih =>
    rw [lowestBit]
    cases hbit : count.testBit level with
    | true =>
      exact ⟨hdvd, hbit⟩
    | false =>
      exact ih (level + 1)
        (by rw [show level + 1 + fuel = level + (fuel + 1) by omega]; exact hfuel)
        (dvd_of_not_testBit hdvd hbit)

/-- The lowest bit of the count is the first level of odd width. -/
theorem width_lowest {level : Nat} (hn : 0 < n) (hdvd : 2 ^ level ∣ n)
    (hbit : n.testBit level = true) :
    width n level * 2 ^ level = n ∧ width n level % 2 = 1 ∧ level ≤ height n := by
  have hdiv : n / 2 ^ level * 2 ^ level = n := Nat.div_mul_cancel hdvd
  have hwidth : width n level = n / 2 ^ level := by
    have hpos : 0 < n / 2 ^ level := Nat.div_pos (Nat.le_of_dvd hn hdvd) (Nat.two_pow_pos _)
    rw [width_eq_iff hpos, hdiv]
    refine ⟨?_, le_refl _⟩
    have := Nat.mul_lt_mul_of_pos_right (show n / 2 ^ level - 1 < n / 2 ^ level by omega)
      (Nat.two_pow_pos level)
    omega
  rw [hwidth]
  refine ⟨hdiv, odd_of_testBit hbit, ?_⟩
  by_contra hgt
  have h1 : n ≤ 2 ^ height n := Nat.le_pow_clog Nat.one_lt_two _
  have h2 : 2 ^ height n < 2 ^ level := Nat.pow_lt_pow_right Nat.one_lt_two (by omega)
  have h3 := Nat.le_of_dvd hn hdvd
  omega

/-! ## The root -/

/-- The leaves by their position. -/
def leafAt (pos : Nat) : Uint256 := leaves.getD pos 0

theorem leafAt_eq {leaves : List Uint256} {pos : Nat} (h : pos < leaves.length) :
    leafAt leaves pos = leaves[pos] := by
  simp [leafAt, h]

/-- `ComputeMerkleRoot` gives the root of the tree, and `mutated` says that two
siblings with all their leaves are equal. -/
theorem computeMerkleRoot_spec {leaves : List Uint256} (hne : leaves ≠ [])
    (hsmall : leaves.length < 2 ^ 32) :
    (computeMerkleRoot H leaves).1 = root (hashNodes H) (leafAt leaves) leaves.length ∧
      ((computeMerkleRoot H leaves).2 = true ↔ ∃ level pos,
        FullTwins (hashNodes H) (leafAt leaves) leaves.length level pos) := by
  have hn : 0 < leaves.length := List.length_pos_iff.mpr hne
  obtain ⟨inner, m, hadd, hholds, hm⟩ := addLeaves_spec leaves
    (show 0 + leaves.length = leaves.length by omega) hsmall
    (fun i hi => show leafAt leaves (0 + i) = leaves[i] by rw [Nat.zero_add, leafAt_eq hi])
    (show Holds H (leafAt leaves) leaves.length (fun _ => 0) 0 from
      fun level hlevel => by simp at hlevel)
    (show false = true ↔ Doubled H (leafAt leaves) leaves.length 0 by
      constructor
      · intro h
        cases h
      · rintro ⟨level, pos, hle, _⟩
        have := Nat.mul_pos (show 0 < 2 * pos + 2 by omega) (Nat.two_pow_pos level)
        omega)
  have hcompute : computeMerkleRoot H leaves =
      (sweep H inner 32 leaves.length (lowestBit leaves.length 32 0)
        (inner (lowestBit leaves.length 32 0)), m) := by
    rw [computeMerkleRoot, if_neg (by simpa using hne), hadd]
  obtain ⟨hdvd, hbit⟩ := lowestBit_spec 32 0 hn (by omega) (by simp)
  generalize lowestBit leaves.length 32 0 = level at *
  obtain ⟨hmul, hodd, hlevel⟩ := width_lowest hn hdvd hbit
  have hheight : height leaves.length ≤ 32 :=
    (Nat.clog_le_iff_le_pow Nat.one_lt_two).mpr hsmall.le
  have hsweep := sweep_spec hholds hn hsmall hlevel hodd
    (show height leaves.length ≤ level + 32 by omega)
  have hplace : width leaves.length level - 1 = leaves.length / 2 ^ level - 1 := by
    rw [← Nat.mul_div_cancel (width leaves.length level) (Nat.two_pow_pos level), hmul]
  rw [hmul, hplace, ← hholds level hbit] at hsweep
  rw [hcompute]
  exact ⟨hsweep, hm⟩

/-! ## The root binds the leaves -/

variable (H) in
/-- `ComputeMerkleRoot`, where it returns. The count is a `uint32_t` that the
sweep raises to a power of two: with more than 2^31 leaves it comes to zero,
and the loop over its bits does not end. -/
def computeMerkleRootOf : Option (Uint256 × Bool) :=
  if leaves.length ≤ 2 ^ 31 then some (computeMerkleRoot H leaves) else none

variable (H) in
/-- The pairs of nodes that are hashed for the root. -/
def merkleNodes : List (Uint256 × Uint256) :=
  pairs (hashNodes H) (leafAt leaves) leaves.length

theorem computeMerkleRootOf_spec {leaves : List Uint256} {r : Uint256} (hne : leaves ≠ [])
    (h : computeMerkleRootOf H leaves = some (r, false)) :
    root (hashNodes H) (leafAt leaves) leaves.length = r ∧
      ∀ level pos, ¬ FullTwins (hashNodes H) (leafAt leaves) leaves.length level pos := by
  unfold computeMerkleRootOf at h
  split at h
  · rename_i hsmall
    obtain ⟨hroot, hmut⟩ := computeMerkleRoot_spec (H := H) hne (by omega)
    rw [Option.some.inj h] at hroot hmut
    refine ⟨hroot.symm, fun level pos htwins => ?_⟩
    exact nomatch hmut.mpr ⟨level, pos, htwins⟩
  · cases h

/-- Two lists of leaves with one root, both not mutated, are the same list, as
long as no two of the pairs that are hashed for them collide and none of the
pairs hashes to a leaf. -/
theorem computeMerkleRoot_binds (L1 L2 : List Uint256) (r : Uint256) (hne1 : L1 ≠ [])
    (hne2 : L2 ≠ [])
    (no_collision : Set.InjOn (Function.uncurry (hashNodes H))
      {x | x ∈ merkleNodes H L1 ∨ x ∈ merkleNodes H L2})
    (no_leaf : ∀ x, x ∈ merkleNodes H L1 ∨ x ∈ merkleNodes H L2 → ∀ leaf ∈ L1 ++ L2,
      hashNodes H x.1 x.2 ≠ leaf)
    (h1 : computeMerkleRootOf H L1 = some (r, false))
    (h2 : computeMerkleRootOf H L2 = some (r, false)) : L1 = L2 := by
  obtain ⟨hroot1, hno1⟩ := computeMerkleRootOf_spec hne1 h1
  obtain ⟨hroot2, hno2⟩ := computeMerkleRootOf_spec hne2 h2
  have hmem (L : List Uint256) (pos : Nat) (hpos : pos < L.length) : leafAt L pos ∈ L := by
    rw [leafAt_eq hpos]
    exact List.getElem_mem hpos
  have hbelow1 := below_pairs no_collision (fun x hx => Or.inl hx : ∀ x ∈ merkleNodes H L1, _)
  have hbelow2 := below_pairs no_collision (fun x hx => Or.inr hx : ∀ x ∈ merkleNodes H L2, _)
  obtain ⟨hlen, hleaves⟩ := leaves_eq_of_root_eq (List.length_pos_iff.mpr hne1)
    (List.length_pos_iff.mpr hne2) no_collision (fun x hx => Or.inl hx) (fun x hx => Or.inr hx)
    (fun pos hpos x hx => no_leaf x (Or.inr hx) _ (List.mem_append_left _ (hmem L1 pos hpos)))
    (fun pos hpos x hx => no_leaf x (Or.inl hx) _ (List.mem_append_right _ (hmem L2 pos hpos)))
    (fun level pos htwins => by
      obtain ⟨l, p, _, hfull⟩ := hbelow1.fullTwins_of_twins htwins.level_lt.le htwins
      exact hno1 l p hfull)
    (fun level pos htwins => by
      obtain ⟨l, p, _, hfull⟩ := hbelow2.fullTwins_of_twins htwins.level_lt.le htwins
      exact hno2 l p hfull)
    (hroot1.trans hroot2.symm)
  refine List.ext_getElem hlen fun pos hpos1 hpos2 => ?_
  have := hleaves pos hpos1
  rwa [leafAt_eq hpos1, leafAt_eq hpos2] at this

/-- A hash that depends on every byte, for the proofs below. -/
def remainderHashes : Hashes where
  sha256d l := BitVec.ofNat 256 (Bytes.ofLe l % 1000003)
  scrypt _ := 0

/-- A list of three leaves, where the last one is paired with itself. -/
theorem computeMerkleRoot_binds_sample : ∃ r,
    computeMerkleRootOf remainderHashes [1, 2, 3] = some (r, false) ∧
      ([1, 2, 3] : List Uint256) = [1, 2, 3] := by
  have h : computeMerkleRootOf remainderHashes [1, 2, 3] =
      some ((computeMerkleRoot remainderHashes [1, 2, 3]).1, false) := by
    decide +kernel
  have hnodes : ((merkleNodes remainderHashes [1, 2, 3]).all fun x =>
      (merkleNodes remainderHashes [1, 2, 3]).all fun y =>
        hashNodes remainderHashes x.1 x.2 != hashNodes remainderHashes y.1 y.2 || x == y) =
          true := by
    decide +kernel
  simp only [List.all_eq_true, Bool.or_eq_true, bne_iff_ne, beq_iff_eq] at hnodes
  refine ⟨_, h, computeMerkleRoot_binds [1, 2, 3] [1, 2, 3] _ (by simp) (by simp) ?_ ?_ h h⟩
  · rintro x (hx | hx) y (hy | hy) hxy
    all_goals exact (hnodes x hx y hy).resolve_left fun hne => hne hxy
  · have hno : ((merkleNodes remainderHashes [1, 2, 3]).all fun x =>
        !([1, 2, 3] ++ [1, 2, 3] : List Uint256).contains
          (hashNodes remainderHashes x.1 x.2)) = true := by
      decide +kernel
    simp only [List.all_eq_true, Bool.not_eq_true', List.contains_eq_mem,
      decide_eq_false_iff_not] at hno
    rintro x (hx | hx) leaf hleaf rfl
    all_goals exact hno x hx hleaf

end junkcoin
