-- Numbers that are kept in words, the lowest first: what a word, a bit and a
-- carry contribute to the number.
import Mathlib.Algebra.Order.Group.Nat
import Mathlib.Logic.Function.Basic

namespace Words

variable {w : Nat}

/-- The number in the first `n` words. -/
def val (pn : Nat → BitVec w) : (n : Nat) → Nat
  | 0 => 0
  | n + 1 => val pn n + (pn n).toNat * 2 ^ (w * n)

variable {p q : Nat → BitVec w} {m n : Nat}

theorem val_lt (p : Nat → BitVec w) (n : Nat) : val p n < 2 ^ (w * n) := by
  induction n with
  | zero => exact Nat.one_pos
  | succ n ih =>
    have hword := Nat.mul_le_mul_right (2 ^ (w * n)) (Nat.succ_le_of_lt (p n).isLt)
    rw [Nat.mul_succ, pow_add, Nat.mul_comm (2 ^ (w * n)), val]
    rw [Nat.succ_mul] at hword
    omega

theorem val_congr (h : ∀ i < n, p i = q i) : val p n = val q n := by
  induction n with
  | zero => rfl
  | succ n ih => rw [val, val, ih fun i hi => h i (by omega), h n (Nat.lt_succ_self n)]

theorem val_update_of_le (h : n ≤ m) (x : BitVec w) : val (Function.update p m x) n = val p n :=
  val_congr fun _ hi => Function.update_of_ne (by omega) _ _

/-- A word that is written replaces its part of the number. -/
theorem val_update (h : m < n) (x : BitVec w) :
    val (Function.update p m x) n + (p m).toNat * 2 ^ (w * m) =
      val p n + x.toNat * 2 ^ (w * m) := by
  induction n with
  | zero => omega
  | succ n ih =>
    rw [val, val]
    rcases Nat.lt_succ_iff_lt_or_eq.mp h with hlt | rfl
    · rw [Function.update_of_ne (by omega)]
      have := ih hlt
      omega
    · rw [Function.update_self, val_update_of_le (le_refl _)]
      omega

theorem testBit_val (hw : 0 < w) (j : Nat) :
    (val p n).testBit j = (decide (j < w * n) && (p (j / w)).getLsbD (j % w)) := by
  induction n with
  | zero => simp [val]
  | succ n ih =>
    rw [val, Nat.add_comm, Nat.mul_comm _ (2 ^ _), Nat.testBit_two_pow_mul_add _ (val_lt p n), ih]
    by_cases hj : j < w * n
    · rw [if_pos hj, decide_eq_true hj, decide_eq_true (by rw [Nat.mul_succ]; omega)]
    · rw [if_neg hj, BitVec.testBit_toNat]
      by_cases hlt : j < w * (n + 1)
      · have hdiv : j / w = n :=
          Nat.div_eq_of_lt_le (by rw [Nat.mul_comm]; omega) (by rw [Nat.mul_comm]; exact hlt)
        rw [decide_eq_true hlt, Bool.true_and, Nat.mod_eq_sub_mul_div, hdiv]
      · rw [Nat.mul_succ] at hlt
        rw [Nat.mul_succ, decide_eq_false hlt, Bool.false_and, BitVec.getLsbD_of_ge _ _ (by omega)]

theorem val_mod (h : m ≤ n) : val p n % 2 ^ (w * m) = val p m := by
  induction n, h using Nat.le_induction with
  | base => exact Nat.mod_eq_of_lt (val_lt p m)
  | succ n hmn ih =>
    rw [val, ← Nat.add_sub_cancel' (Nat.mul_le_mul_left w hmn), pow_add, Nat.mul_left_comm,
      Nat.add_mul_mod_self_left, ih]

/-- Words that are zero do not count. -/
theorem val_of_zero (h : m ≤ n) (hzero : ∀ i, m ≤ i → p i = 0) : val p n = val p m := by
  induction n, h using Nat.le_induction with
  | base => rfl
  | succ n hmn ih =>
    rw [val, ih, hzero n hmn]
    simp

theorem val_not (p : Nat → BitVec w) (n : Nat) :
    val (fun i => ~~~ p i) n + val p n + 1 = 2 ^ (w * n) := by
  induction n with
  | zero => rfl
  | succ n ih =>
    have hword : (~~~ p n).toNat + (p n).toNat + 1 = 2 ^ w := by
      have := (p n).isLt
      rw [BitVec.toNat_not]
      omega
    rw [val, val, Nat.mul_succ, pow_add, Nat.mul_comm (2 ^ (w * n)), ← hword]
    rw [Nat.add_mul, Nat.add_mul, Nat.one_mul]
    omega

end Words
