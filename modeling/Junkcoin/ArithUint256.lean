-- 256-bit numbers in eight words: the loops of `base_uint`, the compact form of
-- a target, and the work of a block.
import Junkcoin.BlockMap
import Junkcoin.Lib.Words

namespace junkcoin.BaseUint

open Words

variable {term : Limbs → Nat → Nat} {j n : Nat} {pn : Limbs} {nCompact : UInt32} (a : Limbs)
  (shift : Nat) (b : Limbs)

/-- The number of words. -/
def WIDTH : Nat := 8

/-- The words `pn`, of which the first eight count. -/
abbrev Limbs := Nat → BitVec 32

def number (pn : Limbs) : Nat := val pn WIDTH

/-! ## The operators -/

/-- `operator=(uint64_t)`. -/
def ofUint64 (b : Nat) : Limbs := fun i =>
  if i = 0 then BitVec.ofNat 32 b else if i = 1 then BitVec.ofNat 32 (b / 2 ^ 32) else 0

/-- `pn[i] |= word`, under a condition. -/
def orWord (c : Prop) [Decidable c] (i : Nat) (word : BitVec 32) (pn : Limbs) : Limbs :=
  if c then Function.update pn i (pn i ||| word) else pn

/-- One turn of the loop of `operator<<=`. -/
def shiftLeftTurn (k shift : Nat) (pn : Limbs) (i : Nat) : Limbs :=
  orWord (i + k < WIDTH) (i + k) (a i <<< shift)
    (orWord (i + k + 1 < WIDTH ∧ shift ≠ 0) (i + k + 1) (a i >>> (32 - shift)) pn)

/-- `operator<<=`. -/
def shiftLeft : Limbs :=
  (List.range WIDTH).foldl (shiftLeftTurn a (shift / 32) (shift % 32)) fun _ => 0

/-- One turn of the loop of `operator>>=`. -/
def shiftRightTurn (k shift : Nat) (pn : Limbs) (i : Nat) : Limbs :=
  orWord (k ≤ i) (i - k) (a i >>> shift)
    (orWord (k + 1 ≤ i ∧ shift ≠ 0) (i - k - 1) (a i <<< (32 - shift)) pn)

/-- `operator>>=`. -/
def shiftRight : Limbs :=
  (List.range WIDTH).foldl (shiftRightTurn a (shift / 32) (shift % 32)) fun _ => 0

/-- A loop over words with a carry of 64 bits: what a turn adds to the carry may
depend on the words. It writes from word `j` on. -/
def carryLoop (term : Limbs → Nat → Nat) (j : Nat) : (turns : Nat) → Limbs → Limbs × Nat
  | 0, pn => (pn, 0)
  | i + 1, pn =>
    let (pn, carry) := carryLoop term j i pn
    let n := (carry + term pn i) % 2 ^ 64
    (Function.update pn (i + j) (BitVec.ofNat 32 n), n / 2 ^ 32)

/-- `operator+=`. -/
def add : Limbs :=
  (carryLoop (fun pn i => (pn i).toNat + (b i).toNat) 0 WIDTH a).1

/-- `operator*=(uint32_t)`. -/
def mul32 (b32 : BitVec 32) : Limbs :=
  (carryLoop (fun pn i => b32.toNat * (pn i).toNat) 0 WIDTH a).1

/-- What a `const base_uint&` refers to: the object that the operator changes,
or another one. -/
inductive Operand
  | self
  | other (b : Limbs)

/-- The words that the operand has now. -/
def Operand.read (pn : Limbs) : Operand → Limbs
  | self => pn
  | other b => b

/-- `operator*=(const base_uint&)`. -/
def mul (b : Operand) : Limbs :=
  (List.range WIDTH).foldl (fun pn j => (carryLoop (fun pn i =>
    (pn (i + j)).toNat + (a j).toNat * (b.read pn i).toNat) j (WIDTH - j) pn).1) fun _ => 0

/-- The loop of `operator++`. -/
def incrementLoop : (left i : Nat) → Limbs → Limbs
  | 0, _, pn => pn
  | left + 1, i, pn =>
    let pn := Function.update pn i (pn i + 1)
    if pn i = 0 ∧ i < WIDTH - 1 then incrementLoop left (i + 1) pn else pn

/-- `operator~`. -/
def not : Limbs := fun i => ~~~ a i

/-- The unary `operator-`. -/
def neg : Limbs := incrementLoop WIDTH 0 (not a)

/-- `operator-=`. -/
def sub : Limbs := add a (neg b)

/-- `CompareTo`, from a word down. -/
def compareTo (a b : Limbs) : (i : Nat) → Int
  | 0 => 0
  | i + 1 => if a i < b i then -1 else if a i > b i then 1 else compareTo a b i

/-- `EqualTo`. -/
def equalTo (b : Nat) : Bool := (List.range WIDTH).all fun i => a i == ofUint64 b i

/-- The inner loop of `bits`. -/
def topBit (word : BitVec 32) : (bits : Nat) → Nat
  | 0 => 0
  | bits + 1 => if word.getLsbD (bits + 1) then bits + 1 else topBit word bits

/-- `bits`, from a word down. -/
def bits (pn : Limbs) : (pos : Nat) → Nat
  | 0 => 0
  | pos + 1 => if pn pos ≠ 0 then 32 * pos + topBit (pn pos) 31 + 1 else bits pn pos

/-- The loop of `operator/=`, for `shift + 1` turns. -/
def divLoop : (turns : Nat) → (num div pn : Limbs) → Limbs
  | 0, _, _, pn => pn
  | shift + 1, num, div, pn =>
    if compareTo num div WIDTH ≥ 0 then
      -- set a bit of the result
      divLoop shift (sub num div) (shiftRight div 1)
        (Function.update pn (shift / 32) (pn (shift / 32) ||| 1#32 <<< (shift % 32)))
    else divLoop shift num (shiftRight div 1) pn

/-- `operator/=`. -/
def div : Check Limbs :=
  let num_bits := bits a WIDTH
  let div_bits := bits b WIDTH
  if div_bits = 0 then .error (.error "Division by zero")
  -- the result is certainly 0
  else if div_bits > num_bits then .ok fun _ => 0
  else .ok (divLoop (num_bits - div_bits + 1) a (shiftLeft b (num_bits - div_bits)) fun _ => 0)

/-- `GetLow64`. -/
def getLow64 : Nat := (a 0).toNat + (a 1).toNat * 2 ^ 32

/-- `arith_uint256::SetCompact`. -/
def setCompact (nCompact : UInt32) : Limbs × Bool × Bool :=
  let nSize := nCompact.toNat / 2 ^ 24
  let nWord := nCompact.toNat % 2 ^ 23
  let nWord := if nSize ≤ 3 then nWord / 2 ^ (8 * (3 - nSize)) else nWord
  let value := if nSize ≤ 3 then ofUint64 nWord else shiftLeft (ofUint64 nWord) (8 * (nSize - 3))
  let fNegative := nWord != 0 && nCompact.toNat.testBit 23
  let fOverflow := nWord != 0 && (nSize > 34 || (nWord > 0xff && nSize > 33) ||
    (nWord > 0xffff && nSize > 32))
  (value, fNegative, fOverflow)

/-- The bit 0x00800000 is the sign: where the mantissa reaches it, divide it by
256 and increase the exponent. -/
def clearSign (nCompact nSize : Nat) : Nat × Nat :=
  if nCompact.testBit 23 then (nCompact / 256, nSize + 1) else (nCompact, nSize)

/-- The assertions and the result of `GetCompact`. -/
def packCompact (fNegative : Bool) (parts : Nat × Nat) : Check UInt32 := do
  assert (parts.1 < 2 ^ 23) "(nCompact & ~0x007fffff) == 0"
  assert (parts.2 < 256) "nSize < 256"
  pure (UInt32.ofNat
    (parts.1 + parts.2 * 2 ^ 24 + if fNegative && parts.1 != 0 then 2 ^ 23 else 0))

/-- `arith_uint256::GetCompact`. -/
def getCompact (fNegative : Bool) : Check UInt32 :=
  let nSize := (bits a WIDTH + 7) / 8
  let nCompact := if nSize ≤ 3 then getLow64 a * 2 ^ (8 * (3 - nSize)) % 2 ^ 64 % 2 ^ 32
    else getLow64 (shiftRight a (8 * (nSize - 3))) % 2 ^ 32
  packCompact fNegative (clearSign nCompact nSize)

/-- `GetBlockProof`, of the bits of a block. -/
def getBlockProof (nBits : UInt32) : Check Limbs := do
  let (bnTarget, fNegative, fOverflow) := setCompact nBits
  if fNegative || fOverflow || equalTo bnTarget 0 then pure (ofUint64 0)
  else do pure (add (← div (not bnTarget) (add bnTarget (ofUint64 1))) (ofUint64 1))

/-! ## Shifts -/

theorem getLsbD_orWord (c : Prop) [Decidable c] (i : Nat) (word : BitVec 32) (pn : Limbs)
    (m t : Nat) : (orWord c i word pn m).getLsbD t = true ↔
      (pn m).getLsbD t = true ∨ c ∧ m = i ∧ word.getLsbD t = true := by
  unfold orWord
  by_cases hc : c
  · by_cases hm : m = i
    · subst hm
      simp [hc]
    · simp [hc, hm]
  · simp [hc]

/-- The bits after a loop of which every turn writes into two words. -/
theorem getLsbD_foldl_orWord {turn : Limbs → Nat → Limbs} {c d : Nat → Prop}
    [DecidablePred c] [DecidablePred d] {e f : Nat → Nat} {x y : Limbs}
    (hturn : ∀ pn i, turn pn i = orWord (d i) (f i) (y i) (orWord (c i) (e i) (x i) pn))
    (n m t : Nat) :
    ((List.range n).foldl turn (fun _ => 0) m).getLsbD t = true ↔
      ∃ i < n, c i ∧ m = e i ∧ (x i).getLsbD t = true ∨
        d i ∧ m = f i ∧ (y i).getLsbD t = true := by
  induction n with
  | zero => simp
  | succ n ih =>
    rw [List.range_succ, List.foldl_append, List.foldl_cons, List.foldl_nil, hturn,
      getLsbD_orWord, getLsbD_orWord, ih]
    constructor
    · rintro ((⟨i, hi, h⟩ | h) | h)
      · exact ⟨i, by omega, h⟩
      · exact ⟨n, Nat.lt_succ_self n, Or.inl h⟩
      · exact ⟨n, Nat.lt_succ_self n, Or.inr h⟩
    · rintro ⟨i, hi, h⟩
      rcases Nat.lt_succ_iff_lt_or_eq.mp hi with hlt | rfl
      · exact Or.inl (Or.inl ⟨i, hlt, h⟩)
      · exact h.elim (fun h => Or.inl (Or.inr h)) Or.inr

theorem getLsbD_shiftLeft (m t : Nat) :
    (shiftLeft a shift m).getLsbD t = true ↔
      ∃ i < WIDTH, (i + shift / 32 + 1 < WIDTH ∧ shift % 32 ≠ 0) ∧ m = i + shift / 32 + 1 ∧
          (a i >>> (32 - shift % 32)).getLsbD t = true ∨
        i + shift / 32 < WIDTH ∧ m = i + shift / 32 ∧ (a i <<< (shift % 32)).getLsbD t = true :=
  getLsbD_foldl_orWord (fun _ _ => rfl) WIDTH m t

theorem getLsbD_shiftRight (m t : Nat) :
    (shiftRight a shift m).getLsbD t = true ↔
      ∃ i < WIDTH, (shift / 32 + 1 ≤ i ∧ shift % 32 ≠ 0) ∧ m = i - shift / 32 - 1 ∧
          (a i <<< (32 - shift % 32)).getLsbD t = true ∨
        shift / 32 ≤ i ∧ m = i - shift / 32 ∧ (a i >>> (shift % 32)).getLsbD t = true :=
  getLsbD_foldl_orWord (fun _ _ => rfl) WIDTH m t

theorem number_lt (pn : Limbs) : number pn < 2 ^ 256 := val_lt pn WIDTH

theorem number_zero : number (fun _ => 0) = 0 := rfl

theorem number_testBit (pn : Limbs) (j : Nat) :
    (number pn).testBit j = true ↔ j < 256 ∧ (pn (j / 32)).getLsbD (j % 32) = true := by
  rw [number, testBit_val (by decide), Bool.and_eq_true, decide_eq_true_eq]
  rfl

theorem number_shiftLeft : number (shiftLeft a shift) = number a * 2 ^ shift % 2 ^ 256 := by
  refine Nat.eq_of_testBit_eq fun j => Bool.eq_iff_iff.mpr ?_
  rw [number_testBit, getLsbD_shiftLeft, Nat.testBit_mod_two_pow, Nat.testBit_mul_two_pow,
    Bool.and_eq_true, Bool.and_eq_true, decide_eq_true_eq, decide_eq_true_eq, number_testBit]
  refine and_congr_right fun hj => ⟨?_, ?_⟩
  · rintro ⟨i, hi, ⟨⟨hw, hs⟩, hm, hbit⟩ | ⟨hw, hm, hbit⟩⟩
    · rw [BitVec.getLsbD_ushiftRight] at hbit
      have hlt := BitVec.lt_of_getLsbD hbit
      rw [show (j - shift) / 32 = i by omega,
        show (j - shift) % 32 = 32 - shift % 32 + j % 32 by omega]
      exact ⟨by omega, by omega, hbit⟩
    · rw [BitVec.getLsbD_shiftLeft] at hbit
      simp only [Bool.and_eq_true, decide_eq_true_eq, Bool.not_eq_true',
        decide_eq_false_iff_not] at hbit
      rw [show (j - shift) / 32 = i by omega, show (j - shift) % 32 = j % 32 - shift % 32 by omega]
      exact ⟨by omega, by omega, hbit.2⟩
  · rintro ⟨hle, -, hbit⟩
    have hwidth : WIDTH = 8 := rfl
    refine ⟨(j - shift) / 32, by omega, ?_⟩
    by_cases hs : j % 32 < shift % 32
    · refine Or.inl ⟨⟨by omega, by omega⟩, by omega, ?_⟩
      rw [BitVec.getLsbD_ushiftRight]
      rwa [show (j - shift) % 32 = 32 - shift % 32 + j % 32 by omega] at hbit
    · refine Or.inr ⟨by omega, by omega, ?_⟩
      rw [BitVec.getLsbD_shiftLeft]
      rw [show (j - shift) % 32 = j % 32 - shift % 32 by omega] at hbit
      rw [hbit, decide_eq_true (Nat.mod_lt j (by decide)), decide_eq_false hs]
      rfl

theorem number_shiftRight : number (shiftRight a shift) = number a / 2 ^ shift := by
  have hwidth : WIDTH = 8 := rfl
  refine Nat.eq_of_testBit_eq fun j => Bool.eq_iff_iff.mpr ?_
  rw [number_testBit, getLsbD_shiftRight, Nat.testBit_div_two_pow, number_testBit]
  constructor
  · rintro ⟨hj, i, hi, ⟨⟨hw, hs⟩, hm, hbit⟩ | ⟨hw, hm, hbit⟩⟩
    · rw [BitVec.getLsbD_shiftLeft] at hbit
      simp only [Bool.and_eq_true, decide_eq_true_eq, Bool.not_eq_true',
        decide_eq_false_iff_not] at hbit
      rw [show (j + shift) / 32 = i by omega,
        show (j + shift) % 32 = j % 32 - (32 - shift % 32) by omega]
      exact ⟨by omega, hbit.2⟩
    · rw [BitVec.getLsbD_ushiftRight] at hbit
      have hlt := BitVec.lt_of_getLsbD hbit
      rw [show (j + shift) / 32 = i by omega,
        show (j + shift) % 32 = shift % 32 + j % 32 by omega]
      exact ⟨by omega, hbit⟩
  · rintro ⟨hlt, hbit⟩
    refine ⟨by omega, (j + shift) / 32, by omega, ?_⟩
    by_cases hs : shift % 32 + j % 32 < 32
    · refine Or.inr ⟨by omega, by omega, ?_⟩
      rw [BitVec.getLsbD_ushiftRight]
      rwa [show (j + shift) % 32 = shift % 32 + j % 32 by omega] at hbit
    · refine Or.inl ⟨⟨by omega, by omega⟩, by omega, ?_⟩
      rw [BitVec.getLsbD_shiftLeft]
      rw [show (j + shift) % 32 = j % 32 - (32 - shift % 32) by omega] at hbit
      rw [hbit, decide_eq_true (Nat.mod_lt j (by decide)), decide_eq_false (by omega)]
      rfl

/-! ## Carries -/

/-- A carry loop adds its terms at their places: `total` is the number that the
first turns have to leave. A term may read the words from its own on. -/
theorem carryLoop_spec (total : Nat → Nat) (turns : Nat) (hzero : total 0 = val pn j)
    (hterm : ∀ i < turns, ∀ p : Limbs, (∀ m, i + j ≤ m → p m = pn m) →
      term p i ≤ 2 ^ 64 - 2 ^ 32 ∧ total (i + 1) = total i + term p i * 2 ^ (32 * (i + j))) :
    val (carryLoop term j turns pn).1 (turns + j) +
        (carryLoop term j turns pn).2 * 2 ^ (32 * (turns + j)) = total turns ∧
      (carryLoop term j turns pn).2 < 2 ^ 32 ∧
      ∀ m, turns + j ≤ m → (carryLoop term j turns pn).1 m = pn m := by
  induction turns with
  | zero =>
    refine ⟨?_, Nat.two_pow_pos 32, fun _ _ => rfl⟩
    rw [hzero, carryLoop, Nat.zero_add, Nat.zero_mul, Nat.add_zero]
  | succ i ih =>
    obtain ⟨hval, hcarry, hrest⟩ := ih fun k hk => hterm k (by omega)
    obtain ⟨hbound, htotal⟩ := hterm i (Nat.lt_succ_self i) _ hrest
    rw [carryLoop]
    generalize carryLoop term j i pn = r at *
    obtain ⟨p, carry⟩ := r
    dsimp only at *
    rw [Nat.mod_eq_of_lt (by omega)]
    refine ⟨?_, by omega, fun m hm => ?_⟩
    · have hsplit : (BitVec.ofNat 32 (carry + term p i)).toNat +
          (carry + term p i) / 2 ^ 32 * 2 ^ 32 = carry + term p i := by
        exact Nat.mod_add_div' _ _
      rw [show i + 1 + j = (i + j) + 1 by omega, val, val_update_of_le (le_refl _),
        Function.update_self, htotal, ← hval, Nat.mul_succ, pow_add]
      generalize 2 ^ (32 * (i + j)) = place
      calc val p (i + j) + (BitVec.ofNat 32 (carry + term p i)).toNat * place +
            (carry + term p i) / 2 ^ 32 * (place * 2 ^ 32)
          = val p (i + j) + ((BitVec.ofNat 32 (carry + term p i)).toNat +
              (carry + term p i) / 2 ^ 32 * 2 ^ 32) * place := by ring
        _ = val p (i + j) + carry * place + term p i * place := by rw [hsplit]; ring
    · rw [Function.update_of_ne (by omega), hrest m (by omega)]

/-- The whole number, where the loop runs to the last word. -/
theorem number_carryLoop (total : Nat → Nat) (hj : j ≤ WIDTH) (hzero : total 0 = val pn j)
    (hterm : ∀ i < WIDTH - j, ∀ p : Limbs, (∀ m, i + j ≤ m → p m = pn m) →
      term p i ≤ 2 ^ 64 - 2 ^ 32 ∧ total (i + 1) = total i + term p i * 2 ^ (32 * (i + j))) :
    number (carryLoop term j (WIDTH - j) pn).1 = total (WIDTH - j) % 2 ^ 256 := by
  obtain ⟨hval, -, -⟩ := carryLoop_spec total (WIDTH - j) hzero hterm
  rw [Nat.sub_add_cancel hj] at hval
  rw [← hval, show 32 * WIDTH = 256 from rfl, Nat.add_mul_mod_self_right]
  exact (Nat.mod_eq_of_lt (number_lt _)).symm

theorem number_add : number (add a b) = (number a + number b) % 2 ^ 256 := by
  refine number_carryLoop (fun i => val a i + val b i) (Nat.zero_le _) rfl
    fun i _ p hp => ?_
  rw [hp i (le_refl i)]
  refine ⟨by omega, ?_⟩
  rw [val, val, Nat.add_zero]
  ring

theorem number_mul32 (b32 : BitVec 32) : number (mul32 a b32) = number a * b32.toNat % 2 ^ 256 := by
  rw [Nat.mul_comm (number a)]
  refine number_carryLoop (fun i => b32.toNat * val a i) (Nat.zero_le _) rfl
    fun i _ p hp => ?_
  have hle := Nat.mul_le_mul (Nat.le_sub_one_of_lt b32.isLt) (Nat.le_sub_one_of_lt (a i).isLt)
  rw [hp i (le_refl i)]
  refine ⟨hle.trans (by decide), ?_⟩
  rw [val, Nat.add_zero]
  ring

/-- The part of a number above a word does not count once it is moved up. -/
theorem mul_val_low (x : Nat) (hj : j ≤ WIDTH) :
    x * 2 ^ (32 * j) * val b (WIDTH - j) % 2 ^ 256 = x * 2 ^ (32 * j) * number b % 2 ^ 256 := by
  have hwidth : WIDTH = 8 := rfl
  have hsplit : 2 ^ 256 = 2 ^ (32 * j) * 2 ^ (32 * (WIDTH - j)) := by
    rw [← pow_add]
    congr 1
    omega
  rw [hsplit, Nat.mul_comm x, Nat.mul_assoc, Nat.mul_assoc, Nat.mul_mod_mul_left,
    Nat.mul_mod_mul_left, Nat.mul_mod x (number b), number, val_mod (Nat.sub_le _ _),
    Nat.mul_mod x, Nat.mod_eq_of_lt (val_lt b (WIDTH - j))]

/-- One round of the multiplication. -/
theorem number_round (pn : Limbs) (hj : j ≤ WIDTH) :
    number (carryLoop (fun pn i => (pn (i + j)).toNat + (a j).toNat * (b i).toNat) j (WIDTH - j)
        pn).1 = (number pn + (a j).toNat * 2 ^ (32 * j) * number b) % 2 ^ 256 := by
  rw [Nat.add_mod, ← mul_val_low b _ hj, ← Nat.add_mod]
  have hnumber : number pn = val pn (WIDTH - j + j) := by
    rw [Nat.sub_add_cancel hj]
    rfl
  rw [hnumber]
  refine number_carryLoop
    (fun i => val pn (i + j) + (a j).toNat * 2 ^ (32 * j) * val b i) hj
    (by rw [val, Nat.zero_add, Nat.mul_zero, Nat.add_zero]) fun i _ p hp => ?_
  have hle := Nat.mul_le_mul (Nat.le_sub_one_of_lt (a j).isLt) (Nat.le_sub_one_of_lt (b i).isLt)
  rw [hp (i + j) (le_refl _)]
  refine ⟨by omega, ?_⟩
  rw [show i + 1 + j = (i + j) + 1 by omega, val, val, Nat.mul_add 32, pow_add]
  ring

theorem number_mul_other : number (mul a (.other b)) = number a * number b % 2 ^ 256 := by
  have hrounds (n : Nat) (hn : n ≤ WIDTH) :
      number ((List.range n).foldl (fun pn j => (carryLoop (fun pn i =>
        (pn (i + j)).toNat + (a j).toNat * (b i).toNat) j (WIDTH - j) pn).1) fun _ => 0) =
        val a n * number b % 2 ^ 256 := by
    induction n with
    | zero =>
      rw [List.range_zero, List.foldl_nil, number_zero, val, Nat.zero_mul, Nat.zero_mod]
    | succ n ih =>
      rw [List.range_succ, List.foldl_append, List.foldl_cons, List.foldl_nil,
        number_round a b _ (by omega), ih (by omega), Nat.mod_add_mod, val, Nat.add_mul]
  exact hrounds WIDTH (le_refl _)

/-- An operand that is the object itself is zero as soon as the object is. -/
theorem number_mul_self : number (mul a .self) = 0 := by
  have hround (j n : Nat) : carryLoop (fun pn i => (pn (i + j)).toNat +
      (a j).toNat * (Operand.self.read pn i).toNat) j n (fun _ => 0) = (fun _ => 0, 0) := by
    induction n with
    | zero => rfl
    | succ n ih =>
      rw [carryLoop, ih]
      simp only [Operand.read, BitVec.ofNat_eq_ofNat, BitVec.toNat_ofNat, Nat.zero_mod,
        Nat.mul_zero, Nat.add_zero, Nat.zero_div, Function.update_eq_self_iff, Prod.mk.injEq,
        and_true]
  have hrounds (n : Nat) : (List.range n).foldl (fun pn j => (carryLoop (fun pn i =>
      (pn (i + j)).toNat + (a j).toNat * (Operand.self.read pn i).toNat) j (WIDTH - j) pn).1)
      (fun _ => 0) = fun _ => 0 := by
    induction n with
    | zero => rfl
    | succ n ih =>
      rw [List.range_succ, List.foldl_append, ih, List.foldl_cons, List.foldl_nil, hround]
  rw [mul, hrounds, number_zero]

/-! ## Differences and comparison -/

/-- The increment, from a word on. -/
theorem number_incrementLoop (left i : Nat) (pn : Limbs) (hleft : left + i = WIDTH)
    (hpos : 0 < left) :
    number (incrementLoop left i pn) = (number pn + 2 ^ (32 * i)) % 2 ^ 256 := by
  induction left generalizing i pn with
  | zero => omega
  | succ left ih =>
    have hupdate : number (Function.update pn i (pn i + 1)) + (pn i).toNat * 2 ^ (32 * i) =
        number pn + (pn i + 1).toNat * 2 ^ (32 * i) := val_update (by omega) _
    rw [incrementLoop, Function.update_self]
    by_cases hzero : pn i + 1 = 0
    · -- the word overflows into the next one
      have hmax : (pn i).toNat = 2 ^ 32 - 1 := by
        have := congrArg BitVec.toNat hzero
        simp at this
        omega
      have hnext : number (Function.update pn i (pn i + 1)) + 2 ^ (32 * (i + 1)) =
          number pn + 2 ^ (32 * i) := by
        rw [hzero, hmax] at hupdate
        rw [hzero, Nat.mul_succ, pow_add]
        simp only [BitVec.ofNat_eq_ofNat, BitVec.toNat_ofNat, Nat.zero_mod] at hupdate ⊢
        omega
      by_cases hlast : i < WIDTH - 1
      · rw [if_pos ⟨hzero, hlast⟩, ih (i + 1) _ (by omega) (by omega), hnext]
      · rw [if_neg fun h => hlast h.2]
        rw [show i + 1 = WIDTH by omega, show 32 * WIDTH = 256 from rfl] at hnext
        rw [← hnext, Nat.add_mod_right, Nat.mod_eq_of_lt (number_lt _)]
    · rw [if_neg fun h => hzero h.1]
      have hnext : (pn i + 1).toNat = (pn i).toNat + 1 := by
        have : (pn i).toNat + 1 ≠ 2 ^ 32 := fun h => hzero (by
          apply BitVec.eq_of_toNat_eq
          simp [h])
        exact Nat.mod_eq_of_lt (by simp; omega)
      rw [hnext, Nat.add_mul, Nat.one_mul] at hupdate
      have := number_lt (Function.update pn i (pn i + 1))
      omega

theorem number_not : number (not a) = 2 ^ 256 - 1 - number a := by
  have : number (not a) + number a + 1 = 2 ^ 256 := val_not a WIDTH
  omega

theorem number_sub {a b : Limbs} (h : number b ≤ number a) :
    number (sub a b) = number a - number b := by
  have ha := number_lt a
  have hneg : number (neg b) = (2 ^ 256 - number b) % 2 ^ 256 := by
    rw [neg, number_incrementLoop WIDTH 0 _ rfl (by decide), number_not]
    congr 1
    omega
  rw [sub, number_add, hneg, Nat.add_mod_mod,
    show number a + (2 ^ 256 - number b) = number a - number b + 2 ^ 256 by omega,
    Nat.add_mod_right, Nat.mod_eq_of_lt (by omega)]

theorem compareTo_nonneg (n : Nat) : 0 ≤ compareTo a b n ↔ val b n ≤ val a n := by
  induction n with
  | zero => simp [compareTo, val]
  | succ n ih =>
    have ha := val_lt a n
    have hb := val_lt b n
    rw [compareTo, val, val]
    generalize 2 ^ (32 * n) = place at *
    by_cases hlt : a n < b n
    · have hmul := Nat.mul_le_mul_right place (Nat.succ_le_of_lt (BitVec.lt_def.mp hlt))
      rw [Nat.succ_mul] at hmul
      rw [if_pos hlt]
      omega
    · by_cases hgt : a n > b n
      · have hmul := Nat.mul_le_mul_right place (Nat.succ_le_of_lt (BitVec.lt_def.mp hgt))
        rw [Nat.succ_mul] at hmul
        rw [if_neg hlt, if_pos hgt]
        omega
      · rw [if_neg hlt, if_neg hgt, ih,
          BitVec.le_antisymm (BitVec.not_lt.mp hgt) (BitVec.not_lt.mp hlt)]
        omega

/-! ## Division -/

theorem topBit_spec {word : BitVec 32} (hne : word ≠ 0) (hlt : word.toNat < 2 ^ (n + 1)) :
    2 ^ topBit word n ≤ word.toNat ∧ word.toNat < 2 ^ (topBit word n + 1) := by
  induction n with
  | zero => exact ⟨Nat.pos_of_ne_zero fun h => hne (BitVec.eq_of_toNat_eq h), hlt⟩
  | succ n ih =>
    rw [topBit]
    by_cases hbit : word.getLsbD (n + 1) = true
    · rw [if_pos hbit]
      exact ⟨Nat.ge_two_pow_of_testBit hbit, hlt⟩
    · rw [if_neg hbit]
      refine ih (Nat.lt_pow_two_of_testBit _ fun i hi => ?_)
      rcases Nat.eq_or_lt_of_le hi with rfl | hlt'
      · exact Bool.eq_false_iff.mpr hbit
      · exact Nat.testBit_lt_two_pow (hlt.trans_le (Nat.pow_le_pow_right (by decide) (by omega)))

/-- The number of bits. -/
theorem bits_spec (pn : Limbs) (n : Nat) :
    val pn n < 2 ^ bits pn n ∧ (bits pn n ≠ 0 → 2 ^ (bits pn n - 1) ≤ val pn n) := by
  induction n with
  | zero => exact ⟨Nat.one_pos, fun h => absurd rfl h⟩
  | succ n ih =>
    have hlow := val_lt pn n
    rw [bits, val]
    by_cases hword : pn n = 0
    · rw [if_neg (by simpa using hword), hword]
      simpa using ih
    · obtain ⟨hle, hlt⟩ := topBit_spec hword (show (pn n).toNat < 2 ^ (31 + 1) from (pn n).isLt)
      have hle' := Nat.mul_le_mul_right (2 ^ (32 * n)) hle
      have hlt' := Nat.mul_le_mul_right (2 ^ (32 * n)) (Nat.succ_le_of_lt hlt)
      rw [← pow_add] at hle' hlt'
      rw [Nat.succ_mul] at hlt'
      rw [if_pos hword]
      refine ⟨?_, fun _ => ?_⟩
      · rw [show 32 * n + topBit (pn n) 31 + 1 = topBit (pn n) 31 + 1 + 32 * n by omega]
        omega
      · rw [show 32 * n + topBit (pn n) 31 + 1 - 1 = topBit (pn n) 31 + 32 * n by omega]
        omega

theorem bits_zero_iff (pn : Limbs) : bits pn WIDTH = 0 ↔ number pn = 0 := by
  obtain ⟨hlt, hle⟩ := bits_spec pn WIDTH
  constructor
  · intro h
    rw [h] at hlt
    exact Nat.lt_one_iff.mp hlt
  · intro h
    by_contra hne
    have := hle hne
    have hpos := Nat.two_pow_pos (bits pn WIDTH - 1)
    rw [number] at h
    omega

theorem bits_le (pn : Limbs) : bits pn WIDTH ≤ 256 := by
  by_contra h
  have := (bits_spec pn WIDTH).2 (by omega)
  have := Nat.pow_le_pow_right (show 0 < 2 by decide) (show 256 ≤ bits pn WIDTH - 1 by omega)
  have := number_lt pn
  rw [number] at this
  omega

/-- A bit that is set above which all are clear counts as much. -/
theorem number_setBit (hj : j < 256) (hdvd : 2 ^ (j + 1) ∣ number pn) :
    number (Function.update pn (j / 32) (pn (j / 32) ||| 1#32 <<< (j % 32))) =
      number pn + 2 ^ j := by
  obtain ⟨c, hc⟩ := hdvd
  have hword (i : Nat) : (1#32 <<< (j % 32)).getLsbD (i % 32) = true ↔ i % 32 = j % 32 := by
    rw [BitVec.getLsbD_shiftLeft, BitVec.getLsbD_one]
    simp only [Bool.and_eq_true, decide_eq_true_eq, Bool.not_eq_true', decide_eq_false_iff_not]
    omega
  have hset : Function.update pn (j / 32) (pn (j / 32) ||| 1#32 <<< (j % 32)) =
      orWord True (j / 32) (1#32 <<< (j % 32)) pn := rfl
  refine Nat.eq_of_testBit_eq fun i => Bool.eq_iff_iff.mpr ?_
  rw [hset, number_testBit, getLsbD_orWord, and_or_left, ← number_testBit, hc,
    Nat.testBit_two_pow_mul, Nat.testBit_two_pow_mul_add _ (Nat.pow_lt_pow_succ (by decide))]
  have hone : (i < 256 ∧ True ∧ i / 32 = j / 32 ∧ (1#32 <<< (j % 32)).getLsbD (i % 32) = true) ↔
      i = j := by
    rw [hword]
    constructor
    · rintro ⟨-, -, hdiv, hmod⟩
      omega
    · rintro rfl
      exact ⟨hj, trivial, rfl, rfl⟩
  rw [hone]
  by_cases hi : i < j + 1
  · rw [if_pos hi, Nat.testBit_two_pow, decide_eq_false (by omega)]
    simp [eq_comm]
  · rw [if_neg hi, decide_eq_true (by omega)]
    simp
    omega

theorem divLoop_spec (turns : Nat) {num div : Limbs} {d : Nat} (hd : 0 < d) (hturns : turns ≤ 256)
    (hdiv : 0 < turns → number div = d * 2 ^ (turns - 1)) (hnum : number num < d * 2 ^ turns)
    (hn : n = number pn * d + number num) (hdvd : 2 ^ turns ∣ number pn) :
    number (divLoop turns num div pn) = n / d := by
  induction turns generalizing num div pn with
  | zero =>
    rw [pow_zero, Nat.mul_one] at hnum
    rw [divLoop, hn, Nat.mul_comm, Nat.mul_add_div hd, Nat.div_eq_of_lt hnum, Nat.add_zero]
  | succ shift ih =>
    have hdiv := hdiv (Nat.succ_pos shift)
    rw [Nat.add_sub_cancel] at hdiv
    have hhalf : 0 < shift → number (shiftRight div 1) = d * 2 ^ (shift - 1) := by
      intro hpos
      rw [number_shiftRight, hdiv, show shift = shift - 1 + 1 by omega, pow_succ, ← Nat.mul_assoc,
        pow_one, Nat.mul_div_cancel _ (by decide), Nat.add_sub_cancel]
    have hcompare : 0 ≤ compareTo num div WIDTH ↔ number div ≤ number num :=
      compareTo_nonneg num div WIDTH
    rw [pow_succ, ← Nat.mul_assoc] at hnum
    rw [divLoop]
    by_cases hge : compareTo num div WIDTH ≥ 0
    · have hle := hcompare.mp hge
      have hset := number_setBit (show shift < 256 by omega) hdvd
      rw [if_pos hge]
      refine ih (by omega) hhalf (by rw [number_sub hle]; omega) ?_ ?_
      · rw [hset, number_sub hle, hn, Nat.add_mul, Nat.mul_comm (2 ^ shift), ← hdiv]
        omega
      · rw [hset]
        exact Nat.dvd_add ((Nat.pow_dvd_pow 2 (Nat.le_succ shift)).trans hdvd) (Nat.dvd_refl _)
    · rw [if_neg hge]
      exact ih (by omega) hhalf (by omega) hn ((Nat.pow_dvd_pow 2 (Nat.le_succ shift)).trans hdvd)

theorem number_div {b : Limbs} (hb : number b ≠ 0) :
    ∃ q, div a b = .ok q ∧ number q = number a / number b := by
  have hbits : bits b WIDTH ≠ 0 := fun h => hb ((bits_zero_iff b).mp h)
  obtain ⟨halt, -⟩ := bits_spec a WIDTH
  obtain ⟨hblt, hble⟩ := bits_spec b WIDTH
  have hble := hble hbits
  have hble : 2 ^ (bits b WIDTH - 1) ≤ number b := hble
  have hblt : number b < 2 ^ bits b WIDTH := hblt
  have halt : number a < 2 ^ bits a WIDTH := halt
  have ha256 := bits_le a
  rw [div, if_neg hbits]
  by_cases hsmall : bits b WIDTH > bits a WIDTH
  · refine ⟨_, if_pos hsmall, ?_⟩
    have := Nat.pow_le_pow_right (show 0 < 2 by decide)
      (show bits a WIDTH ≤ bits b WIDTH - 1 by omega)
    rw [number_zero, Nat.div_eq_of_lt (by omega)]
  · refine ⟨_, if_neg hsmall, divLoop_spec _ (Nat.pos_of_ne_zero hb) (by omega) (fun _ => ?_) ?_
      (by rw [number_zero]; omega) (by rw [number_zero]; exact Nat.dvd_zero _)⟩
    · have hmul := Nat.mul_lt_mul_of_pos_right hblt
        (Nat.two_pow_pos (bits a WIDTH - bits b WIDTH))
      rw [← pow_add,
        show bits b WIDTH + (bits a WIDTH - bits b WIDTH) = bits a WIDTH by omega] at hmul
      have := Nat.pow_le_pow_right (show 0 < 2 by decide) ha256
      rw [number_shiftLeft, Nat.mod_eq_of_lt (by omega), Nat.add_sub_cancel]
    · have hmul := Nat.mul_le_mul_right (2 ^ (bits a WIDTH - bits b WIDTH + 1)) hble
      rw [← pow_add, show bits b WIDTH - 1 + (bits a WIDTH - bits b WIDTH + 1) = bits a WIDTH by
        omega] at hmul
      omega

/-! ## The compact form -/

theorem number_ofUint64 {b : Nat} (hb : b < 2 ^ 64) : number (ofUint64 b) = b := by
  have hzero (i : Nat) (hi : 2 ≤ i) : ofUint64 b i = 0 := by
    rw [ofUint64, if_neg (by omega), if_neg (by omega)]
  have h0 : (ofUint64 b 0).toNat = b % 2 ^ 32 := BitVec.toNat_ofNat b 32
  have h1 : (ofUint64 b 1).toNat = b / 2 ^ 32 :=
    (BitVec.toNat_ofNat _ 32).trans (Nat.mod_eq_of_lt (by omega))
  rw [number, val_of_zero (show 2 ≤ WIDTH by decide) hzero, val, val, val,
    h0, h1]
  omega

theorem getLow64_eq : getLow64 a = number a % 2 ^ 64 := by
  have hlow : val a 2 = getLow64 a := by simp [val, getLow64]
  rw [← hlow]
  exact (val_mod (show 2 ≤ WIDTH by decide)).symm

theorem bits_eq : bits a WIDTH = junkcoin.bits (number a) := by
  obtain ⟨hlt, hle⟩ := bits_spec a WIDTH
  rw [junkcoin.bits]
  by_cases hzero : number a = 0
  · rw [if_pos hzero, (bits_zero_iff a).mpr hzero]
  · have hpos : bits a WIDTH ≠ 0 := fun h => hzero ((bits_zero_iff a).mp h)
    rw [if_neg hzero, (Nat.log2_eq_iff hzero).mpr ⟨hle hpos, ?_⟩]
    · omega
    · rwa [Nat.sub_add_cancel (Nat.pos_of_ne_zero hpos)]

/-- The number that the compact form stands for: `mantissa * 256^(exponent-3)`. -/
def encoded (nCompact : UInt32) : Nat :=
  let exponent := nCompact.toNat / 2 ^ 24
  let mantissa := nCompact.toNat % 2 ^ 23
  if exponent ≤ 3 then mantissa / 2 ^ (8 * (3 - exponent))
  else mantissa * 2 ^ (8 * (exponent - 3))

theorem encoded_small (h : nCompact.toNat / 2 ^ 24 ≤ 3) : encoded nCompact < 2 ^ 23 := by
  rw [encoded, if_pos h]
  exact lt_of_le_of_lt (Nat.div_le_self _ _) (Nat.mod_lt _ (by decide))

theorem setCompact_overflow (nCompact : UInt32) :
    (setCompact nCompact).2.2 = true ↔ 2 ^ 256 ≤ encoded nCompact := by
  by_cases hsize : nCompact.toNat / 2 ^ 24 ≤ 3
  · have := encoded_small hsize
    simp only [setCompact, Bool.and_eq_true, Bool.or_eq_true, decide_eq_true_eq]
    omega
  · have hword : nCompact.toNat % 2 ^ 23 < 2 ^ 23 := Nat.mod_lt _ (by decide)
    simp only [setCompact, encoded, if_neg hsize, Bool.and_eq_true, Bool.or_eq_true,
      decide_eq_true_eq, bne_iff_ne]
    generalize nCompact.toNat % 2 ^ 23 = m at *
    generalize nCompact.toNat / 2 ^ 24 = n at *
    have hpow {k : Nat} (hk : k ≤ n) : 2 ^ (8 * (k - 3)) ≤ 2 ^ (8 * (n - 3)) :=
      Nat.pow_le_pow_right (by decide) (by omega)
    rcases Nat.lt_or_ge n 35 with hn | hn
    · rcases Nat.lt_or_ge n 33 with hn' | hn'
      · have hle : 2 ^ (8 * (n - 3)) ≤ 2 ^ 232 := Nat.pow_le_pow_right (by decide) (by omega)
        have := Nat.mul_le_mul hword.le hle
        omega
      · obtain rfl | rfl : n = 33 ∨ n = 34 := by omega
        · omega
        · omega
    · have hle := hpow hn
      constructor
      · intro h
        exact hle.trans (Nat.le_mul_of_pos_left _ (Nat.pos_of_ne_zero h.1))
      · intro h
        refine ⟨?_, by omega⟩
        rintro rfl
        omega

theorem number_setCompact (nCompact : UInt32) :
    number (setCompact nCompact).1 = encoded nCompact % 2 ^ 256 := by
  rw [setCompact, encoded]
  by_cases h : nCompact.toNat / 2 ^ 24 ≤ 3
  · have hle := Nat.div_le_self (nCompact.toNat % 2 ^ 23) (2 ^ (8 * (3 - nCompact.toNat / 2 ^ 24)))
    rw [if_pos h, if_pos h, if_pos h, number_ofUint64 (by omega)]
    exact (Nat.mod_eq_of_lt (by omega)).symm
  · rw [if_neg h, if_neg h, if_neg h, number_shiftLeft, number_ofUint64 (by omega)]

/-- The words hold what the model of the headers says. -/
theorem setCompact_eq (nCompact : UInt32) :
    (number (setCompact nCompact).1, (setCompact nCompact).2) = junkcoin.setCompact nCompact := by
  have hsmall (h : nCompact.toNat / 2 ^ 24 ≤ 3) := encoded_small h
  rw [number_setCompact, junkcoin.setCompact, setCompact, encoded]
  dsimp only
  by_cases h : nCompact.toNat / 2 ^ 24 ≤ 3
  · have hlt := hsmall h
    rw [encoded, if_pos h] at hlt
    rw [if_pos h, if_pos h, if_pos h, Nat.mod_eq_of_lt (by omega)]
  · rw [if_neg h, if_neg h, if_neg h]

/-- The first mantissa of `GetCompact`. -/
def mantissa (bn : Nat) : Nat :=
  let nSize := (junkcoin.bits bn + 7) / 8
  if nSize ≤ 3 then bn * 2 ^ (8 * (3 - nSize)) else bn / 2 ^ (8 * (nSize - 3))

theorem mantissa_bounds :
    mantissa (number a) < 2 ^ 24 ∧ (number a ≠ 0 → 2 ^ 16 ≤ mantissa (number a)) ∧
      (junkcoin.bits (number a) + 7) / 8 ≤ 32 ∧
      ((junkcoin.bits (number a) + 7) / 8 ≤ 3 → number a < 2 ^ 24) := by
  have h256 := bits_le a
  obtain ⟨hlt, hle⟩ := bits_spec a WIDTH
  have hzero := bits_zero_iff a
  rw [bits_eq] at h256 hlt hle hzero
  change number a < _ at hlt
  change _ → _ ≤ number a at hle
  rw [mantissa]
  generalize junkcoin.bits (number a) = b at *
  generalize number a = bn at *
  have hup : bn < 2 ^ (8 * ((b + 7) / 8)) :=
    hlt.trans_le (Nat.pow_le_pow_right (by decide) (by omega))
  have hlow (hne : bn ≠ 0) : 2 ^ (8 * ((b + 7) / 8 - 1)) ≤ bn :=
    (Nat.pow_le_pow_right (by decide) (by omega)).trans (hle fun h => hne (hzero.mp h))
  have hpos (hne : bn ≠ 0) : b ≠ 0 := fun h => hne (hzero.mp h)
  generalize hn : (b + 7) / 8 = n at *
  by_cases hsmall : n ≤ 3
  · have hscale (k : Nat) (hk : k ≤ n) :
        2 ^ (8 * k) * 2 ^ (8 * (3 - n)) = 2 ^ (8 * (3 - (n - k))) := by
      rw [← pow_add]
      congr 1
      omega
    rw [if_pos hsmall]
    refine ⟨?_, fun hne => ?_, by omega, fun _ =>
      hup.trans_le (Nat.pow_le_pow_right (by decide) (by omega))⟩
    · have := Nat.mul_lt_mul_of_pos_right hup (Nat.two_pow_pos (8 * (3 - n)))
      rwa [hscale n (le_refl n), Nat.sub_self] at this
    · have := Nat.mul_le_mul_right (2 ^ (8 * (3 - n))) (hlow hne)
      rwa [hscale (n - 1) (Nat.sub_le n 1), show 3 - (n - (n - 1)) = 2 by omega] at this
  · rw [if_neg hsmall]
    refine ⟨?_, fun hne => ?_, by omega, fun h => absurd h hsmall⟩
    · rw [Nat.div_lt_iff_lt_mul (Nat.two_pow_pos _), Nat.mul_comm, ← pow_add,
        show 8 * (n - 3) + 24 = 8 * n by omega]
      exact hup
    · rw [Nat.le_div_iff_mul_le (Nat.two_pow_pos _), ← pow_add,
        show 16 + 8 * (n - 3) = 8 * (n - 1) by omega]
      exact hlow hne

/-- The mantissa and the exponent of `GetCompact`, clear of the sign bit. -/
def compactParts (bn : Nat) : Nat × Nat :=
  clearSign (mantissa bn) ((junkcoin.bits bn + 7) / 8)

theorem getCompact_parts (bn : Nat) : junkcoin.getCompact bn =
    UInt32.ofNat ((compactParts bn).1 + (compactParts bn).2 * 2 ^ 24) := by
  rw [junkcoin.getCompact, compactParts, mantissa, clearSign]

theorem compactParts_bounds :
    (compactParts (number a)).1 < 2 ^ 23 ∧ (compactParts (number a)).2 ≤ 33 := by
  obtain ⟨hlt, -, hsize, -⟩ := mantissa_bounds a
  rw [compactParts, clearSign]
  by_cases hbit : (mantissa (number a)).testBit 23 = true
  · rw [if_pos hbit]
    exact ⟨by dsimp only; omega, by dsimp only; omega⟩
  · rw [if_neg hbit]
    refine ⟨Nat.lt_pow_two_of_testBit _ fun i hi => ?_, by dsimp only; omega⟩
    rcases Nat.eq_or_lt_of_le hi with rfl | hi
    · exact Bool.eq_false_iff.mpr hbit
    · exact Nat.testBit_lt_two_pow (hlt.trans_le (Nat.pow_le_pow_right (by decide) (by omega)))

theorem mantissa_words :
    (if (bits a WIDTH + 7) / 8 ≤ 3 then
      getLow64 a * 2 ^ (8 * (3 - (bits a WIDTH + 7) / 8)) % 2 ^ 64 % 2 ^ 32
      else getLow64 (shiftRight a (8 * ((bits a WIDTH + 7) / 8 - 3))) % 2 ^ 32) =
        mantissa (number a) := by
  obtain ⟨hlt, -, -, hsmall⟩ := mantissa_bounds a
  rw [bits_eq, getLow64_eq, getLow64_eq, number_shiftRight]
  rw [mantissa] at hlt ⊢
  by_cases h : (junkcoin.bits (number a) + 7) / 8 ≤ 3
  · rw [if_pos h] at hlt ⊢
    rw [if_pos h, Nat.mod_eq_of_lt (show number a < 2 ^ 64 by omega),
      Nat.mod_eq_of_lt (hlt.trans (by decide)), Nat.mod_eq_of_lt (hlt.trans (by decide))]
  · rw [if_neg h] at hlt ⊢
    rw [if_neg h, Nat.mod_eq_of_lt (hlt.trans (by decide)),
      Nat.mod_eq_of_lt (hlt.trans (by decide))]

theorem packCompact_eq {parts : Nat × Nat} (hmantissa : parts.1 < 2 ^ 23) (hsize : parts.2 ≤ 33) :
    packCompact false parts = .ok (UInt32.ofNat (parts.1 + parts.2 * 2 ^ 24)) := by
  rw [packCompact, assert_bind (decide_eq_true hmantissa), assert_bind (decide_eq_true (by omega)),
    Bool.false_and, if_neg (by decide), Nat.add_zero]
  rfl

/-- The words give what the model of the headers says, and no assertion fails. -/
theorem getCompact_eq : getCompact a false = .ok (junkcoin.getCompact (number a)) := by
  obtain ⟨hmantissa, hsize⟩ := compactParts_bounds a
  rw [getCompact_parts, ← packCompact_eq hmantissa hsize, compactParts, ← mantissa_words, ← bits_eq]
  rfl

/-- The number that a mantissa and an exponent stand for. -/
theorem encoded_parts {m : Nat} (hm : m < 2 ^ 23) (hn : n ≤ 33) :
    encoded (UInt32.ofNat (m + n * 2 ^ 24)) =
        (if n ≤ 3 then m / 2 ^ (8 * (3 - n)) else m * 2 ^ (8 * (n - 3))) ∧
      (UInt32.ofNat (m + n * 2 ^ 24)).toNat.testBit 23 = false := by
  have hnat : (UInt32.ofNat (m + n * 2 ^ 24)).toNat = m + n * 2 ^ 24 :=
    UInt32.toNat_ofNat_of_lt' (by rw [UInt32.size]; omega)
  rw [encoded, hnat, show (m + n * 2 ^ 24) / 2 ^ 24 = n by omega,
    show (m + n * 2 ^ 24) % 2 ^ 23 = m by omega]
  refine ⟨rfl, ?_⟩
  rw [Nat.add_comm, Nat.mul_comm, Nat.testBit_two_pow_mul_add _ (show m < 2 ^ 24 by omega),
    if_pos (by decide)]
  exact Nat.testBit_lt_two_pow hm

/-- The value of a place in the compact form. -/
def place (exponent : Nat) : Nat := 2 ^ (8 * (exponent - 3))

theorem place_pos (exponent : Nat) : 0 < place exponent := Nat.two_pow_pos _

theorem place_succ {exponent : Nat} (h : 3 ≤ exponent) :
    place (exponent + 1) = place exponent * 256 := by
  rw [place, place, show 8 * (exponent + 1 - 3) = 8 * (exponent - 3) + 8 by omega, pow_add]
  rfl

/-- What is lost by the compact form of a number is below its last place. -/
theorem encoded_getCompact :
    encoded (junkcoin.getCompact (number a)) =
        number a / place (compactParts (number a)).2 * place (compactParts (number a)).2 ∧
      (3 < (compactParts (number a)).2 →
        2 ^ 15 ≤ number a / place (compactParts (number a)).2) := by
  obtain ⟨hm, hn⟩ := compactParts_bounds a
  obtain ⟨-, hlow, -, hsmall⟩ := mantissa_bounds a
  rw [getCompact_parts, (encoded_parts hm hn).1]
  rw [compactParts, clearSign, mantissa] at *
  generalize hsize : (junkcoin.bits (number a) + 7) / 8 = n at *
  have hne (h : 3 ≤ n) : number a ≠ 0 := by
    intro hzero
    rw [hzero] at hsize
    change 0 = n at hsize
    omega
  generalize number a = bn at *
  by_cases hn3 : n ≤ 3
  · rw [if_pos hn3] at *
    have hscale : 0 < 2 ^ (8 * (3 - n)) := Nat.two_pow_pos _
    have hone : place n = 1 := by rw [place, show 8 * (n - 3) = 0 by omega, pow_zero]
    by_cases hbit : (bn * 2 ^ (8 * (3 - n))).testBit 23 = true
    · rw [if_pos hbit]
      dsimp only
      rcases Nat.eq_or_lt_of_le hn3 with rfl | hlt
      · have hge := Nat.ge_two_pow_of_testBit hbit
        rw [place_succ (le_refl 3), hone, if_neg (by decide)]
        simp only [Nat.sub_self, Nat.mul_zero, pow_zero, Nat.mul_one, Nat.one_mul] at hge ⊢
        exact ⟨rfl, fun _ => by omega⟩
      · have hplace : place (n + 1) = 1 := by
          rw [place, show 8 * (n + 1 - 3) = 0 by omega, pow_zero]
        rw [if_pos (by omega), hplace, Nat.div_one, Nat.mul_one,
          show 8 * (3 - n) = 8 * (3 - (n + 1)) + 8 by omega, pow_add, ← Nat.mul_assoc,
          show 2 ^ 8 = 256 from rfl, Nat.mul_div_cancel _ (by decide),
          Nat.mul_div_cancel _ (Nat.two_pow_pos _)]
        exact ⟨rfl, fun h => (by omega)⟩
    · rw [if_neg hbit]
      rw [if_pos hn3, hone, Nat.mul_div_cancel _ hscale, Nat.div_one, Nat.mul_one]
      exact ⟨rfl, fun h => (by omega)⟩
  · have hlow := hlow (hne (by omega))
    rw [if_neg hn3] at *
    change 2 ^ 16 ≤ bn / place n at hlow
    by_cases hbit : (bn / 2 ^ (8 * (n - 3))).testBit 23 = true
    · have hge : 2 ^ 23 ≤ bn / place n := Nat.ge_two_pow_of_testBit hbit
      rw [if_pos hbit]
      rw [if_neg (by omega), place_succ (by omega), ← Nat.div_div_eq_div_mul,
        ← place_succ (by omega)]
      exact ⟨rfl, fun _ => by omega⟩
    · rw [if_neg hbit]
      dsimp only
      rw [if_neg hn3]
      exact ⟨rfl, fun _ => by omega⟩

/-- No number that has a compact form lies between a number and its own. -/
theorem encoded_le_getCompact (h : encoded nCompact ≤ number a) :
    encoded nCompact ≤ encoded (junkcoin.getCompact (number a)) := by
  obtain ⟨hvalue, hlarge⟩ := encoded_getCompact a
  rw [hvalue]
  generalize (compactParts (number a)).2 = n at *
  generalize number a = bn at *
  by_cases hn : n ≤ 3
  · rwa [place, show 8 * (n - 3) = 0 by omega, pow_zero, Nat.div_one, Nat.mul_one]
  · have hlarge := Nat.mul_le_mul_right (place n) (hlarge (by omega))
    have hprev : place n = place (n - 1) * 256 := by
      rw [← place_succ (by omega), Nat.sub_add_cancel (by omega)]
    have hpos := place_pos (n - 1)
    by_cases hexp : nCompact.toNat / 2 ^ 24 ≤ 3
    · have := encoded_small hexp
      omega
    · have hword : nCompact.toNat % 2 ^ 23 < 2 ^ 23 := Nat.mod_lt _ (by decide)
      rw [encoded, if_neg hexp] at h ⊢
      generalize nCompact.toNat / 2 ^ 24 = e at *
      change _ * place e ≤ _ at h
      change _ * place e ≤ _
      by_cases hle : n ≤ e
      · -- a multiple of the last place
        obtain ⟨k, rfl⟩ := Nat.exists_eq_add_of_le hle
        have hmul : place (n + k) = 2 ^ (8 * k) * place n := by
          rw [place, place, ← pow_add]
          congr 1
          omega
        rw [hmul, ← Nat.mul_assoc] at h ⊢
        exact Nat.mul_le_mul_right _ ((Nat.le_div_iff_mul_le (place_pos n)).mpr h)
      · have hple : place e ≤ place (n - 1) := Nat.pow_le_pow_right (by decide) (by omega)
        have := Nat.mul_le_mul hword.le hple
        omega

theorem encoded_getCompact_le : encoded (junkcoin.getCompact (number a)) ≤ number a := by
  rw [(encoded_getCompact a).1]
  exact Nat.div_mul_le_self _ _

/-- The compact form decodes without a flag. -/
theorem setCompact_getCompact :
    number (setCompact (junkcoin.getCompact (number a))).1 =
        encoded (junkcoin.getCompact (number a)) ∧
      (setCompact (junkcoin.getCompact (number a))).2 = (false, false) := by
  obtain ⟨hm, hn⟩ := compactParts_bounds a
  have hle := encoded_getCompact_le a
  have hlt := number_lt a
  refine ⟨by rw [number_setCompact, Nat.mod_eq_of_lt (by omega)], Prod.ext ?_ ?_⟩
  · rw [getCompact_parts, setCompact]
    rw [(encoded_parts hm hn).2, Bool.and_false]
  · refine Bool.eq_false_iff.mpr fun h => ?_
    have := (setCompact_overflow _).mp h
    omega

/-! ## The work of a block -/

theorem equalTo_zero : equalTo a 0 = true ↔ number a = 0 := by
  have hzero (i : Nat) : ofUint64 0 i = 0 := by
    unfold ofUint64
    split_ifs
    · rfl
    · rfl
    · rfl
  simp only [equalTo, List.all_eq_true, List.mem_range, beq_iff_eq, hzero]
  constructor
  · intro h
    exact (val_congr h).trans number_zero
  · intro h i hi
    refine BitVec.eq_of_getLsbD_eq fun t ht => ?_
    have hbit : (number a).testBit (32 * i + t) = false := by rw [h, Nat.zero_testBit]
    rw [number, testBit_val (by decide), decide_eq_true (by omega), Bool.true_and,
      show (32 * i + t) / 32 = i by omega, show (32 * i + t) % 32 = t by omega] at hbit
    rw [hbit]
    exact (BitVec.getLsbD_zero).symm

/-- No target is the largest number. -/
theorem setCompact_lt (nCompact : UInt32) : number (setCompact nCompact).1 + 1 < 2 ^ 256 := by
  rw [number_setCompact]
  by_cases h : nCompact.toNat / 2 ^ 24 ≤ 3
  · have := encoded_small h
    omega
  · rw [encoded, if_neg h,
      show 8 * (nCompact.toNat / 2 ^ 24 - 3) = 8 * (nCompact.toNat / 2 ^ 24 - 4) + 8 by omega,
      pow_add, ← Nat.mul_assoc]
    generalize nCompact.toNat % 2 ^ 23 * 2 ^ (8 * (nCompact.toNat / 2 ^ 24 - 4)) = k
    omega

/-- The words give what the model of the chain says. -/
theorem getBlockProof_eq (block : CBlockHeader) :
    ∃ proof, getBlockProof block.nBits = .ok proof ∧
      number proof = junkcoin.getBlockProof block := by
  have hlt := setCompact_lt block.nBits
  rw [junkcoin.getBlockProof, ← setCompact_eq, getBlockProof]
  generalize setCompact block.nBits = r at *
  obtain ⟨target, fNegative, fOverflow⟩ := r
  dsimp only at *
  have hequal : equalTo target 0 = (number target == 0) := by
    rw [Bool.eq_iff_iff, equalTo_zero, beq_iff_eq]
  rw [hequal]
  by_cases hbad : (fNegative || fOverflow || number target == 0) = true
  · rw [if_pos hbad, if_pos hbad]
    exact ⟨_, rfl, number_ofUint64 (by decide)⟩
  · have hpos : number target ≠ 0 := by
      intro hzero
      exact hbad (by simp [hzero])
    have hnext : number (add target (ofUint64 1)) = number target + 1 := by
      rw [number_add, number_ofUint64 (by decide), Nat.mod_eq_of_lt hlt]
    have hne : number (add target (ofUint64 1)) ≠ 0 := by
      rw [hnext]
      exact Nat.succ_ne_zero _
    obtain ⟨q, hdiv, hq⟩ := number_div (not target) hne
    rw [if_neg hbad, if_neg hbad, hdiv, ok_bind]
    refine ⟨_, rfl, ?_⟩
    have hsmall := Nat.div_le_div_left (show 2 ≤ number target + 1 by omega)
      (a := 2 ^ 256 - 1 - number target) (by decide)
    rw [number_add, hq, hnext, number_not, number_ofUint64 (by decide), Nat.mod_eq_of_lt (by omega)]

/-- The work of a target is 2^256 / (target + 1). -/
theorem getBlockProof_floor {block : CBlockHeader} {target : Nat}
    (h : junkcoin.setCompact block.nBits = (target, false, false)) (hpos : target ≠ 0)
    (hlt : target < 2 ^ 256) : junkcoin.getBlockProof block = 2 ^ 256 / (target + 1) := by
  rw [junkcoin.getBlockProof, h]
  dsimp only
  rw [if_neg (by simpa using hpos), ← Nat.add_div_right _ (Nat.succ_pos target)]
  congr 1
  omega

/-- The arithmetic is exact, where the operand of a multiplication is not the
object that it changes. -/
theorem arithmetic_exact_iff (a : Limbs) (b : Operand) :
    ((∀ shift, number (shiftLeft a shift) = number a * 2 ^ shift % 2 ^ 256 ∧
        number (shiftRight a shift) = number a / 2 ^ shift) ∧
      (∀ b32, number (mul32 a b32) = number a * b32.toNat % 2 ^ 256) ∧
      number (mul a b) = number a * number (b.read a) % 2 ^ 256 ∧
      (number (b.read a) ≠ 0 →
        ∃ q, div a (b.read a) = .ok q ∧ number q = number a / number (b.read a)) ∧
      (∃ nCompact, getCompact a false = .ok nCompact ∧ (setCompact nCompact).2 = (false, false) ∧
        number (setCompact nCompact).1 ≤ number a ∧
        ∀ c, (setCompact c).2 = (false, false) → number (setCompact c).1 ≤ number a →
          number (setCompact c).1 ≤ number (setCompact nCompact).1) ∧
      (∀ nCompact, (setCompact nCompact).2.2 = true ↔ 2 ^ 256 ≤ encoded nCompact) ∧
      ∀ block : CBlockHeader, (setCompact block.nBits).2 = (false, false) →
        number (setCompact block.nBits).1 ≠ 0 → ∃ proof, getBlockProof block.nBits = .ok proof ∧
          number proof = 2 ^ 256 / (number (setCompact block.nBits).1 + 1)) ↔
      (b = .self → number a * number a % 2 ^ 256 = 0) := by
  constructor
  · rintro ⟨-, -, hmul, -⟩ rfl
    rwa [number_mul_self, eq_comm] at hmul
  · intro h
    refine ⟨fun shift => ⟨number_shiftLeft a shift, number_shiftRight a shift⟩, number_mul32 a, ?_,
      number_div a, ⟨_, getCompact_eq a, (setCompact_getCompact a).2, ?_, fun c hc hle => ?_⟩,
      setCompact_overflow, fun block hflags hpos => ?_⟩
    · cases b with
      | self => rw [number_mul_self, Operand.read, h rfl]
      | other b => exact number_mul_other a b
    · rw [(setCompact_getCompact a).1]
      exact encoded_getCompact_le a
    · have hfits : ¬ 2 ^ 256 ≤ encoded c := by
        rw [← setCompact_overflow, hc]
        decide
      rw [number_setCompact, Nat.mod_eq_of_lt (by omega)] at hle ⊢
      rw [(setCompact_getCompact a).1]
      exact encoded_le_getCompact a hle
    · obtain ⟨proof, hproof, hnumber⟩ := getBlockProof_eq block
      have hcompact := setCompact_eq block.nBits
      rw [hflags] at hcompact
      exact ⟨proof, hproof, hnumber.trans
        (getBlockProof_floor hcompact.symm hpos (number_lt _))⟩

/-- A number that is multiplied by itself in place becomes zero. -/
theorem mul_by_itself : number (mul (ofUint64 3) .self) = 0 ∧
    number (ofUint64 3) * number (Operand.self.read (ofUint64 3)) % 2 ^ 256 = 9 := by
  exact ⟨rfl, rfl⟩

end junkcoin.BaseUint
