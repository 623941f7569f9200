-- Script numbers (`CScriptNum`): little endian, with the sign in the top bit
-- of the last byte. `serialize` writes the one form that `fRequireMinimal`
-- takes, and the numbers of four bytes leave room for the arithmetic opcodes.
import Junkcoin.Interpreter

namespace junkcoin

open Bytes

variable {vch init : Valtype} {fuel : Nat} {n : Int} {last : UInt8} {op : Opcodetype}

/-! ## The bits of a byte -/

theorem byte_bits (b : UInt8) :
    (b &&& 0x80 ≠ 0 ↔ 128 ≤ b.toNat) ∧ (b &&& 0x7f = 0 ↔ b.toNat % 128 = 0) ∧
      (b.toNat < 128 → (b ||| 0x80).toNat = b.toNat + 128) := by
  have hall : ∀ n : Fin 256, (UInt8.ofNat n &&& 0x80 ≠ 0 ↔ 128 ≤ (UInt8.ofNat n).toNat) ∧
      (UInt8.ofNat n &&& 0x7f = 0 ↔ (UInt8.ofNat n).toNat % 128 = 0) ∧
      ((UInt8.ofNat n).toNat < 128 → (UInt8.ofNat n ||| 0x80).toNat = (UInt8.ofNat n).toNat + 128)
      := by
    decide +kernel
  simpa using hall ⟨b.toNat, b.toNat_lt⟩

theorem ofLe_snoc (init : Valtype) (last : UInt8) :
    ofLe (init ++ [last]) = ofLe init + 256 ^ init.length * last.toNat := by
  rw [ofLe_append]
  simp [ofLe]

/-- What is left of a number below the bit of the sign. -/
theorem ofLe_add_lt (init : Valtype) {low : Nat} (hlow : low < 128) :
    ofLe init + 256 ^ init.length * low < 256 ^ init.length * 128 := by
  have hinit := ofLe_lt init
  calc ofLe init + 256 ^ init.length * low < 256 ^ init.length * (low + 1) := by
        rw [Nat.mul_add]
        omega
    _ ≤ 256 ^ init.length * 128 := Nat.mul_le_mul_left _ hlow

/-! ## `set_vch` in 64 bits -/

/-- The loop of `set_vch`, on the bits of an `int64_t`. -/
def setVchLoop (result : BitVec 64) (i : Nat) : Valtype → BitVec 64
  | [] => result
  | b :: vch => setVchLoop (result ||| BitVec.ofNat 64 b.toNat <<< (8 * i)) (i + 1) vch

/-- `CScriptNum::set_vch` with the operations on `int64_t` and `uint64_t`. -/
def setVch64 (vch : Valtype) : Int :=
  match vch.getLast? with
  | none => 0
  | some last =>
    let result := setVchLoop 0 0 vch
    if last &&& 0x80 ≠ 0 then -(result &&& ~~~(0x80#64 <<< (8 * (vch.length - 1)))).toInt
    else result.toInt

/-- The bytes are put side by side. -/
theorem setVchLoop_toNat {result : BitVec 64} {i : Nat} (hresult : result.toNat < 256 ^ i)
    (hlen : i + vch.length ≤ 8) :
    (setVchLoop result i vch).toNat = result.toNat + 256 ^ i * ofLe vch := by
  induction vch generalizing result i with
  | nil => simp [setVchLoop, ofLe]
  | cons b vch ih =>
    rw [List.length_cons] at hlen
    have hb := b.toNat_lt
    have hpow : (256 : Nat) ^ i = 2 ^ (8 * i) := by rw [pow_mul]; norm_num
    have hle : 2 ^ (8 * i) ≤ 2 ^ 56 := Nat.pow_le_pow_right (by decide) (by omega)
    have hfits : b.toNat * 2 ^ (8 * i) < 2 ^ 64 := by
      calc b.toNat * 2 ^ (8 * i) < 2 ^ 8 * 2 ^ 56 := Nat.mul_lt_mul_of_lt_of_le hb hle (by decide)
        _ = 2 ^ 64 := rfl
    have hbyte : b.toNat % 2 ^ 64 = b.toNat := Nat.mod_eq_of_lt (by omega)
    have hstep : (result ||| BitVec.ofNat 64 b.toNat <<< (8 * i)).toNat =
        result.toNat + 256 ^ i * b.toNat := by
      rw [BitVec.toNat_or, BitVec.toNat_shiftLeft, BitVec.toNat_ofNat, hbyte, Nat.shiftLeft_eq,
        Nat.mod_eq_of_lt hfits, Nat.or_comm, ← Nat.shiftLeft_eq,
        ← Nat.shiftLeft_add_eq_or_of_lt (hpow ▸ hresult), Nat.shiftLeft_eq, hpow, Nat.mul_comm,
        Nat.add_comm]
    have hnext : result.toNat + 256 ^ i * b.toNat < 256 ^ (i + 1) := by
      calc result.toNat + 256 ^ i * b.toNat < 256 ^ i + 256 ^ i * b.toNat := by omega
        _ = 256 ^ i * (b.toNat + 1) := by ring
        _ ≤ 256 ^ i * 256 := Nat.mul_le_mul_left _ (by omega)
    rw [setVchLoop, ih (hstep ▸ hnext) (by omega), hstep, ofLe, pow_succ]
    ring

/-- The bit of the sign is cleared. -/
theorem toNat_clear_sign {a j : Nat} (hj : j < 64) (ha : a < 2 ^ j) :
    (BitVec.ofNat 64 (a + 2 ^ j) &&& ~~~(BitVec.ofNat 64 (2 ^ j))).toNat = a := by
  have hpow : 2 ^ j ≤ 2 ^ 63 := Nat.pow_le_pow_right (by decide) (by omega)
  have heq : BitVec.ofNat 64 (a + 2 ^ j) &&& ~~~(BitVec.ofNat 64 (2 ^ j)) = BitVec.ofNat 64 a := by
    refine BitVec.eq_of_getLsbD_eq fun i hi => ?_
    rw [BitVec.getLsbD_and, BitVec.getLsbD_not, BitVec.getLsbD_ofNat, BitVec.getLsbD_ofNat,
      BitVec.getLsbD_ofNat, Nat.testBit_two_pow, Nat.add_comm]
    simp only [hi, decide_true, Bool.true_and]
    rcases lt_trichotomy i j with h | rfl | h
    · rw [Nat.testBit_two_pow_add_gt h]
      simp [h.ne']
    · rw [Nat.testBit_lt_two_pow ha]
      simp
    · have hp : 2 ^ (j + 1) ≤ 2 ^ i := Nat.pow_le_pow_right (by decide) h
      rw [Nat.testBit_lt_two_pow (show 2 ^ j + a < 2 ^ i by omega),
        Nat.testBit_lt_two_pow (show a < 2 ^ i by omega)]
      rfl
  rw [heq, BitVec.toNat_ofNat, Nat.mod_eq_of_lt (by omega)]

theorem setVch_snoc (init : Valtype) (last : UInt8) :
    setVch (init ++ [last]) =
      if 128 ≤ last.toNat then
        -((ofLe init + 256 ^ init.length * (last.toNat - 128) : Nat) : Int)
      else ((ofLe init + 256 ^ init.length * last.toNat : Nat) : Int) := by
  simp only [setVch, List.getLast?_concat, (byte_bits last).1, ofLe_snoc, List.length_append,
    List.length_singleton, Nat.add_sub_cancel]
  split
  · rename_i htop
    rw [Nat.mul_sub, Nat.mul_comm 0x80, Nat.add_sub_assoc (Nat.mul_le_mul_left _ htop)]
  · rfl

theorem setVch64_eq (hlen : vch.length ≤ 8) : setVch64 vch = setVch vch := by
  rcases vch.eq_nil_or_concat' with rfl | ⟨init, last, rfl⟩
  · rfl
  rw [List.length_append, List.length_singleton] at hlen
  have hloop : (setVchLoop 0 0 (init ++ [last])).toNat =
      ofLe init + 256 ^ init.length * last.toNat := by
    rw [setVchLoop_toNat (by decide) (by simpa using hlen), ofLe_snoc]
    simp
  have hlast := last.toNat_lt
  have hpow : (256 : Nat) ^ init.length * 128 = 2 ^ (8 * init.length + 7) := by
    rw [pow_add, pow_mul]
    norm_num
  have htop : 2 ^ (8 * init.length + 7) ≤ 2 ^ 63 := Nat.pow_le_pow_right (by decide) (by omega)
  rw [setVch_snoc]
  simp only [setVch64, List.getLast?_concat, (byte_bits last).1, List.length_append,
    List.length_singleton, Nat.add_sub_cancel]
  split
  · rename_i hneg
    obtain ⟨low, hlow⟩ := Nat.exists_eq_add_of_le' hneg
    have hlt : ofLe init + 256 ^ init.length * low < 2 ^ (8 * init.length + 7) := by
      rw [← hpow]
      exact ofLe_add_lt init (by omega)
    have hbits : setVchLoop 0 0 (init ++ [last]) = BitVec.ofNat 64
        (ofLe init + 256 ^ init.length * low + 2 ^ (8 * init.length + 7)) := by
      refine BitVec.eq_of_toNat_eq ?_
      rw [hloop, BitVec.toNat_ofNat, Nat.mod_eq_of_lt (by omega), hlow, ← hpow]
      ring
    have hmask : 0x80#64 <<< (8 * init.length) = BitVec.ofNat 64 (2 ^ (8 * init.length + 7)) := by
      refine BitVec.eq_of_toNat_eq ?_
      rw [BitVec.toNat_shiftLeft, BitVec.toNat_ofNat, BitVec.toNat_ofNat, Nat.shiftLeft_eq,
        ← hpow, pow_mul]
      norm_num
      rw [Nat.mul_comm]
    rw [hbits, hmask, BitVec.toInt_eq_toNat_of_lt, toNat_clear_sign (by omega) hlt, hlow,
      Nat.add_sub_cancel]
    rw [toNat_clear_sign (by omega) hlt]
    omega
  · rename_i hpos
    have hlt : ofLe init + 256 ^ init.length * last.toNat < 2 ^ 63 := by
      refine lt_of_lt_of_le ?_ htop
      rw [← hpow]
      exact ofLe_add_lt init (by omega)
    rw [BitVec.toInt_eq_toNat_of_lt (by rw [hloop]; omega), hloop]

theorem natAbs_setVch_lt {k : Nat} (hlen : vch.length ≤ k) : (setVch vch).natAbs < 256 ^ k := by
  refine lt_of_lt_of_le ?_ (Nat.pow_le_pow_right (by decide) hlen)
  rcases vch.eq_nil_or_concat' with rfl | ⟨init, last, rfl⟩
  · decide
  have hlt := last.toNat_lt
  rw [setVch_snoc, List.length_append, List.length_singleton, pow_succ]
  split
  · have := ofLe_add_lt init (show last.toNat - 128 < 128 by omega)
    omega
  · have := ofLe_add_lt init (show last.toNat < 128 by omega)
    omega

/-! ## The bytes of a magnitude -/

theorem scriptNumMagnitude_succ {n : Nat} (hn : n ≠ 0) : scriptNumMagnitude (fuel + 1) n =
    UInt8.ofNat n :: scriptNumMagnitude fuel (n / 256) := by
  cases n with
  | zero => exact absurd rfl hn
  | succ n => rfl

theorem scriptNumMagnitude_zero (fuel : Nat) : scriptNumMagnitude fuel 0 = [] := by
  cases fuel with
  | zero => rfl
  | succ fuel => rfl

/-- A magnitude ends in a byte that is not zero. -/
theorem getLast?_scriptNumMagnitude {n : Nat} (h : n < 256 ^ fuel)
    (hlast : (scriptNumMagnitude fuel n).getLast? = some last) : last ≠ 0 := by
  induction fuel generalizing n with
  | zero => cases hlast
  | succ fuel ih =>
    rcases Nat.eq_zero_or_pos n with rfl | hn
    · cases hlast
    rw [scriptNumMagnitude_succ (by omega)] at hlast
    rcases Nat.eq_zero_or_pos (n / 256) with hdiv | hdiv
    · rw [hdiv, scriptNumMagnitude_zero] at hlast
      obtain rfl : UInt8.ofNat n = last := by simpa using hlast
      intro hzero
      have := congrArg UInt8.toNat hzero
      simp at this
      omega
    · have hlt : n / 256 < 256 ^ fuel := by
        omega
      cases fuel with
      | zero => simp at hlt; omega
      | succ fuel =>
        have hcons : scriptNumMagnitude (fuel + 1) (n / 256) = _ :=
          scriptNumMagnitude_succ (by omega)
        rw [hcons, List.getLast?_cons_cons, ← hcons] at hlast
        exact ih hlt hlast

/-- Bytes that end in one that is not zero are the magnitude of their number. -/
theorem scriptNumMagnitude_ofLe (hlast : last ≠ 0) (hlen : init.length < fuel) :
    scriptNumMagnitude fuel (ofLe (init ++ [last])) = init ++ [last] := by
  have hne : last.toNat ≠ 0 := fun h => hlast (UInt8.toNat_inj.mp h)
  have hpos (init : Valtype) : ofLe (init ++ [last]) ≠ 0 := by
    rw [ofLe_snoc]
    exact (Nat.add_pos_right _ (Nat.mul_pos (Nat.pow_pos (by decide)) (by omega))).ne'
  induction init generalizing fuel with
  | nil =>
    obtain ⟨fuel, rfl⟩ := Nat.exists_eq_add_one.mpr hlen
    have hlt := last.toNat_lt
    rw [scriptNumMagnitude_succ (hpos [])]
    simp only [List.nil_append, ofLe, Nat.mul_zero, Nat.add_zero, UInt8.ofNat_toNat]
    rw [Nat.div_eq_of_lt hlt, scriptNumMagnitude_zero]
  | cons b init ih =>
    obtain ⟨fuel, rfl⟩ := Nat.exists_eq_add_one.mpr (Nat.zero_lt_of_lt hlen)
    have hb := b.toNat_lt
    have hdiv : ofLe (b :: init ++ [last]) / 256 = ofLe (init ++ [last]) := by
      rw [List.cons_append, ofLe]
      omega
    have hbyte : UInt8.ofNat (ofLe (b :: init ++ [last])) = b := by
      apply UInt8.toNat_inj.mp
      rw [List.cons_append, ofLe, UInt8.toNat_ofNat']
      omega
    rw [scriptNumMagnitude_succ (hpos _), hdiv, hbyte, ih (by simpa using hlen)]
    rfl

/-! ## The minimal form -/

theorem isMinimalNum_snoc (init : Valtype) (last : UInt8) : isMinimalNum (init ++ [last]) = true ↔
    last.toNat % 128 ≠ 0 ∨ ∃ front second, init = front ++ [second] ∧ 128 ≤ second.toNat := by
  rw [isMinimalNum, List.reverse_append, List.reverse_singleton, List.singleton_append]
  simp only [(byte_bits last).2.1]
  rcases init.eq_nil_or_concat' with rfl | ⟨front, second, rfl⟩
  · simp
  · have hback : (∃ front' second', front ++ [second] = front' ++ [second'] ∧
        128 ≤ second'.toNat) ↔ 128 ≤ second.toNat := by
      constructor
      · rintro ⟨front', second', heq, hge⟩
        obtain ⟨-, heq⟩ := List.append_inj' heq rfl
        cases heq
        exact hge
      · exact fun hge => ⟨front, second, rfl, hge⟩
    rw [hback, ← (byte_bits second).1]
    by_cases hlow : last.toNat % 128 = 0
    · simp [hlow]
    · simp [hlow]

theorem scriptNumSerialize_snoc {value : Int}
    (h : scriptNumMagnitude 8 value.natAbs = init ++ [last]) :
    scriptNumSerialize value =
      if 128 ≤ last.toNat then init ++ [last] ++ [if value < 0 then 0x80 else 0]
      else if value < 0 then init ++ [last ||| 0x80] else init ++ [last] := by
  simp only [scriptNumSerialize, h, List.getLast?_concat, (byte_bits last).1, List.dropLast_concat]

/-- What `serialize` makes of the last byte of a magnitude. -/
theorem exists_magnitude (hzero : n ≠ 0) (hn : n.natAbs < 2 ^ 64) :
    ∃ init last, scriptNumMagnitude 8 n.natAbs = init ++ [last] ∧ last.toNat ≠ 0 ∧
      ofLe init + 256 ^ init.length * last.toNat = n.natAbs := by
  have hfits : n.natAbs < 256 ^ 8 := by simpa using hn
  have hvalue := ofLe_scriptNumMagnitude hfits
  rcases (scriptNumMagnitude 8 n.natAbs).eq_nil_or_concat' with hnil | ⟨init, last, hlast⟩
  · rw [hnil, ofLe] at hvalue
    omega
  · refine ⟨init, last, hlast, fun h => ?_, by rw [← ofLe_snoc, ← hlast, hvalue]⟩
    refine getLast?_scriptNumMagnitude hfits ?_ (UInt8.toNat_inj.mp h)
    rw [hlast, List.getLast?_concat]

theorem serialize_minimal (hn : n.natAbs < 2 ^ 64) :
    isMinimalNum (scriptNumSerialize n) = true ∧ setVch (scriptNumSerialize n) = n := by
  by_cases hzero : n = 0
  · subst hzero
    exact ⟨rfl, rfl⟩
  obtain ⟨init, last, hmag, hlast, hvalue⟩ := exists_magnitude hzero hn
  rw [scriptNumSerialize_snoc hmag]
  split
  · -- the top bit is taken: the sign has a byte of its own
    rename_i htop
    refine ⟨(isMinimalNum_snoc _ _).mpr (Or.inr ⟨init, last, rfl, htop⟩), ?_⟩
    rw [setVch_snoc, ofLe_snoc, hvalue]
    by_cases hneg : n < 0
    · rw [if_pos hneg]
      show -((n.natAbs + 256 ^ (init ++ [last]).length * 0 : Nat) : Int) = n
      omega
    · rw [if_neg hneg]
      show ((n.natAbs + 256 ^ (init ++ [last]).length * 0 : Nat) : Int) = n
      omega
  · rename_i htop
    by_cases hneg : n < 0
    · have hor := (byte_bits last).2.2 (by omega)
      rw [if_pos hneg]
      refine ⟨(isMinimalNum_snoc _ _).mpr (Or.inl (by omega)), ?_⟩
      rw [setVch_snoc, if_pos (by omega), hor, Nat.add_sub_cancel, hvalue]
      omega
    · rw [if_neg hneg]
      refine ⟨(isMinimalNum_snoc _ _).mpr (Or.inl (by omega)), ?_⟩
      rw [setVch_snoc, if_neg htop, hvalue]
      omega

theorem length_serialize_le (hn : n.natAbs < 2 ^ 63) : (scriptNumSerialize n).length ≤ 8 := by
  by_cases hzero : n = 0
  · subst hzero
    decide
  obtain ⟨init, last, hmag, hlast, hvalue⟩ := exists_magnitude hzero (by omega)
  have hpow : 256 ^ init.length * last.toNat ≤ n.natAbs := by omega
  have hinit : init.length ≤ 7 := by
    by_contra hlong
    have hle : 256 ^ 8 ≤ 256 ^ init.length := Nat.pow_le_pow_right (by decide) (by omega)
    have := Nat.mul_le_mul hle (Nat.one_le_iff_ne_zero.mpr hlast)
    omega
  rw [scriptNumSerialize_snoc hmag]
  split
  · rename_i htop
    have hshort : init.length < 7 := by
      refine lt_of_le_of_ne hinit fun heq => ?_
      rw [heq] at hpow
      omega
    simp only [List.length_append, List.length_singleton]
    omega
  · split <;> simp only [List.length_append, List.length_singleton] <;> omega

/-- The bytes below the sign, as a number. -/
theorem setVch_snoc_mod (init : Valtype) (last : UInt8) : setVch (init ++ [last]) =
    if 128 ≤ last.toNat then
      -((ofLe init + 256 ^ init.length * (last.toNat % 128) : Nat) : Int)
    else ((ofLe init + 256 ^ init.length * (last.toNat % 128) : Nat) : Int) := by
  have hlt := last.toNat_lt
  rw [setVch_snoc]
  split
  · rw [show last.toNat % 128 = last.toNat - 128 by omega]
  · rw [Nat.mod_eq_of_lt (by omega)]

theorem natAbs_setVch_snoc (init : Valtype) (last : UInt8) : (setVch (init ++ [last])).natAbs =
    ofLe init + 256 ^ init.length * (last.toNat % 128) := by
  rw [setVch_snoc_mod]
  split
  · rw [Int.natAbs_neg, Int.natAbs_natCast]
  · rw [Int.natAbs_natCast]

/-- The sign of a number that is not zero is the top bit. -/
theorem setVch_snoc_neg_iff (hne : (setVch (init ++ [last])).natAbs ≠ 0) :
    setVch (init ++ [last]) < 0 ↔ 128 ≤ last.toNat := by
  rw [natAbs_setVch_snoc] at hne
  rw [setVch_snoc_mod]
  split
  · rename_i htop
    exact iff_of_true (by omega) htop
  · rename_i htop
    exact iff_of_false (by omega) htop

/-- The last byte has the sign alone, and the one before it the top bit. -/
theorem serialize_sign_alone {front : Valtype} {second : UInt8} (hlen : front.length ≤ 6)
    (hsecond : 128 ≤ second.toNat) (hbits : last.toNat % 128 = 0) :
    scriptNumSerialize (setVch (front ++ [second] ++ [last])) = front ++ [second] ++ [last] := by
  have hlt := last.toNat_lt
  have habs := natAbs_setVch_snoc (front ++ [second]) last
  rw [hbits, Nat.mul_zero, Nat.add_zero] at habs
  have hmag : scriptNumMagnitude 8 (setVch (front ++ [second] ++ [last])).natAbs =
      front ++ [second] := by
    rw [habs]
    exact scriptNumMagnitude_ofLe (fun hz => by simp [hz] at hsecond) (by omega)
  have hne : (setVch (front ++ [second] ++ [last])).natAbs ≠ 0 := by
    intro hz
    rw [hz, scriptNumMagnitude_zero] at hmag
    exact List.append_ne_nil_of_right_ne_nil front (List.cons_ne_nil _ _) hmag.symm
  rw [scriptNumSerialize_snoc hmag, if_pos hsecond]
  congr 2
  apply UInt8.toNat_inj.mp
  by_cases htop : 128 ≤ last.toNat
  · rw [if_pos ((setVch_snoc_neg_iff hne).mpr htop)]
    change 128 = last.toNat
    omega
  · rw [if_neg fun hneg => htop ((setVch_snoc_neg_iff hne).mp hneg)]
    change 0 = last.toNat
    omega

/-- The last byte has the sign and bits of the number. -/
theorem serialize_sign_shared (hlen : init.length ≤ 7) (hbits : last.toNat % 128 ≠ 0) :
    scriptNumSerialize (setVch (init ++ [last])) = init ++ [last] := by
  have hlt := last.toNat_lt
  obtain ⟨low, hlow⟩ : ∃ low : UInt8, low.toNat = last.toNat % 128 :=
    ⟨UInt8.ofNat (last.toNat % 128), by rw [UInt8.toNat_ofNat']; omega⟩
  have habs := natAbs_setVch_snoc init last
  rw [← hlow, ← ofLe_snoc] at habs
  have hmag : scriptNumMagnitude 8 (setVch (init ++ [last])).natAbs = init ++ [low] := by
    rw [habs]
    exact scriptNumMagnitude_ofLe (fun hz => hbits (by rw [← hlow, hz]; rfl)) (by omega)
  have hne : (setVch (init ++ [last])).natAbs ≠ 0 := by
    rw [natAbs_setVch_snoc]
    exact (Nat.add_pos_right _ (Nat.mul_pos (Nat.pow_pos (by decide)) (by omega))).ne'
  have hor := (byte_bits low).2.2 (by omega)
  rw [scriptNumSerialize_snoc hmag, if_neg (by omega)]
  by_cases htop : 128 ≤ last.toNat
  · rw [if_pos ((setVch_snoc_neg_iff hne).mpr htop)]
    congr 2
    exact UInt8.toNat_inj.mp (by omega)
  · rw [if_neg fun hneg => htop ((setVch_snoc_neg_iff hne).mp hneg)]
    congr 2
    exact UInt8.toNat_inj.mp (by omega)

theorem serialize_of_minimal (hlen : vch.length ≤ 8) (h : isMinimalNum vch = true) :
    scriptNumSerialize (setVch vch) = vch := by
  rcases vch.eq_nil_or_concat' with rfl | ⟨init, last, rfl⟩
  · rfl
  rw [List.length_append, List.length_singleton] at hlen
  by_cases hbits : last.toNat % 128 = 0
  · obtain ⟨front, second, rfl, hsecond⟩ :=
      ((isMinimalNum_snoc _ _).mp h).resolve_left (fun hne => hne hbits)
    rw [List.length_append, List.length_singleton] at hlen
    exact serialize_sign_alone (by omega) hsecond hbits
  · exact serialize_sign_shared (by omega) hbits

/-! ## Arithmetic -/

/-- The values of an `int64_t`. -/
def InInt64 (n : Int) : Prop := -2 ^ 63 ≤ n ∧ n < 2 ^ 63

/-- What the opcodes with one number compute. -/
def numOp1 : Opcodetype → Option (Int → Int)
  | .OP_1ADD => some (· + 1)
  | .OP_1SUB => some (· - 1)
  | .OP_NEGATE => some (- ·)
  | .OP_ABS => some fun bn => if bn < 0 then -bn else bn
  | .OP_NOT => some fun bn => numOfBool (bn = 0)
  | .OP_0NOTEQUAL => some fun bn => numOfBool (bn ≠ 0)
  | _ => none

/-- What the opcodes with two numbers compute. -/
def numOp2 : Opcodetype → Option (Int → Int → Int)
  | .OP_ADD => some (· + ·)
  | .OP_SUB => some (· - ·)
  | .OP_BOOLAND => some fun bn1 bn2 => numOfBool (bn1 ≠ 0 ∧ bn2 ≠ 0)
  | .OP_BOOLOR => some fun bn1 bn2 => numOfBool (bn1 ≠ 0 ∨ bn2 ≠ 0)
  | .OP_NUMEQUAL => some fun bn1 bn2 => numOfBool (bn1 = bn2)
  | .OP_NUMEQUALVERIFY => some fun bn1 bn2 => numOfBool (bn1 = bn2)
  | .OP_NUMNOTEQUAL => some fun bn1 bn2 => numOfBool (bn1 ≠ bn2)
  | .OP_LESSTHAN => some fun bn1 bn2 => numOfBool (bn1 < bn2)
  | .OP_GREATERTHAN => some fun bn1 bn2 => numOfBool (bn1 > bn2)
  | .OP_LESSTHANOREQUAL => some fun bn1 bn2 => numOfBool (bn1 ≤ bn2)
  | .OP_GREATERTHANOREQUAL => some fun bn1 bn2 => numOfBool (bn1 ≥ bn2)
  | .OP_MIN => some fun bn1 bn2 => if bn1 < bn2 then bn1 else bn2
  | .OP_MAX => some fun bn1 bn2 => if bn1 > bn2 then bn1 else bn2
  | _ => none

/-- The interpreter computes these. -/
theorem execOp_numOp1 {f : Int → Int} (h : numOp1 op = some f) (ctx : ScriptContext)
    (flags : VerifyFlags) (fExec : Bool) (s : ScriptState) :
    execOp ctx flags fExec s op = opNum flags f s := by
  unfold numOp1 at h
  split at h <;> cases h <;> rfl

theorem execOp_numOp2 {f : Int → Int → Int} (h : numOp2 op = some f) (ctx : ScriptContext)
    (flags : VerifyFlags) (fExec : Bool) (s : ScriptState) :
    execOp ctx flags fExec s op =
      opNum2 flags f s >>= if op = .OP_NUMEQUALVERIFY then numEqualVerify else .ok := by
  unfold numOp2 at h
  split at h <;> cases h
  case h_6 => rfl
  all_goals
    change opNum2 flags _ s = _
    cases opNum2 flags _ s <;> rfl

theorem numOp1_inInt64 {f : Int → Int} (h : numOp1 op = some f) {bn : Int}
    (hbn : bn.natAbs < 256 ^ 4) : InInt64 (f bn) := by
  unfold numOp1 at h
  split at h <;> cases h
  all_goals
    simp only [InInt64, numOfBool]
    try split
    all_goals omega

theorem numOp2_inInt64 {f : Int → Int → Int} (h : numOp2 op = some f) {bn1 bn2 : Int}
    (hbn1 : bn1.natAbs < 256 ^ 4) (hbn2 : bn2.natAbs < 256 ^ 4) : InInt64 (f bn1 bn2) := by
  unfold numOp2 at h
  split at h <;> cases h
  all_goals
    simp only [InInt64, numOfBool]
    try split
    all_goals omega

/-- `serialize` and `set_vch` are inverse on `int64_t`, the minimal encodings are
the ones that `serialize` makes, and the opcodes on numbers of four bytes stay
within `int64_t`. -/
theorem script_numbers_minimal :
    (∀ vch : Valtype, vch.length ≤ 8 → setVch64 vch = setVch vch) ∧
    (∀ n : Int, -2 ^ 63 < n → n < 2 ^ 63 → setVch64 (scriptNumSerialize n) = n ∧
      ∀ nMaxNumSize, (scriptNumSerialize n).length ≤ nMaxNumSize →
        scriptNum (scriptNumSerialize n) true nMaxNumSize = some n) ∧
    (∀ vch : Valtype, vch.length ≤ 8 → ∀ nMaxNumSize, vch.length ≤ nMaxNumSize →
      ((scriptNum vch true nMaxNumSize).isSome ↔ vch = scriptNumSerialize (setVch vch))) ∧
    (∀ op f, numOp1 op = some f →
      (∀ ctx flags fExec s, execOp ctx flags fExec s op = opNum flags f s) ∧
      ∀ vch : Valtype, vch.length ≤ nDefaultMaxNumSize → InInt64 (f (setVch vch))) ∧
    (∀ op f, numOp2 op = some f →
      (∀ ctx flags fExec s, execOp ctx flags fExec s op =
        opNum2 flags f s >>= if op = .OP_NUMEQUALVERIFY then numEqualVerify else .ok) ∧
      ∀ vch1 vch2 : Valtype, vch1.length ≤ nDefaultMaxNumSize → vch2.length ≤ nDefaultMaxNumSize →
        InInt64 (f (setVch vch1) (setVch vch2))) := by
  refine ⟨fun vch => setVch64_eq, fun n hmin hmax => ?_, fun vch hlen nMaxNumSize hmax => ?_,
    fun op f hf => ⟨execOp_numOp1 hf, fun vch hlen => numOp1_inInt64 hf (natAbs_setVch_lt hlen)⟩,
    fun op f hf => ⟨execOp_numOp2 hf, fun vch1 vch2 hlen1 hlen2 =>
      numOp2_inInt64 hf (natAbs_setVch_lt hlen1) (natAbs_setVch_lt hlen2)⟩⟩
  · obtain ⟨hminimal, hvalue⟩ := serialize_minimal (show n.natAbs < 2 ^ 64 by omega)
    refine ⟨(setVch64_eq (length_serialize_le (by omega))).trans hvalue, fun nMaxNumSize hmax => ?_⟩
    rw [scriptNum, if_neg (by omega), hminimal, hvalue]
    rfl
  · have hsome : (scriptNum vch true nMaxNumSize).isSome ↔ isMinimalNum vch = true := by
      rw [scriptNum, if_neg (by omega)]
      cases isMinimalNum vch <;> simp
    refine hsome.trans ⟨fun h => (serialize_of_minimal hlen h).symm, fun h => ?_⟩
    rw [h]
    exact (serialize_minimal (by simpa using natAbs_setVch_lt hlen)).1

end junkcoin
