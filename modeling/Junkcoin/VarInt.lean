-- Variable-length integers of `serialize.h`. Each value has one encoding by
-- the formula of the comment; `ReadVarInt` also takes longer ones, whose
-- number wraps.
import Junkcoin.Compressor

namespace junkcoin

/-! ## Sizes and numbers -/

def getSizeOfVarInt (n : Nat) : Nat :=
  if n ≤ 0x7F then 1 else getSizeOfVarInt (n / 0x80 - 1) + 1

/-- The number that bytes encode after `n`, with one added to every digit but
the last, and what follows them. -/
def encodedFrom (n : Nat) : List UInt8 → Option (Nat × List UInt8)
  | [] => none
  | a :: input =>
    if a &&& 0x80 != 0 then encodedFrom (n * 0x80 + (a &&& 0x7F).toNat + 1) input
    else some (n * 0x80 + (a &&& 0x7F).toNat, input)

/-- The number at the start of the input, by the formula of the comment. -/
def encodedNumber (input : List UInt8) : Option (Nat × List UInt8) := encodedFrom 0 input

/-- The bytes of a number of any size. -/
def varIntBytes (more : Bool) (n : Nat) : List UInt8 :=
  (if n ≤ 0x7F then [] else varIntBytes true (n / 0x80 - 1)) ++
    [UInt8.ofNat (n % 0x80) ||| if more then 0x80 else 0x00]

/-- The bytes before the last, where `acc` is the number they encode plus one. -/
def varIntDone (acc : Nat) : List UInt8 := if acc = 0 then [] else varIntBytes true (acc - 1)

theorem varIntBytes_digit (more : Bool) (acc : Nat) {low : Nat} (hlow : low < 0x80) :
    varIntBytes more (acc * 0x80 + low) =
      varIntDone acc ++ [UInt8.ofNat low ||| if more then 0x80 else 0x00] := by
  rw [varIntBytes, varIntDone, show (acc * 0x80 + low) % 0x80 = low by omega]
  by_cases hacc : acc = 0
  · rw [if_pos (by omega), if_pos hacc]
  · rw [if_neg (by omega), if_neg hacc, show (acc * 0x80 + low) / 0x80 - 1 = acc - 1 by omega]

theorem varIntBytes_length (more : Bool) (n : Nat) :
    (varIntBytes more n).length = getSizeOfVarInt n := by
  induction n using Nat.strong_induction_on generalizing more with
  | _ n ih =>
    rw [varIntBytes, getSizeOfVarInt]
    by_cases hlast : n ≤ 0x7F
    · rw [if_pos hlast, if_pos hlast]
      rfl
    · rw [if_neg hlast, if_neg hlast, List.length_append, ih _ (by omega)]
      rfl

/-- The buffer of `WriteVarInt` has room for every value of its type. -/
theorem writeVarIntFrom_eq {room n : Nat} (hpos : 0 < room) (hroom : n < 0x80 ^ room)
    (more : Bool) : writeVarIntFrom room more n = varIntBytes more n := by
  induction room generalizing n more with
  | zero => exact absurd hpos (Nat.lt_irrefl 0)
  | succ room ih =>
    have hcast : ((n : Int) % 0x80).toNat = n % 0x80 := by omega
    rw [writeVarIntFrom, varIntBytes, hcast]
    by_cases hlast : n ≤ 0x7F
    · rw [if_pos (by omega), if_pos hlast]
      rfl
    · have hrest : (n : Int) / 0x80 - 1 = ((n / 0x80 - 1 : Nat) : Int) := by omega
      have hlt : n / 0x80 - 1 < 0x80 ^ room := by
        omega
      have hmore : 0 < room := by
        rcases Nat.eq_zero_or_pos room with rfl | h
        · omega
        · exact h
      rw [if_neg (by omega), if_neg hlast, hrest, ih hmore hlt]

theorem writeVarInt_eq {size n : Nat} (hsize : 0 < size) (hn : n < 2 ^ (8 * size)) :
    writeVarInt size n = varIntBytes false n := by
  refine writeVarIntFrom_eq (by omega) (hn.trans_le ?_) false
  rw [show (0x80 : Nat) = 2 ^ 7 from rfl, ← pow_mul]
  exact Nat.pow_le_pow_right (by decide) (by omega)

/-! ## One encoding -/

/-- A byte is its seven low bits and its top bit. -/
theorem varInt_byte_eq (a : UInt8) :
    (a &&& 0x7F).toNat < 0x80 ∧
      a = UInt8.ofNat (a &&& 0x7F).toNat ||| if (a &&& 0x80 != 0) then 0x80 else 0x00 := by
  have hall : ∀ n : Fin 256, (UInt8.ofNat n &&& 0x7F).toNat < 0x80 ∧ UInt8.ofNat n =
      UInt8.ofNat (UInt8.ofNat n &&& 0x7F).toNat |||
        if (UInt8.ofNat n &&& 0x80 != 0) then 0x80 else 0x00 := by
    decide +kernel
  simpa using hall ⟨a.toNat, a.toNat_lt⟩

/-- `ReadVarInt` finds the encoded number, less what its type cannot hold. -/
theorem readVarIntFrom_eq (bits acc : Nat) (input : List UInt8) :
    readVarIntFrom bits (acc % 2 ^ bits) input =
      match encodedFrom acc input with
      | none => .error "CDataStream::read(): end of data"
      | some (n, rest) => .ok (n % 2 ^ bits, rest) := by
  induction input generalizing acc with
  | nil => rfl
  | cons a input ih =>
    have hjoin : (acc % 2 ^ bits * 0x80 + (a &&& 0x7F).toNat) % 2 ^ bits =
        (acc * 0x80 + (a &&& 0x7F).toNat) % 2 ^ bits := by
      rw [Nat.add_mod, Nat.mod_mul_mod, ← Nat.add_mod]
    rw [readVarIntFrom, encodedFrom, hjoin]
    split
    · rw [Nat.mod_add_mod]
      exact ih _
    · rfl

theorem readVarInt_eq (bits : Nat) (input : List UInt8) :
    readVarInt bits input = match encodedNumber input with
      | none => .error "CDataStream::read(): end of data"
      | some (n, rest) => .ok (n % 2 ^ bits, rest) := by
  have h := readVarIntFrom_eq bits 0 input
  rwa [Nat.zero_mod] at h

/-- The bytes of a number encode it. Where more bytes follow, they go on with
one more than the number. -/
theorem encodedFrom_varIntBytes (more : Bool) (n : Nat) (input : List UInt8) :
    encodedFrom 0 (varIntBytes more n ++ input) =
      if more then encodedFrom (n + 1) input else some (n, input) := by
  induction n using Nat.strong_induction_on generalizing more input with
  | _ n ih =>
    obtain ⟨hlow, htop⟩ := varInt_byte n more
    rw [varIntBytes]
    by_cases hlast : n ≤ 0x7F
    · rw [if_pos hlast, List.nil_append, List.singleton_append, encodedFrom, hlow, htop,
        Nat.mod_eq_of_lt (by omega), Nat.zero_mul, Nat.zero_add]
    · have hjoin : (n / 0x80 - 1 + 1) * 0x80 + n % 0x80 = n := by omega
      rw [if_neg hlast, List.append_assoc, List.singleton_append, ih _ (by omega), if_pos rfl,
        encodedFrom, hlow, htop, hjoin]

/-- Bytes that encode a number are the bytes of that number. -/
theorem of_encodedFrom {acc n : Nat} {input rest : List UInt8}
    (h : encodedFrom acc input = some (n, rest)) :
    varIntDone acc ++ input = varIntBytes false n ++ rest := by
  induction input generalizing acc with
  | nil => cases h
  | cons a input ih =>
    obtain ⟨hlow, hbyte⟩ := varInt_byte_eq a
    rw [encodedFrom] at h
    have hdone : varIntDone acc ++ [a] =
        varIntBytes (a &&& 0x80 != 0) (acc * 0x80 + (a &&& 0x7F).toNat) := by
      rw [varIntBytes_digit _ _ hlow, ← hbyte]
    rw [← List.singleton_append, ← List.append_assoc, hdone]
    split at h
    · rename_i htop
      rw [htop]
      exact ih h
    · rename_i htop
      rw [Bool.not_eq_true] at htop
      rw [htop]
      cases h
      rfl

/-- `WriteVarInt`, `ReadVarInt` and `GetSizeOfVarInt` agree on every value of a
type, and an input is read as the encoding of the value returned exactly when
the number it encodes is one of that type. -/
theorem varInt_bijection_iff (size : Nat) (hsize : 0 < size) (input : List UInt8) :
    ((∀ n : Nat, n < 2 ^ (8 * size) → (writeVarInt size n).length = getSizeOfVarInt n ∧
        ∀ rest, readVarInt (8 * size) (writeVarInt size n ++ rest) = .ok (n, rest)) ∧
      ∀ (n : Nat) rest, readVarInt (8 * size) input = .ok (n, rest) →
        input = writeVarInt size n ++ rest) ↔
      ∀ n rest, encodedNumber input = some (n, rest) → n < 2 ^ (8 * size) := by
  have hpos : 0 < 2 ^ (8 * size) := Nat.two_pow_pos _
  constructor
  · rintro ⟨-, hone⟩ n rest hn
    have hread := readVarInt_eq (8 * size) input
    rw [hn] at hread
    have hmod : n % 2 ^ (8 * size) < 2 ^ (8 * size) := Nat.mod_lt _ hpos
    have hinput := hone _ _ hread
    rw [writeVarInt_eq hsize hmod] at hinput
    rw [hinput, encodedNumber, encodedFrom_varIntBytes, if_neg (by simp),
      Option.some.injEq, Prod.mk.injEq] at hn
    exact hn.1 ▸ hmod
  · intro hfits
    refine ⟨fun n hn => ?_, fun n rest hread => ?_⟩
    · rw [writeVarInt_eq hsize hn]
      refine ⟨varIntBytes_length false n, fun rest => ?_⟩
      rw [readVarInt_eq, encodedNumber, encodedFrom_varIntBytes, if_neg (by simp)]
      simp only [Nat.mod_eq_of_lt hn]
    · rw [readVarInt_eq] at hread
      cases henc : encodedNumber input with
      | none => rw [henc] at hread; cases hread
      | some r =>
        obtain ⟨m, rest'⟩ := r
        have hm := hfits m rest' henc
        rw [henc] at hread
        simp only [Nat.mod_eq_of_lt hm] at hread
        cases hread
        rw [writeVarInt_eq hsize hm]
        exact of_encodedFrom henc

/-- The input of two bytes encodes 256, which fits in four bytes. -/
theorem varInt_bijection_iff_two_bytes : 0 < 4 ∧ ([0x81, 0x00] : List UInt8) =
    writeVarInt 4 (256 : Nat) ++ [] := by
  refine ⟨by decide, ((varInt_bijection_iff 4 (by decide) [0x81, 0x00]).mpr ?_).2 256 [] rfl⟩
  intro n rest h
  have hnumber : encodedNumber [0x81, 0x00] = some (256, []) := by decide
  cases hnumber.symm.trans h
  decide

/-- The encoding of 2^32, which the comment gives, is read as the `uint32_t` 0. -/
theorem readVarInt_wraps :
    readVarInt 32 [0x8E, 0xFE, 0xFE, 0xFF, 0x00] = .ok (0, []) ∧
      ([0x8E, 0xFE, 0xFE, 0xFF, 0x00] : List UInt8) ≠ writeVarInt 4 (0 : Nat) ++ [] := by
  decide

end junkcoin
