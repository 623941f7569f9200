-- Bits packed eight to a byte, the first in the lowest place.
import Mathlib.Data.List.Basic
import Mathlib.Data.UInt

namespace BitPack

variable (f : Nat → Bool)

def byteOf : UInt8 :=
  (List.range 8).foldl (fun ch i => if f i then ch ||| 1 <<< UInt8.ofNat i else ch) 0

def bitAt (ch : UInt8) (p : Nat) : Bool := ch &&& 1 <<< UInt8.ofNat p != 0

/-- The bits of `f` in `n` bytes. -/
def pack (n : Nat) (f : Nat → Bool) : List UInt8 :=
  (List.range n).map fun b => byteOf fun i => f (8 * b + i)

def unpack (bytes : List UInt8) : List Bool := bytes.flatMap fun ch => (List.range 8).map (bitAt ch)

@[simp] theorem length_pack (n : Nat) (f : Nat → Bool) : (pack n f).length = n := by simp [pack]

theorem pack_succ (n : Nat) (f : Nat → Bool) :
    pack (n + 1) f = pack n f ++ [byteOf fun i => f (8 * n + i)] := by
  simp [pack, List.range_succ]

/-- A byte holds the eight bits that it was made of. -/
theorem bits_byteOf : (List.range 8).map (bitAt (byteOf f)) = (List.range 8).map f := by
  have hall : ∀ a b c d e g h i : Bool,
      (List.range 8).map (bitAt (byteOf fun n => [a, b, c, d, e, g, h, i].getD n false)) =
        [a, b, c, d, e, g, h, i] := by
    decide +kernel
  exact hall (f 0) (f 1) (f 2) (f 3) (f 4) (f 5) (f 6) (f 7)

theorem bitAt_byteOf {p : Nat} (h : p < 8) : bitAt (byteOf f) p = f p := by
  have := congrArg (·[p]?) (bits_byteOf f)
  simpa [h] using this

/-- A byte is zero when none of its bits is set. -/
theorem byteOf_eq_zero_iff : byteOf f = 0 ↔ ∀ i, i < 8 → f i = false := by
  constructor
  · intro hzero i hi
    rw [← bitAt_byteOf f hi, hzero]
    simp [bitAt]
  · intro hf
    have hfold : byteOf f = byteOf fun _ => false :=
      List.foldl_ext _ _ _ fun ch i hi => by rw [hf i (List.mem_range.mp hi)]
    rw [hfold]
    rfl

/-- Unpacking gives back the bits, and fills up the last byte. -/
theorem unpack_pack (n : Nat) (f : Nat → Bool) :
    unpack (pack n f) = (List.range (8 * n)).map f := by
  induction n with
  | zero => rfl
  | succ n ih =>
    have hsplit : List.range (8 * (n + 1)) = List.range (8 * n) ++ (List.range 8).map (8 * n + ·) :=
      List.range_add
    have hlast : unpack [byteOf fun i => f (8 * n + i)] =
        (List.range 8).map fun i => f (8 * n + i) := by
      rw [← bits_byteOf fun i => f (8 * n + i)]
      simp [unpack]
    rw [pack_succ, hsplit, List.map_append, ← ih, List.map_map]
    exact (List.flatMap_append ..).trans (congrArg _ hlast)

end BitPack
