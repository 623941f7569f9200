-- The compact form of outputs on disk (`compressor.h`, `compressor.cpp`, and
-- `VARINT` of `serialize.h`): amounts without their trailing zeros, and six
-- shapes of scripts by their payload alone.
import Junkcoin.Codec

namespace junkcoin

open Reader

/-! ## Variable-length integers -/

/-- The loop of `WriteVarInt`, which fills `tmp` from the last byte. `room` is
what is left of it. -/
def writeVarIntFrom : (room : Nat) → (more : Bool) → (n : Int) → List UInt8
  | 0, _, _ => []
  | room + 1, more, n =>
    let tmp := UInt8.ofNat (n % 0x80).toNat ||| if more then 0x80 else 0x00
    if n ≤ 0x7F then [tmp] else writeVarIntFrom room true (n / 0x80 - 1) ++ [tmp]

/-- `WriteVarInt` of a type of `size` bytes. -/
def writeVarInt (size : Nat) (n : Int) : List UInt8 := writeVarIntFrom ((size * 8 + 6) / 7) false n

/-- The loop of `ReadVarInt`, in `bits` bits. -/
def readVarIntFrom (bits : Nat) : (n : Nat) → List UInt8 → Except String (Nat × List UInt8)
  | _, [] => .error "CDataStream::read(): end of data"
  | n, chData :: input =>
    let n := (n * 0x80 + (chData &&& 0x7F).toNat) % 2 ^ bits
    if chData &&& 0x80 != 0 then readVarIntFrom bits ((n + 1) % 2 ^ bits) input
    else .ok (n, input)

def readVarInt (bits : Nat) : Reader String Nat := readVarIntFrom bits 0

/-- The seven low bits and the top bit of a written byte. -/
theorem varInt_byte (n : Nat) (more : Bool) :
    ((UInt8.ofNat (n % 0x80) ||| if more then 0x80 else 0x00) &&& 0x7F).toNat = n % 0x80 ∧
      ((UInt8.ofNat (n % 0x80) ||| if more then 0x80 else 0x00) &&& 0x80 != 0) = more := by
  have hall : ∀ d : Fin 128, ∀ more : Bool,
      ((UInt8.ofNat d ||| if more then 0x80 else 0x00) &&& 0x7F).toNat = d ∧
        ((UInt8.ofNat d ||| if more then 0x80 else 0x00) &&& 0x80 != 0) = more := by
    decide +kernel
  exact hall ⟨n % 0x80, Nat.mod_lt _ (by decide)⟩ more

/-- What the reader makes of one written byte. -/
theorem readVarIntFrom_byte (bits acc n : Nat) (more : Bool) (input : List UInt8) :
    readVarIntFrom bits acc
        ((UInt8.ofNat ((n : Int) % 0x80).toNat ||| if more then 0x80 else 0x00) :: input) =
      if more then readVarIntFrom bits (((acc * 0x80 + n % 0x80) % 2 ^ bits + 1) % 2 ^ bits) input
      else .ok ((acc * 0x80 + n % 0x80) % 2 ^ bits, input) := by
  have hcast : ((n : Int) % 0x80).toNat = n % 0x80 := by omega
  obtain ⟨hlow, htop⟩ := varInt_byte n more
  rw [hcast, readVarIntFrom, hlow, htop]

/-- The reader over the bytes of a number. Where more bytes follow, it goes on
with one more than the number. -/
theorem readVarIntFrom_write {bits room n : Nat} (hpos : 0 < room) (hroom : n < 0x80 ^ room)
    (more : Bool) (input : List UInt8) :
    readVarIntFrom bits 0 (writeVarIntFrom room more n ++ input) =
      if more then readVarIntFrom bits ((n % 2 ^ bits + 1) % 2 ^ bits) input
      else .ok (n % 2 ^ bits, input) := by
  induction room generalizing n more input with
  | zero => exact absurd hpos (Nat.lt_irrefl 0)
  | succ room ih =>
    rw [writeVarIntFrom]
    by_cases hlast : (n : Int) ≤ 0x7F
    · have hsmall : n % 0x80 = n := Nat.mod_eq_of_lt (by omega)
      rw [if_pos hlast, List.singleton_append, readVarIntFrom_byte, hsmall, Nat.zero_mul,
        Nat.zero_add]
    · have hrest : (n : Int) / 0x80 - 1 = ((n / 0x80 - 1 : Nat) : Int) := by omega
      have hlt : n / 0x80 - 1 < 0x80 ^ room := by
        omega
      have hmore : 0 < room := by
        rcases Nat.eq_zero_or_pos room with rfl | h
        · omega
        · exact h
      have hacc : ((n / 0x80 - 1) % 2 ^ bits + 1) % 2 ^ bits = n / 0x80 % 2 ^ bits := by
        rw [Nat.mod_add_mod]
        congr 1
        omega
      have hjoin : (n / 0x80 % 2 ^ bits * 0x80 + n % 0x80) % 2 ^ bits = n % 2 ^ bits := by
        rw [Nat.add_mod, Nat.mod_mul_mod, ← Nat.add_mod, Nat.mul_comm, Nat.div_add_mod]
      rw [if_neg hlast, List.append_assoc, List.singleton_append, hrest, ih hmore hlt true,
        if_pos rfl, hacc, readVarIntFrom_byte, hjoin]

theorem reads_varInt {bits size n : Nat} (hsize : 0 < (size * 8 + 6) / 7)
    (hroom : n < 0x80 ^ ((size * 8 + 6) / 7)) (hn : n < 2 ^ bits) :
    Reads (readVarInt bits) (writeVarInt size n) n := by
  intro rest
  refine (readVarIntFrom_write hsize hroom false rest).trans ?_
  rw [if_neg (by simp), Nat.mod_eq_of_lt hn]

theorem reads_varInt32 {n : Nat} (h : n < 2 ^ 32) : Reads (readVarInt 32) (writeVarInt 4 n) n :=
  reads_varInt (by decide) (by omega) h

theorem reads_varInt64 {n : Nat} (h : n < 2 ^ 64) : Reads (readVarInt 64) (writeVarInt 8 n) n :=
  reads_varInt (by decide) (by omega) h

/-! ## Amounts -/

/-- The loop of `CompressAmount`; `left` is `9 - e`. -/
def dropZeros : (left n e : Nat) → Nat × Nat
  | 0, n, e => (n, e)
  | left + 1, n, e => if n % 10 = 0 then dropZeros left (n / 10) (e + 1) else (n, e)

/-- `CompressAmount`, on `uint64_t`. -/
def compressAmount (n : Nat) : Nat :=
  if n = 0 then 0
  else
    let (n, e) := dropZeros 9 n 0
    if e < 9 then (1 + (n / 10 * 9 + n % 10 - 1) * 10 + e) % 2 ^ 64
    else (1 + (n - 1) * 10 + 9) % 2 ^ 64

/-- The last loop of `DecompressAmount`. -/
def timesTen : (e n : Nat) → Nat
  | 0, n => n
  | e + 1, n => timesTen e (n * 10 % 2 ^ 64)

def decompressAmount (x : Nat) : Nat :=
  if x = 0 then 0
  else
    let e := (x - 1) % 10
    let x := (x - 1) / 10
    timesTen e (if e < 9 then x / 9 * 10 + (x % 9 + 1) else x + 1)

theorem timesTen_eq {e n : Nat} (h : n * 10 ^ e < 2 ^ 64) : timesTen e n = n * 10 ^ e := by
  induction e generalizing n with
  | zero => simp [timesTen]
  | succ e ih =>
    have hstep : n * 10 * 10 ^ e = n * 10 ^ (e + 1) := by ring
    have hle : n * 10 ≤ n * 10 * 10 ^ e := Nat.le_mul_of_pos_right _ (Nat.pow_pos (by decide))
    have hsmall : n * 10 % 2 ^ 64 = n * 10 := Nat.mod_eq_of_lt (by omega)
    rw [timesTen, hsmall, ih (by omega), hstep]

/-- The zeros that the loop dropped, and what it stopped at. -/
theorem dropZeros_spec {left n e m e' : Nat} (h : dropZeros left n e = (m, e')) :
    ∃ k, e' = e + k ∧ k ≤ left ∧ n = m * 10 ^ k ∧ (k < left → m % 10 ≠ 0) := by
  induction left generalizing n e with
  | zero =>
    rw [dropZeros, Prod.mk.injEq] at h
    exact ⟨0, by omega, Nat.le_refl 0, by omega, fun hlt => absurd hlt (Nat.lt_irrefl 0)⟩
  | succ left ih =>
    rw [dropZeros] at h
    split at h
    · rename_i hzero
      obtain ⟨k, he, hk, hn, hstop⟩ := ih h
      refine ⟨k + 1, by omega, by omega, ?_, fun hlt => hstop (by omega)⟩
      rw [pow_succ, ← Nat.mul_assoc, ← hn]
      omega
    · rename_i hdigit
      rw [Prod.mk.injEq] at h
      exact ⟨0, by omega, Nat.zero_le _, by omega, fun _ => h.1 ▸ hdigit⟩

/-- Decompression undoes compression, as long as nothing overflows. -/
theorem decompressAmount_compressAmount {n : Nat} (hn : 9 * n + 10 < 2 ^ 64) :
    compressAmount n < 2 ^ 64 ∧ decompressAmount (compressAmount n) = n := by
  by_cases hzero : n = 0
  · rw [hzero]
    decide
  obtain ⟨m, e, hdrop⟩ : ∃ m e, dropZeros 9 n 0 = (m, e) := ⟨_, _, rfl⟩
  obtain ⟨k, he, hk, hnm, hstop⟩ := dropZeros_spec hdrop
  rw [Nat.zero_add] at he
  subst he
  have hmn : m ≤ n := hnm ▸ Nat.le_mul_of_pos_right _ (Nat.pow_pos (by decide))
  have hscale : m * 10 ^ e < 2 ^ 64 := by omega
  rw [compressAmount, if_neg hzero, hdrop]
  dsimp only
  by_cases hlt : e < 9
  · rw [if_pos hlt, Nat.mod_eq_of_lt (by omega)]
    refine ⟨by omega, ?_⟩
    have hexp : (1 + (m / 10 * 9 + m % 10 - 1) * 10 + e - 1) % 10 = e := by omega
    have hquot : (1 + (m / 10 * 9 + m % 10 - 1) * 10 + e - 1) / 10 = m / 10 * 9 + m % 10 - 1 := by
      omega
    rw [decompressAmount, if_neg (by omega)]
    dsimp only
    have hback : (m / 10 * 9 + m % 10 - 1) / 9 * 10 + ((m / 10 * 9 + m % 10 - 1) % 9 + 1) = m := by
      omega
    rw [hexp, hquot, if_pos hlt, hback, timesTen_eq hscale, hnm]
  · have h9 : e = 9 := by omega
    subst h9
    rw [if_neg hlt, Nat.mod_eq_of_lt (by omega)]
    refine ⟨by omega, ?_⟩
    have hexp : (1 + (m - 1) * 10 + 9 - 1) % 10 = 9 := by omega
    have hquot : (1 + (m - 1) * 10 + 9 - 1) / 10 + 1 = m := by omega
    rw [decompressAmount, if_neg (by omega)]
    dsimp only
    rw [hexp, if_neg hlt, hquot, timesTen_eq hscale, hnm]

theorem compressAmount_inj {m n : Nat} (hm : 9 * m + 10 < 2 ^ 64) (hn : 9 * n + 10 < 2 ^ 64)
    (h : compressAmount m = compressAmount n) : m = n := by
  rw [← (decompressAmount_compressAmount hm).2, h, (decompressAmount_compressAmount hn).2]

/-! ## Scripts -/

/-- What the node uses of secp256k1: whether the bytes of a public key are a
point, and the 65 bytes of a key given by 33. -/
structure PubKeys where
  isFullyValid : List UInt8 → Bool
  decompress : List UInt8 → Option (List UInt8)

/-- The 33 bytes of a key of 65. -/
def compressedKey (key : List UInt8) : List UInt8 :=
  (0x02 ||| (key.getD 64 0 &&& 0x01)) :: (key.drop 1).take 32

/-- Decompression gives back every valid key. -/
def PubKeys.Inverts (K : PubKeys) : Prop :=
  ∀ key, key.length = 65 → key.head? = some 0x04 → K.isFullyValid key = true →
    K.decompress (compressedKey key) = some key

namespace CScriptCompressor

def OP_DUP : UInt8 := 0x76

def OP_EQUALVERIFY : UInt8 := 0x88

def OP_CHECKSIG : UInt8 := 0xac

def nSpecialScripts : Nat := 6

/-- The `len` bytes between a fixed head and a fixed tail. -/
def payload (head tail : List UInt8) (len : Nat) (script : CScript) : Option (List UInt8) :=
  if script.length = head.length + len + tail.length && script.take head.length == head &&
      script.drop (head.length + len) == tail
  then some ((script.drop head.length).take len) else none

variable (K : PubKeys)

def isToKeyID : CScript → Option (List UInt8) :=
  payload [OP_DUP, OP_HASH160, 20] [OP_EQUALVERIFY, OP_CHECKSIG] 20

def isToScriptID : CScript → Option (List UInt8) := payload [OP_HASH160, 20] [OP_EQUAL] 20

/-- A key of 65 bytes that is not fully valid is not compressible. -/
def isToPubKey (script : CScript) : Option (List UInt8) :=
  ((payload [33] [OP_CHECKSIG] 33 script).filter fun key =>
      key.head? == some 0x02 || key.head? == some 0x03) <|>
    (payload [65] [OP_CHECKSIG] 65 script).filter fun key =>
      key.head? == some 0x04 && K.isFullyValid key

def compress (script : CScript) : Option (List UInt8) :=
  match isToKeyID script with
  | some keyID => some (0x00 :: keyID)
  | none =>
    match isToScriptID script with
    | some scriptID => some (0x01 :: scriptID)
    | none =>
      match isToPubKey K script with
      | none => none
      | some pubkey =>
        if pubkey.head? == some 0x02 || pubkey.head? == some 0x03 then
          some (pubkey.getD 0 0 :: (pubkey.drop 1).take 32)
        else if pubkey.head? == some 0x04 then
          some ((0x04 ||| (pubkey.getD 64 0 &&& 0x01)) :: (pubkey.drop 1).take 32)
        else none

def getSpecialSize (nSize : Nat) : Nat :=
  if nSize = 0 ∨ nSize = 1 then 20
  else if nSize = 2 ∨ nSize = 3 ∨ nSize = 4 ∨ nSize = 5 then 32
  else 0

def decompress (nSize : Nat) (vch : List UInt8) : Option CScript :=
  match nSize with
  | 0x00 => some ([OP_DUP, OP_HASH160, 20] ++ vch ++ [OP_EQUALVERIFY, OP_CHECKSIG])
  | 0x01 => some ([OP_HASH160, 20] ++ vch ++ [OP_EQUAL])
  | 0x02 | 0x03 => some ([33] ++ (UInt8.ofNat nSize :: vch) ++ [OP_CHECKSIG])
  | 0x04 | 0x05 =>
    (K.decompress (UInt8.ofNat (nSize - 2) :: vch)).map fun pubkey =>
      [65] ++ pubkey ++ [OP_CHECKSIG]
  | _ => none

def serialize (script : CScript) : List UInt8 :=
  match compress K script with
  | some compr => compr
  | none => writeVarInt 4 ((script.length + nSpecialScripts) % 2 ^ 32 : Nat) ++ script

/-- `CDataStream::ignore`, whose argument is an `int`. -/
def ignoreBytes (nSize : Nat) : Reader String Unit := do
  failIf (nSize ≥ 2 ^ 31) "CDataStream::ignore(): nSize negative"
  let _ ← take "CDataStream::ignore(): end of data" nSize
  pure ()

/-- An overly long script is replaced by a short invalid one. The result of
`Decompress` is not looked at. -/
def unserialize : Reader String CScript := do
  let nSize ← readVarInt 32
  if nSize < nSpecialScripts then do
    let vch ← readBytes (getSpecialSize nSize)
    pure ((decompress K nSize vch).getD [])
  else if nSize - nSpecialScripts > MAX_SCRIPT_SIZE then do
    ignoreBytes (nSize - nSpecialScripts)
    pure [OP_RETURN]
  else readBytes (nSize - nSpecialScripts)

/-! ### Reading a script back -/

theorem payload_spec {head tail : List UInt8} {len : Nat} {script : CScript} {p : List UInt8}
    (h : payload head tail len script = some p) :
    script = head ++ p ++ tail ∧ p.length = len := by
  unfold payload at h
  split at h
  · rename_i hshape
    simp only [Bool.and_eq_true, decide_eq_true_eq, beq_iff_eq] at hshape
    obtain ⟨⟨hlen, hhead⟩, htail⟩ := hshape
    rw [Option.some.injEq] at h
    subst h
    refine ⟨?_, by rw [List.length_take, List.length_drop]; omega⟩
    have hdrop : script.drop (head.length + len) = (script.drop head.length).drop len := by
      rw [List.drop_drop]
    rw [← htail, hdrop, List.append_assoc, List.take_append_drop]
    conv_lhs => rw [← List.take_append_drop head.length script, hhead]
  · cases h

/-- A key is its first byte and the 32 or 64 that follow. -/
theorem head_cons_drop {key : List UInt8} {ch : UInt8} (h : key.head? = some ch) :
    key = ch :: key.drop 1 := by
  cases key with
  | nil => cases h
  | cons x key =>
    rw [List.head?_cons, Option.some.injEq] at h
    rw [h]
    rfl

/-- The parity bit picks one of the two last cases of `Decompress`. -/
theorem parity_cases (ch : UInt8) :
    ∃ nSize : Nat, (nSize = 4 ∨ nSize = 5) ∧ (0x04 ||| (ch &&& 0x01)) = UInt8.ofNat nSize ∧
      (0x02 ||| (ch &&& 0x01)) = UInt8.ofNat (nSize - 2) := by
  have hbit : ch &&& 0x01 = 0 ∨ ch &&& 0x01 = 1 := by
    have hall : ∀ n : Fin 256, UInt8.ofNat n &&& 0x01 = 0 ∨ UInt8.ofNat n &&& 0x01 = 1 := by
      decide +kernel
    have := hall ⟨ch.toNat, ch.toNat_lt⟩
    simpa using this
  rcases hbit with h | h
  · exact ⟨4, Or.inl rfl, by rw [h]; rfl, by rw [h]; rfl⟩
  · exact ⟨5, Or.inr rfl, by rw [h]; rfl, by rw [h]; rfl⟩

variable {K}

theorem isToPubKey_cases {script : CScript} {key : List UInt8}
    (h : isToPubKey K script = some key) :
    (script = [33] ++ key ++ [OP_CHECKSIG] ∧ key.length = 33 ∧
      (key.head? = some 0x02 ∨ key.head? = some 0x03)) ∨
    (script = [65] ++ key ++ [OP_CHECKSIG] ∧ key.length = 65 ∧ key.head? = some 0x04 ∧
      K.isFullyValid key = true) := by
  unfold isToPubKey at h
  rw [Option.orElse_eq_some] at h
  rcases h with h | ⟨-, h⟩
  · obtain ⟨hpay, hhead⟩ := Option.filter_eq_some_iff.mp h
    obtain ⟨hscript, hlen⟩ := payload_spec hpay
    exact Or.inl ⟨hscript, hlen, by simpa using hhead⟩
  · obtain ⟨hpay, hhead⟩ := Option.filter_eq_some_iff.mp h
    obtain ⟨hscript, hlen⟩ := payload_spec hpay
    exact Or.inr ⟨hscript, hlen, by simpa using hhead⟩

/-- The compressed form of a script is a number below six, which says how long
the rest is, and the rest, from which the script is restored. -/
theorem decompress_compress (hK : K.Inverts) {script : CScript} {out : List UInt8}
    (h : compress K script = some out) :
    ∃ nSize vch, nSize < nSpecialScripts ∧ out = UInt8.ofNat nSize :: vch ∧
      vch.length = getSpecialSize nSize ∧ decompress K nSize vch = some script := by
  unfold compress at h
  split at h
  · rename_i keyID hkey
    obtain ⟨hscript, hlen⟩ := payload_spec hkey
    exact ⟨0, keyID, by decide, (Option.some.inj h).symm, hlen, by rw [hscript]; rfl⟩
  split at h
  · rename_i scriptID hid
    obtain ⟨hscript, hlen⟩ := payload_spec hid
    exact ⟨1, scriptID, by decide, (Option.some.inj h).symm, hlen, by rw [hscript]; rfl⟩
  split at h
  · cases h
  rename_i pubkey hpub
  rcases isToPubKey_cases hpub with ⟨hscript, hlen, hhead⟩ | ⟨hscript, hlen, hhead, hvalid⟩
  · -- The first byte of a short key is the number itself.
    rw [if_pos (by simpa using hhead), Option.some.injEq] at h
    have hrest : (pubkey.drop 1).length = 32 := by rw [List.length_drop, hlen]
    rw [List.take_of_length_le (Nat.le_of_eq hrest)] at h
    rcases hhead with hhead | hhead
    · rw [head_cons_drop hhead] at hscript h
      exact ⟨2, _, by decide, h.symm, hrest, by rw [hscript]; rfl⟩
    · rw [head_cons_drop hhead] at hscript h
      exact ⟨3, _, by decide, h.symm, hrest, by rw [hscript]; rfl⟩
  · rw [if_neg (by simp [hhead]), if_pos (by simp [hhead]), Option.some.injEq] at h
    obtain ⟨nSize, hcase, hcode, hback⟩ := parity_cases (pubkey.getD 64 0)
    have hrest : ((pubkey.drop 1).take 32).length = 32 := by
      rw [List.length_take, List.length_drop, hlen]
      rfl
    have hdec := hK pubkey hlen hhead hvalid
    rw [compressedKey, hback] at hdec
    rw [hcode] at h
    refine ⟨nSize, _, ?_, h.symm, ?_, ?_⟩
    · rcases hcase with rfl | rfl <;> decide
    · rcases hcase with rfl | rfl <;> exact hrest
    · have hbranch : decompress K nSize ((pubkey.drop 1).take 32) =
          (K.decompress (UInt8.ofNat (nSize - 2) :: (pubkey.drop 1).take 32)).map fun pubkey =>
            [65] ++ pubkey ++ [OP_CHECKSIG] := by
        rcases hcase with rfl | rfl <;> rfl
      rw [hbranch, hdec, hscript]
      rfl

/-- A script in compressed form. -/
theorem reads_compressed (hK : K.Inverts) {script : CScript} {out : List UInt8}
    (h : compress K script = some out) : Reads (unserialize K) out script := by
  obtain ⟨nSize, vch, hsize, hout, hlen, hdec⟩ := decompress_compress hK h
  have hcode : writeVarInt 4 nSize = [UInt8.ofNat nSize] := by
    have hall : ∀ n : Fin 6, writeVarInt 4 (n.val : Nat) = [UInt8.ofNat n.val] := by decide
    exact hall ⟨nSize, hsize⟩
  have hnum := reads_varInt32 (n := nSize) (by simp only [nSpecialScripts] at hsize; omega)
  rw [hcode] at hnum
  have hvch : Reads (readBytes (getSpecialSize nSize)) vch vch := hlen ▸ reads_readBytes vch
  rw [hout, ← List.singleton_append]
  refine hnum.bind ?_
  rw [if_pos hsize]
  refine hvch.map.of_eq rfl ?_
  rw [hdec]
  rfl

theorem reads_ignoreBytes {b : List UInt8} (h : b.length < 2 ^ 31) :
    Reads (ignoreBytes b.length) b () := by
  have htake := reads_take "CDataStream::ignore(): end of data" b
  exact ((reads_failIf (by simpa using h)).bind htake.map).of_eq (List.nil_append b) rfl

/-- A script in its plain form: it comes back if it is not overly long. -/
theorem reads_plain {script : CScript} (h : compress K script = none)
    (hlen : script.length < 2 ^ 31) :
    Reads (unserialize K) (serialize K script)
      (if script.length ≤ MAX_SCRIPT_SIZE then script else [OP_RETURN]) := by
  have hsize : (script.length + nSpecialScripts) % 2 ^ 32 = script.length + nSpecialScripts :=
    Nat.mod_eq_of_lt (by simp only [nSpecialScripts]; omega)
  have hserialize : serialize K script =
      writeVarInt 4 (script.length + nSpecialScripts : Nat) ++ script := by
    rw [serialize, h]
    rw [hsize]
  rw [hserialize]
  refine (reads_varInt32 (by simp only [nSpecialScripts]; omega)).bind ?_
  rw [if_neg (by omega), Nat.add_sub_cancel]
  by_cases hlong : script.length > MAX_SCRIPT_SIZE
  · rw [if_pos hlong, if_neg (by omega)]
    exact (reads_ignoreBytes hlen).map
  · rw [if_neg hlong, if_pos (by omega)]
    exact reads_readBytes script

theorem reads_script (hK : K.Inverts) {script : CScript} (hlen : script.length ≤ MAX_SCRIPT_SIZE) :
    Reads (unserialize K) (serialize K script) script := by
  cases h : compress K script with
  | some out =>
    rw [serialize, h]
    exact reads_compressed hK h
  | none =>
    have hread := reads_plain h (by simp only [MAX_SCRIPT_SIZE] at hlen; omega)
    rwa [if_pos hlen] at hread

end CScriptCompressor

/-! ## Outputs -/

namespace CTxOutCompressor

variable (K : PubKeys)

def serialize (txout : CTxOut) : List UInt8 :=
  writeVarInt 8 (compressAmount (txout.nValue % 2 ^ 64).toNat : Nat) ++
    CScriptCompressor.serialize K txout.scriptPubKey

def unserialize : Reader String CTxOut := do
  let nVal ← readVarInt 64
  let scriptPubKey ← CScriptCompressor.unserialize K
  pure ⟨int64 (decompressAmount nVal), scriptPubKey⟩

variable {K}

/-- An output comes back as long as its script does. -/
theorem reads_txOut {txout : CTxOut} {script : CScript} (hvalue : moneyRange txout.nValue = true)
    (hscript : Reads (CScriptCompressor.unserialize K)
      (CScriptCompressor.serialize K txout.scriptPubKey) script) :
    Reads (unserialize K) (serialize K txout) { txout with scriptPubKey := script } := by
  have hrange : 0 ≤ txout.nValue ∧ txout.nValue ≤ MAX_MONEY := by
    simpa [moneyRange] using hvalue
  simp only [MAX_MONEY, COIN] at hrange
  obtain ⟨hlt, hback⟩ := decompressAmount_compressAmount (n := (txout.nValue % 2 ^ 64).toNat)
    (by omega)
  have hvalue : int64 (txout.nValue % 2 ^ 64).toNat = txout.nValue := by
    have : (((txout.nValue % 2 ^ 64).toNat : Nat) : Int) = txout.nValue := by omega
    rw [this]
    exact int64_of_fits (by omega) (by omega)
  refine (reads_varInt64 hlt).bind (hscript.map.of_eq rfl ?_)
  rw [hback, hvalue]

end CTxOutCompressor

end junkcoin
