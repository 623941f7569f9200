-- The records of the coin database and of the undo files (`coins.h`,
-- `coins.cpp`, `undo.h`). What is written of cleaned-up coins and of undo data
-- is read back, when no script is overly long.
import Junkcoin.Coins
import Junkcoin.Compressor
import Junkcoin.Lib.BitPack

namespace junkcoin

open Reader CScriptCompressor BitPack

variable (K : PubKeys)

/-! ## The records -/

/-- One turn of the loop of `CalcMaskSize`, for the outputs of byte `b`. -/
def CCoins.maskStep (c : CCoins) (mask : Nat × Nat) (b : Nat) : Nat × Nat :=
  let fZero := (List.range 8).all fun i => !c.isAvailable (2 + (8 * b + i))
  if fZero then mask else (b + 1, mask.2 + 1)

/-- The bytes of the bitmask, and how many of them are not zero. The first two
outputs are not in it. -/
def CCoins.calcMaskSize (c : CCoins) : Nat × Nat :=
  (List.range ((c.vout.length - 2 + 7) / 8)).foldl c.maskStep (0, 0)

/-- Only coins that are not pruned can be serialised. -/
def CCoins.serialize (c : CCoins) : Option (List UInt8) :=
  let (nMaskSize, nMaskCode) := c.calcMaskSize
  let fFirst := c.isAvailable 0
  let fSecond := c.isAvailable 1
  let nCode := 8 * (nMaskCode - if fFirst || fSecond then 0 else 1) +
    (if c.fCoinBase then 1 else 0) + (if fFirst then 2 else 0) + if fSecond then 4 else 0
  if fFirst || fSecond || nMaskCode != 0 then
    some (writeVarInt 4 c.nVersion.toInt ++ writeVarInt 4 (nCode % 2 ^ 32 : Nat) ++
      pack nMaskSize (fun i => c.isAvailable (2 + i)) ++
      (c.vout.flatMap fun out => if out.isNull then [] else CTxOutCompressor.serialize K out) ++
      writeVarInt 4 c.nHeight)
  else none

/-- The bitmask: it ends with the last byte that is not zero. -/
def readMask : (nMaskCode : Nat) → List UInt8 → Except String (List Bool × List UInt8)
  | 0, input => .ok ([], input)
  | _ + 1, [] => .error "CDataStream::read(): end of data"
  | nMaskCode + 1, chAvail :: input => do
    let (vAvail, input) ← readMask (if chAvail != 0 then nMaskCode else nMaskCode + 1) input
    pure ((List.range 8).map (bitAt chAvail) ++ vAvail, input)

/-- One place of `vout`. -/
def readAvail (fAvail : Bool) : Reader String CTxOut :=
  if fAvail then CTxOutCompressor.unserialize K else pure .null

def CCoins.unserialize : Reader String CCoins := do
  let nVersion ← readVarInt 32
  let nCode ← readVarInt 32
  let vAvail ← (readMask (nCode / 8 + if nCode.testBit 1 || nCode.testBit 2 then 0 else 1) :
    Reader String (List Bool))
  let vout ← each (readAvail K) (nCode.testBit 1 :: nCode.testBit 2 :: vAvail)
  let nHeight ← readVarInt 32
  pure (CCoins.cleanup
    { fCoinBase := nCode.testBit 0, vout, nHeight := (BitVec.ofNat 32 nHeight).toInt
      nVersion := BitVec.ofNat 32 nVersion })

/-- The version is only there when the height is. -/
def CTxInUndo.serialize (undo : CTxInUndo) : List UInt8 :=
  writeVarInt 4 ((undo.nHeight * 2 + if undo.fCoinBase then 1 else 0) % 2 ^ 32) ++
    (if undo.nHeight > 0 then writeVarInt 4 undo.nVersion.toInt else []) ++
    CTxOutCompressor.serialize K undo.txout

def CTxInUndo.unserialize : Reader String CTxInUndo := do
  let nCode ← readVarInt 32
  let nVersion ← (if nCode / 2 > 0 then readVarInt 32 else pure 0 : Reader String Nat)
  let txout ← CTxOutCompressor.unserialize K
  pure { txout, fCoinBase := nCode.testBit 0, nHeight := (nCode / 2 : Nat)
         nVersion := BitVec.ofNat 32 nVersion }

/-! ## What can be stored -/

/-- An output that survives the disk. -/
structure CTxOut.Storable (out : CTxOut) : Prop where
  range : moneyRange out.nValue = true
  script : out.scriptPubKey.length ≤ MAX_SCRIPT_SIZE

/-- Cleaned-up coins within the bounds of the format. -/
structure CCoins.Storable (c : CCoins) : Prop where
  trimmed : Trim.Trimmed CTxOut.isNull c.vout
  canonical : Trim.Canonical CTxOut.isNull .null c.vout
  outs : ∀ out ∈ c.vout, out.isNull = false → out.Storable
  few : c.vout.length + 12 < 2 ^ 32
  height : 0 ≤ c.nHeight ∧ c.nHeight < 2 ^ 30
  version : 0 ≤ c.nVersion.toInt

/-- Undo data with its metadata, or with none. -/
structure CTxInUndo.Storable (undo : CTxInUndo) : Prop where
  out : undo.txout.Storable
  height : 0 ≤ undo.nHeight ∧ undo.nHeight < 2 ^ 30
  version : 0 ≤ undo.nVersion.toInt
  bare : undo.nHeight = 0 → undo.nVersion = 0

/-! ## The bitmask -/

/-- The mask of all outputs after the first two. -/
def CCoins.mask (c : CCoins) : List UInt8 :=
  pack ((c.vout.length - 2 + 7) / 8) fun i => c.isAvailable (2 + i)

/-- The reader stops after a last byte that is not zero. -/
theorem reads_readMask {bytes : List UInt8} (hlast : ∀ h : bytes ≠ [], bytes.getLast h ≠ 0) :
    Reads (readMask (bytes.countP (· != 0)) : Reader String (List Bool)) bytes
      (unpack bytes) := by
  intro rest
  induction bytes with
  | nil =>
    rw [List.countP_nil, readMask]
    rfl
  | cons chAvail bytes ih =>
    have hrest : ∀ h : bytes ≠ [], bytes.getLast h ≠ 0 := by
      intro h
      rw [← List.getLast_cons h (a := chAvail)]
      exact hlast _
    have hcount : ∃ n, (chAvail :: bytes).countP (· != 0) = n + 1 ∧
        (if chAvail != 0 then n else n + 1) = bytes.countP (· != 0) := by
      by_cases hzero : chAvail = 0
      · have hne : bytes ≠ [] := by
          rintro rfl
          exact hlast (by simp) hzero
        have hpos : 0 < bytes.countP (· != 0) :=
          List.countP_pos_iff.mpr ⟨_, List.getLast_mem hne, by simpa using hrest hne⟩
        refine ⟨bytes.countP (· != 0) - 1, ?_, ?_⟩
        · rw [List.countP_cons_of_neg (by simp [hzero])]
          omega
        · rw [if_neg (by simp [hzero])]
          omega
      · exact ⟨bytes.countP (· != 0), List.countP_cons_of_pos (by simpa using hzero),
          if_pos (by simpa using hzero)⟩
    obtain ⟨n, hn, hnext⟩ := hcount
    rw [hn, List.cons_append, readMask, hnext, ih hrest]
    rfl

namespace CCoins

theorem maskStep_eq (c : CCoins) (mask : Nat × Nat) (b : Nat) :
    c.maskStep mask b =
      if byteOf (fun i => c.isAvailable (2 + (8 * b + i))) = 0 then mask
      else (b + 1, mask.2 + 1) := by
  have hzero : ((List.range 8).all fun i => !c.isAvailable (2 + (8 * b + i))) = true ↔
      byteOf (fun i => c.isAvailable (2 + (8 * b + i))) = 0 := by
    rw [byteOf_eq_zero_iff, List.all_eq_true]
    simp only [List.mem_range, Bool.not_eq_true']
  exact if_congr hzero rfl rfl

/-- The loop of `CalcMaskSize` over the first `n` bytes. -/
theorem calcMaskSize_loop (c : CCoins) (n : Nat) :
    let mask := (List.range n).foldl c.maskStep (0, 0)
    let bytes := pack n fun i => c.isAvailable (2 + i)
    mask.2 = bytes.countP (· != 0) ∧ ((∀ h : bytes ≠ [], bytes.getLast h ≠ 0) → mask.1 = n) := by
  induction n with
  | zero => exact ⟨rfl, fun _ => rfl⟩
  | succ n ih =>
    dsimp only at ih ⊢
    rw [List.range_succ, List.foldl_append, pack_succ, List.countP_append,
      List.foldl_cons, List.foldl_nil, maskStep_eq]
    split
    · rename_i hbyte
      refine ⟨?_, fun hlast => absurd hbyte (by simpa using hlast (by simp))⟩
      rw [ih.1, hbyte]
      simp
    · rename_i hbyte
      refine ⟨?_, fun _ => rfl⟩
      rw [ih.1, List.countP_singleton, if_pos (by simpa using hbyte)]

/-- Of cleaned-up coins the last byte of the mask is not zero. -/
theorem mask_last {c : CCoins} (h : Trim.Trimmed CTxOut.isNull c.vout) (hne : c.mask ≠ []) :
    c.mask.getLast hne ≠ 0 := by
  unfold mask at hne ⊢
  obtain ⟨n, hn⟩ : ∃ n, (c.vout.length - 2 + 7) / 8 = n + 1 := by
    refine Nat.exists_eq_succ_of_ne_zero fun hzero => hne ?_
    rw [hzero]
    rfl
  simp only [hn, pack_succ, List.getLast_append_singleton]
  intro hzero
  have hfalse := (byteOf_eq_zero_iff _).mp hzero (c.vout.length - 3 - 8 * n) (by omega)
  have hplace : 2 + (8 * n + (c.vout.length - 3 - 8 * n)) = c.vout.length - 1 := by omega
  have hlast := h.last .null (n := c.vout.length - 1) (by omega)
  rw [hplace, isAvailable_eq, outAt, hlast] at hfalse
  cases hfalse

theorem calcMaskSize_eq {c : CCoins} (h : Trim.Trimmed CTxOut.isNull c.vout) :
    c.calcMaskSize = ((c.vout.length - 2 + 7) / 8, c.mask.countP (· != 0)) := by
  obtain ⟨hcount, hsize⟩ := calcMaskSize_loop c ((c.vout.length - 2 + 7) / 8)
  exact Prod.ext (hsize (mask_last h)) hcount

/-- The bits that are read are the outputs that are there, and then nothing. -/
theorem avail_eq (c : CCoins) :
    c.isAvailable 0 :: c.isAvailable 1 :: unpack c.mask =
      c.vout.map (fun out => !out.isNull) ++
        List.replicate (2 + 8 * ((c.vout.length - 2 + 7) / 8) - c.vout.length) false := by
  have hrange : c.isAvailable 0 :: c.isAvailable 1 :: unpack c.mask =
      (List.range (2 + 8 * ((c.vout.length - 2 + 7) / 8))).map c.isAvailable := by
    rw [mask, unpack_pack, List.range_add, List.map_append, List.map_map]
    rfl
  rw [hrange]
  refine List.ext_getElem (by simp; omega) fun n h1 h2 => ?_
  rw [List.getElem_map, List.getElem_range, isAvailable]
  by_cases hn : n < c.vout.length
  · rw [List.getElem_append_left (by simpa using hn), List.getElem_map, outAt, Trim.get_of_lt _ hn]
    simp [hn]
  · rw [List.getElem_append_right (by simpa using hn), List.getElem_replicate]
    simp [hn]

/-- Coins that are not pruned have an output among the first two, or a mask. -/
theorem serializable {c : CCoins} (h : Trim.Trimmed CTxOut.isNull c.vout)
    (hpruned : c.isPruned = false) :
    (c.isAvailable 0 || c.isAvailable 1 || c.mask.countP (· != 0) != 0) = true := by
  have hne : c.vout ≠ [] := by
    rw [Ne, ← pruned_iff h, hpruned]
    simp
  have hpos := List.length_pos_of_ne_nil hne
  have hlast := h.last .null (n := c.vout.length - 1) (by omega)
  have havail : c.isAvailable (c.vout.length - 1) = true := by
    rw [isAvailable_eq, outAt, hlast]
    rfl
  have hcases : c.vout.length = 1 ∨ c.vout.length = 2 ∨ 2 < c.vout.length := by omega
  rcases hcases with h1 | h2 | hmore
  · rw [h1] at havail
    rw [havail]
    rfl
  · rw [h2] at havail
    rw [havail, Bool.or_true]
    rfl
  · have hmask : c.mask ≠ [] := by
      apply List.ne_nil_of_length_pos
      rw [mask, length_pack]
      omega
    have hcount : 0 < c.mask.countP (· != 0) :=
      List.countP_pos_iff.mpr ⟨_, List.getLast_mem hmask, by simpa using mask_last h hmask⟩
    rw [Bool.or_eq_true]
    exact Or.inr (by simpa using Nat.ne_of_gt hcount)

/-- The flags and the count in the header code. -/
theorem code_bits (k : Nat) (fCoinBase fFirst fSecond : Bool) :
    let nCode := 8 * k + (if fCoinBase then 1 else 0) + (if fFirst then 2 else 0) +
      if fSecond then 4 else 0
    nCode.testBit 0 = fCoinBase ∧ nCode.testBit 1 = fFirst ∧ nCode.testBit 2 = fSecond ∧
      nCode / 8 = k ∧ nCode ≤ 8 * k + 7 := by
  simp only [Nat.testBit_eq_decide_div_mod_eq]
  cases fCoinBase <;> cases fFirst <;> cases fSecond <;> simp <;> omega

end CCoins

/-! ## Reading back -/

variable {K}

/-- A version that is not negative. -/
theorem reads_version {nVersion : BitVec 32} (h : 0 ≤ nVersion.toInt) :
    Reads (readVarInt 32) (writeVarInt 4 nVersion.toInt) nVersion.toNat := by
  have hcast : nVersion.toInt = nVersion.toNat := by
    rw [BitVec.toInt_eq_toNat_cond] at h ⊢
    split at h
    · rename_i hsmall
      rw [if_pos hsmall]
    · have := nVersion.isLt
      omega
  rw [hcast]
  exact reads_varInt32 nVersion.isLt

theorem reads_stored (hK : K.Inverts) {out : CTxOut} (h : out.Storable) :
    Reads (CTxOutCompressor.unserialize K) (CTxOutCompressor.serialize K out) out :=
  CTxOutCompressor.reads_txOut h.range (reads_script hK h.script)

/-- The outputs that are there, at their places. -/
theorem reads_outs (hK : K.Inverts) {vout : List CTxOut}
    (hcanon : Trim.Canonical CTxOut.isNull .null vout)
    (hstore : ∀ out ∈ vout, out.isNull = false → out.Storable) (k : Nat) :
    Reads (each (readAvail K) (vout.map (fun out => !out.isNull) ++ List.replicate k false))
      (vout.flatMap fun out => if out.isNull then [] else CTxOutCompressor.serialize K out)
      (vout ++ List.replicate k .null) := by
  have hone : ∀ out ∈ vout ++ List.replicate k .null, Reads (readAvail K (!out.isNull))
      (if out.isNull then [] else CTxOutCompressor.serialize K out) out := by
    intro out hout
    have hout : out ∈ vout ∨ out = .null :=
      (List.mem_append.mp hout).imp_right List.eq_of_mem_replicate
    cases hnull : out.isNull with
    | true =>
      have hout : out = .null := hout.elim (fun h => hcanon out h hnull) id
      rw [hout]
      exact Reads.pure _
    | false =>
      have hout : out ∈ vout := hout.resolve_right (by rintro rfl; cases hnull)
      exact reads_stored hK (hstore out hout hnull)
  have hall := reads_each hone
  rw [List.map_append, List.map_replicate, List.flatMap_append] at hall
  refine hall.of_eq ?_ rfl
  have hnone : (List.replicate k CTxOut.null).flatMap (fun out =>
      if out.isNull then [] else CTxOutCompressor.serialize K out) = [] :=
    List.flatMap_eq_nil_iff.mpr fun out hout => by
      rw [List.eq_of_mem_replicate hout]
      rfl
  rw [hnone, List.append_nil]

/-- Null outputs at the end are cleaned up. -/
theorem trim_append_null {vout : List CTxOut} (h : Trim.Trimmed CTxOut.isNull vout) (k : Nat) :
    Trim.trim CTxOut.isNull (vout ++ List.replicate k .null) = vout := by
  induction k with
  | zero =>
    rw [List.replicate_zero, List.append_nil]
    exact h
  | succ k ih =>
    rw [List.replicate_succ', ← List.append_assoc, Trim.trim,
      List.rdropWhile_concat_pos _ _ _ CCoins.null_isNull]
    exact ih

theorem reads_coins (hK : K.Inverts) {c : CCoins} (h : c.Storable) (hpruned : c.isPruned = false) :
    ∃ bytes, c.serialize K = some bytes ∧ Reads (CCoins.unserialize K) bytes c := by
  have hok := CCoins.serializable h.trimmed hpruned
  unfold CCoins.serialize
  rw [CCoins.calcMaskSize_eq h.trimmed]
  dsimp only
  rw [if_pos hok]
  refine ⟨_, rfl, ?_⟩
  set nCode := 8 * (c.mask.countP (· != 0) - if c.isAvailable 0 || c.isAvailable 1 then 0 else 1) +
    (if c.fCoinBase then 1 else 0) + (if c.isAvailable 0 then 2 else 0) +
    if c.isAvailable 1 then 4 else 0 with hcode
  obtain ⟨hcb, hfirst, hsecond, hcount, hle⟩ := CCoins.code_bits
    (c.mask.countP (· != 0) - if c.isAvailable 0 || c.isAvailable 1 then 0 else 1)
    c.fCoinBase (c.isAvailable 0) (c.isAvailable 1)
  have hmask : c.mask.countP (· != 0) ≤ (c.vout.length - 2 + 7) / 8 := by
    have := List.countP_le_length (p := (· != 0)) (l := c.mask)
    rwa [CCoins.mask, length_pack] at this
  have hfew := h.few
  have hlt : nCode < 2 ^ 32 := by omega
  have hmaskCode : nCode / 8 + (if nCode.testBit 1 || nCode.testBit 2 then 0 else 1) =
      c.mask.countP (· != 0) := by
    rw [hcount, hfirst, hsecond]
    cases hfew : c.isAvailable 0 || c.isAvailable 1 with
    | true => simp
    | false =>
      have hsome : c.mask.countP (· != 0) ≠ 0 := by
        rw [hfew] at hok
        simpa using hok
      simp only [Bool.false_eq_true, if_false]
      omega
  obtain ⟨nHeight, hheight⟩ : ∃ nHeight : Nat, c.nHeight = nHeight :=
    ⟨c.nHeight.toNat, (Int.toNat_of_nonneg h.height.1).symm⟩
  have hsmall : nHeight < 2 ^ 30 := by
    have := h.height.2
    omega
  rw [Nat.mod_eq_of_lt hlt, hheight]
  simp only [List.append_assoc]
  refine (reads_version h.version).bind ?_
  refine (reads_varInt32 hlt).bind ?_
  rw [hmaskCode, hcb, hfirst, hsecond]
  refine (reads_readMask (CCoins.mask_last h.trimmed)).bind ?_
  rw [CCoins.avail_eq]
  refine (reads_outs hK h.canonical h.outs _).bind ?_
  refine (reads_varInt32 (by omega)).map.of_eq rfl ?_
  rw [CCoins.cleanup, trim_append_null h.trimmed, toInt_ofNat_small (by omega), ← hheight,
    BitVec.ofNat_toNat, BitVec.setWidth_eq]

/-- Undo data comes back with whatever is read of its output. -/
theorem reads_undo {undo : CTxInUndo} {out : CTxOut}
    (hout : Reads (CTxOutCompressor.unserialize K) (CTxOutCompressor.serialize K undo.txout) out)
    (hrange : 0 ≤ undo.nHeight ∧ undo.nHeight < 2 ^ 30) (hver : 0 ≤ undo.nVersion.toInt)
    (hbare : undo.nHeight = 0 → undo.nVersion = 0) :
    Reads (CTxInUndo.unserialize K) (undo.serialize K) { undo with txout := out } := by
  obtain ⟨nHeight, hheight⟩ : ∃ nHeight : Nat, undo.nHeight = nHeight :=
    ⟨undo.nHeight.toNat, (Int.toNat_of_nonneg hrange.1).symm⟩
  have hcode : (undo.nHeight * 2 + if undo.fCoinBase then 1 else 0) % 2 ^ 32 =
      (nHeight * 2 + if undo.fCoinBase then 1 else 0 : Nat) := by
    split <;> omega
  set nCode := nHeight * 2 + if undo.fCoinBase then 1 else 0 with hnCode
  have hhalf : nCode / 2 = nHeight := by
    rw [hnCode]
    split <;> omega
  have hlow : nCode.testBit 0 = undo.fCoinBase := by
    rw [Nat.testBit_eq_decide_div_mod_eq, hnCode]
    cases undo.fCoinBase <;> simp
  have hlt : nCode < 2 ^ 32 := by
    rw [hnCode]
    split <;> omega
  have hversion : Reads (if nCode / 2 > 0 then readVarInt 32 else pure 0 : Reader String Nat)
      (if undo.nHeight > 0 then writeVarInt 4 undo.nVersion.toInt else [])
      undo.nVersion.toNat := by
    rw [hhalf, hheight]
    by_cases hpos : nHeight > 0
    · rw [if_pos hpos, if_pos (by omega)]
      exact reads_version hver
    · rw [if_neg hpos, if_neg (by omega), hbare (by omega)]
      exact Reads.pure _
  unfold CTxInUndo.serialize CTxInUndo.unserialize
  rw [hcode, List.append_assoc]
  refine (reads_varInt32 hlt).bind (hversion.bind (hout.map.of_eq rfl ?_))
  rw [hlow, hhalf, ← hheight, BitVec.ofNat_toNat, BitVec.setWidth_eq]

/-- A money amount is far from overflowing when it is compressed. -/
theorem compressible {n : Int} (h : moneyRange n = true) : 9 * n.toNat + 10 < 2 ^ 64 := by
  have hrange : 0 ≤ n ∧ n ≤ MAX_MONEY := by simpa [moneyRange] using h
  simp only [MAX_MONEY, COIN] at hrange
  omega

/-- The records of the coin database and of the undo files are read back, the
compression of amounts loses nothing within the money range, and every
compressed script is restored. -/
theorem records_survive_disk (K : PubKeys) (hK : K.Inverts) :
    (∀ c : CCoins, c.Storable → c.isPruned = false →
      ∃ bytes, c.serialize K = some bytes ∧
        ∀ rest, CCoins.unserialize K (bytes ++ rest) = .ok (c, rest)) ∧
    (∀ undo : CTxInUndo, undo.Storable →
      ∀ rest, CTxInUndo.unserialize K (undo.serialize K ++ rest) = .ok (undo, rest)) ∧
    (∀ n : Int, moneyRange n = true →
      decompressAmount (compressAmount n.toNat) = n.toNat ∧
        ∀ m : Int, moneyRange m = true → compressAmount m.toNat = compressAmount n.toNat →
          m = n) ∧
    (∀ script out, compress K script = some out →
      ∃ nSize vch, nSize < nSpecialScripts ∧ out = UInt8.ofNat nSize :: vch ∧
        vch.length = getSpecialSize nSize ∧
        decompress K nSize vch = some script) := by
  refine ⟨fun c h hpruned => reads_coins hK h hpruned, fun undo h => ?_, fun n hn => ?_,
    fun script out h => decompress_compress hK h⟩
  · exact reads_undo (reads_stored hK h.out) h.height h.version h.bare
  · refine ⟨(decompressAmount_compressAmount (compressible hn)).2, fun m hm he => ?_⟩
    have hnat := compressAmount_inj (compressible hm) (compressible hn) he
    have hm0 : 0 ≤ m := by simp_all [moneyRange]
    have hn0 : 0 ≤ n := by simp_all [moneyRange]
    omega

/-- The generator of the curve. -/
def sampleKey : List UInt8 :=
  0x04 :: ((Bytes.le 32
    0x79be667ef9dcbbac55a06295ce870b07029bfcdb2dce28d959f2815b16f81798).reverse ++
    (Bytes.le 32 0x483ada7726a3c4655da4fbfc0e1108a8fd17b448a68554199c47d08ffb10d4b8).reverse)

/-- The part of the curve that the sample reads. -/
def sampleKeys : PubKeys where
  isFullyValid key := key == sampleKey
  decompress vch := if vch == compressedKey sampleKey then some sampleKey else none

theorem sampleKeys_inverts : sampleKeys.Inverts := by
  intro key _ _ hvalid
  have hkey : key = sampleKey := by simpa [sampleKeys] using hvalid
  rw [hkey]
  decide

/-- Coins with two outputs left, the fifth paid to `sampleKey`. -/
def sampleCoins : CCoins where
  fCoinBase := true
  vout := [.null, ⟨1200, [0x51]⟩, .null, .null, ⟨500, [65] ++ sampleKey ++ [0xac]⟩]
  nHeight := 200
  nVersion := 1

theorem sampleCoins_storable : sampleCoins.Storable where
  trimmed := rfl
  canonical := by simp [Trim.Canonical, sampleCoins, CTxOut.isNull, CTxOut.null]
  outs := by
    intro out hout hnull
    simp only [sampleCoins, List.mem_cons, List.not_mem_nil, or_false] at hout
    rcases hout with rfl | rfl | rfl | rfl | rfl
    · cases hnull
    · exact ⟨by decide, by decide⟩
    · cases hnull
    · cases hnull
    · exact ⟨by decide, by decide⟩
  few := by decide
  height := by decide
  version := by decide

theorem records_survive_disk_sample :
    sampleCoins.isPruned = false ∧
      ∃ bytes, sampleCoins.serialize sampleKeys = some bytes ∧
        ∀ rest, CCoins.unserialize sampleKeys (bytes ++ rest) = .ok (sampleCoins, rest) :=
  ⟨by decide, (records_survive_disk sampleKeys sampleKeys_inverts).1 sampleCoins
    sampleCoins_storable (by decide)⟩

/-- Undo data whose output has a script of one byte too many. -/
def overlongUndo : CTxInUndo := { txout := ⟨0, List.replicate (MAX_SCRIPT_SIZE + 1) 0⟩ }

/-- An overly long script comes back as `OP_RETURN`. -/
theorem overlong_script_not_restored :
    moneyRange overlongUndo.txout.nValue = true ∧
      CTxInUndo.unserialize sampleKeys (overlongUndo.serialize sampleKeys) =
        .ok ({ txout := ⟨0, [OP_RETURN]⟩ }, []) ∧
      overlongUndo ≠ { txout := ⟨0, [OP_RETURN]⟩ } := by
  have hlen : overlongUndo.txout.scriptPubKey.length = 10001 := List.length_replicate
  have hplain : compress sampleKeys overlongUndo.txout.scriptPubKey = none := by
    simp only [compress, isToKeyID,
      isToScriptID, isToPubKey, payload, hlen]
    rfl
  have hread := reads_plain hplain (by omega)
  rw [hlen, if_neg (by decide)] at hread
  have hundo := reads_undo (CTxOutCompressor.reads_txOut (by decide) hread) (by decide) (by decide)
    (fun _ => rfl) []
  rw [List.append_nil] at hundo
  refine ⟨by decide, hundo, fun he => ?_⟩
  rw [he] at hlen
  cases hlen

end junkcoin
