-- Reading the wire form (`serialize.h`, `transaction.h`, `block.h`,
-- `auxpow.h`). A reader fails with the text of the exception that the node
-- throws.
import Junkcoin.Primitives
import Junkcoin.Lib.Reader

namespace junkcoin

open Reader

/-! ## Numbers and vectors -/

def MAX_SIZE : Nat := 0x02000000

/-- `CDataStream::read`. -/
def readBytes (n : Nat) : Reader String (List UInt8) :=
  take "CDataStream::read(): end of data" n

/-- An unsigned number of `len` bytes. -/
def readLe (len : Nat) : Reader String Nat := do
  let b ← readBytes len
  pure (Bytes.ofLe b)

/-- An `int32_t`. -/
def readInt32 : Reader String Int := do
  let n ← readLe 4
  pure ((n + 2 ^ 31 : Int) % 2 ^ 32 - 2 ^ 31)

/-- An `int64_t`. -/
def readInt64 : Reader String Int := do
  let n ← readLe 8
  pure (int64 n)

def readUint256 : Reader String Uint256 := do
  let n ← readLe 32
  pure (BitVec.ofNat 256 n)

/-- A number that must be too large for the shorter forms. -/
def readCanonical (len low : Nat) : Reader String Nat := do
  let nSizeRet ← readLe len
  failIf (nSizeRet < low) "non-canonical ReadCompactSize()"
  pure nSizeRet

def readCompactSize : Reader String Nat := do
  let chSize ← readLe 1
  let nSizeRet ← (if chSize < 253 then pure chSize
    else if chSize = 253 then readCanonical 2 253
    else if chSize = 254 then readCanonical 4 0x10000
    else readCanonical 8 0x100000000 : Reader String Nat)
  failIf (nSizeRet > MAX_SIZE) "ReadCompactSize(): size too large"
  pure nSizeRet

def readVector {α : Type} (r : Reader String α) : Reader String (List α) := do
  let nSize ← readCompactSize
  many r nSize

/-- A vector of bytes is read as one block. -/
def readByteVector : Reader String (List UInt8) := do
  let nSize ← readCompactSize
  readBytes nSize

/-! ## Transactions -/

def COutPoint.unserialize : Reader String COutPoint := do
  let hash ← readUint256
  let n ← readLe 4
  pure ⟨hash, UInt32.ofNat n⟩

def CTxIn.unserialize : Reader String CTxIn := do
  let prevout ← COutPoint.unserialize
  let scriptSig ← readByteVector
  let nSequence ← readLe 4
  pure { prevout, scriptSig, nSequence := UInt32.ofNat nSequence }

def CTxOut.unserialize : Reader String CTxOut := do
  let nValue ← readInt64
  let scriptPubKey ← readByteVector
  pure ⟨nValue, scriptPubKey⟩

/-- The witness stack of one input. -/
def readWitness (txin : CTxIn) : Reader String CTxIn := do
  let scriptWitness ← readVector readByteVector
  pure { txin with scriptWitness }

/-- The inputs and outputs, with the flags of the extended format. -/
def readInsOuts (fAllowWitness : Bool) : Reader String (Nat × List CTxIn × List CTxOut) := do
  let vin ← readVector CTxIn.unserialize
  if vin.isEmpty && fAllowWitness then do
    -- a dummy or an empty `vin` was read
    let flags ← readLe 1
    if flags ≠ 0 then do
      let vin ← readVector CTxIn.unserialize
      let vout ← readVector CTxOut.unserialize
      pure (flags, vin, vout)
    else pure (flags, [], [])
  else do
    let vout ← readVector CTxOut.unserialize
    pure (0, vin, vout)

/-- The witnesses, if they are flagged, and the flags that are left. -/
def readWitnesses (fAllowWitness : Bool) (flags : Nat) (vin : List CTxIn) :
    Reader String (Nat × List CTxIn) :=
  if flags % 2 = 1 && fAllowWitness then do
    let vin ← each readWitness vin
    pure (flags ^^^ 1, vin)
  else pure (flags, vin)

def unserializeTransaction (fAllowWitness : Bool) : Reader String CTransaction := do
  let nVersion ← readLe 4
  let (flags, vin, vout) ← readInsOuts fAllowWitness
  let (flags, vin) ← readWitnesses fAllowWitness flags vin
  failIf (flags != 0) "Unknown transaction optional data"
  let nLockTime ← readLe 4
  pure { nVersion := BitVec.ofNat 32 nVersion, vin, vout, nLockTime := UInt32.ofNat nLockTime }

/-! ## Blocks -/

def CPureBlockHeader.unserialize : Reader String CPureBlockHeader := do
  let nVersion ← readLe 4
  let hashPrevBlock ← readUint256
  let hashMerkleRoot ← readUint256
  let nTime ← readLe 4
  let nBits ← readLe 4
  let nNonce ← readLe 4
  pure { nVersion := BitVec.ofNat 32 nVersion, hashPrevBlock, hashMerkleRoot
         nTime := UInt32.ofNat nTime, nBits := UInt32.ofNat nBits, nNonce := UInt32.ofNat nNonce }

def CAuxPow.unserialize (fAllowWitness : Bool) : Reader String CAuxPow := do
  let tx ← unserializeTransaction fAllowWitness
  let hashBlock ← readUint256
  let vMerkleBranch ← readVector readUint256
  let nIndex ← readInt32
  let vChainMerkleBranch ← readVector readUint256
  let nChainIndex ← readInt32
  let parentBlock ← CPureBlockHeader.unserialize
  pure { tx, hashBlock, vMerkleBranch, nIndex, vChainMerkleBranch, nChainIndex, parentBlock }

def CBlockHeader.unserialize (fAllowWitness : Bool) : Reader String CBlockHeader := do
  let header ← CPureBlockHeader.unserialize
  let auxpow ← (if header.isAuxpow then do
      let auxpow ← CAuxPow.unserialize fAllowWitness
      pure (some auxpow)
    else pure none : Reader String (Option CAuxPow))
  pure { header with auxpow }

def CBlock.unserialize (fAllowWitness : Bool) : Reader String CBlock := do
  let header ← CBlockHeader.unserialize fAllowWitness
  let vtx ← readVector (unserializeTransaction fAllowWitness)
  pure { header with vtx }

end junkcoin
