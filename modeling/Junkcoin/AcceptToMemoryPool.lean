-- What `AcceptToMemoryPoolWorker` reads of the chain for a new transaction: the
-- coins, with those of the pool over them, and the lock times of its inputs.
import Junkcoin.Mempool
import Junkcoin.ConnectBlock

namespace junkcoin

/-! ## The coins that a new transaction sees -/

def MEMPOOL_HEIGHT : Int := 0x7FFFFFFF

namespace CTxMemPool

variable (s : CTxMemPool)

/-- `CCoinsViewMemPool::GetCoins`. -/
def getCoins (pcoinsTip : CCoinsViewCache) (txid : Uint256) : Option CCoins :=
  match s.mapTx.get txid with
  | some e => some (.fromTx e.tx MEMPOOL_HEIGHT)
  | none => (pcoinsTip.accessCoins txid).filter fun coins => !coins.isPruned

/-! ## Lock times -/

/-- The height that an input counts from; an input from the pool is taken to
confirm in the next block. -/
def prevHeight (tip : BlockIndex) (coins : CCoins) : Int :=
  if coins.nHeight = MEMPOOL_HEIGHT then nHeight tip + 1 else coins.nHeight

/-- The index entry of the next block, of which only the place matters. -/
def nextIndex (tip : BlockIndex) : BlockIndex :=
  { nVersion := 0, hashPrevBlock := 0, hashMerkleRoot := 0, nTime := 0, nBits := 0, nNonce := 0 } ::
    tip

/-- The heights as `CalculateSequenceLocks` leaves them: an input without a lock
has height 0. -/
def lockedHeights (tx : CTransaction) (fVerifySequence : Bool) (prevHeights : List Int) :
    List Int :=
  if tx.nVersion.toNat ≥ 2 && fVerifySequence then
    (tx.vin.zip prevHeights).map fun (txin, nCoinHeight) =>
      if txin.nSequence &&& SEQUENCE_LOCKTIME_DISABLE_FLAG ≠ 0 then 0 else nCoinHeight
  else prevHeights

/-- `CheckSequenceLocks` without existing lock points, with those that it
fills. -/
def checkSequenceLocksWith (fVerifySequence : Bool) (pcoinsTip : CCoinsViewCache)
    (tip : BlockIndex) (tx : CTransaction) : Bool × LockPoints :=
  match tx.vin.mapM fun txin => s.getCoins pcoinsTip txin.prevout.hash with
  | none => (false, {})
  | some coins =>
    let prevheights := coins.map (prevHeight tip)
    let lockPair := calculateSequenceLocks tx fVerifySequence prevheights (nextIndex tip)
    let maxInputHeight := ((lockedHeights tx fVerifySequence prevheights).filter
      (· ≠ nHeight tip + 1)).foldl max 0
    (sequenceLocks tx fVerifySequence prevheights (nextIndex tip),
      { height := lockPair.1, time := lockPair.2
        maxInputBlock := getAncestor tip maxInputHeight })

end CTxMemPool

end junkcoin
