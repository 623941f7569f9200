-- Connecting a block to a coins view and disconnecting it (`ConnectBlock`
-- and `DisconnectBlock` with the functions that they call).
import Junkcoin.CheckBlock
import Junkcoin.UpdateCoins

namespace junkcoin

variable (env : Env) (block : CBlock) (pindex : BlockIndex)

open CCoinsViewCache

/-! ## Sequence locks -/

def SEQUENCE_LOCKTIME_DISABLE_FLAG : UInt32 := 0x80000000

def SEQUENCE_LOCKTIME_TYPE_FLAG : UInt32 := 0x00400000

def SEQUENCE_LOCKTIME_MASK : UInt32 := 0x0000ffff

/-- The loop of `CalculateSequenceLocks` over the inputs and the heights of
the coins that they spend. -/
def sequenceLocksFrom (block : BlockIndex) :
    (nMinHeight nMinTime : Int) → List (CTxIn × Int) → Int × Int
  | nMinHeight, nMinTime, [] => (nMinHeight, nMinTime)
  | nMinHeight, nMinTime, (txin, nCoinHeight) :: rest =>
    let nValue := (txin.nSequence &&& SEQUENCE_LOCKTIME_MASK).toNat
    if txin.nSequence &&& SEQUENCE_LOCKTIME_DISABLE_FLAG ≠ 0 then
      sequenceLocksFrom block nMinHeight nMinTime rest
    else if txin.nSequence &&& SEQUENCE_LOCKTIME_TYPE_FLAG ≠ 0 then
      let nCoinTime := getMedianTimePast (getAncestor block (max (nCoinHeight - 1) 0))
      sequenceLocksFrom block nMinHeight (max nMinTime (nCoinTime + nValue * 512 - 1)) rest
    else sequenceLocksFrom block (max nMinHeight (nCoinHeight + nValue - 1)) nMinTime rest

def calculateSequenceLocks (tx : CTransaction) (fVerifySequence : Bool) (prevHeights : List Int)
    (block : BlockIndex) : Int × Int :=
  if tx.nVersion.toNat ≥ 2 && fVerifySequence then
    sequenceLocksFrom block (-1) (-1) (tx.vin.zip prevHeights)
  else (-1, -1)

/-- `SequenceLocks`. -/
def sequenceLocks (tx : CTransaction) (fVerifySequence : Bool) (prevHeights : List Int)
    (block : BlockIndex) : Bool :=
  let lockPair := calculateSequenceLocks tx fVerifySequence prevHeights block
  !(lockPair.1 ≥ nHeight block || lockPair.2 ≥ getMedianTimePast block.tail)

/-! ## The inputs of a transaction -/

/-- The loop of `CheckTxInputs`. -/
def checkTxInputsFrom (net : Network) (inputs : CCoinsViewCache) (nSpendHeight : Int) :
    (nValueIn : Int) → List CTxIn → Check Int
  | nValueIn, [] => .ok nValueIn
  | nValueIn, txin :: vin => do
    let coins := (inputs.accessCoins txin.prevout.hash).getD .empty
    let nCoinbaseMaturity := (net.params.getConsensus coins.nHeight.toNat).nCoinbaseMaturity
    rejectIf (coins.fCoinBase && nSpendHeight - coins.nHeight < nCoinbaseMaturity) 0
      "bad-txns-premature-spend-of-coinbase"
    let nValue := (coins.outAt txin.prevout.n.toNat).nValue
    rejectIf (!moneyRange nValue || !moneyRange (nValueIn + nValue)) 100
      "bad-txns-inputvalues-outofrange"
    checkTxInputsFrom net inputs nSpendHeight (nValueIn + nValue) vin

/-- `tx.GetValueOut()`, which throws when the sum is out of range. -/
def valueOutOrThrow (tx : CTransaction) : Check Int :=
  match tx.getValueOut with
  | none => .error (.crash "GetValueOut: value out of range")
  | some nValueOut => .ok nValueOut

/-- `Consensus::CheckTxInputs`. -/
def checkTxInputs (net : Network) (tx : CTransaction) (inputs : CCoinsViewCache)
    (nSpendHeight : Int) : Check Unit := do
  rejectIf (!inputs.haveInputs tx) 0 ""
  let nValueIn ← checkTxInputsFrom net inputs nSpendHeight 0 tx.vin
  let nValueOut ← valueOutOrThrow tx
  rejectIf (nValueIn < nValueOut) 100 "bad-txns-in-belowout"
  rejectIf (nValueIn - nValueOut < 0) 100 "bad-txns-fee-negative"
  rejectIf (!moneyRange (nValueIn - nValueOut)) 100 "bad-txns-fee-outofrange"

/-- The flags whose failure is not a reason to ban a peer are all but
`P2SH`. -/
def mandatoryFlags : ScriptFlags := ⟨true, false, false, false, false, false⟩

/-- The loop of `CheckInputs` over the scripts. -/
def checkScriptsFrom (env : Env) (tx : CTransaction) (inputs : CCoinsViewCache)
    (flags : ScriptFlags) : (i : Nat) → List CTxIn → Check Unit
  | _, [] => .ok ()
  | i, txin :: vin => do
    let out := ((inputs.accessCoins txin.prevout.hash).getD .empty).outAt txin.prevout.n.toNat
    match env.verifyScript tx i out flags with
    | none => checkScriptsFrom env tx inputs flags (i + 1) vin
    | some err =>
      if flags ≠ mandatoryFlags ∧ env.verifyScript tx i out mandatoryFlags = none then
        doS 0 ("non-mandatory-script-verify-flag (" ++ err ++ ")")
      else doS 100 ("mandatory-script-verify-flag-failed (" ++ err ++ ")")

/-- `CheckInputs`, with the scripts checked in place. -/
def checkInputs (tx : CTransaction) (inputs : CCoinsViewCache) (fScriptChecks : Bool)
    (flags : ScriptFlags) (nSpendHeight : Int) : Check Unit := do
  checkTxInputs env.net tx inputs nSpendHeight
  if fScriptChecks then checkScriptsFrom env tx inputs flags 0 tx.vin else .ok ()

/-! ## Connecting -/

/-- What one call of `ConnectBlock` works with. -/
structure ConnectContext where
  env : Env
  pindex : BlockIndex
  flags : ScriptFlags
  fVerifySequence : Bool

namespace ConnectContext

variable (ctx : ConnectContext) (tx : CTransaction) (view : CCoinsViewCache)

/-- The block is connected on top of the block that the view is at, so the
height of the spend is the height of the block. -/
def height : Int := nHeight ctx.pindex

/-- The first checks of a transaction that is not a coinbase. The view that
comes back has looked up the inputs. -/
def checkAvailable : Check CCoinsViewCache :=
  if tx.isCoinBase then .ok view
  else do
    rejectIf (!view.haveInputs tx) 100 "bad-txns-inputs-missingorspent"
    let view := view.fetchInputs tx
    let prevheights := tx.vin.map fun txin =>
      ((view.accessCoins txin.prevout.hash).getD .empty).nHeight
    rejectIf (!sequenceLocks tx ctx.fVerifySequence prevheights ctx.pindex) 100 "bad-txns-nonfinal"
    .ok view

/-- The outputs that a transaction spends, for the count of its signature
operations. -/
def spentOutputs : List CTxOut :=
  tx.vin.map fun txin =>
    ((view.accessCoins txin.prevout.hash).getD .empty).outAt txin.prevout.n.toNat

/-- The fees after a transaction: they are added up before its inputs are
checked. -/
def addFees (nFees : Int) : Check Int :=
  if tx.isCoinBase then .ok nFees
  else do
    let nValueIn ← view.getValueIn tx
    let nValueOut ← valueOutOrThrow tx
    checkInputs ctx.env tx view (ctx.env.fScriptChecks ctx.pindex) ctx.flags ctx.height
    .ok (int64 (nFees + int64 (nValueIn - nValueOut)))

/-- The body of the loop over the transactions. -/
def connectTx (nFees nSigOpsCost : Int) : Check (CCoinsViewCache × CTxUndo × Int × Int) := do
  let view ← ctx.checkAvailable tx view
  let nSigOpsCost := nSigOpsCost +
    ctx.env.getTransactionSigOpCost tx (spentOutputs tx view) ctx.flags
  rejectIf (nSigOpsCost > MAX_BLOCK_SIGOPS_COST) 100 "bad-blk-sigops"
  let nFees ← ctx.addFees tx view nFees
  let (view, txundo) ← updateCoins ctx.env.H tx view ctx.height
  .ok (view, txundo, nFees, nSigOpsCost)

/-- The loop over the transactions. -/
def connectTxs : List CTransaction → CCoinsViewCache → (nFees nSigOpsCost : Int) →
    Check (CCoinsViewCache × List CTxUndo × Int)
  | [], view, nFees, _ => .ok (view, [], nFees)
  | tx :: vtx, view, nFees, nSigOpsCost => do
    let (view, txundo, nFees, nSigOpsCost) ← ctx.connectTx tx view nFees nSigOpsCost
    let (view, rest, nFees) ← connectTxs vtx view nFees nSigOpsCost
    .ok (view, txundo :: rest, nFees)

end ConnectContext

/-- The BIP30 loop: no transaction of the block may have unspent outputs
already. The view that comes back has looked all of them up. -/
def checkBIP30 (H : Hashes) : List CTransaction → CCoinsViewCache → Check CCoinsViewCache
  | [], view => .ok view
  | tx :: vtx, view => do
    rejectIf (!((view.accessCoins (tx.getHash H)).getD .empty).isPruned) 100 "bad-txns-BIP30"
    checkBIP30 H vtx (view.fetchCoins (tx.getHash H))

/-- BIP30 is looked at only in some states of BIP34. Otherwise the hash of
an old block is logged. -/
def enforceBIP30 (pprev : BlockIndex) (view : CCoinsViewCache) : Check CCoinsViewCache :=
  if fEnforceBIP30 pprev (consensusAfter env.net pprev) then checkBIP30 env.H block.vtx view
  else if getAncestor pprev (env.net.params.getConsensus 0).BIP34Height = [] then
    .error (.crash "pindexBIP34height")
  else .ok view

/-- The hash of an index entry. -/
def blockHash (H : Hashes) (pindex : BlockIndex) : Uint256 :=
  (pindex.head?.map (·.getHash H)).getD 0

/-- The coinbase may pay out the subsidy and the fees. -/
def checkReward (nFees : Int) : Check Unit := do
  let blockReward := getJunkcoinBlockSubsidy env.mtRandom (nHeight pindex) nFees
    (consensusAfter env.net pindex.tail)
  match block.vtx with
  | [] => .error (.crash "block.vtx[0]")
  | coinbase :: _ =>
    let nValueOut ← valueOutOrThrow coinbase
    rejectIf (nValueOut > blockReward) 100 "bad-cb-amount"

/-- The part of `ConnectBlock` for a block that is not the genesis block:
the rules and the transactions. -/
def connectTransactions (view : CCoinsViewCache) : Check (CCoinsViewCache × CBlockUndo) := do
  let pprev := pindex.tail
  assert (!pprev.isEmpty) "pindex->pprev"
  let consensus := consensusAfter env.net pprev
  let view ← enforceBIP30 env block pprev view
  let flags := scriptFlags pprev consensus
  let ctx : ConnectContext := { env, pindex, flags, fVerifySequence := flags.CHECKSEQUENCEVERIFY }
  let (view, txundos, nFees) ← ctx.connectTxs block.vtx view 0 0
  checkReward env block pindex nFees
  .ok (view, txundos.tail)

/-- `CheckBlock` at the start of `ConnectBlock`: a block that may have been
corrupted on disk stops the node. -/
def recheckBlock (fJustCheck : Bool) : Check Unit :=
  match checkBlock env block (!fJustCheck) (!fJustCheck) with
  | .ok _ => .ok ()
  | .error (.invalid _ _ true) => .error (.error
      "Corrupt block found indicating potential hardware failure; shutting down")
  | .error e => .error e

/-- `ConnectBlock`: the view and the undo data that is written. The genesis
block only moves the best block, and leaves no undo data. -/
def connectBlock (view : CCoinsViewCache) (fJustCheck : Bool) :
    Check (CCoinsViewCache × Option CBlockUndo) := do
  recheckBlock env block fJustCheck
  assert (blockHash env.H pindex.tail == view.getBestBlock) "hashPrevBlock == view.GetBestBlock()"
  if block.getHash env.H == hashGenesisBlock env.H env.net then
    .ok (if fJustCheck then view else view.setBestBlock (blockHash env.H pindex), none)
  else
    let (view, blockundo) ← connectTransactions env block pindex view
    .ok (if fJustCheck then (view, none)
      else (view.setBestBlock (blockHash env.H pindex), some blockundo))

/-! ## Disconnecting -/

/-- `DisconnectBlock` with the undo data that was read from disk. -/
def disconnectBlock (blockUndo : Option CBlockUndo) (view : CCoinsViewCache) :
    Check (CCoinsViewCache × Bool) := do
  assert (blockHash env.H pindex == view.getBestBlock)
    "pindex->GetBlockHash() == view.GetBestBlock()"
  match blockUndo, block.vtx with
  | none, _ => .error (.error "DisconnectBlock(): no undo data available")
  | some _, [] => .error (.error "DisconnectBlock(): block and undo data inconsistent")
  | some vtxundo, coinbase :: rest =>
    errorIf (vtxundo.length != rest.length) "DisconnectBlock(): block and undo data inconsistent"
    let (view, fClean) ← disconnectTxs env.H (nHeight pindex) view rest vtxundo
    let (view, same) := removeOutputs env.H view coinbase (nHeight pindex)
    .ok (view.setBestBlock (blockHash env.H pindex.tail), fClean && same)

/-! ## Blocks for the examples -/

/-- A node on the main network that counts no signature operations and finds
every script satisfied. -/
def sampleEnv : Env where
  H := CAuxPow.sampleHashes
  net := .main
  mtRandom _ := 5000
  getLegacySigOpCount _ := 0
  getTransactionSigOpCost _ _ _ := 0
  verifyScript _ _ _ _ := none
  fScriptChecks _ := true
  decodeAddress _ := .scriptID (List.replicate 20 7)
  fundShare nSubsidy := nSubsidy / 5
  fundFallback nSubsidy := nSubsidy / 5
  fCheckpointsEnabled := true

def sampleOut (nValue : Int) : CTxOut := ⟨nValue, [0x51]⟩

/-- A transaction that spends the given outputs. -/
def sampleTx (prevouts : List COutPoint) (values : List Int) : CTransaction where
  nVersion := 1
  vin := prevouts.map fun o => { prevout := o, scriptSig := [0, 0] }
  vout := values.map sampleOut
  nLockTime := 0

/-- A block of the given transactions on top of `pprev`. -/
def sampleBlock (pprev : BlockIndex) (vtx : List CTransaction) : CBlock where
  nVersion := 1
  hashPrevBlock := blockHash sampleEnv.H pprev
  hashMerkleRoot := (computeMerkleRoot sampleEnv.H (vtx.map (·.getHash sampleEnv.H))).1
  nTime := 1367394064 + UInt32.ofNat pprev.length
  nBits := 0x1e0ffff0
  nNonce := 0
  vtx := vtx

theorem sampleBlock_truthful (pprev : BlockIndex) (vtx : List CTransaction) :
    (sampleBlock pprev vtx).Truthful sampleEnv := fun h => nomatch h

/-- The index entry of that block. -/
def sampleIndex (pprev : BlockIndex) (vtx : List CTransaction) : BlockIndex :=
  (sampleBlock pprev vtx).toCBlockHeader :: pprev

end junkcoin
