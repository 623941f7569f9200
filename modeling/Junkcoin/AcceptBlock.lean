-- How a block enters the index and the block files (`AcceptBlockHeader`,
-- `AcceptBlock` and `ReceivedBlockTransactions`). A function gives back the
-- index also when it refuses the block, since it may have marked entries.
import Junkcoin.ChainState
import Junkcoin.ContextualCheckBlock

namespace junkcoin

namespace BlockMap

variable (s : BlockMap)

/-! ## Headers -/

/-- `mapBlockIndex.find(hash)`. -/
def findBlock (H : Hashes) (hash : Uint256) : Option BlockIndex :=
  s.mapBlockIndex.find? fun pindex => blockHash H pindex == hash

/-- `Checkpoints::GetLastCheckpoint`. -/
def getLastCheckpoint (env : Env) : Option BlockIndex :=
  env.net.params.mapCheckpoints.reverse.findSome? fun checkpoint => s.findBlock env.H checkpoint.2

/-- `CheckIndexAgainstCheckpoint`, if the checkpoints are enabled. -/
def checkIndexAgainstCheckpoint (env : Env) (pindexPrev : BlockIndex) : Check Unit :=
  if !env.fCheckpointsEnabled then .ok ()
  else if blockHash env.H pindexPrev == hashGenesisBlock env.H env.net then .ok ()
  else match s.getLastCheckpoint env with
    | none => .ok ()
    | some pcheckpoint => rejectIf (nHeight pindexPrev + 1 < nHeight pcheckpoint) 100 ""

/-- `AddToBlockIndex`: the index, and the entry of the header in it. -/
def addToBlockIndex (H : Hashes) (block : CBlockHeader) : BlockMap × BlockIndex :=
  match s.findBlock H (block.getHash H) with
  | some pindex => (s, pindex)
  | none =>
    let pindexNew := block :: (s.findBlock H block.hashPrevBlock).getD []
    let s := { s with mapBlockIndex := pindexNew :: s.mapBlockIndex }
    let s := s.setInfo pindexNew fun _ =>
      { nStatus := BlockStatus.raiseValidity {} BLOCK_VALID_TREE }
    let fBestHeader : Bool := s.pindexBestHeader.isEmpty ||
      nChainWork s.pindexBestHeader < nChainWork pindexNew
    (if fBestHeader then { s with pindexBestHeader := pindexNew } else s, pindexNew)

/-- The rules for a header that is not in the index yet; its parent. -/
def checkNewHeader (env : Env) (nAdjustedTime : Int) (block : CBlockHeader) :
    Check BlockIndex := do
  checkBlockHeader env.H env.net block true
  match s.findBlock env.H block.hashPrevBlock with
  | none => doS 10 "bad-prevblk"
  | some pindexPrev =>
    rejectIf (s.nStatus pindexPrev).failed 100 "bad-prevblk"
    s.checkIndexAgainstCheckpoint env pindexPrev
    contextualCheckBlockHeader env.net block pindexPrev nAdjustedTime
    .ok pindexPrev

/-- The walk from `pindexPrev` down to the block that failed. -/
def markFailedChildren (failedit : BlockIndex) : BlockMap → BlockIndex → BlockMap
  | s, [] => s
  | s, b :: p =>
    if b :: p = failedit then s
    else
      let s := s.setStatus (b :: p) fun st => { st with failedChild := true }
      markFailedChildren failedit s p

/-- Look for an ancestor of `pindexPrev` that is known to have failed. The set
`gFailedBlocks` is ordered by address. -/
def findFailedAncestor (addr : BlockIndex → Nat) (pindexPrev : BlockIndex) : Option BlockIndex :=
  if (s.nStatus pindexPrev).isValid BLOCK_VALID_SCRIPTS then none
  else (s.gFailedBlocks.mergeSort fun a b => addr a ≤ addr b).find? fun failedit =>
    getAncestor pindexPrev (nHeight failedit) == failedit

/-- `AcceptBlockHeader`: the index after it, and the entry of the header. -/
def acceptBlockHeader (env : Env) (addr : BlockIndex → Nat) (nAdjustedTime : Int)
    (block : CBlockHeader) : Check (BlockMap × Except Failure BlockIndex) :=
  let (added, pindex) := s.addToBlockIndex env.H block
  if block.getHash env.H == hashGenesisBlock env.H env.net then .ok (added, .ok pindex)
  else match s.findBlock env.H (block.getHash env.H) with
    | some pindex =>
      .ok (s, if (s.nStatus pindex).failed then doS 0 "duplicate" else .ok pindex)
    | none => do
      match ← attempt (s.checkNewHeader env nAdjustedTime block) with
      | .error e => .ok (s, .error e)
      | .ok pindexPrev =>
        match s.findFailedAncestor addr pindexPrev with
        | none => .ok (added, .ok pindex)
        | some failedit =>
          assert (s.nStatus failedit).failedValid "failedit->nStatus & BLOCK_FAILED_VALID"
          .ok (markFailedChildren failedit s pindexPrev, doS 100 "bad-prevblk")

/-! ## Blocks -/

def MIN_BLOCKS_TO_KEEP : Int := 1440

/-- The blocks that `AcceptBlock` does not process: those that it has, and of
those that it did not ask for the ones that do not help the tip. -/
def skipsBlock (chainActive pindex : BlockIndex) (fRequested : Bool) : Bool :=
  let fAlreadyHave := (s.nStatus pindex).haveData
  let fHasMoreWork := chainActive.isEmpty || nChainWork pindex > nChainWork chainActive
  let fTooFarAhead : Bool := nHeight pindex > nHeight chainActive + MIN_BLOCKS_TO_KEEP
  fAlreadyHave || (!fRequested && ((s.info pindex).nTx != 0 || !fHasMoreWork || fTooFarAhead))

/-- A block whose ancestors all have their transactions is numbered, and may
become the tip. -/
def linkBlock (addr : BlockIndex → Nat) (chainActive pindex : BlockIndex) : BlockMap :=
  let parentTx := if pindex.tail.isEmpty then 0 else (s.info pindex.tail).nChainTx
  let s := s.setInfo pindex fun i =>
    { i with nChainTx := parentTx + i.nTx, nSequenceId := s.nBlockSequenceId }
  let s := { s with nBlockSequenceId := s.nBlockSequenceId + 1 }
  if chainActive.isEmpty || !s.workLess addr pindex chainActive then s.insertCandidate pindex else s

/-- The queue of `ReceivedBlockTransactions`. Every entry that is put into it
leaves `mapBlocksUnlinked`, so the fuel is never used up. -/
def linkBlocks (addr : BlockIndex → Nat) (chainActive : BlockIndex) :
    (fuel : Nat) → (queue : List BlockIndex) → BlockMap → BlockMap
  | 0, _, s => s
  | _, [], s => s
  | fuel + 1, pindex :: queue, s =>
    let s := s.linkBlock addr chainActive pindex
    -- the newest entry stands first in the list, and last in the multimap
    let children := ((s.mapBlocksUnlinked.filter (·.1 = pindex)).map (·.2)).reverse
    linkBlocks addr chainActive fuel (queue ++ children)
      { s with mapBlocksUnlinked := s.mapBlocksUnlinked.filter (·.1 ≠ pindex) }

/-- `ReceivedBlockTransactions`. -/
def receivedBlockTransactions (net : Network) (addr : BlockIndex → Nat) (chainActive : BlockIndex)
    (nTx : Nat) (pindexNew : BlockIndex) : BlockMap :=
  let pprev := pindexNew.tail
  let fWitness := isWitnessEnabled pprev (consensusAfter net pprev)
  let s := s.setInfo pindexNew fun i =>
    { i with
      nTx := nTx
      nChainTx := 0
      nStatus := BlockStatus.raiseValidity { i.nStatus with
        haveData := true
        optWitness := i.nStatus.optWitness || fWitness } BLOCK_VALID_TRANSACTIONS }
  if pprev.isEmpty || (s.info pprev).nChainTx != 0 then
    linkBlocks addr chainActive (s.mapBlocksUnlinked.length + 1) [pindexNew] s
  else if (s.nStatus pprev).isValid BLOCK_VALID_TREE then
    { s with mapBlocksUnlinked := (pprev, pindexNew) :: s.mapBlocksUnlinked }
  else s

/-- A block that is invalid for certain is marked. -/
def markIfInvalid (pindex : BlockIndex) : Failure → BlockMap
  | .invalid _ _ false => s.setStatus pindex fun st => { st with failedValid := true }
  | _ => s

end BlockMap

/-- `TestBlockValidity`. The coins that it looks at are a view of their own. -/
def NodeState.testBlockValidity (node : Node) (nAdjustedTime : Int) (s : NodeState)
    (block : CBlock) (pindexPrev : BlockIndex) (fCheckPOW fCheckMerkleRoot : Bool) :
    Check Unit := do
  assert (!pindexPrev.isEmpty && pindexPrev == s.chain.chainActive)
    "pindexPrev && pindexPrev == chainActive.Tip()"
  s.blocks.checkIndexAgainstCheckpoint node.env pindexPrev
  contextualCheckBlockHeader node.env.net block.toCBlockHeader pindexPrev nAdjustedTime
  let block ← checkBlock node.env block fCheckPOW fCheckMerkleRoot
  contextualCheckBlock node.env block pindexPrev
  let _ ← connectBlock node.env block (block.toCBlockHeader :: pindexPrev)
    s.chain.pcoinsTip.child true
  .ok ()

/-- The two checks of a block before `AcceptBlock` stores it. -/
def checkBeforeStore (env : Env) (block : CBlock) (pprev : BlockIndex) : Check Unit := do
  let _ ← checkBlock env block true true
  contextualCheckBlock env block pprev

namespace NodeState

variable (node : Node) (nAdjustedTime : Int)

/-- `AcceptBlock`, when the disk is fine: the state after it, and whether the
block was stored. A block that is skipped is accepted and not stored. -/
def acceptBlock (s : NodeState) (block : CBlock) (fRequested : Bool) :
    Check (NodeState × Except Failure Bool) := do
  let (blocks, entry) ←
    s.blocks.acceptBlockHeader node.env node.addr nAdjustedTime block.toCBlockHeader
  match entry with
  | .error e => .ok ({ s with blocks }, .error e)
  | .ok pindex =>
    if blocks.skipsBlock s.chain.chainActive pindex fRequested then
      .ok ({ s with blocks }, .ok false)
    else match ← attempt (checkBeforeStore node.env block pindex.tail) with
      | .error e => .ok ({ s with blocks := blocks.markIfInvalid pindex e }, .error e)
      | .ok _ =>
        .ok ({ s with
          blocks := blocks.receivedBlockTransactions node.env.net node.addr s.chain.chainActive
            block.vtx.length pindex }, .ok true)

/-- `CheckBlock` and then `AcceptBlock`. -/
def checkAndAccept (s : NodeState) (block : CBlock) (fRequested : Bool) :
    Check (NodeState × Except Failure Bool) := do
  match ← attempt (checkBlock node.env block true true) with
  | .error e => .ok (s, .error e)
  | .ok block => s.acceptBlock node nAdjustedTime block fRequested

end NodeState

end junkcoin
