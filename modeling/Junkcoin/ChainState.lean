-- The active chain and the coins that belong to it (`DisconnectTip`,
-- `ConnectTip` and `InvalidateBlock`). A function here is one that runs under
-- `cs_main`; where the node releases the lock, the function ends.
import Junkcoin.ConnectBlock
import Junkcoin.BlockMap

namespace junkcoin

open WriteBack

/-! ## The state -/

/-- What a reader does to the cache of the node. -/
inductive CacheAction
  | fetch (txid : Uint256)
  | uncache (txid : Uint256)

/-- What a node works with and does not change. The block files hold blocks
by their hash. The clock stands for all that is outside of the state: at
each tick the caches may be used by readers, and a flush may be due. -/
structure Node where
  env : Env
  blockFiles : Uint256 → Option CBlock
  addr : BlockIndex → Nat
  cacheUse : (nNow : Nat) → List CacheAction
  fDoFullFlush : (nNow : Nat) → Bool

/-- The coins database, the cache `pcoinsTip` on top of it, the active chain
and the undo files. -/
structure ChainState where
  coinsDB : AList fun _ : Uint256 => CCoins
  hashBestChain : Uint256
  cacheCoins : Entries Uint256 CCoins
  hashBlock : Uint256
  chainActive : BlockIndex
  undoFiles : BlockIndex → Option CBlockUndo
  nNow : Nat

structure NodeState where
  chain : ChainState
  blocks : BlockMap

/-- The failures that a caller can handle, apart from those that stop the
node. -/
def attempt {α : Type} (check : Check α) : Check (Except Failure α) :=
  match check with
  | .error (.crash what) => .error (.crash what)
  | .error e => .ok (.error e)
  | .ok a => .ok (.ok a)

/-- `ReadBlockFromDisk` for an entry of the index. -/
def Node.readBlockFromDisk (node : Node) (pindex : BlockIndex) : Check CBlock :=
  match node.blockFiles (blockHash node.env.H pindex) with
  | none => .error (.error "ReadBlockFromDisk: OpenBlockFile failed")
  | some block => do
    checkAuxPowProofOfWork node.env.H node.env.net block.toCBlockHeader
      (node.env.net.params.getConsensus (nHeight pindex).toNat)
    errorIf (block.getHash node.env.H != blockHash node.env.H pindex)
      "ReadBlockOrHeader(CBlock&, CBlockIndex*): GetHash() doesn't match index"
    .ok block

namespace ChainState

variable (s : ChainState)

def pcoinsTip : CCoinsViewCache where
  base txid := s.coinsDB.lookup txid
  baseBestBlock := s.hashBestChain
  cacheCoins := s.cacheCoins
  hashBlock := s.hashBlock

def setPcoinsTip (v : CCoinsViewCache) : ChainState :=
  { s with cacheCoins := v.cacheCoins, hashBlock := v.hashBlock }

def useCacheOnce (s : ChainState) : CacheAction → ChainState
  | .fetch txid => s.setPcoinsTip (s.pcoinsTip.fetchCoins txid)
  | .uncache txid => s.setPcoinsTip (s.pcoinsTip.uncache txid)

/-- The readers of one tick. A view on top of `pcoinsTip` is one of them: what
it looks up stays in the cache, also if the view is thrown away. -/
def useCache (node : Node) : ChainState :=
  (node.cacheUse s.nNow).foldl useCacheOnce { s with nNow := s.nNow + 1 }

/-- `pcoinsTip->Flush()` into the database. -/
def flush : ChainState :=
  { s with
    coinsDB := commit s.coinsDB s.cacheCoins
    hashBestChain := if s.hashBlock = 0 then s.hashBestChain else s.hashBlock
    cacheCoins := ∅ }

/-- `FlushStateToDisk`, when the disk is fine. -/
def flushStateToDisk (node : Node) : ChainState :=
  let s := { s with nNow := s.nNow + 1 }
  if node.fDoFullFlush s.nNow then s.flush else s

/-- `view.Flush()` into `pcoinsTip`, and then to disk if that is due. -/
def flushView (node : Node) (view : CCoinsViewCache) : Check ChainState :=
  match s.pcoinsTip.batchWrite view with
  | none => .error (.crash
      "FRESH flag misapplied to cache entry for base transaction with spendable outputs")
  | some v => .ok ((s.setPcoinsTip v).flushStateToDisk node)

/-- `ConnectBlock` writes the undo data of a block once. -/
def writeUndo (pindex : BlockIndex) (undo : Option CBlockUndo) : ChainState :=
  { s with undoFiles := fun p => if p = pindex then (s.undoFiles p).or undo else s.undoFiles p }

/-! ## One block -/

/-- `DisconnectTip`: the state after it, and why it failed if it did. -/
def disconnectTip (node : Node) : Check (ChainState × Option Failure) := do
  let pindexDelete := s.chainActive
  assert (!pindexDelete.isEmpty) "pindexDelete"
  match ← attempt (node.readBlockFromDisk pindexDelete) with
  | .error _ => .ok (s, some (.error "Failed to read block (A)"))
  | .ok block =>
    let s := s.useCache node
    match ← attempt (disconnectBlock node.env block pindexDelete (s.undoFiles pindexDelete)
        s.pcoinsTip.child) with
    | .error e => .ok (s, some e)
    | .ok (_, false) => .ok (s, some (.error "DisconnectTip(): DisconnectBlock failed"))
    | .ok (view, true) =>
      let s ← s.flushView node view
      .ok ({ s with chainActive := pindexDelete.tail }, none)

end ChainState

namespace NodeState

/-- The block to connect: the one at hand, or the one on disk. -/
def blockToConnect (node : Node) (pindexNew : BlockIndex) (pblock : Option CBlock) : Check CBlock :=
  match pblock with
  | some block => .ok block
  | none => node.readBlockFromDisk pindexNew

/-- What a failed `ConnectBlock` leaves in the index. -/
def connectFailed (blocks : BlockMap) (chainActive pindexNew : BlockIndex) :
    Failure → Check BlockMap
  | .invalid _ _ false => blocks.invalidBlockFound chainActive pindexNew
  | _ => .ok blocks

/-- What a successful `ConnectBlock` leaves in the index. -/
def connectSucceeded (blocks : BlockMap) (pindexNew : BlockIndex) (fUndoNull : Bool) :
    Option CBlockUndo → BlockMap
  | none => blocks
  | some _ => blocks.blockConnected pindexNew fUndoNull

/-- `ConnectTip`: the state after it, and why it failed if it did. -/
def connectTip (node : Node) (s : NodeState) (pindexNew : BlockIndex) (pblock : Option CBlock) :
    Check (NodeState × Option Failure) := do
  assert (pindexNew.tail == s.chain.chainActive) "pindexNew->pprev == chainActive.Tip()"
  match ← attempt (blockToConnect node pindexNew pblock) with
  | .error _ => .ok (s, some (.error "Failed to read block (B)"))
  | .ok block =>
    let chain := s.chain.useCache node
    match ← attempt (connectBlock node.env block pindexNew chain.pcoinsTip.child false) with
    | .error e =>
      let blocks ← connectFailed s.blocks chain.chainActive pindexNew e
      .ok ({ chain, blocks }, some e)
    | .ok (view, undo) =>
      let fUndoNull := (chain.undoFiles pindexNew).isNone
      let chain ← (chain.writeUndo pindexNew undo).flushView node view
      .ok ({ chain := { chain with chainActive := pindexNew }
             blocks := connectSucceeded s.blocks pindexNew fUndoNull undo }, none)

/-! ## The calls -/

/-- The loop of `InvalidateBlock` that disconnects. -/
def disconnectUntilGone (node : Node) (pindex : BlockIndex) :
    (fuel : Nat) → ChainState → Check (ChainState × Option Failure)
  | 0, s => .ok (s, none)
  | fuel + 1, s =>
    if contains s.chainActive pindex then do
      match ← s.disconnectTip node with
      | (s, some e) => .ok (s, some e)
      | (s, none) => disconnectUntilGone node pindex fuel s
    else .ok (s, none)

/-- `InvalidateBlock`: the state after it, and whether it returned true. -/
def invalidateBlock (node : Node) (s : NodeState) (pindex : BlockIndex) :
    Check (NodeState × Bool) := do
  let invalidWalkTip := if contains s.chain.chainActive pindex then some s.chain.chainActive
    else none
  match ← disconnectUntilGone node pindex s.chain.chainActive.length s.chain with
  | (chain, some _) => .ok ({ s with chain }, false)
  | (chain, none) =>
    let blocks ← s.blocks.invalidateBlock node.addr chain.chainActive pindex invalidWalkTip
    .ok ({ chain, blocks }, true)

end NodeState

end junkcoin
