-- The block index as the node keeps it: the status of every entry, the
-- entries that could become the tip and those that wait for their parent, and
-- the functions that mark, clear and prune entries. Nothing here touches the
-- coins or the active chain.
import Junkcoin.SoftForks

namespace junkcoin

/-! ## Work -/

/-- `GetBlockProof`. -/
def getBlockProof (block : CBlockHeader) : Nat :=
  let (bnTarget, fNegative, fOverflow) := setCompact block.nBits
  if fNegative || fOverflow || bnTarget == 0 then 0
  else (2 ^ 256 - 1 - bnTarget) / (bnTarget + 1) + 1

/-- `nChainWork`, the sum over the entry and its ancestors. -/
def nChainWork : BlockIndex → Nat
  | [] => 0
  | b :: p => (nChainWork p + getBlockProof b) % 2 ^ 256

/-! ## The entries -/

/-- `nStatus`. The validity level is the number under `BLOCK_VALID_MASK`. -/
structure BlockStatus where
  valid : Nat := 0
  haveData : Bool := false
  haveUndo : Bool := false
  failedValid : Bool := false
  failedChild : Bool := false
  optWitness : Bool := false
  deriving DecidableEq

def BLOCK_VALID_TREE : Nat := 2

def BLOCK_VALID_TRANSACTIONS : Nat := 3

def BLOCK_VALID_SCRIPTS : Nat := 5

/-- `nStatus & BLOCK_FAILED_MASK`. -/
def BlockStatus.failed (s : BlockStatus) : Bool := s.failedValid || s.failedChild

/-- `CBlockIndex::IsValid`. -/
def BlockStatus.isValid (s : BlockStatus) (nUpTo : Nat) : Bool := !s.failed && s.valid ≥ nUpTo

/-- `CBlockIndex::RaiseValidity`. -/
def BlockStatus.raiseValidity (s : BlockStatus) (nUpTo : Nat) : BlockStatus :=
  if s.failed then s else if s.valid < nUpTo then { s with valid := nUpTo } else s

/-- `nStatus & ~BLOCK_FAILED_MASK`. -/
def BlockStatus.clearFailed (s : BlockStatus) : BlockStatus :=
  { s with failedValid := false, failedChild := false }

/-- The fields of a `CBlockIndex` that change. -/
structure BlockInfo where
  nStatus : BlockStatus := {}
  nTx : Nat := 0
  nChainTx : Nat := 0
  nSequenceId : Int := 0
  deriving DecidableEq

/-- The globals of `validation.cpp` that hold block index entries. The empty
index stands for `NULL`. -/
structure BlockMap where
  mapBlockIndex : List BlockIndex
  info : BlockIndex → BlockInfo
  setBlockIndexCandidates : List BlockIndex
  mapBlocksUnlinked : List (BlockIndex × BlockIndex)
  pindexBestInvalid : BlockIndex
  gFailedBlocks : List BlockIndex
  nBlockSequenceId : Int := 1
  nBlockReverseSequenceId : Int
  nLastPreciousChainwork : Nat
  pindexBestHeader : BlockIndex := []

/-- `chainActive.Contains(pindex)`. -/
def contains (chainActive pindex : BlockIndex) : Bool :=
  !pindex.isEmpty && pindex.isSuffixOf chainActive

theorem contains_iff {chainActive pindex : BlockIndex} :
    contains chainActive pindex = true ↔ pindex ≠ [] ∧ pindex <:+ chainActive := by
  simp [contains]

namespace BlockMap

variable (s : BlockMap) (addr : BlockIndex → Nat) (chainActive pindex : BlockIndex)

def nStatus (pindex : BlockIndex) : BlockStatus := (s.info pindex).nStatus

/-- Change the fields of one entry. -/
def setInfo (f : BlockInfo → BlockInfo) : BlockMap :=
  { s with info := fun p => if p = pindex then f (s.info p) else s.info p }

def setStatus (f : BlockStatus → BlockStatus) : BlockMap :=
  s.setInfo pindex fun i => { i with nStatus := f i.nStatus }

def eraseCandidate : BlockMap :=
  { s with setBlockIndexCandidates := s.setBlockIndexCandidates.filter (· ≠ pindex) }

def insertCandidate : BlockMap :=
  { s with setBlockIndexCandidates := s.setBlockIndexCandidates.insert pindex }

/-! ## The fields after an update -/

section Fields

variable {s} {pindex q : BlockIndex} {f : BlockInfo → BlockInfo} {g : BlockStatus → BlockStatus}

theorem setInfo_info :
    (s.setInfo pindex f).info q = if q = pindex then f (s.info q) else s.info q := rfl

theorem setStatus_info : (s.setStatus pindex g).info q =
    if q = pindex then { s.info q with nStatus := g (s.info q).nStatus } else s.info q := rfl

theorem setStatus_nStatus :
    (s.setStatus pindex g).nStatus q = if q = pindex then g (s.nStatus q) else s.nStatus q := by
  unfold nStatus
  rw [setStatus_info]
  split <;> rfl

@[simp] theorem setStatus_candidates :
    (s.setStatus pindex g).setBlockIndexCandidates = s.setBlockIndexCandidates := rfl

@[simp] theorem mem_eraseCandidate :
    q ∈ (s.eraseCandidate pindex).setBlockIndexCandidates ↔
      q ∈ s.setBlockIndexCandidates ∧ q ≠ pindex := by
  simp [eraseCandidate]

@[simp] theorem mem_insertCandidate :
    q ∈ (s.insertCandidate pindex).setBlockIndexCandidates ↔
      q = pindex ∨ q ∈ s.setBlockIndexCandidates := by
  simp [insertCandidate]

end Fields

/-- `CBlockIndexWorkComparator`. The addresses of the entries break ties, and
`addr` may be any numbering of them. -/
def workLess (pa pb : BlockIndex) : Bool :=
  if nChainWork pa > nChainWork pb then false
  else if nChainWork pa < nChainWork pb then true
  else if (s.info pa).nSequenceId < (s.info pb).nSequenceId then false
  else if (s.info pa).nSequenceId > (s.info pb).nSequenceId then true
  else addr pa > addr pb

/-! ## Invalid blocks -/

/-- The part of `FindMostWorkChain` and `InvalidChainFound` that remembers
the best chain that is known to be invalid. -/
def noteInvalid (pindexNew : BlockIndex) : BlockMap :=
  if s.pindexBestInvalid.isEmpty || nChainWork pindexNew > nChainWork s.pindexBestInvalid then
    { s with pindexBestInvalid := pindexNew }
  else s

/-- `InvalidChainFound`. -/
def invalidChainFound (pindexNew : BlockIndex) : Check BlockMap := do
  assert (!chainActive.isEmpty) "tip"
  .ok (s.noteInvalid pindexNew)

/-- `InvalidBlockFound` for a block that cannot have been corrupted. -/
def invalidBlockFound : Check BlockMap :=
  let s := s.setStatus pindex fun st => { st with failedValid := true }
  let s := { s with gFailedBlocks := s.gFailedBlocks.insert pindex }
  (s.eraseCandidate pindex).invalidChainFound chainActive pindex

/-- What `ConnectBlock` notes about a block whose undo data it wrote. -/
def blockConnected (fUndoWritten : Bool) : BlockMap :=
  if fUndoWritten || !(s.nStatus pindex).isValid BLOCK_VALID_SCRIPTS then
    s.setStatus pindex fun st =>
      BlockStatus.raiseValidity { st with haveUndo := st.haveUndo || fUndoWritten }
        BLOCK_VALID_SCRIPTS
  else s

/-- A block with its transactions that no check has failed so far. -/
def isUsable : Bool :=
  (s.nStatus pindex).isValid BLOCK_VALID_TRANSACTIONS && (s.info pindex).nChainTx != 0

/-- `InvalidateBlock` marks the blocks that it disconnected above `pindex`. -/
def markDisconnected (pindex : BlockIndex) : BlockMap → BlockIndex → BlockMap
  | s, [] => s
  | s, b :: p =>
    if b :: p = pindex then s
    else
      let s := s.setStatus (b :: p) fun st => { st with failedChild := true }
      markDisconnected pindex (s.eraseCandidate (b :: p)) p

/-- `InvalidateBlock` puts every entry back that is as good as the new tip. -/
def restoreCandidates (addr : BlockIndex → Nat) (chainActive : BlockIndex) :
    BlockMap → List BlockIndex → BlockMap
  | s, [] => s
  | s, p :: ps =>
    let s := if s.isUsable p && !s.workLess addr p chainActive then
        { s.insertCandidate p with gFailedBlocks := s.gFailedBlocks.filter (· ≠ p) }
      else s
    restoreCandidates addr chainActive s ps

/-- What `InvalidateBlock` does to the index after it disconnected.
`invalidWalkTip` is the tip from before, if the block was in the chain. -/
def invalidateBlock (invalidWalkTip : Option BlockIndex) : Check BlockMap :=
  let s := match invalidWalkTip with
    | none => s
    | some tip => markDisconnected pindex s tip
  let s := s.setStatus pindex fun st => { st with failedValid := true }
  let s := s.eraseCandidate pindex
  let s := { s with gFailedBlocks := s.gFailedBlocks.insert pindex }
  (restoreCandidates addr chainActive s s.mapBlockIndex).invalidChainFound chainActive pindex

/-! ## `ResetBlockFailureFlags` -/

/-- An entry that is better than the tip again may become the tip. -/
def readmitCandidate (p : BlockIndex) : BlockMap :=
  if s.isUsable p && s.workLess addr chainActive p then s.insertCandidate p else s

/-- Forget the best invalid block if it is this one. -/
def forgetInvalid (p : BlockIndex) : BlockMap :=
  if p = s.pindexBestInvalid then { s with pindexBestInvalid := [] } else s

/-- The body of the first loop: `p` is cleared if it descends from `pindex`.
The default of `IsValid` is `BLOCK_VALID_TRANSACTIONS`. -/
def resetEntry (s : BlockMap) (p : BlockIndex) : BlockMap :=
  if !(s.nStatus p).isValid BLOCK_VALID_TRANSACTIONS &&
      getAncestor p (nHeight pindex) == pindex then
    ((s.setStatus p BlockStatus.clearFailed).readmitCandidate addr chainActive p).forgetInvalid p
  else s

/-- The second loop: the entry and its ancestors are cleared. -/
def resetAncestors : BlockMap → BlockIndex → BlockMap
  | s, [] => s
  | s, b :: p =>
    resetAncestors (if (s.nStatus (b :: p)).failed then
      s.setStatus (b :: p) BlockStatus.clearFailed else s) p

/-- `ResetBlockFailureFlags`. The set `gFailedBlocks` stays as it is. -/
def resetBlockFailureFlags : BlockMap :=
  resetAncestors (s.mapBlockIndex.foldl (resetEntry addr chainActive pindex) s) pindex

/-! ## `PruneOneBlockFile` -/

/-- The body of the loop: an entry loses its data, and waits no longer. -/
def pruneEntry (s : BlockMap) (pindex : BlockIndex) : BlockMap :=
  let s := s.setStatus pindex fun st => { st with haveData := false, haveUndo := false }
  { s with
    mapBlocksUnlinked :=
      s.mapBlocksUnlinked.filter fun x => !(x.1 == pindex.tail && x.2 == pindex) }

/-- `PruneOneBlockFile`. `nFile` gives the file that each entry is in. -/
def pruneOneBlockFile (s : BlockMap) (nFile : BlockIndex → Nat) (fileNumber : Nat) : BlockMap :=
  s.mapBlockIndex.foldl (fun s p => if nFile p = fileNumber then s.pruneEntry p else s) s

/-- The index of a new node. -/
def empty : BlockMap where
  mapBlockIndex := []
  info _ := {}
  setBlockIndexCandidates := []
  mapBlocksUnlinked := []
  pindexBestInvalid := []
  gFailedBlocks := []
  nBlockReverseSequenceId := -1
  nLastPreciousChainwork := 0

end BlockMap

end junkcoin
