-- The block files and how they are pruned: `FindBlockPos` puts a block into a
-- file and keeps a summary of each file, and `FindFilesToPrune` and the
-- `pruneblockchain` call go by these summaries. No file goes that holds one
-- of the last `MIN_BLOCKS_TO_KEEP` blocks, on any branch.
import Junkcoin.IndexSpecs
import Junkcoin.ProcessNewBlock

namespace junkcoin

open BlockMap

namespace BlockMap

/-! ## The entries after `PruneOneBlockFile` -/

section Prune

variable {s : BlockMap} {p q : BlockIndex} {nFile : BlockIndex → Nat} {fileNumber : Nat}
  {l : List BlockIndex}

/-- An entry without its data. -/
def withoutData (i : BlockInfo) : BlockInfo :=
  { i with nStatus := { i.nStatus with haveData := false, haveUndo := false } }

theorem pruneOneBlockFile_info (s : BlockMap) (nFile : BlockIndex → Nat) (fileNumber : Nat)
    (q : BlockIndex) : (s.pruneOneBlockFile nFile fileNumber).info q =
    if q ∈ s.mapBlockIndex ∧ nFile q = fileNumber then withoutData (s.info q) else s.info q := by
  have hloop : ∀ (l : List BlockIndex) (s : BlockMap), (l.foldl (fun s p =>
      if nFile p = fileNumber then s.pruneEntry p else s) s).info q =
      if q ∈ l ∧ nFile q = fileNumber then withoutData (s.info q) else s.info q := by
    intro l
    induction l with
    | nil => simp
    | cons p l ih =>
      intro s
      rw [List.foldl_cons, ih]
      by_cases hqp : q = p
      · subst hqp
        by_cases hfile : nFile q = fileNumber
        · have hself : (s.pruneEntry q).info q = withoutData (s.info q) := if_pos rfl
          by_cases hl : q ∈ l <;> simp [hl, hfile, hself, withoutData]
        · simp [hfile]
      · have hother : (if nFile p = fileNumber then s.pruneEntry p else s).info q = s.info q := by
          split
          · exact if_neg hqp
          · rfl
        rw [hother]
        simp [hqp]
  exact hloop _ s

theorem pruneOneBlockFile_keeps {α : Type} (field : BlockMap → α)
    (hstatus : ∀ s p f, field (setStatus s p f) = field s)
    (hunl : ∀ (s : BlockMap) l, field { s with mapBlocksUnlinked := l } = field s) :
    field (s.pruneOneBlockFile nFile fileNumber) = field s := by
  refine foldl_keeps field fun s p => ?_
  split
  · exact (hunl _ _).trans (hstatus s p _)
  · rfl

end Prune

end BlockMap

/-! ## The summary of a file -/

def MAX_BLOCKFILE_SIZE : Nat := 0x8000000

def BLOCKFILE_CHUNK_SIZE : Nat := 0x1000000

def UNDOFILE_CHUNK_SIZE : Nat := 0x100000

/-- The conversion to `unsigned int`. -/
def unsignedInt (n : Int) : Nat := (n % 2 ^ 32).toNat

structure CBlockFileInfo where
  nBlocks : Nat := 0
  nSize : Nat := 0
  nUndoSize : Nat := 0
  nHeightFirst : Nat := 0
  nHeightLast : Nat := 0
  nTimeFirst : Nat := 0
  nTimeLast : Nat := 0
  deriving DecidableEq

/-- `AddBlock`. -/
def CBlockFileInfo.addBlock (info : CBlockFileInfo) (nHeightIn nTimeIn : Nat) : CBlockFileInfo :=
  { info with
    nHeightFirst :=
      if info.nBlocks = 0 || info.nHeightFirst > nHeightIn then nHeightIn else info.nHeightFirst
    nTimeFirst :=
      if info.nBlocks = 0 || info.nTimeFirst > nTimeIn then nTimeIn else info.nTimeFirst
    nBlocks := info.nBlocks + 1
    nHeightLast := if nHeightIn > info.nHeightLast then nHeightIn else info.nHeightLast
    nTimeLast := if nTimeIn > info.nTimeLast then nTimeIn else info.nTimeLast }

structure CDiskBlockPos where
  nFile : Nat
  nPos : Nat
  deriving DecidableEq

/-- `PruneAfterHeight` of the three networks. -/
def Network.pruneAfterHeight : Network → Nat
  | .main => 518400
  | .test => 100000
  | .regtest => 100000

/-- The index with the places of the blocks, the summaries, and what is in
the files: every block that was stored in a file since it was last pruned. -/
structure FileNode where
  blocks : BlockMap
  chainActive : BlockIndex
  nFile : BlockIndex → Nat
  nDataPos : BlockIndex → Nat
  nUndoPos : BlockIndex → Nat
  vinfoBlockFile : List CBlockFileInfo
  nLastBlockFile : Nat
  fCheckForPruning : Bool
  blkFiles : List (Nat × BlockIndex)

namespace FileNode

variable (s : FileNode)

/-- `vinfoBlockFile[nFile]`. -/
def fileInfo (nFile : Nat) : CBlockFileInfo := Trim.get {} s.vinfoBlockFile nFile

/-- Change the summary of a file, which `resize` has made if it was not
there. -/
def setFileInfo (nFile : Nat) (info : CBlockFileInfo) : FileNode :=
  { s with vinfoBlockFile := Trim.put {} s.vinfoBlockFile nFile info }

/-! ## Blocks and undo data -/

/-- The loop of `FindBlockPos`: the first file from the last one on that has
room. Nothing where even a new file has none, so that the loop would not
end. -/
def findRoom (nAddSize : Nat) : (nFile : Nat) → List CBlockFileInfo → Option Nat
  | nFile, [] => if nAddSize ≥ MAX_BLOCKFILE_SIZE then none else some nFile
  | nFile, info :: vinfo =>
    if unsignedInt (info.nSize + nAddSize) ≥ MAX_BLOCKFILE_SIZE then
      findRoom nAddSize (nFile + 1) vinfo
    else some nFile

/-- The chunks that a file of the given size takes. -/
def chunks (size nPos : Nat) : Nat := (nPos + size - 1) / size

/-- `FindBlockPos`, with a place that is known or not. The last component is
false where there is no space left. -/
def findBlockPos (dbp : Option CDiskBlockPos) (nAddSize nHeight nTime : Nat) (space : Bool) :
    Option (FileNode × CDiskBlockPos × Bool) :=
  match dbp with
  | some pos =>
    let info := (s.fileInfo pos.nFile).addBlock nHeight nTime
    let s := { s with nLastBlockFile := pos.nFile }
    some (s.setFileInfo pos.nFile { info with nSize := max (pos.nPos + nAddSize) info.nSize },
      pos, true)
  | none =>
    match findRoom nAddSize s.nLastBlockFile (s.vinfoBlockFile.drop s.nLastBlockFile) with
    | none => none
    | some nFile =>
      let info := s.fileInfo nFile
      let pos : CDiskBlockPos := ⟨nFile, info.nSize⟩
      let s := { s with nLastBlockFile := nFile }.setFileInfo nFile
        { info.addBlock nHeight nTime with nSize := info.nSize + nAddSize }
      if chunks BLOCKFILE_CHUNK_SIZE (info.nSize + nAddSize) >
          chunks BLOCKFILE_CHUNK_SIZE info.nSize then
        some ({ s with fCheckForPruning := true }, pos, space)
      else some (s, pos, true)

variable (net : Network) (addr : BlockIndex → Nat)

/-- The end of `AcceptBlock`: the block is written and its entry gets its
place. -/
def storeBlock (pindex : BlockIndex) (nTx nBlockSize nTime : Nat) (dbp : Option CDiskBlockPos)
    (space : Bool) : Option FileNode :=
  match s.findBlockPos dbp (nBlockSize + 8) (nHeight pindex).toNat nTime space with
  | none => none
  | some (s, _, false) => some s
  | some (s, pos, true) => some
    { s with
      blkFiles := (pos.nFile, pindex) :: s.blkFiles
      blocks := s.blocks.receivedBlockTransactions net addr s.chainActive nTx pindex
      nFile := Function.update s.nFile pindex pos.nFile
      nDataPos := Function.update s.nDataPos pindex pos.nPos
      nUndoPos := Function.update s.nUndoPos pindex 0 }

/-- `FindUndoPos` and the end of `ConnectBlock`: the undo data goes to the
file of the same number. -/
def writeUndo (pindex : BlockIndex) (nAddSize : Nat) (space : Bool) : FileNode :=
  let info := s.fileInfo (s.nFile pindex)
  let nNewSize := info.nUndoSize + nAddSize
  let grown := chunks UNDOFILE_CHUNK_SIZE nNewSize > chunks UNDOFILE_CHUNK_SIZE info.nUndoSize
  let s := s.setFileInfo (s.nFile pindex) { info with nUndoSize := nNewSize }
  let s := { s with fCheckForPruning := s.fCheckForPruning || grown }
  if grown && !space then s
  else
    { s with
      blocks := s.blocks.blockConnected pindex true
      nUndoPos := Function.update s.nUndoPos pindex info.nUndoSize }

/-! ## Pruning -/

/-- A field of the entries that are in a file goes back to zero. -/
def resetIn (fileNumber : Nat) (field : BlockIndex → Nat) (p : BlockIndex) : Nat :=
  if s.blocks.mapBlockIndex.contains p && s.nFile p == fileNumber then 0 else field p

/-- `PruneOneBlockFile`. -/
def pruneOneBlockFile (fileNumber : Nat) : FileNode :=
  { s with
    blocks := s.blocks.pruneOneBlockFile s.nFile fileNumber
    nFile := s.resetIn fileNumber s.nFile
    nDataPos := s.resetIn fileNumber s.nDataPos
    nUndoPos := s.resetIn fileNumber s.nUndoPos
    blkFiles := s.blkFiles.filter (·.1 ≠ fileNumber) }.setFileInfo fileNumber {}

/-- The loop of `FindFilesToPruneManual`, with the files that were pruned. -/
def pruneUpTo (nLastBlockWeCanPrune : Nat) : FileNode → List Nat → FileNode × List Nat
  | s, [] => (s, [])
  | s, fileNumber :: files =>
    if (s.fileInfo fileNumber).nSize = 0 ||
        (s.fileInfo fileNumber).nHeightLast > nLastBlockWeCanPrune then
      s.pruneUpTo nLastBlockWeCanPrune files
    else
      let (s, setFilesToPrune) :=
        (s.pruneOneBlockFile fileNumber).pruneUpTo nLastBlockWeCanPrune files
      (s, fileNumber :: setFilesToPrune)

/-- `FindFilesToPruneManual`. -/
def findFilesToPruneManual (nManualPruneHeight : Int) : FileNode × List Nat :=
  if s.chainActive.isEmpty then (s, [])
  else
    s.pruneUpTo
      (min (unsignedInt nManualPruneHeight)
        (unsignedInt (nHeight s.chainActive - MIN_BLOCKS_TO_KEEP)))
      (List.range s.nLastBlockFile)

/-- `CalculateCurrentUsage`. -/
def calculateCurrentUsage : Nat :=
  s.vinfoBlockFile.foldl
    (fun retval file => (retval + unsignedInt (file.nSize + file.nUndoSize)) % 2 ^ 64) 0

/-- The space that is left for the next allocation. -/
def nBuffer : Nat := BLOCKFILE_CHUNK_SIZE + UNDOFILE_CHUNK_SIZE

/-- The loop of `FindFilesToPrune`, with the files that were pruned. -/
def pruneToTarget (nPruneTarget nLastBlockWeCanPrune : Nat) :
    FileNode → (nCurrentUsage : Nat) → List Nat → FileNode × List Nat
  | s, _, [] => (s, [])
  | s, nCurrentUsage, fileNumber :: files =>
    let info := s.fileInfo fileNumber
    let nBytesToPrune := unsignedInt (info.nSize + info.nUndoSize)
    if info.nSize = 0 then
      s.pruneToTarget nPruneTarget nLastBlockWeCanPrune nCurrentUsage files
    else if (nCurrentUsage + nBuffer) % 2 ^ 64 < nPruneTarget then (s, [])
    else if info.nHeightLast > nLastBlockWeCanPrune then
      s.pruneToTarget nPruneTarget nLastBlockWeCanPrune nCurrentUsage files
    else
      let (s, setFilesToPrune) := (s.pruneOneBlockFile fileNumber).pruneToTarget nPruneTarget
        nLastBlockWeCanPrune ((nCurrentUsage + 2 ^ 64 - nBytesToPrune) % 2 ^ 64) files
      (s, fileNumber :: setFilesToPrune)

/-- `FindFilesToPrune`. -/
def findFilesToPrune (nPruneTarget nPruneAfterHeight : Nat) : FileNode × List Nat :=
  if s.chainActive.isEmpty || nPruneTarget = 0 then (s, [])
  else if nHeight s.chainActive ≤ nPruneAfterHeight then (s, [])
  else if (s.calculateCurrentUsage + nBuffer) % 2 ^ 64 ≥ nPruneTarget then
    s.pruneToTarget nPruneTarget (unsignedInt (nHeight s.chainActive - MIN_BLOCKS_TO_KEEP))
      s.calculateCurrentUsage (List.range s.nLastBlockFile)
  else (s, [])

/-- The start of `FlushStateToDisk`, in prune mode. -/
def pruneBlockFiles (nPruneTarget : Nat) (nManualPruneHeight : Int) : FileNode × List Nat :=
  if nManualPruneHeight > 0 then s.findFilesToPruneManual nManualPruneHeight
  else if s.fCheckForPruning then
    let (s, setFilesToPrune) := s.findFilesToPrune nPruneTarget net.pruneAfterHeight
    ({ s with fCheckForPruning := false }, setFilesToPrune)
  else (s, [])

end FileNode

/-! ## The `pruneblockchain` call -/

/-- `nTimeMax`, the latest time up to an entry. -/
def nTimeMax : BlockIndex → Nat
  | [] => 0
  | b :: p => max (nTimeMax p) b.nTime.toNat

/-- `FindEarliestAtLeast`: the lowest entry of the chain with such a time. -/
def findEarliestAtLeast (chainActive : BlockIndex) (nTime : Int) : Option BlockIndex :=
  (pathAbove [] chainActive).reverse.find? fun p => decide (nTime ≤ nTimeMax p)

namespace FileNode

/-- The height a parameter of `pruneblockchain` stands for: above a billion it
is a time. -/
def heightOf (s : FileNode) (heightParam : Int) : Except String Int :=
  if heightParam > 1000000000 then
    match findEarliestAtLeast s.chainActive (heightParam - 7200) with
    | none => .error "Could not find block with at least the specified timestamp."
    | some pindex => .ok (nHeight pindex)
  else .ok heightParam

/-- `pruneblockchain` in prune mode, up to what it flushes, with the files
that were pruned. -/
def pruneblockchain (net : Network) (nPruneTarget : Nat) (s : FileNode) (heightParam : Int) :
    Except String (FileNode × List Nat) :=
  if heightParam < 0 then .error "Negative block height."
  else do
    let height := unsignedInt (← s.heightOf heightParam)
    let chainHeight := unsignedInt (nHeight s.chainActive)
    if chainHeight < net.pruneAfterHeight then .error "Blockchain is too short for pruning."
    else if height > chainHeight then
      .error "Blockchain is shorter than the attempted prune height."
    else
      let keep := unsignedInt (chainHeight - MIN_BLOCKS_TO_KEEP)
      let height := if height > keep then keep else height
      .ok (s.pruneBlockFiles net nPruneTarget (if height < 2 ^ 31 then height else height - 2 ^ 32))

end FileNode

/-! ## Runs -/

/-- What happens between two rounds of pruning, and the rounds. -/
inductive FileEvent
  /-- Any other change of the index. -/
  | index (blocks : BlockMap)
  /-- Blocks are connected or disconnected. -/
  | tip (chainActive : BlockIndex)
  | storeBlock (pindex : BlockIndex) (nTx nBlockSize nTime : Nat) (dbp : Option CDiskBlockPos)
      (space : Bool)
  | writeUndo (pindex : BlockIndex) (nAddSize : Nat) (space : Bool)
  | findFilesToPrune (nPruneTarget : Nat)
  | pruneblockchain (nPruneTarget : Nat) (heightParam : Int)

namespace FileNode

/-- A node without blocks. -/
def start : FileNode where
  blocks := empty
  chainActive := []
  nFile _ := 0
  nDataPos _ := 0
  nUndoPos _ := 0
  vinfoBlockFile := []
  nLastBlockFile := 0
  fCheckForPruning := false
  blkFiles := []

/-- One event, with the files that it prunes. -/
def step (net : Network) (addr : BlockIndex → Nat) (s : FileNode) :
    FileEvent → Option (FileNode × List Nat)
  | .index blocks => some ({ s with blocks }, [])
  | .tip chainActive => some ({ s with chainActive }, [])
  | .storeBlock pindex nTx nBlockSize nTime dbp space =>
    (s.storeBlock net addr pindex nTx nBlockSize nTime dbp space).map fun s => (s, [])
  | .writeUndo pindex nAddSize space => some (s.writeUndo pindex nAddSize space, [])
  | .findFilesToPrune nPruneTarget => some (s.findFilesToPrune nPruneTarget net.pruneAfterHeight)
  | .pruneblockchain nPruneTarget heightParam =>
    match s.pruneblockchain net nPruneTarget heightParam with
    | .ok r => some r
    | .error _ => some (s, [])

/-- No entry is lost, and only `ReceivedBlockTransactions` says that an entry
has its data. -/
def Proper (s : FileNode) : FileEvent → Prop
  | .index blocks => (∀ p ∈ s.blocks.mapBlockIndex, p ∈ blocks.mapBlockIndex) ∧
      ∀ p, (blocks.nStatus p).haveData = true → (s.blocks.nStatus p).haveData = true
  | .storeBlock pindex _ _ _ _ _ => pindex ∈ s.blocks.mapBlockIndex
  | _ => True

end FileNode

/-- The nodes that are reached. -/
inductive FileRun (net : Network) (addr : BlockIndex → Nat) : FileNode → Prop
  | start : FileRun net addr .start
  | step {s s' : FileNode} {pruned : List Nat} (e : FileEvent) : FileRun net addr s → s.Proper e →
      s.step net addr e = some (s', pruned) → FileRun net addr s'

/-! ## The summaries are right -/

namespace FileNode

/-- No block in a file, by the files or by the index, is above the summary of
the file. -/
structure Summed (s : FileNode) : Prop where
  stored : ∀ f p, (f, p) ∈ s.blkFiles → nHeight p ≤ (s.fileInfo f).nHeightLast
  placed : ∀ p, (s.blocks.nStatus p).haveData = true →
    p ∈ s.blocks.mapBlockIndex ∧ nHeight p ≤ (s.fileInfo (s.nFile p)).nHeightLast

section Summed

variable {s s' : FileNode} {net : Network} {addr : BlockIndex → Nat} {p : BlockIndex}
  {f height nPruneTarget : Nat} {dbp : Option CDiskBlockPos} {limit : Int} {files : List Nat}

theorem fileInfo_setFileInfo (s : FileNode) (n m : Nat) (info : CBlockFileInfo) :
    (s.setFileInfo n info).fileInfo m = if m = n then info else s.fileInfo m :=
  Trim.get_put _ _ _ _ _

theorem summed_start : start.Summed := by
  constructor
  · intro f p hp
    cases hp
  · intro p hp
    cases hp

/-- The summaries may grow. -/
theorem Summed.mono (h : s.Summed) (hfiles : s'.blkFiles = s.blkFiles)
    (hmap : ∀ p ∈ s.blocks.mapBlockIndex, p ∈ s'.blocks.mapBlockIndex)
    (hdata : ∀ p, (s'.blocks.nStatus p).haveData = true → (s.blocks.nStatus p).haveData = true)
    (hplace : s'.nFile = s.nFile)
    (hinfo : ∀ f, (s.fileInfo f).nHeightLast ≤ (s'.fileInfo f).nHeightLast) : s'.Summed := by
  constructor
  · intro f p hp
    rw [hfiles] at hp
    have := h.stored f p hp
    have := hinfo f
    omega
  · intro p hp
    obtain ⟨hp, hheight⟩ := h.placed p (hdata p hp)
    refine ⟨hmap p hp, ?_⟩
    rw [hplace]
    have := hinfo (s.nFile p)
    omega

theorem addBlock_nHeightLast (info : CBlockFileInfo) (nHeightIn nTimeIn : Nat) :
    (info.addBlock nHeightIn nTimeIn).nHeightLast = max info.nHeightLast nHeightIn := by
  simp only [CBlockFileInfo.addBlock]
  split <;> omega

/-- `FindBlockPos` changes the summary of one file, which now covers the
height. -/
structure Placed (s s' : FileNode) (f height : Nat) : Prop where
  blkFiles : s'.blkFiles = s.blkFiles
  blocks : s'.blocks = s.blocks
  chainActive : s'.chainActive = s.chainActive
  nFile : s'.nFile = s.nFile
  grows : ∀ f, (s.fileInfo f).nHeightLast ≤ (s'.fileInfo f).nHeightLast
  covers : height ≤ (s'.fileInfo f).nHeightLast

theorem Placed.of_setFileInfo {info : CBlockFileInfo}
    (hinfo : info.nHeightLast = max (s.fileInfo f).nHeightLast height) :
    Placed s (s.setFileInfo f info) f height := by
  refine ⟨rfl, rfl, rfl, rfl, fun g => ?_, ?_⟩
  · rw [fileInfo_setFileInfo]
    split
    · rename_i hg
      rw [hinfo, hg]
      exact Nat.le_max_left _ _
    · exact Nat.le_refl _
  · rw [fileInfo_setFileInfo, if_pos rfl, hinfo]
    exact Nat.le_max_right _ _

theorem findBlockPos_placed {nAddSize nTime : Nat} {space ok : Bool} {pos : CDiskBlockPos}
    (h : s.findBlockPos dbp nAddSize height nTime space = some (s', pos, ok)) :
    Placed s s' pos.nFile height := by
  have hadd : ∀ f size, Placed s (s.setFileInfo f
      { (s.fileInfo f).addBlock height nTime with nSize := size }) f height :=
    fun f size => .of_setFileInfo (addBlock_nHeightLast _ _ nTime)
  unfold findBlockPos at h
  split at h
  · cases h
    have hplaced := hadd pos.nFile
      (max (pos.nPos + nAddSize) ((s.fileInfo pos.nFile).addBlock height nTime).nSize)
    exact ⟨rfl, rfl, rfl, rfl, hplaced.grows, hplaced.covers⟩
  · split at h
    · cases h
    · rename_i nFile _
      have hplaced := hadd nFile ((s.fileInfo nFile).nSize + nAddSize)
      dsimp only at h
      split at h
      · cases h
        exact ⟨rfl, rfl, rfl, rfl, hplaced.grows, hplaced.covers⟩
      · cases h
        exact ⟨rfl, rfl, rfl, rfl, hplaced.grows, hplaced.covers⟩

theorem receivedBlockTransactions_haveData (b : BlockMap) (chainActive : BlockIndex) (nTx : Nat)
    (p q : BlockIndex) :
    ((b.receivedBlockTransactions net addr chainActive nTx p).nStatus q).haveData =
      if q = p then true else (b.nStatus q).haveData := by
  rw [receivedBlockTransactions_nStatus, stored_nStatus]
  split
  · simp [receivedStatus]
  · rfl

/-- `FindBlockPos` alone. -/
theorem Summed.placed_of (h : s.Summed) (hplaced : Placed s s' f height) : s'.Summed :=
  h.mono hplaced.blkFiles (fun _ hp => hplaced.blocks ▸ hp) (fun _ hp => hplaced.blocks ▸ hp)
    hplaced.nFile hplaced.grows

theorem Summed.storeBlock (h : s.Summed) (hp : p ∈ s.blocks.mapBlockIndex)
    {nTx nBlockSize nTime : Nat} {space : Bool}
    (hstore : s.storeBlock net addr p nTx nBlockSize nTime dbp space = some s') : s'.Summed := by
  unfold FileNode.storeBlock at hstore
  split at hstore
  · cases hstore
  · rename_i t _ hfind
    cases hstore
    exact h.placed_of (findBlockPos_placed hfind)
  · rename_i t pos hfind
    cases hstore
    have hplaced := findBlockPos_placed hfind
    have ht : t.Summed := h.placed_of hplaced
    have hmap : (t.blocks.receivedBlockTransactions net addr t.chainActive nTx p).mapBlockIndex =
        t.blocks.mapBlockIndex :=
      receivedBlockTransactions_keeps mapBlockIndex (fun _ _ _ => rfl)
        (fun _ _ => rfl) (fun _ _ => rfl) fun _ _ => rfl
    have hcovers : nHeight p ≤ (t.fileInfo pos.nFile).nHeightLast := by
      have := hplaced.covers
      omega
    constructor
    · intro f q hq
      rcases List.mem_cons.mp hq with heq | hq
      · cases heq
        exact hcovers
      · exact ht.stored f q hq
    · intro q hq
      rw [receivedBlockTransactions_haveData] at hq
      dsimp only
      rw [hmap]
      by_cases hqp : q = p
      · subst hqp
        rw [Function.update_self]
        exact ⟨hplaced.blocks ▸ hp, hcovers⟩
      · rw [if_neg hqp] at hq
        rw [Function.update_of_ne hqp]
        exact ht.placed q hq

theorem blockConnected_haveData (b : BlockMap) (undo : Bool) (p q : BlockIndex) :
    ((b.blockConnected p undo).nStatus q).haveData = (b.nStatus q).haveData := by
  unfold blockConnected
  split
  · rw [setStatus_nStatus]
    split
    · rw [BlockStatus.raiseValidity_haveData]
    · rfl
  · rfl

theorem Summed.writeUndo (h : s.Summed) (nAddSize : Nat) (space : Bool) :
    (s.writeUndo p nAddSize space).Summed := by
  have hinfo : ∀ f, (s.fileInfo f).nHeightLast ≤ ((s.setFileInfo (s.nFile p)
      { s.fileInfo (s.nFile p) with
        nUndoSize := (s.fileInfo (s.nFile p)).nUndoSize + nAddSize }).fileInfo f).nHeightLast := by
    intro f
    rw [fileInfo_setFileInfo]
    split
    · rename_i hf
      rw [hf]
    · exact Nat.le_refl _
  unfold FileNode.writeUndo
  dsimp only
  split
  · exact h.mono rfl (fun _ hq => hq) (fun _ hq => hq) rfl hinfo
  · refine h.mono rfl (fun _ hq => hq) (fun q hq => ?_) rfl hinfo
    rw [blockConnected_haveData] at hq
    exact hq

/-! ## One file -/

theorem pruneOneBlockFile_status (f : Nat) (q : BlockIndex) :
    (s.pruneOneBlockFile f).blocks.nStatus q =
      if q ∈ s.blocks.mapBlockIndex ∧ s.nFile q = f then
        { s.blocks.nStatus q with haveData := false, haveUndo := false }
      else s.blocks.nStatus q := by
  change ((s.blocks.pruneOneBlockFile s.nFile f).info q).nStatus = _
  rw [pruneOneBlockFile_info]
  split <;> rfl

theorem resetIn_eq (f : Nat) (field : BlockIndex → Nat) (q : BlockIndex) :
    s.resetIn f field q =
      if q ∈ s.blocks.mapBlockIndex ∧ s.nFile q = f then 0 else field q := by
  simp [resetIn]

theorem pruneOneBlockFile_fileInfo (f g : Nat) :
    (s.pruneOneBlockFile f).fileInfo g = if g = f then {} else s.fileInfo g :=
  fileInfo_setFileInfo _ _ _ _

theorem pruneOneBlockFile_map (f : Nat) :
    (s.pruneOneBlockFile f).blocks.mapBlockIndex = s.blocks.mapBlockIndex :=
  pruneOneBlockFile_keeps _ (fun _ _ _ => rfl) fun _ _ => rfl

theorem pruneOneBlockFile_blkFiles (f : Nat) :
    (s.pruneOneBlockFile f).blkFiles = s.blkFiles.filter (·.1 ≠ f) := rfl

theorem pruneOneBlockFile_nFile (f : Nat) (q : BlockIndex) :
    (s.pruneOneBlockFile f).nFile q =
      if q ∈ s.blocks.mapBlockIndex ∧ s.nFile q = f then 0 else s.nFile q :=
  resetIn_eq f s.nFile q

/-- What is left of a block in a file that is not pruned. -/
theorem Summed.pruneOneBlockFile (h : s.Summed) (f : Nat) : (s.pruneOneBlockFile f).Summed := by
  constructor
  · intro g p hp
    rw [pruneOneBlockFile_blkFiles, List.mem_filter] at hp
    obtain ⟨hp, hg⟩ := hp
    rw [pruneOneBlockFile_fileInfo, if_neg (by simpa using hg)]
    exact h.stored g p hp
  · intro p hp
    rw [pruneOneBlockFile_map, pruneOneBlockFile_nFile, pruneOneBlockFile_fileInfo]
    rw [pruneOneBlockFile_status] at hp
    split at hp
    · cases hp
    · rename_i hother
      obtain ⟨hmem, hheight⟩ := h.placed p hp
      have hf : s.nFile p ≠ f := fun hf => hother ⟨hmem, hf⟩
      rw [if_neg hother, if_neg hf]
      exact ⟨hmem, hheight⟩

/-- No entry of the index refers to the file. The file 0 is also what an
entry without a place names. -/
def Unreferenced (s : FileNode) (f : Nat) : Prop :=
  ∀ p ∈ s.blocks.mapBlockIndex, s.nFile p = f →
    f = 0 ∧ (s.blocks.nStatus p).haveData = false ∧ (s.blocks.nStatus p).haveUndo = false ∧
      s.nDataPos p = 0 ∧ s.nUndoPos p = 0

/-- An entry that is reset names no place. -/
theorem reset_entry (hp : p ∈ s.blocks.mapBlockIndex) (hf : s.nFile p = f) :
    (s.pruneOneBlockFile f).nFile p = 0 ∧
      ((s.pruneOneBlockFile f).blocks.nStatus p).haveData = false ∧
      ((s.pruneOneBlockFile f).blocks.nStatus p).haveUndo = false ∧
      (s.pruneOneBlockFile f).nDataPos p = 0 ∧ (s.pruneOneBlockFile f).nUndoPos p = 0 := by
  have hreset : ∀ field, s.resetIn f field p = 0 := by
    intro field
    rw [resetIn_eq, if_pos ⟨hp, hf⟩]
  rw [pruneOneBlockFile_status, if_pos ⟨hp, hf⟩]
  exact ⟨hreset _, rfl, rfl, hreset _, hreset _⟩

theorem kept_entry (hf : ¬ s.nFile p = f) :
    (s.pruneOneBlockFile f).nFile p = s.nFile p ∧
      (s.pruneOneBlockFile f).blocks.nStatus p = s.blocks.nStatus p ∧
      (s.pruneOneBlockFile f).nDataPos p = s.nDataPos p ∧
      (s.pruneOneBlockFile f).nUndoPos p = s.nUndoPos p := by
  have hkept : ∀ field, s.resetIn f field p = field p := by
    intro field
    rw [resetIn_eq, if_neg fun h => hf h.2]
  rw [pruneOneBlockFile_status, if_neg fun h => hf h.2]
  exact ⟨hkept _, rfl, hkept _, hkept _⟩

theorem unreferenced_pruneOneBlockFile (f : Nat) : (s.pruneOneBlockFile f).Unreferenced f := by
  intro p hp hf
  rw [pruneOneBlockFile_map] at hp
  by_cases hin : s.nFile p = f
  · obtain ⟨hzero, hrest⟩ := reset_entry hp hin
    exact ⟨hf.symm.trans hzero, hrest⟩
  · rw [(kept_entry hin).1] at hf
    exact absurd hf hin

theorem Unreferenced.pruneOneBlockFile (h : s.Unreferenced f) (g : Nat) :
    (s.pruneOneBlockFile g).Unreferenced f := by
  intro p hp hf
  rw [pruneOneBlockFile_map] at hp
  by_cases hin : s.nFile p = g
  · obtain ⟨hzero, hrest⟩ := reset_entry hp hin
    exact ⟨hf.symm.trans hzero, hrest⟩
  · obtain ⟨hfile, hstatus, hdata, hundo⟩ := kept_entry hin
    rw [hfile] at hf
    rw [hstatus, hdata, hundo]
    exact h p hp hf

/-! ## A round of pruning -/

/-- The files are pruned one after the other, none with a summary above the
limit. -/
inductive Prunes (limit : Int) : FileNode → List Nat → FileNode → Prop
  | nil (s : FileNode) : Prunes limit s [] s
  | cons {s s' : FileNode} {f : Nat} {files : List Nat} :
      (s.fileInfo f).nHeightLast ≤ limit → Prunes limit (s.pruneOneBlockFile f) files s' →
      Prunes limit s (f :: files) s'

theorem pruneUpTo_prunes {nLast : Nat} (hlimit : nLast ≤ limit) (files : List Nat) :
    Prunes limit s (s.pruneUpTo nLast files).2 (s.pruneUpTo nLast files).1 := by
  induction files generalizing s with
  | nil => exact .nil s
  | cons f files ih =>
    rw [pruneUpTo]
    split
    · exact ih
    · rename_i hlow
      simp only [Bool.or_eq_true, decide_eq_true_eq, not_or, Nat.not_lt] at hlow
      exact .cons (by omega) ih

theorem pruneToTarget_prunes {nLast : Nat} (hlimit : nLast ≤ limit) (usage : Nat)
    (files : List Nat) :
    Prunes limit s (s.pruneToTarget nPruneTarget nLast usage files).2
      (s.pruneToTarget nPruneTarget nLast usage files).1 := by
  induction files generalizing s usage with
  | nil => exact .nil s
  | cons f files ih =>
    rw [pruneToTarget]
    split
    · exact ih usage
    · split
      · exact .nil s
      · split
        · exact ih usage
        · rename_i hlow
          exact .cons (by omega) (ih _)

theorem Prunes.summed (hp : Prunes limit s files s') (h : s.Summed) : s'.Summed := by
  induction hp with
  | nil => exact h
  | cons _ _ ih => exact ih (h.pruneOneBlockFile _)

theorem Prunes.unreferenced_of (hp : Prunes limit s files s') (h : s.Unreferenced f) :
    s'.Unreferenced f := by
  induction hp with
  | nil => exact h
  | cons _ _ ih => exact ih (h.pruneOneBlockFile _)

theorem Prunes.unreferenced (hp : Prunes limit s files s') : ∀ f ∈ files, s'.Unreferenced f := by
  induction hp with
  | nil => simp
  | cons _ hrest ih =>
    intro f hf
    rcases List.mem_cons.mp hf with rfl | hf
    · exact hrest.unreferenced_of (unreferenced_pruneOneBlockFile f)
    · exact ih f hf

/-- A block is in a file, by the files or by the index. -/
def Holds (s : FileNode) (f : Nat) (p : BlockIndex) : Prop :=
  (f, p) ∈ s.blkFiles ∨ ((s.blocks.nStatus p).haveData = true ∧ s.nFile p = f)

theorem Summed.holds (h : s.Summed) (hp : s.Holds f p) :
    nHeight p ≤ (s.fileInfo f).nHeightLast := by
  rcases hp with hp | ⟨hp, rfl⟩
  · exact h.stored f p hp
  · exact (h.placed p hp).2

theorem Holds.pruneOneBlockFile {g : Nat} (h : s.Holds f p) (hne : f ≠ g) :
    (s.pruneOneBlockFile g).Holds f p := by
  rcases h with h | ⟨h, hf⟩
  · refine Or.inl ?_
    rw [pruneOneBlockFile_blkFiles, List.mem_filter]
    exact ⟨h, by simpa using hne⟩
  · obtain ⟨hfile, hstatus, _⟩ := kept_entry (s := s) (p := p) (f := g) (hf ▸ hne)
    exact Or.inr ⟨hstatus ▸ h, hfile.trans hf⟩

/-- A pruned file held nothing above the limit. -/
theorem Prunes.low (hp : Prunes limit s files s') (h : s.Summed) :
    ∀ f ∈ files, ∀ p, s.Holds f p → nHeight p ≤ limit := by
  induction hp with
  | nil => simp
  | @cons s s' g files hlow hrest ih =>
    intro f hf p hholds
    by_cases hfg : f = g
    · subst hfg
      have := h.holds hholds
      omega
    · have hf := (List.mem_cons.mp hf).resolve_left hfg
      exact ih (h.pruneOneBlockFile g) f hf p (hholds.pruneOneBlockFile hfg)

/-! ## The calls -/

/-- The height down to which blocks are kept. -/
def pruneLimit (s : FileNode) : Int := nHeight s.chainActive - MIN_BLOCKS_TO_KEEP

theorem unsignedInt_le {n : Int} (h : 0 ≤ n) : (unsignedInt n : Int) ≤ n := by
  unfold unsignedInt
  omega

theorem pruneAfterHeight_ge (net : Network) : 100000 ≤ net.pruneAfterHeight := by
  cases net <;> decide

theorem findFilesToPruneManual_prunes (nManualPruneHeight : Int)
    (hlong : s.chainActive ≠ [] → 0 ≤ s.pruneLimit) :
    Prunes s.pruneLimit s (s.findFilesToPruneManual nManualPruneHeight).2
      (s.findFilesToPruneManual nManualPruneHeight).1 := by
  unfold findFilesToPruneManual
  split
  · exact .nil s
  · rename_i hne
    refine pruneUpTo_prunes ?_ _
    have := unsignedInt_le (hlong (by simpa using hne))
    unfold pruneLimit at *
    omega

/-- The height at which pruning starts rules out that the limit wraps
around. -/
theorem findFilesToPrune_prunes (net : Network) (nPruneTarget : Nat) :
    Prunes s.pruneLimit s (s.findFilesToPrune nPruneTarget net.pruneAfterHeight).2
      (s.findFilesToPrune nPruneTarget net.pruneAfterHeight).1 := by
  unfold findFilesToPrune
  split
  · exact .nil s
  · split
    · exact .nil s
    · rename_i hhigh
      split
      · refine pruneToTarget_prunes ?_ _ _
        have hafter := pruneAfterHeight_ge net
        refine unsignedInt_le ?_
        unfold MIN_BLOCKS_TO_KEEP
        omega
      · exact .nil s

theorem pruneBlockFiles_prunes {nManualPruneHeight : Int}
    (hlong : s.chainActive ≠ [] → 0 ≤ s.pruneLimit)
    (h : s.pruneBlockFiles net nPruneTarget nManualPruneHeight = (s', files)) :
    ∃ t : FileNode, Prunes s.pruneLimit s files t ∧ (t.Summed → s'.Summed) ∧
      ∀ f, t.Unreferenced f → s'.Unreferenced f := by
  unfold pruneBlockFiles at h
  split at h
  · have hp := findFilesToPruneManual_prunes nManualPruneHeight hlong
    rw [h] at hp
    exact ⟨s', hp, id, fun _ => id⟩
  · split at h
    · cases h
      refine ⟨_, findFilesToPrune_prunes net nPruneTarget, fun ht => ?_, fun _ hu => hu⟩
      exact ⟨ht.stored, ht.placed⟩
    · cases h
      exact ⟨s, .nil s, id, fun _ => id⟩

/-- What `pruneblockchain` lets through is a chain that is long enough. -/
theorem pruneblockchain_prunes {heightParam : Int}
    (h : s.pruneblockchain net nPruneTarget heightParam = .ok (s', files)) :
    ∃ t : FileNode, Prunes s.pruneLimit s files t ∧ (t.Summed → s'.Summed) ∧
      ∀ f, t.Unreferenced f → s'.Unreferenced f := by
  unfold pruneblockchain at h
  split at h
  · cases h
  · obtain ⟨height, _, h⟩ := bind_ok h
    dsimp only at h
    split at h
    · cases h
    · rename_i hshort
      split at h
      · cases h
      · refine pruneBlockFiles_prunes (fun hne => ?_) (Except.ok.inj h)
        have hafter := pruneAfterHeight_ge net
        have hheight : 0 ≤ nHeight s.chainActive := by
          have := List.length_pos_of_ne_nil hne
          unfold nHeight
          omega
        have := unsignedInt_le hheight
        unfold pruneLimit MIN_BLOCKS_TO_KEEP
        omega

/-- Every event prunes by the summaries, if it prunes at all. -/
theorem step_prunes {e : FileEvent} (h : s.step net addr e = some (s', files)) :
    files = [] ∨ ∃ t : FileNode, Prunes s.pruneLimit s files t ∧ (t.Summed → s'.Summed) ∧
      ∀ f, t.Unreferenced f → s'.Unreferenced f := by
  cases e with
  | index blocks =>
    cases h
    exact Or.inl rfl
  | tip chainActive =>
    cases h
    exact Or.inl rfl
  | storeBlock pindex nTx nBlockSize nTime dbp space =>
    obtain ⟨_, _, h⟩ := Option.map_eq_some_iff.mp h
    cases h
    exact Or.inl rfl
  | writeUndo pindex nAddSize space =>
    cases h
    exact Or.inl rfl
  | findFilesToPrune nPruneTarget =>
    have hp := findFilesToPrune_prunes (s := s) net nPruneTarget
    rw [Option.some.inj h] at hp
    exact Or.inr ⟨s', hp, id, fun _ => id⟩
  | pruneblockchain nPruneTarget heightParam =>
    simp only [step] at h
    split at h
    · rename_i hr
      cases h
      exact Or.inr (pruneblockchain_prunes hr)
    · cases h
      exact Or.inl rfl

theorem Summed.step {e : FileEvent} (h : s.Summed) (hproper : s.Proper e)
    (hstep : s.step net addr e = some (s', files)) : s'.Summed := by
  cases e with
  | index blocks =>
    cases hstep
    exact h.mono rfl hproper.1 hproper.2 rfl fun _ => Nat.le_refl _
  | tip chainActive =>
    cases hstep
    exact h.mono rfl (fun _ hp => hp) (fun _ hp => hp) rfl fun _ => Nat.le_refl _
  | storeBlock pindex nTx nBlockSize nTime dbp space =>
    obtain ⟨_, hstore, hstep⟩ := Option.map_eq_some_iff.mp hstep
    cases hstep
    exact h.storeBlock hproper hstore
  | writeUndo pindex nAddSize space =>
    cases hstep
    exact h.writeUndo nAddSize space
  | findFilesToPrune nPruneTarget =>
    have hp := findFilesToPrune_prunes (s := s) net nPruneTarget
    rw [Option.some.inj hstep] at hp
    exact hp.summed h
  | pruneblockchain nPruneTarget heightParam =>
    simp only [FileNode.step] at hstep
    split at hstep
    · rename_i hr
      cases hstep
      obtain ⟨t, hp, hsummed, _⟩ := pruneblockchain_prunes hr
      exact hsummed (hp.summed h)
    · cases hstep
      exact h

end Summed

end FileNode

theorem FileRun.summed {net : Network} {addr : BlockIndex → Nat} {s : FileNode}
    (h : FileRun net addr s) : s.Summed := by
  induction h with
  | start => exact FileNode.summed_start
  | step e _ hproper hstep ih => exact ih.step hproper hstep

/-- On every network, whatever was stored and pruned before: no file is pruned
that holds a block within `MIN_BLOCKS_TO_KEEP` of the height of the tip, and
no entry refers to a pruned file any more. -/
theorem pruning_keeps_recent_blocks (net : Network) (addr : BlockIndex → Nat) (s s' : FileNode)
    (e : FileEvent) (pruned : List Nat) (hrun : FileRun net addr s)
    (hstep : s.step net addr e = some (s', pruned)) :
    ∀ f ∈ pruned,
      (∀ p, s.Holds f p → nHeight p ≤ nHeight s.chainActive - MIN_BLOCKS_TO_KEEP) ∧
      s'.Unreferenced f := by
  intro f hf
  rcases FileNode.step_prunes hstep with rfl | ⟨t, hp, _, hunref⟩
  · cases hf
  · exact ⟨fun p hholds => hp.low hrun.summed f hf p hholds,
      hunref f (hp.unreferenced f hf)⟩

/-- Genesis is stored at the start of a file. -/
def storeGenesis (s : FileNode) (f : Nat) : FileNode :=
  (s.storeBlock .regtest (fun _ => 0) [regTestParams.genesis] 1 200 0 (some ⟨f, 8⟩) true).getD s

theorem FileRun.storeGenesis {s : FileNode} (h : FileRun .regtest (fun _ => 0) s)
    (hmem : [regTestParams.genesis] ∈ s.blocks.mapBlockIndex) (f : Nat) :
    FileRun .regtest (fun _ => 0) (storeGenesis s f) :=
  .step (.storeBlock [regTestParams.genesis] 1 200 0 (some ⟨f, 8⟩) true) h hmem rfl

def genesisOnly : BlockMap :=
  { empty with mapBlockIndex := [[regTestParams.genesis]] }

/-- Genesis is stored in the first file and then in the second one, and the
chain has grown. -/
def prunableNode : FileNode :=
  { storeGenesis (storeGenesis { FileNode.start with blocks := genesisOnly } 0) 1 with
    chainActive := List.replicate 110000 regTestParams.genesis }

/-- The first file goes, with the block that it still holds. -/
theorem pruning_keeps_recent_blocks_of_prunable :
    prunableNode.Holds 0 [regTestParams.genesis] ∧
      ∃ s', prunableNode.step .regtest (fun _ => 0) (.findFilesToPrune 1) = some (s', [0]) ∧
        s'.Unreferenced 0 := by
  have hrun : FileRun .regtest (fun _ => 0) prunableNode := by
    have hindexed : FileRun .regtest (fun _ => 0) { FileNode.start with blocks := genesisOnly } :=
      .step (.index genesisOnly) .start ⟨fun _ hp => (nomatch hp), fun _ hp => hp⟩ rfl
    have hfirst := hindexed.storeGenesis (List.mem_singleton.mpr rfl) 0
    have hsecond := hfirst.storeGenesis (List.mem_singleton.mpr rfl) 1
    exact .step (.tip (List.replicate 110000 regTestParams.genesis)) hsecond trivial rfl
  refine ⟨Or.inl (by decide +kernel), ?_⟩
  have hheight : nHeight prunableNode.chainActive = 109999 := by
    change ((List.replicate 110000 regTestParams.genesis).length : Int) - 1 = _
    rw [List.length_replicate]
    rfl
  have hpruned : (prunableNode.findFilesToPrune 1 100000).2 = [0] := by
    have hne : prunableNode.chainActive.isEmpty = false := rfl
    unfold FileNode.findFilesToPrune
    rw [hheight, hne]
    decide +kernel
  have hcall : ∀ s : FileNode, s.step .regtest (fun _ => 0) (.findFilesToPrune 1) =
      some ((s.findFilesToPrune 1 100000).1, (s.findFilesToPrune 1 100000).2) := fun _ => rfl
  have hstep := hcall prunableNode
  rw [hpruned] at hstep
  exact ⟨_, hstep, (pruning_keeps_recent_blocks .regtest (fun _ => 0) prunableNode _ _ _ hrun hstep
    0 (List.mem_singleton.mpr rfl)).2⟩

end junkcoin
