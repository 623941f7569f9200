-- Which blocks to ask a peer for: `FindNextBlocksToDownload` walks up from the
-- last block in common with the peer, in batches that it reads off backwards.
import Junkcoin.AcceptBlock

namespace junkcoin

variable {g : CBlockHeader}

/-! ## Ancestors through `pskip` -/

/-- `InvertLowestOne`. -/
def invertLowestOne (n : Nat) : Nat := n &&& (n - 1)

/-- `GetSkipHeight`. -/
def getSkipHeight (height : Nat) : Nat :=
  if height < 2 then 0
  else if height &&& 1 ≠ 0 then invertLowestOne (invertLowestOne (height - 1)) + 1
  else invertLowestOne height

theorem invertLowestOne_le (n : Nat) : invertLowestOne n ≤ n - 1 := Nat.and_le_right

theorem getSkipHeight_lt {height : Nat} (h : 0 < height) : getSkipHeight height < height := by
  have h1 := invertLowestOne_le height
  have h2 := invertLowestOne_le (height - 1)
  have h3 := invertLowestOne_le (invertLowestOne (height - 1))
  unfold getSkipHeight
  split
  · exact h
  · split <;> omega

namespace CBlockIndex

/-- What `BuildSkip` stores in `pskip`. -/
def pskip (pindex : BlockIndex) : BlockIndex :=
  junkcoin.getAncestor pindex.tail (getSkipHeight (nHeight pindex).toNat)

/-- The loop of `GetAncestor`. -/
def ancestorLoop (height heightWalk : Nat) (pindexWalk : BlockIndex) : Check BlockIndex :=
  if h : height < heightWalk then
    let heightSkip := getSkipHeight heightWalk
    let heightSkipPrev := getSkipHeight (heightWalk - 1)
    -- only follow pskip if pprev->pskip isn't better than pskip->pprev
    if pskip pindexWalk ≠ [] ∧ (heightSkip = height ∨ heightSkip > height ∧
        ¬ (heightSkipPrev + 2 < heightSkip ∧ heightSkipPrev ≥ height)) then
      ancestorLoop height heightSkip (pskip pindexWalk)
    else do
      assert (pindexWalk.tail ≠ []) "pindexWalk->pprev"
      ancestorLoop height (heightWalk - 1) pindexWalk.tail
  else .ok pindexWalk
termination_by heightWalk
decreasing_by
  · exact getSkipHeight_lt (by omega)
  · omega

/-- `CBlockIndex::GetAncestor`, with the walk over `pskip` and `pprev`. -/
def getAncestor (pindex : BlockIndex) (height : Int) : Check BlockIndex :=
  if height > nHeight pindex ∨ height < 0 then .ok []
  else ancestorLoop height.toNat (nHeight pindex).toNat pindex

theorem pskip_entry {chain : BlockIndex} {k : Nat} (hk : k < chain.length) (hpos : 0 < k) :
    pskip (junkcoin.getAncestor chain k) = junkcoin.getAncestor chain (getSkipHeight k : Nat) := by
  obtain ⟨k, rfl⟩ := Nat.exists_eq_add_of_le' hpos
  have hlt := getSkipHeight_lt hpos
  have hdown : k < chain.length := by omega
  rw [pskip, nHeight_entry hk, tail_entry hk, Int.toNat_natCast]
  refine (getAncestor_of_suffix (getAncestor_suffix chain k) ?_).symm
  rw [nHeight_entry hdown]
  omega

/-- The walk stays on the chain and never fails. -/
theorem ancestorLoop_eq (chain : BlockIndex) {height heightWalk : Nat}
    (hle : height ≤ heightWalk) (hlt : heightWalk < chain.length) :
    ancestorLoop height heightWalk (junkcoin.getAncestor chain heightWalk) =
      .ok (junkcoin.getAncestor chain height) := by
  induction heightWalk using Nat.strong_induction_on with
  | _ heightWalk ih =>
    unfold ancestorLoop
    by_cases h : height < heightWalk
    · have hskip := getSkipHeight_lt (Nat.zero_lt_of_lt h)
      obtain ⟨k, rfl⟩ := Nat.exists_eq_add_of_le' (Nat.zero_lt_of_lt h)
      rw [dif_pos h, pskip_entry hlt (Nat.succ_pos k), tail_entry hlt]
      dsimp only
      split
      · exact ih _ hskip (by omega) (by omega)
      · rw [assert_bind (by simpa using entry_ne_nil (by omega))]
        exact ih k (Nat.lt_succ_self k) (by omega) (by omega)
    · obtain rfl : height = heightWalk := by omega
      rw [dif_neg h]

theorem getAncestor_eq (pindex : BlockIndex) (height : Int) :
    getAncestor pindex height = .ok (junkcoin.getAncestor pindex height) := by
  unfold getAncestor
  by_cases h : height > nHeight pindex ∨ height < 0
  · rw [if_pos h, junkcoin.getAncestor, if_pos h]
  · rw [if_neg h]
    have hlen : nHeight pindex = pindex.length - 1 := rfl
    obtain ⟨k, rfl⟩ := Int.eq_ofNat_of_zero_le (show 0 ≤ height by omega)
    have htop : ((pindex.length - 1 : Nat) : Int) = nHeight pindex - (0 : Nat) := by omega
    have hloop := ancestorLoop_eq pindex (show k ≤ pindex.length - 1 by omega)
      (by omega)
    rw [htop, getAncestor_back, List.drop_zero] at hloop
    rw [← hloop, Int.toNat_natCast]
    congr 1
    omega

end CBlockIndex

/-! ## The last block in common -/

/-- The loop of `LastCommonAncestor`. -/
def lastCommonLoop : BlockIndex → BlockIndex → BlockIndex × BlockIndex
  | [], pb => ([], pb)
  | a :: pa, [] => (a :: pa, [])
  | a :: pa, b :: pb =>
    if a :: pa = b :: pb then (a :: pa, b :: pb) else lastCommonLoop pa pb

/-- `LastCommonAncestor`. -/
def lastCommonAncestor (pa pb : BlockIndex) : Check BlockIndex := do
  let (pa, pb) ←
    if nHeight pa > nHeight pb then do pure (← CBlockIndex.getAncestor pa (nHeight pb), pb)
    else if nHeight pb > nHeight pa then do pure (pa, ← CBlockIndex.getAncestor pb (nHeight pa))
    else pure (pa, pb)
  let (pa, pb) := lastCommonLoop pa pb
  -- eventually all chain branches meet at the genesis block
  assert (pa = pb) "pa == pb"
  pure pa

/-- A part of a chain has the chain's genesis. -/
theorem genesis_of_suffix {p q : BlockIndex} (hq : [g] <:+ q) (hp : p <:+ q) (hne : p ≠ []) :
    [g] <:+ p :=
  List.suffix_of_suffix_length_le hq hp (List.length_pos_of_ne_nil hne)

theorem lastCommonLoop_spec {pa pb : BlockIndex} (ha : [g] <:+ pa) (hb : [g] <:+ pb)
    (hlen : pa.length = pb.length) :
    ∃ p, lastCommonLoop pa pb = (p, p) ∧ p ≠ [] ∧ p <:+ pa ∧ p <:+ pb := by
  induction pa generalizing pb with
  | nil => exact absurd (List.suffix_nil.mp ha) (List.cons_ne_nil _ _)
  | cons a pa ih =>
    obtain - | ⟨b, pb⟩ := pb
    · cases hlen
    · unfold lastCommonLoop
      by_cases heq : a :: pa = b :: pb
      · rw [if_pos heq, ← heq]
        exact ⟨_, rfl, List.cons_ne_nil _ _, List.suffix_rfl, List.suffix_rfl⟩
      · have hlen' : pa.length = pb.length := Nat.succ.inj hlen
        have hne : pa ≠ [] := by
          rintro rfl
          have hpb : pb = [] := List.length_eq_zero_iff.mp hlen'.symm
          subst hpb
          exact heq ((ha.eq_of_length rfl).symm.trans (hb.eq_of_length rfl))
        have hne' : pb ≠ [] := fun h => hne (List.length_eq_zero_iff.mp (by rw [hlen', h]; rfl))
        obtain ⟨p, hp, hpne, hpa, hpb⟩ := ih
          (genesis_of_suffix ha (List.suffix_cons a pa) hne)
          (genesis_of_suffix hb (List.suffix_cons b pb) hne') hlen'
        rw [if_neg heq]
        exact ⟨p, hp, hpne, hpa.trans (List.suffix_cons a pa), hpb.trans (List.suffix_cons b pb)⟩

theorem lastCommonAncestor_spec {pa pb : BlockIndex} (ha : [g] <:+ pa) (hb : [g] <:+ pb) :
    ∃ p, lastCommonAncestor pa pb = .ok p ∧ p ≠ [] ∧ p <:+ pa ∧ p <:+ pb := by
  have hposa := ha.length_le
  have hposb := hb.length_le
  -- the taller chain is cut down to the height of the other one
  have hcut {tall low : BlockIndex} (ht : [g] <:+ tall) (hl : 1 ≤ low.length)
      (h : low.length ≤ tall.length) :
      [g] <:+ getAncestor tall (nHeight low) ∧
        (getAncestor tall (nHeight low)).length = low.length := by
    have hheight : nHeight (getAncestor tall (nHeight low)) = nHeight low :=
      nHeight_getAncestor (by rw [nHeight]; omega) (by rw [nHeight, nHeight]; omega)
    have hlen : (getAncestor tall (nHeight low)).length = low.length := by
      have htop : nHeight (getAncestor tall (nHeight low)) =
        (getAncestor tall (nHeight low)).length - 1 := rfl
      have hlow : nHeight low = low.length - 1 := rfl
      omega
    exact ⟨genesis_of_suffix ht (getAncestor_suffix _ _) (List.ne_nil_of_length_pos (by omega)),
      hlen⟩
  have hmeet {qa qb : BlockIndex} (hqa : [g] <:+ qa) (hqb : [g] <:+ qb)
      (hlen : qa.length = qb.length) (hsa : qa <:+ pa) (hsb : qb <:+ pb) :
      ∃ p, (do assert ((lastCommonLoop qa qb).1 = (lastCommonLoop qa qb).2) "pa == pb"
               pure (lastCommonLoop qa qb).1 : Check BlockIndex) = .ok p ∧
        p ≠ [] ∧ p <:+ pa ∧ p <:+ pb := by
    obtain ⟨p, hp, hne, hpa, hpb⟩ := lastCommonLoop_spec hqa hqb hlen
    refine ⟨p, ?_, hne, hpa.trans hsa, hpb.trans hsb⟩
    rw [hp, assert_bind (by simp)]
    rfl
  unfold lastCommonAncestor
  by_cases h1 : nHeight pa > nHeight pb
  · obtain ⟨hg, hlen⟩ := hcut ha hposb (by rw [nHeight, nHeight] at h1; omega)
    rw [if_pos h1, CBlockIndex.getAncestor_eq]
    exact hmeet hg hb hlen (getAncestor_suffix _ _) List.suffix_rfl
  · by_cases h2 : nHeight pb > nHeight pa
    · obtain ⟨hg, hlen⟩ := hcut hb hposa (by rw [nHeight, nHeight] at h2; omega)
      rw [if_neg h1, if_pos h2, CBlockIndex.getAncestor_eq]
      exact hmeet ha hg hlen.symm List.suffix_rfl (getAncestor_suffix _ _)
    · rw [if_neg h1, if_neg h2]
      exact hmeet ha hb (by rw [nHeight, nHeight] at h1 h2; omega) List.suffix_rfl List.suffix_rfl

/-! ## The walk -/

/-- The part of a peer's `CNodeState` that tells what it has. -/
structure CNodeState where
  pindexBestKnownBlock : BlockIndex
  hashLastUnknownBlock : Uint256
  pindexLastCommonBlock : BlockIndex
  fHaveWitness : Bool

def BLOCK_DOWNLOAD_WINDOW : Nat := 1024

/-- What the choice of blocks reads: the block index, the active chain, the
peer that each block in flight was asked of, and the consensus parameters. -/
structure DownloadView where
  H : Hashes
  blocks : BlockMap
  chainActive : BlockIndex
  mapBlocksInFlight : Uint256 → Option NodeId
  consensusParams : Params

/-- The locals and references of `FindNextBlocksToDownload` that its walk
changes. -/
structure BlockWalk where
  vBlocks : List BlockIndex
  pindexLastCommonBlock : BlockIndex
  waitingfor : NodeId
  nodeStaller : NodeId

/-- What `FindNextBlocksToDownload` leaves. -/
structure NextBlocks where
  state : CNodeState
  vBlocks : List BlockIndex
  nodeStaller : NodeId

namespace DownloadView

variable (view : DownloadView)

/-- `ProcessBlockAvailability`. -/
def processBlockAvailability (state : CNodeState) : CNodeState :=
  if state.hashLastUnknownBlock ≠ 0 then
    match view.blocks.findBlock view.H state.hashLastUnknownBlock with
    | none => state
    | some pindex =>
      if nChainWork pindex > 0 then
        { state with
          pindexBestKnownBlock :=
            if state.pindexBestKnownBlock = [] ∨
              nChainWork pindex ≥ nChainWork state.pindexBestKnownBlock then pindex
            else state.pindexBestKnownBlock
          hashLastUnknownBlock := 0 }
      else state
  else state

/-- The peer has nothing interesting. -/
def nothingInteresting (state : CNodeState) : Bool :=
  state.pindexBestKnownBlock = [] ||
    nChainWork state.pindexBestKnownBlock < nChainWork view.chainActive

/-- Guess the forking point if there is none yet, and go back to an ancestor
of the peer's best block. -/
def updateLastCommonBlock (state : CNodeState) : Check CNodeState := do
  let guess :=
    if state.pindexLastCommonBlock = [] then
      getAncestor view.chainActive
        (min (nHeight state.pindexBestKnownBlock) (nHeight view.chainActive))
    else state.pindexLastCommonBlock
  let pindexLastCommonBlock ← lastCommonAncestor guess state.pindexBestKnownBlock
  pure { state with pindexLastCommonBlock := pindexLastCommonBlock }

/-- The entries from `pindexWalk` back, as many as are fetched, lowest
first. -/
def fillToFetch : Nat → BlockIndex → List BlockIndex → List BlockIndex
  | 0, _, vToFetch => vToFetch
  | i + 1, pindex, vToFetch => fillToFetch i pindex.tail (pindex :: vToFetch)

/-- One block of the walk; the second part tells whether the function
returns. -/
def visit (nodeid : NodeId) (count : Nat) (fHaveWitness : Bool) (nWindowEnd : Int)
    (pindex : BlockIndex) (w : BlockWalk) : BlockWalk × Bool :=
  if !(view.blocks.nStatus pindex).isValid BLOCK_VALID_TREE then
    -- we consider the chain that this peer is on invalid
    (w, true)
  else if !fHaveWitness && isWitnessEnabled pindex.tail view.consensusParams then
    -- we wouldn't download this block or its descendants from this peer
    (w, true)
  else if (view.blocks.nStatus pindex).haveData || contains view.chainActive pindex then
    if (view.blocks.info pindex).nChainTx ≠ 0 then
      ({ w with pindexLastCommonBlock := pindex }, false)
    else (w, false)
  else
    match view.mapBlocksInFlight (blockHash view.H pindex) with
    | none =>
      if nHeight pindex > nWindowEnd then
        if w.vBlocks.length = 0 ∧ w.waitingfor ≠ nodeid then
          ({ w with nodeStaller := w.waitingfor }, true)
        else (w, true)
      else ({ w with vBlocks := w.vBlocks ++ [pindex] }, w.vBlocks.length + 1 = count)
    | some peer => if w.waitingfor = -1 then ({ w with waitingfor := peer }, false) else (w, false)

/-- The blocks of one batch. -/
def visitAll (nodeid : NodeId) (count : Nat) (fHaveWitness : Bool) (nWindowEnd : Int) :
    List BlockIndex → BlockWalk → BlockWalk × Bool
  | [], w => (w, false)
  | pindex :: vToFetch, w =>
    let (w, fReturn) := view.visit nodeid count fHaveWitness nWindowEnd pindex w
    if fReturn then (w, true)
    else visitAll nodeid count fHaveWitness nWindowEnd vToFetch w

/-- The outer loop, `none` if it is still going. The `int` made of what is
missing to `count` wraps as `std::max<int>` makes it. -/
def walkLoop (nodeid : NodeId) (count : Nat) (fHaveWitness : Bool) (best : BlockIndex)
    (nWindowEnd nMaxHeight : Int) : Nat → BlockIndex → BlockWalk → Check (Option BlockWalk)
  | 0, _, _ => .ok none
  | fuel + 1, pindexWalk, w =>
    if nHeight pindexWalk < nMaxHeight then do
      let missing := Int.bmod (count - w.vBlocks.length) (2 ^ 32)
      let nToFetch := min (nMaxHeight - nHeight pindexWalk) (max missing 128)
      let pindexWalk ← CBlockIndex.getAncestor best (nHeight pindexWalk + nToFetch)
      let (w, fReturn) := view.visitAll nodeid count fHaveWitness nWindowEnd
        (fillToFetch nToFetch.toNat pindexWalk []) w
      if fReturn then pure (some w)
      else walkLoop nodeid count fHaveWitness best nWindowEnd nMaxHeight fuel pindexWalk w
    else pure (some w)

/-- `FindNextBlocksToDownload`. -/
def findNextBlocksToDownload (fuel : Nat) (nodeid : NodeId) (count : Nat)
    (vBlocks : List BlockIndex) (nodeStaller : NodeId) (state : CNodeState) :
    Check (Option NextBlocks) := do
  if count = 0 then return some ⟨state, vBlocks, nodeStaller⟩
  let state := view.processBlockAvailability state
  if view.nothingInteresting state then return some ⟨state, vBlocks, nodeStaller⟩
  let state ← view.updateLastCommonBlock state
  if state.pindexLastCommonBlock = state.pindexBestKnownBlock then
    return some ⟨state, vBlocks, nodeStaller⟩
  let nWindowEnd := nHeight state.pindexLastCommonBlock + BLOCK_DOWNLOAD_WINDOW
  let nMaxHeight := min (nHeight state.pindexBestKnownBlock) (nWindowEnd + 1)
  let w ← view.walkLoop nodeid count state.fHaveWitness state.pindexBestKnownBlock nWindowEnd
    nMaxHeight fuel state.pindexLastCommonBlock
    ⟨vBlocks, state.pindexLastCommonBlock, -1, nodeStaller⟩
  return w.map fun w =>
    ⟨{ state with pindexLastCommonBlock := w.pindexLastCommonBlock }, w.vBlocks, w.nodeStaller⟩

/-! ## What the walk keeps -/

/-- The walk from `start` towards `best` goes over this block. -/
structure Walked (best start b : BlockIndex) : Prop where
  entry : b ≠ []
  ancestor : b <:+ best
  above : nHeight start < nHeight b
  within : nHeight b ≤ nHeight start + BLOCK_DOWNLOAD_WINDOW + 1

/-- A block that is worth asking for. -/
structure Wanted (best start b : BlockIndex) : Prop where
  entry : b ≠ []
  ancestor : b <:+ best
  noData : (view.blocks.nStatus b).haveData = false
  notActive : contains view.chainActive b = false
  notInFlight : view.mapBlocksInFlight (blockHash view.H b) = none
  validTree : (view.blocks.nStatus b).isValid BLOCK_VALID_TREE = true
  inWindow : nHeight b ≤ nHeight start + BLOCK_DOWNLOAD_WINDOW

/-- The peer has a block of the walk in flight. -/
def HoldsUp (best start : BlockIndex) (peer : NodeId) : Prop :=
  ∃ b, Walked best start b ∧ view.mapBlocksInFlight (blockHash view.H b) = some peer

/-- The walk has come up to a height. -/
structure Sound (count : Nat) (best start : BlockIndex) (nodeStaller : NodeId) (height : Int)
    (w : BlockWalk) : Prop where
  few : w.vBlocks.length ≤ count
  wanted : ∀ b ∈ w.vBlocks, view.Wanted best start b
  below : ∀ b ∈ w.vBlocks, nHeight b ≤ height
  sorted : w.vBlocks.Pairwise (nHeight · < nHeight ·)
  waiting : w.waitingfor = -1 ∨ view.HoldsUp best start w.waitingfor
  staller : w.nodeStaller = nodeStaller ∨ w.nodeStaller = -1 ∨
    view.HoldsUp best start w.nodeStaller

section Walk

variable {view} {count : Nat} {best start : BlockIndex} {nodeStaller : NodeId} {w : BlockWalk}
  {i : Int} {k : Nat}

theorem Sound.mono {j : Int} (h : view.Sound count best start nodeStaller i w) (hij : i ≤ j) :
    view.Sound count best start nodeStaller j w :=
  { h with below := fun b hb => (h.below b hb).trans hij }

/-- A block above those found so far is added at the end. -/
theorem Sound.push {b : BlockIndex} (h : view.Sound count best start nodeStaller i w)
    (hroom : w.vBlocks.length < count) (hb : view.Wanted best start b) (hi : i < nHeight b) :
    view.Sound count best start nodeStaller (nHeight b) { w with vBlocks := w.vBlocks ++ [b] } where
  few := by
    rw [List.length_append, List.length_singleton]
    exact hroom
  wanted := by
    intro c hc
    obtain hc | hc := List.mem_append.mp hc
    · exact h.wanted c hc
    · exact List.mem_singleton.mp hc ▸ hb
  below := by
    intro c hc
    obtain hc | hc := List.mem_append.mp hc
    · exact (h.below c hc).trans hi.le
    · exact (congrArg nHeight (List.mem_singleton.mp hc)).le
  sorted := by
    refine List.pairwise_append.mpr ⟨h.sorted, List.pairwise_singleton _ _, fun c hc d hd => ?_⟩
    rw [List.mem_singleton.mp hd]
    exact Int.lt_of_le_of_lt (h.below c hc) hi
  waiting := h.waiting
  staller := h.staller

/-- One block: the walk goes on only with room for another one. -/
theorem visit_spec (nodeid : NodeId) (fHaveWitness : Bool) {b : BlockIndex}
    (h : view.Sound count best start nodeStaller i w) (hroom : w.vBlocks.length < count)
    (hb : Walked best start b) (hi : i < nHeight b) :
    ∃ w' fReturn, view.visit nodeid count fHaveWitness (nHeight start + BLOCK_DOWNLOAD_WINDOW) b
        w = (w', fReturn) ∧
      view.Sound count best start nodeStaller (nHeight b) w' ∧
      (fReturn = false → w'.vBlocks.length < count) := by
  have hup := h.mono hi.le
  unfold visit
  by_cases hvalid : (view.blocks.nStatus b).isValid BLOCK_VALID_TREE = true
  swap
  · rw [if_pos (by simpa using hvalid)]
    exact ⟨_, _, rfl, hup, fun _ => hroom⟩
  rw [if_neg (by simpa using hvalid)]
  split
  · exact ⟨_, _, rfl, hup, fun _ => hroom⟩
  split
  · split
    · exact ⟨_, _, rfl, { hup with }, fun _ => hroom⟩
    · exact ⟨_, _, rfl, hup, fun _ => hroom⟩
  rename_i hdata
  simp only [Bool.or_eq_true, not_or, Bool.not_eq_true] at hdata
  split
  · rename_i hflight
    by_cases hwin : nHeight b > nHeight start + BLOCK_DOWNLOAD_WINDOW
    · rw [if_pos hwin]
      split
      · -- the staller becomes the peer that the walk waits for
        exact ⟨_, _, rfl, { hup with staller := .inr h.waiting }, fun _ => hroom⟩
      · exact ⟨_, _, rfl, hup, fun _ => hroom⟩
    · rw [if_neg hwin]
      have hwant : view.Wanted best start b :=
        ⟨hb.entry, hb.ancestor, hdata.1, hdata.2, hflight, hvalid, Int.not_lt.mp hwin⟩
      refine ⟨_, _, rfl, h.push hroom hwant hi, fun hgo => ?_⟩
      rw [decide_eq_false_iff_not] at hgo
      rw [List.length_append, List.length_singleton]
      omega
  · rename_i peer hflight
    split
    · exact ⟨_, _, rfl, { hup with waiting := .inr ⟨b, hb, hflight⟩ }, fun _ => hroom⟩
    · exact ⟨_, _, rfl, hup, fun _ => hroom⟩

/-- The entries of a chain above a height, lowest first. -/
def entriesAbove (best : BlockIndex) (k n : Nat) : List BlockIndex :=
  (List.range' (k + 1) n).map fun (i : Nat) => getAncestor best i

/-- What is read off backwards is the next stretch of the chain. -/
theorem fillToFetch_eq {n : Nat} (hn : k + n < best.length) (vToFetch : List BlockIndex) :
    fillToFetch n (getAncestor best (k + n : Nat)) vToFetch =
      entriesAbove best k n ++ vToFetch := by
  induction n generalizing vToFetch with
  | zero => rfl
  | succ n ih =>
    rw [fillToFetch, ← Nat.add_assoc, tail_entry (by omega), ih (by omega), entriesAbove,
      entriesAbove, List.range'_1_concat, List.map_append, List.append_assoc, Nat.add_right_comm]
    rfl

theorem visitAll_spec (nodeid : NodeId) (fHaveWitness : Bool) {n : Nat}
    (h : view.Sound count best start nodeStaller k w) (hroom : w.vBlocks.length < count)
    (hwalk : ∀ i, k < i → i ≤ k + n → Walked best start (getAncestor best (i : Nat)))
    (hlen : k + n < best.length) :
    ∃ w' fReturn, view.visitAll nodeid count fHaveWitness (nHeight start + BLOCK_DOWNLOAD_WINDOW)
        (entriesAbove best k n) w = (w', fReturn) ∧
      view.Sound count best start nodeStaller (k + n : Nat) w' ∧
      (fReturn = false → w'.vBlocks.length < count) := by
  induction n generalizing k w with
  | zero => exact ⟨w, false, rfl, h, fun _ => hroom⟩
  | succ n ih =>
    have hheight : nHeight (getAncestor best (k + 1 : Nat)) = (k + 1 : Nat) :=
      nHeight_entry (by omega)
    obtain ⟨w₁, fReturn, hvisit, h₁, hroom₁⟩ := visit_spec nodeid fHaveWitness h hroom
      (hwalk (k + 1) (by omega) (by omega)) (by rw [hheight]; omega)
    rw [hheight] at h₁
    have hnext : entriesAbove best k (n + 1) =
      getAncestor best (k + 1 : Nat) :: entriesAbove best (k + 1) n := rfl
    rw [hnext, visitAll, hvisit]
    cases fReturn with
    | true => exact ⟨w₁, true, rfl, h₁.mono (by omega), nofun⟩
    | false =>
      obtain ⟨w', fReturn, heq, h', hroom'⟩ := ih h₁ (hroom₁ rfl)
        (fun i hi hle => hwalk i (by omega) (by omega)) (by omega)
      exact ⟨w', fReturn, heq, h'.mono (by omega), hroom'⟩

/-- From a height below the last one the walk comes to its end, with any
amount of fuel above what is left to climb. -/
theorem walkLoop_spec (nodeid : NodeId) (fHaveWitness : Bool) {top : Nat}
    (h : view.Sound count best start nodeStaller k w) (hroom : w.vBlocks.length < count)
    (hwalk : ∀ i, k < i → i ≤ top → Walked best start (getAncestor best (i : Nat))) (hk : k ≤ top)
    (hlen : top < best.length) :
    ∃ w', (∀ fuel, top - k < fuel → view.walkLoop nodeid count fHaveWitness best
        (nHeight start + BLOCK_DOWNLOAD_WINDOW) top fuel (getAncestor best k) w = .ok (some w')) ∧
      view.Sound count best start nodeStaller top w' := by
  induction hd : top - k using Nat.strong_induction_on generalizing k w with
  | _ d ih =>
    have hheight : nHeight (getAncestor best k) = k := nHeight_entry (by omega)
    by_cases hlast : k = top
    · refine ⟨w, fun fuel hfuel => ?_, h.mono (by omega)⟩
      obtain ⟨fuel, rfl⟩ := Nat.exists_eq_add_of_lt hfuel
      rw [walkLoop, hheight, if_neg (by omega)]
      rfl
    · -- a batch of at least one block
      obtain ⟨n, hn, hpos, hle⟩ : ∃ n : Nat, min ((top : Int) - k)
          (max (Int.bmod (count - w.vBlocks.length) (2 ^ 32)) 128) = n ∧ 0 < n ∧ k + n ≤ top := by
        refine ⟨(min ((top : Int) - k)
          (max (Int.bmod (count - w.vBlocks.length) (2 ^ 32)) 128)).toNat, ?_, ?_, ?_⟩ <;> omega
      obtain ⟨w₁, fReturn, heq, h₁, hroom₁⟩ := visitAll_spec nodeid fHaveWitness h hroom
        (fun i hi hin => hwalk i hi (by omega)) (show k + n < best.length by omega)
      have hstep (fuel : Nat) : view.walkLoop nodeid count fHaveWitness best
          (nHeight start + BLOCK_DOWNLOAD_WINDOW) top (fuel + 1) (getAncestor best k) w =
          if fReturn then .ok (some w₁) else view.walkLoop nodeid count fHaveWitness best
            (nHeight start + BLOCK_DOWNLOAD_WINDOW) top fuel (getAncestor best (k + n : Nat))
            w₁ := by
        have hup : (k : Int) + n = (k + n : Nat) := by omega
        rw [walkLoop, hheight, if_pos (by omega)]
        dsimp only
        rw [hn, hup, CBlockIndex.getAncestor_eq, ok_bind, Int.toNat_natCast,
          fillToFetch_eq (by omega), List.append_nil, heq]
        rfl
      cases fReturn with
      | true =>
        refine ⟨w₁, fun fuel hfuel => ?_, h₁.mono (by omega)⟩
        obtain ⟨fuel, rfl⟩ := Nat.exists_eq_add_of_lt hfuel
        exact hstep _
      | false =>
        obtain ⟨w', hw', h'⟩ := ih (top - (k + n)) (by omega) h₁ (hroom₁ rfl)
          (fun i hi hin => hwalk i (by omega) hin) hle rfl
        refine ⟨w', fun fuel hfuel => ?_, h'⟩
        obtain ⟨fuel, rfl⟩ := Nat.exists_eq_succ_of_ne_zero (Nat.ne_zero_of_lt hfuel)
        exact (hstep fuel).trans (hw' fuel (by omega))

end Walk

/-! ## The blocks found -/

/-- The index is a tree: its entries have one genesis, and the active chain is
among them. -/
structure OneTree : Prop where
  genesis : ∃ g, ∀ p ∈ view.blocks.mapBlockIndex, [g] <:+ p
  active : view.chainActive ∈ view.blocks.mapBlockIndex

/-- A pointer into the index, or `NULL`. -/
def Known (p : BlockIndex) : Prop := p = [] ∨ p ∈ view.blocks.mapBlockIndex

variable {view} {state : CNodeState}

theorem Known.processBlockAvailability (h : view.Known state.pindexBestKnownBlock) :
    view.Known (view.processBlockAvailability state).pindexBestKnownBlock := by
  unfold DownloadView.processBlockAvailability
  split
  · split
    · exact h
    · rename_i pindex hfind
      split
      · split
        · exact .inr (List.mem_of_find?_eq_some hfind)
        · exact h
      · exact h
  · exact h

theorem processBlockAvailability_last (state : CNodeState) :
    (view.processBlockAvailability state).pindexLastCommonBlock =
      state.pindexLastCommonBlock := by
  unfold DownloadView.processBlockAvailability
  split
  · split
    · rfl
    · split <;> rfl
  · rfl

/-- The walk starts from an ancestor of the peer's best block. -/
theorem updateLastCommonBlock_spec (htree : view.OneTree)
    (hbest : view.Known state.pindexBestKnownBlock) (hne : state.pindexBestKnownBlock ≠ [])
    (hlast : view.Known state.pindexLastCommonBlock) :
    ∃ start, view.updateLastCommonBlock state =
        .ok { state with pindexLastCommonBlock := start } ∧
      start ≠ [] ∧ start <:+ state.pindexBestKnownBlock := by
  obtain ⟨g, hg⟩ := htree.genesis
  have hbest' := hg _ (hbest.resolve_left hne)
  have hguess : [g] <:+ (if state.pindexLastCommonBlock = [] then
      getAncestor view.chainActive
        (min (nHeight state.pindexBestKnownBlock) (nHeight view.chainActive))
      else state.pindexLastCommonBlock) := by
    split
    · have hactive := hg _ htree.active
      refine genesis_of_suffix hactive (getAncestor_suffix _ _) fun hnil => ?_
      have h0 : 0 ≤ min (nHeight state.pindexBestKnownBlock) (nHeight view.chainActive) := by
        have h1 := hbest'.length_le
        have h2 := hactive.length_le
        rw [List.length_singleton] at h1 h2
        rw [nHeight, nHeight]
        omega
      have hheight := nHeight_getAncestor h0 (min_le_right _ (nHeight view.chainActive))
      rw [hnil, nHeight, List.length_nil] at hheight
      omega
    · exact hg _ (hlast.resolve_left ‹_›)
  obtain ⟨start, hstart, hsne, -, hsbest⟩ := lastCommonAncestor_spec hguess hbest'
  refine ⟨start, ?_, hsne, hsbest⟩
  unfold updateLastCommonBlock
  dsimp only
  rw [hstart]
  rfl

/-- At most `count` distinct blocks of the peer's chain, in the order of their
heights, each missing here, valid so far, not asked for and within the window
of the block where the walk started. The staller is left, or is `-1` or a peer
with a block of the walk in flight. -/
structure Useful (view : DownloadView) (count : Nat) (nodeStaller : NodeId) (state : CNodeState)
    (r : NextBlocks) : Prop where
  few : r.vBlocks.length ≤ count
  distinct : r.vBlocks.Nodup
  increasing : r.vBlocks.Pairwise (nHeight · < nHeight ·)
  wanted : ∀ b ∈ r.vBlocks, ∃ start,
    view.updateLastCommonBlock (view.processBlockAvailability state) = .ok start ∧
      view.Wanted r.state.pindexBestKnownBlock start.pindexLastCommonBlock b
  staller : r.nodeStaller = nodeStaller ∨ r.nodeStaller = -1 ∨ ∃ start,
    view.updateLastCommonBlock (view.processBlockAvailability state) = .ok start ∧
      view.HoldsUp r.state.pindexBestKnownBlock start.pindexLastCommonBlock r.nodeStaller

theorem Useful.nothing (count : Nat) (nodeStaller : NodeId) (state s : CNodeState) :
    Useful view count nodeStaller state ⟨s, [], nodeStaller⟩ :=
  ⟨Nat.zero_le _, List.nodup_nil, List.Pairwise.nil, nofun, .inl rfl⟩

/-- The walk from the last block in common. -/
theorem walk_spec (view : DownloadView) (nodeid : NodeId) {count : Nat} (hcount : count ≠ 0)
    (nodeStaller : NodeId) (fHaveWitness : Bool) {best start : BlockIndex}
    (hne : start ≠ []) (hstart : start <:+ best)
    (hlt : start ≠ best) :
    ∃ w, (∀ fuel, BLOCK_DOWNLOAD_WINDOW + 1 < fuel → view.walkLoop nodeid count fHaveWitness best
        (nHeight start + BLOCK_DOWNLOAD_WINDOW)
        (min (nHeight best) (nHeight start + BLOCK_DOWNLOAD_WINDOW + 1)) fuel start
        ⟨[], start, -1, nodeStaller⟩ = .ok (some w)) ∧
      ∃ top, view.Sound count best start nodeStaller top w := by
  have hpos := List.length_pos_of_ne_nil hne
  have hless : start.length < best.length :=
    Nat.lt_of_le_of_ne hstart.length_le fun h => hlt (hstart.eq_of_length h)
  have hheight : nHeight start = (start.length - 1 : Nat) := by rw [nHeight]; omega
  have hself : getAncestor best (start.length - 1 : Nat) = start := by
    rw [← hheight]
    exact (getAncestor_eq_iff hne).mpr hstart
  obtain ⟨top, htop, hup, hlen, hwin⟩ : ∃ top : Nat,
      min (nHeight best) (nHeight start + BLOCK_DOWNLOAD_WINDOW + 1) = top ∧
      start.length - 1 ≤ top ∧ top < best.length ∧
      top ≤ start.length - 1 + BLOCK_DOWNLOAD_WINDOW + 1 := by
    have hbest : nHeight best = (best.length - 1 : Nat) := by rw [nHeight]; omega
    refine ⟨min (best.length - 1) (start.length - 1 + BLOCK_DOWNLOAD_WINDOW + 1), ?_, ?_, ?_, ?_⟩
    all_goals omega
  have hwalk : ∀ i, start.length - 1 < i → i ≤ top →
      Walked best start (getAncestor best (i : Nat)) := by
    intro i hi hle
    have hi' : nHeight (getAncestor best (i : Nat)) = i := nHeight_entry (by omega)
    exact ⟨entry_ne_nil (by omega), getAncestor_suffix _ _, by omega, by omega⟩
  have hfresh : view.Sound count best start nodeStaller (start.length - 1 : Nat)
      ⟨[], start, -1, nodeStaller⟩ :=
    ⟨Nat.zero_le _, fun _ h => absurd h List.not_mem_nil, fun _ h => absurd h List.not_mem_nil,
      List.Pairwise.nil, .inl rfl, .inl rfl⟩
  obtain ⟨w, hw, hsound⟩ := walkLoop_spec nodeid fHaveWitness hfresh (Nat.pos_of_ne_zero hcount)
    hwalk hup hlen
  rw [hself] at hw
  rw [htop]
  exact ⟨w, fun fuel hfuel => hw fuel (by omega), top, hsound⟩

/-- Whatever the tree, the blocks in flight and the peer: the function ends,
and what it finds is useful. -/
theorem next_blocks_useful (htree : view.OneTree) (nodeid : NodeId) (count : Nat)
    (nodeStaller : NodeId) (state : CNodeState) (hbest : view.Known state.pindexBestKnownBlock)
    (hlast : view.Known state.pindexLastCommonBlock) :
    ∃ r : NextBlocks,
      (∀ fuel, BLOCK_DOWNLOAD_WINDOW + 1 < fuel →
        view.findNextBlocksToDownload fuel nodeid count [] nodeStaller state = .ok (some r)) ∧
      Useful view count nodeStaller state r := by
  unfold findNextBlocksToDownload
  by_cases h0 : count = 0
  · exact ⟨⟨state, [], nodeStaller⟩, fun _ _ => by rw [if_pos h0]; rfl, .nothing ..⟩
  simp only [if_neg h0]
  have hbest₁ := hbest.processBlockAvailability
  have hlast₁ : view.Known (view.processBlockAvailability state).pindexLastCommonBlock :=
    (processBlockAvailability_last state).symm ▸ hlast
  by_cases hint : view.nothingInteresting (view.processBlockAvailability state) = true
  · exact ⟨⟨_, [], nodeStaller⟩, fun _ _ => by rw [if_pos hint]; rfl, .nothing ..⟩
  have hne : (view.processBlockAvailability state).pindexBestKnownBlock ≠ [] := by
    intro hnil
    exact hint (by simp [nothingInteresting, hnil])
  obtain ⟨start, hstart, hsne, hsbest⟩ := updateLastCommonBlock_spec htree hbest₁ hne hlast₁
  simp only [if_neg hint, hstart, ok_bind]
  by_cases heq : start = (view.processBlockAvailability state).pindexBestKnownBlock
  · exact ⟨⟨_, [], nodeStaller⟩, fun _ _ => by rw [if_pos heq]; rfl, .nothing ..⟩
  simp only [if_neg heq]
  obtain ⟨w, hw, top, hsound⟩ := walk_spec view nodeid h0 nodeStaller
    (view.processBlockAvailability state).fHaveWitness hsne hsbest heq
  refine ⟨⟨{ view.processBlockAvailability state with
    pindexLastCommonBlock := w.pindexLastCommonBlock }, w.vBlocks, w.nodeStaller⟩,
    fun fuel hfuel => by rw [hw fuel hfuel]; rfl, ?_⟩
  exact {
    few := hsound.few
    distinct := hsound.sorted.imp fun hlt heq => (heq ▸ hlt).ne rfl
    increasing := hsound.sorted
    wanted := fun b hb => ⟨_, hstart, hsound.wanted b hb⟩
    staller := hsound.staller.imp_right fun h => h.imp_right fun h => ⟨_, hstart, h⟩ }

/-- A node with nothing but genesis, and the header of one more block. -/
def oneAhead : DownloadView where
  H := CAuxPow.sampleHashes
  blocks := { BlockMap.empty with
    mapBlockIndex := [[genesisHeader 0 0], [genesisHeader 60 1, genesisHeader 0 0]]
    info := fun _ => { nStatus := { valid := BLOCK_VALID_TREE } } }
  chainActive := [genesisHeader 0 0]
  mapBlocksInFlight := fun _ => none
  consensusParams := Network.main.params.getConsensus 0

/-- The peer that announced it. -/
def oneAheadPeer : CNodeState where
  pindexBestKnownBlock := [genesisHeader 60 1, genesisHeader 0 0]
  hashLastUnknownBlock := 0
  pindexLastCommonBlock := []
  fHaveWitness := true

/-- The one block is found. -/
theorem next_blocks_useful_one_ahead : ∃ r : NextBlocks,
    oneAhead.findNextBlocksToDownload 1026 7 16 [] (-1) oneAheadPeer = .ok (some r) ∧
      r.vBlocks = [oneAheadPeer.pindexBestKnownBlock] ∧
      Useful oneAhead 16 (-1) oneAheadPeer r := by
  have htree : oneAhead.OneTree := by
    refine ⟨⟨genesisHeader 0 0, ?_⟩, List.mem_cons_self⟩
    intro p hp
    simp only [oneAhead, List.mem_cons, List.not_mem_nil, or_false] at hp
    obtain rfl | rfl := hp
    · exact List.suffix_rfl
    · exact List.suffix_cons _ _
  obtain ⟨r, hr, huseful⟩ := next_blocks_useful htree 7 16 (-1) oneAheadPeer
    (.inr (List.mem_cons_of_mem _ List.mem_cons_self)) (.inl rfl)
  have hfound : okWith (oneAhead.findNextBlocksToDownload 1026 7 16 [] (-1) oneAheadPeer)
      (fun r => r.map (·.vBlocks) == some [oneAheadPeer.pindexBestKnownBlock]) = true := by
    decide +kernel
  rw [hr 1026 (by decide)] at hfound
  exact ⟨r, hr 1026 (by decide), Option.some.inj (beq_iff_eq.mp hfound), huseful⟩

end DownloadView

end junkcoin
