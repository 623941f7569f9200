-- The set `gFailedBlocks` and the flags in the index that it has to agree
-- with, over any calls that find, mark or clear failed blocks. A new header
-- is compared with the set, so what is missing there or stands there wrongly
-- decides about headers much later.
import Junkcoin.IndexSpecs
import Junkcoin.ProcessNewBlock

namespace junkcoin

open NodeState

/-! ## What a call does to the index and to the chain -/

section Outcomes

variable {node : Node} {s s' : NodeState} {r : Option Failure} {p : BlockIndex}

theorem ChainState.useCache_chainActive (s : ChainState) :
    (s.useCache node).chainActive = s.chainActive := by
  have hfold : ∀ (l : List CacheAction) (s : ChainState),
      (l.foldl useCacheOnce s).chainActive = s.chainActive := by
    intro l
    induction l with
    | nil => exact fun _ => rfl
    | cons a l ih =>
      intro s
      rw [List.foldl_cons, ih]
      cases a <;> rfl
  exact hfold _ _

/-- `DisconnectTip` goes to the parent, or stays. -/
theorem ChainState.disconnectTip_chainActive {s s' : ChainState}
    (h : s.disconnectTip node = .ok (s', r)) :
    (r = none ∧ s'.chainActive = s.chainActive.tail) ∨
      (r ≠ none ∧ s'.chainActive = s.chainActive) := by
  obtain ⟨_, _, h⟩ := bind_ok h
  obtain ⟨read, _, h⟩ := bind_ok h
  split at h
  · cases h
    exact Or.inr ⟨by simp, rfl⟩
  · obtain ⟨result, _, h⟩ := bind_ok h
    split at h
    · cases h
      exact Or.inr ⟨by simp, ChainState.useCache_chainActive s⟩
    · cases h
      exact Or.inr ⟨by simp, ChainState.useCache_chainActive s⟩
    · obtain ⟨s2, _, h⟩ := bind_ok h
      cases h
      exact Or.inl ⟨rfl, rfl⟩

/-- The loop of `InvalidateBlock` goes down the chain until it has left the
block. -/
theorem disconnectUntilGone_chainActive {fuel : Nat} {s s' : ChainState}
    (h : disconnectUntilGone node p fuel s = .ok (s', r)) :
    s'.chainActive <:+ s.chainActive ∧
      (r = none → s.chainActive.length ≤ fuel → contains s'.chainActive p = false) := by
  induction fuel generalizing s with
  | zero =>
    cases h
    refine ⟨List.suffix_refl _, fun _ hlen => ?_⟩
    have hnil : s'.chainActive = [] := List.eq_nil_of_length_eq_zero (by omega)
    rw [Bool.eq_false_iff]
    intro hc
    obtain ⟨hne, hsuf⟩ := contains_iff.mp hc
    rw [hnil] at hsuf
    exact hne (List.suffix_nil.mp hsuf)
  | succ fuel ih =>
    unfold disconnectUntilGone at h
    split at h
    · obtain ⟨⟨s1, r1⟩, h1, h⟩ := bind_ok h
      have hstep := ChainState.disconnectTip_chainActive h1
      cases r1 with
      | some e =>
        cases h
        rcases hstep with ⟨hr, _⟩ | ⟨_, hsame⟩
        · cases hr
        · rw [hsame]
          exact ⟨List.suffix_refl _, fun hr => nomatch hr⟩
      | none =>
        rcases hstep with ⟨_, htail⟩ | ⟨hr, _⟩
        · obtain ⟨hsuf, hgone⟩ := ih h
          rw [htail] at hsuf hgone
          refine ⟨hsuf.trans (List.tail_suffix _), fun hr hlen => hgone hr ?_⟩
          rw [List.length_tail]
          omega
        · exact absurd rfl hr
    · rename_i hgone
      cases h
      exact ⟨List.suffix_refl _, fun _ _ => by simpa using hgone⟩

/-- What `ConnectTip` can do. -/
inductive TipOutcome (s s' : NodeState) (p : BlockIndex) : Option Failure → Prop
  | unchanged (e : Failure) (hblocks : s'.blocks = s.blocks)
      (hchain : s'.chain.chainActive = s.chain.chainActive) : TipOutcome s s' p (some e)
  | rejected (dos : Nat) (reason : String)
      (hblocks : s.blocks.invalidBlockFound s.chain.chainActive p = .ok s'.blocks)
      (hchain : s'.chain.chainActive = s.chain.chainActive) :
      TipOutcome s s' p (some (.invalid dos reason false))
  | connected (hblocks : s'.blocks = s.blocks ∨
        ∃ fUndoWritten, s'.blocks = s.blocks.blockConnected p fUndoWritten)
      (hchain : s'.chain.chainActive = p) : TipOutcome s s' p none

theorem connectTip_outcome {pblock : Option CBlock} (h : s.connectTip node p pblock = .ok (s', r)) :
    p.tail = s.chain.chainActive ∧ TipOutcome s s' p r := by
  obtain ⟨_, htip, h⟩ := bind_ok h
  rw [assert_ok, beq_iff_eq] at htip
  refine ⟨htip, ?_⟩
  have hcache : (s.chain.useCache node).chainActive = s.chain.chainActive :=
    ChainState.useCache_chainActive s.chain
  obtain ⟨got, _, h⟩ := bind_ok h
  split at h
  · cases h
    exact .unchanged _ rfl rfl
  · obtain ⟨result, _, h⟩ := bind_ok h
    split at h
    · obtain ⟨blocks, hblocks, h⟩ := bind_ok h
      cases h
      unfold connectFailed at hblocks
      split at hblocks
      · rw [hcache] at hblocks
        exact .rejected _ _ hblocks hcache
      · cases hblocks
        exact .unchanged _ rfl hcache
    · obtain ⟨chain, _, h⟩ := bind_ok h
      cases h
      refine .connected ?_ rfl
      unfold connectSucceeded
      split
      · exact Or.inl rfl
      · exact Or.inr ⟨_, rfl⟩

theorem attempt_eq_error {α : Type} {x : Check α} {e : Failure}
    (h : attempt x = .ok (.error e)) : x = .error e := by
  unfold attempt at h
  split at h
  · cases h
  · cases h
    rfl
  · cases h

/-- What `AcceptBlock` can do: after the header it skips the block, marks it
or stores it. -/
inductive BlockOutcome (node : Node) (s s' : NodeState) (block : CBlock) : Prop
  | header {r : Except Failure BlockIndex}
      (hheader :
        BlockMap.HeaderOutcome node.env node.addr s.blocks block.toCBlockHeader s'.blocks r)
      (hchain : s'.chain = s.chain) : BlockOutcome node s s' block
  | checked {blocks : BlockMap} {p : BlockIndex} {e : Failure}
      (hheader : BlockMap.HeaderOutcome node.env node.addr s.blocks block.toCBlockHeader blocks
        (.ok p))
      (hcheck : checkBeforeStore node.env block p.tail = .error e)
      (hblocks : s'.blocks = blocks.markIfInvalid p e)
      (hchain : s'.chain = s.chain) : BlockOutcome node s s' block
  | stored {blocks : BlockMap} {p : BlockIndex} {fRequested : Bool}
      (hheader : BlockMap.HeaderOutcome node.env node.addr s.blocks block.toCBlockHeader blocks
        (.ok p))
      (hskip : blocks.skipsBlock s.chain.chainActive p fRequested = false)
      (hcheck : checkBeforeStore node.env block p.tail = .ok ())
      (hblocks : s'.blocks = blocks.receivedBlockTransactions node.env.net node.addr
        s.chain.chainActive block.vtx.length p)
      (hchain : s'.chain = s.chain) : BlockOutcome node s s' block

theorem acceptBlock_outcome {t : Int} {block : CBlock} {fRequested : Bool} {r : Except Failure Bool}
    (h : s.acceptBlock node t block fRequested = .ok (s', r)) : BlockOutcome node s s' block := by
  obtain ⟨⟨blocks, entry⟩, hheader, h⟩ := bind_ok h
  have ho := BlockMap.acceptBlockHeader_outcome hheader
  cases entry with
  | error e =>
    cases h
    exact .header ho rfl
  | ok p =>
    simp only at h
    split at h
    · cases h
      exact .header ho rfl
    · rename_i hskip
      obtain ⟨checked, hchecked, h⟩ := bind_ok h
      cases checked with
      | error e =>
        cases h
        exact .checked ho (attempt_eq_error hchecked) rfl rfl
      | ok u =>
        cases h
        exact .stored ho (by simpa using hskip) (BlockMap.attempt_eq_ok hchecked) rfl rfl

/-- What `InvalidateBlock` can do. -/
theorem invalidateBlock_outcome {ok : Bool} (h : s.invalidateBlock node p = .ok (s', ok)) :
    s'.chain.chainActive <:+ s.chain.chainActive ∧
      (s'.blocks = s.blocks ∨ (contains s'.chain.chainActive p = false ∧
        BlockMap.Invalidated node.addr s'.chain.chainActive s.blocks s'.blocks p
          (if contains s.chain.chainActive p then some s.chain.chainActive else none))) := by
  obtain ⟨⟨chain, r⟩, h1, h⟩ := bind_ok h
  obtain ⟨hsuf, hgone⟩ := disconnectUntilGone_chainActive h1
  cases r with
  | some e =>
    cases h
    exact ⟨hsuf, Or.inl rfl⟩
  | none =>
    obtain ⟨blocks, hb, h⟩ := bind_ok h
    cases h
    exact ⟨hsuf, Or.inr ⟨hgone rfl (Nat.le_refl _), BlockMap.invalidateBlock_ok hb⟩⟩

end Outcomes

/-! ## The calls -/

/-- The calls that find, mark or clear failed blocks. -/
inductive FailureCall
  | acceptBlockHeader (nAdjustedTime : Int) (block : CBlockHeader)
  | acceptBlock (nAdjustedTime : Int) (block : CBlock) (fRequested : Bool)
  | connectTip (pindexNew : BlockIndex) (pblock : Option CBlock)
  | invalidateBlock (pindex : BlockIndex)
  | resetBlockFailureFlags (pindex : BlockIndex)

namespace NodeState

variable (node : Node)

/-- The state after a call. -/
def failureCall (s : NodeState) : FailureCall → Check NodeState
  | .acceptBlockHeader t block => do
    let (blocks, _) ← s.blocks.acceptBlockHeader node.env node.addr t block
    .ok { s with blocks }
  | .acceptBlock t block fRequested => do
    let (s, _) ← s.acceptBlock node t block fRequested
    .ok s
  | .connectTip pindexNew pblock => do
    let (s, _) ← s.connectTip node pindexNew pblock
    .ok s
  | .invalidateBlock pindex => do
    let (s, _) ← s.invalidateBlock node pindex
    .ok s
  | .resetBlockFailureFlags pindex =>
    .ok { s with blocks :=
      s.blocks.resetBlockFailureFlags node.addr s.chain.chainActive pindex }

end NodeState

/-- A pointer that is given to a call is one to an entry of the index. -/
def FailureCall.PointsInto (blocks : BlockMap) : FailureCall → Prop
  | .connectTip p _ => p ∈ blocks.mapBlockIndex ∧ p ≠ []
  | .invalidateBlock p => p ∈ blocks.mapBlockIndex ∧ p ≠ []
  | .resetBlockFailureFlags p => p ∈ blocks.mapBlockIndex ∧ p ≠ []
  | _ => True

/-- The states that calls reach which meet a condition on the state before
them. -/
inductive FailureRun (node : Node) (Start : NodeState → Prop)
    (Meets : NodeState → FailureCall → Prop) : NodeState → Prop
  | start {s : NodeState} : Start s → FailureRun node Start Meets s
  | call {s s' : NodeState} (c : FailureCall) : FailureRun node Start Meets s →
      c.PointsInto s.blocks → Meets s c → s.failureCall node c = .ok s' →
      FailureRun node Start Meets s'

/-! ## Every block in the set is marked -/

/-- The set holds entries of the index that are marked. -/
structure BlockMap.FailedMarked (s : BlockMap) : Prop where
  mem : ∀ q ∈ s.gFailedBlocks, q ∈ s.mapBlockIndex
  marked : ∀ q ∈ s.gFailedBlocks, (s.nStatus q).failedValid = true

namespace BlockMap

variable {s s' : BlockMap} {p q : BlockIndex} {addr : BlockIndex → Nat}
  {low chainActive : BlockIndex} {tip : Option BlockIndex}

/-- A call that keeps the set and takes no mark away. -/
theorem FailedMarked.mono (h : s.FailedMarked) (hmap : s'.mapBlockIndex = s.mapBlockIndex)
    (hset : s'.gFailedBlocks = s.gFailedBlocks)
    (hmark : ∀ q, (s.nStatus q).failedValid = true → (s'.nStatus q).failedValid = true) :
    s'.FailedMarked := by
  constructor <;> rw [hset]
  · rw [hmap]
    exact h.mem
  · exact fun q hq => hmark q (h.marked q hq)

theorem FailedMarked.added (h : s.FailedMarked) (ha : HeaderAdded s s' p) : s'.FailedMarked := by
  constructor <;> rw [ha.failed]
  · rw [ha.map]
    exact fun q hq => List.mem_cons_of_mem _ (h.mem q hq)
  · intro q hq
    rw [ha.nStatus (h.mem q hq)]
    exact h.marked q hq

theorem markFailedChildren_failedValid :
    ((markFailedChildren low s p).nStatus q).failedValid = (s.nStatus q).failedValid := by
  unfold nStatus
  rw [markFailedChildren_info]
  split <;> rfl

theorem markFailedChildren_gFailedBlocks :
    (markFailedChildren low s p).gFailedBlocks = s.gFailedBlocks :=
  markFailedChildren_keeps gFailedBlocks fun _ _ _ => rfl

theorem markFailedChildren_mapBlockIndex :
    (markFailedChildren low s p).mapBlockIndex = s.mapBlockIndex :=
  markFailedChildren_keeps mapBlockIndex fun _ _ _ => rfl

theorem FailedMarked.header {env : Env} {block : CBlockHeader} {r : Except Failure BlockIndex}
    (h : s.FailedMarked) (ho : HeaderOutcome env addr s block s' r) : s'.FailedMarked := by
  cases ho with
  | refused => exact h
  | known => exact h
  | genesis _ _ hadded => exact h.added hadded
  | added _ _ _ _ hadded => exact h.added hadded
  | marked =>
    apply h.mono markFailedChildren_mapBlockIndex markFailedChildren_gFailedBlocks
    intro q hm
    rw [markFailedChildren_failedValid]
    exact hm

theorem markIfInvalid_failedValid {e : Failure} (hm : (s.nStatus q).failedValid = true) :
    ((s.markIfInvalid p e).nStatus q).failedValid = true := by
  unfold markIfInvalid
  split
  · rw [setStatus_nStatus]
    split
    · rfl
    · exact hm
  · exact hm

theorem FailedMarked.markIfInvalid (h : s.FailedMarked) (e : Failure) :
    (s.markIfInvalid p e).FailedMarked := by
  have hkeep : (s.markIfInvalid p e).mapBlockIndex = s.mapBlockIndex ∧
      (s.markIfInvalid p e).gFailedBlocks = s.gFailedBlocks := by
    unfold BlockMap.markIfInvalid
    split <;> exact ⟨rfl, rfl⟩
  exact h.mono hkeep.1 hkeep.2 fun q hm => markIfInvalid_failedValid hm

theorem stored_failedValid {net : Network} {nTx : Nat} :
    ((s.stored net nTx p).nStatus q).failedValid = (s.nStatus q).failedValid := by
  rw [stored_nStatus]
  split
  · exact BlockStatus.raiseValidity_failedValid
  · rfl

theorem FailedMarked.received {net : Network} {nTx : Nat} (h : s.FailedMarked) :
    (s.receivedBlockTransactions net addr chainActive nTx p).FailedMarked := by
  apply h.mono
  · exact receivedBlockTransactions_keeps mapBlockIndex (fun _ _ _ => rfl) (fun _ _ => rfl)
      (fun _ _ => rfl) fun _ _ => rfl
  · exact receivedBlockTransactions_keeps gFailedBlocks (fun _ _ _ => rfl) (fun _ _ => rfl)
      (fun _ _ => rfl) fun _ _ => rfl
  · intro q hm
    rw [receivedBlockTransactions_nStatus, stored_failedValid]
    exact hm

theorem FailedMarked.found (h : s.FailedMarked) (hp : p ∈ s.mapBlockIndex)
    (hi : InvalidBlockFound s s' p) : s'.FailedMarked := by
  constructor
  · intro q hq
    rw [hi.map]
    rcases (hi.failed q).mp hq with rfl | hq
    · exact hp
    · exact h.mem q hq
  · intro q hq
    unfold nStatus
    rw [hi.info]
    split
    · rfl
    · rename_i hne
      rcases (hi.failed q).mp hq with he | hq
      · exact absurd he hne
      · exact h.marked q hq

theorem blockConnected_failedValid {fUndoWritten : Bool} :
    ((s.blockConnected p fUndoWritten).nStatus q).failedValid = (s.nStatus q).failedValid := by
  unfold blockConnected
  split
  · rw [setStatus_nStatus]
    split
    · rw [BlockStatus.raiseValidity_failedValid]
    · rfl
  · rfl

theorem FailedMarked.blockConnected (h : s.FailedMarked) (fUndoWritten : Bool) :
    (s.blockConnected p fUndoWritten).FailedMarked := by
  have hkeep : (s.blockConnected p fUndoWritten).mapBlockIndex = s.mapBlockIndex ∧
      (s.blockConnected p fUndoWritten).gFailedBlocks = s.gFailedBlocks := by
    unfold BlockMap.blockConnected
    split <;> exact ⟨rfl, rfl⟩
  apply h.mono hkeep.1 hkeep.2
  intro q hm
  rw [blockConnected_failedValid]
  exact hm

theorem invalidated_failedValid {i : BlockInfo} :
    (invalidated p tip q i).nStatus.failedValid = (decide (q = p) || i.nStatus.failedValid) := by
  by_cases hq : q = p <;> by_cases hd : q ∈ disconnected p tip <;>
    simp [invalidated, hq, hd, markFailed, markChild]

theorem FailedMarked.invalidated (h : s.FailedMarked) (hp : p ∈ s.mapBlockIndex)
    (hi : Invalidated addr chainActive s s' p tip) : s'.FailedMarked := by
  constructor
  · intro q hq
    rw [hi.map]
    rcases ((hi.failed q).mp hq).1 with rfl | hq
    · exact hp
    · exact h.mem q hq
  · intro q hq
    unfold nStatus
    rw [hi.info, invalidated_failedValid, Bool.or_eq_true, decide_eq_true_eq]
    rcases ((hi.failed q).mp hq).1 with hq | hq
    · exact Or.inl hq
    · exact Or.inr (h.marked q hq)

/-- Flags are cleared above and below one block, and nowhere else. -/
theorem FailedMarked.reset (h : s.FailedMarked) (hp : p ≠ [])
    (hkeeps : ∀ q ∈ s.gFailedBlocks, ¬ p <:+ q ∧ ¬ q <:+ p) :
    (s.resetBlockFailureFlags addr chainActive p).FailedMarked := by
  have hset : (s.resetBlockFailureFlags addr chainActive p).gFailedBlocks = s.gFailedBlocks :=
    resetBlockFailureFlags_keeps gFailedBlocks (fun _ _ _ => rfl) (fun _ _ => rfl)
      fun _ _ => rfl
  constructor
  · rw [hset, resetBlockFailureFlags_keeps mapBlockIndex (fun _ _ _ => rfl)
      (fun _ _ => rfl) fun _ _ => rfl]
    exact h.mem
  · rw [hset]
    intro q hq
    unfold nStatus
    rw [resetBlockFailureFlags_info hp, if_neg]
    · exact h.marked q hq
    · rintro (⟨_, hd⟩ | ⟨_, ha⟩)
      · exact (hkeeps q hq).1 hd
      · exact (hkeeps q hq).2 ha

theorem FailedMarked.scanned (h : s.FailedMarked) (hf : s.findFailedAncestor addr p = some q) :
    (s.nStatus q).failedValid = true := by
  apply h.marked
  unfold findFailedAncestor at hf
  split at hf
  · cases hf
  · exact List.mem_mergeSort.mp (List.mem_of_find?_eq_some hf)

end BlockMap

/-- The one call that can take a mark away has to keep away from the set:
`ResetBlockFailureFlags` clears the block, its descendants and its ancestors,
and leaves the set as it is. -/
def NodeState.KeepsFailed (s : NodeState) : FailureCall → Prop
  | .resetBlockFailureFlags p => ∀ q ∈ s.blocks.gFailedBlocks, ¬ p <:+ q ∧ ¬ q <:+ p
  | _ => True

theorem BlockMap.FailedMarked.call {node : Node} {s s' : NodeState} {c : FailureCall}
    (h : s.blocks.FailedMarked) (hp : c.PointsInto s.blocks) (hc : s.KeepsFailed c)
    (ho : s.failureCall node c = .ok s') : s'.blocks.FailedMarked := by
  cases c with
  | acceptBlockHeader t block =>
    obtain ⟨⟨blocks, r⟩, hr, ho⟩ := bind_ok ho
    cases ho
    exact h.header (BlockMap.acceptBlockHeader_outcome hr)
  | acceptBlock t block fRequested =>
    obtain ⟨⟨s1, r⟩, hr, ho⟩ := bind_ok ho
    cases ho
    cases acceptBlock_outcome hr with
    | header hheader _ => exact h.header hheader
    | checked hheader _ hblocks _ =>
      rw [hblocks]
      exact (h.header hheader).markIfInvalid _
    | stored hheader _ _ hblocks _ =>
      rw [hblocks]
      exact (h.header hheader).received
  | connectTip p pblock =>
    obtain ⟨⟨s1, r⟩, hr, ho⟩ := bind_ok ho
    cases ho
    cases (connectTip_outcome hr).2 with
    | unchanged _ hblocks _ =>
      rw [hblocks]
      exact h
    | rejected _ _ hblocks _ => exact h.found hp.1 (BlockMap.invalidBlockFound_ok hblocks)
    | connected hblocks _ =>
      rcases hblocks with hblocks | ⟨fUndo, hblocks⟩
      · rw [hblocks]
        exact h
      · rw [hblocks]
        exact h.blockConnected fUndo
  | invalidateBlock p =>
    obtain ⟨⟨s1, ok⟩, hr, ho⟩ := bind_ok ho
    cases ho
    rcases (invalidateBlock_outcome hr).2 with hblocks | ⟨_, hi⟩
    · rw [hblocks]
      exact h
    · exact h.invalidated hp.1 hi
  | resetBlockFailureFlags p =>
    cases ho
    exact h.reset hp.2 hc

/-- A node that has just been started. -/
def NodeState.NothingFailed (s : NodeState) : Prop := s.blocks.gFailedBlocks = []

theorem FailureRun.failedMarked {node : Node} {s : NodeState}
    (h : FailureRun node NothingFailed KeepsFailed s) :
    s.blocks.FailedMarked := by
  induction h with
  | @start s hs =>
    have hnil : s.blocks.gFailedBlocks = [] := hs
    constructor <;> simp [hnil]
  | call c _ hp hc ho ih => exact ih.call hp hc ho

/-- In every run that resets no block above or below one in the set, all of
the set is marked, and so is every block that the scan of `AcceptBlockHeader`
finds in it. -/
theorem failed_blocks_are_marked {node : Node} {s : NodeState}
    (h : FailureRun node NothingFailed KeepsFailed s) :
    (∀ q ∈ s.blocks.gFailedBlocks, (s.blocks.nStatus q).failedValid = true) ∧
      ∀ addr pindexPrev failedit,
        s.blocks.findFailedAncestor addr pindexPrev = some failedit →
          (s.blocks.nStatus failedit).failedValid = true := by
  have hmarked := h.failedMarked
  exact ⟨hmarked.marked, fun addr pindexPrev failedit hfind => hmarked.scanned hfind⟩

/-! ## A block that is reconsidered -/

/-- The block at height one is known by its header only. -/
def regtestHeaderState : NodeState :=
  { regtestState with
    chain := { regtestState.chain with chainActive := regtestTip.tail }
    blocks := { regtestState.blocks with
      info := fun p => if p = regtestTip then { nStatus := { valid := BLOCK_VALID_TREE } }
        else regtestState.blocks.info p
      setBlockIndexCandidates := [regtestTip.tail] } }

/-- A run that marks a block and clears nothing. -/
theorem invalidated_block_is_marked :
    ∃ s, FailureRun regtestNode NothingFailed KeepsFailed s ∧
      regtestTip ∈ s.blocks.gFailedBlocks ∧
      (∀ q ∈ s.blocks.gFailedBlocks, (s.blocks.nStatus q).failedValid = true) ∧
      ∀ addr pindexPrev failedit,
        s.blocks.findFailedAncestor addr pindexPrev = some failedit →
          (s.blocks.nStatus failedit).failedValid = true := by
  have hok : okWith (regtestHeaderState.failureCall regtestNode (.invalidateBlock regtestTip))
      (fun s => decide (regtestTip ∈ s.blocks.gFailedBlocks)) = true := by decide +kernel
  obtain ⟨s, hs, hmem⟩ := of_okWith hok
  have hstart : NothingFailed regtestHeaderState := rfl
  have hrun : FailureRun regtestNode NothingFailed KeepsFailed s :=
    .call (.invalidateBlock regtestTip) (.start hstart)
      ⟨List.mem_cons_self, List.cons_ne_nil _ _⟩ trivial hs
  exact ⟨s, hrun, by simpa using hmem, failed_blocks_are_marked hrun⟩

/-- `InvalidateBlock` and then `ResetBlockFailureFlags` leave the block in the
set without its mark, and the next header on it stops the node. -/
theorem reconsidered_block_stops_the_node :
    ∃ s, FailureRun regtestNode NothingFailed (fun _ _ => True) s ∧
      regtestTip ∈ s.blocks.gFailedBlocks ∧
      (s.blocks.nStatus regtestTip).failedValid = false ∧
      failureOf (s.blocks.acceptBlockHeader regtestNode.env regtestNode.addr 1369199888
        fundFirst.toCBlockHeader) = some (.crash "failedit->nStatus & BLOCK_FAILED_VALID") := by
  have hok : okWith (regtestHeaderState.failureCall regtestNode (.invalidateBlock regtestTip))
      (fun s1 => decide (regtestTip ∈ s1.blocks.mapBlockIndex) &&
        okWith (s1.failureCall regtestNode (.resetBlockFailureFlags regtestTip)) fun s2 =>
          decide (regtestTip ∈ s2.blocks.gFailedBlocks) &&
          !(s2.blocks.nStatus regtestTip).failedValid &&
          failureOf (s2.blocks.acceptBlockHeader regtestNode.env regtestNode.addr 1369199888
            fundFirst.toCBlockHeader) ==
            some (.crash "failedit->nStatus & BLOCK_FAILED_VALID")) = true := by
    decide +kernel
  obtain ⟨s1, hs1, hok⟩ := of_okWith hok
  simp only [Bool.and_eq_true, decide_eq_true_eq] at hok
  obtain ⟨hmem, hok⟩ := hok
  obtain ⟨s2, hs2, hok⟩ := of_okWith hok
  simp only [Bool.and_eq_true, decide_eq_true_eq, Bool.not_eq_true', beq_iff_eq] at hok
  have hstart : NothingFailed regtestHeaderState := rfl
  have hne : regtestTip ≠ [] := List.cons_ne_nil _ _
  refine ⟨s2, ?_, hok.1.1, hok.1.2, hok.2⟩
  exact .call (.resetBlockFailureFlags regtestTip)
    (.call (.invalidateBlock regtestTip) (.start hstart) ⟨List.mem_cons_self, hne⟩ trivial hs1)
    ⟨hmem, hne⟩ trivial hs2

end junkcoin
