-- `ProcessNewBlock` up to the point where it releases the lock. Before it
-- checks a block it may give it another coinbase, for the development fund.
-- The laws say when that changes what becomes of the block, and when it
-- reads outputs that are not there.
import Junkcoin.AcceptBlock

namespace junkcoin

variable (node : Node) (nAdjustedTime : Int) (s : NodeState) (block : CBlock)

/-! ## The new coinbase -/

/-- `hasCorrectStructure`: the second output is the one of the fund. -/
def hasCorrectStructure (expected : CTxOut) (coinbase : CTransaction) : Bool :=
  coinbase.vout[1]? == some expected

/-- The outputs that replace those of the coinbase. The first goes to the
script of the first output that was there. -/
def fundedOutputs (env : Env) (nHeight : Nat) (expected first : CTxOut) : List CTxOut :=
  [⟨int64 (baseReward env nHeight - expected.nValue), first.scriptPubKey⟩, expected]

/-- The block with another coinbase and the merkle root of it. The flag
`fChecked` is copied with the block. -/
def replaceCoinbase (H : Hashes) (block : CBlock) (coinbase : CTransaction)
    (rest : List CTransaction) : CBlock :=
  let modifiedBlock := { block with vtx := coinbase :: rest }
  { modifiedBlock with hashMerkleRoot := (blockMerkleRoot H modifiedBlock).1 }

/-- What `ProcessNewBlock` does to a block before it checks it: the block to
go on with, and whether it was modified. `nHeight` is one above the tip. -/
def addDevelopmentFund (env : Env) (nHeight : Nat) (block : CBlock) : Check (CBlock × Bool) :=
  if env.net.params.inDevelopmentFundWindow nHeight then do
    let expected ← expectedFundOutput env nHeight
    match block.vtx with
    | [] => .error (.crash "modifiedBlock->vtx[0]")
    | coinbase :: rest =>
      if hasCorrectStructure expected coinbase then .ok (block, false)
      else match coinbase.vout with
        | [] => .error (.crash "pblock->vtx[0]->vout[0]")
        | first :: _ =>
          let vout := fundedOutputs env nHeight expected first
          .ok (replaceCoinbase env.H block { coinbase with vout } rest, true)
  else .ok (block, false)

/-- `ProcessNewBlock` under the lock: the state after it, the block that it
went on with, and whether that one was stored. -/
def NodeState.processNewBlock (fForceProcessing : Bool) :
    Check (NodeState × CBlock × Except Failure Bool) := do
  let (processed, _) ← addDevelopmentFund node.env s.chain.chainActive.length block
  let (s, verdict) ← s.checkAndAccept node nAdjustedTime processed fForceProcessing
  .ok (s, processed, verdict)

/-! ## When the block is left as it is -/

/-- The second output of the coinbase is the output of the fund for the
height `nHeight`, or that height is outside of the window. -/
def FundInPlace (env : Env) (nHeight : Nat) (block : CBlock) : Prop :=
  env.net.params.inDevelopmentFundWindow nHeight = true →
    ∃ expected coinbase rest, expectedFundOutput env nHeight = .ok expected ∧
      block.vtx = coinbase :: rest ∧ coinbase.vout[1]? = some expected

/-- All that is read before the first check is there: the script of the fund
at the height `nHeight`, a first transaction and its first output. -/
def Readable (env : Env) (nHeight : Nat) (block : CBlock) : Prop :=
  env.net.params.inDevelopmentFundWindow nHeight = true →
    ∃ expected coinbase rest, expectedFundOutput env nHeight = .ok expected ∧
      block.vtx = coinbase :: rest ∧ coinbase.vout ≠ []

section Cases

variable {env : Env} {nHeight : Nat} {block : CBlock}

/-- A block that is in place goes on as it came. -/
theorem addDevelopmentFund_of_fundInPlace (h : FundInPlace env nHeight block) :
    addDevelopmentFund env nHeight block = .ok (block, false) := by
  unfold addDevelopmentFund
  split
  · rename_i hwin
    obtain ⟨expected, coinbase, rest, he, hv, hout⟩ := h hwin
    have hcorrect : hasCorrectStructure expected coinbase = true := by
      simp [hasCorrectStructure, hout]
    rw [he, hv]
    exact if_pos hcorrect
  · rfl

/-- A block without the output of the fund in its place gets another
coinbase. -/
theorem addDevelopmentFund_of_misplaced {expected first : CTxOut} {coinbase : CTransaction}
    {rest : List CTransaction} {outs : List CTxOut}
    (hwin : env.net.params.inDevelopmentFundWindow nHeight = true)
    (he : expectedFundOutput env nHeight = .ok expected) (hv : block.vtx = coinbase :: rest)
    (hvout : coinbase.vout = first :: outs) (hout : coinbase.vout[1]? ≠ some expected) :
    addDevelopmentFund env nHeight block =
      .ok (replaceCoinbase env.H block
        { coinbase with vout := fundedOutputs env nHeight expected first } rest, true) := by
  have hcorrect : hasCorrectStructure expected coinbase = false := by
    simp [hasCorrectStructure, hout]
  unfold addDevelopmentFund
  rw [if_pos hwin, he, hv]
  simp only [bind, Except.bind, hcorrect, Bool.false_eq_true, if_false, hvout]

/-- A block that is not in place is replaced by another one, if all that is
read is there. -/
theorem addDevelopmentFund_of_not_fundInPlace (h : ¬ FundInPlace env nHeight block)
    (hr : Readable env nHeight block) :
    ∃ block', block' ≠ block ∧ addDevelopmentFund env nHeight block = .ok (block', true) := by
  obtain ⟨hwin, h⟩ := Classical.not_imp.mp h
  obtain ⟨expected, coinbase, rest, he, hv, hne⟩ := hr hwin
  have hout : coinbase.vout[1]? ≠ some expected :=
    fun hout => h ⟨expected, coinbase, rest, he, hv, hout⟩
  obtain ⟨first, outs, hvout⟩ := List.exists_cons_of_ne_nil hne
  let vout := fundedOutputs env nHeight expected first
  refine ⟨replaceCoinbase env.H block { coinbase with vout } rest, ?_,
    addDevelopmentFund_of_misplaced hwin he hv hvout hout⟩
  intro heq
  -- the new coinbase has the output of the fund where the old one lacks it
  have hvtx : { coinbase with vout } :: rest = coinbase :: rest :=
    (congrArg CBlock.vtx heq).trans hv
  have hcoinbase : { coinbase with vout } = coinbase := (List.cons.inj hvtx).1
  apply hout
  rw [← hcoinbase]
  rfl

/-- Nothing is read that is not there. -/
theorem readable_of_addDevelopmentFund {r : CBlock × Bool}
    (h : addDevelopmentFund env nHeight block = .ok r) : Readable env nHeight block := by
  intro hwin
  unfold addDevelopmentFund at h
  rw [if_pos hwin] at h
  obtain ⟨expected, he, h⟩ := bind_ok h
  rcases hv : block.vtx with _ | ⟨coinbase, rest⟩
  · rw [hv] at h
    cases h
  · refine ⟨expected, coinbase, rest, he, rfl, ?_⟩
    intro hnil
    have hcorrect : hasCorrectStructure expected coinbase = false := by
      simp [hasCorrectStructure, hnil]
    rw [hv] at h
    simp only [hcorrect, hnil] at h
    cases h

end Cases

/-! ## The verdict on a block -/

/-- The block satisfies the rule for the fund at its own height, the one
above its parent. -/
def NodeState.FundRuleHolds : Prop :=
  ∃ pindexPrev, s.blocks.findBlock node.env.H block.hashPrevBlock = some pindexPrev ∧
    checkDevelopmentFund node.env block pindexPrev.length = .ok ()

/-- `CheckBlock` and `AcceptBlock` on the block as it came refuse it. -/
def NodeState.Refused (fForceProcessing : Bool) : Prop :=
  ∀ s' stored, s.checkAndAccept node nAdjustedTime block fForceProcessing ≠ .ok (s', .ok stored)

/-- `ProcessNewBlock` goes on with another block than the one that came. -/
def NodeState.Rewrites : Prop :=
  ∃ block', addDevelopmentFund node.env s.chain.chainActive.length block = .ok (block', true)

/-- `ProcessNewBlock` accepts and stores the block that came just when
`CheckBlock` and `AcceptBlock` do, with the same state after it, and does not
rewrite a block that satisfies the rule for its own height. -/
def NodeState.KeepsVerdict (fForceProcessing : Bool) : Prop :=
  (∀ s' stored,
    s.processNewBlock node nAdjustedTime block fForceProcessing = .ok (s', block, .ok stored) ↔
      s.checkAndAccept node nAdjustedTime block fForceProcessing = .ok (s', .ok stored)) ∧
  (s.FundRuleHolds node block → ¬ s.Rewrites node block)

theorem processNewBlock_ok {node : Node} {t : Int} {s s' : NodeState} {block processed : CBlock}
    {force : Bool} {verdict : Except Failure Bool} :
    s.processNewBlock node t block force = .ok (s', processed, verdict) ↔
      ∃ modified, addDevelopmentFund node.env s.chain.chainActive.length block =
          .ok (processed, modified) ∧
        s.checkAndAccept node t processed force = .ok (s', verdict) := by
  constructor
  · intro h
    obtain ⟨⟨processed', modified⟩, hadd, h⟩ := bind_ok h
    obtain ⟨⟨s'', verdict'⟩, hcheck, h⟩ := bind_ok h
    cases h
    exact ⟨modified, hadd, hcheck⟩
  · rintro ⟨modified, hadd, hcheck⟩
    unfold NodeState.processNewBlock
    rw [hadd]
    show (s.checkAndAccept node t processed force >>= _) = _
    rw [hcheck]
    rfl

/-- A verdict is kept when the second output of the coinbase is in place for
the height above the tip. Otherwise the block that came is lost: the verdict
is kept only if nobody would have accepted the block. -/
theorem verdict_is_kept_iff (node : Node) (nAdjustedTime : Int) (s : NodeState) (block : CBlock)
    (fForceProcessing : Bool) :
    s.KeepsVerdict node nAdjustedTime block fForceProcessing ↔
      FundInPlace node.env s.chain.chainActive.length block ∨
        (s.Refused node nAdjustedTime block fForceProcessing ∧
          (s.FundRuleHolds node block →
            ¬ Readable node.env s.chain.chainActive.length block)) := by
  unfold NodeState.KeepsVerdict NodeState.Rewrites
  simp only [processNewBlock_ok]
  by_cases hin : FundInPlace node.env s.chain.chainActive.length block
  · have hadd := addDevelopmentFund_of_fundInPlace hin
    simp [hadd, hin]
  · by_cases hr : Readable node.env s.chain.chainActive.length block
    · obtain ⟨block', hne, hadd⟩ := addDevelopmentFund_of_not_fundInPlace hin hr
      simp [hadd, hin, hr, hne, NodeState.Refused]
    · have hadd : ∀ r, addDevelopmentFund node.env s.chain.chainActive.length block ≠ .ok r :=
        fun r h => hr (readable_of_addDevelopmentFund h)
      simp [hadd, hin, hr, NodeState.Refused]

/-! ## A block that is lost -/

/-- A node on the regression test network, where the fund is paid from height
two on. -/
def regtestNode : Node where
  env := { sampleEnv with net := .regtest }
  blockFiles _ := none
  addr := List.length
  cacheUse _ := []
  fDoFullFlush _ := false

def regtestBlock (pprev : BlockIndex) (vtx : List CTransaction) : CBlock :=
  { sampleBlock pprev vtx with
    nVersion := 0x20210004
    nTime := 1369199888 + UInt32.ofNat pprev.length }

/-- The block at height one, and genesis. -/
def regtestTip : BlockIndex :=
  [(regtestBlock [regTestParams.genesis]
    [sampleTx [COutPoint.null] [1000 * COIN]]).toCBlockHeader, regTestParams.genesis]

/-- Both blocks of the index are connected. -/
def regtestState : NodeState where
  chain :=
    { coinsDB := ∅
      hashBestChain := blockHash sampleEnv.H regtestTip
      cacheCoins := ∅
      hashBlock := 0
      chainActive := regtestTip
      undoFiles := fun _ => none
      nNow := 0 }
  blocks :=
    { mapBlockIndex := [regtestTip, regtestTip.tail]
      info := fun p => ⟨{ valid := BLOCK_VALID_SCRIPTS, haveData := true }, 1, p.length, 0⟩
      setBlockIndexCandidates := [regtestTip]
      mapBlocksUnlinked := []
      pindexBestInvalid := []
      gFailedBlocks := []
      nBlockReverseSequenceId := -1
      nLastPreciousChainwork := 0 }

/-- The block at height two whose coinbase has the given outputs. -/
def regtestNext (vout : List CTxOut) : CBlock :=
  regtestBlock regtestTip [{ sampleTx [COutPoint.null] [] with vout }]

/-- The output of the fund comes before the one of the miner. -/
def fundFirst : CBlock :=
  regtestNext [⟨200 * COIN, payToScriptID (List.replicate 20 7)⟩, sampleOut (800 * COIN)]

/-- A block on the tip that satisfies every rule is not stored, since the
output of the fund is not the second one of its coinbase. -/
theorem fund_in_another_place_loses_the_block :
    regtestState.FundRuleHolds regtestNode fundFirst ∧
      regtestState.Rewrites regtestNode fundFirst ∧
      (∃ s', regtestState.checkAndAccept regtestNode 1369199888 fundFirst true =
        .ok (s', .ok true)) ∧
      ∀ s' stored, regtestState.processNewBlock regtestNode 1369199888 fundFirst true ≠
        .ok (s', fundFirst, .ok stored) := by
  have hadd : okWith (addDevelopmentFund regtestNode.env 2 fundFirst)
      (fun r => r.2 && r.1 != fundFirst) = true := by decide +kernel
  have hcheck : okWith (regtestState.checkAndAccept regtestNode 1369199888 fundFirst true)
      (fun r => okWith r.2 id) = true := by decide +kernel
  obtain ⟨⟨processed, modified⟩, hadd, hrewritten⟩ := of_okWith hadd
  obtain ⟨⟨s', verdict⟩, hcheck, hstored⟩ := of_okWith hcheck
  obtain ⟨stored, rfl, hstored⟩ := of_okWith hstored
  simp only [Bool.and_eq_true, bne_iff_ne] at hrewritten
  obtain ⟨rfl, hne⟩ := hrewritten
  subst hstored
  refine ⟨⟨regtestTip, by decide +kernel, by decide +kernel⟩, ⟨processed, hadd⟩, ⟨s', hcheck⟩, ?_⟩
  intro s' stored h
  obtain ⟨modified, hprocessed, _⟩ := processNewBlock_ok.mp h
  cases hadd.symm.trans hprocessed
  exact hne rfl

/-! ## What is read before the first check -/

/-- `ProcessNewBlock` comes to its first check, whatever the check then says:
every index that it used before was in range. -/
def NodeState.ReachesCheck : Prop :=
  ∃ processed modified,
    addDevelopmentFund node.env s.chain.chainActive.length block = .ok (processed, modified) ∧
    ∀ nAdjustedTime fForceProcessing,
      s.processNewBlock node nAdjustedTime block fForceProcessing = (do
        let (s, verdict) ← s.checkAndAccept node nAdjustedTime processed fForceProcessing
        .ok (s, processed, verdict))

/-- The first check is reached just when the height above the tip is outside
of the window, or the script of the fund, the first transaction and its first
output are all there. -/
theorem reads_in_range_iff (node : Node) (s : NodeState) (block : CBlock) :
    s.ReachesCheck node block ↔ Readable node.env s.chain.chainActive.length block := by
  constructor
  · rintro ⟨processed, modified, hadd, _⟩
    exact readable_of_addDevelopmentFund hadd
  · intro hr
    have hreturns : ∃ r, addDevelopmentFund node.env s.chain.chainActive.length block = .ok r := by
      by_cases hin : FundInPlace node.env s.chain.chainActive.length block
      · exact ⟨_, addDevelopmentFund_of_fundInPlace hin⟩
      · obtain ⟨block', _, hadd⟩ := addDevelopmentFund_of_not_fundInPlace hin hr
        exact ⟨_, hadd⟩
    obtain ⟨⟨processed, modified⟩, hadd⟩ := hreturns
    refine ⟨processed, modified, hadd, ?_⟩
    intro nAdjustedTime fForceProcessing
    unfold NodeState.processNewBlock
    rw [hadd]
    rfl

/-- A block without transactions, and one whose coinbase has no output. Both
can be sent to the node. -/
theorem malformed_blocks_are_read_out_of_range :
    regtestState.processNewBlock regtestNode 1369199888 (regtestBlock regtestTip []) true =
        .error (.crash "modifiedBlock->vtx[0]") ∧
      regtestState.processNewBlock regtestNode 1369199888 (regtestNext []) true =
        .error (.crash "pblock->vtx[0]->vout[0]") := by
  have hempty : addDevelopmentFund regtestNode.env 2 (regtestBlock regtestTip []) =
      .error (.crash "modifiedBlock->vtx[0]") := by decide +kernel
  have hnoOutput : addDevelopmentFund regtestNode.env 2 (regtestNext []) =
      .error (.crash "pblock->vtx[0]->vout[0]") := by decide +kernel
  exact ⟨congrArg (· >>= _) hempty, congrArg (· >>= _) hnoOutput⟩

end junkcoin
