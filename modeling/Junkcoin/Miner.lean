-- The block that the miner builds (`BlockAssembler::CreateNewBlock`), from the
-- transactions that were selected: its coinbase with the share of the
-- development fund, the witness commitment and the header. The laws compare
-- it with what the validator asks for.
import Junkcoin.ProcessNewBlock

namespace junkcoin

variable {vout : List CTxOut} {block : CBlock} {coinbase : CTransaction} {rest : List CTransaction}
  {env : Env} {nFees nBaseVersion nAdjustedTime : Int} {selected : List SelectedTx}
  {pindexPrev : BlockIndex} (H : Hashes)

/-! ## The coinbase -/

/-- A transaction that was selected from the mempool, and its fee. -/
structure SelectedTx where
  tx : CTransaction
  fee : Int

/-- `nFees` after all selected transactions were added. -/
def totalFees (selected : List SelectedTx) : Int := int64 (selected.map (·.fee)).sum

/-- The share of the fund. A share that leaves nothing is replaced. -/
def nDevelopmentFund (env : Env) (nHeight : Nat) : Int :=
  if env.fundShare (baseReward env nHeight) ≥ baseReward env nHeight then
    env.fundFallback (baseReward env nHeight)
  else env.fundShare (baseReward env nHeight)

/-- The output of the miner before the fees, and the one of the fund. -/
def splitReward (env : Env) (nHeight : Nat) (scriptPubKeyIn : CScript) :
    Check (CTxOut × List CTxOut) :=
  if env.net.params.inDevelopmentFundWindow nHeight then do
    let script ← getDevelopmentFundScriptAtHeight env nHeight
    .ok (⟨int64 (baseReward env nHeight - nDevelopmentFund env nHeight), scriptPubKeyIn⟩,
      [⟨nDevelopmentFund env nHeight, script⟩])
  else .ok (⟨baseReward env nHeight, scriptPubKeyIn⟩, [])

/-- The fees are added to the output of the miner. If there is nothing in it
even then, the miner gets the fees and the fund gets nothing. -/
def addFees (nFees : Int) (miner : CTxOut) (fund : List CTxOut) : List CTxOut :=
  let nValue := int64 (miner.nValue + nFees)
  if nValue ≤ 0 then
    { miner with nValue := nFees } :: fund.map fun out => { out with nValue := 0 }
  else { miner with nValue } :: fund

def OP_0 : UInt8 := 0

/-- The coinbase transaction before the witness commitment. -/
def createCoinbase (env : Env) (nHeight : Nat) (scriptPubKeyIn : CScript) (nFees : Int) :
    Check CTransaction := do
  let (miner, fund) ← splitReward env nHeight scriptPubKeyIn
  .ok { nVersion := 1
        vin := [{ prevout := COutPoint.null, scriptSig := pushInt64 nHeight ++ [OP_0] }]
        vout := addFees nFees miner fund
        nLockTime := 0 }

/-! ## The witness commitment -/

def witnessNonce : List UInt8 := List.replicate 32 0

/-- `UpdateUncommittedBlockStructures`. -/
def updateUncommittedBlockStructures (block : CBlock) (pindexPrev : BlockIndex)
    (consensusParams : Params) : CBlock :=
  match block.vtx with
  | [] => block
  | coinbase :: rest =>
    if (getWitnessCommitmentIndex block).isSome && isWitnessEnabled pindexPrev consensusParams &&
        !coinbase.hasWitness then
      let vin := coinbase.vin.modifyHead fun txin => { txin with scriptWitness := [witnessNonce] }
      { block with vtx := { coinbase with vin } :: rest }
    else block

/-- The output that commits to the witnesses of a block. -/
def commitmentOutput (block : CBlock) : CTxOut :=
  ⟨0, witnessCommitmentHeader ++
    (H.sha256d ((blockWitnessMerkleRoot H block).1.bytes ++ witnessNonce)).bytes⟩

/-- A block without a commitment gets one, if witnesses may ever be used. -/
def addCommitment (block : CBlock) (consensusParams : Params) : CBlock :=
  match block.vtx with
  | [] => block
  | coinbase :: rest =>
    if (consensusParams.vDeployments .segwit).nTimeout != 0 &&
        (getWitnessCommitmentIndex block).isNone then
      let vout := coinbase.vout ++ [commitmentOutput H block]
      { block with vtx := { coinbase with vout } :: rest }
    else block

/-- `GenerateCoinbaseCommitment`, on a block that has a coinbase. -/
def generateCoinbaseCommitment (block : CBlock) (pindexPrev : BlockIndex)
    (consensusParams : Params) : CBlock :=
  updateUncommittedBlockStructures (addCommitment H block consensusParams) pindexPrev
    consensusParams

/-! ## The block -/

/-- A header that was just constructed. -/
def nullHeader : CBlockHeader where
  nVersion := 0
  hashPrevBlock := 0
  hashMerkleRoot := 0
  nTime := 0
  nBits := 0
  nNonce := 0

/-- The transactions of the new block. Its header is still empty. -/
def blockTransactions (env : Env) (pindexPrev : BlockIndex) (scriptPubKeyIn : CScript)
    (selected : List SelectedTx) : Check CBlock := do
  let coinbaseTx ← createCoinbase env pindexPrev.length scriptPubKeyIn (totalFees selected)
  let block : CBlock := { nullHeader with vtx := coinbaseTx :: selected.map (·.tx) }
  .ok (generateCoinbaseCommitment env.H block pindexPrev (consensusAfter env.net pindexPrev))

/-- `SetBaseVersion` on a header that was just constructed. -/
def setBaseVersion (nBaseVersion nChainId : Int) : Check (BitVec 32) := do
  assert (nBaseVersion ≥ 1 && nBaseVersion < 256)
    "nBaseVersion >= 1 && nBaseVersion < VERSION_AUXPOW"
  .ok (BitVec.ofInt 32 nBaseVersion ||| BitVec.ofInt 32 (nChainId * 2 ^ 16))

/-- The time of the new block, after `UpdateTime`. -/
def templateTime (pindexPrev : BlockIndex) (nAdjustedTime : Int) : UInt32 :=
  let nOldTime := UInt32.ofNat (nAdjustedTime % 2 ^ 32).toNat
  let nNewTime := max (getMedianTimePast pindexPrev + 1) nAdjustedTime
  if nOldTime.toNat < nNewTime then UInt32.ofNat (nNewTime % 2 ^ 32).toNat else nOldTime

/-- The header of the new block. `nBaseVersion` is 4, or `-blockversion` on the
networks that mine on demand. -/
def fillHeader (env : Env) (nBaseVersion nAdjustedTime : Int) (pindexPrev : BlockIndex)
    (block : CBlock) : Check CBlock := do
  let consensus := consensusAfter env.net pindexPrev
  let nVersion ← setBaseVersion nBaseVersion consensus.nAuxpowChainId
  let block := { block with
    nVersion
    hashPrevBlock := blockHash env.H pindexPrev
    nTime := templateTime pindexPrev nAdjustedTime }
  let nBits ← getNextWorkRequired pindexPrev block.toCBlockHeader consensus
  .ok { block with nBits, nNonce := 0 }

/-- `CreateNewBlock` after the transactions were selected. -/
def NodeState.createNewBlock (node : Node) (nBaseVersion nAdjustedTime : Int) (s : NodeState)
    (scriptPubKeyIn : CScript) (selected : List SelectedTx) : Check CBlock := do
  let pindexPrev := s.chain.chainActive
  assert (!pindexPrev.isEmpty) "pindexPrev->nHeight"
  let block ← blockTransactions node.env pindexPrev scriptPubKeyIn selected
  let block ← fillHeader node.env nBaseVersion nAdjustedTime pindexPrev block
  s.testBlockValidity node nAdjustedTime block pindexPrev false false
  .ok block

/-! ## What the coinbase pays -/

theorem sum_map_nonneg {α : Type} {f : α → Int} {l : List α} (h : ∀ a ∈ l, 0 ≤ f a) :
    0 ≤ (l.map f).sum := by
  apply List.sum_nonneg
  intro v hv
  obtain ⟨a, ha, rfl⟩ := List.mem_map.mp hv
  exact h a ha

/-- Outputs whose total is in range are in range themselves, and
`GetValueOut` does not throw. -/
theorem valueOutFrom_of_total {n : Int} (hn : 0 ≤ n) (hpos : ∀ out ∈ vout, 0 ≤ out.nValue)
    (htotal : n + (vout.map (·.nValue)).sum ≤ MAX_MONEY) :
    valueOutFrom n vout = some (n + (vout.map (·.nValue)).sum) ∧
      ∀ out ∈ vout, moneyRange out.nValue = true := by
  induction vout generalizing n with
  | nil => simp [valueOutFrom]
  | cons out vout ih =>
    simp only [List.mem_cons, forall_eq_or_imp] at hpos ⊢
    rw [List.map_cons, List.sum_cons] at htotal ⊢
    have hsum : 0 ≤ (vout.map (·.nValue)).sum := sum_map_nonneg hpos.2
    have hrange : moneyRange out.nValue = true := (moneyRange_iff _).mpr ⟨hpos.1, by omega⟩
    have hnext : moneyRange (n + out.nValue) = true := (moneyRange_iff _).mpr ⟨by omega, by omega⟩
    obtain ⟨hvalue, hrest⟩ := ih (n := n + out.nValue) (by omega) hpos.2 (by omega)
    refine ⟨?_, hrange, hrest⟩
    rw [valueOutFrom, if_pos (by rw [hrange, hnext]; rfl), hvalue, Int.add_assoc]

/-- The commitment adds outputs without a value at the end of the coinbase. -/
theorem addCommitment_vtx (consensusParams : Params) (hv : block.vtx = coinbase :: rest) :
    ∃ coinbase' extra, (addCommitment H block consensusParams).vtx = coinbase' :: rest ∧
      coinbase'.vout = coinbase.vout ++ extra ∧ ∀ out ∈ extra, out.nValue = 0 := by
  unfold addCommitment
  rw [hv]
  dsimp only
  split
  · exact ⟨_, [commitmentOutput H block], rfl, rfl, by simp [commitmentOutput]⟩
  · exact ⟨coinbase, [], hv, by simp, by simp⟩

/-- The nonce goes into the witness and leaves the outputs alone. -/
theorem updateUncommittedBlockStructures_vtx (pindexPrev : BlockIndex) (consensusParams : Params)
    (hv : block.vtx = coinbase :: rest) :
    ∃ coinbase', (updateUncommittedBlockStructures block pindexPrev consensusParams).vtx =
      coinbase' :: rest ∧ coinbase'.vout = coinbase.vout := by
  unfold updateUncommittedBlockStructures
  rw [hv]
  dsimp only
  split
  · exact ⟨_, rfl, rfl⟩
  · exact ⟨coinbase, hv, rfl⟩

theorem generateCoinbaseCommitment_vtx (block : CBlock) (pindexPrev : BlockIndex)
    (consensusParams : Params) (hv : block.vtx = coinbase :: rest) :
    ∃ coinbase' extra,
      (generateCoinbaseCommitment H block pindexPrev consensusParams).vtx = coinbase' :: rest ∧
        coinbase'.vout = coinbase.vout ++ extra ∧ ∀ out ∈ extra, out.nValue = 0 := by
  obtain ⟨coinbase₁, extra, hv₁, hout, hzero⟩ := addCommitment_vtx H consensusParams hv
  obtain ⟨coinbase₂, hv₂, hout₂⟩ :=
    updateUncommittedBlockStructures_vtx pindexPrev consensusParams hv₁
  exact ⟨coinbase₂, extra, hv₂, hout₂.trans hout, hzero⟩

/-- What the coinbase of a block at a height pays: the output of the miner,
then the one of the fund where there is one, and nothing else. -/
structure PaysOut (env : Env) (nHeight : Nat) (nFees : Int) (vout : List CTxOut) : Prop where
  nonneg : ∀ out ∈ vout, 0 ≤ out.nValue
  total : (vout.map (·.nValue)).sum = baseReward env nHeight + nFees
  fund : env.net.params.inDevelopmentFundWindow nHeight = true →
    ∃ expected, expectedFundOutput env nHeight = .ok expected ∧ vout[1]? = some expected

theorem PaysOut.append {nHeight : Nat} {extra : List CTxOut} (h : PaysOut env nHeight nFees vout)
    (hzero : ∀ out ∈ extra, out.nValue = 0) : PaysOut env nHeight nFees (vout ++ extra) where
  nonneg := by
    intro out hout
    rcases List.mem_append.mp hout with hout | hout
    · exact h.nonneg out hout
    · exact Int.le_of_eq (hzero out hout).symm
  total := by
    have hextra : (extra.map (·.nValue)).sum = 0 := by
      apply List.sum_eq_zero
      intro v hv
      obtain ⟨out, hout, rfl⟩ := List.mem_map.mp hv
      exact hzero out hout
    rw [List.map_append, List.sum_append, h.total, hextra, Int.add_zero]
  fund := by
    intro hwin
    obtain ⟨expected, he, hsecond⟩ := h.fund hwin
    obtain ⟨hlt, _⟩ := List.getElem?_eq_some_iff.mp hsecond
    exact ⟨expected, he, (List.getElem?_append_left hlt).trans hsecond⟩

theorem MAX_MONEY_fits : MAX_MONEY < 2 ^ 63 := by decide

theorem baseReward_bounds (env : Env) (nHeight : Nat) :
    39062500 ≤ baseReward env nHeight ∧ baseReward env nHeight ≤ 3000 * COIN := by
  unfold baseReward
  rw [getJunkcoinBlockSubsidy_zero]
  exact baseSubsidy_bounds _ _ _

/-- Where the miner is left with something, the fees are simply added. -/
theorem addFees_eq (nFees : Int) (miner : CTxOut) (fund : List CTxOut)
    (hpos : 0 < miner.nValue + nFees) (hmax : miner.nValue + nFees ≤ MAX_MONEY) :
    addFees nFees miner fund = { miner with nValue := miner.nValue + nFees } :: fund := by
  have hfits : int64 (miner.nValue + nFees) = miner.nValue + nFees :=
    int64_of_fits (by omega) (Int.lt_of_le_of_lt hmax MAX_MONEY_fits)
  unfold addFees
  rw [hfits]
  exact if_neg (by omega)

section Coinbase

variable {env : Env} {nHeight : Nat} {nFees : Int}

/-- The fund can be paid at a height: its script is known where it is asked
for, and its share leaves something of the subsidy. -/
structure FundReady (env : Env) (nHeight : Nat) : Prop where
  script : env.net.params.inDevelopmentFundWindow nHeight = true →
    ∃ script, getDevelopmentFundScriptAtHeight env nHeight = .ok script
  share_nonneg : 0 ≤ env.fundShare (baseReward env nHeight)
  share_lt : env.fundShare (baseReward env nHeight) < baseReward env nHeight

/-- The miner and the fund share the subsidy. -/
theorem splitReward_ok (scriptPubKeyIn : CScript) (h : FundReady env nHeight)
    (hmax : baseReward env nHeight ≤ MAX_MONEY) :
    ∃ miner fund, splitReward env nHeight scriptPubKeyIn = .ok (miner, fund) ∧
      0 < miner.nValue ∧ (∀ out ∈ fund, 0 ≤ out.nValue) ∧
      miner.nValue + (fund.map (·.nValue)).sum = baseReward env nHeight ∧
      (env.net.params.inDevelopmentFundWindow nHeight = true →
        ∃ expected, expectedFundOutput env nHeight = .ok expected ∧ fund[0]? = some expected) := by
  have hlt : baseReward env nHeight < 2 ^ 63 := Int.lt_of_le_of_lt hmax MAX_MONEY_fits
  have hshare := h.share_nonneg
  have hleaves := h.share_lt
  unfold splitReward
  split
  · rename_i hwin
    obtain ⟨script, hs⟩ := h.script hwin
    have hfund : nDevelopmentFund env nHeight = env.fundShare (baseReward env nHeight) :=
      if_neg (by omega)
    have hcut : int64 (baseReward env nHeight - nDevelopmentFund env nHeight) =
        baseReward env nHeight - nDevelopmentFund env nHeight :=
      int64_of_fits (by omega) (by omega)
    rw [hs, hcut, hfund]
    refine ⟨_, _, rfl, ?_, ?_, ?_, ?_⟩
    · simp only
      omega
    · simpa using hshare
    · simp
    · exact fun _ => ⟨_, expectedFundOutput_ok.mpr ⟨hs, rfl⟩, rfl⟩
  · rename_i hwin
    refine ⟨_, _, rfl, lt_of_lt_of_le (by decide) (baseReward_bounds env nHeight).1,
      by simp, by simp, ?_⟩
    exact fun hin => absurd hin hwin

theorem createCoinbase_paysOut (scriptPubKeyIn : CScript) (h : FundReady env nHeight)
    (hfees : 0 ≤ nFees) (hmax : baseReward env nHeight + nFees ≤ MAX_MONEY) :
    ∃ coinbase, createCoinbase env nHeight scriptPubKeyIn nFees = .ok coinbase ∧
      PaysOut env nHeight nFees coinbase.vout := by
  obtain ⟨miner, fund, hsplit, hpos, hfund, htotal, hout⟩ :=
    splitReward_ok scriptPubKeyIn h (by omega)
  have hsum : 0 ≤ (fund.map (·.nValue)).sum := sum_map_nonneg hfund
  have hvout := addFees_eq nFees miner fund (by omega) (by omega)
  unfold createCoinbase
  rw [hsplit]
  refine ⟨_, rfl, ?_⟩
  rw [hvout]
  constructor
  · simp only [List.mem_cons, forall_eq_or_imp]
    exact ⟨by omega, hfund⟩
  · simp only [List.map_cons, List.sum_cons]
    omega
  · intro hwin
    obtain ⟨expected, he, hfirst⟩ := hout hwin
    exact ⟨expected, he, hfirst⟩

end Coinbase

/-! ## The miner and the validator -/

theorem totalFees_eq (hfees : ∀ t ∈ selected, 0 ≤ t.fee)
    (hmax : (selected.map (·.fee)).sum ≤ MAX_MONEY) :
    totalFees selected = (selected.map (·.fee)).sum := by
  have hnonneg : 0 ≤ (selected.map (·.fee)).sum := sum_map_nonneg hfees
  exact int64_of_fits (by omega) (Int.lt_of_le_of_lt hmax MAX_MONEY_fits)

/-- The header is filled in around the transactions. -/
theorem fillHeader_vtx {block' : CBlock}
    (h : fillHeader env nBaseVersion nAdjustedTime pindexPrev block = .ok block') :
    block'.vtx = block.vtx := by
  obtain ⟨nVersion, _, h⟩ := bind_ok h
  obtain ⟨nBits, _, h⟩ := bind_ok h
  cases h
  rfl

theorem createNewBlock_vtx {node : Node} {s : NodeState} {scriptPubKeyIn : CScript}
    {template : CBlock}
    (hblock : blockTransactions node.env s.chain.chainActive scriptPubKeyIn selected = .ok block)
    (h : s.createNewBlock node nBaseVersion nAdjustedTime scriptPubKeyIn selected = .ok template) :
    template.vtx = block.vtx := by
  obtain ⟨_, _, h⟩ := bind_ok h
  obtain ⟨block', hblock', h⟩ := bind_ok h
  obtain ⟨filled, hfill, h⟩ := bind_ok h
  obtain ⟨_, _, h⟩ := bind_ok h
  cases h
  cases hblock.symm.trans hblock'
  exact fillHeader_vtx hfill

/-- The transactions of a new block: the coinbase pays out what the validator
allows, and then come the selected transactions. -/
theorem blockTransactions_paysOut (scriptPubKeyIn : CScript) (h : FundReady env pindexPrev.length)
    (hfees : ∀ t ∈ selected, 0 ≤ t.fee)
    (hmax : baseReward env pindexPrev.length + (selected.map (·.fee)).sum ≤ MAX_MONEY) :
    ∃ block coinbase, blockTransactions env pindexPrev scriptPubKeyIn selected = .ok block ∧
      block.vtx = coinbase :: selected.map (·.tx) ∧
      PaysOut env pindexPrev.length (selected.map (·.fee)).sum coinbase.vout := by
  have hpos := baseReward_bounds env pindexPrev.length
  obtain ⟨coinbaseTx, hcoinbase, hpays⟩ :=
    createCoinbase_paysOut scriptPubKeyIn h (sum_map_nonneg hfees) hmax
  unfold blockTransactions
  rw [totalFees_eq hfees (by omega), hcoinbase]
  obtain ⟨coinbase, extra, hv, hvout, hzero⟩ := generateCoinbaseCommitment_vtx env.H
    { nullHeader with vtx := coinbaseTx :: selected.map (·.tx) } pindexPrev
    (consensusAfter env.net pindexPrev) rfl
  refine ⟨_, coinbase, rfl, hv, ?_⟩
  rw [hvout]
  exact hpays.append hzero

/-- The validator takes a coinbase that pays out in this way. -/
theorem PaysOut.valid (hv : block.vtx = coinbase :: rest)
    (h : PaysOut env pindexPrev.length nFees coinbase.vout)
    (hmax : baseReward env pindexPrev.length + nFees ≤ MAX_MONEY) :
    coinbase.getValueOut = some (baseReward env pindexPrev.length + nFees) ∧
      FundInPlace env pindexPrev.length block ∧
      checkDevelopmentFund env block pindexPrev.length = .ok () ∧
      ∀ out ∈ coinbase.vout, moneyRange out.nValue = true := by
  have htotal : 0 + (coinbase.vout.map (·.nValue)).sum ≤ MAX_MONEY := by
    rw [h.total]
    omega
  obtain ⟨hvalue, hrange⟩ := valueOutFrom_of_total (Int.le_refl 0) h.nonneg htotal
  have hplace : FundInPlace env pindexPrev.length block := by
    intro hwin
    obtain ⟨expected, he, hsecond⟩ := h.fund hwin
    exact ⟨expected, coinbase, rest, he, hv, hsecond⟩
  refine ⟨?_, hplace, ?_, hrange⟩
  · unfold CTransaction.getValueOut
    rw [hvalue, h.total, Int.zero_add]
  · apply checkDevelopmentFund_ok.mpr
    intro hwin
    obtain ⟨expected, cb, rest', he, hv', hsecond⟩ := hplace hwin
    exact ⟨expected, cb, rest', he, hv', List.mem_of_getElem? hsecond⟩

/-- Fees that fit beside the subsidy are not cut. -/
theorem subsidy_with_fees (hfees : 0 ≤ nFees)
    (hmax : baseReward env pindexPrev.length + nFees ≤ MAX_MONEY) :
    getJunkcoinBlockSubsidy env.mtRandom pindexPrev.length nFees
      (consensusAfter env.net pindexPrev) = baseReward env pindexPrev.length + nFees := by
  have hpos := baseReward_bounds env pindexPrev.length
  have hbase : baseSubsidy (env.mtRandom pindexPrev.length) pindexPrev.length
      (consensusAfter env.net pindexPrev) = baseReward env pindexPrev.length :=
    (getJunkcoinBlockSubsidy_zero _ _ _).symm
  unfold getJunkcoinBlockSubsidy
  rw [hbase]
  exact int64_of_fits (by omega) (Int.lt_of_le_of_lt hmax MAX_MONEY_fits)

theorem checkReward_of_paid {header : CBlockHeader} (hv : block.vtx = coinbase :: rest)
    (hpaid : coinbase.getValueOut = some (getJunkcoinBlockSubsidy env.mtRandom pindexPrev.length
      nFees (consensusAfter env.net pindexPrev))) :
    checkReward env block (header :: pindexPrev) nFees = .ok () := by
  have hheight : nHeight (header :: pindexPrev) = pindexPrev.length := by simp [nHeight]
  unfold checkReward valueOutOrThrow
  rw [hv, hheight]
  simp only [hpaid, List.tail_cons]
  apply rejectIf_ok.mpr
  simp

/-- For every tip and every selection, the coinbase that the miner builds
pays out the subsidy and the fees to the last satoshi, holds the output of the
fund, and has all its values in range. The share of the fund must leave
something of the subsidy, and the fees must fit beside the subsidy. -/
theorem miner_and_validator_agree (node : Node) (s : NodeState) (scriptPubKeyIn : CScript)
    (selected : List SelectedTx)
    (hscript : node.env.net.params.inDevelopmentFundWindow s.chain.chainActive.length = true →
      ∃ script, getDevelopmentFundScriptAtHeight node.env s.chain.chainActive.length = .ok script)
    (hshare : 0 ≤ node.env.fundShare (baseReward node.env s.chain.chainActive.length))
    (hleaves : node.env.fundShare (baseReward node.env s.chain.chainActive.length) <
      baseReward node.env s.chain.chainActive.length)
    (hfees : ∀ t ∈ selected, 0 ≤ t.fee)
    (hmax : baseReward node.env s.chain.chainActive.length + (selected.map (·.fee)).sum ≤
      MAX_MONEY) :
    ∃ block coinbase,
      blockTransactions node.env s.chain.chainActive scriptPubKeyIn selected = .ok block ∧
      (∀ nBaseVersion nAdjustedTime template,
        s.createNewBlock node nBaseVersion nAdjustedTime scriptPubKeyIn selected = .ok template →
        template.vtx = block.vtx) ∧
      block.vtx = coinbase :: selected.map (·.tx) ∧
      coinbase.getValueOut =
        some (baseReward node.env s.chain.chainActive.length + totalFees selected) ∧
      getJunkcoinBlockSubsidy node.env.mtRandom s.chain.chainActive.length (totalFees selected)
          (consensusAfter node.env.net s.chain.chainActive) =
        baseReward node.env s.chain.chainActive.length + totalFees selected ∧
      (∀ header, checkReward node.env block (header :: s.chain.chainActive) (totalFees selected) =
        .ok ()) ∧
      checkDevelopmentFund node.env block s.chain.chainActive.length = .ok () ∧
      FundInPlace node.env s.chain.chainActive.length block ∧
      ∀ out ∈ coinbase.vout, moneyRange out.nValue = true := by
  have hsum : 0 ≤ (selected.map (·.fee)).sum := sum_map_nonneg hfees
  obtain ⟨block, coinbase, hblock, hv, hpays⟩ :=
    blockTransactions_paysOut scriptPubKeyIn ⟨hscript, hshare, hleaves⟩ hfees hmax
  obtain ⟨hvalue, hplace, hrule, hrange⟩ := hpays.valid hv hmax
  have htotal : totalFees selected = (selected.map (·.fee)).sum := totalFees_eq hfees (by omega)
  have hreward := subsidy_with_fees hsum hmax
  rw [htotal]
  refine ⟨block, coinbase, hblock, ?_, hv, hvalue, hreward, ?_, hrule, hplace, hrange⟩
  · intro nBaseVersion nAdjustedTime template h
    exact createNewBlock_vtx hblock h
  · intro header
    exact checkReward_of_paid hv (hvalue.trans (congrArg some hreward.symm))

/-- On the regression test network at height two, with one transaction that
leaves a fee. -/
theorem miner_and_validator_agree_sample :
    ∃ block coinbase,
      blockTransactions regtestNode.env regtestTip [0x51] [⟨sampleTx [] [], 7⟩] = .ok block ∧
      block.vtx = coinbase :: [sampleTx [] []] ∧
      checkDevelopmentFund regtestNode.env block 2 = .ok () ∧
      coinbase.getValueOut = some (1000 * COIN + 7) := by
  obtain ⟨block, coinbase, hblock, _, hv, hvalue, _, _, hrule, _⟩ :=
    miner_and_validator_agree regtestNode regtestState [0x51] [⟨sampleTx [] [], 7⟩]
      (fun _ => ⟨payToScriptID (List.replicate 20 7), by decide +kernel⟩)
      (by decide +kernel) (by decide +kernel) (by simp) (by decide +kernel)
  have htotal : baseReward regtestNode.env regtestState.chain.chainActive.length +
      totalFees [⟨sampleTx [] [], 7⟩] = 1000 * COIN + 7 := by decide +kernel
  exact ⟨block, coinbase, hblock, hv, hrule, hvalue⟩

/-- A node whose fund would take the whole subsidy. -/
def greedyNode : Node := { regtestNode with env := { regtestNode.env with fundShare := id } }

/-- A share that leaves nothing is paid in part only, and the validator
refuses the block. Fees that do not fit put the output of the miner out of
range. -/
theorem greedy_fund_is_refused :
    (∀ x, 0 ≤ x → 0 ≤ greedyNode.env.fundShare x ∧ greedyNode.env.fundShare x ≤ x) ∧
      (∃ script, getDevelopmentFundScriptAtHeight greedyNode.env 2 = .ok script) ∧
      (∃ block, blockTransactions greedyNode.env regtestTip [0x51] [] = .ok block ∧
        checkDevelopmentFund greedyNode.env block 2 =
          doS 100 "cb-wrong-development-fund-amount") ∧
      ∃ block coinbase, blockTransactions regtestNode.env regtestTip [0x51]
          [⟨sampleTx [] [], MAX_MONEY⟩] = .ok block ∧
        block.vtx.head? = some coinbase ∧ ∃ out ∈ coinbase.vout, moneyRange out.nValue = false := by
  have hgreedy : okWith (blockTransactions greedyNode.env regtestTip [0x51] []) (fun block =>
      checkDevelopmentFund greedyNode.env block 2 ==
        doS 100 "cb-wrong-development-fund-amount") = true := by decide +kernel
  have hlarge : okWith (blockTransactions regtestNode.env regtestTip [0x51]
      [⟨sampleTx [] [], MAX_MONEY⟩]) (fun block =>
        block.vtx.head?.any fun coinbase =>
          coinbase.vout.any fun out => !moneyRange out.nValue) = true := by decide +kernel
  refine ⟨fun x hx => ⟨hx, Int.le_refl x⟩, ⟨payToScriptID (List.replicate 20 7), ?_⟩, ?_, ?_⟩
  · decide +kernel
  · obtain ⟨block, hblock, hrefused⟩ := of_okWith hgreedy
    exact ⟨block, hblock, beq_iff_eq.mp hrefused⟩
  · obtain ⟨block, hblock, hout⟩ := of_okWith hlarge
    simp only [Option.any_eq_true, List.any_eq_true, Bool.not_eq_true'] at hout
    obtain ⟨coinbase, hfirst, out, hmem, hrange⟩ := hout
    exact ⟨block, coinbase, hblock, hfirst, out, hmem, hrange⟩

end junkcoin
