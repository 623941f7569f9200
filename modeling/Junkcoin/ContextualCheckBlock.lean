-- The checks of a block against its place in the chain
-- (`ContextualCheckBlock`), with the development fund: which address a height
-- pays to, and which output the coinbase must hold.
import Junkcoin.CheckBlock

namespace junkcoin

variable {expected : CTxOut} {vout : List CTxOut} {env : Env} {nHeight : Nat} (block : CBlock)

/-! ## The development fund -/

/-- The heights at which the coinbase pays to the fund. -/
def CChainParams.inDevelopmentFundWindow (cp : CChainParams) (nHeight : Nat) : Bool :=
  nHeight > cp.vDevelopmentFundStartHeight && nHeight ≤ cp.vDevelopmentFundLastHeight

/-- `GetDevelopmentFundAddressAtHeight`. The divisions are those of
`size_t`, and nothing bounds the index. -/
def CChainParams.getDevelopmentFundAddressAtHeight (cp : CChainParams) (nHeight : Nat) :
    Check String := do
  let size := cp.vDevelopmentFundAddress.length
  assert (nHeight ≥ cp.vDevelopmentFundStartHeight && nHeight ≤ cp.vDevelopmentFundLastHeight)
    "nHeight >= vDevelopmentFundStartHeight && nHeight <= vDevelopmentFundLastHeight"
  let addressChangeInterval :=
    (cp.vDevelopmentFundLastHeight - cp.vDevelopmentFundStartHeight + 1).toNat / size
  assert (size != 0 && addressChangeInterval != 0) "division by zero"
  let i := (nHeight - cp.vDevelopmentFundStartHeight).toNat / addressChangeInterval
  match cp.vDevelopmentFundAddress[i]? with
  | none => .error (.crash "vDevelopmentFundAddress[i]")
  | some address => .ok address

/-- The script that pays to a script id. -/
def payToScriptID (hash : List UInt8) : CScript := OP_HASH160 :: (pushData hash ++ [OP_EQUAL])

/-- `GetDevelopmentFundScriptAtHeight`. -/
def getDevelopmentFundScriptAtHeight (env : Env) (nHeight : Nat) : Check CScript := do
  assert (nHeight > 0 && nHeight ≤ env.net.params.vDevelopmentFundLastHeight)
    "nHeight > 0 && nHeight <= GetLastDevelopmentFundBlockHeight()"
  let address ← env.net.params.getDevelopmentFundAddressAtHeight nHeight
  match env.decodeAddress address with
  | .noDestination => .error (.crash "address.IsValid()")
  | .keyID _ => .error (.crash "scriptID != NULL")
  | .scriptID hash => .ok (payToScriptID hash)

/-- The subsidy of a height without the fees. -/
def baseReward (env : Env) (nHeight : Nat) : Int :=
  getJunkcoinBlockSubsidy env.mtRandom nHeight 0 (env.net.params.getConsensus nHeight)

/-- The output that the fund is owed at a height. -/
def expectedFundOutput (env : Env) (nHeight : Nat) : Check CTxOut := do
  let expectedDevFundScript ← getDevelopmentFundScriptAtHeight env nHeight
  .ok ⟨env.fundShare (baseReward env nHeight), expectedDevFundScript⟩

/-- The loop over the outputs: whether the output was found, and whether its
script was seen. -/
def findFundOutput (expected : CTxOut) : List CTxOut → (correctScript : Bool) → Bool × Bool
  | [], correctScript => (false, correctScript)
  | output :: vout, correctScript =>
    if output.scriptPubKey = expected.scriptPubKey then
      if output.nValue = expected.nValue then (true, true) else findFundOutput expected vout true
    else findFundOutput expected vout correctScript

/-- What `ContextualCheckBlock` says about the outputs of a coinbase. The
reason `cb-no-development-fund` has no case left. -/
def checkFundOutputs (expected : CTxOut) (vout : List CTxOut) : Check Unit :=
  match findFundOutput expected vout false with
  | (true, _) => .ok ()
  | (false, true) => doS 100 "cb-wrong-development-fund-amount"
  | (false, false) => doS 100 "cb-wrong-development-fund-script"

/-- The rule for the development fund at a height. -/
def checkDevelopmentFund (env : Env) (block : CBlock) (nHeight : Nat) : Check Unit :=
  if env.net.params.inDevelopmentFundWindow nHeight then do
    let expected ← expectedFundOutput env nHeight
    let _ ← env.net.params.getDevelopmentFundAddressAtHeight nHeight
    match block.vtx with
    | [] => .error (.crash "block.vtx[0]")
    | coinbase :: _ => checkFundOutputs expected coinbase.vout
  else .ok ()

/-! ## Final transactions and the height in the coinbase -/

def LOCKTIME_THRESHOLD : Nat := 500000000

/-- `IsFinalTx`. -/
def isFinalTx (tx : CTransaction) (nBlockHeight nBlockTime : Int) : Bool :=
  tx.nLockTime == 0 ||
    tx.nLockTime.toNat < (if tx.nLockTime.toNat < LOCKTIME_THRESHOLD then nBlockHeight
      else nBlockTime) ||
    tx.vin.all (·.nSequence == SEQUENCE_FINAL)

/-- The time that lock times are compared with. -/
def nLockTimeCutoff (pindexPrev : BlockIndex) (consensusParams : Params) : Int :=
  if versionBitsState pindexPrev consensusParams .csv = .active then getMedianTimePast pindexPrev
  else block.getBlockTime

/-- The first input of the first transaction. -/
def coinbaseInput : Check CTxIn :=
  match block.vtx with
  | [] => .error (.crash "block.vtx[0]")
  | coinbase :: _ =>
    match coinbase.vin with
    | [] => .error (.crash "block.vtx[0]->vin[0]")
    | txin :: _ => .ok txin

/-- BIP34: the coinbase starts with the height. -/
def checkCoinbaseHeight (pindexPrev : BlockIndex) (consensusParams : Params) : Check Unit :=
  if fEnforceBIP34 pindexPrev consensusParams then do
    let txin ← coinbaseInput block
    rejectIf (!(pushInt64 pindexPrev.length).isPrefixOf txin.scriptSig) 100 "bad-cb-height"
  else .ok ()

/-! ## Witness commitments -/

/-- The first bytes of the script of a commitment. -/
def witnessCommitmentHeader : CScript := [OP_RETURN, 0x24, 0xaa, 0x21, 0xa9, 0xed]

def isWitnessCommitment (script : CScript) : Bool :=
  script.length ≥ 38 && witnessCommitmentHeader.isPrefixOf script

/-- `GetWitnessCommitmentIndex`: the last output with a commitment. -/
def getWitnessCommitmentIndex : Option Nat :=
  match block.vtx with
  | [] => none
  | coinbase :: _ =>
    ((coinbase.vout.zipIdx.filter fun o => isWitnessCommitment o.1.scriptPubKey).getLast?).map (·.2)

/-- The 32 bytes that a commitment commits to. -/
def commitmentAt (commitpos : Nat) : List UInt8 :=
  match block.vtx.head?.bind (·.vout[commitpos]?) with
  | none => []
  | some out => (out.scriptPubKey.drop 6).take 32

/-- The commitment is to the witness root and the nonce in the coinbase. -/
def checkWitnessCommitment (H : Hashes) (block : CBlock) (commitpos : Nat) : Check Unit := do
  let txin ← coinbaseInput block
  match txin.scriptWitness with
  | [nonce] =>
    rejectIf (nonce.length != 32) 100 "bad-witness-nonce-size" true
    rejectIf ((H.sha256d ((blockWitnessMerkleRoot H block).1.bytes ++ nonce)).bytes !=
      commitmentAt block commitpos) 100 "bad-witness-merkle-match" true
  | _ => doS 100 "bad-witness-nonce-size" true

/-- A block without a commitment has no witness at all. -/
def checkWitness (H : Hashes) (block : CBlock) (pindexPrev : BlockIndex)
    (consensusParams : Params) : Check Unit :=
  match isWitnessEnabled pindexPrev consensusParams, getWitnessCommitmentIndex block with
  | true, some commitpos => checkWitnessCommitment H block commitpos
  | _, _ => rejectIf (block.vtx.any (·.hasWitness)) 100 "unexpected-witness" true

/-- `ContextualCheckBlock`. -/
def contextualCheckBlock (env : Env) (block : CBlock) (pindexPrev : BlockIndex) : Check Unit := do
  let consensusParams := consensusAfter env.net pindexPrev
  rejectIf (block.vtx.any fun tx =>
    !isFinalTx tx pindexPrev.length (nLockTimeCutoff block pindexPrev consensusParams)) 10
    "bad-txns-nonfinal"
  checkCoinbaseHeight block pindexPrev consensusParams
  checkDevelopmentFund env block pindexPrev.length
  checkWitness env.H block pindexPrev consensusParams
  rejectIf (getBlockWeight block > MAX_BLOCK_WEIGHT) 100 "bad-blk-weight"

/-! ## What the fund rule asks for -/

theorem findFundOutput_found (correctScript : Bool) :
    (findFundOutput expected vout correctScript).1 = true ↔ expected ∈ vout := by
  induction vout generalizing correctScript with
  | nil => simp [findFundOutput]
  | cons output vout ih =>
    unfold findFundOutput
    split
    · rename_i hscript
      split
      · rename_i hvalue
        have heq : expected = output := by
          cases expected
          cases output
          simp_all
        simp [heq]
      · rename_i hvalue
        have hne : expected ≠ output := fun h => hvalue (h ▸ rfl)
        simp [ih, hne]
    · rename_i hscript
      have hne : expected ≠ output := fun h => hscript (h ▸ rfl)
      simp [ih, hne]

theorem checkFundOutputs_ok : checkFundOutputs expected vout = .ok () ↔ expected ∈ vout := by
  rw [← findFundOutput_found false]
  unfold checkFundOutputs doS
  split <;> simp [*]

/-- A script can be looked up only where the address can. -/
theorem address_of_script {script : CScript}
    (h : getDevelopmentFundScriptAtHeight env nHeight = .ok script) :
    ∃ address, env.net.params.getDevelopmentFundAddressAtHeight nHeight = .ok address := by
  obtain ⟨_, _, h⟩ := bind_ok h
  obtain ⟨address, ha, _⟩ := bind_ok h
  exact ⟨address, ha⟩

theorem expectedFundOutput_ok :
    expectedFundOutput env nHeight = .ok expected ↔
      getDevelopmentFundScriptAtHeight env nHeight = .ok expected.scriptPubKey ∧
      expected.nValue = env.fundShare (baseReward env nHeight) := by
  unfold expectedFundOutput
  rw [bind_ok_iff]
  constructor
  · rintro ⟨script, hscript, heq⟩
    cases heq
    exact ⟨hscript, rfl⟩
  · rintro ⟨hscript, hvalue⟩
    refine ⟨_, hscript, ?_⟩
    rw [← hvalue]

/-- Inside of the window the rule asks for the output of the fund, anywhere
in the coinbase. -/
theorem checkDevelopmentFund_ok {block : CBlock} :
    checkDevelopmentFund env block nHeight = .ok () ↔
      (env.net.params.inDevelopmentFundWindow nHeight = true →
        ∃ expected coinbase rest, expectedFundOutput env nHeight = .ok expected ∧
          block.vtx = coinbase :: rest ∧ expected ∈ coinbase.vout) := by
  unfold checkDevelopmentFund
  split
  · rename_i hwin
    simp only [hwin, forall_const]
    constructor
    · intro h
      obtain ⟨expected, he, h⟩ := bind_ok h
      obtain ⟨_, _, h⟩ := bind_ok h
      rcases hv : block.vtx with _ | ⟨coinbase, rest⟩
      · rw [hv] at h
        cases h
      · rw [hv] at h
        exact ⟨expected, coinbase, rest, he, rfl, checkFundOutputs_ok.mp h⟩
    · rintro ⟨expected, coinbase, rest, he, hv, hmem⟩
      obtain ⟨address, ha⟩ := address_of_script (expectedFundOutput_ok.mp he).1
      rw [he, ha, hv]
      exact checkFundOutputs_ok.mpr hmem
  · rename_i hwin
    simp [hwin]

end junkcoin
