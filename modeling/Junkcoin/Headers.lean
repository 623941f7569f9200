-- Proof of work and the rules for headers (`pow.cpp`, `junkcoin.cpp` and the
-- header checks of `validation.cpp`), and the chains of headers that pass
-- them.
import Junkcoin.AuxPow
import Junkcoin.Versionbits

namespace junkcoin

/-! ## Compact targets -/

/-- `arith_uint256::SetCompact`: the target, and whether it is negative or
too large. -/
def setCompact (nCompact : UInt32) : Nat × Bool × Bool :=
  let nSize := nCompact.toNat / 2 ^ 24
  let nWord := nCompact.toNat % 2 ^ 23
  let nWord := if nSize ≤ 3 then nWord / 2 ^ (8 * (3 - nSize)) else nWord
  let value := if nSize ≤ 3 then nWord else nWord * 2 ^ (8 * (nSize - 3)) % 2 ^ 256
  let fNegative := nWord != 0 && nCompact.toNat.testBit 23
  let fOverflow := nWord != 0 && (nSize > 34 || (nWord > 0xff && nSize > 33) ||
    (nWord > 0xffff && nSize > 32))
  (value, fNegative, fOverflow)

/-- The position of the highest bit, counted from one. -/
def bits (bn : Nat) : Nat := if bn = 0 then 0 else Nat.log2 bn + 1

/-- `arith_uint256::GetCompact` of a number that is not negative. -/
def getCompact (bn : Nat) : UInt32 :=
  let nSize := (bits bn + 7) / 8
  let nCompact := if nSize ≤ 3 then bn * 2 ^ (8 * (3 - nSize)) else bn / 2 ^ (8 * (nSize - 3))
  -- the bit 0x00800000 is the sign, so the mantissa must not reach it
  let (nCompact, nSize) := if nCompact.testBit 23 then (nCompact / 256, nSize + 1)
    else (nCompact, nSize)
  UInt32.ofNat (nCompact + nSize * 2 ^ 24)

/-! ## Proof of work -/

/-- `CheckProofOfWork`. -/
def checkProofOfWork (hash : Uint256) (nBits : UInt32) (params : Params) : Check Unit :=
  let (bnTarget, fNegative, fOverflow) := setCompact nBits
  do
    errorIf (fNegative || bnTarget == 0 || fOverflow || bnTarget > params.powLimit) "range"
    errorIf (hash.toNat > bnTarget) "Check proof of work matches claimed amount"

variable (H : Hashes) (net : Network)

def hashGenesisBlock : Uint256 := net.params.genesis.getHash H

/-- `CheckAuxPowProofOfWork`. -/
def checkAuxPowProofOfWork (block : CBlockHeader) (params : Params) : Check Unit := do
  errorIf (!block.isLegacy && params.fStrictChainId && block.getChainId != params.nAuxpowChainId)
    "block does not have our chain ID"
  match block.auxpow with
  | none =>
    errorIf block.isAuxpow "no auxpow on block with auxpow version"
    if block.getHash H == hashGenesisBlock H net && block.isLegacy then .ok ()
    else checkProofOfWork (block.getPoWHash H) block.nBits params
  | some auxpow =>
    errorIf (!block.isAuxpow) "auxpow on block with non-auxpow version"
    auxpow.check H (block.getHash H) block.getChainId params
    checkProofOfWork (auxpow.parentBlock.getPoWHash H) block.nBits params

def allowDigishieldMinDifficultyForBlock (pindexLast : BlockIndex) (pblock : CBlockHeader)
    (params : Params) : Bool :=
  params.fPowAllowMinDifficultyBlocks &&
    !((nHeight pindexLast).toNat < params.nHeightEffective) &&
    pblock.getBlockTime >
      (pindexLast.head?.map (·.getBlockTime)).getD 0 + params.nPowTargetSpacing * 2

/-- `CalculateJunkcoinNextWorkRequired`. The timespan is cut to 32 bits by
the multiplication, and the product to 256 bits. -/
def calculateJunkcoinNextWorkRequired (fNewDifficultyProtocol : Bool)
    (nTargetTimespanCurrent : Int) (lastHeight : Int) (last : CBlockHeader)
    (nFirstBlockTime : Int) (params : Params) : UInt32 :=
  let height := lastHeight + 1
  let nActualTimespanMin := if fNewDifficultyProtocol then
    nTargetTimespanCurrent - nTargetTimespanCurrent / 4 else nTargetTimespanCurrent / 4
  let nActualTimespanMax := if fNewDifficultyProtocol then
    nTargetTimespanCurrent + nTargetTimespanCurrent / 4 else nTargetTimespanCurrent * 4
  let nActualTimespan := last.getBlockTime - nFirstBlockTime
  let nActualTimespan :=
    if height > 10000 then max nActualTimespanMin (min nActualTimespan nActualTimespanMax)
    else if height > 5000 then
      max (nActualTimespanMin / 2) (min nActualTimespan nActualTimespanMax)
    else max (nActualTimespanMin / 4) (min nActualTimespan nActualTimespanMax)
  let bnNew := (setCompact last.nBits).1 * (nActualTimespan % 2 ^ 32).toNat % 2 ^ 256
  let bnNew := bnNew / nTargetTimespanCurrent.toNat
  getCompact (if bnNew > params.powLimit then params.powLimit else bnNew)

/-- The last block that did not use the rule for minimum difficulty. -/
def lastNonMinBits (interval : Int) (nProofOfWorkLimit : UInt32) : BlockIndex → UInt32
  | [] => 0
  | [b] => b.nBits
  | b :: p :: ps =>
    if nHeight (b :: p :: ps) % interval ≠ 0 ∧ b.nBits = nProofOfWorkLimit then
      lastNonMinBits interval nProofOfWorkLimit (p :: ps)
    else b.nBits

/-- `GetNextWorkRequired`. -/
def getNextWorkRequired (pindexLast : BlockIndex) (pblock : CBlockHeader) (params : Params) :
    Check UInt32 :=
  let nProofOfWorkLimit := getCompact params.powLimit
  match pindexLast with
  | [] => .ok nProofOfWorkLimit
  | last :: _ =>
    if allowDigishieldMinDifficultyForBlock pindexLast pblock params then .ok nProofOfWorkLimit
    else
      let fNewDifficultyProtocol : Bool := nHeight pindexLast + 1 ≥ 69360
      let nTargetTimespanCurrent := if fNewDifficultyProtocol then params.nPowTargetTimespan
        else params.nPowTargetTimespan * 12
      let difficultyAdjustmentInterval := nTargetTimespanCurrent / params.nPowTargetSpacing
      if (nHeight pindexLast + 1) % difficultyAdjustmentInterval ≠ 0 then
        if params.fPowAllowMinDifficultyBlocks then
          if pblock.getBlockTime > last.getBlockTime + params.nPowTargetSpacing * 2 then
            .ok nProofOfWorkLimit
          else .ok (lastNonMinBits params.difficultyAdjustmentInterval nProofOfWorkLimit pindexLast)
        else .ok last.nBits
      else
        let blockstogoback := if nHeight pindexLast + 1 ≠ difficultyAdjustmentInterval then
          difficultyAdjustmentInterval else difficultyAdjustmentInterval - 1
        let nHeightFirst := nHeight pindexLast - blockstogoback
        match getAncestor pindexLast nHeightFirst with
        | [] => .error (.crash "pindexFirst")
        | first :: _ =>
          .ok (calculateJunkcoinNextWorkRequired fNewDifficultyProtocol nTargetTimespanCurrent
            (nHeight pindexLast) last first.getBlockTime params)

/-! ## The checks of a header -/

/-- `CheckBlockHeader`. -/
def checkBlockHeader (block : CBlockHeader) (fCheckPOW : Bool) : Check Unit :=
  if fCheckPOW then
    orDoS (checkAuxPowProofOfWork H net block (net.params.getConsensus 0)) 50 "high-hash"
  else .ok ()

/-- The test of the version at the end of `ContextualCheckBlockHeader`, with
the comparisons as they stand there. -/
def badVersion (block : CBlockHeader) (stateBip34 stateBip65 stateBip66 : ThresholdState) : Bool :=
  (block.getBaseVersion < 2 && (stateBip34 == .active && stateBip34 == .lockedIn)) ||
    (block.getBaseVersion < 3 && (stateBip66 == .active && stateBip65 == .lockedIn)) ||
    (block.getBaseVersion < 4 && (stateBip65 == .active && stateBip66 == .lockedIn))

/-- Eight hexadecimal digits, as `%08x` prints an `int32_t`. -/
def hex8 (n : Int) : String :=
  let digits := Nat.toDigits 16 (n % 2 ^ 32).toNat
  String.ofList (List.replicate (8 - digits.length) '0' ++ digits)

/-- The parameters for the block after `pindexPrev`. -/
def consensusAfter (pindexPrev : BlockIndex) : Params := net.params.getConsensus pindexPrev.length

/-- The rules of `ContextualCheckBlockHeader` before the test of the version. -/
def contextualHeaderRules (block : CBlockHeader) (pindexPrev : BlockIndex)
    (nAdjustedTime : Int) : Check Unit := do
  let height : Int := pindexPrev.length
  let consensusParams := consensusAfter net pindexPrev
  rejectIf (!consensusParams.allowLegacyBlocks height && block.isLegacy) 100 "late-legacy-block"
  rejectIf (consensusParams.allowLegacyBlocks height && block.isAuxpow) 100 "early-auxpow-block"
  let required ← getNextWorkRequired pindexPrev block consensusParams
  rejectIf (block.nBits != required) 100 "bad-diffbits"
  rejectIf (block.getBlockTime ≤ getMedianTimePast pindexPrev) 0 "time-too-old"
  rejectIf (block.getBlockTime > nAdjustedTime + 2 * 60 * 60) 0 "time-too-new"

/-- `ContextualCheckBlockHeader`. -/
def contextualCheckBlockHeader (block : CBlockHeader) (pindexPrev : BlockIndex)
    (nAdjustedTime : Int) : Check Unit := do
  contextualHeaderRules net block pindexPrev nAdjustedTime
  let consensusParams := consensusAfter net pindexPrev
  let stateBip34 := versionBitsState pindexPrev consensusParams .bip34
  let stateBip65 := versionBitsState pindexPrev consensusParams .bip65
  let stateBip66 := versionBitsState pindexPrev consensusParams .bip66
  rejectIf (badVersion block stateBip34 stateBip65 stateBip66) 0
    ("bad-version(0x" ++ hex8 block.getBaseVersion ++ ")")

/-- What the rules before the test of the version ask for. -/
theorem contextualHeaderRules_ok {block : CBlockHeader} {pindexPrev : BlockIndex}
    {nAdjustedTime : Int} :
    contextualHeaderRules net block pindexPrev nAdjustedTime = .ok () ↔
      ((consensusAfter net pindexPrev).allowLegacyBlocks pindexPrev.length = false →
        block.isLegacy = false) ∧
      ((consensusAfter net pindexPrev).allowLegacyBlocks pindexPrev.length = true →
        block.isAuxpow = false) ∧
      getNextWorkRequired pindexPrev block (consensusAfter net pindexPrev) = .ok block.nBits ∧
      getMedianTimePast pindexPrev < block.getBlockTime ∧
      block.getBlockTime ≤ nAdjustedTime + 2 * 60 * 60 := by
  simp only [contextualHeaderRules, bind_ok_iff, rejectIf_ok, exists_const, Bool.and_eq_false_imp,
    Bool.not_eq_true', bne_eq_false_iff_eq, decide_eq_false_iff_not, Int.not_le, Int.not_lt]
  refine and_congr_right fun _ => and_congr_right fun _ => ⟨?_, ?_⟩
  · rintro ⟨required, hr, rfl, h⟩
    exact ⟨hr, h⟩
  · rintro ⟨hr, h⟩
    exact ⟨block.nBits, hr, rfl, h⟩

/-- The test of the version is the last rule. -/
theorem contextualCheckBlockHeader_ok {block : CBlockHeader} {pindexPrev : BlockIndex}
    {nAdjustedTime : Int} :
    contextualCheckBlockHeader net block pindexPrev nAdjustedTime = .ok () ↔
      contextualHeaderRules net block pindexPrev nAdjustedTime = .ok () ∧
      badVersion block (versionBitsState pindexPrev (consensusAfter net pindexPrev) .bip34)
        (versionBitsState pindexPrev (consensusAfter net pindexPrev) .bip65)
        (versionBitsState pindexPrev (consensusAfter net pindexPrev) .bip66) = false := by
  simp only [contextualCheckBlockHeader, bind_ok_iff, rejectIf_ok]
  constructor
  · rintro ⟨_, h1, h2⟩
    exact ⟨h1, h2⟩
  · rintro ⟨h1, h2⟩
    exact ⟨(), h1, h2⟩

/-! ## Valid chains of headers -/

/-- The chains from the genesis of the network in which every header passed
both checks on top of its parent. -/
inductive HeaderValid : BlockIndex → Prop
  | genesis : HeaderValid [net.params.genesis]
  | step {b last : CBlockHeader} {p : BlockIndex} (nAdjustedTime : Int) :
      HeaderValid (last :: p) → b.hashPrevBlock = last.getHash H →
      checkBlockHeader H net b true = .ok () →
      contextualCheckBlockHeader net b (last :: p) nAdjustedTime = .ok () →
      HeaderValid (b :: last :: p)

variable {H net}

theorem HeaderValid.ne_nil {p : BlockIndex} (h : HeaderValid H net p) : p ≠ [] := by
  cases h <;> simp

theorem HeaderValid.parent {b : CBlockHeader} {p : BlockIndex} (h : HeaderValid H net (b :: p))
    (hp : p ≠ []) : HeaderValid H net p := by
  cases h with
  | genesis => exact absurd rfl hp
  | step _ h => exact h

/-- Every ancestor of a valid chain is a valid chain. -/
theorem HeaderValid.of_suffix {p q : BlockIndex} (h : HeaderValid H net p) (hq : q <:+ p)
    (hne : q ≠ []) : HeaderValid H net q := by
  induction p with
  | nil => exact absurd (List.suffix_nil.mp hq) hne
  | cons b p ih =>
    rcases List.suffix_cons_iff.mp hq with rfl | hq
    · exact h
    · have hp : p ≠ [] := by
        rintro rfl
        exact hne (List.suffix_nil.mp hq)
      exact ih (h.parent hp) hq

/-- A header that passed comes after the median time of its parent. -/
theorem time_after_median {b : CBlockHeader} {p : BlockIndex} {t : Int}
    (h : contextualCheckBlockHeader net b p t = .ok ()) : getMedianTimePast p < b.getBlockTime := by
  exact ((contextualHeaderRules_ok net).mp ((contextualCheckBlockHeader_ok net).mp h).1).2.2.2.1

/-- The median time never goes back along a valid chain. -/
theorem HeaderValid.median_mono {p q : BlockIndex} (h : HeaderValid H net p) (hq : q <:+ p)
    (hne : q ≠ []) : getMedianTimePast q ≤ getMedianTimePast p := by
  induction h with
  | genesis =>
    rcases List.suffix_cons_iff.mp hq with rfl | hq
    · exact Int.le_refl _
    · exact absurd (List.suffix_nil.mp hq) hne
  | step t hv hlink hc hctx ih =>
    rcases List.suffix_cons_iff.mp hq with rfl | hq
    · exact Int.le_refl _
    · exact Int.le_trans (ih hq)
        (getMedianTimePast_mono (List.cons_ne_nil _ _) (time_after_median hctx))

end junkcoin
