-- The call `getblocksubsidy` of `rpc/mining.cpp`, which tells a miner how the
-- subsidy of a height is split. The law compares it with the coinbase that
-- `CreateNewBlock` builds and with what the validator asks for.
import Junkcoin.Miner

namespace junkcoin

/-! ## `getblocksubsidy` -/

/-- `getblocksubsidy`: what the miner and the development fund get. Without a
height it takes the one of the tip. -/
def getblocksubsidy (env : Env) (chainActive : BlockIndex) (height : Option Int) :
    Except String (Int × Int) :=
  let nHeight := height.getD (nHeight chainActive)
  if nHeight < 0 then .error "Block height out of range"
  else
    let nReward := getJunkcoinBlockSubsidy env.mtRandom nHeight 0
      (env.net.params.getConsensus nHeight.toNat)
    if nHeight ≥ env.net.params.vDevelopmentFundStartHeight &&
        nHeight ≤ env.net.params.vDevelopmentFundLastHeight then
      let nDevelopmentFund := env.fundShare nReward
      .ok (int64 (nReward - nDevelopmentFund), nDevelopmentFund)
    else .ok (nReward, 0)

/-- The validator refuses some block at the height for what it pays the fund. -/
def DemandsFund (env : Env) (nHeight : Nat) : Prop :=
  ∃ block, checkDevelopmentFund env block nHeight ≠ .ok ()

/-- The two amounts are the ones that `CreateNewBlock` pays when there are no
fees, and the ones that `ContextualCheckBlock` asks for. -/
structure EnforcedSplit (env : Env) (nHeight : Nat) (miner development : Int) : Prop where
  total : miner + development = getJunkcoinBlockSubsidy env.mtRandom nHeight 0
    (env.net.params.getConsensus nHeight)
  demanded : development ≠ 0 ↔ DemandsFund env nHeight
  paid : ∀ block, DemandsFund env nHeight → checkDevelopmentFund env block nHeight = .ok () →
    ∃ script coinbase rest, block.vtx = coinbase :: rest ∧
      getDevelopmentFundScriptAtHeight env nHeight = .ok script ∧
      ⟨development, script⟩ ∈ coinbase.vout
  built : ∀ scriptPubKeyIn coinbase, createCoinbase env nHeight scriptPubKeyIn 0 = .ok coinbase →
    (DemandsFund env nHeight → coinbase.vout.map (·.nValue) = [miner, development]) ∧
    (¬ DemandsFund env nHeight → coinbase.vout.map (·.nValue) = [miner])

/-- A fifth of the subsidy, cut or rounded in any way, for every amount from
the least subsidy to three times the largest. -/
def IsFifth (share : Int → Int) : Prop :=
  ∀ x, 39062500 ≤ x → x ≤ 3000 * COIN → x < 5 * share x + 5 ∧ 5 * share x < x + 5

section Subsidy

variable {env : Env} {nHeight : Nat}

theorem demandsFund_iff :
    DemandsFund env nHeight ↔ env.net.params.inDevelopmentFundWindow nHeight = true := by
  constructor
  · rintro ⟨block, hblock⟩
    by_contra hwin
    exact hblock (checkDevelopmentFund_ok.mpr fun h => absurd h hwin)
  · intro hwin
    -- a block without transactions pays nobody
    refine ⟨{ nullHeader with vtx := [] }, fun hok => ?_⟩
    obtain ⟨_, _, _, _, hv, _⟩ := checkDevelopmentFund_ok.mp hok hwin
    cases hv

/-- The fifth of a subsidy is a part of it. -/
theorem IsFifth.share_bounds (h : IsFifth env.fundShare) (nHeight : Nat) :
    0 < env.fundShare (baseReward env nHeight) ∧
      env.fundShare (baseReward env nHeight) < baseReward env nHeight := by
  have hreward := baseReward_bounds env nHeight
  have hfifth := h _ hreward.1 hreward.2
  omega

theorem baseReward_fits (env : Env) (nHeight : Nat) : baseReward env nHeight < 2 ^ 63 :=
  Int.lt_of_le_of_lt (baseReward_bounds env nHeight).2 (by decide)

/-- What is left for the miner is not cut. -/
theorem IsFifth.int64_rest (h : IsFifth env.fundShare) (nHeight : Nat) :
    int64 (baseReward env nHeight - env.fundShare (baseReward env nHeight)) =
      baseReward env nHeight - env.fundShare (baseReward env nHeight) := by
  have hshare := h.share_bounds nHeight
  have hfits := baseReward_fits env nHeight
  exact int64_of_fits (by omega) (by omega)

theorem addFees_zero {miner : CTxOut} (fund : List CTxOut) (hpos : 0 < miner.nValue)
    (hfits : miner.nValue < 2 ^ 63) : addFees 0 miner fund = miner :: fund := by
  unfold addFees
  rw [Int.add_zero, int64_of_fits (by omega) hfits]
  exact if_neg (by omega)

/-- Without fees the outputs of the coinbase are the two parts. -/
theorem createCoinbase_values (h : IsFifth env.fundShare) {scriptPubKeyIn : CScript}
    {coinbase : CTransaction} (hok : createCoinbase env nHeight scriptPubKeyIn 0 = .ok coinbase) :
    coinbase.vout.map (·.nValue) =
      if env.net.params.inDevelopmentFundWindow nHeight then
        [baseReward env nHeight - env.fundShare (baseReward env nHeight),
          env.fundShare (baseReward env nHeight)]
      else [baseReward env nHeight] := by
  have hshare := h.share_bounds nHeight
  have hfits := baseReward_fits env nHeight
  obtain ⟨⟨miner, fund⟩, hsplit, hok⟩ := bind_ok hok
  cases hok
  unfold splitReward at hsplit
  split at hsplit
  · rename_i hwin
    obtain ⟨script, _, hsplit⟩ := bind_ok hsplit
    have hfund : nDevelopmentFund env nHeight = env.fundShare (baseReward env nHeight) :=
      if_neg (by omega)
    rw [hfund, h.int64_rest] at hsplit
    cases hsplit
    rw [if_pos hwin, addFees_zero _ (by simp only; omega) (by simp only; omega)]
    rfl
  · rename_i hwin
    cases hsplit
    rw [if_neg hwin, addFees_zero _ (by simp only; omega) hfits]
    rfl

/-- The split by the window of the validator is the one that is enforced. -/
theorem enforcedSplit (h : IsFifth env.fundShare) :
    EnforcedSplit env nHeight
      (if env.net.params.inDevelopmentFundWindow nHeight then
        baseReward env nHeight - env.fundShare (baseReward env nHeight)
        else baseReward env nHeight)
      (if env.net.params.inDevelopmentFundWindow nHeight then
        env.fundShare (baseReward env nHeight) else 0) := by
  have hshare := h.share_bounds nHeight
  constructor
  · change _ = baseReward env nHeight
    split <;> omega
  · rw [demandsFund_iff]
    split
    · exact ⟨fun _ => ‹_›, fun _ => by omega⟩
    · exact ⟨fun hne => absurd rfl hne, fun hwin => absurd hwin ‹_›⟩
  · intro block hdemands hok
    have hwin := demandsFund_iff.mp hdemands
    obtain ⟨expected, coinbase, rest, he, hv, hmem⟩ := checkDevelopmentFund_ok.mp hok hwin
    obtain ⟨hscript, hvalue⟩ := expectedFundOutput_ok.mp he
    rw [if_pos hwin, ← hvalue]
    exact ⟨expected.scriptPubKey, coinbase, rest, hv, hscript, hmem⟩
  · intro scriptPubKeyIn coinbase hok
    rw [createCoinbase_values h hok, demandsFund_iff]
    constructor
    · intro hwin
      simp only [if_pos hwin]
    · intro hwin
      simp only [if_neg hwin]

/-- The two amounts of the call. Its window has the first height as well. -/
theorem getblocksubsidy_ok (h : IsFifth env.fundShare) (chainActive : BlockIndex) :
    getblocksubsidy env chainActive (some nHeight) =
      let reported := nHeight ≥ env.net.params.vDevelopmentFundStartHeight &&
        nHeight ≤ env.net.params.vDevelopmentFundLastHeight
      .ok (if reported then baseReward env nHeight - env.fundShare (baseReward env nHeight)
          else baseReward env nHeight,
        if reported then env.fundShare (baseReward env nHeight) else 0) := by
  unfold getblocksubsidy
  simp only [Option.getD_some, Int.toNat_natCast]
  rw [if_neg (by omega), ← h.int64_rest]
  split <;> rfl

/-- The windows differ at the first height only. -/
theorem reported_eq_window (env : Env) (nHeight : Nat)
    (hheight : (nHeight : Int) ≠ env.net.params.vDevelopmentFundStartHeight) :
    (decide ((nHeight : Int) ≥ env.net.params.vDevelopmentFundStartHeight) &&
      decide ((nHeight : Int) ≤ env.net.params.vDevelopmentFundLastHeight)) =
      env.net.params.inDevelopmentFundWindow nHeight := by
  congr 1
  exact decide_eq_decide.mpr (by omega)

end Subsidy

/-- On every network and at every height but the first of the fund's window,
`getblocksubsidy` reports the split that the miner builds and the validator
asks for. -/
theorem getblocksubsidy_reports_split_iff (env : Env) (h : IsFifth env.fundShare)
    (chainActive : BlockIndex) (nHeight : Nat) :
    (∃ miner development, getblocksubsidy env chainActive (some nHeight) =
        .ok (miner, development) ∧ EnforcedSplit env nHeight miner development) ↔
      (nHeight : Int) ≠ env.net.params.vDevelopmentFundStartHeight := by
  constructor
  · rintro ⟨miner, development, hcall, hsplit⟩ hfirst
    have hlast : env.net.params.vDevelopmentFundStartHeight ≤
        env.net.params.vDevelopmentFundLastHeight := by
      cases env.net <;> decide
    have hshare := h.share_bounds nHeight
    rw [getblocksubsidy_ok h] at hcall
    obtain ⟨_, hdevelopment⟩ := Prod.mk.inj (Except.ok.inj hcall)
    rw [if_pos (by simp only [Bool.and_eq_true, decide_eq_true_eq]; omega)] at hdevelopment
    have hwin := demandsFund_iff.mp (hsplit.demanded.mp (by omega))
    simp only [CChainParams.inDevelopmentFundWindow, Bool.and_eq_true, decide_eq_true_eq] at hwin
    omega
  · intro hheight
    rw [getblocksubsidy_ok h, reported_eq_window env nHeight hheight]
    exact ⟨_, _, rfl, enforcedSplit h⟩

theorem regtest_isFifth : IsFifth regtestNode.env.fundShare := by
  intro x _ _
  change x < 5 * (x / 5) + 5 ∧ 5 * (x / 5) < x + 5
  omega

/-- At height two of the regression test network. -/
theorem getblocksubsidy_at_two :
    ∃ miner development, getblocksubsidy regtestNode.env regtestTip (some 2) =
      .ok (miner, development) ∧ EnforcedSplit regtestNode.env 2 miner development :=
  (getblocksubsidy_reports_split_iff regtestNode.env regtest_isFifth regtestTip 2).mpr (by decide)

/-- At height one of the regression test network the call reports a fifth for
the fund, and a block that pays the fund nothing passes. -/
theorem first_height_is_misreported :
    getblocksubsidy regtestNode.env regtestTip (some 1) = .ok (800 * COIN, 200 * COIN) ∧
      (∀ block, checkDevelopmentFund regtestNode.env block 1 = .ok ()) ∧
      (∃ coinbase, createCoinbase regtestNode.env 1 [0x51] 0 = .ok coinbase ∧
        coinbase.vout.map (·.nValue) = [1000 * COIN]) ∧
      ¬ ∃ miner development, getblocksubsidy regtestNode.env regtestTip (some 1) =
        .ok (miner, development) ∧ EnforcedSplit regtestNode.env 1 miner development := by
  have hcall : getblocksubsidy regtestNode.env regtestTip (some 1) =
      .ok (800 * COIN, 200 * COIN) := by decide +kernel
  have hfree : ∀ block, checkDevelopmentFund regtestNode.env block 1 = .ok () := fun _ => rfl
  refine ⟨hcall, hfree, ⟨_, rfl, by decide +kernel⟩, ?_⟩
  rintro ⟨miner, development, hreported, hsplit⟩
  cases hreported
  obtain ⟨block, hblock⟩ := hsplit.demanded.mp (by decide)
  exact hblock (hfree block)

end junkcoin
