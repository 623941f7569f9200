-- The consensus parameters of the three networks, and the block subsidy.
import Junkcoin.Primitives

namespace junkcoin

/-! ## Consensus parameters -/

inductive DeploymentPos
  | testdummy | bip34 | bip66 | bip65 | csv | segwit
  deriving DecidableEq, Repr

structure BIP9Deployment where
  bit : Nat
  nStartTime : Int
  nTimeout : Int
  deriving DecidableEq

/-- The fields of `Consensus::Params` that the checks read. -/
structure Params where
  BIP34Height : Int
  nRuleChangeActivationThreshold : Nat
  nMinerConfirmationWindow : Nat
  vDeployments : DeploymentPos → BIP9Deployment
  nCoinbaseMaturity : Int
  powLimit : Nat
  fPowAllowMinDifficultyBlocks : Bool
  nPowTargetSpacing : Int
  nPowTargetTimespan : Int
  nAuxpowChainId : Int
  nAuxpowStartHeight : Int
  fStrictChainId : Bool
  nHeightEffective : Nat

namespace Params

def difficultyAdjustmentInterval (p : Params) : Int := p.nPowTargetTimespan / p.nPowTargetSpacing

def allowLegacyBlocks (p : Params) (nHeight : Int) : Bool :=
  p.nAuxpowStartHeight < 0 || nHeight < p.nAuxpowStartHeight

end Params

/-- The parameters of one network. The three consensus records are the ones
that `GetConsensus` can reach. -/
structure CChainParams where
  consensus : Params
  digishieldConsensus : Params
  auxpowConsensus : Params
  genesis : CBlockHeader
  /-- Heights and hashes, lowest first. -/
  mapCheckpoints : List (Int × Uint256)
  vDevelopmentFundAddress : List String
  vDevelopmentFundStartHeight : Int
  vDevelopmentFundLastHeight : Int

/-- `GetConsensus`, the walk down the tree of consensus records. The root is
the digishield record; its two children have no children of their own. -/
def CChainParams.getConsensus (cp : CChainParams) (nTargetHeight : Nat) : Params :=
  if nTargetHeight < cp.digishieldConsensus.nHeightEffective then cp.consensus
  else if nTargetHeight > cp.digishieldConsensus.nHeightEffective ∧
      cp.auxpowConsensus.nHeightEffective ≤ nTargetHeight then cp.auxpowConsensus
  else cp.digishieldConsensus

inductive Network
  | main | test | regtest
  deriving DecidableEq, Repr

/-! ## The three networks -/

def mainDeployments : DeploymentPos → BIP9Deployment
  | .testdummy => ⟨28, 1199145601, 1230767999⟩
  | .bip34 => ⟨0, 1534490155, 1764490155⟩
  | .bip66 => ⟨1, 1534490155, 1764490155⟩
  | .bip65 => ⟨2, 1534490155, 1764490155⟩
  | .csv => ⟨3, 1724732207, 1764490155⟩
  | .segwit => ⟨4, 1724732207, 1764490155⟩

def testDeployments : DeploymentPos → BIP9Deployment
  | .testdummy => ⟨28, 1199145601, 1230767999⟩
  | .bip34 => ⟨0, 1703462400, 1735084800⟩
  | .bip66 => ⟨1, 1703462400, 1735084800⟩
  | .bip65 => ⟨2, 1703462400, 1735084800⟩
  | .csv => ⟨3, 1703462400, 1735084800⟩
  | .segwit => ⟨4, 1703462400, 1735084800⟩

/-- The constructors never set `BIP34Height` and leave the other fields that
they do not mention at the zero of a static object. -/
def mainConsensus : Params where
  BIP34Height := 0
  nRuleChangeActivationThreshold := 9576
  nMinerConfirmationWindow := 10080
  vDeployments := mainDeployments
  nCoinbaseMaturity := 70
  powLimit := 2 ^ 236 - 1
  fPowAllowMinDifficultyBlocks := false
  nPowTargetSpacing := 60
  nPowTargetTimespan := 24 * 60 * 60
  nAuxpowChainId := 0x2020
  nAuxpowStartHeight := 173000
  fStrictChainId := true
  nHeightEffective := 0

def testConsensus : Params where
  BIP34Height := 0
  nRuleChangeActivationThreshold := 9576
  nMinerConfirmationWindow := 10080
  vDeployments := testDeployments
  nCoinbaseMaturity := 30
  powLimit := 2 ^ 236 - 1
  fPowAllowMinDifficultyBlocks := true
  nPowTargetSpacing := 60
  nPowTargetTimespan := 4 * 60 * 60
  nAuxpowChainId := 0x2021
  nAuxpowStartHeight := 0
  fStrictChainId := true
  nHeightEffective := 0

def regtestConsensus : Params := { testConsensus with fPowAllowMinDifficultyBlocks := false }

/-- The changes that every network makes for its digishield record. -/
def digishield (p : Params) (nCoinbaseMaturity : Int) : Params :=
  { p with nHeightEffective := 0xffffffff, nPowTargetTimespan := 60, nCoinbaseMaturity }

def genesisMerkleRoot : Uint256 :=
  0x3de124b0274307911fe12550e96bf76cb92c12835db6cb19f82658b8aca1dbc8

def genesisHeader (nTime nNonce : UInt32) : CBlockHeader where
  nVersion := 1
  hashPrevBlock := 0
  hashMerkleRoot := genesisMerkleRoot
  nTime := nTime
  nBits := 0x1e0ffff0
  nNonce := nNonce

/-- The checkpoints of the main network. -/
def mainCheckpoints : List (Int × Uint256) := [
  (0, 0xa2effa738145e377e08a61d76179c21703e13e48910b30a2a87f0dfe794b64c6),
  (1, 0xca55073a54775a1ef78294f53f38a3e02d0654d7417f3cbbe4d28d17d50e07d0),
  (53, 0xb623a39a5a0534990a59916d5803fa2bd6a6d52d8e594546936a42a2cc9b0441),
  (117, 0x6cab49bd69fcce2bb48793cc064bb49e75f068e7029b5173db83654fbcb5953d),
  (200, 0x45257b0f2ee6d5c55ac16a76817d7151b776d6452ae6f21426eaa42345b831f8),
  (6452, 0x506562c2172d9f10e86d2b467ed3bb7b9eba40148d18d1e660c1ff692604f3fc),
  (10978, 0x1c9f7f7a4702f8225df430b259ac58c387de99439be8a8789841a1c011ead7fc),
  (17954, 0x6036051659e92a17cb7488040e05a94483b7a7f88b184156c136d51ff0390a7d),
  (23978, 0x7924154aa896363ec9be3ca5f939602f72cf4a5396e6e1cd9139335dd1819487),
  (33212, 0x448040ac454da8654d9c58ad79386aa1a88fd113be0fcc5ca39ecd3eae8c8618),
  (45527, 0xf2420d964001d4d2c8bc0d9283f3f684d4d91a509a50985888458a68e08e1c82),
  (57484, 0xc3e95c6fb35f4b39006c89538415b4f50a253a3ac1cad0e583fb287f6bd91be1),
  (69240, 0xc34f5d113fe92f3206ef8855caf51cd6252286e3381b253bbc1237211198c22b),
  (73892, 0xd05129c2d9f3e99565bf84fbceabbc61728e4d644173e194823b639f7c406b04),
  (168312, 0xdeea2bcecb1146ae9cd74d67b29b4d0161e9bb63beb9022ca10f3625dda6c0e6)]

def mainParams : CChainParams where
  consensus := mainConsensus
  digishieldConsensus := digishield mainConsensus 70
  auxpowConsensus := digishield mainConsensus 70
  genesis := genesisHeader 1367394064 112158625
  mapCheckpoints := mainCheckpoints
  vDevelopmentFundAddress := ["7hMacNfGt1UEGshvWkRamRxZKUKeJhJ7J6",
    "7hMacNfGt1UEGshvWkRamRxZKUKeJhJ7J6", "7hMacNfGt1UEGshvWkRamRxZKUKeJhJ7J6"]
  vDevelopmentFundStartHeight := 350000
  vDevelopmentFundLastHeight := 1400000

def testNetParams : CChainParams where
  consensus := testConsensus
  digishieldConsensus := digishield testConsensus 240
  auxpowConsensus := digishield testConsensus 240
  genesis := genesisHeader 1367394064 112158625
  mapCheckpoints := [(0, 0xa2effa738145e377e08a61d76179c21703e13e48910b30a2a87f0dfe794b64c6)]
  vDevelopmentFundAddress := ["3PM5bKKhggNFzYjLnLsbUF7XHNSuA4bSVY",
    "39Ak9GuMHfpWL3VoTm9NigyELzPC5toiE4", "35tfGskRDxU3tWU3n5n2uvCqeHmGDKorVN"]
  vDevelopmentFundStartHeight := 108250
  vDevelopmentFundLastHeight := 1400000

def regTestParams : CChainParams where
  consensus := regtestConsensus
  digishieldConsensus := digishield regtestConsensus 240
  auxpowConsensus := digishield regtestConsensus 240
  genesis := genesisHeader 1369199888 12097647
  mapCheckpoints := [(0, 0x324635c8e36f663b0adb126a21ad0bd7fa43cc5c5f15aec992bf4dde650bc0ea)]
  vDevelopmentFundAddress := ["3PSpnu5Fdt34u2EEdHZjfaogcVCMC72h24"]
  vDevelopmentFundStartHeight := 1
  vDevelopmentFundLastHeight := 150

def Network.params : Network → CChainParams
  | .main => mainParams
  | .test => testNetParams
  | .regtest => regTestParams

/-- The records of one network have the same deployments and the same
confirmation window at every height. -/
theorem getConsensus_deployments (net : Network) (h : Nat) :
    (net.params.getConsensus h).vDeployments = net.params.consensus.vDeployments ∧
    (net.params.getConsensus h).nMinerConfirmationWindow = 10080 ∧
    (net.params.getConsensus h).nRuleChangeActivationThreshold = 9576 := by
  cases net <;> unfold CChainParams.getConsensus <;> split
  all_goals first | exact ⟨rfl, rfl, rfl⟩ | (split <;> exact ⟨rfl, rfl, rfl⟩)

/-! ## The block subsidy -/

/-- The table for the networks that allow blocks of minimum difficulty. -/
def testSubsidy (nHeight : Int) : Int :=
  if nHeight < 101 then 1000 * COIN
  else if nHeight < 201 then 500 * COIN
  else if nHeight < 401 then 200 * COIN
  else if nHeight < 601 then 100 * COIN
  else if nHeight < 801 then 50 * COIN
  else if nHeight < 1001 then 25 * COIN
  else if nHeight < 657000 then 1250000000
  else if nHeight < 1182600 then 625000000
  else if nHeight < 1971000 then 312500000
  else if nHeight < 2759400 then 156250000
  else if nHeight < 3547800 then 78125000
  else 39062500

def mainSubsidy (nHeight : Int) : Int :=
  if nHeight < 101 then 1000 * COIN
  else if nHeight < 1541 then 500 * COIN
  else if nHeight < 2981 then 200 * COIN
  else if nHeight < 5861 then 100 * COIN
  else if nHeight < 262800 then 50 * COIN
  else if nHeight < 394200 then 25 * COIN
  else if nHeight < 657000 then 1250000000
  else if nHeight < 1182600 then 625000000
  else if nHeight < 1971000 then 312500000
  else if nHeight < 2759400 then 156250000
  else if nHeight < 3547800 then 78125000
  else 39062500

/-- The subsidy before the fees: the table, and then the bonus of the draw.
`rand` is the value that `generateMTRandom` draws for this height. -/
def baseSubsidy (rand : Int) (nHeight : Int) (p : Params) : Int :=
  let nSubsidy := if p.fPowAllowMinDifficultyBlocks then testSubsidy nHeight
    else mainSubsidy nHeight
  if rand > 99990 then 1000 * COIN
  else if rand < 1001 then nSubsidy * 3
  else nSubsidy

/-- `GetJunkcoinBlockSubsidy`. The draw is a function of the height alone. -/
def getJunkcoinBlockSubsidy (mtRandom : Int → Int) (nHeight : Int) (nFees : Int)
    (p : Params) : Int :=
  int64 (baseSubsidy (mtRandom nHeight) nHeight p + nFees)

theorem ite_bounds {c : Prop} [Decidable c] {a b l u : Int} (ha : l < a ∧ a ≤ u)
    (hb : l < b ∧ b ≤ u) : l < (if c then a else b) ∧ (if c then a else b) ≤ u := by
  split
  · exact ha
  · exact hb

/-- The last line of both tables is the least subsidy. -/
theorem baseSubsidy_bounds (rand n : Int) (p : Params) :
    39062500 ≤ baseSubsidy rand n p ∧ baseSubsidy rand n p ≤ 3000 * COIN := by
  have h1 : 39062499 < testSubsidy n ∧ testSubsidy n ≤ 1000 * COIN := by
    repeat' apply ite_bounds
    all_goals decide
  have h2 : 39062499 < mainSubsidy n ∧ mainSubsidy n ≤ 1000 * COIN := by
    repeat' apply ite_bounds
    all_goals decide
  simp only [baseSubsidy, COIN] at *
  rcases p.fPowAllowMinDifficultyBlocks with _ | _
  all_goals
    split
    · omega
    · split <;> omega

/-- Without fees nothing is cut. -/
theorem getJunkcoinBlockSubsidy_zero (mtRandom : Int → Int) (n : Int) (p : Params) :
    getJunkcoinBlockSubsidy mtRandom n 0 p = baseSubsidy (mtRandom n) n p := by
  have h := baseSubsidy_bounds (mtRandom n) n p
  unfold getJunkcoinBlockSubsidy
  rw [Int.add_zero]
  simp only [COIN] at h
  exact int64_of_fits (by omega) (by omega)

/-- The subsidy of a block is never above its subsidy without fees plus the
fees. -/
theorem getJunkcoinBlockSubsidy_le (mtRandom : Int → Int) (n nFees : Int) (p : Params)
    (h : -2 ^ 63 ≤ nFees) :
    getJunkcoinBlockSubsidy mtRandom n nFees p ≤
      getJunkcoinBlockSubsidy mtRandom n 0 p + nFees := by
  have hb := baseSubsidy_bounds (mtRandom n) n p
  rw [getJunkcoinBlockSubsidy_zero]
  exact int64_le (by omega)

end junkcoin
