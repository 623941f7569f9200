-- The rotation of the development fund: which height finds an address in the
-- list, and on which network the address gives the script that the miner and
-- the validator ask for.
import Junkcoin.Addresses
import Junkcoin.ConnectBlock
import Junkcoin.ContextualCheckBlock

namespace junkcoin

/-! ## The rotation -/

namespace CChainParams

variable (cp : CChainParams)

/-- `addressChangeInterval`. -/
def addressChangeInterval : Nat :=
  (cp.vDevelopmentFundLastHeight - cp.vDevelopmentFundStartHeight + 1).toNat /
    cp.vDevelopmentFundAddress.length

variable {cp}

theorem fundAddress_ok_iff {nHeight : Nat} {address : String}
    (hstart : cp.vDevelopmentFundStartHeight ≤ nHeight)
    (hlast : (nHeight : Int) ≤ cp.vDevelopmentFundLastHeight) :
    cp.getDevelopmentFundAddressAtHeight nHeight = .ok address ↔
      cp.addressChangeInterval ≠ 0 ∧
        cp.vDevelopmentFundAddress[(nHeight - cp.vDevelopmentFundStartHeight).toNat /
          cp.addressChangeInterval]? = some address := by
  have hrange : (nHeight ≥ cp.vDevelopmentFundStartHeight &&
      nHeight ≤ cp.vDevelopmentFundLastHeight : Bool) = true := by simp [hstart, hlast]
  unfold getDevelopmentFundAddressAtHeight
  rw [assert_of hrange]
  change (assert _ _ >>= _) = _ ↔ _
  rw [bind_ok_iff]
  simp only [assert_ok, bne_iff_ne, Bool.and_eq_true]
  constructor
  · rintro ⟨_, ⟨-, hinterval⟩, h⟩
    refine ⟨hinterval, ?_⟩
    split at h
    · cases h
    · rename_i hget
      cases h
      exact hget
  · rintro ⟨hinterval, hget⟩
    refine ⟨(), ⟨fun h0 => hinterval ?_, hinterval⟩, ?_⟩
    · unfold addressChangeInterval
      rw [h0, Nat.div_zero]
    · unfold addressChangeInterval at hget
      rw [hget]

/-- A height finds an address when its index is below the number of
addresses. -/
theorem fundAddress_exists_iff {nHeight : Nat}
    (hstart : cp.vDevelopmentFundStartHeight ≤ nHeight)
    (hlast : (nHeight : Int) ≤ cp.vDevelopmentFundLastHeight) :
    (∃ address, cp.getDevelopmentFundAddressAtHeight nHeight = .ok address) ↔
      cp.addressChangeInterval ≠ 0 ∧
        (nHeight - cp.vDevelopmentFundStartHeight).toNat / cp.addressChangeInterval <
          cp.vDevelopmentFundAddress.length := by
  constructor
  · rintro ⟨address, h⟩
    obtain ⟨h1, h2⟩ := (fundAddress_ok_iff hstart hlast).mp h
    exact ⟨h1, (List.getElem?_eq_some_iff.mp h2).1⟩
  · rintro ⟨h1, h2⟩
    exact ⟨_, (fundAddress_ok_iff hstart hlast).mpr ⟨h1, List.getElem?_eq_getElem h2⟩⟩

end CChainParams

/-! ## The script of the fund -/

theorem fundScript_ok_iff (env : Env) (nHeight : Nat)
    (hwindow : env.net.params.inDevelopmentFundWindow nHeight = true) :
    (∃ script, getDevelopmentFundScriptAtHeight env nHeight = .ok script) ↔
      ∃ address hash, env.net.params.getDevelopmentFundAddressAtHeight nHeight = .ok address ∧
        env.decodeAddress address = .scriptID hash := by
  have hstart : 0 ≤ env.net.params.vDevelopmentFundStartHeight := by
    cases env.net <;> decide
  unfold CChainParams.inDevelopmentFundWindow at hwindow
  rw [Bool.and_eq_true, decide_eq_true_iff, decide_eq_true_iff] at hwindow
  have hassert : (nHeight > 0 && nHeight ≤ env.net.params.vDevelopmentFundLastHeight : Bool) =
      true := by
    rw [Bool.and_eq_true, decide_eq_true_iff, decide_eq_true_iff]
    exact ⟨by omega, hwindow.2⟩
  unfold getDevelopmentFundScriptAtHeight
  rw [assert_of hassert]
  constructor
  · rintro ⟨script, h⟩
    obtain ⟨-, -, h⟩ := bind_ok h
    obtain ⟨address, haddress, h⟩ := bind_ok h
    split at h
    · cases h
    · cases h
    · rename_i hash hdest
      exact ⟨address, hash, haddress, hdest⟩
  · rintro ⟨address, hash, haddress, hdest⟩
    refine ⟨payToScriptID hash, ?_⟩
    rw [haddress]
    dsimp only [bind, Except.bind]
    rw [hdest]

/-- Every address that a height finds is a script, except on the main
network. -/
theorem fundDestination_iff {env : Env} {nHeight : Nat} {address : String}
    (hsha : env.H.sha256d = sha256dHash)
    (hdecode : env.decodeAddress = getDestination env.H env.net)
    (hwindow : env.net.params.inDevelopmentFundWindow nHeight = true)
    (h : env.net.params.getDevelopmentFundAddressAtHeight nHeight = .ok address) :
    (∃ hash, env.decodeAddress address = .scriptID hash) ↔ env.net ≠ .main := by
  unfold CChainParams.inDevelopmentFundWindow at hwindow
  rw [Bool.and_eq_true, decide_eq_true_iff, decide_eq_true_iff] at hwindow
  obtain ⟨-, hget⟩ := (CChainParams.fundAddress_ok_iff hwindow.1.le hwindow.2).mp h
  have hall := List.all_eq_true.mp (fund_destinations env.net) address (List.mem_of_getElem? hget)
  rw [hdecode, getDestination_eq hsha, ← isScriptID_iff, beq_iff_eq.mp hall, bne_iff_ne]

/-- With the hash and the addresses of the source, the script is there at a
height of the fund exactly on the regression network, and on the test network
before the height 1399999. -/
theorem fund_script_returns_iff (env : Env) (nHeight : Nat)
    (hsha : env.H.sha256d = sha256dHash)
    (hdecode : env.decodeAddress = getDestination env.H env.net)
    (hwindow : env.net.params.inDevelopmentFundWindow nHeight = true) :
    (∃ script, getDevelopmentFundScriptAtHeight env nHeight = .ok script) ↔
      env.net = .regtest ∨ env.net = .test ∧ nHeight < 1399999 := by
  have hscript : (∃ script, getDevelopmentFundScriptAtHeight env nHeight = .ok script) ↔
      env.net ≠ .main ∧ ∃ address,
        env.net.params.getDevelopmentFundAddressAtHeight nHeight = .ok address := by
    rw [fundScript_ok_iff env nHeight hwindow]
    constructor
    · rintro ⟨address, hash, haddress, hdest⟩
      exact ⟨(fundDestination_iff hsha hdecode hwindow haddress).mp ⟨hash, hdest⟩, address,
        haddress⟩
    · rintro ⟨hnet, address, haddress⟩
      obtain ⟨hash, hdest⟩ := (fundDestination_iff hsha hdecode hwindow haddress).mpr hnet
      exact ⟨address, hash, haddress, hdest⟩
  unfold CChainParams.inDevelopmentFundWindow at hwindow
  rw [Bool.and_eq_true, decide_eq_true_iff, decide_eq_true_iff] at hwindow
  rw [hscript, CChainParams.fundAddress_exists_iff hwindow.1.le hwindow.2]
  clear hscript hdecode hsha
  cases hnet : env.net with
  | main => simp
  | test =>
    rw [hnet] at hwindow
    have hinterval : Network.test.params.addressChangeInterval = 430583 := by decide +kernel
    have hstart : Network.test.params.vDevelopmentFundStartHeight = 108250 := rfl
    have hcount : Network.test.params.vDevelopmentFundAddress.length = 3 := rfl
    rw [hinterval, hstart, hcount]
    simp
    omega
  | regtest =>
    rw [hnet] at hwindow
    have hinterval : Network.regtest.params.addressChangeInterval = 150 := by decide +kernel
    have hstart : Network.regtest.params.vDevelopmentFundStartHeight = 1 := rfl
    have hlast : Network.regtest.params.vDevelopmentFundLastHeight = 150 := rfl
    have hcount : Network.regtest.params.vDevelopmentFundAddress.length = 1 := rfl
    rw [hinterval, hstart, hcount]
    simp
    omega

/-- A node of a network with the hash and the addresses of the source. -/
def addressEnv (net : Network) : Env :=
  { sampleEnv with
    net := net
    H := ⟨sha256dHash, fun _ => 0⟩
    decodeAddress := getDestination ⟨sha256dHash, fun _ => 0⟩ net }

/-- The first height of the fund on the test network. -/
theorem fund_script_returns_test :
    ∃ script, getDevelopmentFundScriptAtHeight (addressEnv .test) 108251 = .ok script :=
  (fund_script_returns_iff (addressEnv .test) 108251 (by dsimp only [addressEnv])
    (by dsimp only [addressEnv]) (by decide +kernel)).mpr (.inr ⟨rfl, by decide⟩)

/-- On the main network every height of the fund stops the node, since the
address is that of a key; on the test network the last two do, since the
rotation goes past the list. -/
theorem fund_script_stops_node :
    mainParams.inDevelopmentFundWindow 350001 = true ∧
    failureOf (getDevelopmentFundScriptAtHeight (addressEnv .main) 350001) =
      some (.crash "scriptID != NULL") ∧
    testNetParams.inDevelopmentFundWindow 1399999 = true ∧
    failureOf (getDevelopmentFundScriptAtHeight (addressEnv .test) 1399999) =
      some (.crash "vDevelopmentFundAddress[i]") := by
  refine ⟨by decide +kernel, ?_, by decide +kernel, by decide +kernel⟩
  have haddress : (addressEnv .main).net.params.getDevelopmentFundAddressAtHeight 350001 =
      .ok "7hMacNfGt1UEGshvWkRamRxZKUKeJhJ7J6" := by decide +kernel
  unfold getDevelopmentFundScriptAtHeight
  rw [assert_of (by decide +kernel), haddress]
  dsimp only [bind, Except.bind, addressEnv]
  rw [main_fund_is_key]
  rfl

end junkcoin
