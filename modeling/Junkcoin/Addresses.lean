-- Addresses (`CBitcoinAddress`), and what those of the development fund stand
-- for on each network.
import Junkcoin.Base58
import Junkcoin.ChainParams
import Junkcoin.Sha256

namespace junkcoin

/-- `base58Prefixes[PUBKEY_ADDRESS]`. -/
def Network.pubkeyPrefix : Network → UInt8
  | .main => 16
  | .test => 111
  | .regtest => 47

/-- `base58Prefixes[SCRIPT_ADDRESS]`. -/
def Network.scriptPrefix : Network → UInt8
  | .main => 5
  | .test => 5
  | .regtest => 5

/-- The bytes of a string of the source. -/
def asciiBytes (str : String) : List UInt8 := str.toList.map fun c => UInt8.ofNat c.toNat

/-- `CBase58Data::SetString`: the version byte and the data. Where it fails
both stay empty. -/
def setString (H : Hashes) (str : List UInt8) : List UInt8 × List UInt8 :=
  match decodeBase58CheckStr H str with
  | .ok (some vchTemp) => if vchTemp.length < 1 then ([], []) else (vchTemp.take 1, vchTemp.drop 1)
  | _ => ([], [])

/-- `CBitcoinAddress(str).Get()`. -/
def getDestination (H : Hashes) (net : Network) (str : String) : CTxDestination :=
  let (vchVersion, vchData) := setString H (asciiBytes str)
  if vchData.length != 20 then .noDestination
  else if vchVersion == [net.pubkeyPrefix] then .keyID vchData
  else if vchVersion == [net.scriptPrefix] then .scriptID vchData
  else .noDestination

/-! ## The addresses of the fund -/

def CTxDestination.isScriptID : CTxDestination → Bool
  | .scriptID _ => true
  | _ => false

/-- The address of the main network is that of a key. -/
theorem main_fund_is_key : getDestination ⟨sha256dHash, fun _ => 0⟩ .main
    "7hMacNfGt1UEGshvWkRamRxZKUKeJhJ7J6" =
      .keyID [0xa3, 0xf5, 0x2d, 0xf1, 0x3d, 0x6b, 0x03, 0x08, 0xc7, 0xf4, 0x6c, 0xb3, 0xc0, 0x61,
        0x85, 0xcf, 0x46, 0x61, 0x28, 0x5a] := by
  decide +kernel

/-- What the addresses of the three networks are: keys on the main network,
scripts on the others. -/
theorem fund_destinations :
    (∀ net, (Network.params net).vDevelopmentFundAddress.all fun address =>
      (getDestination ⟨sha256dHash, fun _ => 0⟩ net address).isScriptID == (net != .main)) := by
  intro net
  cases net with
  | main =>
    -- one address, three times
    simp only [Network.params, mainParams, List.all_cons, main_fund_is_key]
    rfl
  | test => decide +kernel
  | regtest => decide +kernel

theorem isScriptID_iff {dest : CTxDestination} :
    dest.isScriptID = true ↔ ∃ hash, dest = .scriptID hash := by
  cases dest <;> simp [CTxDestination.isScriptID]

/-- The proof of work plays no part in an address. -/
theorem getDestination_eq {H : Hashes} (hsha : H.sha256d = sha256dHash) (net : Network)
    (str : String) :
    getDestination H net str = getDestination ⟨sha256dHash, fun _ => 0⟩ net str := by
  have hsum : checksum H = checksum ⟨sha256dHash, fun _ => 0⟩ := by
    unfold checksum
    rw [hsha]
  have hdecode : decodeBase58Check H = decodeBase58Check ⟨sha256dHash, fun _ => 0⟩ := by
    unfold decodeBase58Check
    rw [hsum]
  unfold getDestination setString decodeBase58CheckStr
  rw [hdecode]

end junkcoin
