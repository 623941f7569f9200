-- The standard scripts: `Solver` matches a script against the templates, and
-- `ExtractDestination` gives the address that a script pays (`standard.cpp`).
import Junkcoin.Script

namespace junkcoin

inductive Txnouttype
  | NONSTANDARD
  | PUBKEY
  | PUBKEYHASH
  | SCRIPTHASH
  | MULTISIG
  | NULL_DATA
  | WITNESS_V0_KEYHASH
  | WITNESS_V0_SCRIPTHASH
  deriving DecidableEq

/-! ## Templates -/

def OP_SMALLINTEGER : UInt8 := 0xfa

def OP_PUBKEYS : UInt8 := 0xfb

def OP_PUBKEYHASH : UInt8 := 0xfd

def OP_PUBKEY : UInt8 := 0xfe

def OP_INVALIDOPCODE : UInt8 := 0xff

/-- The templates in the order of their types. -/
def mTemplates : List (Txnouttype × CScript) :=
  [ -- Standard tx, sender provides pubkey, receiver adds signature
    (.PUBKEY, [OP_PUBKEY, 0xac]),
    -- Bitcoin address tx, sender provides hash of pubkey
    (.PUBKEYHASH, [0x76, OP_HASH160, OP_PUBKEYHASH, 0x88, 0xac]),
    -- Sender provides N pubkeys, receivers provides M signatures
    (.MULTISIG, [OP_SMALLINTEGER, OP_PUBKEYS, OP_SMALLINTEGER, 0xae])]

/-- The keys that `OP_PUBKEYS` stands for, and the opcode behind them. -/
def matchKeys : (fuel : Nat) → UInt8 × Valtype × CScript → List Valtype →
    (UInt8 × Valtype × CScript) × List Valtype
  | 0, op1, vSolutions => (op1, vSolutions)
  | fuel + 1, (opcode1, vch1, pc1), vSolutions =>
    if 33 ≤ vch1.length ∧ vch1.length ≤ 65 then
      match getOp pc1 with
      | none => ((OP_INVALIDOPCODE, [], pc1), vSolutions ++ [vch1])
      | some op1 => matchKeys fuel op1 (vSolutions ++ [vch1])
    else ((opcode1, vch1, pc1), vSolutions)

/-- `CScript::DecodeOP_N`. -/
def decodeOpN (opcode : UInt8) : UInt8 := if opcode = 0 then 0 else opcode - 0x50

/-- One opcode of the script against one of the template: the solutions, or
nothing where they do not match. -/
def matchOp (opcode1 : UInt8) (vch1 : Valtype) (opcode2 : UInt8) (vch2 : Valtype)
    (vSolutions : List Valtype) : Option (List Valtype) :=
  if opcode2 = OP_PUBKEY then
    if vch1.length < 33 ∨ vch1.length > 65 then none else some (vSolutions ++ [vch1])
  else if opcode2 = OP_PUBKEYHASH then
    if vch1.length ≠ 20 then none else some (vSolutions ++ [vch1])
  else if opcode2 = OP_SMALLINTEGER then
    if opcode1 = 0 ∨ (0x51 ≤ opcode1 ∧ opcode1 ≤ OP_16) then
      some (vSolutions ++ [[decodeOpN opcode1]])
    else none
  else if opcode1 ≠ opcode2 ∨ vch1 ≠ vch2 then none
  else some vSolutions

/-- Compare a script with a template, which has at most `fuel` opcodes. -/
def matchTemplate : (fuel : Nat) → (pc1 pc2 : CScript) → List Valtype → Option (List Valtype)
  | 0, pc1, pc2, vSolutions => if pc1 = [] ∧ pc2 = [] then some vSolutions else none
  | fuel + 1, pc1, pc2, vSolutions =>
    if pc1 = [] ∧ pc2 = [] then some vSolutions
    else do
      let op1 ← getOp pc1
      let (opcode2, vch2, pc2) ← getOp pc2
      if opcode2 = OP_PUBKEYS then
        let ((opcode1, vch1, pc1), vSolutions) := matchKeys (pc1.length + 1) op1 vSolutions
        let (opcode2, vch2, pc2) ← getOp pc2
        matchTemplate fuel pc1 pc2 (← matchOp opcode1 vch1 opcode2 vch2 vSolutions)
      else
        let (opcode1, vch1, pc1) := op1
        matchTemplate fuel pc1 pc2 (← matchOp opcode1 vch1 opcode2 vch2 vSolutions)

/-- The number that a solution of the template for multisig holds. -/
def solutionNumber (vch : Option Valtype) : Nat := (((vch.getD []).headD 0).toNat)

/-- Scan the templates. -/
def scanTemplates (scriptPubKey : CScript) :
    List (Txnouttype × CScript) → Option (Txnouttype × List Valtype)
  | [] => none
  | (type, tplate) :: rest =>
    match matchTemplate tplate.length scriptPubKey tplate [] with
    | none => scanTemplates scriptPubKey rest
    | some vSolutions =>
      if type = .MULTISIG then
        -- Additional checks for TX_MULTISIG
        let m := solutionNumber vSolutions.head?
        let n := solutionNumber vSolutions.getLast?
        if m < 1 ∨ n < 1 ∨ m > n ∨ vSolutions.length - 2 ≠ n then none
        else some (type, vSolutions)
      else some (type, vSolutions)

/-- `Solver`: public keys or hashes of a script of a standard type. -/
def solver (scriptPubKey : CScript) : Option (Txnouttype × List Valtype) :=
  if isPayToScriptHash scriptPubKey then
    some (.SCRIPTHASH, [(scriptPubKey.drop 2).take 20])
  else
    match isWitnessProgram scriptPubKey with
    | some (witnessversion, witnessprogram) =>
      if witnessversion = 0 ∧ witnessprogram.length = 20 then
        some (.WITNESS_V0_KEYHASH, [witnessprogram])
      else if witnessversion = 0 ∧ witnessprogram.length = 32 then
        some (.WITNESS_V0_SCRIPTHASH, [witnessprogram])
      else none
    | none =>
      if scriptPubKey.head? = some OP_RETURN ∧ isPushOnly (scriptPubKey.drop 1) then
        some (.NULL_DATA, [])
      else scanTemplates scriptPubKey mTemplates

/-! ## Addresses -/

/-- `CPubKey::GetLen`. -/
def pubKeyGetLen (chHeader : UInt8) : Nat :=
  if chHeader = 2 ∨ chHeader = 3 then 33
  else if chHeader = 4 ∨ chHeader = 6 ∨ chHeader = 7 then 65
  else 0

/-- `CPubKey(vch).IsValid()`. -/
def pubKeyIsValid (vch : Valtype) : Bool :=
  match vch with
  | [] => false
  | chHeader :: _ => pubKeyGetLen chHeader ≠ 0 && pubKeyGetLen chHeader == vch.length

/-- `ExtractDestination`: what is paid by a script for a key, its hash or the
hash of a script. -/
def extractDestination (hash160 : Valtype → Valtype) (scriptPubKey : CScript) :
    Option CTxDestination :=
  match solver scriptPubKey with
  | some (.PUBKEY, vch :: _) => if pubKeyIsValid vch then some (.keyID (hash160 vch)) else none
  | some (.PUBKEYHASH, hash :: _) => some (.keyID hash)
  | some (.SCRIPTHASH, hash :: _) => some (.scriptID hash)
  -- Multisig txns have more than one address...
  | _ => none

end junkcoin
