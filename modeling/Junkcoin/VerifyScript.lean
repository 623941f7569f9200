-- `VerifyScript` with its P2SH and witness evaluations, and the script
-- checks that the memory pool makes with it.
import Junkcoin.ConnectBlock
import Junkcoin.Interpreter

namespace junkcoin

/-! ## Witness programs -/

/-- Why a script is not accepted: an error of the interpreter, or an
assertion that stops the node. -/
inductive ScriptFailure
  | error (e : ScriptError)
  | crash (assertion : String)
  deriving DecidableEq

abbrev Verdict := Except ScriptFailure

def fail {α : Type} (e : ScriptError) : Verdict α := .error (.error e)

def failIf (bad : Bool) (e : ScriptError) : Verdict Unit := if bad then fail e else .ok ()

def assertScript (c : Bool) (assertion : String) : Verdict Unit :=
  if c then .ok () else .error (.crash assertion)

@[simp] theorem failIf_ok {bad : Bool} {e : ScriptError} {u : Unit} :
    failIf bad e = .ok u ↔ bad = false := by
  unfold failIf fail
  split <;> simp [*]

@[simp] theorem assertScript_ok {c : Bool} {assertion : String} {u : Unit} :
    assertScript c assertion = .ok u ↔ c = true := by
  unfold assertScript
  split <;> simp [*]

/-- What a script is verified with, apart from the flags. -/
structure ScriptVerifier where
  hashes : ScriptHashes
  checker : BaseSignatureChecker

section Verify

variable (verifier : ScriptVerifier) (flags : VerifyFlags) (witness : List Valtype)

/-- `EvalScript` on a stack, as `VerifyScript` calls it: the stack behind
it. -/
def evalOn (sigversion : SigVersion) (stack : List Valtype) (script : CScript) :
    Verdict (List Valtype) :=
  match evalScript ⟨verifier.hashes, verifier.checker, sigversion⟩ flags stack script with
  | .error e => fail e
  | .ok s => .ok s.stack

/-- The script and the stack of a version 0 witness program. The witness has
its last element on top. -/
def witnessV0 (program : Valtype) : Verdict (CScript × List Valtype) :=
  if program.length = 32 then
    match witness.reverse with
    | [] => fail .WITNESS_PROGRAM_WITNESS_EMPTY
    | scriptPubKey :: stack =>
      if verifier.hashes.sha256 scriptPubKey ≠ program then fail .WITNESS_PROGRAM_MISMATCH
      else .ok (scriptPubKey, stack)
  else if program.length = 20 then
    if witness.length ≠ 2 then fail .WITNESS_PROGRAM_MISMATCH
    else
      -- OP_DUP OP_HASH160 <program> OP_EQUALVERIFY OP_CHECKSIG
      .ok ([0x76, OP_HASH160] ++ pushData program ++ [0x88, 0xac], witness.reverse)
  else fail .WITNESS_PROGRAM_WRONG_LENGTH

def verifyWitnessProgram (witversion : Nat) (program : Valtype) : Verdict Unit :=
  if witversion = 0 then do
    let p ← witnessV0 verifier witness program
    failIf (p.2.any fun vch => vch.length > MAX_SCRIPT_ELEMENT_SIZE) .PUSH_SIZE
    let stack ← evalOn verifier flags .WITNESS_V0 p.2 p.1
    failIf (stack.length ≠ 1) .EVAL_FALSE
    failIf (!castToBool (stack.headD [])) .EVAL_FALSE
  else failIf (.DISCOURAGE_UPGRADABLE_WITNESS_PROGRAM ∈ flags)
    .DISCOURAGE_UPGRADABLE_WITNESS_PROGRAM

/-! ## VerifyScript -/

/-- The top of the stack is true. -/
def expectTrue (stack : List Valtype) : Verdict Unit := do
  failIf stack.isEmpty .EVAL_FALSE
  failIf (!castToBool (stack.headD [])) .EVAL_FALSE

/-- The variables `hadWitness` and `stack` of `VerifyScript`. -/
structure VerifyState where
  hadWitness : Bool
  stack : List Valtype

/-- A script that is a witness program, bare or under P2SH. `exact` says that
`scriptSig` is as it has to be. The stack is cut to its bottom element, so
that the test for a clean stack passes. -/
def verifyWitness (exact : Bool) (malleated : ScriptError) (script : CScript)
    (witness : List Valtype) (st : VerifyState) : Verdict VerifyState :=
  if .WITNESS ∈ flags then
    match isWitnessProgram script with
    | none => .ok st
    | some (witnessversion, witnessprogram) => do
      failIf (!exact) malleated
      verifyWitnessProgram verifier flags witness witnessversion witnessprogram
      .ok ⟨true, [st.stack.getLastD []]⟩
  else .ok st

/-- The additional validation of a script hash. `stackCopy` is the stack
behind `scriptSig`. -/
def verifyP2sh (scriptSig scriptPubKey : CScript) (witness stackCopy : List Valtype)
    (st : VerifyState) : Verdict VerifyState :=
  if .P2SH ∈ flags ∧ isPayToScriptHash scriptPubKey then do
    failIf (!isPushOnly scriptSig) .SIG_PUSHONLY
    assertScript (!stackCopy.isEmpty) "!stack.empty()"
    let pubKey2 := stackCopy.headD []
    let stack ← evalOn verifier flags .BASE stackCopy.tail pubKey2
    expectTrue stack
    verifyWitness verifier flags (scriptSig = pushData pubKey2) .WITNESS_MALLEATED_P2SH pubKey2
      witness ⟨st.hadWitness, stack⟩
  else .ok st

def checkCleanStack (st : VerifyState) : Verdict Unit :=
  if .CLEANSTACK ∈ flags then do
    assertScript (.P2SH ∈ flags) "(flags & SCRIPT_VERIFY_P2SH) != 0"
    assertScript (.WITNESS ∈ flags) "(flags & SCRIPT_VERIFY_WITNESS) != 0"
    failIf (st.stack.length ≠ 1) .CLEANSTACK
  else .ok ()

def checkUnexpectedWitness (st : VerifyState) : Verdict Unit :=
  if .WITNESS ∈ flags then do
    assertScript (.P2SH ∈ flags) "(flags & SCRIPT_VERIFY_P2SH) != 0"
    failIf (!st.hadWitness && !witness.isEmpty) .WITNESS_UNEXPECTED
  else .ok ()

/-- `VerifyScript`. -/
def verifyScript (scriptSig scriptPubKey : CScript) (witness : List Valtype) : Verdict Unit := do
  failIf (.SIGPUSHONLY ∈ flags && !isPushOnly scriptSig) .SIG_PUSHONLY
  let stackCopy ← evalOn verifier flags .BASE [] scriptSig
  let stack ← evalOn verifier flags .BASE stackCopy scriptPubKey
  expectTrue stack
  let st ← verifyWitness verifier flags scriptSig.isEmpty .WITNESS_MALLEATED scriptPubKey witness
    ⟨false, stack⟩
  let st ← verifyP2sh verifier flags scriptSig scriptPubKey witness stackCopy st
  checkCleanStack flags st
  checkUnexpectedWitness flags witness st

end Verify

/-! ## The checks of the memory pool -/

def MANDATORY_SCRIPT_VERIFY_FLAGS : VerifyFlags := {.P2SH}

def STANDARD_SCRIPT_VERIFY_FLAGS : VerifyFlags :=
  MANDATORY_SCRIPT_VERIFY_FLAGS ∪
    {.DERSIG, .STRICTENC, .MINIMALDATA, .NULLDUMMY, .DISCOURAGE_UPGRADABLE_NOPS, .CLEANSTACK,
      .MINIMALIF, .NULLFAIL, .CHECKLOCKTIMEVERIFY, .CHECKSEQUENCEVERIFY, .LOW_S, .WITNESS,
      .DISCOURAGE_UPGRADABLE_WITNESS_PROGRAM, .WITNESS_PUBKEYTYPE}

def STANDARD_NOT_MANDATORY_VERIFY_FLAGS : VerifyFlags :=
  STANDARD_SCRIPT_VERIFY_FLAGS \ MANDATORY_SCRIPT_VERIFY_FLAGS

/-- What the script checks of the memory pool come to. `bug` is the branch
"BUG! PLEASE REPORT THIS! ConnectInputs failed against MANDATORY but not
STANDARD flags". -/
inductive ScriptsVerdict
  | accepted
  | rejected (failure : Failure)
  | bug (failure : Failure)

/-- What the memory pool checks a transaction with: the verifier of each
input and the amount that it spends, the chain and the height of the spend. -/
structure MempoolEnv where
  net : Network
  verifier : CTransaction → (nIn : Nat) → (amount : Int) → ScriptVerifier
  scriptErrorString : ScriptFailure → String
  nSpendHeight : Int

namespace MempoolEnv

variable (env : MempoolEnv) (tx : CTransaction) (inputs : CCoinsViewCache) (flags : VerifyFlags)

/-- `CScriptCheck::operator()` for the input `i`. -/
def scriptCheck (i : Nat) (txin : CTxIn) : Verdict Unit :=
  let out := ((inputs.accessCoins txin.prevout.hash).getD .empty).outAt txin.prevout.n.toNat
  junkcoin.verifyScript (env.verifier tx i out.nValue) flags txin.scriptSig out.scriptPubKey
    txin.scriptWitness

/-- The verdict on one input: a failure of a flag that is not mandatory is no
reason to ban a peer. -/
def checkScript (i : Nat) (txin : CTxIn) : Check Unit :=
  match env.scriptCheck tx inputs flags i txin with
  | .ok _ => .ok ()
  | .error (.crash assertion) => .error (.crash assertion)
  | .error err =>
    if (flags ∩ STANDARD_NOT_MANDATORY_VERIFY_FLAGS).Nonempty ∧
        env.scriptCheck tx inputs (flags \ STANDARD_NOT_MANDATORY_VERIFY_FLAGS) i txin = .ok ()
    then doS 0 ("non-mandatory-script-verify-flag (" ++ env.scriptErrorString err ++ ")")
    else doS 100 ("mandatory-script-verify-flag-failed (" ++ env.scriptErrorString err ++ ")")

/-- The loop of `CheckInputs` over the scripts. -/
def checkScriptsFrom (flags : VerifyFlags) : (i : Nat) → List CTxIn → Check Unit
  | _, [] => .ok ()
  | i, txin :: vin => do
    env.checkScript tx inputs flags i txin
    checkScriptsFrom flags (i + 1) vin

/-- `CheckInputs` with the scripts checked. -/
def checkInputs : Check Unit :=
  if tx.isCoinBase then .ok ()
  else do
    checkTxInputs env.net tx inputs env.nSpendHeight
    env.checkScriptsFrom tx inputs flags 0 tx.vin

def passes : Bool := okWith (env.checkInputs tx inputs flags) fun _ => true

/-- `state.SetCorruptionPossible()`. -/
def setCorruptionPossible : Failure → Failure
  | .invalid dos reason _ => .invalid dos reason true
  | f => f

/-- The flags that a transaction is checked with; only a chain that does not
require standard transactions lets `-promiscuousmempoolflags` set them. -/
def scriptVerifyFlags (fRequireStandard : Bool) (promiscuousmempoolflags : Option VerifyFlags) :
    VerifyFlags :=
  if fRequireStandard then STANDARD_SCRIPT_VERIFY_FLAGS
  else promiscuousmempoolflags.getD STANDARD_SCRIPT_VERIFY_FLAGS

/-- The script checks of `AcceptToMemoryPoolWorker`. -/
def acceptScripts : ScriptsVerdict :=
  match env.checkInputs tx inputs flags with
  | .error failure =>
    if (tx.vin.all fun txin => txin.scriptWitness.isEmpty) &&
        env.passes tx inputs (flags \ {.WITNESS, .CLEANSTACK}) &&
        !env.passes tx inputs (flags \ {.CLEANSTACK}) then
      .rejected (setCorruptionPossible failure)
    else .rejected failure
  | .ok _ =>
    match env.checkInputs tx inputs MANDATORY_SCRIPT_VERIFY_FLAGS with
    | .error failure => .bug failure
    | .ok _ => .accepted

end MempoolEnv

end junkcoin
