-- The script interpreter: the encoding checks, every opcode and the loop of
-- `EvalScript` (`script/interpreter.cpp`). A vector is a list with its back
-- first, so `stacktop(-1)` is the head of the stack.
import Junkcoin.Lib.Loop
import Junkcoin.Script
import Mathlib.Data.Finset.Dedup
import Mathlib.Data.Finset.Insert

namespace junkcoin

/-! ## Flags, errors and the checker -/

/-- The bits of the `SCRIPT_VERIFY_*` flags. -/
inductive VerifyFlag
  | P2SH
  | STRICTENC
  | DERSIG
  | LOW_S
  | NULLDUMMY
  | SIGPUSHONLY
  | MINIMALDATA
  | DISCOURAGE_UPGRADABLE_NOPS
  | CLEANSTACK
  | CHECKLOCKTIMEVERIFY
  | CHECKSEQUENCEVERIFY
  | WITNESS
  | DISCOURAGE_UPGRADABLE_WITNESS_PROGRAM
  | MINIMALIF
  | NULLFAIL
  | WITNESS_PUBKEYTYPE
  deriving DecidableEq

/-- `unsigned int flags`, as the set of its bits. -/
abbrev VerifyFlags := Finset VerifyFlag

inductive ScriptError
  | UNKNOWN_ERROR
  | EVAL_FALSE
  | OP_RETURN
  | SCRIPT_SIZE
  | PUSH_SIZE
  | OP_COUNT
  | STACK_SIZE
  | SIG_COUNT
  | PUBKEY_COUNT
  | VERIFY
  | EQUALVERIFY
  | CHECKMULTISIGVERIFY
  | CHECKSIGVERIFY
  | NUMEQUALVERIFY
  | BAD_OPCODE
  | DISABLED_OPCODE
  | INVALID_STACK_OPERATION
  | INVALID_ALTSTACK_OPERATION
  | UNBALANCED_CONDITIONAL
  | NEGATIVE_LOCKTIME
  | UNSATISFIED_LOCKTIME
  | SIG_HASHTYPE
  | SIG_DER
  | MINIMALDATA
  | SIG_PUSHONLY
  | SIG_NULLDUMMY
  | PUBKEYTYPE
  | CLEANSTACK
  | MINIMALIF
  | SIG_NULLFAIL
  | DISCOURAGE_UPGRADABLE_NOPS
  | DISCOURAGE_UPGRADABLE_WITNESS_PROGRAM
  | WITNESS_PROGRAM_WRONG_LENGTH
  | WITNESS_PROGRAM_WITNESS_EMPTY
  | WITNESS_PROGRAM_MISMATCH
  | WITNESS_MALLEATED
  | WITNESS_MALLEATED_P2SH
  | WITNESS_UNEXPECTED
  | WITNESS_PUBKEYTYPE
  deriving DecidableEq

inductive SigVersion
  | BASE
  | WITNESS_V0
  deriving DecidableEq

structure BaseSignatureChecker where
  checkSig : (vchSig vchPubKey : Valtype) → (scriptCode : CScript) → SigVersion → Bool
  checkLockTime : Int → Bool
  checkSequence : Int → Bool

/-- The hash functions of the crypto opcodes. -/
structure ScriptHashes where
  ripemd160 : Valtype → Valtype
  sha1 : Valtype → Valtype
  sha256 : Valtype → Valtype
  hash160 : Valtype → Valtype
  hash256 : Valtype → Valtype

/-- What stays the same in one call of `EvalScript`, apart from the flags. -/
structure ScriptContext where
  hashes : ScriptHashes
  checker : BaseSignatureChecker
  sigversion : SigVersion

/-- The variables of the loop of `EvalScript`. `pc` and `pbegincodehash` are
what is left of the script from there. `sigsChecked` is not in the source: it
keeps the signatures that went to `checker.CheckSig`. -/
@[ext] structure ScriptState where
  pc : CScript
  pbegincodehash : CScript
  stack : List Valtype
  altstack : List Valtype
  vfExec : List Bool
  nOpCount : Nat
  sigsChecked : List Valtype
  deriving DecidableEq

abbrev EvalResult := Except ScriptError

/-! ## Encodings -/

def castToBool : Valtype → Bool
  | [] => false
  | b :: vch => if b ≠ 0 then !(vch = [] && b = 0x80) else castToBool vch

def isCompressedOrUncompressedPubKey (vchPubKey : Valtype) : Bool :=
  if vchPubKey.length < 33 then false
  else
    let first := vchPubKey.getD 0 0
    if first = 0x04 then vchPubKey.length == 65
    else if first = 0x02 ∨ first = 0x03 then vchPubKey.length == 33
    else false

def isCompressedPubKey (vchPubKey : Valtype) : Bool :=
  if vchPubKey.length ≠ 33 then false
  else vchPubKey.getD 0 0 = 0x02 ∨ vchPubKey.getD 0 0 = 0x03

/-- `IsValidSignatureEncoding`: strict DER and one byte of hash type. -/
def isValidSignatureEncoding (sig : Valtype) : Bool :=
  if sig.length < 9 then false
  else if sig.length > 73 then false
  else if sig.getD 0 0 ≠ 0x30 then false
  else if (sig.getD 1 0).toNat ≠ sig.length - 3 then false
  else
    let lenR := (sig.getD 3 0).toNat
    if 5 + lenR ≥ sig.length then false
    else
      let lenS := (sig.getD (5 + lenR) 0).toNat
      if lenR + lenS + 7 ≠ sig.length then false
      else if sig.getD 2 0 ≠ 0x02 then false
      else if lenR = 0 then false
      else if sig.getD 4 0 &&& 0x80 ≠ 0 then false
      else if lenR > 1 ∧ sig.getD 4 0 = 0x00 ∧ sig.getD 5 0 &&& 0x80 = 0 then false
      else if sig.getD (lenR + 4) 0 ≠ 0x02 then false
      else if lenS = 0 then false
      else if sig.getD (lenR + 6) 0 &&& 0x80 ≠ 0 then false
      else if lenS > 1 ∧ sig.getD (lenR + 6) 0 = 0x00 ∧ sig.getD (lenR + 7) 0 &&& 0x80 = 0 then
        false
      else true

/-- `IsLowDERSignature`, whose test of S is commented out. -/
def isLowDERSignature (vchSig : Valtype) : EvalResult Unit :=
  if !isValidSignatureEncoding vchSig then .error .SIG_DER else .ok ()

def isDefinedHashtypeSignature (vchSig : Valtype) : Bool :=
  match vchSig.getLast? with
  | none => false
  | some last =>
    let nHashType := last &&& 0x7f
    !(nHashType < 1 || nHashType > 3)

def checkSignatureEncoding (flags : VerifyFlags) (vchSig : Valtype) : EvalResult Unit :=
  if vchSig = [] then .ok ()
  else if (.DERSIG ∈ flags ∨ .LOW_S ∈ flags ∨ .STRICTENC ∈ flags) ∧
      isValidSignatureEncoding vchSig = false then .error .SIG_DER
  else if .LOW_S ∈ flags ∧ isLowDERSignature vchSig ≠ .ok () then isLowDERSignature vchSig
  else if .STRICTENC ∈ flags ∧ isDefinedHashtypeSignature vchSig = false then .error .SIG_HASHTYPE
  else .ok ()

def checkPubKeyEncoding (flags : VerifyFlags) (sigversion : SigVersion) (vchPubKey : Valtype) :
    EvalResult Unit :=
  if .STRICTENC ∈ flags ∧ isCompressedOrUncompressedPubKey vchPubKey = false then
    .error .PUBKEYTYPE
  else if .WITNESS_PUBKEYTYPE ∈ flags ∧ sigversion = .WITNESS_V0 ∧
      isCompressedPubKey vchPubKey = false then .error .WITNESS_PUBKEYTYPE
  else .ok ()

def checkMinimalPush (data : Valtype) (opcode : UInt8) : Bool :=
  let first := data.getD 0 0
  if data.length = 0 then opcode = 0
  else if data.length = 1 ∧ 1 ≤ first ∧ first ≤ 16 then opcode = 0x51 + (first - 1)
  else if data.length = 1 ∧ first = 0x81 then opcode = 0x4f
  else if data.length ≤ 75 then opcode.toNat = data.length
  else if data.length ≤ 255 then opcode = 0x4c
  else if data.length ≤ 65535 then opcode = 0x4d
  else true

/-! ## Opcodes that look at the stack only -/

section Opcodes

variable (ctx : ScriptContext) (flags : VerifyFlags) (s : ScriptState)
  (fVerify : Option ScriptError)

def vchBool (fValue : Bool) : Valtype := if fValue then [1] else []

/-- An opcode that rearranges the stack, `none` where the stack is too
short. -/
def stackOp (f : List Valtype → Option (List Valtype)) (s : ScriptState) : EvalResult ScriptState :=
  match f s.stack with
  | none => .error .INVALID_STACK_OPERATION
  | some stack => .ok { s with stack }

/-- The end of an opcode that leaves a boolean; its `VERIFY` form takes it
off again. -/
def pushBool (fValue : Bool) (rest : List Valtype) (s : ScriptState) : EvalResult ScriptState :=
  match fVerify with
  | none => .ok { s with stack := vchBool fValue :: rest }
  | some err => if fValue then .ok { s with stack := rest } else .error err

/-- `OP_EQUAL` and `OP_EQUALVERIFY`. -/
def opEqual (s : ScriptState) : EvalResult ScriptState :=
  match s.stack with
  | vch2 :: vch1 :: rest => pushBool fVerify (vch1 = vch2) rest s
  | _ => .error .INVALID_STACK_OPERATION

/-- `OP_ELSE` and `OP_ENDIF`. -/
def opBranch (f : Bool → List Bool → List Bool) (s : ScriptState) : EvalResult ScriptState :=
  match s.vfExec with
  | [] => .error .UNBALANCED_CONDITIONAL
  | fValue :: vfExec => .ok { s with vfExec := f fValue vfExec }

def opVerify : EvalResult ScriptState :=
  match s.stack with
  | [] => .error .INVALID_STACK_OPERATION
  | vch :: stack => if castToBool vch then .ok { s with stack } else .error .VERIFY

def opToAltStack : EvalResult ScriptState :=
  match s.stack with
  | [] => .error .INVALID_STACK_OPERATION
  | vch :: stack => .ok { s with stack, altstack := vch :: s.altstack }

def opFromAltStack : EvalResult ScriptState :=
  match s.altstack with
  | [] => .error .INVALID_ALTSTACK_OPERATION
  | vch :: altstack => .ok { s with stack := vch :: s.stack, altstack }

/-! ## Opcodes with numbers -/

/-- A number from the stack. `CScriptNum` throws where it is not one, and the
loop catches that. -/
def stackNum (vch : Valtype) (nMaxNumSize : Nat) : EvalResult Int :=
  match scriptNum vch (.MINIMALDATA ∈ flags) nMaxNumSize with
  | none => .error .UNKNOWN_ERROR
  | some n => .ok n

/-- `OP_PICK` and `OP_ROLL`. -/
def opPick (fRoll : Bool) (s : ScriptState) : EvalResult ScriptState :=
  match s.stack with
  | vch :: x :: rest => do
    let n ← stackNum flags vch nDefaultMaxNumSize
    let stack := x :: rest
    if getint n < 0 ∨ getint n ≥ stack.length then .error .INVALID_STACK_OPERATION
    else
      let i := (getint n).toNat
      .ok { s with stack := stack.getD i [] :: if fRoll then stack.eraseIdx i else stack }
  | _ => .error .INVALID_STACK_OPERATION

/-- The opcodes with one number. -/
def opNum (f : Int → Int) (s : ScriptState) : EvalResult ScriptState :=
  match s.stack with
  | vch :: rest => do
    let bn ← stackNum flags vch nDefaultMaxNumSize
    .ok { s with stack := scriptNumSerialize (f bn) :: rest }
  | _ => .error .INVALID_STACK_OPERATION

/-- The opcodes with two numbers. -/
def opNum2 (f : Int → Int → Int) (s : ScriptState) : EvalResult ScriptState :=
  match s.stack with
  | vch2 :: vch1 :: rest => do
    let bn1 ← stackNum flags vch1 nDefaultMaxNumSize
    let bn2 ← stackNum flags vch2 nDefaultMaxNumSize
    .ok { s with stack := scriptNumSerialize (f bn1 bn2) :: rest }
  | _ => .error .INVALID_STACK_OPERATION

def numOfBool (b : Bool) : Int := if b then 1 else 0

/-- The end of `OP_NUMEQUALVERIFY`. -/
def numEqualVerify : EvalResult ScriptState :=
  match s.stack with
  | [] => .error .UNKNOWN_ERROR
  | vch :: stack => if castToBool vch then .ok { s with stack } else .error .NUMEQUALVERIFY

def opWithin : EvalResult ScriptState :=
  match s.stack with
  | vch3 :: vch2 :: vch1 :: rest => do
    let bn1 ← stackNum flags vch1 nDefaultMaxNumSize
    let bn2 ← stackNum flags vch2 nDefaultMaxNumSize
    let bn3 ← stackNum flags vch3 nDefaultMaxNumSize
    .ok { s with stack := vchBool (bn2 ≤ bn1 ∧ bn1 < bn3) :: rest }
  | _ => .error .INVALID_STACK_OPERATION

/-- `OP_CHECKLOCKTIMEVERIFY` and `OP_CHECKSEQUENCEVERIFY`: a NOP unless the
flag is set. -/
def opCheckLock (flag : VerifyFlag) (check : Int → Bool) (s : ScriptState) :
    EvalResult ScriptState :=
  if flag ∉ flags then
    if .DISCOURAGE_UPGRADABLE_NOPS ∈ flags then .error .DISCOURAGE_UPGRADABLE_NOPS else .ok s
  else
    match s.stack with
    | [] => .error .INVALID_STACK_OPERATION
    | vch :: _ => do
      let n ← stackNum flags vch 5
      if n < 0 then .error .NEGATIVE_LOCKTIME
      else if check n then .ok s
      else .error .UNSATISFIED_LOCKTIME

def opNop : ScriptState → EvalResult ScriptState := fun s =>
  if .DISCOURAGE_UPGRADABLE_NOPS ∈ flags then .error .DISCOURAGE_UPGRADABLE_NOPS else .ok s

/-! ## Conditionals -/

/-- `OP_IF` and `OP_NOTIF`. -/
def opIf (fExec fNot : Bool) (s : ScriptState) : EvalResult ScriptState :=
  if fExec then
    match s.stack with
    | [] => .error .UNBALANCED_CONDITIONAL
    | vch :: stack =>
      if ctx.sigversion = .WITNESS_V0 ∧ .MINIMALIF ∈ flags ∧ vch ≠ [] ∧ vch ≠ [1] then
        .error .MINIMALIF
      else .ok { s with stack, vfExec := (castToBool vch != fNot) :: s.vfExec }
  else .ok { s with vfExec := false :: s.vfExec }

/-! ## Signatures -/

/-- The script that is signed: from the last code separator on, and before
segwit without the signatures. -/
def scriptCodeFor (sigs : List Valtype) (s : ScriptState) : CScript :=
  if ctx.sigversion = .BASE then
    sigs.foldl (fun scriptCode vchSig => findAndDelete scriptCode (pushData vchSig))
      s.pbegincodehash
  else s.pbegincodehash

/-- `OP_CHECKSIG` and `OP_CHECKSIGVERIFY`. The test of the encodings stands
in the source as a comment. -/
def opCheckSig (s : ScriptState) : EvalResult ScriptState :=
  match s.stack with
  | vchPubKey :: vchSig :: rest =>
    let fSuccess := ctx.checker.checkSig vchSig vchPubKey (scriptCodeFor ctx [vchSig] s)
      ctx.sigversion
    if fSuccess = false ∧ .NULLFAIL ∈ flags ∧ vchSig ≠ [] then .error .SIG_NULLFAIL
    else pushBool fVerify fSuccess rest { s with sigsChecked := vchSig :: s.sigsChecked }
  | _ => .error .INVALID_STACK_OPERATION

def MAX_PUBKEYS_PER_MULTISIG : Nat := 20

def MAX_OPS_PER_SCRIPT : Nat := 201

/-- The start of `OP_CHECKMULTISIG`: the number of keys and of signatures. -/
def multisigCounts : EvalResult (Nat × Nat) :=
  match s.stack with
  | [] => .error .INVALID_STACK_OPERATION
  | vchKeys :: _ => do
    let nKeys ← stackNum flags vchKeys nDefaultMaxNumSize
    let nKeysCount := (getint nKeys).toNat
    if getint nKeys < 0 ∨ nKeysCount > MAX_PUBKEYS_PER_MULTISIG then .error .PUBKEY_COUNT
    else if s.nOpCount + nKeysCount > MAX_OPS_PER_SCRIPT then .error .OP_COUNT
    else if s.stack.length < nKeysCount + 2 then .error .INVALID_STACK_OPERATION
    else do
      let nSigs ← stackNum flags (s.stack.getD (nKeysCount + 1) []) nDefaultMaxNumSize
      let nSigsCount := (getint nSigs).toNat
      if getint nSigs < 0 ∨ nSigsCount > nKeysCount then .error .SIG_COUNT
      else if s.stack.length < nKeysCount + nSigsCount + 3 then .error .INVALID_STACK_OPERATION
      else .ok (nKeysCount, nSigsCount)

/-- The signatures that are left after one was checked against a key. -/
def sigsLeft (fOk : Bool) (vchSig : Valtype) (sigs : List Valtype) : List Valtype :=
  if fOk then sigs else vchSig :: sigs

/-- The loop of `OP_CHECKMULTISIG` over the signatures and the keys that are
left. It returns `fSuccess` and the signatures that were checked. The loop
ends before a signature is left without a key. -/
def multisigLoop (scriptCode : CScript) :
    (sigs keys checked : List Valtype) → EvalResult (Bool × List Valtype)
  | [], _, checked => .ok (true, checked)
  | _ :: _, [], checked => .ok (false, checked)
  | vchSig :: sigs, vchPubKey :: keys, checked => do
    checkSignatureEncoding flags vchSig
    checkPubKeyEncoding flags ctx.sigversion vchPubKey
    let fOk := ctx.checker.checkSig vchSig vchPubKey scriptCode ctx.sigversion
    let left := sigsLeft fOk vchSig sigs
    if left.length > keys.length then .ok (false, vchSig :: checked)
    else multisigLoop scriptCode left keys (vchSig :: checked)

/-- The loop that takes the arguments of `OP_CHECKMULTISIG` from the stack.
With `fNullFail` every signature has to be empty; `ikey2` counts what comes
before them. -/
def popArguments (fNullFail : Bool) :
    (i ikey2 : Nat) → List Valtype → EvalResult (List Valtype)
  | 0, _, stack => .ok stack
  | _ + 1, _, [] => .error .UNKNOWN_ERROR
  | i + 1, ikey2, vch :: stack =>
    if fNullFail = true ∧ ikey2 = 0 ∧ vch ≠ [] then .error .SIG_NULLFAIL
    else popArguments fNullFail i (ikey2 - 1) stack

/-- The end of `OP_CHECKMULTISIG`: the extra argument that it takes, and its
result. -/
def multisigResult (fSuccess : Bool) (s : ScriptState) : EvalResult ScriptState :=
  match s.stack with
  | [] => .error .INVALID_STACK_OPERATION
  | dummy :: rest =>
    if .NULLDUMMY ∈ flags ∧ dummy ≠ [] then .error .SIG_NULLDUMMY
    else pushBool fVerify fSuccess rest s

/-- `OP_CHECKMULTISIG` and `OP_CHECKMULTISIGVERIFY`. -/
def opCheckMultisig (s : ScriptState) : EvalResult ScriptState := do
  let counts ← multisigCounts flags s
  let keys := (s.stack.drop 1).take counts.1
  let sigs := (s.stack.drop (counts.1 + 2)).take counts.2
  let result ← multisigLoop ctx flags (scriptCodeFor ctx sigs s) sigs keys s.sigsChecked
  let stack ← popArguments (!result.1 && decide (.NULLFAIL ∈ flags)) (counts.1 + counts.2 + 2)
    (counts.1 + 2) s.stack
  multisigResult flags fVerify result.1
    { s with stack, nOpCount := s.nOpCount + counts.1, sigsChecked := result.2 }

/-! ## One opcode -/

/-- The `switch` of `EvalScript`, after the opcodes that push bytes and the
disabled ones. -/
def execOp (fExec : Bool) (s : ScriptState) : Opcodetype → EvalResult ScriptState
  | .OP_N n => .ok { s with stack := scriptNumSerialize n :: s.stack }
  | .OP_NOP => .ok s
  | .OP_CHECKLOCKTIMEVERIFY =>
    opCheckLock flags .CHECKLOCKTIMEVERIFY ctx.checker.checkLockTime s
  | .OP_CHECKSEQUENCEVERIFY =>
    -- a sequence number with the disable flag is a NOP
    opCheckLock flags .CHECKSEQUENCEVERIFY
      (fun n => n.toNat.testBit 31 || ctx.checker.checkSequence n) s
  | .OP_NOP1 => opNop flags s
  | .OP_NOP4 => opNop flags s
  | .OP_NOP5 => opNop flags s
  | .OP_NOP6 => opNop flags s
  | .OP_NOP7 => opNop flags s
  | .OP_NOP8 => opNop flags s
  | .OP_NOP9 => opNop flags s
  | .OP_NOP10 => opNop flags s
  | .OP_IF => opIf ctx flags fExec false s
  | .OP_NOTIF => opIf ctx flags fExec true s
  | .OP_ELSE => opBranch (fun fValue vfExec => (!fValue) :: vfExec) s
  | .OP_ENDIF => opBranch (fun _ vfExec => vfExec) s
  | .OP_VERIFY => opVerify s
  | .OP_RETURN => .error .OP_RETURN
  | .OP_TOALTSTACK => opToAltStack s
  | .OP_FROMALTSTACK => opFromAltStack s
  | .OP_2DROP => stackOp (fun | _ :: _ :: rest => some rest | _ => none) s
  | .OP_2DUP => stackOp (fun | x2 :: x1 :: rest => some (x2 :: x1 :: x2 :: x1 :: rest)
                             | _ => none) s
  | .OP_3DUP => stackOp (fun | x3 :: x2 :: x1 :: rest =>
                                some (x3 :: x2 :: x1 :: x3 :: x2 :: x1 :: rest)
                             | _ => none) s
  | .OP_2OVER => stackOp (fun | x4 :: x3 :: x2 :: x1 :: rest =>
                                 some (x2 :: x1 :: x4 :: x3 :: x2 :: x1 :: rest)
                              | _ => none) s
  | .OP_2ROT => stackOp (fun | x6 :: x5 :: x4 :: x3 :: x2 :: x1 :: rest =>
                                some (x2 :: x1 :: x6 :: x5 :: x4 :: x3 :: rest)
                             | _ => none) s
  | .OP_2SWAP => stackOp (fun | x4 :: x3 :: x2 :: x1 :: rest =>
                                 some (x2 :: x1 :: x4 :: x3 :: rest)
                              | _ => none) s
  | .OP_IFDUP => stackOp (fun | x :: rest => some (if castToBool x then x :: x :: rest
                                                   else x :: rest)
                              | _ => none) s
  | .OP_DEPTH => .ok { s with stack := scriptNumSerialize s.stack.length :: s.stack }
  | .OP_DROP => stackOp (fun | _ :: rest => some rest | _ => none) s
  | .OP_DUP => stackOp (fun | x :: rest => some (x :: x :: rest) | _ => none) s
  | .OP_NIP => stackOp (fun | x2 :: _ :: rest => some (x2 :: rest) | _ => none) s
  | .OP_OVER => stackOp (fun | x2 :: x1 :: rest => some (x1 :: x2 :: x1 :: rest) | _ => none) s
  | .OP_PICK => opPick flags false s
  | .OP_ROLL => opPick flags true s
  | .OP_ROT => stackOp (fun | x3 :: x2 :: x1 :: rest => some (x1 :: x3 :: x2 :: rest)
                            | _ => none) s
  | .OP_SWAP => stackOp (fun | x2 :: x1 :: rest => some (x1 :: x2 :: rest) | _ => none) s
  | .OP_TUCK => stackOp (fun | x2 :: x1 :: rest => some (x2 :: x1 :: x2 :: rest) | _ => none) s
  | .OP_SIZE => stackOp (fun | x :: rest => some (scriptNumSerialize x.length :: x :: rest)
                             | _ => none) s
  | .OP_EQUAL => opEqual none s
  | .OP_EQUALVERIFY => opEqual (some .EQUALVERIFY) s
  | .OP_1ADD => opNum flags (· + 1) s
  | .OP_1SUB => opNum flags (· - 1) s
  | .OP_NEGATE => opNum flags (- ·) s
  | .OP_ABS => opNum flags (fun bn => if bn < 0 then -bn else bn) s
  | .OP_NOT => opNum flags (fun bn => numOfBool (bn = 0)) s
  | .OP_0NOTEQUAL => opNum flags (fun bn => numOfBool (bn ≠ 0)) s
  | .OP_ADD => opNum2 flags (· + ·) s
  | .OP_SUB => opNum2 flags (· - ·) s
  | .OP_BOOLAND => opNum2 flags (fun bn1 bn2 => numOfBool (bn1 ≠ 0 ∧ bn2 ≠ 0)) s
  | .OP_BOOLOR => opNum2 flags (fun bn1 bn2 => numOfBool (bn1 ≠ 0 ∨ bn2 ≠ 0)) s
  | .OP_NUMEQUAL => opNum2 flags (fun bn1 bn2 => numOfBool (bn1 = bn2)) s
  | .OP_NUMEQUALVERIFY => do
    let s ← opNum2 flags (fun bn1 bn2 => numOfBool (bn1 = bn2)) s
    numEqualVerify s
  | .OP_NUMNOTEQUAL => opNum2 flags (fun bn1 bn2 => numOfBool (bn1 ≠ bn2)) s
  | .OP_LESSTHAN => opNum2 flags (fun bn1 bn2 => numOfBool (bn1 < bn2)) s
  | .OP_GREATERTHAN => opNum2 flags (fun bn1 bn2 => numOfBool (bn1 > bn2)) s
  | .OP_LESSTHANOREQUAL => opNum2 flags (fun bn1 bn2 => numOfBool (bn1 ≤ bn2)) s
  | .OP_GREATERTHANOREQUAL => opNum2 flags (fun bn1 bn2 => numOfBool (bn1 ≥ bn2)) s
  | .OP_MIN => opNum2 flags (fun bn1 bn2 => if bn1 < bn2 then bn1 else bn2) s
  | .OP_MAX => opNum2 flags (fun bn1 bn2 => if bn1 > bn2 then bn1 else bn2) s
  | .OP_WITHIN => opWithin flags s
  | .OP_RIPEMD160 => stackOp (fun | x :: rest => some (ctx.hashes.ripemd160 x :: rest)
                                  | _ => none) s
  | .OP_SHA1 => stackOp (fun | x :: rest => some (ctx.hashes.sha1 x :: rest) | _ => none) s
  | .OP_SHA256 => stackOp (fun | x :: rest => some (ctx.hashes.sha256 x :: rest) | _ => none) s
  | .OP_HASH160 => stackOp (fun | x :: rest => some (ctx.hashes.hash160 x :: rest) | _ => none) s
  | .OP_HASH256 => stackOp (fun | x :: rest => some (ctx.hashes.hash256 x :: rest) | _ => none) s
  | .OP_CODESEPARATOR => .ok { s with pbegincodehash := s.pc }
  | .OP_CHECKSIG => opCheckSig ctx flags none s
  | .OP_CHECKSIGVERIFY => opCheckSig ctx flags (some .CHECKSIGVERIFY) s
  | .OP_CHECKMULTISIG => opCheckMultisig ctx flags none s
  | .OP_CHECKMULTISIGVERIFY => opCheckMultisig ctx flags (some .CHECKMULTISIGVERIFY) s
  | .OP_PUSH => .error .BAD_OPCODE
  | .OP_DISABLED => .error .BAD_OPCODE
  | .OP_UNDEFINED => .error .BAD_OPCODE

/-! ## The loop -/

def MAX_SCRIPT_ELEMENT_SIZE : Nat := 520

/-- The branch is executed: no condition around it is false. -/
def ScriptState.fExec : Bool := s.vfExec.all id

/-- The number of opcodes behind an opcode; pushes and `OP_RESERVED` do not
count. -/
def countOp (opcode : UInt8) (nOpCount : Nat) : Nat :=
  if opcode > OP_16 then nOpCount + 1 else nOpCount

/-- The start of an iteration: the opcode, the bytes that it pushes and the
state behind it. -/
def fetchOp : EvalResult (UInt8 × Valtype × ScriptState) :=
  match getOp s.pc with
  | none => .error .BAD_OPCODE
  | some (opcode, vchPushValue, pc) =>
    if vchPushValue.length > MAX_SCRIPT_ELEMENT_SIZE then .error .PUSH_SIZE
    else if opcode > OP_16 ∧ countOp opcode s.nOpCount > MAX_OPS_PER_SCRIPT then .error .OP_COUNT
    else if opcodeOf opcode = .OP_DISABLED then .error .DISABLED_OPCODE
    else .ok (opcode, vchPushValue, { s with pc, nOpCount := countOp opcode s.nOpCount })

/-- The opcode itself: a push, or the `switch`. Outside of an executed branch
only `OP_IF` (`0x63`) to `OP_ENDIF` (`0x68`) are looked at. -/
def dispatchOp (opcode : UInt8) (vchPushValue : Valtype) (s : ScriptState) :
    EvalResult ScriptState :=
  if s.fExec ∧ opcode ≤ OP_PUSHDATA4 then
    if .MINIMALDATA ∈ flags ∧ checkMinimalPush vchPushValue opcode = false then
      .error .MINIMALDATA
    else .ok { s with stack := vchPushValue :: s.stack }
  else if s.fExec ∨ (0x63 ≤ opcode ∧ opcode ≤ 0x68) then
    execOp ctx flags s.fExec s (opcodeOf opcode)
  else .ok s

/-- The size limits at the end of an iteration. -/
def checkStackSize : EvalResult ScriptState :=
  if s.stack.length + s.altstack.length > 1000 then .error .STACK_SIZE else .ok s

/-- One iteration of the loop of `EvalScript`. -/
def evalStep : EvalResult ScriptState := do
  let fetched ← fetchOp s
  let s ← dispatchOp ctx flags fetched.1 fetched.2.1 fetched.2.2
  checkStackSize s

/-- The loop of `EvalScript`. Every iteration reads at least one byte, so the
length of the script is fuel enough. -/
def evalLoop : (fuel : Nat) → ScriptState → EvalResult ScriptState :=
  Loop.run (fun s => s.pc.isEmpty) (evalStep ctx flags)

/-- The variables of `EvalScript` before its loop. -/
def startState (stack : List Valtype) (script : CScript) : ScriptState :=
  { pc := script, pbegincodehash := script, stack, altstack := [], vfExec := [], nOpCount := 0,
    sigsChecked := [] }

/-- The conditionals are closed at the end of the script. -/
def checkBalanced : EvalResult ScriptState :=
  if s.vfExec ≠ [] then .error .UNBALANCED_CONDITIONAL else .ok s

/-- `EvalScript`. Where it returns true the stack is that of the last state,
and where it returns false the error is the one that it sets. -/
def evalScript (stack : List Valtype) (script : CScript) : EvalResult ScriptState :=
  if script.length > MAX_SCRIPT_SIZE then .error .SCRIPT_SIZE
  else do
    let s ← evalLoop ctx flags script.length (startState stack script)
    checkBalanced s

end Opcodes

end junkcoin
