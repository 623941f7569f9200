-- Scripts: the opcodes, how a script is read opcode by opcode, the shapes
-- that `CScript` recognises and the numbers on the stack (`script.h` and
-- `script.cpp`).
import Junkcoin.Primitives

namespace junkcoin

/-- A stack element (`valtype`). -/
abbrev Valtype := List UInt8

/-! ## Opcodes -/

/-- `opcodetype`. The opcodes that push the bytes behind them are one case,
`OP_1NEGATE` and `OP_1` to `OP_16` are one case with the number that they
push, and `OP_UNDEFINED` stands for the bytes that have no case in the
interpreter. -/
inductive Opcodetype
  | OP_PUSH
  | OP_N (n : Int)
  | OP_NOP
  | OP_IF
  | OP_NOTIF
  | OP_ELSE
  | OP_ENDIF
  | OP_VERIFY
  | OP_RETURN
  | OP_TOALTSTACK
  | OP_FROMALTSTACK
  | OP_2DROP
  | OP_2DUP
  | OP_3DUP
  | OP_2OVER
  | OP_2ROT
  | OP_2SWAP
  | OP_IFDUP
  | OP_DEPTH
  | OP_DROP
  | OP_DUP
  | OP_NIP
  | OP_OVER
  | OP_PICK
  | OP_ROLL
  | OP_ROT
  | OP_SWAP
  | OP_TUCK
  | OP_SIZE
  | OP_EQUAL
  | OP_EQUALVERIFY
  | OP_1ADD
  | OP_1SUB
  | OP_NEGATE
  | OP_ABS
  | OP_NOT
  | OP_0NOTEQUAL
  | OP_ADD
  | OP_SUB
  | OP_BOOLAND
  | OP_BOOLOR
  | OP_NUMEQUAL
  | OP_NUMEQUALVERIFY
  | OP_NUMNOTEQUAL
  | OP_LESSTHAN
  | OP_GREATERTHAN
  | OP_LESSTHANOREQUAL
  | OP_GREATERTHANOREQUAL
  | OP_MIN
  | OP_MAX
  | OP_WITHIN
  | OP_RIPEMD160
  | OP_SHA1
  | OP_SHA256
  | OP_HASH160
  | OP_HASH256
  | OP_CODESEPARATOR
  | OP_CHECKSIG
  | OP_CHECKSIGVERIFY
  | OP_CHECKMULTISIG
  | OP_CHECKMULTISIGVERIFY
  | OP_NOP1
  | OP_CHECKLOCKTIMEVERIFY
  | OP_CHECKSEQUENCEVERIFY
  | OP_NOP4
  | OP_NOP5
  | OP_NOP6
  | OP_NOP7
  | OP_NOP8
  | OP_NOP9
  | OP_NOP10
  | OP_DISABLED
  | OP_UNDEFINED
  deriving DecidableEq

def OP_PUSHDATA4 : UInt8 := 0x4e

def OP_16 : UInt8 := 0x60

/-- The opcodes from `OP_NOP` (`0x61`) to `OP_NOP10` (`0xb9`). `OP_VER`,
`OP_VERIF`, `OP_VERNOTIF` and the reserved ones have no case; `OP_CAT` and
its like are disabled. -/
def opcodeTable : List Opcodetype :=
  [.OP_NOP, .OP_UNDEFINED, .OP_IF, .OP_NOTIF, .OP_UNDEFINED, .OP_UNDEFINED, .OP_ELSE, .OP_ENDIF,
    .OP_VERIFY, .OP_RETURN,
    -- 0x6b
    .OP_TOALTSTACK, .OP_FROMALTSTACK, .OP_2DROP, .OP_2DUP, .OP_3DUP, .OP_2OVER, .OP_2ROT,
    .OP_2SWAP, .OP_IFDUP, .OP_DEPTH, .OP_DROP, .OP_DUP, .OP_NIP, .OP_OVER, .OP_PICK, .OP_ROLL,
    .OP_ROT, .OP_SWAP, .OP_TUCK,
    -- 0x7e
    .OP_DISABLED, .OP_DISABLED, .OP_DISABLED, .OP_DISABLED, .OP_SIZE,
    -- 0x83
    .OP_DISABLED, .OP_DISABLED, .OP_DISABLED, .OP_DISABLED, .OP_EQUAL, .OP_EQUALVERIFY,
    .OP_UNDEFINED, .OP_UNDEFINED,
    -- 0x8b
    .OP_1ADD, .OP_1SUB, .OP_DISABLED, .OP_DISABLED, .OP_NEGATE, .OP_ABS, .OP_NOT, .OP_0NOTEQUAL,
    -- 0x93
    .OP_ADD, .OP_SUB, .OP_DISABLED, .OP_DISABLED, .OP_DISABLED, .OP_DISABLED, .OP_DISABLED,
    -- 0x9a
    .OP_BOOLAND, .OP_BOOLOR, .OP_NUMEQUAL, .OP_NUMEQUALVERIFY, .OP_NUMNOTEQUAL, .OP_LESSTHAN,
    .OP_GREATERTHAN, .OP_LESSTHANOREQUAL, .OP_GREATERTHANOREQUAL, .OP_MIN, .OP_MAX, .OP_WITHIN,
    -- 0xa6
    .OP_RIPEMD160, .OP_SHA1, .OP_SHA256, .OP_HASH160, .OP_HASH256, .OP_CODESEPARATOR,
    .OP_CHECKSIG, .OP_CHECKSIGVERIFY, .OP_CHECKMULTISIG, .OP_CHECKMULTISIGVERIFY,
    -- 0xb0
    .OP_NOP1, .OP_CHECKLOCKTIMEVERIFY, .OP_CHECKSEQUENCEVERIFY, .OP_NOP4, .OP_NOP5, .OP_NOP6,
    .OP_NOP7, .OP_NOP8, .OP_NOP9, .OP_NOP10]

/-- The case of the interpreter that a byte of a script selects. `0x50` is
`OP_RESERVED`. -/
def opcodeOf (b : UInt8) : Opcodetype :=
  if b ≤ OP_PUSHDATA4 then .OP_PUSH
  else if b ≤ OP_16 then
    if b = 0x50 then .OP_UNDEFINED else .OP_N (b.toNat - 0x50)
  else opcodeTable.getD (b.toNat - 0x61) .OP_UNDEFINED

/-- The opcodes that are looked at outside of an executed branch. -/
theorem opcodeOf_conditional {b : UInt8} (h1 : 0x63 ≤ b) (h2 : b ≤ 0x68) :
    opcodeOf b ∈ [.OP_IF, .OP_NOTIF, .OP_UNDEFINED, .OP_ELSE, .OP_ENDIF] := by
  have hall : ∀ n : Fin 256, 0x63 ≤ UInt8.ofFin n → UInt8.ofFin n ≤ 0x68 →
      opcodeOf (UInt8.ofFin n) ∈ [.OP_IF, .OP_NOTIF, .OP_UNDEFINED, .OP_ELSE, .OP_ENDIF] := by
    decide +kernel
  exact hall b.toFin h1 h2

/-! ## Reading a script -/

/-- The bytes in which `OP_PUSHDATA1`, `OP_PUSHDATA2` and `OP_PUSHDATA4` give
the size of the push. -/
def sizeBytes (opcode : UInt8) : Nat :=
  if opcode = 0x4c then 1 else if opcode = 0x4d then 2 else 4

/-- The size of the push of an opcode up to `OP_PUSHDATA4`, and what is left
after the size was read. -/
def pushSize (opcode : UInt8) (pc : CScript) : Option (Nat × CScript) :=
  if opcode < 0x4c then some (opcode.toNat, pc)
  else if pc.length < sizeBytes opcode then none
  else some (Bytes.ofLe (pc.take (sizeBytes opcode)), pc.drop (sizeBytes opcode))

/-- `CScript::GetOp2`: the opcode, the bytes that it pushes and the rest of
the script. -/
def getOp : CScript → Option (UInt8 × Valtype × CScript)
  | [] => none
  | opcode :: pc =>
    if opcode ≤ OP_PUSHDATA4 then
      match pushSize opcode pc with
      | none => none
      | some (nSize, pc) =>
        if pc.length < nSize then none else some (opcode, pc.take nSize, pc.drop nSize)
    else some (opcode, [], pc)

theorem pushSize_length {opcode : UInt8} {pc rest : CScript} {n : Nat}
    (h : pushSize opcode pc = some (n, rest)) : rest.length ≤ pc.length := by
  unfold pushSize at h
  split at h
  · cases h
    exact Nat.le_refl _
  · split at h
    · cases h
    · cases h
      simp

/-- Every opcode takes at least one byte. -/
theorem getOp_length {pc rest : CScript} {opcode : UInt8} {vch : Valtype}
    (h : getOp pc = some (opcode, vch, rest)) : rest.length < pc.length := by
  cases pc with
  | nil => cases h
  | cons b pc =>
    simp only [getOp] at h
    split at h
    · split at h
      · cases h
      · rename_i nSize pc' hs
        have hle := pushSize_length hs
        split at h
        · cases h
        · cases h
          simp only [List.length_drop, List.length_cons]
          omega
    · cases h
      simp

/-- The inner loop of `FindAndDelete`: drop `b` as often as it stands at the
front. -/
def dropFound (b : CScript) : (fuel : Nat) → (nFound : Nat) → CScript → Nat × CScript
  | 0, nFound, pc => (nFound, pc)
  | fuel + 1, nFound, pc =>
    if b.isPrefixOf pc then dropFound b fuel (nFound + 1) (pc.drop b.length) else (nFound, pc)

/-- The outer loop of `FindAndDelete`, one opcode at a time. -/
def findAndDeleteFrom (b : CScript) : (fuel : Nat) → (nFound : Nat) → CScript → Nat × CScript
  | 0, nFound, pc => (nFound, pc)
  | fuel + 1, nFound, pc =>
    let (nFound, pc2) := dropFound b (pc.length + 1) nFound pc
    match getOp pc2 with
    | none => (nFound, pc2)
    | some (_, _, pc) =>
      let (nFound, result) := findAndDeleteFrom b fuel nFound pc
      (nFound, pc2.take (pc2.length - pc.length) ++ result)

/-- `CScript::FindAndDelete`. -/
def findAndDelete (script b : CScript) : CScript :=
  if b = [] then script
  else
    let (nFound, result) := findAndDeleteFrom b (script.length + 1) 0 script
    if nFound > 0 then result else script

/-! ## Shapes -/

def isPushOnlyFrom : (fuel : Nat) → CScript → Bool
  | 0, _ => true
  | _ + 1, [] => true
  | fuel + 1, pc =>
    match getOp pc with
    | none => false
    | some (opcode, _, pc) => if opcode > OP_16 then false else isPushOnlyFrom fuel pc

def isPushOnly (script : CScript) : Bool := isPushOnlyFrom (script.length + 1) script

def isPayToScriptHash (script : CScript) : Bool :=
  script.length == 23 && script.getD 0 0 == OP_HASH160 && script.getD 1 0 == 0x14 &&
    script.getD 22 0 == OP_EQUAL

/-- `IsWitnessProgram`: the version and the program. -/
def isWitnessProgram (script : CScript) : Option (Nat × Valtype) :=
  if script.length < 4 ∨ script.length > 42 then none
  else
    let version := script.getD 0 0
    if version ≠ 0 ∧ (version < 0x51 ∨ version > OP_16) then none
    else if (script.getD 1 0).toNat + 2 = script.length then
      some (if version = 0 then 0 else version.toNat - 0x50, script.drop 2)
    else none

/-! ## Numbers on the stack -/

/-- The number is written in no more bytes than it needs. -/
def isMinimalNum (vch : Valtype) : Bool :=
  match vch.reverse with
  | [] => true
  | last :: rest =>
    if last &&& 0x7f = 0 then
      match rest with
      | [] => false
      | second :: _ => second &&& 0x80 ≠ 0
    else true

/-- `CScriptNum::set_vch`: little endian, with the sign in the top bit. -/
def setVch (vch : Valtype) : Int :=
  match vch.getLast? with
  | none => 0
  | some last =>
    if last &&& 0x80 ≠ 0 then -((Bytes.ofLe vch - 0x80 * 256 ^ (vch.length - 1) : Nat) : Int)
    else Bytes.ofLe vch

def nDefaultMaxNumSize : Nat := 4

/-- The constructor of `CScriptNum`, `none` where it throws. -/
def scriptNum (vch : Valtype) (fRequireMinimal : Bool) (nMaxNumSize : Nat) : Option Int :=
  if vch.length > nMaxNumSize then none
  else if fRequireMinimal && !isMinimalNum vch then none
  else some (setVch vch)

/-- `CScriptNum::getint`. -/
def getint (n : Int) : Int := min (max n (-(2 ^ 31))) (2 ^ 31 - 1)

/-- The value of a number does not depend on whether its encoding has to be
minimal. -/
theorem scriptNum_of_minimal {vch : Valtype} {nMaxNumSize : Nat} {n : Int} (fRequireMinimal : Bool)
    (h : scriptNum vch fRequireMinimal nMaxNumSize = some n) :
    scriptNum vch false nMaxNumSize = some n := by
  unfold scriptNum at h ⊢
  split at h
  · cases h
  · rename_i hsize
    split at h
    · cases h
    · simpa [hsize] using h

end junkcoin
