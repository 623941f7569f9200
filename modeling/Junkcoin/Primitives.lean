-- Amounts, scripts, transactions and blocks, with their wire form. The two
-- hash functions of the node stay parameters: every law holds for all of them.
import Junkcoin.Lib.Bytes
import Mathlib.Data.BitVec

namespace junkcoin

/-! ## Amounts -/

/-- Amounts are in satoshis. The C++ type `CAmount` is `int64_t`; `int64`
says where a sum is cut back to that range. -/
def int64 (n : Int) : Int := (n + 2 ^ 63) % 2 ^ 64 - 2 ^ 63

def COIN : Int := 100000000

def MAX_MONEY : Int := 54000000 * COIN

def moneyRange (nValue : Int) : Bool := 0 ≤ nValue && nValue ≤ MAX_MONEY

theorem moneyRange_iff (n : Int) : moneyRange n = true ↔ 0 ≤ n ∧ n ≤ MAX_MONEY := by
  simp [moneyRange]

/-- A number that fits is not cut. -/
theorem int64_of_fits {n : Int} (h1 : -2 ^ 63 ≤ n) (h2 : n < 2 ^ 63) : int64 n = n := by
  unfold int64
  omega

/-- Cutting a number that is not negative never makes it larger. -/
theorem int64_le {n : Int} (h : -2 ^ 63 ≤ n) : int64 n ≤ n := by
  unfold int64
  omega

theorem int64_ge (n : Int) : -2 ^ 63 ≤ int64 n := by
  unfold int64
  omega

/-- A number that fits is kept when it is assigned to an `int`. -/
theorem toInt_ofNat_small {n : Nat} (h : n < 2 ^ 31) : (BitVec.ofNat 32 n).toInt = n := by
  rw [BitVec.toInt_eq_toNat_cond, BitVec.toNat_ofNat, Nat.mod_eq_of_lt (by omega),
    if_pos (by omega)]

/-! ## Hashes and scripts -/

abbrev Uint256 := BitVec 256

def Uint256.bytes (h : Uint256) : List UInt8 := Bytes.le 32 h.toNat

theorem Uint256.bytes_inj {h k : Uint256} (hb : h.bytes = k.bytes) : h = k := by
  refine BitVec.eq_of_toNat_eq (Bytes.le_inj ?_ ?_ hb)
  · exact lt_of_lt_of_eq h.isLt (by norm_num)
  · exact lt_of_lt_of_eq k.isLt (by norm_num)

/-- `operator<` of `uint256`: `memcmp` of the bytes. -/
def Uint256.less (a b : Uint256) : Bool := a.bytes.map UInt8.toNat < b.bytes.map UInt8.toNat

/-- The hash functions of the node: double SHA-256, and scrypt for the proof
of work. -/
structure Hashes where
  sha256d : List UInt8 → Uint256
  scrypt : List UInt8 → Uint256

abbrev CScript := List UInt8

def OP_RETURN : UInt8 := 0x6a

def MAX_SCRIPT_SIZE : Nat := 10000

/-- `CScript::IsUnspendable`. -/
def isUnspendable (script : CScript) : Bool :=
  script.head? == some OP_RETURN || script.length > MAX_SCRIPT_SIZE

/-- The bytes of `CScriptNum::serialize` below the sign. -/
def scriptNumMagnitude : (fuel : Nat) → Nat → List UInt8
  | 0, _ => []
  | _, 0 => []
  | fuel + 1, n => UInt8.ofNat n :: scriptNumMagnitude fuel (n / 256)

theorem ofLe_scriptNumMagnitude {fuel n : Nat} (h : n < 256 ^ fuel) :
    Bytes.ofLe (scriptNumMagnitude fuel n) = n := by
  induction fuel generalizing n with
  | zero =>
    have : n = 0 := by simpa using h
    rw [this, scriptNumMagnitude, Bytes.ofLe]
  | succ fuel ih =>
    cases n with
    | zero => rfl
    | succ n =>
      have hdiv : (n + 1) / 256 < 256 ^ fuel := by
        omega
      rw [scriptNumMagnitude, Bytes.ofLe, ih hdiv, UInt8.toNat_ofNat']
      omega
      exact Nat.succ_ne_zero n

/-- `CScriptNum::serialize`: little endian, with the sign in the top bit. -/
def scriptNumSerialize (value : Int) : List UInt8 :=
  let result := scriptNumMagnitude 8 value.natAbs
  match result.getLast? with
  | none => []
  | some last =>
    if last &&& 0x80 ≠ 0 then result ++ [if value < 0 then 0x80 else 0]
    else if value < 0 then result.dropLast ++ [last ||| 0x80]
    else result

/-- `CScript::operator<<` for a byte vector. -/
def pushData (b : List UInt8) : CScript :=
  if b.length < 0x4c then UInt8.ofNat b.length :: b
  else if b.length ≤ 0xff then 0x4c :: UInt8.ofNat b.length :: b
  else if b.length ≤ 0xffff then 0x4d :: (Bytes.le 2 b.length ++ b)
  else 0x4e :: (Bytes.le 4 b.length ++ b)

/-- `CScript::push_int64`, the script of `CScript() << n`. -/
def pushInt64 (n : Int) : CScript :=
  if n = -1 ∨ (1 ≤ n ∧ n ≤ 16) then [UInt8.ofNat (n + 0x50).toNat]
  else if n = 0 then [0]
  else pushData (scriptNumSerialize n)

/-- `CTxDestination`: what an address stands for. -/
inductive CTxDestination
  | noDestination
  | keyID (hash : List UInt8)
  | scriptID (hash : List UInt8)
  deriving DecidableEq

def OP_HASH160 : UInt8 := 0xa9

def OP_EQUAL : UInt8 := 0x87

/-- The number of a connection. -/
abbrev NodeId := Int

/-! ## Transactions -/

@[ext] structure COutPoint where
  hash : Uint256
  n : UInt32
  deriving DecidableEq

def COutPoint.null : COutPoint := ⟨0, 0xffffffff⟩

def COutPoint.isNull (o : COutPoint) : Bool := o == COutPoint.null

def SEQUENCE_FINAL : UInt32 := 0xffffffff

structure CTxIn where
  prevout : COutPoint
  scriptSig : CScript := []
  nSequence : UInt32 := SEQUENCE_FINAL
  scriptWitness : List (List UInt8) := []
  deriving DecidableEq

structure CTxOut where
  nValue : Int
  scriptPubKey : CScript
  deriving DecidableEq

/-- `CTxOut::SetNull`. -/
def CTxOut.null : CTxOut := ⟨-1, []⟩

def CTxOut.isNull (o : CTxOut) : Bool := o.nValue == -1

structure CTransaction where
  nVersion : BitVec 32
  vin : List CTxIn
  vout : List CTxOut
  nLockTime : UInt32
  deriving DecidableEq

def CTransaction.isCoinBase (tx : CTransaction) : Bool :=
  match tx.vin with
  | [txin] => txin.prevout.isNull
  | _ => false

def CTransaction.hasWitness (tx : CTransaction) : Bool :=
  tx.vin.any fun txin => !txin.scriptWitness.isEmpty

/-- The sum of the output values, or nothing where the C++ code throws. -/
def valueOutFrom (nValueOut : Int) : List CTxOut → Option Int
  | [] => some nValueOut
  | out :: vout =>
    if moneyRange out.nValue && moneyRange (nValueOut + out.nValue) then
      valueOutFrom (nValueOut + out.nValue) vout
    else none

def CTransaction.getValueOut (tx : CTransaction) : Option Int := valueOutFrom 0 tx.vout

/-! ## The wire form of a transaction -/

/-- `WriteCompactSize`. -/
def compactSize (n : Nat) : List UInt8 :=
  if n < 253 then [UInt8.ofNat n]
  else if n ≤ 0xffff then 253 :: Bytes.le 2 n
  else if n ≤ 0xffffffff then 254 :: Bytes.le 4 n
  else 255 :: Bytes.le 8 n

/-- A vector is its length and then its elements. -/
def serVector {α : Type} (ser : α → List UInt8) (l : List α) : List UInt8 :=
  compactSize l.length ++ l.flatMap ser

def serBytes (b : List UInt8) : List UInt8 := compactSize b.length ++ b

def COutPoint.serialize (o : COutPoint) : List UInt8 := o.hash.bytes ++ Bytes.le 4 o.n.toNat

def CTxIn.serialize (txin : CTxIn) : List UInt8 :=
  txin.prevout.serialize ++ serBytes txin.scriptSig ++ Bytes.le 4 txin.nSequence.toNat

def CTxOut.serialize (out : CTxOut) : List UInt8 :=
  Bytes.le 8 (out.nValue % 2 ^ 64).toNat ++ serBytes out.scriptPubKey

/-- `SerializeTransaction`; `fAllowWitness` is the absence of
`SERIALIZE_TRANSACTION_NO_WITNESS`. -/
def serializeTransaction (fAllowWitness : Bool) (tx : CTransaction) : List UInt8 :=
  let flags := fAllowWitness && tx.hasWitness
  Bytes.le 4 tx.nVersion.toNat ++ (if flags then [0, 1] else []) ++
    serVector CTxIn.serialize tx.vin ++ serVector CTxOut.serialize tx.vout ++
    (if flags then tx.vin.flatMap fun txin => serVector serBytes txin.scriptWitness else []) ++
    Bytes.le 4 tx.nLockTime.toNat

variable (H : Hashes)

/-- `CTransaction::GetHash`, the transaction id: the witness is left out. -/
def CTransaction.getHash (tx : CTransaction) : Uint256 :=
  H.sha256d (serializeTransaction false tx)

def CTransaction.getWitnessHash (tx : CTransaction) : Uint256 :=
  if tx.hasWitness then H.sha256d (serializeTransaction true tx) else tx.getHash H

/-! ## Block headers -/

structure CPureBlockHeader where
  nVersion : BitVec 32
  hashPrevBlock : Uint256
  hashMerkleRoot : Uint256
  nTime : UInt32
  nBits : UInt32
  nNonce : UInt32
  deriving DecidableEq

namespace CPureBlockHeader

variable (b : CPureBlockHeader)

def VERSION_AUXPOW : BitVec 32 := 256#32

def serialize : List UInt8 :=
  Bytes.le 4 b.nVersion.toNat ++ b.hashPrevBlock.bytes ++ b.hashMerkleRoot.bytes ++
    Bytes.le 4 b.nTime.toNat ++ Bytes.le 4 b.nBits.toNat ++ Bytes.le 4 b.nNonce.toNat

def getHash : Uint256 := H.sha256d b.serialize

def getPoWHash : Uint256 := H.scrypt b.serialize

def getBlockTime : Int := b.nTime.toNat

/-- `nVersion % VERSION_AUXPOW`, with the sign rule of C++. -/
def getBaseVersion : Int := (b.nVersion.srem VERSION_AUXPOW).toInt

def getChainId : Int := (b.nVersion.sshiftRight 16).toInt

def isAuxpow : Bool := b.nVersion &&& VERSION_AUXPOW != 0

def isLegacy : Bool :=
  b.nVersion == 1#32 || (b.nVersion == 2#32 && b.getChainId == 0)

end CPureBlockHeader

/-- A transaction with a merkle branch to its block, and the branch of the
merge-mined block to the coinbase of its parent. -/
structure CAuxPow where
  tx : CTransaction
  hashBlock : Uint256
  vMerkleBranch : List Uint256
  nIndex : Int
  vChainMerkleBranch : List Uint256
  nChainIndex : Int
  parentBlock : CPureBlockHeader
  deriving DecidableEq

structure CBlockHeader extends CPureBlockHeader where
  auxpow : Option CAuxPow := none
  deriving DecidableEq

/-- A block. `fChecked` lives in memory only; `CheckBlock` sets it. -/
structure CBlock extends CBlockHeader where
  vtx : List CTransaction
  fChecked : Bool := false
  deriving DecidableEq

/-- The ids of the transactions of a block. -/
def CBlock.txids (block : CBlock) : List Uint256 := block.vtx.map (·.getHash H)

def CAuxPow.serialize (fAllowWitness : Bool) (a : CAuxPow) : List UInt8 :=
  serializeTransaction fAllowWitness a.tx ++ a.hashBlock.bytes ++
    serVector Uint256.bytes a.vMerkleBranch ++ Bytes.le 4 (a.nIndex % 2 ^ 32).toNat ++
    serVector Uint256.bytes a.vChainMerkleBranch ++
    Bytes.le 4 (a.nChainIndex % 2 ^ 32).toNat ++ a.parentBlock.serialize

def CBlockHeader.serialize (fAllowWitness : Bool) (b : CBlockHeader) : List UInt8 :=
  b.toCPureBlockHeader.serialize ++
    (if b.isAuxpow then (b.auxpow.map (CAuxPow.serialize fAllowWitness)).getD [] else [])

def CBlock.serialize (fAllowWitness : Bool) (b : CBlock) : List UInt8 :=
  b.toCBlockHeader.serialize fAllowWitness ++
    serVector (serializeTransaction fAllowWitness) b.vtx

def WITNESS_SCALE_FACTOR : Nat := 4

/-- `GetBlockWeight`. -/
def getBlockWeight (b : CBlock) : Nat :=
  (b.serialize false).length * (WITNESS_SCALE_FACTOR - 1) + (b.serialize true).length

/-! ## The outcome of a check -/

/-- How a check of the node can end badly. `invalid` is `CValidationState`
in `MODE_INVALID`, with its level and its corruption flag. `error` is
`MODE_ERROR`. `crash` is a failed assertion, an exception that nobody
catches or an access out of range. -/
inductive Failure
  | invalid (dos : Nat) (reason : String) (corruption : Bool)
  | error (reason : String)
  | crash (what : String)
  deriving DecidableEq

abbrev Check := Except Failure

/-- `state.DoS(level, false, ..., reason, corruption)`. -/
def doS {α : Type} (level : Nat) (reason : String) (corruption : Bool := false) : Check α :=
  .error (.invalid level reason corruption)

/-- `assert(c)`. -/
def assert (c : Bool) (what : String) : Check Unit :=
  if c then .ok () else .error (.crash what)

/-- A rule: the check goes on when `bad` is false. -/
def rejectIf (bad : Bool) (level : Nat) (reason : String) (corruption : Bool := false) :
    Check Unit :=
  if bad then doS level reason corruption else .ok ()

/-- `return error(...)`: the function gives up and only logs the reason. -/
def errorIf (bad : Bool) (reason : String) : Check Unit :=
  if bad then .error (.error reason) else .ok ()

/-- `if (!check) return state.DoS(level, false, ..., reason)`, for a check
that only logged why it failed. -/
def orDoS {α : Type} (check : Check α) (level : Nat) (reason : String) : Check α :=
  match check with
  | .error (.error _) => doS level reason
  | other => other

/-- The check passes, and its result has the property: a way to run a check
on given data. -/
def okWith {α : Type} (check : Check α) (p : α → Bool) : Bool :=
  match check with
  | .ok a => p a
  | .error _ => false

/-- Why a check failed, if it did. -/
def failureOf {α : Type} : Check α → Option Failure
  | .error e => some e
  | .ok _ => none

section Check

variable {ε α β : Type} {x : Except ε α} {f : α → Except ε β} {c : Bool} {what reason : String}
  {u : Unit}

theorem of_okWith {check : Check α} {p : α → Bool} (h : okWith check p = true) :
    ∃ a, check = .ok a ∧ p a = true := by
  unfold okWith at h
  split at h
  · rename_i a
    exact ⟨a, rfl, h⟩
  · cases h

theorem bind_ok_iff {b : β} : (x >>= f) = .ok b ↔ ∃ a, x = .ok a ∧ f a = .ok b := by
  constructor
  · intro h
    rcases x with e | a
    · cases h
    · exact ⟨a, rfl, h⟩
  · rintro ⟨a, rfl, h⟩
    exact h

theorem bind_ok {b : β} (h : (x >>= f) = .ok b) : ∃ a, x = .ok a ∧ f a = .ok b := bind_ok_iff.mp h

theorem ok_bind (a : α) (f : α → Except ε β) : (Except.ok a >>= f) = f a := rfl

theorem bind_congr_ok {g : α → Except ε β} (h : ∀ a, x = .ok a → f a = g a) :
    (x >>= f) = (x >>= g) := by
  rcases x with e | a
  · rfl
  · exact h a rfl

@[simp] theorem assert_ok : assert c what = .ok u ↔ c = true := by
  unfold assert
  split <;> simp [*]

theorem assert_of (h : c = true) : assert c what = .ok () :=
  assert_ok.mpr h

theorem assert_bind (h : c = true) (f : Unit → Check α) : (assert c what >>= f) = f () := by
  rw [assert_of h]
  rfl

@[simp] theorem rejectIf_ok {bad : Bool} {level : Nat} {corruption : Bool} :
    rejectIf bad level reason corruption = .ok u ↔ bad = false := by
  unfold rejectIf doS
  split <;> simp [*]

@[simp] theorem errorIf_ok {bad : Bool} : errorIf bad reason = .ok u ↔ bad = false := by
  unfold errorIf
  split <;> simp [*]

theorem errorIf_bind (h : c = false) (f : Unit → Check α) : (errorIf c reason >>= f) = f () := by
  rw [errorIf_ok.mpr h]
  rfl

@[simp] theorem orDoS_ok {check : Check α} {level : Nat} {a : α} :
    orDoS check level reason = .ok a ↔ check = .ok a := by
  unfold orDoS doS
  split <;> simp

end Check

end junkcoin
