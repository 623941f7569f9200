-- The checks of transactions and blocks that need no context
-- (`CheckTransaction` and `CheckBlock`), and what a block that passed them
-- looks like.
import Junkcoin.SoftForks
import Mathlib.Data.List.Nodup

namespace junkcoin

variable (tx : CTransaction)

def MAX_BLOCK_BASE_SIZE : Nat := 1000000

def MAX_BLOCK_WEIGHT : Nat := 4000000

def MAX_BLOCK_SIGOPS_COST : Int := 80000

/-- What the node is run with. The hash functions, the draw of the subsidy,
the script interpreter, the counts of signature operations, the decoding of
addresses and the two products of floating point numbers are parameters, and
every law holds for all of them. -/
structure Env where
  H : Hashes
  net : Network
  mtRandom : Int → Int
  getLegacySigOpCount : CTransaction → Nat
  /-- From the transaction and the outputs that it spends. -/
  getTransactionSigOpCost : CTransaction → List CTxOut → ScriptFlags → Int
  /-- The error of the interpreter on one input, if there is one. -/
  verifyScript : CTransaction → (nIn : Nat) → CTxOut → ScriptFlags → Option String
  /-- Whether the block is not assumed to be valid. -/
  fScriptChecks : BlockIndex → Bool
  /-- `CBitcoinAddress(address).Get()`. -/
  decodeAddress : String → CTxDestination
  /-- `nSubsidy * GetDevelopmentFundPercent()`, cut to an amount. -/
  fundShare : Int → Int
  /-- `nSubsidy * 0.2`, cut to an amount. -/
  fundFallback : Int → Int
  fCheckpointsEnabled : Bool

/-! ## Transactions -/

/-- The loop of `CheckTransaction` over the outputs. -/
def checkOutputs : (nValueOut : Int) → List CTxOut → Check Unit
  | _, [] => .ok ()
  | nValueOut, txout :: vout => do
    rejectIf (txout.nValue < 0) 100 "bad-txns-vout-negative"
    rejectIf (txout.nValue > MAX_MONEY) 100 "bad-txns-vout-toolarge"
    rejectIf (!moneyRange (nValueOut + txout.nValue)) 100 "bad-txns-txouttotal-toolarge"
    checkOutputs (nValueOut + txout.nValue) vout

def checkDuplicateInputs (fCheckDuplicateInputs : Bool) : Check Unit :=
  rejectIf (fCheckDuplicateInputs && !decide (tx.vin.map (·.prevout)).Nodup) 100
    "bad-txns-inputs-duplicate"

/-- The last rules of `CheckTransaction`, for the inputs. -/
def checkPrevouts : Check Unit :=
  if tx.isCoinBase then
    rejectIf (tx.vin.any fun txin => txin.scriptSig.length < 2 || txin.scriptSig.length > 220)
      100 "bad-cb-length"
  else rejectIf (tx.vin.any (·.prevout.isNull)) 10 "bad-txns-prevout-null"

/-- `CheckTransaction`. -/
def checkTransaction (fCheckDuplicateInputs : Bool) : Check Unit := do
  rejectIf tx.vin.isEmpty 10 "bad-txns-vin-empty"
  rejectIf tx.vout.isEmpty 10 "bad-txns-vout-empty"
  rejectIf ((serializeTransaction false tx).length > MAX_BLOCK_BASE_SIZE) 100 "bad-txns-oversize"
  checkOutputs 0 tx.vout
  checkDuplicateInputs tx fCheckDuplicateInputs
  checkPrevouts tx

/-! ## Blocks -/

/-- The root must match, and no two equal siblings may hide a repeated
transaction. -/
def checkMerkleRoot (H : Hashes) (block : CBlock) (fCheckMerkleRoot : Bool) : Check Unit := do
  rejectIf (fCheckMerkleRoot && block.hashMerkleRoot != (blockMerkleRoot H block).1) 100
    "bad-txnmrklroot" true
  rejectIf (fCheckMerkleRoot && (blockMerkleRoot H block).2) 100 "bad-txns-duplicate" true

def checkTransactions : List CTransaction → Check Unit
  | [] => .ok ()
  | tx :: vtx => do
    checkTransaction tx true
    checkTransactions vtx

/-- The rules of `CheckBlock`. -/
def checkBlockRules (env : Env) (block : CBlock) (fCheckPOW fCheckMerkleRoot : Bool) :
    Check Unit := do
  checkBlockHeader env.H env.net block.toCBlockHeader fCheckPOW
  checkMerkleRoot env.H block fCheckMerkleRoot
  rejectIf (block.vtx.isEmpty || block.vtx.length > MAX_BLOCK_BASE_SIZE ||
    (block.serialize false).length > MAX_BLOCK_BASE_SIZE) 100 "bad-blk-length"
  rejectIf (!(block.vtx.head?.map (·.isCoinBase)).getD false) 100 "bad-cb-missing"
  rejectIf (block.vtx.tail.any (·.isCoinBase)) 100 "bad-cb-multiple"
  checkTransactions block.vtx
  rejectIf ((block.vtx.map env.getLegacySigOpCount).sum * WITNESS_SCALE_FACTOR >
    MAX_BLOCK_SIGOPS_COST) 100 "bad-blk-sigops"

/-- `CheckBlock`. A block that was checked before is not looked at again;
`fChecked` is set when everything was checked. -/
def checkBlock (env : Env) (block : CBlock) (fCheckPOW fCheckMerkleRoot : Bool) : Check CBlock :=
  if block.fChecked then .ok block
  else do
    checkBlockRules env block fCheckPOW fCheckMerkleRoot
    .ok (if fCheckPOW && fCheckMerkleRoot then { block with fChecked := true } else block)

/-- The flag tells the truth: a block that carries it passes the rules. -/
def CBlock.Truthful (env : Env) (block : CBlock) : Prop :=
  block.fChecked = true → checkBlockRules env block true true = .ok ()

/-! ## What a checked block looks like -/

/-- The sum of the output values. -/
def CTransaction.valueOut : Int := (tx.vout.map (·.nValue)).sum

/-- What `CheckTransaction` establishes. -/
structure CTransaction.Checked (tx : CTransaction) : Prop where
  range : ∀ o ∈ tx.vout, moneyRange o.nValue = true
  total : moneyRange tx.valueOut = true
  getValueOut : tx.getValueOut = some tx.valueOut
  distinct : (tx.vin.map (·.prevout)).Nodup

theorem checkOutputs_ok {n : Int} {vout : List CTxOut} (hn : moneyRange n = true)
    (h : checkOutputs n vout = .ok ()) :
    (∀ o ∈ vout, moneyRange o.nValue = true) ∧
      valueOutFrom n vout = some (n + (vout.map (·.nValue)).sum) ∧
      moneyRange (n + (vout.map (·.nValue)).sum) = true := by
  induction vout generalizing n with
  | nil => simpa [valueOutFrom] using hn
  | cons out vout ih =>
    obtain ⟨_, h1, h⟩ := bind_ok h
    obtain ⟨_, h2, h⟩ := bind_ok h
    obtain ⟨_, h3, h⟩ := bind_ok h
    simp only [rejectIf_ok, decide_eq_false_iff_not, Bool.not_eq_false'] at h1 h2 h3
    have hr : moneyRange out.nValue = true := (moneyRange_iff _).mpr ⟨by omega, by omega⟩
    obtain ⟨hrest, hsum, htot⟩ := ih h3 h
    have hassoc : n + ((out :: vout).map (·.nValue)).sum =
        n + out.nValue + (vout.map (·.nValue)).sum := by
      rw [List.map_cons, List.sum_cons, Int.add_assoc]
    rw [hassoc]
    refine ⟨?_, ?_, htot⟩
    · simp only [List.mem_cons, forall_eq_or_imp]
      exact ⟨hr, hrest⟩
    · rw [valueOutFrom, if_pos (by rw [hr, h3]; rfl), hsum]

theorem checkTransaction_ok {tx : CTransaction} (h : checkTransaction tx true = .ok ()) :
    tx.Checked := by
  obtain ⟨_, _, h⟩ := bind_ok h
  obtain ⟨_, _, h⟩ := bind_ok h
  obtain ⟨_, _, h⟩ := bind_ok h
  obtain ⟨_, hout, h⟩ := bind_ok h
  obtain ⟨_, hdup, h⟩ := bind_ok h
  obtain ⟨hr, hv, ht⟩ := checkOutputs_ok rfl hout
  simp only [checkDuplicateInputs, rejectIf_ok, Bool.true_and, Bool.not_eq_false',
    decide_eq_true_eq] at hdup
  simp only [Int.zero_add] at hv ht
  exact ⟨hr, ht, hv, hdup⟩

theorem checkTransactions_ok {vtx : List CTransaction} (h : checkTransactions vtx = .ok ()) :
    ∀ tx ∈ vtx, tx.Checked := by
  induction vtx with
  | nil => exact fun _ h => nomatch h
  | cons tx vtx ih =>
    obtain ⟨_, h1, h2⟩ := bind_ok h
    simp only [List.mem_cons, forall_eq_or_imp]
    exact ⟨checkTransaction_ok h1, ih h2⟩

/-- A checked block is a coinbase and then other transactions, all checked. -/
structure CBlock.Checked (block : CBlock) (coinbase : CTransaction) (rest : List CTransaction) :
    Prop where
  vtx : block.vtx = coinbase :: rest
  first : coinbase.isCoinBase = true
  others : ∀ tx ∈ rest, tx.isCoinBase = false
  checked : ∀ tx ∈ block.vtx, tx.Checked

theorem checkBlockRules_ok {env : Env} {block : CBlock} {pow merkle : Bool}
    (h : checkBlockRules env block pow merkle = .ok ()) :
    ∃ coinbase rest, block.Checked coinbase rest := by
  obtain ⟨_, _, h⟩ := bind_ok h
  obtain ⟨_, _, h⟩ := bind_ok h
  obtain ⟨_, hlen, h⟩ := bind_ok h
  obtain ⟨_, hfirst, h⟩ := bind_ok h
  obtain ⟨_, hrest, h⟩ := bind_ok h
  obtain ⟨_, htx, _⟩ := bind_ok h
  rcases hv : block.vtx with _ | ⟨coinbase, rest⟩
  · rw [hv] at hfirst
    cases hfirst
  · rw [hv] at hfirst hrest
    refine ⟨coinbase, rest, hv, by simpa using hfirst, ?_, checkTransactions_ok htx⟩
    simpa using hrest

/-- The same for a block that went through `CheckBlock`, now or before. -/
theorem checkBlock_ok {env : Env} {block block' : CBlock} {pow merkle : Bool}
    (ht : block.Truthful env) (h : checkBlock env block pow merkle = .ok block') :
    ∃ coinbase rest, block.Checked coinbase rest := by
  unfold checkBlock at h
  split at h
  · rename_i hc
    exact checkBlockRules_ok (ht hc)
  · obtain ⟨_, h, _⟩ := bind_ok h
    exact checkBlockRules_ok h

end junkcoin
