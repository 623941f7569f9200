-- The flag `fChecked` of a block object: `CheckBlock` sets it and then takes
-- it for its own answer. The flag is copied with the block, so the block
-- that `ProcessNewBlock` makes with another coinbase carries the flag of the
-- one that came.
import Junkcoin.BlockEncodings
import Junkcoin.ProcessNewBlock
import Junkcoin.Lib.Runs

namespace junkcoin

variable (env : Env)

open PartiallyDownloadedBlock

/-! ## The life of a block object -/

/-- `CBlock()`. -/
def CBlock.null : CBlock where
  nVersion := 0
  hashPrevBlock := 0
  hashMerkleRoot := 0
  nTime := 0
  nBits := 0
  nNonce := 0
  vtx := []

/-- The answer of `CheckBlock` as `FillBlock` uses it: nothing, or whether
the block may be corrupted. -/
def checkBlockFails (block : CBlock) : Option Bool :=
  match checkBlock env block true true with
  | .ok _ => none
  | .error (.invalid _ _ corruption) => some corruption
  | .error _ => some false

/-- The block object after `FillBlock`, if it has got all its transactions. -/
def filledBlock (b : PartiallyDownloadedBlock) (vtx_missing : List CTransaction) : Option CBlock :=
  match fillBlock (checkBlockFails env) b vtx_missing with
  | (none, some block) => some { block with fChecked := true }
  | (_, block) => block

/-- What is done to a block object, or to a copy of it. -/
inductive BlockUse
  /-- A new object is read. -/
  | unserialize (fAllowWitness : Bool) (bytes : List UInt8)
  | checkBlock (fCheckPOW fCheckMerkleRoot : Bool)
  /-- The rewriting at the start of `ProcessNewBlock`, with the height above
  the tip. -/
  | processNewBlock (nHeight : Nat)
  | fillBlock (b : PartiallyDownloadedBlock) (vtx_missing : List CTransaction)

/-- The object after it. Where the code throws or refuses, there is no new
object and the old one is as it was. -/
def CBlock.after (block : CBlock) : BlockUse → CBlock
  | .unserialize fAllowWitness bytes =>
    match CBlock.unserialize fAllowWitness bytes with
    | .ok (block, _) => block
    | .error _ => block
  | .checkBlock fCheckPOW fCheckMerkleRoot =>
    match junkcoin.checkBlock env block fCheckPOW fCheckMerkleRoot with
    | .ok block => block
    | .error _ => block
  | .processNewBlock nHeight =>
    match addDevelopmentFund env nHeight block with
    | .ok (block, _) => block
    | .error _ => block
  | .fillBlock b vtx_missing => (filledBlock env b vtx_missing).getD block

/-- The block with the coinbase that `ProcessNewBlock` gives it satisfies the
rules. -/
def FundedBlockPasses (nHeight : Nat) (block : CBlock) : Prop :=
  ∀ expected coinbase rest first outs, expectedFundOutput env nHeight = .ok expected →
    block.vtx = coinbase :: rest → coinbase.vout = first :: outs →
    checkBlockRules env (replaceCoinbase env.H block
      { coinbase with vout := fundedOutputs env nHeight expected first } rest) true true = .ok ()

/-- A checked block is only rewritten to one that satisfies the rules too. -/
def CBlock.KeepsTruth (block : CBlock) : BlockUse → Prop
  | .processNewBlock nHeight =>
    block.fChecked = false ∨ FundInPlace env nHeight block ∨ FundedBlockPasses env nHeight block
  | _ => True

/-! ## One use -/

section Use

variable {env : Env} {block : CBlock}

theorem CBlock.truthful_of_unchecked (h : block.fChecked = false) : block.Truthful env := by
  intro hc
  rw [h] at hc
  cases hc

/-- `CheckBlock` sets the flag of a block that satisfies all rules. -/
theorem checkBlock_truthful (h : block.Truthful env) {pow merkle : Bool} {block' : CBlock}
    (hcheck : checkBlock env block pow merkle = .ok block') : block'.Truthful env := by
  unfold checkBlock at hcheck
  split at hcheck
  · cases hcheck
    exact h
  · rename_i hunchecked
    obtain ⟨_, hrules, hcheck⟩ := bind_ok hcheck
    cases hcheck
    split
    · rename_i hall
      obtain ⟨rfl, rfl⟩ : pow = true ∧ merkle = true := by simpa using hall
      exact fun _ => hrules
    · exact CBlock.truthful_of_unchecked (by simpa using hunchecked)

/-- What is read has no flag. -/
theorem unserialize_unchecked {fAllowWitness : Bool} {bytes rest : List UInt8}
    (h : CBlock.unserialize fAllowWitness bytes = .ok (block, rest)) : block.fChecked = false := by
  obtain ⟨header, _, _, h⟩ := Reader.bind_eq_ok h
  obtain ⟨vtx, _, _, h⟩ := Reader.bind_eq_ok h
  obtain ⟨rfl, _⟩ := Reader.pure_eq_ok h
  rfl

/-- `FillBlock` makes the block of the header, without a flag, and checks
it. -/
theorem filledBlock_truthful {b : PartiallyDownloadedBlock} {vtx_missing : List CTransaction}
    (h : filledBlock env b vtx_missing = some block) : block.Truthful env := by
  unfold filledBlock fillBlock at h
  cases hfill : fillTxs b.txn_available vtx_missing with
  | none =>
    rw [hfill] at h
    cases h
  | some filled =>
    obtain ⟨vtx, left⟩ := filled
    rw [hfill] at h
    dsimp only at h
    let assembled : CBlock := { b.header with vtx }
    by_cases hleft : (!left.isEmpty) = true
    · rw [if_pos hleft] at h
      cases h
      exact CBlock.truthful_of_unchecked rfl
    · rw [if_neg hleft] at h
      cases hcheck : checkBlock env assembled true true with
      | error e =>
        -- every failure is reported, with the block as it was assembled
        have hfails : ∃ corruption, checkBlockFails env assembled = some corruption := by
          unfold checkBlockFails
          rw [hcheck]
          cases e <;> exact ⟨_, rfl⟩
        obtain ⟨corruption, hfails⟩ := hfails
        rw [show checkBlockFails env { b.header with vtx } = some corruption from hfails] at h
        cases corruption <;> cases h <;> exact CBlock.truthful_of_unchecked rfl
      | ok checked =>
        have hpasses : checkBlockFails env assembled = none := by
          unfold checkBlockFails
          rw [hcheck]
        rw [show checkBlockFails env { b.header with vtx } = none from hpasses] at h
        cases h
        obtain ⟨_, hrules, _⟩ := bind_ok (show (checkBlockRules env assembled true true >>=
          fun _ => _) = .ok checked from hcheck)
        exact fun _ => hrules

/-- The rewriting of `ProcessNewBlock` keeps the flag, so it keeps the truth
just under the condition. -/
theorem processNewBlock_truthful_iff (h : block.Truthful env) (nHeight : Nat) :
    (block.after env (.processNewBlock nHeight)).Truthful env ↔
      block.KeepsTruth env (.processNewBlock nHeight) := by
  rw [CBlock.after]
  by_cases hin : FundInPlace env nHeight block
  · rw [addDevelopmentFund_of_fundInPlace hin]
    exact iff_of_true h (Or.inr (Or.inl hin))
  · obtain ⟨hwin, hmisplaced⟩ := Classical.not_imp.mp hin
    by_cases hr : Readable env nHeight block
    · obtain ⟨expected, coinbase, rest, he, hv, hne⟩ := hr hwin
      obtain ⟨first, outs, hvout⟩ := List.exists_cons_of_ne_nil hne
      have hout : coinbase.vout[1]? ≠ some expected :=
        fun hout => hmisplaced ⟨expected, coinbase, rest, he, hv, hout⟩
      rw [addDevelopmentFund_of_misplaced hwin he hv hvout hout]
      constructor
      · intro htruth
        cases hflag : block.fChecked with
        | false => exact Or.inl hflag
        | true =>
          refine Or.inr (Or.inr ?_)
          intro expected' coinbase' rest' first' outs' he' hv' hvout'
          obtain rfl := Except.ok.inj (he.symm.trans he')
          obtain ⟨rfl, rfl⟩ := List.cons.inj (hv.symm.trans hv')
          obtain ⟨rfl, rfl⟩ := List.cons.inj (hvout.symm.trans hvout')
          exact htruth hflag
      · rintro (hflag | hplace | hpasses)
        · exact CBlock.truthful_of_unchecked hflag
        · exact absurd hplace hin
        · exact fun _ => hpasses expected coinbase rest first outs he hv hvout
    · -- nothing comes of a block that cannot be rewritten
      have hunread : FundedBlockPasses env nHeight block := by
        intro expected coinbase rest first outs he hv hvout
        refine absurd ?_ hr
        exact fun _ => ⟨expected, coinbase, rest, he, hv, by rw [hvout]; exact List.cons_ne_nil _ _⟩
      cases hadd : addDevelopmentFund env nHeight block with
      | ok r => exact absurd (readable_of_addDevelopmentFund hadd) hr
      | error e => exact iff_of_true h (Or.inr (Or.inr hunread))

/-- One use keeps the truth just under the condition. -/
theorem after_truthful_iff (h : block.Truthful env) (use : BlockUse) :
    (block.after env use).Truthful env ↔ block.KeepsTruth env use := by
  cases use with
  | unserialize fAllowWitness bytes =>
    refine iff_of_true ?_ trivial
    rw [CBlock.after]
    split
    · rename_i hread
      exact CBlock.truthful_of_unchecked (unserialize_unchecked hread)
    · exact h
  | checkBlock pow merkle =>
    refine iff_of_true ?_ trivial
    rw [CBlock.after]
    split
    · rename_i hcheck
      exact checkBlock_truthful h hcheck
    · exact h
  | processNewBlock nHeight => exact processNewBlock_truthful_iff h nHeight
  | fillBlock b vtx_missing =>
    refine iff_of_true ?_ trivial
    rw [CBlock.after]
    cases hfill : filledBlock env b vtx_missing with
    | none => exact h
    | some filled => exact filledBlock_truthful hfill

end Use

/-! ## Any number of uses -/

/-- All through the life of a block object its flag tells the truth, just if
no checked block is rewritten to one that does not satisfy the rules. -/
theorem checked_flag_truthful_iff (env : Env) (uses : List BlockUse) :
    (∀ n, let block := Runs.run (CBlock.after env) .null (uses.take n)
      block.fChecked = true → checkBlockRules env block true true = .ok ()) ↔
      Runs.Meets (CBlock.after env) (CBlock.KeepsTruth env) .null uses :=
  Runs.always_iff (CBlock.Truthful env) (fun _ use h => after_truthful_iff h use)
    (CBlock.truthful_of_unchecked rfl) uses

/-- Hashes under which a header has enough work if its merkle root is that
of one transaction of 95 bytes. -/
def lengthHashes : Hashes where
  sha256d l := BitVec.ofNat 256 l.length
  scrypt l := if l[36]? = some 95 then 0 else BitVec.allOnes 256

def lengthEnv : Env := { sampleEnv with net := .regtest, H := lengthHashes }

/-- A compact block of which nothing is missing. The output of the fund comes
before the one of the miner. -/
def fundFirstCompact : PartiallyDownloadedBlock where
  header := { fundFirst.toCBlockHeader with hashMerkleRoot := 95 }
  txn_available := fundFirst.vtx.map some
  prefilled_count := 1
  mempool_count := 0
  extra_count := 0

/-- `FillBlock` puts a valid block together, and `ProcessNewBlock` makes
another one of it, with the flag and without the work. -/
theorem rewritten_block_flagged :
    let filled := CBlock.after lengthEnv .null (.fillBlock fundFirstCompact [])
    let rewritten := filled.after lengthEnv (.processNewBlock 2)
    filled.fChecked = true ∧ checkBlockRules lengthEnv filled true true = .ok () ∧
      rewritten.fChecked = true ∧ checkBlock lengthEnv rewritten true true = .ok rewritten ∧
      checkBlockRules lengthEnv rewritten true true = .error (.invalid 50 "high-hash" false) := by
  decide +kernel

end junkcoin
