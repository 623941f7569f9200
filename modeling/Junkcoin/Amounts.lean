-- Amounts and 64 bits: which sums of the checks of transactions and blocks stay
-- within `CAmount`. `GetValueIn` and the fees of a block are added up without a
-- check, and what bounds them is the value of all unspent outputs.
import Junkcoin.NoInflation
import Mathlib.Algebra.Order.BigOperators.Group.Finset

namespace junkcoin

variable {values : List Int} {n : Nat}

open CCoinsViewCache CCoins

/-- A number that an `int64_t` holds. -/
def FitsInt64 (n : Int) : Prop := -2 ^ 63 ≤ n ∧ n < 2 ^ 63

/-- A loop that adds these values up never leaves 64 bits. -/
def SumsFit (values : List Int) : Prop := ∀ k, FitsInt64 (values.take k).sum

/-- The same for a loop that stops at the first sum outside of `MoneyRange`: the sums that
it comes to. -/
def ReachedSumsFit (values : List Int) : Prop :=
  ∀ k, (∀ j < k, moneyRange (values.take j).sum = true) → FitsInt64 (values.take k).sum

theorem sumsFit_of_nonneg (h : ∀ n ∈ values, 0 ≤ n) (hsum : values.sum < 2 ^ 63) :
    SumsFit values := by
  intro k
  have hlow : 0 ≤ (values.take k).sum := List.sum_nonneg fun n hn => h n (List.mem_of_mem_take hn)
  have hrest : 0 ≤ (values.drop k).sum := List.sum_nonneg fun n hn => h n (List.mem_of_mem_drop hn)
  have hsplit : (values.take k).sum + (values.drop k).sum = values.sum := by
    rw [← List.sum_append, List.take_append_drop]
  constructor <;> omega

theorem reachedSumsFit_of_range (h : ∀ n ∈ values, moneyRange n = true) :
    ReachedSumsFit values := by
  intro k hreached
  have hmax : MAX_MONEY = 5400000000000000 := by decide
  cases k with
  | zero => constructor <;> simp
  | succ k =>
    have hsum := (moneyRange_iff _).mp (hreached k (Nat.lt_succ_self k))
    rw [List.take_add_one, List.sum_append]
    cases hk : values[k]? with
    | none => constructor <;> simp <;> omega
    | some n =>
      have hn := (moneyRange_iff _).mp (h n (List.mem_of_getElem? hk))
      simp only [Option.toList_some, List.sum_singleton]
      constructor <;> omega

/-! ## The inputs of a transaction -/

namespace UtxoMap

variable {m : UtxoMap}

/-- The values that the inputs of a transaction spend. -/
def inputValues (m : UtxoMap) (tx : CTransaction) : List Int :=
  tx.vin.map fun txin => (m.outFor txin).nValue

theorem range_of_available {txin : CTxIn} (h : m.available txin.prevout = true) :
    moneyRange (m.outFor txin).nValue = true := by
  obtain ⟨hlt, hnull⟩ := (isAvailable_iff _ _).mp h
  have hmem : m.outFor txin ∈ (m.coins txin.prevout.hash).vout := by
    rw [outFor, outAt, Trim.get_of_lt _ hlt]
    exact List.getElem_mem hlt
  exact (m.good _).range _ hmem hnull

end UtxoMap

section Inputs

variable {v : CCoinsViewCache} {m : UtxoMap} {vin : List CTxIn} {tx : CTransaction}

theorem valueInFrom_eq (h : v.Represents m) {n : Int}
    (ha : ∀ txin ∈ vin, m.available txin.prevout = true) (hlow : 0 ≤ n)
    (hfit : n + m.valueIn vin < 2 ^ 63) : v.valueInFrom n vin = .ok (n + m.valueIn vin) := by
  induction vin generalizing n with
  | nil => rw [valueInFrom, UtxoMap.valueIn, List.map_nil, List.sum_nil, Int.add_zero]
  | cons txin vin ih =>
    have hav := ha txin List.mem_cons_self
    have hrest : ∀ t ∈ vin, m.available t.prevout = true :=
      fun t ht => ha t (List.mem_cons_of_mem _ ht)
    have hvalue := (moneyRange_iff _).mp (UtxoMap.range_of_available hav)
    have hcons : m.valueIn (txin :: vin) = (m.outFor txin).nValue + m.valueIn vin := by
      rw [UtxoMap.valueIn, UtxoMap.valueIn, List.map_cons, List.sum_cons]
    have hnonneg : 0 ≤ m.valueIn vin := by
      apply List.sum_nonneg
      intro x hx
      obtain ⟨t, ht, rfl⟩ := List.mem_map.mp hx
      exact ((moneyRange_iff _).mp (UtxoMap.range_of_available (hrest t ht))).1
    have hout : v.getOutputFor txin = .ok (m.outFor txin) := by
      rw [getOutputFor_of_available (h.available _ ▸ hav), CCoinsViewCache.outFor, h.coins]
      rfl
    rw [valueInFrom, hout, hcons, ← Int.add_assoc, ← ih hrest (by omega) (by omega)]
    change v.valueInFrom (int64 (n + (m.outFor txin).nValue)) vin = _
    rw [int64_of_fits (by omega) (by omega)]

/-- Different unspent outputs are worth no more than all of them. -/
theorem CCoinsViewCache.Represents.valueIn_le_total (h : v.Represents m)
    (hd : (vin.map (·.prevout)).Nodup) (ha : ∀ txin ∈ vin, m.available txin.prevout = true) :
    m.valueIn vin ≤ m.total := by
  obtain ⟨v', _, _, _, hpot⟩ := spendInputs_potential h.sound.clean_eq hd
    (fun txin htx => (h.available _).trans (ha txin htx)) fun txin htx => by
      rw [CCoinsViewCache.outFor, h.coins]
      exact UtxoMap.range_of_available (ha txin htx)
  have hnonneg := potential_nonneg v'
  rw [h.potential, h.valueIn] at hpot
  omega

theorem CCoinsViewCache.Represents.inputs_available (h : v.Represents m)
    (hcb : tx.isCoinBase = false) (hi : v.haveInputs tx = true) :
    ∀ txin ∈ tx.vin, m.available txin.prevout = true := by
  intro txin htx
  rw [← h.available]
  exact haveInputs_available hcb hi txin htx

/-- What `CheckTransaction` and a view with little enough in it say about the sums over a
transaction. -/
structure AmountsFit (v : CCoinsViewCache) (m : UtxoMap) (tx : CTransaction) : Prop where
  /-- `CheckTransaction` and `GetValueOut`. -/
  outputs : SumsFit (tx.vout.map (·.nValue))
  getValueOut : tx.getValueOut = some tx.valueOut
  /-- `GetValueIn`. -/
  inputs : tx.isCoinBase = false → v.haveInputs tx = true →
    SumsFit (m.inputValues tx) ∧ v.getValueIn tx = .ok (m.inputValues tx).sum
  /-- The additions of `CheckTxInputs`, also of a call that fails. -/
  checked : tx.isCoinBase = false → v.haveInputs tx = true → ReachedSumsFit (m.inputValues tx)
  /-- `CheckTxInputs` where it succeeds. -/
  fee : ∀ net height, tx.isCoinBase = false → checkTxInputs net tx v height = .ok () →
    moneyRange ((m.inputValues tx).sum - tx.valueOut) = true ∧
      (m.inputValues tx).sum - tx.valueOut = m.fee tx

theorem amountsFit (h : v.Represents m) (htotal : m.total < 2 ^ 63) (hc : tx.Checked) :
    AmountsFit v m tx where
  outputs := by
    apply sumsFit_of_nonneg
    · intro n hn
      obtain ⟨o, ho, rfl⟩ := List.mem_map.mp hn
      exact ((moneyRange_iff _).mp (hc.range o ho)).1
    · have := (moneyRange_iff _).mp hc.total
      have hmax : MAX_MONEY < 2 ^ 63 := by decide
      exact Int.lt_of_le_of_lt this.2 hmax
  getValueOut := hc.getValueOut
  inputs := by
    intro hcb hi
    have ha := h.inputs_available hcb hi
    have hle := h.valueIn_le_total hc.distinct ha
    refine ⟨sumsFit_of_nonneg ?_ (by exact Int.lt_of_le_of_lt hle htotal), ?_⟩
    · intro n hn
      obtain ⟨t, ht, rfl⟩ := List.mem_map.mp hn
      exact ((moneyRange_iff _).mp (UtxoMap.range_of_available (ha t ht))).1
    · rw [getValueIn, hcb, if_neg Bool.false_ne_true,
        valueInFrom_eq h ha (Int.le_refl 0) (by omega), Int.zero_add]
      rfl
  checked := by
    intro hcb hi
    apply reachedSumsFit_of_range
    intro n hn
    obtain ⟨t, ht, rfl⟩ := List.mem_map.mp hn
    exact UtxoMap.range_of_available (h.inputs_available hcb hi t ht)
  fee := by
    intro net height hcb ho
    have hfee := (checkTxInputs_spec hc hcb ho).1.fee
    rw [h.fee] at hfee
    have heq : m.fee tx = (m.inputValues tx).sum - tx.valueOut := by
      rw [UtxoMap.fee, hcb, if_neg Bool.false_ne_true]
      rfl
    exact ⟨heq ▸ hfee, heq.symm⟩

end Inputs

/-- What `ConnectBlock` works with at a block. -/
def blockContext (env : Env) (pindex : BlockIndex) : ConnectContext :=
  let flags := scriptFlags pindex.tail (consensusAfter env.net pindex.tail)
  { env, pindex, flags, fVerifySequence := flags.CHECKSEQUENCEVERIFY }

/-- The sums over a block, from the view that its transactions meet: the loop ends with the
exact fees, no sum on the way and neither the reward nor the outputs of the coinbase leave
64 bits. -/
structure FeesFit (env : Env) (block : CBlock) (pindex : BlockIndex) (view : CCoinsViewCache) :
    Prop where
  loop : ∃ view' undo, (blockContext env pindex).connectTxs block.vtx view 0 0 =
    .ok (view', undo, ((blockContext env pindex).feesOf view block.vtx).sum)
  fees : SumsFit ((blockContext env pindex).feesOf view block.vtx)
  reward : FitsInt64 (baseSubsidy (env.mtRandom (nHeight pindex)) (nHeight pindex)
    (consensusAfter env.net pindex.tail) + ((blockContext env pindex).feesOf view block.vtx).sum)
  coinbase : ∃ coinbase, block.vtx.head? = some coinbase ∧
    SumsFit (coinbase.vout.map (·.nValue)) ∧ coinbase.getValueOut = some coinbase.valueOut

theorem feesFit {env : Env} {v v' : CCoinsViewCache} {m : UtxoMap} {block : CBlock}
    {pindex : BlockIndex} {undo : CBlockUndo} (h : v.Represents m)
    (htotal : m.total + 2 * MAX_MONEY < 2 ^ 63) {coinbase : CTransaction} {rest : List CTransaction}
    (hb : block.Checked coinbase rest)
    (ho : connectTransactions env block pindex v = .ok (v', undo)) :
    ∃ view, enforceBIP30 env block pindex.tail v = .ok view ∧ FeesFit env block pindex view := by
  obtain ⟨_, hprev, ho⟩ := bind_ok ho
  obtain ⟨view, hview, ho⟩ := bind_ok ho
  obtain ⟨⟨v2, undos, nFees⟩, hloop, ho⟩ := bind_ok ho
  change (blockContext env pindex).connectTxs block.vtx view 0 0 = .ok (v2, undos, nFees) at hloop
  have hfetched := (enforceBIP30_spec hview).2
  have hcoinbase : coinbase.Checked := hb.checked coinbase (hb.vtx ▸ List.mem_cons_self)
  have hpaid := (moneyRange_iff _).mp hcoinbase.total
  obtain ⟨-, hle, hall, hexact⟩ := ConnectContext.connectTxs_potential
    (hfetched.clean h.sound.clean_eq) hb.checked (nHeight_pos_of_prev hprev) (by decide) hloop
  rw [hfetched.potential, h.potential, sum_minted hb, Int.zero_add] at hle hexact
  have hsum := hexact (by omega)
  rw [Int.zero_add] at hsum
  have hnonneg := potential_nonneg v2
  have hsubsidy := baseSubsidy_bounds (env.mtRandom (nHeight pindex)) (nHeight pindex)
    (consensusAfter env.net pindex.tail)
  have hmax : MAX_MONEY = 54000000 * COIN := rfl
  have hlow := List.sum_nonneg hall
  exact ⟨view, hview, ⟨v2, undos, hsum ▸ hloop⟩, sumsFit_of_nonneg hall (by omega),
    ⟨by omega, by omega⟩, coinbase, by rw [hb.vtx]; rfl,
    (amountsFit h (by omega) hcoinbase).outputs, hcoinbase.getValueOut⟩

/-! ## The law -/

/-- On a view whose unspent outputs are worth little enough in total, no amount is cut to 64
bits: not in the checks of a transaction that `CheckTransaction` accepts, and not in the fees
and the reward of a block that `ConnectBlock` accepts. -/
theorem amounts_never_overflow (v : CCoinsViewCache) (m : UtxoMap) (h : v.Represents m)
    (htotal : m.total + 2 * MAX_MONEY < 2 ^ 63) :
    (∀ tx, checkTransaction tx true = .ok () → AmountsFit v m tx) ∧
    ∀ (env : Env) (block : CBlock) (pindex : BlockIndex) (fJustCheck : Bool)
      (v' : CCoinsViewCache) (undo : Option CBlockUndo), block.Truthful env →
      block.getHash env.H ≠ hashGenesisBlock env.H env.net →
      connectBlock env block pindex v fJustCheck = .ok (v', undo) →
      ∃ view, enforceBIP30 env block pindex.tail v = .ok view ∧ FeesFit env block pindex view := by
  have hmax : 0 ≤ MAX_MONEY := by decide
  refine ⟨fun tx htx => amountsFit h (by omega) (checkTransaction_ok htx), ?_⟩
  intro env block pindex fJustCheck v' undo ht hgenesis ho
  obtain ⟨_, hcheck, ho⟩ := bind_ok ho
  obtain ⟨_, _, ho⟩ := bind_ok ho
  obtain ⟨coinbase, rest, hb⟩ := recheckBlock_ok ht hcheck
  rw [if_neg (by rwa [beq_iff_eq])] at ho
  obtain ⟨⟨v1, blockundo⟩, h1, _⟩ := bind_ok ho
  exact feesFit h htotal hb h1

theorem total_empty : UtxoMap.empty.total = 0 := Finset.sum_eq_zero fun _ _ => rfl

theorem total_spendingUtxo : spendingUtxo.total = 11 := by
  rw [spendingUtxo, UtxoMap.total_put, total_empty]
  rfl

/-- One transaction takes both unspent outputs and leaves 2 to the miner. -/
theorem amounts_never_overflow_spending :
    (spendingView.haveInputs (sampleTx [⟨7, 1⟩, ⟨7, 0⟩] [9]) = true ∧
      AmountsFit spendingView spendingUtxo (sampleTx [⟨7, 1⟩, ⟨7, 0⟩] [9])) ∧
    ∃ view, enforceBIP30 sampleEnv spendingBlock spendingIndex.tail spendingView = .ok view ∧
      (blockContext sampleEnv spendingIndex).feesOf view spendingBlock.vtx = [0, 2, 0] ∧
      FeesFit sampleEnv spendingBlock spendingIndex view := by
  have hall := amounts_never_overflow _ _ spendingView_represents
    (by rw [total_spendingUtxo]; decide)
  obtain ⟨v', undo, hconn⟩ := spendingBlock_connects
  obtain ⟨view, hview, hfit⟩ := hall.2 sampleEnv spendingBlock spendingIndex false v' (some undo)
    (sampleBlock_truthful _ _) (by decide +kernel) hconn
  have hok : okWith (enforceBIP30 sampleEnv spendingBlock spendingIndex.tail spendingView)
      (fun view => (blockContext sampleEnv spendingIndex).feesOf view spendingBlock.vtx ==
        [0, 2, 0]) = true := by decide +kernel
  obtain ⟨view', hview', hfees⟩ := of_okWith hok
  cases hview.symm.trans hview'
  exact ⟨⟨by decide +kernel, hall.1 _ (by decide +kernel)⟩, view, hview, beq_iff_eq.mp hfees, hfit⟩

/-! ## Too much for a sum -/

/-- Some unspent outputs of `MAX_MONEY`, and a transaction that spends all of them. -/
def hoardCoins (n : Nat) : CCoins := ⟨false, List.replicate n (sampleOut MAX_MONEY), 1, 1⟩

def hoardTx (n : Nat) : CTransaction where
  nVersion := 1
  vin := (List.range n).map fun i => { prevout := ⟨1, UInt32.ofNat i⟩, scriptSig := [] }
  vout := [sampleOut 0]
  nLockTime := 0

theorem good_hoardCoins (n : Nat) : (hoardCoins n).Good where
  trimmed := by
    apply Trim.trimmed_of_last .null
    intro k hk
    have hlt : k < (List.replicate n (sampleOut MAX_MONEY)).length := by
      change k + 1 = (List.replicate n (sampleOut MAX_MONEY)).length at hk
      omega
    change CTxOut.isNull (Trim.get .null (List.replicate n (sampleOut MAX_MONEY)) k) = false
    rw [Trim.get_of_lt _ hlt, List.getElem_replicate]
    rfl
  canonical := by
    intro o ho hnull
    rw [List.eq_of_mem_replicate ho] at hnull
    cases hnull
  range := by
    intro o ho _
    rw [List.eq_of_mem_replicate ho]
    rfl
  height := fun _ => show (0 : Int) < 1 by decide

def hoard (n : Nat) : UtxoMap := UtxoMap.empty.put 1 (hoardCoins n) (good_hoardCoins n)

/-- A view with an empty cache on top of a map. -/
def viewOf (m : UtxoMap) : CCoinsViewCache where
  base txid := some (m.coins txid)
  baseBestBlock := 0
  cacheCoins := ∅
  hashBlock := 0

theorem represents_viewOf (m : UtxoMap) : (viewOf m).Represents m where
  sound := WriteBack.sound_empty _
  coins txid := m.normal txid

theorem coins_hoard (hn : 0 < n) : (hoard n).coins 1 = hoardCoins n := by
  apply tidy_of_not_pruned
  rw [isPruned, List.all_eq_false]
  exact ⟨sampleOut MAX_MONEY, List.mem_replicate.mpr ⟨by omega, rfl⟩, by decide⟩

theorem outAt_hoard {i : Nat} (h : i < n) : ((hoard n).coins 1).outAt i = sampleOut MAX_MONEY := by
  have hlt : i < (List.replicate n (sampleOut MAX_MONEY)).length := by simpa using h
  rw [coins_hoard (by omega)]
  change Trim.get .null (List.replicate n (sampleOut MAX_MONEY)) i = _
  rw [Trim.get_of_lt _ hlt, List.getElem_replicate]

theorem hoardTx_prevouts (hn : n < 2 ^ 32) {txin : CTxIn} (h : txin ∈ (hoardTx n).vin) :
    txin.prevout.hash = 1 ∧ txin.prevout.n.toNat < n := by
  obtain ⟨i, hi, rfl⟩ := List.mem_map.mp h
  have := List.mem_range.mp hi
  refine ⟨rfl, ?_⟩
  change (UInt32.ofNat i).toNat < n
  rw [UInt32.toNat_ofNat']
  omega

theorem length_hoardTx (hn : n ≤ 20000) :
    (serializeTransaction false (hoardTx n)).length ≤ MAX_BLOCK_BASE_SIZE := by
  have heach (i : Nat) : (CTxIn.serialize { prevout := ⟨1, UInt32.ofNat i⟩ }).length = 41 := by
    simp [CTxIn.serialize, COutPoint.serialize, serBytes, compactSize, Uint256.bytes]
  have hins : ((hoardTx n).vin.flatMap CTxIn.serialize).length = n * 41 := by
    rw [List.length_flatMap, hoardTx, List.map_map]
    simp only [Function.comp_def, heach, List.map_const', List.length_range, List.sum_replicate]
    rfl
  have hcount : (compactSize (hoardTx n).vin.length).length ≤ 9 := by
    unfold compactSize
    split
    · simp
    · split
      · simp
      · split <;> simp
  have houts : (serVector CTxOut.serialize [sampleOut 0]).length ≤ 100 := by decide +kernel
  change (serVector CTxOut.serialize (hoardTx n).vout).length ≤ 100 at houts
  simp only [serializeTransaction, Bool.false_and, Bool.false_eq_true, if_false, serVector,
    List.length_append, Bytes.length_le, List.length_nil, hins] at *
  unfold MAX_BLOCK_BASE_SIZE
  omega

/-- It is small enough, and spends nothing twice. -/
theorem hoardTx_checked (h2 : 2 ≤ n) (hn : n ≤ 20000) :
    checkTransaction (hoardTx n) true = .ok () := by
  have hlen := length_hoardTx hn
  have hnonempty : (hoardTx n).vin.isEmpty = false := by
    rw [List.isEmpty_eq_false_iff, hoardTx]
    simp
    omega
  have hnodup : ((hoardTx n).vin.map (·.prevout)).Nodup := by
    rw [hoardTx, List.map_map]
    apply List.Nodup.map_on _ List.nodup_range
    intro i hi j hj hij
    have hi := List.mem_range.mp hi
    have hj := List.mem_range.mp hj
    have := congrArg (fun o : COutPoint => o.n.toNat) hij
    simp only [Function.comp_apply, UInt32.toNat_ofNat'] at this
    omega
  have hcb : (hoardTx n).isCoinBase = false := by
    obtain ⟨k, rfl⟩ := Nat.exists_eq_add_of_le h2
    unfold CTransaction.isCoinBase hoardTx
    rw [Nat.add_comm, List.range_succ_eq_map, List.range_succ_eq_map]
    rfl
  have hnull : ((hoardTx n).vin.any (·.prevout.isNull)) = false := by
    rw [List.any_eq_false]
    intro txin htx
    have hhash := (hoardTx_prevouts (by omega) htx).1
    rw [COutPoint.isNull, beq_iff_eq]
    intro heq
    rw [heq] at hhash
    exact absurd hhash (by decide)
  have hvout : checkOutputs 0 [sampleOut 0] = .ok () := by decide +kernel
  change checkOutputs 0 (hoardTx n).vout = .ok () at hvout
  unfold checkTransaction checkDuplicateInputs checkPrevouts
  rw [hnonempty, hvout, hcb, hnull, decide_eq_true hnodup, decide_eq_false (by omega)]
  rfl

theorem outFor_hoard (hn : n < 2 ^ 32) {txin : CTxIn} (h : txin ∈ (hoardTx n).vin) :
    (hoard n).outFor txin = sampleOut MAX_MONEY := by
  obtain ⟨hhash, hlt⟩ := hoardTx_prevouts hn h
  rw [UtxoMap.outFor, hhash, outAt_hoard hlt]

theorem sum_inputValues_hoard (hn : n < 2 ^ 32) :
    (((hoard n).inputValues (hoardTx n)).take n).sum = n * MAX_MONEY := by
  have hvalues : (hoard n).inputValues (hoardTx n) = List.replicate n MAX_MONEY := by
    rw [UtxoMap.inputValues, List.map_congr_left fun txin htx => by rw [outFor_hoard hn htx],
      List.map_const', hoardTx, List.length_map, List.length_range, sampleOut]
  rw [hvalues, List.take_of_length_le (by simp), List.sum_replicate]
  simp

/-- All outputs are in `MoneyRange`, the transaction is accepted, and the sum of its inputs
leaves 64 bits. -/
theorem hoard_overflows :
    ∃ (v : CCoinsViewCache) (m : UtxoMap) (tx : CTransaction), v.Represents m ∧
      checkTransaction tx true = .ok () ∧ tx.isCoinBase = false ∧ v.haveInputs tx = true ∧
      ¬ SumsFit (m.inputValues tx) := by
  have hcb : (hoardTx 1709).isCoinBase = false := by decide +kernel
  refine ⟨viewOf (hoard 1709), hoard 1709, hoardTx 1709, represents_viewOf _,
    hoardTx_checked (by decide) (by decide), hcb, ?_, fun hfit => ?_⟩
  · rw [haveInputs, hcb, Bool.false_or, List.all_eq_true]
    intro txin htx
    change isAvailable ((hoard 1709).coins txin.prevout.hash) txin.prevout.n.toNat = true
    have hout := outFor_hoard (by decide) htx
    rw [UtxoMap.outFor] at hout
    rw [isAvailable_eq, hout]
    rfl
  · have hlt := (hfit 1709).2
    rw [sum_inputValues_hoard (by decide)] at hlt
    exact absurd hlt (by decide)

end junkcoin
