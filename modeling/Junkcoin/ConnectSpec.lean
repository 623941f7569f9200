-- What a successful `ConnectBlock` has done: the transactions of the block
-- were applied to the map that the view represents, each of them spending
-- mature outputs that cover what it pays, and the coinbase took no more than
-- the subsidy and the fees.
import Junkcoin.ConnectBlock

namespace junkcoin

variable {v : CCoinsViewCache}

open CCoinsViewCache

namespace UtxoMap

variable (m : UtxoMap)

/-- The output that an input spends. -/
def outFor (txin : CTxIn) : CTxOut := (m.coins txin.prevout.hash).outAt txin.prevout.n.toNat

def valueIn (vin : List CTxIn) : Int := (vin.map fun txin => (m.outFor txin).nValue).sum

/-- What a transaction leaves to the miner. -/
def fee (tx : CTransaction) : Int := if tx.isCoinBase then 0 else m.valueIn tx.vin - tx.valueOut

/-- The inputs of a transaction at `nSpendHeight` are unspent, mature, and
cover its outputs. -/
structure Spends (net : Network) (nSpendHeight : Int) (tx : CTransaction) : Prop where
  available : ∀ txin ∈ tx.vin, m.available txin.prevout = true
  mature : ∀ txin ∈ tx.vin, (m.coins txin.prevout.hash).fCoinBase = true →
    (net.params.getConsensus (m.coins txin.prevout.hash).nHeight.toNat).nCoinbaseMaturity ≤
      nSpendHeight - (m.coins txin.prevout.hash).nHeight
  covered : 0 ≤ m.fee tx

/-- The transactions of a block at `height` lead from one map to another.
The undo data and the fees are those of all of them. -/
inductive Connects (env : Env) (height : Int) :
    UtxoMap → List CTransaction → UtxoMap → List CTxUndo → (fees : Int) → Prop
  | nil (m : UtxoMap) : Connects env height m [] m [] 0
  | cons {m m1 m' : UtxoMap} {tx : CTransaction} {vtx : List CTransaction} {txundo : CTxUndo}
      {rest : List CTxUndo} {fees : Int} :
      tx.Checked → (tx.isCoinBase = false → m.Spends env.net height tx) →
      m.applyTx env.H tx height = some (m1, txundo) → Connects env height m1 vtx m' rest fees →
      Connects env height m (tx :: vtx) m' (txundo :: rest) (m.fee tx + fees)

theorem Connects.applyTxs {env : Env} {height : Int} {m m' : UtxoMap} {vtx : List CTransaction}
    {undo : List CTxUndo} {fees : Int} (h : Connects env height m vtx m' undo fees) :
    m.applyTxs env.H height vtx = some (m', undo) := by
  induction h with
  | nil m => rfl
  | cons _ _ happly _ ih =>
    rw [UtxoMap.applyTxs, happly]
    simp only [ih, Option.map_some]

end UtxoMap

/-! ## The checks of one transaction -/

namespace CCoinsViewCache

variable (v : CCoinsViewCache)

/-- A reader of the view finds the output unspent. -/
def available (o : COutPoint) : Bool := (v.coins o.hash).isAvailable o.n.toNat

def outFor (txin : CTxIn) : CTxOut := (v.coins txin.prevout.hash).outAt txin.prevout.n.toNat

def valueIn (vin : List CTxIn) : Int := (vin.map fun txin => (v.outFor txin).nValue).sum

def fee (tx : CTransaction) : Int := if tx.isCoinBase then 0 else v.valueIn tx.vin - tx.valueOut

/-- What `CheckTxInputs` finds about the inputs of a transaction. -/
structure Spends (net : Network) (nSpendHeight : Int) (tx : CTransaction) : Prop where
  available : ∀ txin ∈ tx.vin, v.available txin.prevout = true
  range : ∀ txin ∈ tx.vin, moneyRange (v.outFor txin).nValue = true
  mature : ∀ txin ∈ tx.vin, (v.coins txin.prevout.hash).fCoinBase = true →
    (net.params.getConsensus (v.coins txin.prevout.hash).nHeight.toNat).nCoinbaseMaturity ≤
      nSpendHeight - (v.coins txin.prevout.hash).nHeight
  fee : moneyRange (v.fee tx) = true

variable {v} {m : UtxoMap}

theorem Represents.valueIn (h : v.Represents m) (vin : List CTxIn) :
    v.valueIn vin = m.valueIn vin := by
  simp only [CCoinsViewCache.valueIn, UtxoMap.valueIn, CCoinsViewCache.outFor, UtxoMap.outFor,
    h.coins]

theorem Represents.fee (h : v.Represents m) (tx : CTransaction) : v.fee tx = m.fee tx := by
  rw [CCoinsViewCache.fee, UtxoMap.fee, h.valueIn]

theorem Represents.spends (h : v.Represents m) {net : Network} {height : Int} {tx : CTransaction}
    (hs : v.Spends net height tx) : m.Spends net height tx := by
  obtain ⟨ha, -, hm, hf⟩ := hs
  simp only [CCoinsViewCache.available, h.coins] at ha hm
  exact ⟨ha, hm, h.fee tx ▸ ((moneyRange_iff _).mp hf).1⟩

theorem Represents.available (h : v.Represents m) (o : COutPoint) :
    v.available o = m.available o := by
  rw [CCoinsViewCache.available, UtxoMap.available, h.coins]

/-- The second view is the first one after some lookups. -/
inductive Fetched (v : CCoinsViewCache) : CCoinsViewCache → Prop
  | refl : Fetched v v
  | fetch {v' : CCoinsViewCache} (k : Uint256) : Fetched v v' → Fetched v (v'.fetchCoins k)

variable {v' : CCoinsViewCache}

theorem Fetched.cons {k : Uint256} (h : Fetched (v.fetchCoins k) v') : Fetched v v' := by
  induction h with
  | refl => exact .fetch k .refl
  | fetch j _ ih => exact .fetch j ih

theorem Fetched.coins (h : Fetched v v') (txid : Uint256) : v'.coins txid = v.coins txid := by
  induction h with
  | refl => rfl
  | fetch k _ ih => rw [coins_fetchCoins, ih]

theorem Fetched.represents (h : Fetched v v') (hr : v.Represents m) : v'.Represents m := by
  induction h with
  | refl => exact hr
  | fetch k _ ih => exact ih.fetchCoins k

theorem Fetched.follows (h : Fetched v v') : Follows v v' := by
  induction h with
  | refl => exact Follows.refl v
  | fetch k _ ih => exact ih.trans (follows_fetchCoins k)

theorem fetched_fetchInputs (v : CCoinsViewCache) (tx : CTransaction) :
    Fetched v (v.fetchInputs tx) := by
  unfold fetchInputs
  induction tx.vin generalizing v with
  | nil => exact .refl
  | cons txin vin ih => exact (ih _).cons

end CCoinsViewCache

section Inputs

variable {v : CCoinsViewCache} {tx : CTransaction}

theorem haveInputs_available (hcb : tx.isCoinBase = false) (hi : v.haveInputs tx = true) :
    ∀ txin ∈ tx.vin, v.available txin.prevout = true := by
  intro txin htx
  unfold haveInputs at hi
  rw [hcb, Bool.false_or, List.all_eq_true] at hi
  have hin := hi txin htx
  unfold available
  rw [← access_available]
  rcases hc : v.accessCoins txin.prevout.hash with _ | c
  · rw [hc] at hin
    cases hin
  · rw [hc] at hin
    exact ⟨c, rfl, hin⟩

theorem access_of_available {o : COutPoint} (ha : v.available o = true) :
    v.accessCoins o.hash = some (v.coins o.hash) :=
  access_of_not_pruned (CCoins.not_pruned_of_available ha)

theorem getOutputFor_of_available {txin : CTxIn} (ha : v.available txin.prevout = true) :
    v.getOutputFor txin = .ok (v.outFor txin) := by
  unfold getOutputFor
  rw [access_of_available ha]
  exact if_pos ha

/-- The sum of `CheckTxInputs`, and that it is the sum of `GetValueIn` too:
every partial sum is in range, so nothing is cut. -/
theorem checkTxInputsFrom_spec {net : Network} {height n total : Int} {vin : List CTxIn}
    (ha : ∀ txin ∈ vin, v.available txin.prevout = true)
    (ho : checkTxInputsFrom net v height n vin = .ok total) :
    total = n + v.valueIn vin ∧ v.valueInFrom n vin = .ok total ∧
      (∀ txin ∈ vin, moneyRange (v.outFor txin).nValue = true) ∧
      ∀ txin ∈ vin, (v.coins txin.prevout.hash).fCoinBase = true →
        (net.params.getConsensus (v.coins txin.prevout.hash).nHeight.toNat).nCoinbaseMaturity ≤
          height - (v.coins txin.prevout.hash).nHeight := by
  induction vin generalizing n with
  | nil =>
    cases ho
    exact ⟨by simp [CCoinsViewCache.valueIn], rfl, by simp, by simp⟩
  | cons txin vin ih =>
    have hav := ha txin List.mem_cons_self
    obtain ⟨_, hmat, ho⟩ := bind_ok ho
    obtain ⟨_, hrange, ho⟩ := bind_ok ho
    simp only [access_of_available hav, Option.getD_some] at hmat hrange ho
    rw [rejectIf_ok, Bool.or_eq_false_iff, Bool.not_eq_false', Bool.not_eq_false'] at hrange
    obtain ⟨htot, hval, hin, hrest⟩ := ih (fun t ht => ha t (List.mem_cons_of_mem _ ht)) ho
    refine ⟨?_, ?_, ?_, ?_⟩
    · rw [htot, CCoinsViewCache.valueIn, CCoinsViewCache.valueIn, List.map_cons, List.sum_cons,
        Int.add_assoc]
      rfl
    · have hfit := (moneyRange_iff _).mp hrange.2
      have hmax : MAX_MONEY < 2 ^ 63 := by decide
      have hcut : int64 (n + (v.outFor txin).nValue) = n + (v.outFor txin).nValue :=
        int64_of_fits (by unfold outFor; omega) (by unfold outFor; omega)
      rw [valueInFrom, getOutputFor_of_available hav]
      change v.valueInFrom (int64 (n + (v.outFor txin).nValue)) vin = _
      rw [hcut]
      exact hval
    · rw [List.forall_mem_cons]
      exact ⟨hrange.1, hin⟩
    · rw [List.forall_mem_cons]
      refine ⟨fun hcb => ?_, hrest⟩
      rw [rejectIf_ok, hcb, Bool.true_and, decide_eq_false_iff_not] at hmat
      omega

theorem valueOutOrThrow_ok (hc : tx.Checked) {n : Int} (h : valueOutOrThrow tx = .ok n) :
    n = tx.valueOut := by
  unfold valueOutOrThrow at h
  rw [hc.getValueOut] at h
  cases h
  rfl

/-- `CheckTxInputs` lets a transaction through only if it spends. -/
theorem checkTxInputs_spec {net : Network} {height : Int} (hc : tx.Checked)
    (hcb : tx.isCoinBase = false) (ho : checkTxInputs net tx v height = .ok ()) :
    v.Spends net height tx ∧ v.getValueIn tx = .ok (v.valueIn tx.vin) := by
  obtain ⟨_, hi, ho⟩ := bind_ok ho
  obtain ⟨total, htot, ho⟩ := bind_ok ho
  obtain ⟨out, hout, ho⟩ := bind_ok ho
  obtain ⟨_, _, ho⟩ := bind_ok ho
  obtain ⟨_, _, ho⟩ := bind_ok ho
  rw [rejectIf_ok, Bool.not_eq_false'] at hi ho
  have hav := haveInputs_available hcb hi
  obtain ⟨rfl, hval, hrange, hmat⟩ := checkTxInputsFrom_spec hav htot
  rw [Int.zero_add] at hval ho
  rw [valueOutOrThrow_ok hc hout] at ho
  refine ⟨⟨hav, hrange, hmat, ?_⟩, ?_⟩
  · rw [CCoinsViewCache.fee, hcb, if_neg Bool.false_ne_true]
    exact ho
  · rw [getValueIn, hcb, if_neg Bool.false_ne_true]
    exact hval

end Inputs

/-! ## The loop over the transactions -/

section Loop

variable {ctx : ConnectContext} {v v' : CCoinsViewCache} {m : UtxoMap} {tx : CTransaction}
  {nFees nFees' : Int}

theorem checkAvailable_spec (ho : ctx.checkAvailable tx v = .ok v') : Fetched v v' := by
  unfold ConnectContext.checkAvailable at ho
  split at ho
  · cases ho
    exact .refl
  · obtain ⟨_, _, ho⟩ := bind_ok ho
    obtain ⟨_, _, ho⟩ := bind_ok ho
    cases ho
    exact fetched_fetchInputs v tx

/-- The fees after a transaction, as the loop cuts them. -/
theorem addFees_spec (hc : tx.Checked) (ho : ctx.addFees tx v nFees = .ok nFees') :
    (tx.isCoinBase = false → v.Spends ctx.env.net ctx.height tx) ∧
      nFees' = if tx.isCoinBase then nFees else int64 (nFees + v.fee tx) := by
  unfold ConnectContext.addFees at ho
  split at ho
  · rename_i hcb
    cases ho
    rw [hcb]
    exact ⟨fun h => absurd h (by decide), rfl⟩
  · rename_i hcb
    rw [Bool.not_eq_true] at hcb
    obtain ⟨nIn, hin, ho⟩ := bind_ok ho
    obtain ⟨nOut, hout, ho⟩ := bind_ok ho
    obtain ⟨_, hcheck, ho⟩ := bind_ok ho
    obtain ⟨_, hinputs, _⟩ := bind_ok hcheck
    cases ho
    obtain ⟨hspend, hval⟩ := checkTxInputs_spec hc hcb hinputs
    cases hval.symm.trans hin
    have hfee : v.valueIn tx.vin - tx.valueOut = v.fee tx := by simp [CCoinsViewCache.fee, hcb]
    have hrange := (moneyRange_iff _).mp hspend.fee
    have hmax : MAX_MONEY < 2 ^ 63 := by decide
    have hcut : int64 (v.fee tx) = v.fee tx := int64_of_fits (by omega) (by omega)
    rw [valueOutOrThrow_ok hc hout, hfee, hcut, hcb]
    exact ⟨fun _ => hspend, rfl⟩

/-- One transaction. -/
theorem connectTx_spec (h : v.Represents m) (hc : tx.Checked) (hh : 0 < ctx.height)
    (hk : tx.isCoinBase = false → v.KnowsTx (tx.getHash ctx.env.H)) {cost cost' : Int}
    {undo : CTxUndo} (hlow : -2 ^ 63 ≤ nFees)
    (ho : ctx.connectTx tx v nFees cost = .ok (v', undo, nFees', cost')) :
    ∃ m', (tx.isCoinBase = false → m.Spends ctx.env.net ctx.height tx) ∧
      m.applyTx ctx.env.H tx ctx.height = some (m', undo) ∧ v'.Represents m' ∧ Follows v v' ∧
      -2 ^ 63 ≤ nFees' ∧ nFees' ≤ nFees + m.fee tx := by
  obtain ⟨v1, h1, ho⟩ := bind_ok ho
  obtain ⟨_, _, ho⟩ := bind_ok ho
  obtain ⟨fees, hf, ho⟩ := bind_ok ho
  obtain ⟨⟨v2, u⟩, h2, ho⟩ := bind_ok ho
  cases ho
  have hv1 := checkAvailable_spec h1
  have hr1 := hv1.represents h
  obtain ⟨hspend, hfees⟩ := addFees_spec hc hf
  obtain ⟨m', hm', hr2, hf2⟩ :=
    updateCoins_refines hr1 hc.range hh (fun hcb => hv1.follows.knows _ (hk hcb)) h2
  refine ⟨m', fun hcb => hr1.spends (hspend hcb), hm', hr2, hv1.follows.trans hf2, ?_⟩
  rcases hcb : tx.isCoinBase with _ | _
  · have hfee := (hr1.spends (hspend hcb)).covered
    rw [hcb, if_neg Bool.false_ne_true, hr1.fee] at hfees
    rw [hfees]
    exact ⟨int64_ge _, int64_le (by omega)⟩
  · rw [hcb, if_pos rfl] at hfees
    rw [hfees, UtxoMap.fee, hcb, if_pos rfl]
    exact ⟨hlow, by omega⟩

/-- All transactions of a block. -/
theorem connectTxs_spec (h : v.Represents m) {vtx : List CTransaction} (hc : ∀ tx ∈ vtx, tx.Checked)
    (hh : 0 < ctx.height)
    (hk : ∀ tx ∈ vtx, tx.isCoinBase = false → v.KnowsTx (tx.getHash ctx.env.H)) {cost : Int}
    {undo : List CTxUndo} (hlow : -2 ^ 63 ≤ nFees)
    (ho : ctx.connectTxs vtx v nFees cost = .ok (v', undo, nFees')) :
    ∃ m' fees, UtxoMap.Connects ctx.env ctx.height m vtx m' undo fees ∧ v'.Represents m' ∧
      Follows v v' ∧ -2 ^ 63 ≤ nFees' ∧ nFees' ≤ nFees + fees := by
  induction vtx generalizing v m nFees cost undo with
  | nil =>
    cases ho
    exact ⟨m, 0, .nil m, h, Follows.refl _, hlow, by omega⟩
  | cons tx vtx ih =>
    obtain ⟨⟨v1, u, f1, c1⟩, h1, ho⟩ := bind_ok ho
    obtain ⟨⟨v2, rest, f2⟩, h2, ho⟩ := bind_ok ho
    cases ho
    have hctx := hc tx List.mem_cons_self
    obtain ⟨m1, hspend, happly, hr1, hf1, hlow1, hle1⟩ :=
      connectTx_spec h hctx hh (hk tx List.mem_cons_self) hlow h1
    obtain ⟨m', fees, hrun, hr2, hf2, hlow2, hle2⟩ :=
      ih hr1 (fun t ht => hc t (List.mem_cons_of_mem _ ht))
        (fun t ht hcb => hf1.knows _ (hk t (List.mem_cons_of_mem _ ht) hcb)) hlow1 h2
    exact ⟨m', m.fee tx + fees, .cons hctx hspend happly hrun, hr2, hf1.trans hf2, hlow2, by omega⟩

end Loop

/-! ## The whole block -/

section Block

variable {env : Env} {v v' : CCoinsViewCache} {m : UtxoMap} {block : CBlock} {pindex : BlockIndex}
  {coinbase : CTransaction} {rest : List CTransaction}

/-- Where BIP30 is enforced, no transaction of the block has unspent
outputs. -/
theorem checkBIP30_spec {H : Hashes} {vtx : List CTransaction}
    (ho : checkBIP30 H vtx v = .ok v') :
    (∀ tx ∈ vtx, v.coins (tx.getHash H) = .empty) ∧ Fetched v v' := by
  induction vtx generalizing v with
  | nil =>
    cases ho
    exact ⟨by simp, .refl⟩
  | cons tx vtx ih =>
    obtain ⟨_, hfree, ho⟩ := bind_ok ho
    obtain ⟨hrest, hf⟩ := ih ho
    rw [rejectIf_ok, Bool.not_eq_false'] at hfree
    simp only [coins_fetchCoins] at hrest
    rw [List.forall_mem_cons]
    exact ⟨⟨WriteBack.tidy_of_gone hfree, hrest⟩, hf.cons⟩

theorem enforceBIP30_spec {pprev : BlockIndex} (ho : enforceBIP30 env block pprev v = .ok v') :
    (fEnforceBIP30 pprev (consensusAfter env.net pprev) = true →
      ∀ tx ∈ block.vtx, v.coins (tx.getHash env.H) = .empty) ∧ Fetched v v' := by
  unfold enforceBIP30 at ho
  split at ho
  · obtain ⟨hfree, hf⟩ := checkBIP30_spec ho
    exact ⟨fun _ => hfree, hf⟩
  · rename_i hoff
    split at ho
    · cases ho
    · cases ho
      exact ⟨fun hon => absurd hon hoff, .refl⟩

/-- What connecting a block that is not the genesis block establishes. -/
structure BlockConnected (env : Env) (block : CBlock) (pindex : BlockIndex) (m m' : UtxoMap)
    (blockundo : CBlockUndo) : Prop where
  height : 0 < nHeight pindex
  bip30 : fEnforceBIP30 pindex.tail (consensusAfter env.net pindex.tail) = true →
    ∀ tx ∈ block.vtx, m.coins (tx.getHash env.H) = .empty
  run : ∃ coinbase rest fees, block.Checked coinbase rest ∧
    UtxoMap.Connects env (nHeight pindex) m block.vtx m' ([] :: blockundo) fees ∧
    coinbase.valueOut ≤ getJunkcoinBlockSubsidy env.mtRandom (nHeight pindex) 0
      (consensusAfter env.net pindex.tail) + fees

theorem recheckBlock_ok {fJustCheck : Bool} (ht : block.Truthful env)
    (ho : recheckBlock env block fJustCheck = .ok ()) :
    ∃ coinbase rest, block.Checked coinbase rest := by
  unfold recheckBlock at ho
  split at ho
  · rename_i b hb
    exact checkBlock_ok ht hb
  · cases ho
  · cases ho

theorem checkReward_spec {nFees fees : Int} (hb : block.Checked coinbase rest)
    (hlow : -2 ^ 63 ≤ nFees) (hle : nFees ≤ fees)
    (ho : checkReward env block pindex nFees = .ok ()) :
    coinbase.valueOut ≤ getJunkcoinBlockSubsidy env.mtRandom (nHeight pindex) 0
      (consensusAfter env.net pindex.tail) + fees := by
  unfold checkReward at ho
  rw [hb.vtx] at ho
  obtain ⟨out, hout, ho⟩ := bind_ok ho
  have hc : coinbase.Checked := hb.checked coinbase (by rw [hb.vtx]; exact List.mem_cons_self)
  rw [rejectIf_ok, decide_eq_false_iff_not, valueOutOrThrow_ok hc hout] at ho
  have := getJunkcoinBlockSubsidy_le env.mtRandom (nHeight pindex) nFees
    (consensusAfter env.net pindex.tail) hlow
  omega

theorem nHeight_pos_of_prev {what : String} {u : Unit}
    (hprev : assert (!pindex.tail.isEmpty) what = .ok u) : 0 < nHeight pindex := by
  rw [assert_ok, Bool.not_eq_true', List.isEmpty_eq_false_iff] at hprev
  have hpos := List.length_pos_of_ne_nil hprev
  rw [List.length_tail] at hpos
  unfold nHeight
  omega

/-- The transactions of a block that is not the genesis block. -/
theorem connectTransactions_spec {undo : CBlockUndo} (h : v.Represents m)
    (hb : block.Checked coinbase rest)
    (hk : ∀ tx ∈ block.vtx, tx.isCoinBase = false → v.KnowsTx (tx.getHash env.H))
    (ho : connectTransactions env block pindex v = .ok (v', undo)) :
    ∃ m', BlockConnected env block pindex m m' undo ∧ v'.Represents m' ∧ Follows v v' := by
  obtain ⟨_, hprev, ho⟩ := bind_ok ho
  obtain ⟨v1, h1, ho⟩ := bind_ok ho
  obtain ⟨⟨v2, undos, nFees⟩, h2, ho⟩ := bind_ok ho
  obtain ⟨_, hrew, ho⟩ := bind_ok ho
  cases ho
  have hheight := nHeight_pos_of_prev hprev
  obtain ⟨hbip, hv1⟩ := enforceBIP30_spec h1
  simp only [h.coins] at hbip
  obtain ⟨m', fees, hrun, hr2, hf2, hlow, hle⟩ := connectTxs_spec (hv1.represents h)
    hb.checked (by exact hheight) (fun tx htx hcb => hv1.follows.knows _ (hk tx htx hcb))
    (by decide) h2
  refine ⟨m', ⟨hheight, hbip, coinbase, rest, fees, hb, ?_, ?_⟩, hr2, hv1.follows.trans hf2⟩
  · -- the undo data of the coinbase is empty
    have hvtx := hb.vtx
    rw [hvtx] at hrun
    cases hrun with
    | @cons _ m1 _ _ _ txundo rest _ hc hs happly hrest =>
      obtain ⟨m0, hspend, -⟩ := UtxoMap.applyTx_some happly
      rw [UtxoMap.spendTx, if_pos hb.first] at hspend
      cases hspend
      rw [hvtx]
      exact .cons hc hs happly hrest
  · exact checkReward_spec hb hlow (by omega) hrew

/-- `ConnectBlock` either met the genesis block, and did nothing but move
the best block, or connected the transactions. -/
theorem connectBlock_spec {undo : Option CBlockUndo} (h : v.Represents m) (ht : block.Truthful env)
    (hk : ∀ tx ∈ block.vtx, tx.isCoinBase = false → v.KnowsTx (tx.getHash env.H))
    (ho : connectBlock env block pindex v false = .ok (v', undo)) :
    blockHash env.H pindex.tail = v.getBestBlock ∧ v'.hashBlock = blockHash env.H pindex ∧
      Follows v v' ∧
      ((block.getHash env.H = hashGenesisBlock env.H env.net ∧ undo = none ∧ v'.Represents m) ∨
        (block.getHash env.H ≠ hashGenesisBlock env.H env.net ∧
          ∃ m' blockundo, undo = some blockundo ∧ BlockConnected env block pindex m m' blockundo ∧
            v'.Represents m')) := by
  obtain ⟨_, hcheck, ho⟩ := bind_ok ho
  obtain ⟨_, hbest, ho⟩ := bind_ok ho
  rw [assert_ok, beq_iff_eq] at hbest
  obtain ⟨coinbase, rest, hb⟩ := recheckBlock_ok ht hcheck
  split at ho
  · rename_i hg
    cases ho
    exact ⟨hbest, rfl, follows_setBestBlock _, .inl ⟨beq_iff_eq.mp hg, rfl, h.setBestBlock _⟩⟩
  · rename_i hg
    obtain ⟨⟨v1, blockundo⟩, h1, ho⟩ := bind_ok ho
    cases ho
    obtain ⟨m', hconn, hr, hf⟩ := connectTransactions_spec h hb hk h1
    exact ⟨hbest, rfl, hf.trans (follows_setBestBlock _),
      .inr ⟨fun he => hg (beq_iff_eq.mpr he), m',
      blockundo, rfl, hconn, hr.setBestBlock _⟩⟩

end Block

/-! ## Whole runs -/

/-- The view on top of the genesis block, with nothing unspent. -/
def genesisView (env : Env) : CCoinsViewCache where
  base _ := none
  baseBestBlock := hashGenesisBlock env.H env.net
  cacheCoins := ∅
  hashBlock := 0

/-- The views that calls of `ConnectBlock` lead to, with the index entries
that were connected, the last one first. -/
inductive ConnectRun (env : Env) : CCoinsViewCache → List BlockIndex → Prop
  | genesis : ConnectRun env (genesisView env) []
  | connect {v v' : CCoinsViewCache} {indexes : List BlockIndex} {block : CBlock}
      {pindex : BlockIndex} {undo : Option CBlockUndo} :
      ConnectRun env v indexes → block.Truthful env →
      connectBlock env block pindex v false = .ok (v', undo) →
      ConnectRun env v' (pindex :: indexes)

/-- The maps that blocks lead to. The genesis block changes nothing, however
often it is connected. -/
inductive UtxoRun (env : Env) : UtxoMap → List BlockIndex → Prop
  | genesis : UtxoRun env .empty []
  | skip {m : UtxoMap} {indexes : List BlockIndex} (pindex : BlockIndex) :
      UtxoRun env m indexes → UtxoRun env m (pindex :: indexes)
  | connect {m m' : UtxoMap} {indexes : List BlockIndex} {block : CBlock} {pindex : BlockIndex}
      {undo : CBlockUndo} :
      UtxoRun env m indexes → BlockConnected env block pindex m m' undo →
      UtxoRun env m' (pindex :: indexes)

/-- With nothing below it, a cache knows of everything. -/
theorem knowsTx_of_no_base (h : v.base = fun _ => none) (txid : Uint256) : v.KnowsTx txid := by
  intro _
  rw [h]
  rfl

/-- Every run of `ConnectBlock` is a run on the map that its view stands
for. -/
theorem ConnectRun.refines {env : Env} {indexes : List BlockIndex} (h : ConnectRun env v indexes) :
    v.base = (fun _ => none) ∧ ∃ m, v.Represents m ∧ UtxoRun env m indexes := by
  induction h with
  | genesis => exact ⟨rfl, .empty, represents_of_base fun _ => rfl, .genesis⟩
  | @connect v v' indexes block pindex undo _ ht ho ih =>
    obtain ⟨hbase, m, hr, hrun⟩ := ih
    obtain ⟨-, -, hf, ⟨-, -, hr'⟩ | ⟨-, m', blockundo, -, hconn, hr'⟩⟩ :=
      connectBlock_spec hr ht (fun tx _ _ => knowsTx_of_no_base hbase _) ho
    · exact ⟨hf.base.trans hbase, m, hr', .skip pindex hrun⟩
    · exact ⟨hf.base.trans hbase, m', hr', .connect hrun hconn⟩

/-! ## The same coinbase twice -/

/-- The coinbase carries no height, so every block can repeat it. -/
def repeatedCoinbase : CTransaction := sampleTx [.null] [1000]

def repeatedIndex : (n : Nat) → BlockIndex
  | 0 => [mainParams.genesis]
  | n + 1 => sampleIndex (repeatedIndex n) [repeatedCoinbase]

def repeatedBlock (n : Nat) : CBlock := sampleBlock (repeatedIndex n) [repeatedCoinbase]

/-- Two blocks with the same coinbase can be connected on top of genesis.
The coins of the first are replaced by those of the second. -/
theorem repeated_connects : ∃ v1 v2 undo1 undo2,
    connectBlock sampleEnv (repeatedBlock 0) (repeatedIndex 1) (genesisView sampleEnv) false =
      .ok (v1, undo1) ∧
    connectBlock sampleEnv (repeatedBlock 1) (repeatedIndex 2) v1 false = .ok (v2, undo2) ∧
    v1.coins (repeatedCoinbase.getHash sampleEnv.H) = .fromTx repeatedCoinbase 1 ∧
    v2.coins (repeatedCoinbase.getHash sampleEnv.H) = .fromTx repeatedCoinbase 2 := by
  have hok : okWith (connectBlock sampleEnv (repeatedBlock 0) (repeatedIndex 1)
      (genesisView sampleEnv) false) (fun r1 =>
    okWith (connectBlock sampleEnv (repeatedBlock 1) (repeatedIndex 2) r1.1 false) fun r2 =>
      r1.1.coins (repeatedCoinbase.getHash sampleEnv.H) == .fromTx repeatedCoinbase 1 &&
      r2.1.coins (repeatedCoinbase.getHash sampleEnv.H) == .fromTx repeatedCoinbase 2) = true := by
    decide +kernel
  obtain ⟨⟨v1, undo1⟩, h1, hok⟩ := of_okWith hok
  obtain ⟨⟨v2, undo2⟩, h2, hok⟩ := of_okWith hok
  rw [Bool.and_eq_true, beq_iff_eq, beq_iff_eq] at hok
  exact ⟨v1, v2, undo1, undo2, h1, h2, hok⟩

end junkcoin
