-- No inflation: connecting a block never adds more to the value of all
-- unspent outputs than its subsidy without fees, whatever is spent, dropped
-- or overwritten on the way, and whatever blocks are disconnected again.
import Junkcoin.Disconnect
import Mathlib.Algebra.Order.BigOperators.Group.Finset
import Mathlib.Data.Fintype.BigOperators

namespace junkcoin

open CCoinsViewCache CCoins

instance : Fintype Uint256 := Fintype.ofEquiv _ BitVec.equivFin.symm.toEquiv

/-- Replacing one summand. -/
theorem sum_replace (f : Uint256 → Int) (k : Uint256) (x : Int) :
    (∑ j, if j = k then x else f j) = (∑ j, f j) - f k + x := by
  have hsum := Finset.sum_update_of_mem (Finset.mem_univ k) f x
  have hrest := Finset.add_sum_erase Finset.univ f (Finset.mem_univ k)
  simp only [Function.update_apply, Finset.sdiff_singleton_eq_erase] at hsum
  omega

namespace UtxoMap

/-- The value of all outputs that are available. -/
def total (m : UtxoMap) : Int := ∑ txid, (m.coins txid).value

/-- Replacing the coins of one id replaces their value in the sum. -/
theorem total_put (m : UtxoMap) (txid : Uint256) {c : CCoins} (h : c.Good) :
    (m.put txid c h).total = m.total - (m.coins txid).value + c.value := by
  rw [total, total, ← sum_replace]
  refine Finset.sum_congr rfl fun j _ => ?_
  rw [coins_put]
  split
  · exact CCoins.sum_tidy (fun _ => CCoins.availableValue_null) c
  · rfl

end UtxoMap

/-! ## What a cache holds

A transaction whose id has unspent outputs below the cache hides them, and they are
there again when its own outputs are spent. So the view need not represent a map of
coins to the end of a block, and the fees are paid from all that the cache holds. -/

namespace CCoins

/-- The value of an output that an input can take. -/
def rangeValue (o : CTxOut) : Int := if moneyRange o.nValue then o.nValue else 0

def weight (c : CCoins) : Int := (c.vout.map rangeValue).sum

theorem rangeValue_null {o : CTxOut} (h : o.isNull = true) : rangeValue o = 0 := by
  refine if_neg fun hr => ?_
  rw [isNull_of_range hr] at h
  cases h

theorem weight_nonneg (c : CCoins) : 0 ≤ c.weight := by
  refine List.sum_nonneg fun n hn => ?_
  obtain ⟨o, -, rfl⟩ := List.mem_map.mp hn
  unfold rangeValue
  split
  · exact ((moneyRange_iff _).mp ‹_›).1
  · exact Int.le_refl 0

theorem weight_blank : weight WriteBack.Vacant.blank = 0 := rfl

theorem weight_tidy (c : CCoins) : (WriteBack.tidy c).weight = c.weight :=
  sum_tidy (fun _ => rangeValue_null) c

theorem weight_of_good {c : CCoins} (h : c.Good) : c.weight = c.value := by
  unfold weight value
  congr 1
  refine List.map_congr_left fun o ho => ?_
  rcases hn : o.isNull with _ | _
  · rw [rangeValue, if_pos (h.range o ho hn), availableValue, hn, if_neg Bool.false_ne_true]
  · rw [rangeValue_null hn, availableValue_null hn]

theorem cleanup_spend (c : CCoins) (n : Nat) : (c.spend n).cleanup = c.spend n := by
  have htrim : Trim.trim CTxOut.isNull (c.spend n).vout = (c.spend n).vout := Trim.trimmed_trim _
  rw [cleanup, htrim]

end CCoins

namespace CCoinsViewCache

variable {v v' : CCoinsViewCache} {m : UtxoMap} {tx : CTransaction}

def Clean (v : CCoinsViewCache) : Prop := WriteBack.Clean v.cacheCoins v.base

/-- The value of all that a reader finds, and of all that comes back when entries of the
cache are dropped. -/
def potential (v : CCoinsViewCache) : Int :=
  ∑ txid, WriteBack.held weight v.cacheCoins v.base txid

theorem potential_nonneg (v : CCoinsViewCache) : 0 ≤ v.potential :=
  Finset.sum_nonneg fun txid _ => WriteBack.held_nonneg weight_nonneg txid

theorem Represents.potential (h : v.Represents m) : v.potential = m.total := by
  refine Finset.sum_congr rfl fun txid _ => ?_
  rw [WriteBack.held_of_sound weight_blank h.sound, ← weight_of_good (m.good txid), ← h.coins]
  rfl

theorem Fetched.potential (h : Fetched v v') : v'.potential = v.potential := by
  induction h with
  | refl => rfl
  | fetch k _ ih =>
    rw [← ih]
    exact Finset.sum_congr rfl fun j _ => WriteBack.held_fetch weight_blank k j

theorem Fetched.clean (h : Fetched v v') (hv : v.Clean) : v'.Clean := by
  induction h with
  | refl => exact hv
  | fetch k _ ih => exact WriteBack.clean_fetch ih k

theorem Fetched.fee (h : Fetched v v') (tx : CTransaction) : v'.fee tx = v.fee tx := by
  simp only [CCoinsViewCache.fee, CCoinsViewCache.valueIn, CCoinsViewCache.outFor, h.coins]

theorem Clean.modifyCoins (h : v.Clean) (k : Uint256) (f : CCoins → CCoins) :
    (v.modifyCoins k f).Clean := WriteBack.clean_settle _ _ h k _ rfl

theorem available_eq (v : CCoinsViewCache) (txin : CTxIn) :
    v.available txin.prevout = !(v.outFor txin).isNull := isAvailable_eq _ _

section Spend

variable {txin : CTxIn} (ha : v.available txin.prevout = true)
include ha

theorem spendInput_of_available : v.spendInput txin =
    .ok (v.modifyCoins txin.prevout.hash (·.spend txin.prevout.n.toNat),
      (v.coins txin.prevout.hash).undoOf txin.prevout.n.toNat) := by
  unfold spendInput
  rw [modifierCoins_eq, raw_of_not_pruned (not_pruned_of_available ha)]
  exact if_pos ha

theorem potential_spend (hr : moneyRange (v.outFor txin).nValue = true) :
    (v.modifyCoins txin.prevout.hash (·.spend txin.prevout.n.toNat)).potential =
      v.potential - (v.outFor txin).nValue := by
  have hraw := raw_of_not_pruned (not_pruned_of_available ha)
  have hspend : ((v.coins txin.prevout.hash).spend txin.prevout.n.toNat).weight =
      (v.coins txin.prevout.hash).weight - (v.outFor txin).nValue := by
    rw [weight, sum_spend (fun _ => rangeValue_null) ha]
    exact congrArg _ (if_pos hr)
  unfold potential modifyCoins
  simp only [WriteBack.held_modify weight_blank, sum_replace, weight_tidy,
    cleanup_spend, hraw, hspend]
  unfold coins
  omega

/-- The other unspent outputs stay: an entry that has one is not dropped. -/
theorem outFor_spend {t : CTxIn} (hne : t.prevout ≠ txin.prevout)
    (hat : v.available t.prevout = true) :
    (v.modifyCoins txin.prevout.hash (·.spend txin.prevout.n.toNat)).outFor t = v.outFor t := by
  have hcoins := coins_modifyCoins v txin.prevout.hash t.prevout.hash
    (·.spend txin.prevout.n.toNat)
  rw [modifierCoins_eq, raw_of_not_pruned (not_pruned_of_available ha),
    cleanup_spend] at hcoins
  rw [available_eq, Bool.not_eq_true'] at hat
  unfold outFor at hat ⊢
  by_cases hh : t.prevout.hash = txin.prevout.hash
  · have hn : t.prevout.n.toNat ≠ txin.prevout.n.toNat :=
      fun he => hne (COutPoint.ext hh (UInt32.toNat_inj.mp he))
    have hkept : ((v.coins txin.prevout.hash).spend txin.prevout.n.toNat).outAt
        t.prevout.n.toNat = (v.coins t.prevout.hash).outAt t.prevout.n.toNat := by
      rw [hh] at hat ⊢
      rw [outAt_spend (fun hnull => absurd hnull (ne_true_of_eq_false hat)) ha, if_neg hn]
    have hp : ((v.coins txin.prevout.hash).spend txin.prevout.n.toNat).isPruned = false := by
      refine not_pruned_of_available (n := t.prevout.n.toNat) ?_
      rw [isAvailable_eq, hkept, hat, Bool.not_false]
    rw [hcoins fun _ _ hgone => absurd hgone (ne_true_of_eq_false hp), if_pos hh,
      tidy_of_not_pruned hp, hkept]
  · rw [hcoins fun h => absurd h hh, if_neg hh]

end Spend

/-- Different inputs are spent one by one, and each takes its value. -/
theorem spendInputs_potential {vin : List CTxIn} (hv : v.Clean) (hd : (vin.map (·.prevout)).Nodup)
    (ha : ∀ txin ∈ vin, v.available txin.prevout = true)
    (hr : ∀ txin ∈ vin, moneyRange (v.outFor txin).nValue = true) :
    ∃ v' undo, v.spendInputs vin = .ok (v', undo) ∧ v'.Clean ∧
      v'.potential = v.potential - v.valueIn vin := by
  induction vin generalizing v with
  | nil => exact ⟨v, [], rfl, hv, by simp [CCoinsViewCache.valueIn]⟩
  | cons txin vin ih =>
    rw [List.map_cons, List.nodup_cons] at hd
    rw [List.forall_mem_cons] at ha hr
    have hout (t : CTxIn) (ht : t ∈ vin) := outFor_spend ha.1
      (fun he => hd.1 (he ▸ List.mem_map_of_mem ht)) (ha.2 t ht)
    obtain ⟨v', undo, ho, hv', hpot⟩ := ih (hv.modifyCoins _ _) hd.2
      (fun t ht => by rw [available_eq, hout t ht, ← available_eq]; exact ha.2 t ht)
      (fun t ht => by rw [hout t ht]; exact hr.2 t ht)
    refine ⟨v', _, bind_ok_iff.mpr ⟨_, spendInput_of_available ha.1,
      bind_ok_iff.mpr ⟨_, ho, rfl⟩⟩, hv', ?_⟩
    rw [hpot, potential_spend ha.1 hr.1, CCoinsViewCache.valueIn, CCoinsViewCache.valueIn,
      List.map_congr_left fun t ht => by rw [hout t ht], List.map_cons, List.sum_cons]
    omega

/-- New outputs add at most their values, also where they hide others. -/
theorem modifyNewCoins_potential {txid : Uint256} {nHeight : Int} (hv : v.Clean)
    (hr : OutputsInRange tx) (hh : 0 < nHeight)
    (ho : v.modifyNewCoins txid tx.isCoinBase (.fromTx tx nHeight) = some v') :
    v'.Clean ∧ v'.potential ≤ v.potential + tx.valueOut := by
  have hgood := good_fromTx hr hh
  have hle : (fromTx tx nHeight).value ≤ tx.valueOut := value_fromTx_le hr
  obtain ⟨es, hes, rfl⟩ := Option.map_eq_some_iff.mp ho
  rw [cleanup_of_good hgood] at hes
  refine ⟨WriteBack.clean_renew hv hes, ?_⟩
  have hsum := Finset.sum_le_sum (s := Finset.univ) fun j _ =>
    WriteBack.held_renew_le weight_blank weight_nonneg hv hes j
  rw [sum_replace, weight_tidy, weight_of_good hgood] at hsum
  refine Int.le_trans hsum ?_
  unfold potential
  omega

/-- What a transaction adds to the coins from nothing. -/
def minted (tx : CTransaction) : Int := if tx.isCoinBase then tx.valueOut else 0

theorem updateCoins_potential {H : Hashes} {nHeight : Int} {undo : CTxUndo} {net : Network}
    (hv : v.Clean) (hc : tx.Checked) (hh : 0 < nHeight)
    (hs : tx.isCoinBase = false → v.Spends net nHeight tx)
    (ho : updateCoins H tx v nHeight = .ok (v', undo)) :
    v'.Clean ∧ v'.potential + v.fee tx ≤ v.potential + minted tx := by
  obtain ⟨⟨v1, u⟩, h1, ho⟩ := bind_ok ho
  simp only at ho
  split at ho
  · cases ho
  · rename_i v2 h2
    cases ho
    rw [CCoinsViewCache.fee, minted]
    unfold spendTx at h1
    split at h1
    · rename_i hcb
      cases h1
      obtain ⟨hv2, hle⟩ := modifyNewCoins_potential hv hc.range hh h2
      exact ⟨hv2, by rw [if_pos hcb, if_pos hcb]; omega⟩
    · rename_i hcb
      have hspends := hs (Bool.not_eq_true _ ▸ hcb)
      obtain ⟨_, _, hspent, hv1, heq⟩ :=
        spendInputs_potential hv hc.distinct hspends.available hspends.range
      cases hspent.symm.trans h1
      obtain ⟨hv2, hle⟩ := modifyNewCoins_potential hv1 hc.range hh h2
      exact ⟨hv2, by rw [if_neg hcb, if_neg hcb]; omega⟩

end CCoinsViewCache

/-! ## The fees of a block -/

namespace ConnectContext

variable (ctx : ConnectContext)

/-- What a transaction does to the view. -/
def applyTx (tx : CTransaction) (view : CCoinsViewCache) : Check (CCoinsViewCache × CTxUndo) := do
  let view ← ctx.checkAvailable tx view
  updateCoins ctx.env.H tx view ctx.height

/-- The fees of some transactions, one by one and without a cut. -/
def feesOf : CCoinsViewCache → List CTransaction → List Int
  | _, [] => []
  | view, tx :: vtx =>
    view.fee tx :: (match ctx.applyTx tx view with
      | .ok (view, _) => feesOf view vtx
      | .error _ => [])

variable {ctx} {v v' : CCoinsViewCache} {nFees nFees' cost cost' : Int} {vtx : List CTransaction}

/-- What the fees gain the coins lose, and nothing is cut when there is room for it. -/
theorem connectTx_potential {tx : CTransaction} {undo : CTxUndo} (hv : v.Clean) (hc : tx.Checked)
    (hh : 0 < ctx.height) (hlow : -2 ^ 63 ≤ nFees)
    (ho : ctx.connectTx tx v nFees cost = .ok (v', undo, nFees', cost')) :
    ctx.applyTx tx v = .ok (v', undo) ∧ v'.Clean ∧ 0 ≤ v.fee tx ∧ -2 ^ 63 ≤ nFees' ∧
      nFees' + v'.potential ≤ nFees + v.potential + minted tx ∧
      (nFees + v.potential + minted tx < 2 ^ 63 → nFees' = nFees + v.fee tx) := by
  obtain ⟨v1, h1, ho⟩ := bind_ok ho
  obtain ⟨_, _, ho⟩ := bind_ok ho
  obtain ⟨fees, hf, ho⟩ := bind_ok ho
  obtain ⟨⟨v2, u⟩, h2, ho⟩ := bind_ok ho
  cases ho
  have hv1 := checkAvailable_spec h1
  obtain ⟨hspend, hfees⟩ := addFees_spec hc hf
  obtain ⟨hv2, hpot⟩ := updateCoins_potential (hv1.clean hv) hc hh hspend h2
  rw [hv1.fee] at hfees hpot
  rw [hv1.potential] at hpot
  have hnonneg := potential_nonneg v'
  refine ⟨bind_ok_iff.mpr ⟨v1, h1, h2⟩, hv2, ?_⟩
  rcases hcb : tx.isCoinBase with _ | _
  · have hfee : 0 ≤ v.fee tx := hv1.fee tx ▸ ((moneyRange_iff _).mp (hspend hcb).fee).1
    rw [hcb, if_neg Bool.false_ne_true] at hfees
    have hcut := int64_le (n := nFees + v.fee tx) (by omega)
    exact ⟨hfee, hfees ▸ int64_ge _, by omega,
      fun hroom => hfees.trans (int64_of_fits (by omega) (by omega))⟩
  · rw [hcb, if_pos rfl] at hfees
    rw [CCoinsViewCache.fee, if_pos hcb] at hpot ⊢
    exact ⟨Int.le_refl 0, by omega, by omega, fun _ => by omega⟩

theorem sum_minted_nonneg (hc : ∀ tx ∈ vtx, tx.Checked) : 0 ≤ (vtx.map minted).sum := by
  refine List.sum_nonneg fun n hn => ?_
  obtain ⟨t, ht, rfl⟩ := List.mem_map.mp hn
  unfold minted
  split
  · exact ((moneyRange_iff _).mp (hc t ht).total).1
  · exact Int.le_refl 0

theorem connectTxs_potential {undo : List CTxUndo} (hv : v.Clean) (hc : ∀ tx ∈ vtx, tx.Checked)
    (hh : 0 < ctx.height) (hlow : -2 ^ 63 ≤ nFees)
    (ho : ctx.connectTxs vtx v nFees cost = .ok (v', undo, nFees')) :
    -2 ^ 63 ≤ nFees' ∧ nFees' + v'.potential ≤ nFees + v.potential + (vtx.map minted).sum ∧
      (∀ fee ∈ ctx.feesOf v vtx, 0 ≤ fee) ∧
      (nFees + v.potential + (vtx.map minted).sum < 2 ^ 63 →
        nFees' = nFees + (ctx.feesOf v vtx).sum) := by
  induction vtx generalizing v nFees cost undo with
  | nil =>
    cases ho
    exact ⟨hlow, by simp, by simp [feesOf], by simp [feesOf]⟩
  | cons tx vtx ih =>
    obtain ⟨⟨v1, u, f1, c1⟩, h1, ho⟩ := bind_ok ho
    obtain ⟨⟨v2, rest, f2⟩, h2, ho⟩ := bind_ok ho
    cases ho
    rw [List.forall_mem_cons] at hc
    have hrest := sum_minted_nonneg hc.2
    obtain ⟨happly, hv1, hfee, hlow1, hle1, hexact⟩ := connectTx_potential hv hc.1 hh hlow h1
    obtain ⟨hlow2, hle2, hall, hsum⟩ := ih hv1 hc.2 hlow1 h2
    rw [feesOf, happly, List.forall_mem_cons, List.map_cons, List.sum_cons, List.sum_cons]
    exact ⟨hlow2, by omega, ⟨hfee, hall⟩, fun hroom => by
      rw [hsum (by omega), hexact (by omega), Int.add_assoc]⟩

end ConnectContext

/-! ## One block, and a run of blocks -/

/-- The subsidy of the block `pindex`, without fees. -/
def subsidyAt (env : Env) (pindex : BlockIndex) : Int :=
  getJunkcoinBlockSubsidy env.mtRandom (nHeight pindex) 0 (consensusAfter env.net pindex.tail)

theorem sum_minted {block : CBlock} {coinbase : CTransaction} {rest : List CTransaction}
    (hb : block.Checked coinbase rest) : (block.vtx.map minted).sum = coinbase.valueOut := by
  have hrest : ∀ n ∈ rest.map minted, n = 0 := by
    intro n hn
    obtain ⟨tx, htx, rfl⟩ := List.mem_map.mp hn
    rw [minted, hb.others tx htx, if_neg Bool.false_ne_true]
  rw [hb.vtx, List.map_cons, List.sum_cons, List.sum_eq_zero hrest, minted, if_pos hb.first,
    Int.add_zero]

/-- A block that is connected adds at most its subsidy. -/
theorem connectBlock_potential {env : Env} {v v' : CCoinsViewCache} {block : CBlock}
    {pindex : BlockIndex} {undo : Option CBlockUndo} (hv : v.Clean) (ht : block.Truthful env)
    (ho : connectBlock env block pindex v false = .ok (v', undo)) :
    v'.potential ≤ v.potential + subsidyAt env pindex := by
  obtain ⟨_, hcheck, ho⟩ := bind_ok ho
  obtain ⟨_, _, ho⟩ := bind_ok ho
  obtain ⟨coinbase, rest, hb⟩ := recheckBlock_ok ht hcheck
  split at ho
  · cases ho
    have hsubsidy := baseSubsidy_bounds (env.mtRandom (nHeight pindex)) (nHeight pindex)
      (consensusAfter env.net pindex.tail)
    have hsame : (v.setBestBlock (blockHash env.H pindex)).potential = v.potential := rfl
    rw [if_neg Bool.false_ne_true, hsame, subsidyAt, getJunkcoinBlockSubsidy_zero]
    omega
  · obtain ⟨⟨v1, blockundo⟩, h1, ho⟩ := bind_ok ho
    cases ho
    obtain ⟨_, hprev, h1⟩ := bind_ok h1
    obtain ⟨view, hview, h1⟩ := bind_ok h1
    obtain ⟨⟨v2, undos, nFees⟩, hloop, h1⟩ := bind_ok h1
    obtain ⟨_, hreward, h1⟩ := bind_ok h1
    cases h1
    have hfetched := (enforceBIP30_spec hview).2
    obtain ⟨hlow, hle, -⟩ := ConnectContext.connectTxs_potential (hfetched.clean hv) hb.checked
      (nHeight_pos_of_prev hprev) (by decide) hloop
    have hpaid := checkReward_spec hb hlow (Int.le_refl _) hreward
    rw [hfetched.potential, sum_minted hb] at hle
    change v1.potential ≤ _
    unfold subsidyAt
    omega

theorem ConnectRun.potential_le {env : Env} {v : CCoinsViewCache} {indexes : List BlockIndex}
    (h : ConnectRun env v indexes) : v.potential ≤ (indexes.map (subsidyAt env)).sum := by
  induction h with
  | genesis => exact Int.le_of_eq (Finset.sum_eq_zero fun _ _ => rfl)
  | connect hrun ht ho ih =>
    obtain ⟨-, m, hr, -⟩ := hrun.refines
    have hblock := connectBlock_potential hr.sound.clean_eq ht ho
    rw [List.map_cons, List.sum_cons]
    omega

/-! ## The law -/

/-- The value of all outputs that a reader of the view finds available. -/
def CCoinsViewCache.total (v : CCoinsViewCache) : Int := ∑ txid, (v.coins txid).value

theorem CCoinsViewCache.Represents.total {v : CCoinsViewCache} {m : UtxoMap}
    (h : v.Represents m) : v.total = v.potential := by
  rw [h.potential]
  exact Finset.sum_congr rfl fun txid _ => by rw [h.coins]

/-- After any run of `ConnectBlock` from the empty view, the outputs that are
available are worth at most the subsidies of the connected heights. -/
theorem no_inflation (env : Env) (v : CCoinsViewCache) (indexes : List BlockIndex)
    (h : ConnectRun env v indexes) :
    v.total ≤ (indexes.map fun pindex => getJunkcoinBlockSubsidy env.mtRandom (nHeight pindex) 0
      (consensusAfter env.net pindex.tail)).sum := by
  obtain ⟨-, m, hr, -⟩ := h.refines
  rw [hr.total]
  exact h.potential_le

/-- The second of two equal coinbases overwrites the first, and what is left
is within the two subsidies. -/
theorem no_inflation_sample :
    ∃ v, ConnectRun sampleEnv v [repeatedIndex 2, repeatedIndex 1] ∧ v.total ≤ 2000 * COIN := by
  obtain ⟨v1, v2, undo1, undo2, h1, h2, -⟩ := repeated_connects
  have hrun : ConnectRun sampleEnv v2 [repeatedIndex 2, repeatedIndex 1] :=
    (ConnectRun.genesis.connect (sampleBlock_truthful _ _) h1).connect (sampleBlock_truthful _ _) h2
  exact ⟨v2, hrun, Int.le_trans (no_inflation sampleEnv v2 _ hrun) (by decide +kernel)⟩

/-! ## Reorganisations -/

/-- A connected block and its undo data. -/
structure Linked where
  block : CBlock
  pindex : BlockIndex
  undo : CBlockUndo

/-- The blocks of a chain and their places, without the undo data. -/
def blocksOf (chain : List Linked) : List (CBlock × BlockIndex) :=
  chain.map fun tip => (tip.block, tip.pindex)

/-- The views that calls of `ConnectBlock`, and of `DisconnectBlock` for the
last block, lead to. No block repeats a transaction with unspent outputs. -/
inductive ReorgRun (env : Env) : CCoinsViewCache → List Linked → Prop
  | genesis : ReorgRun env (genesisView env) []
  | connect {v v' : CCoinsViewCache} {chain : List Linked} {tip : Linked} :
      ReorgRun env v chain → tip.block.Truthful env →
      (∀ tx ∈ tip.block.vtx, (v.coins (tx.getHash env.H)).isPruned = true) →
      connectBlock env tip.block tip.pindex v false = .ok (v', some tip.undo) →
      ReorgRun env v' (tip :: chain)
  | disconnect {v v' : CCoinsViewCache} {chain : List Linked} {tip : Linked} {fClean : Bool} :
      ReorgRun env v (tip :: chain) →
      disconnectBlock env tip.block tip.pindex (some tip.undo) v = .ok (v', fClean) →
      ReorgRun env v' chain

/-- The map that the blocks of a chain lead to. No block adds more than its
subsidy. -/
inductive ChainMap (env : Env) : List Linked → UtxoMap → Prop
  | genesis : ChainMap env [] .empty
  | block {chain : List Linked} {m m' : UtxoMap} {tip : Linked} :
      ChainMap env chain m → BlockConnected env tip.block tip.pindex m m' tip.undo →
      (∀ tx ∈ tip.block.vtx, m.coins (tx.getHash env.H) = .empty) →
      m'.total ≤ m.total + subsidyAt env tip.pindex → ChainMap env (tip :: chain) m'

variable {env : Env} {v : CCoinsViewCache} {chain chain' : List Linked} {m m' : UtxoMap}

/-- The blocks alone decide the map. -/
theorem ChainMap.unique (h : ChainMap env chain m) (h' : ChainMap env chain' m')
    (hsame : blocksOf chain = blocksOf chain') : m = m' := by
  induction h generalizing chain' m' with
  | genesis =>
    cases h' with
    | genesis => rfl
    | block _ _ _ _ => cases hsame
  | block _ hconn _ _ ih =>
    cases h' with
    | genesis => cases hsame
    | block hm' hconn' =>
      unfold blocksOf at hsame
      simp only [List.map_cons, List.cons.injEq, Prod.mk.injEq] at hsame
      obtain ⟨⟨hblock, hpindex⟩, hrest⟩ := hsame
      cases ih hm' hrest
      obtain ⟨_, _, _, -, hrun, -⟩ := hconn.run
      obtain ⟨_, _, _, -, hrun', -⟩ := hconn'.run
      rw [← hblock, ← hpindex] at hrun'
      have hmaps := hrun.applyTxs.symm.trans hrun'.applyTxs
      rw [Option.some.injEq, Prod.mk.injEq] at hmaps
      exact hmaps.1

theorem ChainMap.total_le (h : ChainMap env chain m) :
    m.total ≤ ((chain.map (·.pindex)).map (subsidyAt env)).sum := by
  induction h with
  | genesis => exact Int.le_of_eq (Finset.sum_eq_zero fun _ _ => rfl)
  | block _ _ _ hadds ih =>
    rw [List.map_cons, List.map_cons, List.sum_cons]
    omega

theorem ReorgRun.chainMap (h : ReorgRun env v chain) :
    v.base = (fun _ => none) ∧ ∃ m, v.Represents m ∧ ChainMap env chain m := by
  induction h with
  | genesis => exact ⟨rfl, .empty, CCoinsViewCache.represents_of_base fun _ => rfl, .genesis⟩
  | connect _ ht hfree ho ih =>
    obtain ⟨hbase, m, hr, hmap⟩ := ih
    obtain ⟨-, -, hf, ⟨-, hnone, -⟩ | ⟨-, m', _, hundo, hconn, hr'⟩⟩ :=
      connectBlock_spec hr ht (fun _ _ _ => knowsTx_of_no_base hbase _) ho
    · cases hnone
    · cases hundo
      have hadds := connectBlock_potential hr.sound.clean_eq ht ho
      rw [hr.potential, hr'.potential] at hadds
      refine ⟨hf.base.trans hbase, m', hr', .block hmap hconn (fun tx htx => ?_) hadds⟩
      have hp := hfree tx htx
      rw [hr.coins] at hp
      rw [← m.normal]
      exact WriteBack.tidy_of_gone hp
  | disconnect _ ho ih =>
    obtain ⟨hbase, m, hr, hmap⟩ := ih
    -- `DisconnectBlock` asserts that the view is at the block
    obtain ⟨_, hbest, -⟩ := bind_ok ho
    rw [assert_ok, beq_iff_eq] at hbest
    cases hmap with
    | block hmap hconn hfree _ =>
      obtain ⟨v', hd, hr', -, hf⟩ := disconnectBlock_spec hconn hfree hr hbest.symm
      cases ho.symm.trans hd
      exact ⟨hf.base.trans hbase, _, hr', hmap⟩

/-- A block is connected with the view `v`, disconnected, and connected again
with the view `w`. -/
def Reconnected (env : Env) (block : CBlock) (pindex : BlockIndex) (v w : CCoinsViewCache)
    (undo undo' : CBlockUndo) : Prop :=
  connectBlock env block pindex (genesisView env) false = .ok (v, some undo) ∧
  ∃ v' fClean, disconnectBlock env block pindex (some undo) v = .ok (v', fClean) ∧
    connectBlock env block pindex v' false = .ok (w, some undo')

theorem reorgRun_sample : ∃ v w undo undo',
    Reconnected sampleEnv (repeatedBlock 0) (repeatedIndex 1) v w undo undo' ∧
    ReorgRun sampleEnv v [⟨repeatedBlock 0, repeatedIndex 1, undo⟩] ∧
    ReorgRun sampleEnv w [⟨repeatedBlock 0, repeatedIndex 1, undo'⟩] := by
  have hok : okWith (connectBlock sampleEnv (repeatedBlock 0) (repeatedIndex 1)
      (genesisView sampleEnv) false) (fun r => r.2.isSome && okWith (disconnectBlock sampleEnv
        (repeatedBlock 0) (repeatedIndex 1) r.2 r.1) fun d =>
          (repeatedBlock 0).vtx.all (fun tx => (d.1.coins (tx.getHash sampleEnv.H)).isPruned) &&
          okWith (connectBlock sampleEnv (repeatedBlock 0) (repeatedIndex 1) d.1 false)
            fun r => r.2.isSome) = true := by decide +kernel
  obtain ⟨⟨v, undo⟩, h, hok⟩ := of_okWith hok
  obtain ⟨hsome, hok⟩ := Bool.and_eq_true_iff.mp hok
  obtain ⟨undo, rfl⟩ := Option.isSome_iff_exists.mp hsome
  obtain ⟨⟨v', fClean⟩, hd, hok⟩ := of_okWith hok
  obtain ⟨hfree, hok⟩ := Bool.and_eq_true_iff.mp hok
  obtain ⟨⟨w, undo'⟩, hw, hsome⟩ := of_okWith hok
  obtain ⟨undo', rfl⟩ := Option.isSome_iff_exists.mp hsome
  have hrun : ReorgRun sampleEnv v [⟨repeatedBlock 0, repeatedIndex 1, undo⟩] :=
    .connect .genesis (sampleBlock_truthful _ _) (fun _ _ => rfl) h
  exact ⟨v, w, undo, undo', ⟨h, v', fClean, hd, hw⟩, hrun,
    .connect (hrun.disconnect hd) (sampleBlock_truthful _ _) (List.all_eq_true.mp hfree) hw⟩

/-- The coins are worth at most the subsidies of the blocks that are left. -/
theorem no_inflation_across_reorgs (env : Env) (v : CCoinsViewCache) (chain : List Linked)
    (h : ReorgRun env v chain) :
    v.total ≤ ((chain.map (·.pindex)).map (subsidyAt env)).sum := by
  obtain ⟨-, m, hr, hm⟩ := h.chainMap
  rw [hr.total, hr.potential]
  exact hm.total_le

/-- The block that was connected twice brings one subsidy. -/
theorem no_inflation_across_reorgs_sample : ∃ v w undo undo',
    Reconnected sampleEnv (repeatedBlock 0) (repeatedIndex 1) v w undo undo' ∧
    w.total ≤ subsidyAt sampleEnv (repeatedIndex 1) := by
  obtain ⟨v, w, undo, undo', h, -, hrun'⟩ := reorgRun_sample
  refine ⟨v, w, undo, undo', h, ?_⟩
  have htotal := no_inflation_across_reorgs _ w _ hrun'
  simpa only [List.map_cons, List.map_nil, List.sum_cons, List.sum_nil, Int.add_zero] using htotal

end junkcoin
