-- How a transaction changes a coins view and how the change is taken back
-- (`UpdateCoins`, `ApplyTxInUndo` and the loops of `DisconnectBlock`). A view
-- represents a map of unspent outputs, and each function does to the view
-- what its counterpart does to the map.
import Junkcoin.Utxo

namespace junkcoin

open WriteBack CCoins

namespace CCoinsViewCache

variable (v : CCoinsViewCache)

/-! ## The functions -/

/-- The coins that a modifier of `txid` starts from. -/
def modifierCoins (txid : Uint256) : CCoins :=
  (entryFor v.cacheCoins v.base txid).val

/-- The body of the loop over the inputs in `UpdateCoins`. -/
def spendInput (txin : CTxIn) : Check (CCoinsViewCache × CTxInUndo) :=
  let coins := v.modifierCoins txin.prevout.hash
  let nPos := txin.prevout.n.toNat
  if coins.isAvailable nPos then
    .ok (v.modifyCoins txin.prevout.hash (·.spend nPos), coins.undoOf nPos)
  else .error (.crash "assert(false)")

def spendInputs : CCoinsViewCache → List CTxIn → Check (CCoinsViewCache × CTxUndo)
  | v, [] => .ok (v, [])
  | v, txin :: vin => do
    let (v, undo) ← v.spendInput txin
    let (v, rest) ← spendInputs v vin
    .ok (v, undo :: rest)

/-- Mark the inputs of a transaction spent; a coinbase has none. -/
def spendTx (tx : CTransaction) : Check (CCoinsViewCache × CTxUndo) :=
  if tx.isCoinBase then .ok (v, []) else v.spendInputs tx.vin

/-- `UpdateCoins`. -/
def updateCoins (H : Hashes) (tx : CTransaction) (inputs : CCoinsViewCache) (nHeight : Int) :
    Check (CCoinsViewCache × CTxUndo) := do
  let (inputs, txundo) ← inputs.spendTx tx
  match inputs.modifyNewCoins (tx.getHash H) tx.isCoinBase (.fromTx tx nHeight) with
  | none => .error (.crash "ModifyNewCoins should not find pre-existing coins on a non-coinbase unless they are pruned!")
  | some inputs => .ok (inputs, txundo)

/-- `ApplyTxInUndo`. -/
def applyTxInUndo (undo : CTxInUndo) (view : CCoinsViewCache) (out : COutPoint) :
    CCoinsViewCache × Bool :=
  let coins := view.modifierCoins out.hash
  (view.modifyCoins out.hash fun c => (c.applyUndo undo out.n.toNat).1,
    (coins.applyUndo undo out.n.toNat).2)

/-- The loop over the inputs in `DisconnectBlock`, from the last one. -/
def restoreInputs (view : CCoinsViewCache) : List CTxIn → CTxUndo → CCoinsViewCache × Bool
  | txin :: vin, undo :: vprevout =>
    let (view, fClean) := restoreInputs view vin vprevout
    let (view, clean) := applyTxInUndo undo view txin.prevout
    (view, fClean && clean)
  | _, _ => (view, true)

/-- The first half of the body of the loop in `DisconnectBlock`: compare the
outputs with those in the block, and remove them. -/
def removeOutputs (H : Hashes) (view : CCoinsViewCache) (tx : CTransaction) (nHeight : Int) :
    CCoinsViewCache × Bool :=
  let outs := (view.modifierCoins (tx.getHash H)).clearUnspendable
  let outsBlock := fromTx tx nHeight
  let outs := if outsBlock.nVersion.toInt < 0 then { outs with nVersion := outsBlock.nVersion }
    else outs
  (view.modifyCoins (tx.getHash H) fun _ => .empty, outs.sameAs outsBlock)

/-- The loop of `DisconnectBlock` over the transactions after the coinbase,
from the last one. -/
def disconnectTxs (H : Hashes) (nHeight : Int) (view : CCoinsViewCache) :
    List CTransaction → List CTxUndo → Check (CCoinsViewCache × Bool)
  | tx :: vtx, txundo :: vtxundo => do
    let (view, fClean) ← disconnectTxs H nHeight view vtx vtxundo
    let (view, same) := removeOutputs H view tx nHeight
    errorIf (txundo.length != tx.vin.length)
      "DisconnectBlock(): transaction and undo data inconsistent"
    let (view, clean) := restoreInputs view tx.vin txundo
    .ok (view, fClean && same && clean)
  | _, _ => .ok (view, true)

/-! ## A view represents a map -/

/-- The cache is sound, and its reader sees the map `m`. -/
structure Represents (v : CCoinsViewCache) (m : UtxoMap) : Prop where
  sound : Sound v.cacheCoins v.base
  coins : ∀ txid, v.coins txid = m.coins txid

/-- Nothing unspent under `txid` is hidden in the view below. -/
def KnowsTx (txid : Uint256) : Prop := Knows v.cacheCoins v.base txid

section Represents

variable {v v' : CCoinsViewCache} {m m' : UtxoMap} {c : CCoins} {undo : CTxUndo} {vin : List CTxIn}
  {tx : CTransaction} {H : Hashes} {nHeight : Int}

theorem Represents.fetchCoins (h : v.Represents m) (k : Uint256) :
    (v.fetchCoins k).Represents m :=
  ⟨sound_fetch h.sound k, fun j => by rw [coins_fetchCoins, h.coins]⟩

theorem Represents.setBestBlock (h : v.Represents m) (b : Uint256) :
    (v.setBestBlock b).Represents m := ⟨h.sound, h.coins⟩

/-- An empty cache stands for what is below it. -/
theorem represents_of_base {base : Uint256 → Option CCoins} {best : Uint256}
    (h : ∀ txid, tidy ((base txid).getD .empty) = m.coins txid) :
    Represents ⟨base, best, ∅, 0⟩ m := by
  refine ⟨sound_empty _, fun txid => ?_⟩
  rw [← h txid, CCoinsViewCache.coins, content, raw_of_lookup_none _ _ (AList.lookup_empty _)]
  rfl

theorem modifierCoins_eq (v : CCoinsViewCache) (k : Uint256) :
    v.modifierCoins k = raw v.cacheCoins v.base k := entryFor_val _ _ k

/-- What a reader sees after a change, when a dropped entry has nothing
below it. -/
theorem coins_modifyCoins (v : CCoinsViewCache) (k j : Uint256) (f : CCoins → CCoins)
    (h : j = k → (entryFor v.cacheCoins v.base k).fresh = true →
      (f (v.modifierCoins k)).cleanup.isPruned = true →
      ((v.base k).getD .empty).isPruned = true) :
    (v.modifyCoins k f).coins j =
      if j = k then tidy (f (v.modifierCoins k)).cleanup else v.coins j := by
  rw [modifierCoins_eq] at h ⊢
  exact content_modify k j _ h

/-- The modifier starts from what a reader sees, when there is anything. -/
theorem Represents.modifierCoins (h : v.Represents m) {k : Uint256}
    (hp : (m.coins k).isPruned = false) : v.modifierCoins k = m.coins k := by
  rw [← h.coins] at hp ⊢
  rw [modifierCoins_eq, raw_of_not_pruned hp]

theorem Represents.tidy_modifierCoins (h : v.Represents m) (k : Uint256) :
    tidy (v.modifierCoins k) = m.coins k := by
  rw [modifierCoins_eq, ← h.coins]
  rfl

/-- A change through a modifier replaces one entry of the map. -/
theorem Represents.modifyCoins (h : v.Represents m) (k : Uint256) (f : CCoins → CCoins)
    (hc : c.Good) (hf : tidy (f (v.modifierCoins k)).cleanup = tidy c) :
    (v.modifyCoins k f).Represents (m.put k c hc) := by
  refine ⟨sound_modify h.sound k fun c => (f c).cleanup, fun j => ?_⟩
  rw [UtxoMap.coins_put, ← h.coins j, ← hf]
  exact coins_modifyCoins v k j f fun _ hf _ => entryFor_fresh _ _ h.sound k hf

theorem KnowsTx.modifyCoins (h : v.Represents m) {j : Uint256} (hj : v.KnowsTx j) (k : Uint256)
    (f : CCoins → CCoins) : (v.modifyCoins k f).KnowsTx j :=
  knows_modify h.sound hj k _

theorem KnowsTx.fetchCoins {j : Uint256} (hj : v.KnowsTx j) (k : Uint256) :
    (v.fetchCoins k).KnowsTx j := knows_fetch hj k

theorem cleanup_of_good (h : c.Good) : c.cleanup = c := by
  unfold cleanup
  rw [h.trimmed]

/-- A later state of the same cache: it stands on the same view, and what it
knew it still knows. -/
structure Follows (v v' : CCoinsViewCache) : Prop where
  base : v'.base = v.base
  baseBestBlock : v'.baseBestBlock = v.baseBestBlock
  knows : ∀ txid, v.KnowsTx txid → v'.KnowsTx txid

theorem Follows.refl (v : CCoinsViewCache) : Follows v v := ⟨rfl, rfl, fun _ h => h⟩

theorem Follows.trans {v1 v2 v3 : CCoinsViewCache} (h1 : Follows v1 v2) (h2 : Follows v2 v3) :
    Follows v1 v3 :=
  ⟨h2.base.trans h1.base, h2.baseBestBlock.trans h1.baseBestBlock,
    fun k hk => h2.knows k (h1.knows k hk)⟩

theorem follows_modifyCoins (h : v.Represents m) (k : Uint256) (f : CCoins → CCoins) :
    Follows v (v.modifyCoins k f) := ⟨rfl, rfl, fun _ hj => hj.modifyCoins h k f⟩

theorem follows_fetchCoins (k : Uint256) : Follows v (v.fetchCoins k) :=
  ⟨rfl, rfl, fun _ hj => hj.fetchCoins k⟩

theorem follows_setBestBlock (b : Uint256) : Follows v (v.setBestBlock b) :=
  ⟨rfl, rfl, fun _ hj => hj⟩

/-- An id without unspent outputs hides nothing. -/
theorem knowsTx_of_empty {txid : Uint256} (h : v.coins txid = .empty) : v.KnowsTx txid := by
  intro hl
  have hg : Vacant.gone (tidy (raw v.cacheCoins v.base txid)) = true := by
    rw [show tidy (raw v.cacheCoins v.base txid) = empty from h]
    rfl
  rwa [gone_tidy, raw_of_lookup_none _ _ hl] at hg

/-! ## Connecting a transaction -/

/-- An input is spent from the coins that a reader finds. -/
theorem spendInput_ok {txin : CTxIn} {undo : CTxInUndo} (ho : v.spendInput txin = .ok (v', undo)) :
    (v.coins txin.prevout.hash).isAvailable txin.prevout.n.toNat = true ∧
      v' = v.modifyCoins txin.prevout.hash (·.spend txin.prevout.n.toNat) ∧
      undo = (v.coins txin.prevout.hash).undoOf txin.prevout.n.toNat := by
  unfold spendInput at ho
  simp only [modifierCoins_eq] at ho
  split at ho
  · rename_i ha
    cases ho
    have hp : (v.coins txin.prevout.hash).isPruned = false := by
      rw [coins, content, isPruned_tidy]
      exact not_pruned_of_available ha
    rw [raw_of_not_pruned hp] at ha ⊢
    exact ⟨ha, rfl, rfl⟩
  · cases ho

theorem spendInput_refines (h : v.Represents m) {txin : CTxIn} {undo : CTxInUndo}
    (ho : v.spendInput txin = .ok (v', undo)) :
    m.available txin.prevout = true ∧ undo = m.undoFor txin.prevout ∧
      v'.Represents (m.spendOutput txin.prevout) ∧ Follows v v' := by
  obtain ⟨ha, rfl, rfl⟩ := spendInput_ok ho
  rw [h.coins] at ha ⊢
  have heq := h.modifierCoins (not_pruned_of_available ha)
  refine ⟨ha, rfl, ?_, follows_modifyCoins h _ _⟩
  refine h.modifyCoins _ _ (good_spend (m.good _)) ?_
  rw [heq, cleanup_of_good (good_spend (m.good _))]

theorem spendInputs_refines (h : v.Represents m) (ho : v.spendInputs vin = .ok (v', undo)) :
    ∃ m', m.spendInputs vin = some (m', undo) ∧ v'.Represents m' ∧ Follows v v' := by
  induction vin generalizing v m undo with
  | nil =>
    cases ho
    exact ⟨m, rfl, h, Follows.refl _⟩
  | cons txin vin ih =>
    obtain ⟨⟨v1, u⟩, h1, ho⟩ := bind_ok ho
    obtain ⟨⟨v2, rest⟩, h2, ho⟩ := bind_ok ho
    cases ho
    obtain ⟨ha, rfl, hr1, hf1⟩ := spendInput_refines h h1
    obtain ⟨m', hm', hr2, hf2⟩ := ih hr1 h2
    refine ⟨m', ?_, hr2, hf1.trans hf2⟩
    rw [UtxoMap.spendInputs, if_pos ha, hm']
    rfl

theorem spendTx_refines (h : v.Represents m) (ho : v.spendTx tx = .ok (v', undo)) :
    ∃ m', m.spendTx tx = some (m', undo) ∧ v'.Represents m' ∧ Follows v v' := by
  unfold spendTx at ho
  unfold UtxoMap.spendTx
  split at ho
  · rename_i hcb
    cases ho
    exact ⟨m, by rw [if_pos hcb], h, Follows.refl _⟩
  · rename_i hcb
    rw [if_neg hcb]
    exact spendInputs_refines h ho

/-- The outputs of a new transaction, when the cache knows of everything
unspent under its id. -/
theorem modifyNewCoins_refines (h : v.Represents m) (hr : ∀ o ∈ tx.vout, moneyRange o.nValue = true)
    (hh : 0 < nHeight) (hk : tx.isCoinBase = false → v.KnowsTx (tx.getHash H))
    (ho : v.modifyNewCoins (tx.getHash H) tx.isCoinBase (.fromTx tx nHeight) = some v') :
    ∃ m', m.addOutputs H tx nHeight = some m' ∧ v'.Represents m' ∧ Follows v v' := by
  unfold modifyNewCoins at ho
  rw [Option.map_eq_some_iff] at ho
  obtain ⟨es, hes, rfl⟩ := ho
  have hgood := good_fromTx hr hh
  rw [cleanup_of_good hgood] at hes
  obtain ⟨hs, hc, hkn⟩ := content_renew h.sound hk hes
  have hfree : (!tx.isCoinBase && !(m.coins (tx.getHash H)).isPruned) = false := by
    rcases hcb : tx.isCoinBase with _ | _
    · rw [hcb] at hes
      have he : v.coins (tx.getHash H) = .empty := renew_gone (hk hcb) hes
      rw [← h.coins, he]
      rfl
    · rfl
  refine ⟨m.put (tx.getHash H) _ hgood, ?_, ⟨hs, fun j => ?_⟩, ⟨rfl, rfl, hkn⟩⟩
  · unfold UtxoMap.addOutputs
    rw [dif_pos ⟨hr, hh⟩, hfree]
    rfl
  · rw [UtxoMap.coins_put, ← h.coins j]
    exact hc j

/-- `UpdateCoins` does to the view what the transaction does to the map. -/
theorem updateCoins_refines (h : v.Represents m) (hr : ∀ o ∈ tx.vout, moneyRange o.nValue = true)
    (hh : 0 < nHeight) (hk : tx.isCoinBase = false → v.KnowsTx (tx.getHash H))
    (ho : updateCoins H tx v nHeight = .ok (v', undo)) :
    ∃ m', m.applyTx H tx nHeight = some (m', undo) ∧ v'.Represents m' ∧ Follows v v' := by
  obtain ⟨⟨v1, u⟩, h1, ho⟩ := bind_ok ho
  obtain ⟨m1, hm1, hr1, hf1⟩ := spendTx_refines h h1
  simp only at ho
  split at ho
  · cases ho
  · rename_i v2 h2
    cases ho
    obtain ⟨m', hm', hr2, hf2⟩ :=
      modifyNewCoins_refines hr1 hr hh (fun hcb => hf1.knows _ (hk hcb)) h2
    refine ⟨m', ?_, hr2, hf1.trans hf2⟩
    unfold UtxoMap.applyTx
    rw [hm1]
    simp only [hm', Option.map_some]

/-! ## Taking a transaction back -/

/-- On a pruned entry the undo data replaces everything, so what the modifier
found there does not matter. -/
theorem applyUndo_tidy {undo : CTxInUndo} {n : Nat}
    (h : (applyUndo undo (tidy c) n).2 = true) :
    applyUndo undo c n = applyUndo undo (tidy c) n := by
  have hp := isPruned_tidy c
  by_cases hh : undo.nHeight ≠ 0
  · simp only [applyUndo, if_pos hh, hp]
  · simp only [applyUndo, if_neg hh, Bool.and_eq_true, Bool.not_eq_true'] at h
    rw [tidy_of_not_gone (hp.symm.trans h.1)]

theorem applyTxInUndo_spec {o : COutPoint} (ha : m.available o = true)
    (h : v.Represents (m.spendOutput o)) :
    ∃ v', applyTxInUndo (m.undoFor o) v o = (v', true) ∧ v'.Represents m ∧ Follows v v' := by
  have hback : applyUndo (m.undoFor o) (v.modifierCoins o.hash) o.n.toNat =
      (m.coins o.hash, true) := by
    have hat : tidy (v.modifierCoins o.hash) = tidy ((m.coins o.hash).spend o.n.toNat) := by
      rw [h.tidy_modifierCoins, UtxoMap.spendOutput, UtxoMap.coins_put, if_pos rfl]
    have hundo := applyUndo_spend (m.good o.hash) ha
    rw [← hat] at hundo
    exact (applyUndo_tidy (by rw [UtxoMap.undoFor, hundo])).trans hundo
  have hself : m = (m.spendOutput o).put o.hash (m.coins o.hash) (m.good _) := by
    refine UtxoMap.ext (funext fun j => ?_)
    rw [UtxoMap.coins_put, UtxoMap.spendOutput, UtxoMap.coins_put, m.normal]
    split
    · rename_i hj
      rw [hj]
    · rfl
  refine ⟨_, ?_, ?_, follows_modifyCoins h o.hash fun c => (c.applyUndo (m.undoFor o) o.n.toNat).1⟩
  · simp only [applyTxInUndo, hback]
  · have hrep := h.modifyCoins o.hash (fun c => (c.applyUndo (m.undoFor o) o.n.toNat).1)
      (m.good o.hash) (by rw [hback, cleanup_of_good (m.good _)])
    rwa [← hself] at hrep

theorem restoreInputs_spec (hs : m.spendInputs vin = some (m', undo)) (h : v.Represents m') :
    ∃ v', v.restoreInputs vin undo = (v', true) ∧ v'.Represents m ∧ Follows v v' := by
  induction vin generalizing m undo with
  | nil =>
    cases hs
    exact ⟨v, rfl, h, Follows.refl _⟩
  | cons txin vin ih =>
    obtain ⟨ha, rest, hrest, rfl⟩ := UtxoMap.spendInputs_cons hs
    obtain ⟨v1, h1, hr1, hf1⟩ := ih hrest
    obtain ⟨v2, h2, hr2, hf2⟩ := applyTxInUndo_spec ha hr1
    refine ⟨v2, ?_, hr2, hf1.trans hf2⟩
    simp only [restoreInputs, h1, h2, Bool.and_self]

theorem spendInputs_length (hs : m.spendInputs vin = some (m', undo)) :
    undo.length = vin.length := by
  induction vin generalizing m undo with
  | nil =>
    cases hs
    rfl
  | cons txin vin ih =>
    obtain ⟨_, rest, hrest, rfl⟩ := UtxoMap.spendInputs_cons hs
    rw [List.length_cons, List.length_cons, ih hrest]

/-- The outputs are those of the block, and removing them leaves what was
there before. -/
theorem removeOutputs_spec (ha : m.addOutputs H tx nHeight = some m')
    (hfree : m.coins (tx.getHash H) = .empty) (h : v.Represents m') :
    ∃ v', removeOutputs H v tx nHeight = (v', true) ∧ v'.Represents m ∧ Follows v v' := by
  obtain ⟨hr, hh, -, rfl⟩ := UtxoMap.addOutputs_some ha
  have hat : tidy (v.modifierCoins (tx.getHash H)) = tidy (.fromTx tx nHeight) := by
    rw [h.tidy_modifierCoins, UtxoMap.coins_put, if_pos rfl]
  have hself : m = (m.put (tx.getHash H) (.fromTx tx nHeight) (good_fromTx hr hh)).put
      (tx.getHash H) .empty good_empty := by
    refine UtxoMap.ext (funext fun j => ?_)
    rw [UtxoMap.coins_put, UtxoMap.coins_put]
    split
    · rename_i hj
      rw [hj, hfree]
      rfl
    · rfl
  have hrep := h.modifyCoins (tx.getHash H) (fun _ => .empty) good_empty rfl
  rw [← hself] at hrep
  refine ⟨_, ?_, hrep, follows_modifyCoins h _ _⟩
  simp only [removeOutputs, Prod.mk.injEq, true_and]
  by_cases hp : (fromTx tx nHeight).isPruned = true
  · -- no output of the transaction can be spent: both sides are pruned
    have hraw : (v.modifierCoins (tx.getHash H)).isPruned = true := by
      rw [← isPruned_tidy, hat, isPruned_tidy, hp]
    have hclear := pruned_clearUnspendable hraw
    unfold sameAs
    split
    · rw [hp, show isPruned { (v.modifierCoins (tx.getHash H)).clearUnspendable with
        nVersion := (fromTx tx nHeight).nVersion } = true from hclear]
      rfl
    · rw [hp, hclear]
      rfl
  · have hraw : v.modifierCoins (tx.getHash H) = .fromTx tx nHeight := by
      have hn : (v.modifierCoins (tx.getHash H)).isPruned = false := by
        rw [← isPruned_tidy, hat, isPruned_tidy]
        simpa using hp
      rw [← tidy_of_not_pruned hn, hat, tidy_of_not_pruned (by simpa using hp)]
    rw [hraw, clearUnspendable_fromTx]
    unfold sameAs
    split <;> simp

/-- Taking back the transactions of a block, from the last one, gives the
map from before. -/
theorem disconnectTxs_spec {vtx : List CTransaction} {undo : List CTxUndo}
    (hcb : ∀ tx ∈ vtx, tx.isCoinBase = false) (hs : m.applyTxs H nHeight vtx = some (m', undo))
    (h : v.Represents m') :
    ∃ v', disconnectTxs H nHeight v vtx undo = .ok (v', true) ∧ v'.Represents m ∧ Follows v v' := by
  induction vtx generalizing m undo with
  | nil =>
    cases hs
    exact ⟨v, rfl, h, Follows.refl _⟩
  | cons tx vtx ih =>
    obtain ⟨m1, txundo, rest, h1, h2, rfl⟩ := UtxoMap.applyTxs_cons hs
    obtain ⟨m0, hspend, hadd⟩ := UtxoMap.applyTx_some h1
    have htx := hcb tx List.mem_cons_self
    rw [UtxoMap.spendTx, if_neg (by simp [htx])] at hspend
    obtain ⟨-, -, hfree, -⟩ := UtxoMap.addOutputs_some hadd
    obtain ⟨v1, hv1, hr1, hf1⟩ := ih (fun t ht => hcb t (List.mem_cons_of_mem _ ht)) h2
    obtain ⟨v2, hv2, hr2, hf2⟩ := removeOutputs_spec hadd (hfree htx) hr1
    obtain ⟨v3, hv3, hr3, hf3⟩ := restoreInputs_spec hspend hr2
    refine ⟨v3, ?_, hr3, (hf1.trans hf2).trans hf3⟩
    have hlen : (txundo.length != tx.vin.length) = false := by
      rw [spendInputs_length hspend]
      simp
    refine bind_ok_iff.mpr ⟨_, hv1, ?_⟩
    simp only [hv2, hv3]
    exact bind_ok_iff.mpr ⟨(), errorIf_ok.mpr hlen, rfl⟩

end Represents

end CCoinsViewCache

end junkcoin
