-- The set of unspent outputs as a map, with no caches: what a transaction
-- and a list of transactions do to it. This is what the coins views stand
-- for; every map of this type holds good coins only.
import Junkcoin.Coins
import Mathlib.Logic.Function.Basic

namespace junkcoin

open WriteBack

/-- The unspent outputs by transaction id. An id without unspent outputs has
the empty coins. -/
@[ext] structure UtxoMap where
  coins : Uint256 → CCoins
  good : ∀ txid, (coins txid).Good
  normal : ∀ txid, tidy (coins txid) = coins txid

namespace UtxoMap

/-- Nothing is unspent. -/
def empty : UtxoMap := ⟨fun _ => .empty, fun _ => CCoins.good_empty, fun _ => rfl⟩

theorem good_tidy {c : CCoins} (h : c.Good) : (tidy c).Good := by
  unfold tidy
  split
  · exact CCoins.good_empty
  · exact h

/-- Replace the coins under one id. -/
def put (m : UtxoMap) (txid : Uint256) (c : CCoins) (h : c.Good) : UtxoMap where
  coins := Function.update m.coins txid (tidy c)
  good j := by
    by_cases hj : j = txid
    · subst hj
      rw [Function.update_self]
      exact good_tidy h
    · rw [Function.update_of_ne hj]
      exact m.good j
  normal j := by
    by_cases hj : j = txid
    · subst hj
      rw [Function.update_self, tidy_tidy]
    · rw [Function.update_of_ne hj, m.normal]

theorem coins_put (m : UtxoMap) (txid : Uint256) (c : CCoins) (h : c.Good) (j : Uint256) :
    (m.put txid c h).coins j = if j = txid then tidy c else m.coins j := by
  exact Function.update_apply _ _ _ _

/-- The output that an outpoint names is unspent. -/
def available (m : UtxoMap) (o : COutPoint) : Bool := (m.coins o.hash).isAvailable o.n.toNat

def spendOutput (m : UtxoMap) (o : COutPoint) : UtxoMap :=
  m.put o.hash ((m.coins o.hash).spend o.n.toNat) (CCoins.good_spend (m.good _))

/-- The undo data for one outpoint. -/
def undoFor (m : UtxoMap) (o : COutPoint) : CTxInUndo := (m.coins o.hash).undoOf o.n.toNat

/-- Spend the inputs in order; nothing when one of them is not available. -/
def spendInputs : UtxoMap → List CTxIn → Option (UtxoMap × CTxUndo)
  | m, [] => some (m, [])
  | m, txin :: vin =>
    if m.available txin.prevout then
      (spendInputs (m.spendOutput txin.prevout) vin).map fun r =>
        (r.1, m.undoFor txin.prevout :: r.2)
    else none

variable (H : Hashes)

/-- The inputs of a transaction; a coinbase has none to spend. -/
def spendTx (m : UtxoMap) (tx : CTransaction) : Option (UtxoMap × CTxUndo) :=
  if tx.isCoinBase then some (m, []) else m.spendInputs tx.vin

/-- The outputs of a new transaction. Only a coinbase may replace outputs
that are still unspent. -/
def addOutputs (m : UtxoMap) (tx : CTransaction) (nHeight : Int) : Option UtxoMap :=
  if h : (∀ o ∈ tx.vout, moneyRange o.nValue = true) ∧ 0 < nHeight then
    if !tx.isCoinBase && !(m.coins (tx.getHash H)).isPruned then none
    else some (m.put (tx.getHash H) (.fromTx tx nHeight) (CCoins.good_fromTx h.1 h.2))
  else none

/-- One transaction of a block at `nHeight`. -/
def applyTx (m : UtxoMap) (tx : CTransaction) (nHeight : Int) : Option (UtxoMap × CTxUndo) :=
  match m.spendTx tx with
  | none => none
  | some (m, txundo) => (m.addOutputs H tx nHeight).map fun m => (m, txundo)

/-- The transactions of a block, in order. -/
def applyTxs (nHeight : Int) : UtxoMap → List CTransaction → Option (UtxoMap × List CTxUndo)
  | m, [] => some (m, [])
  | m, tx :: vtx =>
    match m.applyTx H tx nHeight with
    | none => none
    | some (m, txundo) => (applyTxs nHeight m vtx).map fun r => (r.1, txundo :: r.2)

/-! ## Each step taken apart -/

section Inversion

variable {m m' : UtxoMap} {H} {tx : CTransaction} {nHeight : Int} {vtx : List CTransaction}

theorem spendInputs_cons {txin : CTxIn} {vin : List CTxIn} {undo : CTxUndo}
    (h : m.spendInputs (txin :: vin) = some (m', undo)) :
    m.available txin.prevout = true ∧ ∃ rest,
      (m.spendOutput txin.prevout).spendInputs vin = some (m', rest) ∧
      undo = m.undoFor txin.prevout :: rest := by
  unfold spendInputs at h
  split at h
  · rename_i ha
    rw [Option.map_eq_some_iff] at h
    obtain ⟨⟨m1, rest⟩, h1, h2⟩ := h
    cases h2
    exact ⟨ha, rest, h1, rfl⟩
  · cases h

theorem addOutputs_some (h : m.addOutputs H tx nHeight = some m') :
    ∃ (hr : ∀ o ∈ tx.vout, moneyRange o.nValue = true) (hh : 0 < nHeight),
      (tx.isCoinBase = false → m.coins (tx.getHash H) = .empty) ∧
      m' = m.put (tx.getHash H) (.fromTx tx nHeight) (CCoins.good_fromTx hr hh) := by
  unfold addOutputs at h
  split at h
  · rename_i hc
    split at h
    · cases h
    · rename_i hcol
      cases h
      refine ⟨hc.1, hc.2, fun hcb => ?_, rfl⟩
      simp only [hcb, Bool.not_false, Bool.true_and, Bool.not_eq_true', Bool.not_eq_false] at hcol
      rw [← m.normal]
      exact tidy_of_gone hcol
  · cases h

theorem applyTx_some {undo : CTxUndo} (h : m.applyTx H tx nHeight = some (m', undo)) :
    ∃ m1, m.spendTx tx = some (m1, undo) ∧ m1.addOutputs H tx nHeight = some m' := by
  unfold applyTx at h
  split at h
  · cases h
  · rename_i m1 txundo h1
    rw [Option.map_eq_some_iff] at h
    obtain ⟨m2, h2, h3⟩ := h
    cases h3
    exact ⟨m1, h1, h2⟩

theorem applyTxs_cons {undo : List CTxUndo}
    (h : m.applyTxs H nHeight (tx :: vtx) = some (m', undo)) :
    ∃ m1 txundo rest, m.applyTx H tx nHeight = some (m1, txundo) ∧
      m1.applyTxs H nHeight vtx = some (m', rest) ∧ undo = txundo :: rest := by
  unfold applyTxs at h
  split at h
  · cases h
  · rename_i m1 txundo h1
    rw [Option.map_eq_some_iff] at h
    obtain ⟨⟨m2, rest⟩, h2, h3⟩ := h
    cases h3
    exact ⟨m1, txundo, rest, h1, h2, rfl⟩

theorem applyTxs_length {undo : List CTxUndo} (h : m.applyTxs H nHeight vtx = some (m', undo)) :
    undo.length = vtx.length := by
  induction vtx generalizing m undo with
  | nil =>
    cases h
    rfl
  | cons tx vtx ih =>
    obtain ⟨m1, txundo, rest, -, h2, rfl⟩ := applyTxs_cons h
    rw [List.length_cons, List.length_cons, ih h2]

end Inversion

end UtxoMap

end junkcoin
