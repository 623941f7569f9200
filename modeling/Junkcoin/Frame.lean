-- What connecting a block leaves alone. An output that the block does not
-- spend stays as it is, unless the block has a transaction with the same id;
-- only the BIP30 rule refuses that, and it is not always applied.
import Junkcoin.ConnectSpec

namespace junkcoin

open CCoinsViewCache

/-- An unspent output with the block that it comes from. -/
structure Coin where
  out : CTxOut
  nHeight : Int
  fCoinBase : Bool
  deriving DecidableEq

/-- The output at place `n`, when it is available. -/
def CCoins.coinAt (c : CCoins) (n : Nat) : Option Coin :=
  if c.isAvailable n then some ⟨c.outAt n, c.nHeight, c.fCoinBase⟩ else none

def UtxoMap.coinAt (m : UtxoMap) (o : COutPoint) : Option Coin :=
  (m.coins o.hash).coinAt o.n.toNat

def CCoinsViewCache.coinAt (v : CCoinsViewCache) (o : COutPoint) : Option Coin :=
  (v.coins o.hash).coinAt o.n.toNat

def CTransaction.prevouts (tx : CTransaction) : List COutPoint := tx.vin.map (·.prevout)

/-- The outputs that the inputs of a block name. -/
def CBlock.prevouts (block : CBlock) : List COutPoint := block.vtx.flatMap (·.prevouts)

/-! ## What a transaction leaves alone -/

namespace CCoins

variable {c : CCoins} {n : Nat}

theorem coinAt_tidy (h : c.Good) : (WriteBack.tidy c).coinAt n = c.coinAt n := by
  by_cases hp : c.isPruned = true
  · rw [WriteBack.tidy_of_gone hp]
    unfold coinAt isAvailable
    rw [(pruned_iff h.trimmed).mp hp]
    rfl
  · rw [tidy_of_not_pruned (by simpa using hp)]

theorem coinAt_spend (h : c.Good) (ha : c.isAvailable n = true) (k : Nat) :
    (c.spend n).coinAt k = if k = n then none else c.coinAt k := by
  unfold coinAt
  rw [isAvailable_eq, isAvailable_eq, outAt_spend h.canonical.get ha]
  split
  · rfl
  · rfl

theorem nHeight_of_coinAt {coin : Coin} (h : c.coinAt n = some coin) :
    coin.nHeight = c.nHeight ∧ c.isPruned = false := by
  unfold coinAt at h
  split at h
  · rename_i ha
    cases h
    exact ⟨rfl, not_pruned_of_available ha⟩
  · cases h

end CCoins

namespace UtxoMap

variable {m m' : UtxoMap} {H : Hashes} {o : COutPoint}

theorem coinAt_spendOutput {p : COutPoint} (h : m.available p = true) :
    (m.spendOutput p).coinAt o = if o = p then none else m.coinAt o := by
  unfold coinAt
  rw [spendOutput, coins_put]
  by_cases hh : o.hash = p.hash
  · rw [if_pos hh, CCoins.coinAt_tidy (CCoins.good_spend (m.good _)),
      CCoins.coinAt_spend (m.good _) h, hh]
    simp only [COutPoint.ext_iff, hh, true_and, UInt32.toNat_inj]
  · rw [if_neg hh, if_neg fun he => hh (by rw [he])]

theorem coinAt_spendInputs {vin : List CTxIn} {undo : CTxUndo}
    (h : m.spendInputs vin = some (m', undo)) :
    m'.coinAt o = if o ∈ vin.map (·.prevout) then none else m.coinAt o := by
  induction vin generalizing m undo with
  | nil =>
    cases h
    rfl
  | cons txin vin ih =>
    obtain ⟨ha, rest, hrest, -⟩ := spendInputs_cons h
    rw [ih hrest, coinAt_spendOutput ha]
    by_cases h1 : o = txin.prevout <;> by_cases h2 : o ∈ vin.map (·.prevout) <;> simp [h1, h2]

/-- A transaction changes what it spends and what has its own id. -/
theorem coinAt_applyTx {tx : CTransaction} {nHeight : Int} {undo : CTxUndo}
    (h : m.applyTx H tx nHeight = some (m', undo)) (hid : o.hash ≠ tx.getHash H) :
    m'.coinAt o = if tx.isCoinBase = false ∧ o ∈ tx.prevouts then none else m.coinAt o := by
  obtain ⟨m1, hspend, hadd⟩ := applyTx_some h
  obtain ⟨_, _, -, rfl⟩ := addOutputs_some hadd
  have hput : (m1.put (tx.getHash H) (.fromTx tx nHeight) (CCoins.good_fromTx ‹_› ‹_›)).coinAt o =
      m1.coinAt o := by
    unfold coinAt
    rw [coins_put, if_neg hid]
  rw [hput]
  unfold spendTx at hspend
  split at hspend
  · rename_i hcb
    cases hspend
    rw [if_neg (by simp [hcb])]
  · rename_i hcb
    rw [coinAt_spendInputs hspend]
    simp only [CTransaction.prevouts, hcb, true_and]

/-- Under its own id a transaction leaves only outputs of its own height. -/
theorem height_applyTx {tx : CTransaction} {nHeight : Int} {undo : CTxUndo} {coin : Coin}
    (h : m.applyTx H tx nHeight = some (m', undo)) (hid : o.hash = tx.getHash H)
    (hc : m'.coinAt o = some coin) : coin.nHeight = nHeight := by
  obtain ⟨m1, -, hadd⟩ := applyTx_some h
  obtain ⟨_, _, -, rfl⟩ := addOutputs_some hadd
  unfold coinAt at hc
  rw [coins_put, if_pos hid, CCoins.coinAt_tidy (CCoins.good_fromTx ‹_› ‹_›)] at hc
  exact (CCoins.nHeight_of_coinAt hc).1

/-! ## What a block leaves alone -/

variable {env : Env} {height fees : Int} {vtx : List CTransaction} {undo : List CTxUndo}

/-- The frame of a block: an output that it neither names nor has the id of. -/
theorem Connects.frame (h : Connects env height m vtx m' undo fees)
    (hid : o.hash ∉ vtx.map (·.getHash env.H)) (ho : o ∉ vtx.flatMap (·.prevouts)) :
    m'.coinAt o = m.coinAt o := by
  induction h with
  | nil m => rfl
  | cons _ _ happly _ ih =>
    simp only [List.map_cons, List.flatMap_cons, List.mem_cons, List.mem_append, not_or] at hid ho
    rw [ih hid.2 ho.2, coinAt_applyTx happly hid.1, if_neg fun hs => ho.1 hs.2]

/-- What is unspent after a block either comes from the block or was there
before, with an id that the block does not have. -/
theorem Connects.origin {coin : Coin} (h : Connects env height m vtx m' undo fees)
    (hc : m'.coinAt o = some coin) :
    coin.nHeight = height ∨ (m.coinAt o = some coin ∧ o.hash ∉ vtx.map (·.getHash env.H)) := by
  induction h with
  | nil m => exact .inr ⟨hc, fun hm => nomatch hm⟩
  | @cons m m1 m' tx vtx _ _ _ _ _ happly _ ih =>
    rcases ih hc with hh | ⟨h1, hid⟩
    · exact .inl hh
    · by_cases hown : o.hash = tx.getHash env.H
      · exact .inl (height_applyTx happly hown h1)
      · rw [coinAt_applyTx happly hown] at h1
        split at h1
        · cases h1
        · exact .inr ⟨h1, by simp [hown, hid]⟩

end UtxoMap

theorem CCoinsViewCache.Represents.coinAt {v : CCoinsViewCache} {m : UtxoMap}
    (h : v.Represents m) (o : COutPoint) : v.coinAt o = m.coinAt o := by
  rw [CCoinsViewCache.coinAt, h.coins]
  rfl

/-- Every unspent output has the height of a block that was connected. -/
theorem UtxoRun.heights {env : Env} {m : UtxoMap} {indexes : List BlockIndex}
    (h : UtxoRun env m indexes) {o : COutPoint} {coin : Coin} (hc : m.coinAt o = some coin) :
    ∃ pindex ∈ indexes, coin.nHeight = nHeight pindex := by
  induction h with
  | genesis => cases hc
  | skip _ _ ih =>
    obtain ⟨p, hp, hh⟩ := ih hc
    exact ⟨p, List.mem_cons_of_mem _ hp, hh⟩
  | connect _ hconn ih =>
    obtain ⟨_, _, _, -, hrun, -⟩ := hconn.run
    rcases hrun.origin hc with hh | ⟨hold, -⟩
    · exact ⟨_, List.mem_cons_self, hh⟩
    · obtain ⟨p, hp, hh⟩ := ih hold
      exact ⟨p, List.mem_cons_of_mem _ hp, hh⟩

/-! ## Views of a chain -/

/-- The views that connecting the blocks of a chain from genesis leads to. -/
inductive ConnectedChain (env : Env) : BlockIndex → CCoinsViewCache → Prop
  | genesis : ConnectedChain env [env.net.params.genesis] (genesisView env)
  | connect {chain : BlockIndex} {v v' : CCoinsViewCache} {block : CBlock}
      {undo : Option CBlockUndo} :
      ConnectedChain env chain v → block.Truthful env →
      connectBlock env block (block.toCBlockHeader :: chain) v false = .ok (v', undo) →
      ConnectedChain env (block.toCBlockHeader :: chain) v'

/-- Connecting a chain is a run of `ConnectBlock` at heights up to its own. -/
theorem ConnectedChain.run {env : Env} {chain : BlockIndex} {v : CCoinsViewCache}
    (h : ConnectedChain env chain v) :
    ∃ indexes, ConnectRun env v indexes ∧ ∀ p ∈ indexes, nHeight p ≤ nHeight chain := by
  induction h with
  | genesis => exact ⟨[], .genesis, fun _ hp => nomatch hp⟩
  | @connect chain _ _ block _ _ ht ho ih =>
    obtain ⟨indexes, hrun, hle⟩ := ih
    refine ⟨(block.toCBlockHeader :: chain) :: indexes, hrun.connect ht ho, ?_⟩
    simp only [List.mem_cons, forall_eq_or_imp]
    refine ⟨Int.le_refl _, fun p hp => ?_⟩
    have := hle p hp
    unfold nHeight at this ⊢
    simp only [List.length_cons]
    omega

/-! ## The law -/

/-- Every output that is available and that the block does not spend is
available afterwards, with the same value, script, height and coinbase flag. -/
def DestroysNoCoin (block : CBlock) (v v' : CCoinsViewCache) : Prop :=
  ∀ o coin, v.coinAt o = some coin → o ∉ block.prevouts → v'.coinAt o = some coin

/-- Connecting a block on top of a chain destroys no unrelated coin exactly
when the block is the genesis block again, BIP30 is enforced, or the block
itself spends everything unspent under the ids of its transactions. -/
theorem connect_destroys_no_coin_iff (env : Env) (block : CBlock) (chain : BlockIndex)
    (v v' : CCoinsViewCache) (undo : Option CBlockUndo) (reached : ConnectedChain env chain v)
    (truthful : block.Truthful env)
    (connected : connectBlock env block (block.toCBlockHeader :: chain) v false = .ok (v', undo)) :
    DestroysNoCoin block v v' ↔
      block.getHash env.H = hashGenesisBlock env.H env.net ∨
      fEnforceBIP30 chain (consensusAfter env.net chain) = true ∨
      ∀ o coin, v.coinAt o = some coin → o.hash ∈ block.txids env.H → o ∈ block.prevouts := by
  obtain ⟨indexes, hrun, hheights⟩ := reached.run
  obtain ⟨hbase, m, hr, hutxo⟩ := hrun.refines
  obtain ⟨-, -, -, ⟨hgen, -, hr'⟩ | ⟨hgen, m', blockundo, -, hconn, hr'⟩⟩ :=
    connectBlock_spec hr truthful (fun tx _ _ => knowsTx_of_no_base hbase _) connected
  · refine iff_of_true (fun o coin hc _ => ?_) (.inl hgen)
    rw [hr'.coinAt]
    rwa [hr.coinAt] at hc
  · obtain ⟨_, _, _, hb, hconns, -⟩ := hconn.run
    constructor
    · -- a coin under an id of the block would keep its height, which is below
      -- that of the block
      intro hframe
      refine .inr (.inr fun o coin hc hid => ?_)
      by_contra hno
      have hc' := hframe o coin hc hno
      rw [hr'.coinAt] at hc'
      rcases hconns.origin hc' with hh | ⟨-, hnot⟩
      · rw [hr.coinAt] at hc
        obtain ⟨p, hp, hhp⟩ := hutxo.heights hc
        have := hheights p hp
        unfold nHeight at this hh hhp
        simp only [List.length_cons] at hh
        omega
      · exact hnot hid
    · rintro (hg | hcond) o coin hc hno
      · exact absurd hg hgen
      · have hid : o.hash ∉ block.txids env.H := by
          intro hid
          rcases hcond with hbip | hcover
          · obtain ⟨tx, htx, he⟩ := List.mem_map.mp hid
            have hempty := hconn.bip30 hbip tx htx
            rw [hr.coinAt, UtxoMap.coinAt, ← he, hempty] at hc
            cases hc
          · exact hno (hcover o coin hc hid)
        rw [hr'.coinAt]
        rw [hr.coinAt] at hc
        exact (hconns.frame hid hno).trans hc

theorem repeatedIndex_valid : HeaderValid sampleEnv.H .main (repeatedIndex 2) := by
  refine .step 1367394064 (.step 1367394064 .genesis ?_ ?_ ?_) ?_ ?_ ?_ <;> decide +kernel

/-- The output of the coinbase that two blocks repeat. -/
def repeatedOutpoint : COutPoint := ⟨repeatedCoinbase.getHash sampleEnv.H, 0⟩

theorem repeated_coins : ∃ v v' undo, ConnectedChain sampleEnv (repeatedIndex 1) v ∧
    connectBlock sampleEnv (repeatedBlock 1) (repeatedIndex 2) v false = .ok (v', undo) ∧
    v.coinAt repeatedOutpoint = some ⟨sampleOut 1000, 1, true⟩ ∧
    v'.coinAt repeatedOutpoint = some ⟨sampleOut 1000, 2, true⟩ := by
  obtain ⟨v1, v2, undo1, undo2, h1, h2, hc1, hc2⟩ := repeated_connects
  refine ⟨v1, v2, undo2, .connect .genesis (sampleBlock_truthful _ _) h1, h2, ?_, ?_⟩
  · rw [CCoinsViewCache.coinAt, repeatedOutpoint, hc1]
    rfl
  · rw [CCoinsViewCache.coinAt, repeatedOutpoint, hc2]
    rfl

theorem connect_destroys_no_coin_iff_sample :
    ∃ v v' undo, ConnectedChain sampleEnv (repeatedIndex 1) v ∧
      connectBlock sampleEnv (repeatedBlock 1) (repeatedIndex 2) v false = .ok (v', undo) ∧
      ¬ ((repeatedBlock 1).getHash sampleEnv.H = hashGenesisBlock sampleEnv.H .main ∨
        fEnforceBIP30 (repeatedIndex 1) (consensusAfter .main (repeatedIndex 1)) = true ∨
        ∀ o coin, v.coinAt o = some coin → o.hash ∈ (repeatedBlock 1).txids sampleEnv.H →
          o ∈ (repeatedBlock 1).prevouts) := by
  obtain ⟨v, v', undo, hreached, hconn, h1, h2⟩ := repeated_coins
  refine ⟨v, v', undo, hreached, hconn, fun hcond => ?_⟩
  have hkept := (connect_destroys_no_coin_iff sampleEnv (repeatedBlock 1) (repeatedIndex 1) v v'
    undo hreached (sampleBlock_truthful _ _) hconn).mpr hcond repeatedOutpoint _ h1
    (by decide +kernel)
  rw [h2] at hkept
  exact absurd hkept (by decide)

/-- The second block repeats the coinbase of the first, which is unspent and
which no input of the block names. Its output is now one of height 2. -/
theorem repeated_coinbase_is_destroyed :
    HeaderValid sampleEnv.H .main (repeatedIndex 2) ∧
    ∃ v v' undo, ConnectedChain sampleEnv (repeatedIndex 1) v ∧
      connectBlock sampleEnv (repeatedBlock 1) (repeatedIndex 2) v false = .ok (v', undo) ∧
      repeatedOutpoint ∉ (repeatedBlock 1).prevouts ∧
      v.coinAt repeatedOutpoint = some ⟨sampleOut 1000, 1, true⟩ ∧
      v'.coinAt repeatedOutpoint = some ⟨sampleOut 1000, 2, true⟩ := by
  obtain ⟨v, v', undo, hreached, hconn, h1, h2⟩ := repeated_coins
  exact ⟨repeatedIndex_valid, v, v', undo, hreached, hconn, by decide +kernel, h1, h2⟩

end junkcoin
