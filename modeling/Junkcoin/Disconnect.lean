-- Disconnecting a block takes back what connecting it did: with the undo
-- data that connecting wrote, the view is again what it was.
import Junkcoin.ConnectSpec

namespace junkcoin

open CCoinsViewCache

variable {env : Env} {v v' : CCoinsViewCache} {m m' : UtxoMap}

/-- A successful `DisconnectBlock`, from the map that the block left to the
map before it. -/
theorem disconnectBlock_spec {block : CBlock} {pindex : BlockIndex} {undo : CBlockUndo}
    (hconn : BlockConnected env block pindex m m' undo)
    (hfree : ∀ tx ∈ block.vtx, m.coins (tx.getHash env.H) = .empty)
    (hv : v.Represents m') (hbest : v.getBestBlock = blockHash env.H pindex) :
    ∃ v', disconnectBlock env block pindex (some undo) v = .ok (v', true) ∧ v'.Represents m ∧
      v'.hashBlock = blockHash env.H pindex.tail ∧ Follows v v' := by
  obtain ⟨coinbase, rest, fees, hb, hrun, -⟩ := hconn.run
  have happly := hrun.applyTxs
  rw [hb.vtx] at happly
  obtain ⟨m1, txundo, undo', hcb, hrest, he⟩ := UtxoMap.applyTxs_cons happly
  cases he
  obtain ⟨m0, hspend, hadd⟩ := UtxoMap.applyTx_some hcb
  rw [UtxoMap.spendTx, if_pos hb.first] at hspend
  cases hspend
  obtain ⟨v1, h1, hr1, hf1⟩ := disconnectTxs_spec hb.others hrest hv
  obtain ⟨v2, h2, hr2, hf2⟩ := removeOutputs_spec hadd
    (hfree coinbase (by rw [hb.vtx]; exact List.mem_cons_self)) hr1
  refine ⟨v2.setBestBlock (blockHash env.H pindex.tail), ?_, hr2.setBestBlock _, rfl,
    (hf1.trans hf2).trans (follows_setBestBlock _)⟩
  refine bind_ok_iff.mpr ⟨(), ?_, ?_⟩
  · rw [assert_ok, hbest]
    exact beq_self_eq_true _
  · rw [hb.vtx]
    refine bind_ok_iff.mpr ⟨(), ?_, bind_ok_iff.mpr ⟨_, h1, ?_⟩⟩
    · rw [errorIf_ok, UtxoMap.applyTxs_length hrest]
      exact bne_self_eq_false' _
    · simp only [h2]
      rfl

/-- Whatever the cache recorded or the view below says, the best block is
the recorded one where there is one. -/
theorem getBestBlock_of_ne {h : Uint256} (hv : v.hashBlock = h) (hne : h ≠ 0) :
    v.getBestBlock = h := by
  unfold getBestBlock
  rw [hv, if_neg hne]

/-! ## The law -/

/-- Disconnecting a block right after connecting it is clean, gives back the
coins of every transaction id, and sets the best block back to the parent.
No transaction of the block may have unspent outputs before, and a hash of
zero stands for no best block. -/
theorem disconnect_undoes_connect (env : Env) (block : CBlock) (pindex : BlockIndex)
    (v v' : CCoinsViewCache) (m : UtxoMap) (undo : CBlockUndo) (hv : v.Represents m)
    (truthful : block.Truthful env)
    (no_collision : ∀ tx ∈ block.vtx, (v.coins (tx.getHash env.H)).isPruned = true)
    (hash_ne : blockHash env.H pindex ≠ 0)
    (connected : connectBlock env block pindex v false = .ok (v', some undo)) :
    ∃ v'', disconnectBlock env block pindex (some undo) v' = .ok (v'', true) ∧
      (∀ txid, v''.coins txid = v.coins txid) ∧
      v''.getBestBlock = blockHash env.H pindex.tail := by
  have hempty : ∀ tx ∈ block.vtx, m.coins (tx.getHash env.H) = .empty := by
    intro tx htx
    have hp := no_collision tx htx
    rw [hv.coins] at hp
    rw [← m.normal]
    exact WriteBack.tidy_of_gone hp
  have hknows : ∀ tx ∈ block.vtx, tx.isCoinBase = false → v.KnowsTx (tx.getHash env.H) :=
    fun tx htx _ => knowsTx_of_empty ((hv.coins _).trans (hempty tx htx))
  obtain ⟨hprev, hbest, hf, ⟨-, hnone, -⟩ | ⟨-, m', blockundo, hundo, hconn, hr⟩⟩ :=
    connectBlock_spec hv truthful hknows connected
  · cases hnone
  · cases hundo
    obtain ⟨v'', hd, hr'', hb'', hf''⟩ :=
      disconnectBlock_spec hconn hempty hr (getBestBlock_of_ne hbest hash_ne)
    refine ⟨v'', hd, fun txid => by rw [hr''.coins, hv.coins], ?_⟩
    by_cases hz : blockHash env.H pindex.tail = 0
    · -- the view was at no block, and so was the view below it
      rw [hz] at hprev hb'' ⊢
      unfold getBestBlock at hprev ⊢
      rw [hb'', if_pos rfl, hf''.baseBestBlock, hf.baseBestBlock]
      split at hprev
      · exact hprev.symm
      · rename_i hn
        exact absurd hprev.symm hn
    · exact getBestBlock_of_ne hb'' hz

/-- Transaction 7 has two unspent outputs. -/
def spendingUtxo : UtxoMap :=
  UtxoMap.empty.put 7 ⟨false, [sampleOut 5, sampleOut 6], 1, 1⟩
    ⟨rfl, by unfold Trim.Canonical; decide, by decide, by decide⟩

def spendingView : CCoinsViewCache where
  base txid := if txid = 7 then some ⟨false, [sampleOut 5, sampleOut 6], 1, 1⟩ else none
  baseBestBlock := blockHash sampleEnv.H [mainParams.genesis]
  cacheCoins := ∅
  hashBlock := 0

theorem spendingView_represents : spendingView.Represents spendingUtxo := by
  refine represents_of_base fun txid => ?_
  rw [spendingUtxo, UtxoMap.coins_put]
  split
  · rfl
  · rfl

/-- One transaction spends both outputs of transaction 7, the last one
first, and the next one spends what that one paid. -/
def spendingTxs : List CTransaction :=
  let tx1 := sampleTx [⟨7, 1⟩, ⟨7, 0⟩] [9]
  [sampleTx [.null] [1000], tx1, sampleTx [⟨tx1.getHash sampleEnv.H, 0⟩] [4, 5]]

def spendingBlock : CBlock := sampleBlock [mainParams.genesis] spendingTxs

def spendingIndex : BlockIndex := sampleIndex [mainParams.genesis] spendingTxs

theorem spendingBlock_connects : ∃ v' undo, connectBlock sampleEnv spendingBlock spendingIndex
    spendingView false = .ok (v', some undo) := by
  have hok : okWith (connectBlock sampleEnv spendingBlock spendingIndex spendingView false)
      (·.2.isSome) = true := by decide +kernel
  obtain ⟨⟨v', undo⟩, hconn, hsome⟩ := of_okWith hok
  obtain ⟨undo, rfl⟩ := Option.isSome_iff_exists.mp hsome
  exact ⟨v', undo, hconn⟩

theorem disconnect_undoes_connect_sample :
    ∃ v' undo, connectBlock sampleEnv spendingBlock spendingIndex spendingView false =
      .ok (v', some undo) ∧
    ∃ v'', disconnectBlock sampleEnv spendingBlock spendingIndex (some undo) v' = .ok (v'', true) ∧
      (∀ txid, v''.coins txid = spendingView.coins txid) ∧
      v''.getBestBlock = blockHash sampleEnv.H spendingIndex.tail := by
  obtain ⟨v', undo, hconn⟩ := spendingBlock_connects
  exact ⟨v', undo, hconn, disconnect_undoes_connect sampleEnv spendingBlock spendingIndex
    spendingView v' spendingUtxo undo spendingView_represents (sampleBlock_truthful _ _)
    (by decide +kernel) (by decide +kernel) hconn⟩

end junkcoin
