-- A block comes back from its own compact form: whatever was found for a place
-- has the witness hash of the transaction there, and the missing ones are asked
-- for in order.
import Junkcoin.CompactBlocks

namespace junkcoin

open PartiallyDownloadedBlock CBlockHeaderAndShortTxIDs

/-! ## The missing transactions -/

/-- The transactions of a block at the places that are reported unavailable, in
the order in which they are requested and sent. -/
def PartiallyDownloadedBlock.missing (b : PartiallyDownloadedBlock) (block : CBlock) :
    List CTransaction :=
  block.vtx.zipIdx.filterMap fun entry =>
    if b.isTxAvailable entry.2 = some false then some entry.1 else none

/-- What is missing, place by place. -/
def missingFrom : List (Option CTransaction) → List CTransaction → List CTransaction
  | none :: avail, tx :: vtx => tx :: missingFrom avail vtx
  | some _ :: avail, _ :: vtx => missingFrom avail vtx
  | _, _ => []

/-- What is found, with the missing transactions at their places. -/
def filled (avail : List (Option CTransaction)) (vtx : List CTransaction) : List CTransaction :=
  List.zipWith (fun found tx => found.getD tx) avail vtx

theorem missing_eq {b : PartiallyDownloadedBlock} {block : CBlock} (h : b.header.isNull = false) :
    b.missing block = missingFrom b.txn_available block.vtx := by
  suffices hfrom : ∀ (vtx : List CTransaction) (k : Nat), ((vtx.zipIdx k).filterMap fun entry =>
      if b.isTxAvailable entry.2 = some false then some entry.1 else none) =
        missingFrom (b.txn_available.drop k) vtx from hfrom block.vtx 0
  intro vtx
  induction vtx with
  | nil =>
    intro k
    rw [missingFrom.eq_def]
    split <;> simp_all
  | cons tx vtx ih =>
    intro k
    rw [List.zipIdx_cons, List.filterMap_cons, ih]
    have havail : b.isTxAvailable k = b.txn_available[k]?.map (·.isSome) := by
      rw [isTxAvailable, h]
      rfl
    rw [havail]
    by_cases hk : k < b.txn_available.length
    · rw [List.drop_eq_getElem_cons hk, List.getElem?_eq_getElem hk]
      cases b.txn_available[k] with
      | none => rfl
      | some found => rfl
    · rw [List.drop_eq_nil_of_le (by omega), List.drop_eq_nil_of_le (by omega),
        List.getElem?_eq_none (by omega)]
      cases vtx <;> rfl

/-- With exactly the missing transactions the loop fills every place. -/
theorem fillTxs_missing {avail : List (Option CTransaction)} {vtx : List CTransaction}
    (h : avail.length = vtx.length) :
    fillTxs avail (missingFrom avail vtx) = some (filled avail vtx, []) := by
  induction avail generalizing vtx with
  | nil => rw [List.length_eq_zero_iff.mp h.symm]; rfl
  | cons found avail ih =>
    cases vtx with
    | nil => cases h
    | cons tx vtx =>
      have hrest := ih (Nat.succ.inj h)
      cases found with
      | none =>
        rw [missingFrom, fillTxs, hrest]
        rfl
      | some found =>
        rw [missingFrom, fillTxs, hrest]
        rfl

/-! ## What is found -/

section Rebuild

variable {E : ShortIdEnv} {H : Hashes} {nonce : UInt64} {block : CBlock}
  {c : CBlockHeaderAndShortTxIDs} {pool extra : List CTransaction} {vtx known : List CTransaction}
  {coinbase : CTransaction}

/-- What is found for a place is one of these transactions, with the witness
hash of the block's transaction there. -/
def Faithful (H : Hashes) (known vtx : List CTransaction) (s : Scan) : Prop :=
  ∀ p tx, (cell s p).2 = some tx →
    tx ∈ known ∧ ∃ t, vtx[p]? = some t ∧ tx.getWitnessHash H = t.getWitnessHash H

theorem Faithful.writes {N pos count : Nat} {s s' : Scan} {new : Bool × Option CTransaction}
    (h : Faithful H known vtx s) (hw : Writes N s s' pos new count)
    (hnew : ∀ tx, new.2 = some tx →
      tx ∈ known ∧ ∃ t, vtx[pos]? = some t ∧ tx.getWitnessHash H = t.getWitnessHash H) :
    Faithful H known vtx s' := by
  intro p tx hp
  by_cases hpos : p = pos
  · rw [hpos, hw.here] at hp
    rw [hpos]
    exact hnew tx hp
  · rw [hw.other p hpos] at hp
    exact h p tx hp

/-- The message of a block, in terms of the block. -/
theorem ofBlock_spec (hc : ofBlock E H nonce block true = some c) :
    ∃ coinbase vtx, block.vtx = coinbase :: vtx ∧ c.nonce = nonce ∧
      c.shorttxids = vtx.map (fun tx => c.getShortID E (tx.getWitnessHash H)) ∧
      c.prefilledtxn = [⟨0, coinbase⟩] ∧ c.header = block.toCBlockHeader := by
  unfold ofBlock at hc
  split at hc
  · cases hc
  · rename_i coinbase vtx hvtx
    cases hc
    exact ⟨coinbase, vtx, hvtx, rfl, rfl, rfl, rfl⟩

/-- No two of these witness hashes share a short id. -/
def ShortIdsDiffer (E : ShortIdEnv) (H : Hashes) (header : CBlockHeader) (nonce : UInt64)
    (txs : List CTransaction) : Prop :=
  ∀ t ∈ txs, ∀ u ∈ txs, shortIdOf E header nonce (t.getWitnessHash H) =
    shortIdOf E header nonce (u.getWitnessHash H) → t.getWitnessHash H = u.getWitnessHash H

/-- The places after the coinbase are free, and each of the short ids has its own. -/
theorem placeOf_ofBlock (hprefilled : c.prefilledtxn = [⟨0, coinbase⟩])
    (hcount : c.shorttxids.length < 2 ^ 16 - 1) {i : Nat} (hi : i < c.shorttxids.length) :
    c.placeOf i = i + 1 := by
  have hfree : c.freePlaces = (List.range c.shorttxids.length).map Nat.succ := by
    rw [freePlaces, blockTxCount, hprefilled,
      List.length_singleton, List.range_succ_eq_map]
    have hplaces : prefilledPlaces [⟨0, coinbase⟩] 0 = [0] := rfl
    rw [hplaces, List.filter_cons_of_neg (by simp), List.filter_eq_self]
    intro p hp
    obtain ⟨q, -, rfl⟩ := List.mem_map.mp hp
    simp
  rw [placeOf, hfree, List.getD_eq_getElem _ _ (by simpa using hi)]
  simp only [List.getElem_map, List.getElem_range]
  omega

/-- A known transaction is only looked up where the block has its witness hash. -/
theorem lookup_ofBlock {tx : CTransaction} {pos : Nat} (h : c.Accepted)
    (hprefilled : c.prefilledtxn = [⟨0, coinbase⟩])
    (hshort : c.shorttxids = vtx.map fun tx => c.getShortID E (tx.getWitnessHash H))
    (hcount : vtx.length < 2 ^ 16 - 1) (hids : ShortIdsDiffer E H c.header c.nonce known)
    (hvtx : ∀ t ∈ vtx, t ∈ known) (htx : tx ∈ known)
    (hpos : c.idMap.lookup (c.getShortID E (tx.getWitnessHash H)) = some pos) :
    ∃ t, (coinbase :: vtx)[pos]? = some t ∧ tx.getWitnessHash H = t.getWitnessHash H := by
  have hlen : c.shorttxids.length = vtx.length := by rw [hshort, List.length_map]
  obtain ⟨-, i, hi, rfl⟩ := lookup_place h hpos
  have hlt := (List.getElem?_eq_some_iff.mp hi).1
  rw [placeOf_ofBlock hprefilled (by omega) hlt, List.getElem?_cons_succ]
  rw [hshort, List.getElem?_map, Option.map_eq_some_iff] at hi
  obtain ⟨t, ht, hsame⟩ := hi
  exact ⟨t, ht, (hids t (hvtx t (List.mem_of_getElem? ht)) tx htx hsame).symm⟩

/-- At the start there is the coinbase. -/
theorem faithful_start (hprefilled : c.prefilledtxn = [⟨0, coinbase⟩]) (hmem : coinbase ∈ known) :
    Faithful H known (coinbase :: vtx) c.scanStart := by
  intro p tx hp
  have hplaced : c.placedTxs = (List.replicate c.blockTxCount none).set 0 (some coinbase) := by
    rw [placedTxs, hprefilled]
    rfl
  have hcount : 0 < (List.replicate c.blockTxCount (none : Option CTransaction)).length := by
    rw [List.length_replicate, blockTxCount, hprefilled]
    exact Nat.succ_pos _
  rw [cell, scanStart] at hp
  dsimp only at hp
  rw [hplaced, getD_set hcount] at hp
  split at hp
  · rename_i hzero
    cases hp
    rw [hzero]
    exact ⟨hmem, coinbase, rfl, rfl⟩
  · rw [List.getD_eq_getElem?_getD, List.getElem?_replicate] at hp
    split at hp <;> cases hp

/-- After both scans, what is there belongs there. -/
theorem scans_faithful {s : Scan} (h : c.Accepted) (hprefilled : c.prefilledtxn = [⟨0, coinbase⟩])
    (hshort : c.shorttxids = vtx.map fun tx => c.getShortID E (tx.getWitnessHash H))
    (hcount : vtx.length < 2 ^ 16 - 1) (hids : ShortIdsDiffer E H c.header c.nonce known)
    (hblock : ∀ t ∈ coinbase :: vtx, t ∈ known) (hpool : ∀ t ∈ pool, t ∈ known)
    (hextra : ∀ t ∈ extra, t ∈ known)
    (hs : scans E H c pool (extra.map fun tx => (tx.getWitnessHash H, some tx)) = .ok s) :
    Sized c.blockTxCount s ∧ Faithful H known (coinbase :: vtx) s := by
  have hlookup : ∀ tx ∈ known, ∀ pos,
      c.idMap.lookup (c.getShortID E (tx.getWitnessHash H)) = some pos →
        ∃ t, (coinbase :: vtx)[pos]? = some t ∧ tx.getWitnessHash H = t.getWitnessHash H :=
    fun tx htx pos => lookup_ofBlock h hprefilled hshort hcount hids
      (fun t ht => hblock t (List.mem_cons_of_mem _ ht)) htx
  obtain ⟨s', hs', hgood⟩ : ∃ s', scans E H c pool
      (extra.map fun tx => (tx.getWitnessHash H, some tx)) = .ok s' ∧
      Sized c.blockTxCount s' ∧ Faithful H known (coinbase :: vtx) s' := by
    refine scans_keep ⟨sized_start c, faithful_start hprefilled (hblock _ List.mem_cons_self)⟩
      (fun tx htx s pos hs hpos => ?_) fun e he s pos hs hpos => ?_
    · obtain ⟨s', new, count, htake, hw, hcases⟩ := takeMempool_spec hs.1 (lookup_place h hpos).1 tx
      refine ⟨s', htake, hw.sized, hs.2.writes hw fun t ht => ?_⟩
      rcases hcases with ⟨-, rfl, -⟩ | ⟨u, -, rfl, -⟩ | ⟨-, rfl, -⟩
      · cases ht
        exact ⟨hpool tx htx, hlookup tx (hpool tx htx) pos hpos⟩
      · cases ht
      · cases ht
    · obtain ⟨tx, htx, rfl⟩ := List.mem_map.mp he
      obtain ⟨s', new, count, htake, hw, hcases⟩ := takeExtra_spec (H := H) hs.1
        (lookup_place h hpos).1 (some tx) fun _ _ => by simp
      refine ⟨s', htake, hw.sized, hs.2.writes hw fun t ht => ?_⟩
      rcases hcases with ⟨-, rfl, -⟩ | ⟨u, hu, ⟨rfl, -⟩ | ⟨rfl, -⟩⟩ | ⟨-, rfl, -⟩
      · cases ht
        exact ⟨hextra tx htx, hlookup tx (hextra tx htx) pos hpos⟩
      · cases ht
      · exact hs.2 pos t (by rw [hu]; exact ht)
      · cases ht
  cases hs'.symm.trans hs
  exact hgood

/-- Where every found transaction has the witness hash of the place, so has
every transaction of the block that is filled in. -/
theorem filled_hashes {avail : List (Option CTransaction)} (hlen : avail.length = vtx.length)
    (h : ∀ p tx, avail.getD p none = some tx →
      tx ∈ known ∧ ∃ t, vtx[p]? = some t ∧ tx.getWitnessHash H = t.getWitnessHash H) :
    (filled avail vtx).map (CTransaction.getWitnessHash H) =
        vtx.map (CTransaction.getWitnessHash H) ∧
      ∀ tx ∈ filled avail vtx, tx ∈ known ∨ tx ∈ vtx := by
  induction avail generalizing vtx with
  | nil => rw [List.length_eq_zero_iff.mp hlen.symm]; exact ⟨rfl, fun tx htx => nomatch htx⟩
  | cons found avail ih =>
    cases vtx with
    | nil => cases hlen
    | cons t vtx =>
      obtain ⟨hrest, hmem⟩ := ih (Nat.succ.inj hlen) fun p tx hp => h (p + 1) tx hp
      rw [filled, List.zipWith_cons_cons, ← filled, List.map_cons, List.map_cons, hrest]
      cases found with
      | none =>
        refine ⟨rfl, fun tx htx => ?_⟩
        rcases List.mem_cons.mp htx with rfl | htx
        · exact Or.inr List.mem_cons_self
        · exact (hmem tx htx).imp_right (List.mem_cons_of_mem _)
      | some found =>
        obtain ⟨hknown, u, hu, hsame⟩ := h 0 found rfl
        cases hu
        refine ⟨by rw [Option.getD_some, hsame], fun tx htx => ?_⟩
        rcases List.mem_cons.mp htx with rfl | htx
        · exact Or.inl hknown
        · exact (hmem tx htx).imp_right (List.mem_cons_of_mem _)

end Rebuild

/-! ## The block that is rebuilt -/

/-- Two lists of transactions with the same witness hashes. -/
theorem eq_of_witnessHashes {H : Hashes} {known l l' : List CTransaction}
    (hinj : Set.InjOn (CTransaction.getWitnessHash H) {tx | tx ∈ known})
    (hl : ∀ tx ∈ l, tx ∈ known) (hl' : ∀ tx ∈ l', tx ∈ known)
    (h : l.map (CTransaction.getWitnessHash H) = l'.map (CTransaction.getWitnessHash H)) :
    l = l' := by
  induction l generalizing l' with
  | nil => exact (List.map_eq_nil_iff.mp h.symm).symm
  | cons tx l ih =>
    cases l' with
    | nil => cases h
    | cons tx' l' =>
      rw [List.map_cons, List.map_cons, List.cons.injEq] at h
      rw [hinj (hl tx List.mem_cons_self) (hl' tx' List.mem_cons_self) h.1,
        ih (fun t ht => hl t (List.mem_cons_of_mem _ ht))
          (fun t ht => hl' t (List.mem_cons_of_mem _ ht)) h.2]

/-- A block that `InitData` takes in its compact form, and whose missing
transactions `FillBlock` gets, is put together again: the same header, and at
every place a transaction with the same witness hash, which is the same
transaction unless two different ones share a witness hash. -/
theorem fillBlock_rebuilds (E : ShortIdEnv) (H : Hashes) (checkBlock : CBlock → Option Bool)
    (nonce : UInt64) (block : CBlock) (c : CBlockHeaderAndShortTxIDs)
    (pool extra : List CTransaction) (b : PartiallyDownloadedBlock)
    (hcount : 1 ≤ block.vtx.length ∧ block.vtx.length ≤ 65535)
    (hc : ofBlock E H nonce block true = some c)
    (hids : ShortIdsDiffer E H block.toCBlockHeader nonce (block.vtx ++ pool ++ extra))
    (hinit : initData E H c pool (extra.map fun tx => (tx.getWitnessHash H, some tx)) = .ok b) :
    ∃ rebuilt : CBlock, (fillBlock checkBlock b (b.missing block)).2 = some rebuilt ∧
      rebuilt.toCBlockHeader = block.toCBlockHeader ∧
      rebuilt.vtx.map (CTransaction.getWitnessHash H) =
        block.vtx.map (CTransaction.getWitnessHash H) ∧
      (Set.InjOn (CTransaction.getWitnessHash H) {tx | tx ∈ block.vtx ++ pool ++ extra} →
        rebuilt.vtx = block.vtx) := by
  obtain ⟨coinbase, vtx, hvtx, hnonce, hshort, hprefilled, hheader⟩ := ofBlock_spec hc
  have hacc : c.Accepted := by
    by_contra hnot
    rw [initData_rejected hnot] at hinit
    cases hinit
  have hlen : vtx.length + 1 = block.vtx.length := by rw [hvtx, List.length_cons]
  rw [initData_scans hacc (Or.inl (by rw [hprefilled, List.length_singleton]; decide))] at hinit
  split at hinit
  swap
  · cases hinit
  cases hs : scans E H c pool (extra.map fun tx => (tx.getWitnessHash H, some tx)) with
  | error e =>
    rw [hs] at hinit
    cases hinit
  | ok s =>
    rw [hs] at hinit
    obtain rfl := Except.ok.inj hinit
    rw [← hheader, ← hnonce] at hids
    obtain ⟨hsized, hfaithful⟩ := scans_faithful hacc hprefilled hshort (by omega) hids
      (fun t ht => List.mem_append_left _ (List.mem_append_left _ (hvtx ▸ ht)))
      (fun t ht => List.mem_append_left _ (List.mem_append_right _ ht))
      (fun t ht => List.mem_append_right _ ht) hs
    have hplaces : s.txn_available.length = block.vtx.length := by
      rw [hsized.txn_available, blockTxCount, hshort, hprefilled,
        List.length_map, List.length_singleton, hlen]
    rw [← hvtx] at hfaithful
    obtain ⟨hhashes, hknown⟩ := filled_hashes hplaces hfaithful
    have hfill : (fillTxs s.txn_available (missingFrom s.txn_available block.vtx)) =
        some (filled s.txn_available block.vtx, []) := fillTxs_missing hplaces
    refine ⟨{ c.header with vtx := filled s.txn_available block.vtx }, ?_, hheader, hhashes,
      fun hinj => ?_⟩
    · rw [missing_eq hacc.header, fillBlock]
      rw [hfill]
      dsimp only
      rw [if_neg (by simp)]
      split <;> rfl
    · exact eq_of_witnessHashes hinj
        (fun tx htx => (hknown tx htx).elim id fun hblock =>
          List.mem_append_left _ (List.mem_append_left _ hblock))
        (fun tx htx => List.mem_append_left _ (List.mem_append_left _ htx)) hhashes

/-- Short ids that are the first six bytes of a hash. -/
def sampleShortIds : ShortIdEnv where
  sha256 _ := 0
  sipHashUint256 _ _ hash := UInt64.ofNat hash.toNat
  bucketSize _ _ := 1

/-- A block with a coinbase and two transactions, for the proof below. -/
def sampleCompactBlock : CBlock where
  nVersion := 1
  hashPrevBlock := 0
  hashMerkleRoot := 0
  nTime := 0
  nBits := 1
  nNonce := 0
  auxpow := none
  vtx := [smallTx, { smallTx with nVersion := 2 }, { smallTx with nVersion := 3 }]

/-- A mempool with the last of them and one that is not in the block. -/
def samplePool : List CTransaction :=
  [{ smallTx with nVersion := 9 }, { smallTx with nVersion := 3 }]

theorem fillBlock_rebuilds_sample :
    ∃ (c : CBlockHeaderAndShortTxIDs) (b : PartiallyDownloadedBlock) (rebuilt : CBlock),
      ofBlock sampleShortIds CAuxPow.sampleHashes 7 sampleCompactBlock
        true = some c ∧
      initData sampleShortIds CAuxPow.sampleHashes c samplePool [] = .ok b ∧
      b.missing sampleCompactBlock = [{ smallTx with nVersion := 2 }] ∧
      (fillBlock (fun _ => none) b (b.missing sampleCompactBlock)).2 = some rebuilt ∧
      rebuilt.vtx = sampleCompactBlock.vtx := by
  have hinit : ∃ c b, ofBlock sampleShortIds CAuxPow.sampleHashes 7
      sampleCompactBlock true = some c ∧
        initData sampleShortIds CAuxPow.sampleHashes c samplePool [] = .ok b ∧
        b.missing sampleCompactBlock = [{ smallTx with nVersion := 2 }] := by
    refine ⟨_, { header := sampleCompactBlock.toCBlockHeader
                 txn_available := [some smallTx, none, some { smallTx with nVersion := 3 }]
                 prefilled_count := 1, mempool_count := 1, extra_count := 0 }, rfl, ?_, ?_⟩
    · decide +kernel
    · decide +kernel
  obtain ⟨c, b, hc, hb, hmissing⟩ := hinit
  have hids : ShortIdsDiffer sampleShortIds CAuxPow.sampleHashes sampleCompactBlock.toCBlockHeader
      7 (sampleCompactBlock.vtx ++ samplePool ++ []) := by
    unfold ShortIdsDiffer
    decide +kernel
  have hinj : ∀ t ∈ sampleCompactBlock.vtx ++ samplePool ++ [],
      ∀ u ∈ sampleCompactBlock.vtx ++ samplePool ++ [],
        t.getWitnessHash CAuxPow.sampleHashes = u.getWitnessHash CAuxPow.sampleHashes → t = u := by
    decide +kernel
  obtain ⟨rebuilt, hfill, -, -, hsame⟩ := fillBlock_rebuilds sampleShortIds CAuxPow.sampleHashes
    (fun _ => none) 7 sampleCompactBlock c samplePool [] b (by decide) hc hids hb
  exact ⟨c, b, rebuilt, hc, hb, hmissing, hfill, hsame fun t ht u hu => hinj t ht u hu⟩

end junkcoin
