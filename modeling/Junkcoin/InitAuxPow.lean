-- The proof of work that a node builds for a block of its own
-- (`CAuxPow::initAuxPow`): a parent block with one transaction, whose
-- coinbase names the block. `CAuxPow::check` accepts it, except for one hash.
import Junkcoin.AuxPowAccess

namespace junkcoin

open CAuxPow

/-! ## initAuxPow -/

/-- `SetAuxpowFlag(true)`. -/
def CBlockHeader.setAuxpowFlag (header : CBlockHeader) : CBlockHeader :=
  { header with nVersion := header.nVersion ||| CPureBlockHeader.VERSION_AUXPOW }

/-- `SetAuxpow` with a proof of work. -/
def CBlockHeader.setAuxpow (header : CBlockHeader) (apow : CAuxPow) : CBlockHeader :=
  { header.setAuxpowFlag with auxpow := some apow }

namespace CAuxPow

/-- The data of the coinbase: the hash of the block, the size 1 of the merkle
tree and the nonce 0. -/
def inputData (blockHash : Uint256) : List UInt8 :=
  blockHash.bytes.reverse ++ [1] ++ List.replicate 7 0

/-- The coinbase of the parent. -/
def fakeCoinbase (blockHash : Uint256) : CTransaction where
  nVersion := 1
  vin := [{ prevout := .null, scriptSig := pushData (inputData blockHash) }]
  vout := []
  nLockTime := 0

variable (H : Hashes) (blockHash : Uint256) {hash : List UInt8}

/-- The parent block, with nothing but the coinbase. -/
def fakeParent (coinbase : CTransaction) : CBlock :=
  let parent : CBlock :=
    { nVersion := 1, hashPrevBlock := 0, hashMerkleRoot := 0, nTime := 0, nBits := 0, nNonce := 0,
      vtx := [coinbase] }
  { parent with hashMerkleRoot := (blockMerkleRoot H parent).1 }

/-- The proof that the parent block is for the block with the hash. -/
def fakeAuxPow : CAuxPow where
  tx := fakeCoinbase blockHash
  hashBlock := 0
  vMerkleBranch := []
  nIndex := 0
  vChainMerkleBranch := []
  nChainIndex := 0
  parentBlock := (fakeParent H (fakeCoinbase blockHash)).toCPureBlockHeader

/-- `CAuxPow::initAuxPow`. -/
def initAuxPow (header : CBlockHeader) : CBlockHeader :=
  let header := header.setAuxpowFlag
  header.setAuxpow (fakeAuxPow H (header.getHash H))

/-- `header.auxpow->check(header.GetHash(), header.GetChainId(), params)`. -/
def checkHeader (header : CBlockHeader) (params : Params) : Check Unit :=
  match header.auxpow with
  | none => .error (.crash "header.auxpow")
  | some auxpow => auxpow.check H (header.getHash H) header.getChainId params

/-! ## The parts of the check -/

/-- The merkle root of a block with one transaction is its hash. -/
theorem merkleRoot_single (leaf : Uint256) : (computeMerkleRoot H [leaf]).1 = leaf := by
  simp [computeMerkleRoot, addLeaves, mergeUp, lowestBit, sweep]

theorem parent_chainId (coinbase : CTransaction) : (fakeParent H coinbase).getChainId = 0 := by
  change ((1#32).sshiftRight 16).toInt = 0
  decide

/-- The script of the coinbase. -/
theorem coinbase_script :
    pushData (inputData blockHash) =
      0x28 :: (blockHash.bytes.reverse ++ 1 :: List.replicate 7 0) := by
  have hlen : (inputData blockHash).length = 40 := by
    simp [inputData, length_bytes]
  rfl

/-- The bytes around the hash are not bytes of the merged-mining header. -/
theorem search_header (h : Bytes.search pchMergedMiningHeader hash = none) :
    Bytes.search pchMergedMiningHeader (0x28 :: (hash ++ 1 :: List.replicate 7 0)) = none := by
  have htail : Bytes.search pchMergedMiningHeader (List.replicate 7 0) = none := by decide
  have hmid := Bytes.search_append_none (x := 1) (by decide) h htail
  exact Bytes.search_append_none (l := []) (by decide) (by decide) hmid

/-- A list that is its own start moved back by one is all one byte. -/
theorem replicate_of_shift {b : UInt8} {l : List UInt8} (h : l <+: b :: l) :
    l = List.replicate l.length b := by
  induction l generalizing b with
  | nil => rfl
  | cons c l ih =>
    obtain ⟨hc, hl⟩ := List.cons_prefix_cons.mp h
    subst hc
    rw [List.length_cons, List.replicate_succ, ← ih hl]

/-- The hash is found behind the size of the push, unless all of its bytes
are that size. -/
theorem search_root (hlen : hash.length = 32) :
    Bytes.search hash (0x28 :: (hash ++ 1 :: List.replicate 7 0)) =
      some (if hash = List.replicate 32 0x28 then 0 else 1) := by
  split
  · rename_i hall
    refine Bytes.search_of_prefix (by simp) ?_
    rw [hall]
    exact ⟨0x28 :: 1 :: List.replicate 7 0, by decide⟩
  · rename_i hall
    rw [Bytes.search_cons_of_not_prefix, Bytes.search_of_prefix]
    · rfl
    · simp
    · exact List.prefix_append _ _
    · intro hp
      refine hall ?_
      rw [← hlen]
      refine replicate_of_shift (List.prefix_of_prefix_length_le hp ?_ (by simp))
      exact List.cons_prefix_cons.mpr ⟨rfl, List.prefix_append _ _⟩

/-- The size behind the hash is read where the hash was found. -/
theorem readLE32_size (hlen : hash.length = 32) :
    readLE32 (0x28 :: (hash ++ 1 :: List.replicate 7 0)) 33 = 1#32 := by
  have hdrop : (0x28 :: (hash ++ 1 :: List.replicate 7 0)).drop 33 = 1 :: List.replicate 7 0 := by
    rw [List.drop_succ_cons, ← hlen, List.drop_left]
  rw [readLE32, hdrop]
  decide

/-- The tests behind the hash. -/
theorem checkSlot_fakeAuxPow (nChainId : Int) (hlen : hash.length = 32) :
    (fakeAuxPow H blockHash).checkSlot nChainId
      (0x28 :: (hash ++ 1 :: List.replicate 7 0)) 33 = .ok () := by
  have hscript : (0x28 :: (hash ++ 1 :: List.replicate 7 (0 : UInt8))).length = 41 := by
    simp [hlen]
  have hmod : ∀ n : Nat, ((n % 2 ^ 0 : Nat) : Int) = 0 := by
    intro n
    rw [pow_zero, Nat.mod_one]
    rfl
  have hindex : ∀ nNonce, getExpectedIndex nNonce nChainId 0 = 0 := fun nNonce => hmod _
  have hheight : (fakeAuxPow H blockHash).vChainMerkleBranch.length = 0 := rfl
  have hslot : (fakeAuxPow H blockHash).nChainIndex = 0 := rfl
  have hsize : readAt (0x28 :: (hash ++ 1 :: List.replicate 7 0)) 33 = .ok 1#32 := by
    rw [readAt, hscript, assert_bind (by decide), readLE32_size hlen]
  have hnonce : readAt (0x28 :: (hash ++ 1 :: List.replicate 7 0)) 37 =
      .ok (readLE32 (0x28 :: (hash ++ 1 :: List.replicate 7 0)) 37) := by
    rw [readAt, hscript, assert_bind (by decide)]
  have hexpected : ∀ nNonce, expectedIndexAt nNonce nChainId 0 = .ok 0 := by
    intro nNonce
    rw [expectedIndexAt, assert_bind (by decide), hindex]
  have hshift : shiftOne 0 = .ok 1#32 := by decide
  rw [checkSlot, errorIf_bind (by rw [hscript]; rfl), hsize, hheight, hslot, ok_bind]
  dsimp only
  rw [hshift, ok_bind, errorIf_bind (by simp), hnonce, ok_bind, hexpected, ok_bind, errorIf_ok]
  rfl

/-- The check of a proof that was built here. -/
theorem check_fakeAuxPow (nChainId : Int) (params : Params) (hchain : nChainId ≠ 0)
    (hmagic : Bytes.search pchMergedMiningHeader blockHash.bytes.reverse = none) :
    (fakeAuxPow H blockHash).check H blockHash nChainId params =
      if blockHash.bytes.reverse = List.replicate 32 0x28 then
        .error (.error "Aux POW merkle branch size does not match parent coinbase")
      else .ok () := by
  have hlen : blockHash.bytes.reverse.length = 32 := by
    rw [List.length_reverse, length_bytes]
  have hchainId : (params.fStrictChainId &&
      (fakeAuxPow H blockHash).parentBlock.getChainId == nChainId) = false := by
    rw [show (fakeAuxPow H blockHash).parentBlock.getChainId = 0 from parent_chainId H _]
    simp [Ne.symm hchain]
  have hroot : checkMerkleBranch H ((fakeAuxPow H blockHash).tx.getHash H)
      (fakeAuxPow H blockHash).vMerkleBranch (fakeAuxPow H blockHash).nIndex =
      (fakeAuxPow H blockHash).parentBlock.hashMerkleRoot :=
    (merkleRoot_single H _).symm
  have hself : checkMerkleBranch H blockHash (fakeAuxPow H blockHash).vChainMerkleBranch
      (fakeAuxPow H blockHash).nChainIndex = blockHash := rfl
  have hindex : ((fakeAuxPow H blockHash).nIndex != 0) = false := rfl
  have hshort : decide ((fakeAuxPow H blockHash).vChainMerkleBranch.length > 30) = false := rfl
  have hscript : (fakeAuxPow H blockHash).firstScript =
      .ok (0x28 :: (blockHash.bytes.reverse ++ 1 :: List.replicate 7 0)) :=
    congrArg Except.ok (coinbase_script blockHash)
  rw [← checkAccess_eq, checkAccess, errorIf_bind hindex, errorIf_bind hchainId,
    errorIf_bind hshort, errorIf_bind (bne_eq_false_iff_eq.mpr hroot), hscript, hself]
  simp only [bind, Except.bind, search_header hmagic, search_root hlen]
  by_cases hall : blockHash.bytes.reverse = List.replicate 32 0x28
  · rw [if_pos hall, if_pos hall, hall]
    rfl
  · rw [if_neg hall, if_neg hall]
    exact checkSlot_fakeAuxPow H blockHash nChainId hlen

end CAuxPow

/-! ## The check -/

/-- The flag does not change the chain id. -/
theorem CBlockHeader.getChainId_setAuxpowFlag (header : CBlockHeader) :
    header.setAuxpowFlag.getChainId = header.getChainId := by
  have hbits : CPureBlockHeader.VERSION_AUXPOW.sshiftRight 16 = 0#32 := by decide
  change ((header.nVersion ||| CPureBlockHeader.VERSION_AUXPOW).sshiftRight 16).toInt = _
  rw [BitVec.sshiftRight_or_distrib, hbits, BitVec.or_zero]
  rfl

/-- The header that `initAuxPow` leaves has the hash and the chain id that it
had with the flag. -/
theorem CAuxPow.checkHeader_eq (H : Hashes) (header : CBlockHeader) (params : Params) :
    checkHeader H (initAuxPow H header) params =
      (fakeAuxPow H (header.setAuxpowFlag.getHash H)).check H
        (header.setAuxpowFlag.getHash H) header.getChainId params := by
  have hflag : header.setAuxpowFlag.setAuxpowFlag = header.setAuxpowFlag := by
    simp [CBlockHeader.setAuxpowFlag, BitVec.or_assoc]
  have hhash : (initAuxPow H header).getHash H = header.setAuxpowFlag.getHash H := by
    change header.setAuxpowFlag.setAuxpowFlag.getHash H = _
    rw [hflag]
  have hid : (initAuxPow H header).getChainId = header.getChainId := by
    change header.setAuxpowFlag.setAuxpowFlag.getChainId = _
    rw [hflag, CBlockHeader.getChainId_setAuxpowFlag]
  rw [← hhash, ← hid, checkHeader]
  have hauxpow : (initAuxPow H header).auxpow =
      some (fakeAuxPow H (header.setAuxpowFlag.getHash H)) := rfl
  rw [hauxpow, hhash]

/-- A proof of work that `initAuxPow` builds passes the check, for every
header with a chain id whose hash does not hold the merged-mining header,
unless the 32 bytes of the hash are all `0x28`: then the hash is found one
byte too early in the coinbase, at the size of the push. -/
theorem initAuxPow_passes_iff (H : Hashes) (header : CBlockHeader) (params : Params)
    (hchain : header.getChainId ≠ 0)
    (hmagic : Bytes.search pchMergedMiningHeader
      (header.setAuxpowFlag.getHash H).bytes.reverse = none) :
    checkHeader H (initAuxPow H header) params = .ok () ↔
      (header.setAuxpowFlag.getHash H).bytes ≠ List.replicate 32 0x28 := by
  have hreverse : (header.setAuxpowFlag.getHash H).bytes.reverse = List.replicate 32 0x28 ↔
      (header.setAuxpowFlag.getHash H).bytes = List.replicate 32 0x28 := by
    rw [List.reverse_eq_iff, List.reverse_replicate]
  rw [checkHeader_eq, check_fakeAuxPow H _ _ params hchain hmagic, Ne, ← hreverse]
  split
  · rename_i hall
    simp [hall]
  · rename_i hall
    exact ⟨fun _ => hall, fun _ => rfl⟩

/-- A header with the chain id `0x2020`. -/
def chainHeader : CBlockHeader where
  nVersion := 0x20200004#32
  hashPrevBlock := 0
  hashMerkleRoot := 0
  nTime := 0
  nBits := 0
  nNonce := 0

/-- A hash function with one value. -/
def constantHash (value : Uint256) : Hashes where
  sha256d := fun _ => value
  scrypt := fun _ => 0

theorem initAuxPow_passes_five :
    chainHeader.getChainId ≠ 0 ∧
      checkHeader (constantHash 5) (initAuxPow (constantHash 5) chainHeader)
        mainConsensus = .ok () := by
  have hchain : chainHeader.getChainId ≠ 0 := by decide
  exact ⟨hchain, (initAuxPow_passes_iff (constantHash 5) chainHeader mainConsensus hchain
    (by decide +kernel)).mpr (by decide +kernel)⟩

/-- The hash whose bytes are all `0x28`. -/
def sizeBytesHash : Uint256 := BitVec.ofNat 256 (Bytes.ofLe (List.replicate 32 0x28))

/-- A block with that hash gets a proof that the check refuses. -/
theorem initAuxPow_refused_size_bytes :
    chainHeader.getChainId ≠ 0 ∧
      Bytes.search pchMergedMiningHeader
        (chainHeader.setAuxpowFlag.getHash (constantHash sizeBytesHash)).bytes.reverse = none ∧
      checkHeader (constantHash sizeBytesHash)
          (initAuxPow (constantHash sizeBytesHash) chainHeader) mainConsensus =
        .error (.error "Aux POW merkle branch size does not match parent coinbase") := by
  decide +kernel

end junkcoin
