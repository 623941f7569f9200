-- Merged mining (`auxpow.cpp`): what `CAuxPow::check` accepts, and that one
-- parent coinbase proves work for one block of a chain only.
import Junkcoin.Merkle
import Junkcoin.ChainParams
import Junkcoin.Lib.HashPath

namespace junkcoin

def pchMergedMiningHeader : List UInt8 := [0xfa, 0xbe, 0x6d, 0x6d]

/-- The little-endian number in the four bytes from `pc`. -/
def readLE32 (script : CScript) (pc : Nat) : BitVec 32 :=
  BitVec.ofNat 32 (Bytes.ofLe ((script.drop pc).take 4))

/-- The turns of a merkle branch: a set bit of the index means that the
sibling is on the left. -/
def branchSteps : List Uint256 → (nIndex : Int) → List (Bool × Uint256)
  | [], _ => []
  | it :: rest, nIndex => (nIndex % 2 == 1, it) :: branchSteps rest (nIndex / 2)

namespace CAuxPow

/-- The slot of a chain in the merkle tree of the parent. -/
def getExpectedIndex (nNonce : BitVec 32) (nChainId : Int) (h : Nat) : Int :=
  let rand := nNonce * 1103515245#32 + 12345#32
  let rand := rand + BitVec.ofInt 32 nChainId
  let rand := rand * 1103515245#32 + 12345#32
  (rand.toNat % 2 ^ h : Nat)

variable (H : Hashes)

def checkMerkleBranch (hash : Uint256) (vMerkleBranch : List Uint256) (nIndex : Int) : Uint256 :=
  if nIndex = -1 then 0
  else HashPath.fold (Function.uncurry (hashNodes H)) hash (branchSteps vMerkleBranch nIndex)

/-- `CAuxPow::check`. Where it succeeds the C++ function returns true; a
transaction without inputs makes it read past the end of `vin`. -/
def check (a : CAuxPow) (hashAuxBlock : Uint256) (nChainId : Int) (params : Params) :
    Check Unit := do
  errorIf (a.nIndex != 0) "AuxPow is not a generate"
  errorIf (params.fStrictChainId && a.parentBlock.getChainId == nChainId)
    "Aux POW parent has our chain ID"
  errorIf (a.vChainMerkleBranch.length > 30) "Aux POW chain merkle branch too long"
  let nRootHash := checkMerkleBranch H hashAuxBlock a.vChainMerkleBranch a.nChainIndex
  let vchRootHash := nRootHash.bytes.reverse
  errorIf (checkMerkleBranch H (a.tx.getHash H) a.vMerkleBranch a.nIndex
    != a.parentBlock.hashMerkleRoot) "Aux POW merkle root incorrect"
  assert (!a.tx.vin.isEmpty) "tx->vin[0]"
  let script := (a.tx.vin.head?.map (·.scriptSig)).getD []
  let pcHead := Bytes.search pchMergedMiningHeader script
  match Bytes.search vchRootHash script with
  | none => .error (.error "Aux POW missing chain merkle root in parent coinbase")
  | some pc =>
    match pcHead with
    | some pcHead =>
      errorIf (Bytes.search pchMergedMiningHeader (script.drop (pcHead + 1))).isSome
        "Multiple merged mining headers in coinbase"
      errorIf (pcHead + pchMergedMiningHeader.length != pc)
        "Merged mining header is not just before chain merkle root"
    | none =>
      errorIf (pc > 20)
        "Aux POW chain merkle root must start in the first 20 bytes of the parent coinbase"
    let pc := pc + vchRootHash.length
    errorIf (script.length < pc + 8)
      "Aux POW missing chain merkle tree size and nonce in parent coinbase"
    let merkleHeight := a.vChainMerkleBranch.length
    errorIf (readLE32 script pc != 1#32 <<< merkleHeight)
      "Aux POW merkle branch size does not match parent coinbase"
    errorIf (a.nChainIndex != getExpectedIndex (readLE32 script (pc + 4)) nChainId merkleHeight)
      "Aux POW wrong index"

/-! ## What an accepted proof says -/

/-- The script in which the chain merkle root must stand. -/
def coinbaseScript (a : CAuxPow) : CScript := (a.tx.vin.head?.map (·.scriptSig)).getD []

/-- The facts that `check` establishes about a coinbase with a header. -/
structure Proves (a : CAuxPow) (hash : Uint256) (nChainId : Int) (pcHead : Nat) : Prop where
  root : ((a.coinbaseScript.drop (pcHead + 4)).take 32) =
    (checkMerkleBranch H hash a.vChainMerkleBranch a.nChainIndex).bytes.reverse
  short : a.vChainMerkleBranch.length ≤ 30
  size : readLE32 a.coinbaseScript (pcHead + 36) = 1#32 <<< a.vChainMerkleBranch.length
  index : a.nChainIndex = getExpectedIndex (readLE32 a.coinbaseScript (pcHead + 40)) nChainId
    a.vChainMerkleBranch.length

theorem length_bytes (h : Uint256) : h.bytes.length = 32 := Bytes.length_le 32 _

variable {H}

/-- What an accepted proof with a merged-mining header says. -/
theorem proves_of_check {a : CAuxPow} {hash : Uint256} {nChainId : Int} {params : Params}
    {pcHead : Nat} (hh : Bytes.search pchMergedMiningHeader a.coinbaseScript = some pcHead)
    (h : a.check H hash nChainId params = .ok ()) : a.Proves H hash nChainId pcHead := by
  obtain ⟨_, _, h⟩ := bind_ok h
  obtain ⟨_, _, h⟩ := bind_ok h
  obtain ⟨_, hlen, h⟩ := bind_ok h
  obtain ⟨_, _, h⟩ := bind_ok h
  obtain ⟨_, _, h⟩ := bind_ok h
  simp only at h
  rw [show (a.tx.vin.head?.map (·.scriptSig)).getD [] = a.coinbaseScript from rfl, hh] at h
  split at h
  · cases h
  · rename_i pc hpc
    obtain ⟨_, hadj, h⟩ := bind_ok h
    obtain ⟨_, hadj, h⟩ := bind_ok h
    obtain ⟨_, _, h⟩ := bind_ok h
    obtain ⟨_, hsize, h⟩ := bind_ok h
    simp only [errorIf_ok, bne_eq_false_iff_eq, decide_eq_false_iff_not, List.length_reverse,
      length_bytes] at hlen hadj hsize h
    have hpcHead : pc = pcHead + 4 := hadj.symm
    subst hpcHead
    have hroot := Bytes.search_some hpc
    exact ⟨hroot, by omega, hsize, h⟩

theorem expectedIndex_nonneg (nNonce : BitVec 32) (nChainId : Int) (h : Nat) :
    0 ≤ getExpectedIndex nNonce nChainId h := by
  exact Int.natCast_nonneg _

/-- The size field tells the length of the branch. -/
theorem shift_inj {m n : Nat} (hm : m ≤ 30) (hn : n ≤ 30) (h : 1#32 <<< m = 1#32 <<< n) :
    m = n := by
  have ht := congrArg BitVec.toNat h
  have small : ∀ k, k ≤ 30 → 2 ^ k < 2 ^ 32 := fun k hk =>
    Nat.pow_lt_pow_right (by decide) (by omega)
  simp only [BitVec.toNat_shiftLeft, BitVec.toNat_ofNat, Nat.shiftLeft_eq, Nat.one_mod,
    Nat.one_mul] at ht
  rw [Nat.mod_eq_of_lt (small m hm), Nat.mod_eq_of_lt (small n hn)] at ht
  exact Nat.pow_right_injective (Nat.le_refl 2) ht

theorem branchSteps_turns {p q : List Uint256} (h : p.length = q.length) (nIndex : Int) :
    (branchSteps p nIndex).map (·.1) = (branchSteps q nIndex).map (·.1) := by
  induction p generalizing q nIndex with
  | nil =>
    rw [List.eq_nil_of_length_eq_zero h.symm]
  | cons x p ih =>
    cases q with
    | nil => cases h
    | cons y q =>
      simp only [branchSteps, List.map_cons, List.cons.injEq, true_and]
      exact ih (by simpa using h) _

variable (H) in
/-- The pairs of nodes that are hashed from `hash` up to the chain merkle
root. -/
def chainNodes (a : CAuxPow) (hash : Uint256) : List (Uint256 × Uint256) :=
  HashPath.inputs (Function.uncurry (hashNodes H)) hash
    (branchSteps a.vChainMerkleBranch a.nChainIndex)

/-- Equal script bytes give equal roots, so the branches give equal folds. -/
theorem Proves.same_root {a b : CAuxPow} {hashA hashB : Uint256} {nChainId : Int} {pcHead : Nat}
    (hs : a.coinbaseScript = b.coinbaseScript) (ha : a.Proves H hashA nChainId pcHead)
    (hb : b.Proves H hashB nChainId pcHead) :
    checkMerkleBranch H hashA a.vChainMerkleBranch a.nChainIndex =
      checkMerkleBranch H hashB b.vChainMerkleBranch b.nChainIndex := by
  have h := ha.root
  rw [hs, hb.root] at h
  exact (Uint256.bytes_inj (List.reverse_injective h)).symm

theorem Proves.same_slot {a b : CAuxPow} {hashA hashB : Uint256} {nChainId : Int} {pcHead : Nat}
    (hs : a.coinbaseScript = b.coinbaseScript) (ha : a.Proves H hashA nChainId pcHead)
    (hb : b.Proves H hashB nChainId pcHead) :
    a.vChainMerkleBranch.length = b.vChainMerkleBranch.length ∧
      a.nChainIndex = b.nChainIndex := by
  have hsize := ha.size
  rw [hs, hb.size] at hsize
  have hlen := shift_inj hb.short ha.short hsize
  refine ⟨hlen.symm, ?_⟩
  rw [ha.index, hb.index, hs, hlen]

theorem Proves.fold_eq {a : CAuxPow} {hash : Uint256} {nChainId : Int} {pcHead : Nat}
    (h : a.Proves H hash nChainId pcHead) :
    checkMerkleBranch H hash a.vChainMerkleBranch a.nChainIndex =
      HashPath.fold (Function.uncurry (hashNodes H)) hash
        (branchSteps a.vChainMerkleBranch a.nChainIndex) := by
  have hpos := expectedIndex_nonneg (readLE32 a.coinbaseScript (pcHead + 40)) nChainId
    a.vChainMerkleBranch.length
  rw [← h.index] at hpos
  unfold checkMerkleBranch
  rw [if_neg (by omega)]

/-! ## The law -/

/-- One parent coinbase with a merged-mining header proves work for at most
one block of a chain, as long as no two of the node pairs that the two chain
branches hash collide. The coinbase script alone fixes the size field, the
nonce, the length of the branch and the index. -/
theorem one_coinbase_proves_one_block (a b : CAuxPow) (hashA hashB : Uint256) (nChainId : Int)
    (params : Params) (same_tx : a.tx = b.tx)
    (header : (Bytes.search pchMergedMiningHeader a.coinbaseScript).isSome)
    (no_collision : Set.InjOn (Function.uncurry (hashNodes H))
      {x | x ∈ a.chainNodes H hashA ∨ x ∈ b.chainNodes H hashB})
    (ha : a.check H hashA nChainId params = .ok ())
    (hb : b.check H hashB nChainId params = .ok ()) :
    hashA = hashB ∧ a.vChainMerkleBranch.length = b.vChainMerkleBranch.length ∧
      a.nChainIndex = b.nChainIndex ∧
      ∃ pcHead, Bytes.search pchMergedMiningHeader a.coinbaseScript = some pcHead ∧
        1#32 <<< a.vChainMerkleBranch.length = readLE32 a.coinbaseScript (pcHead + 36) ∧
        a.nChainIndex = getExpectedIndex (readLE32 a.coinbaseScript (pcHead + 40)) nChainId
          a.vChainMerkleBranch.length := by
  obtain ⟨pcHead, hh⟩ := Option.isSome_iff_exists.mp header
  have hs : a.coinbaseScript = b.coinbaseScript := by
    unfold coinbaseScript
    rw [same_tx]
  have pa := proves_of_check hh ha
  have pb := proves_of_check (hs ▸ hh) hb
  obtain ⟨hlen, hidx⟩ := pa.same_slot hs pb
  have hfold := pa.same_root hs pb
  rw [pa.fold_eq, pb.fold_eq] at hfold
  have turns := branchSteps_turns hlen a.nChainIndex
  refine ⟨?_, hlen, hidx, pcHead, hh, pa.size.symm, pa.index⟩
  exact (HashPath.fold_inj no_collision (fun x hx => Or.inl hx) (fun x hx => Or.inr hx)
    (by rw [turns, hidx]) hfold).1

/-- A hash that keeps the first 32 bytes, for the proof below. -/
def sampleHashes : Hashes where
  sha256d l := BitVec.ofNat 256 (Bytes.ofLe l)
  scrypt _ := 0

/-- A parent coinbase that carries the header, the root 5, the size 2 and
the nonce 0. -/
def sampleCoinbase : CTransaction where
  nVersion := 1
  vin := [{ prevout := .null
            scriptSig :=
              pchMergedMiningHeader ++ List.replicate 31 0 ++ [5, 2, 0, 0, 0, 0, 0, 0, 0] }]
  vout := []
  nLockTime := 0

def sampleAuxPow (nNonce : UInt32) : CAuxPow where
  tx := sampleCoinbase
  hashBlock := 0
  vMerkleBranch := []
  nIndex := 0
  vChainMerkleBranch := [7]
  nChainIndex := 0
  parentBlock :=
    { nVersion := 1, hashPrevBlock := 0, hashMerkleRoot := sampleCoinbase.getHash sampleHashes
      nTime := 0, nBits := 0, nNonce }

/-- Two parent blocks with one coinbase, both accepted. -/
theorem one_coinbase_proves_one_block_sample :
    (sampleAuxPow 0).check sampleHashes 5 0x2020 mainConsensus = .ok () ∧
      (sampleAuxPow 1).check sampleHashes 5 0x2020 mainConsensus = .ok () ∧
      (sampleAuxPow 0).nChainIndex = (sampleAuxPow 1).nChainIndex := by
  have h0 : (sampleAuxPow 0).check sampleHashes 5 0x2020 mainConsensus = .ok () := by
    decide +kernel
  have h1 : (sampleAuxPow 1).check sampleHashes 5 0x2020 mainConsensus = .ok () := by
    decide +kernel
  have hn : ∀ n, (sampleAuxPow n).chainNodes sampleHashes 5 = [(5, 7)] := fun _ => rfl
  refine ⟨h0, h1, (one_coinbase_proves_one_block (sampleAuxPow 0) (sampleAuxPow 1) 5 5 0x2020
    mainConsensus rfl (by decide +kernel) ?_ h0 h1).2.2.1⟩
  intro x hx y hy _
  simp only [hn, List.mem_singleton, or_self, Set.mem_ofPred_eq] at hx hy
  rw [hx, hy]

end CAuxPow

end junkcoin
