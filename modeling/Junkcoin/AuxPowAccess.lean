-- Which memory `CAuxPow::check` touches: the same checks with every index,
-- read and shift of the C++ code made explicit, and the one access that can go
-- wrong.
import Junkcoin.ProcessHeaders

namespace junkcoin

namespace CAuxPow

/-! ## The check with its accesses -/

/-- `tx->vin[0].scriptSig`. -/
def firstScript (a : CAuxPow) : Check CScript :=
  match a.tx.vin with
  | [] => .error (.crash "tx->vin[0]")
  | txin :: _ => .ok txin.scriptSig

/-- `memcpy` of four bytes at `pc`, which must lie within the script. -/
def readAt (script : CScript) (pc : Nat) : Check (BitVec 32) := do
  assert (pc + 4 ≤ script.length) "memcpy"
  .ok (readLE32 script pc)

/-- `1u << h`, which has no meaning from 32 on. -/
def shiftOne (h : Nat) : Check (BitVec 32) := do
  assert (h < 32) "1u << merkleHeight"
  .ok (1#32 <<< h)

/-- `getExpectedIndex`, which shifts the `int` one. -/
def expectedIndexAt (nNonce : BitVec 32) (nChainId : Int) (h : Nat) : Check Int := do
  assert (h < 31) "1 << h"
  .ok (getExpectedIndex nNonce nChainId h)

/-- The tests that look for the merged-mining header. An iterator may be moved
up to the end of the script. -/
def checkHeaderPlace (script : CScript) (pc : Nat) : Option Nat → Check Unit
  | some pcHead => do
    assert (pcHead + 1 ≤ script.length) "pcHead + 1"
    errorIf (Bytes.search pchMergedMiningHeader (script.drop (pcHead + 1))).isSome
      "Multiple merged mining headers in coinbase"
    assert (pcHead + pchMergedMiningHeader.length ≤ script.length)
      "pcHead + sizeof(pchMergedMiningHeader)"
    errorIf (pcHead + pchMergedMiningHeader.length != pc)
      "Merged mining header is not just before chain merkle root"
  | none =>
    errorIf (pc > 20)
      "Aux POW chain merkle root must start in the first 20 bytes of the parent coinbase"

/-- The tests of the size and the nonce behind the chain merkle root. -/
def checkSlot (a : CAuxPow) (nChainId : Int) (script : CScript) (pc : Nat) : Check Unit := do
  errorIf (script.length < pc + 8)
    "Aux POW missing chain merkle tree size and nonce in parent coinbase"
  let nSize ← readAt script pc
  let merkleHeight := a.vChainMerkleBranch.length
  let size ← shiftOne merkleHeight
  errorIf (nSize != size) "Aux POW merkle branch size does not match parent coinbase"
  let nNonce ← readAt script (pc + 4)
  let index ← expectedIndexAt nNonce nChainId merkleHeight
  errorIf (a.nChainIndex != index) "Aux POW wrong index"

variable (H : Hashes)

/-- `CAuxPow::check`, with each access to memory and each shift as a step that
can fail. -/
def checkAccess (a : CAuxPow) (hashAuxBlock : Uint256) (nChainId : Int) (params : Params) :
    Check Unit := do
  errorIf (a.nIndex != 0) "AuxPow is not a generate"
  errorIf (params.fStrictChainId && a.parentBlock.getChainId == nChainId)
    "Aux POW parent has our chain ID"
  errorIf (a.vChainMerkleBranch.length > 30) "Aux POW chain merkle branch too long"
  let nRootHash := checkMerkleBranch H hashAuxBlock a.vChainMerkleBranch a.nChainIndex
  let vchRootHash := nRootHash.bytes.reverse
  errorIf (checkMerkleBranch H (a.tx.getHash H) a.vMerkleBranch a.nIndex
    != a.parentBlock.hashMerkleRoot) "Aux POW merkle root incorrect"
  let script ← a.firstScript
  match Bytes.search vchRootHash script with
  | none => .error (.error "Aux POW missing chain merkle root in parent coinbase")
  | some pc =>
    checkHeaderPlace script pc (Bytes.search pchMergedMiningHeader script)
    assert (pc + vchRootHash.length ≤ script.length) "pc += vchRootHash.size()"
    a.checkSlot nChainId script (pc + vchRootHash.length)

/-! ## Every access but the first is within bounds -/

/-- What `std::search` finds lies within the list. -/
theorem search_le {pat l : List UInt8} {i : Nat} (hpat : pat ≠ [])
    (h : Bytes.search pat l = some i) : i + pat.length ≤ l.length := by
  have hlen := congrArg List.length (Bytes.search_some h)
  have hpos := List.length_pos_iff.mpr hpat
  rw [List.length_take, List.length_drop] at hlen
  omega

/-- The iterators that are moved behind the header stay within the script. -/
theorem checkHeaderPlace_some {script : CScript} {pc pcHead : Nat}
    (h : Bytes.search pchMergedMiningHeader script = some pcHead) :
    checkHeaderPlace script pc (some pcHead) = (do
      errorIf (Bytes.search pchMergedMiningHeader (script.drop (pcHead + 1))).isSome
        "Multiple merged mining headers in coinbase"
      errorIf (pcHead + pchMergedMiningHeader.length != pc)
        "Merged mining header is not just before chain merkle root") := by
  have hle := search_le (by decide) h
  have hone : pcHead + 1 ≤ script.length := by
    have : pchMergedMiningHeader.length = 4 := rfl
    omega
  unfold checkHeaderPlace
  dsimp only
  rw [assert_bind (decide_eq_true hone)]
  refine bind_congr_ok fun _ _ => ?_
  rw [assert_bind (decide_eq_true hle)]

/-- The reads and the shifts behind the chain merkle root are within bounds. -/
theorem checkSlot_eq {a : CAuxPow} (hshort : a.vChainMerkleBranch.length ≤ 30) (nChainId : Int)
    (script : CScript) (pc : Nat) :
    a.checkSlot nChainId script pc = (do
      errorIf (script.length < pc + 8)
        "Aux POW missing chain merkle tree size and nonce in parent coinbase"
      errorIf (readLE32 script pc != 1#32 <<< a.vChainMerkleBranch.length)
        "Aux POW merkle branch size does not match parent coinbase"
      errorIf (a.nChainIndex !=
          getExpectedIndex (readLE32 script (pc + 4)) nChainId a.vChainMerkleBranch.length)
        "Aux POW wrong index") := by
  have hread : ∀ k, k + 4 ≤ script.length → readAt script k = .ok (readLE32 script k) := by
    intro k hk
    unfold readAt
    rw [assert_bind (decide_eq_true hk)]
  have hsize : shiftOne a.vChainMerkleBranch.length =
      .ok (1#32 <<< a.vChainMerkleBranch.length) := by
    unfold shiftOne
    rw [assert_bind (decide_eq_true (by omega))]
  have hindex : ∀ nNonce, expectedIndexAt nNonce nChainId a.vChainMerkleBranch.length =
      .ok (getExpectedIndex nNonce nChainId a.vChainMerkleBranch.length) := by
    intro nNonce
    unfold expectedIndexAt
    rw [assert_bind (decide_eq_true (by omega))]
  refine bind_congr_ok fun _ hlen => ?_
  rw [errorIf_ok, decide_eq_false_iff_not] at hlen
  dsimp only
  rw [hread pc (by omega), hsize, hread (pc + 4) (by omega)]
  change (errorIf _ _ >>= _) = (errorIf _ _ >>= _)
  refine bind_congr_ok fun _ _ => ?_
  change (expectedIndexAt _ _ _ >>= _) = _
  rw [hindex]
  rfl

theorem checkAccess_eq (a : CAuxPow) (hashAuxBlock : Uint256) (nChainId : Int) (params : Params) :
    a.checkAccess H hashAuxBlock nChainId params = a.check H hashAuxBlock nChainId params := by
  refine bind_congr_ok fun _ _ => bind_congr_ok fun _ _ => bind_congr_ok fun _ hshort =>
    bind_congr_ok fun _ _ => ?_
  rw [errorIf_ok, decide_eq_false_iff_not, Nat.not_lt] at hshort
  rcases hvin : a.tx.vin with _ | ⟨txin, rest⟩
  · simp only [firstScript, hvin]
    rfl
  · simp only [firstScript, hvin]
    refine Eq.trans ?_ (assert_bind rfl _).symm
    dsimp only [bind, Except.bind, List.head?_cons, Option.map_some, Option.getD_some]
    rcases hroot : Bytes.search _ txin.scriptSig with _ | pc
    · rfl
    · have hbytes : (checkMerkleBranch H hashAuxBlock a.vChainMerkleBranch
          a.nChainIndex).bytes.reverse ≠ [] := by
        intro h
        have := congrArg List.length h
        cases this
      have hle := search_le hbytes hroot
      dsimp only
      rw [assert_of (decide_eq_true hle)]
      rw [checkSlot_eq hshort]
      rcases hhead : Bytes.search pchMergedMiningHeader txin.scriptSig with _ | pcHead
      · rfl
      · rw [checkHeaderPlace_some hhead]
        dsimp only [bind, Except.bind]
        cases errorIf (Bytes.search pchMergedMiningHeader
          (List.drop (pcHead + 1) txin.scriptSig)).isSome _ with
        | error e => rfl
        | ok u => rfl

end CAuxPow

/-! ## The one access that can fail -/

/-- `CAuxPow::check` makes no access outside the transaction or the script and
no shift by 32 or more, exactly when it does not come to the read of the first
input of a transaction that has none. -/
theorem auxpow_check_total_iff (H : Hashes) (a : CAuxPow) (hashAuxBlock : Uint256)
    (nChainId : Int) (params : Params) :
    (∀ what, a.checkAccess H hashAuxBlock nChainId params ≠ .error (.crash what)) ↔
      ¬ (a.tx.vin = [] ∧ a.nIndex = 0 ∧
        (params.fStrictChainId && a.parentBlock.getChainId == nChainId) = false ∧
        a.vChainMerkleBranch.length ≤ 30 ∧
        CAuxPow.checkMerkleBranch H (a.tx.getHash H) a.vMerkleBranch a.nIndex =
          a.parentBlock.hashMerkleRoot) := by
  rw [CAuxPow.checkAccess_eq]
  constructor
  · rintro h ⟨hvin, hindex, hchain, hshort, hroot⟩
    exact h _ (CAuxPow.MissesInput.check ⟨hindex, hchain, hshort, hroot, hvin⟩)
  · intro h what hcrash
    rcases CAuxPow.check_fails _ hcrash with ⟨_, hlogged⟩ | hmiss
    · cases hlogged
    · exact h ⟨hmiss.vin, hmiss.index, hmiss.chain, hmiss.short, hmiss.root⟩

/-- The proof whose parent coinbase has no inputs is read from the wire, and
its check reads the first input. -/
theorem inputless_auxpow_read_past_end :
    CAuxPow.unserialize true (inputlessAuxPow.serialize true) = .ok (inputlessAuxPow, []) ∧
      failureOf (inputlessAuxPow.checkAccess regtestNode.env.H 5 0x2021 regtestConsensus) =
        some (.crash "tx->vin[0]") := by
  constructor
  · decide +kernel
  · decide +kernel

end junkcoin
