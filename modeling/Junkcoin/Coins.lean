-- Unspent outputs (`coins.h`, `coins.cpp`, `undo.h`): the outputs of one
-- transaction, how one of them is spent and restored, and the cache through
-- which the node reads and changes them.
import Junkcoin.Primitives
import Junkcoin.Lib.WriteBack
import Junkcoin.Lib.Trim
import Mathlib.Algebra.Order.BigOperators.Group.List

namespace junkcoin

/-! ## The outputs of one transaction -/

structure CCoins where
  fCoinBase : Bool
  vout : List CTxOut
  nHeight : Int
  nVersion : BitVec 32
  deriving DecidableEq

/-- The undo data of one input. The height is zero unless the input spent
the last output of its transaction. -/
structure CTxInUndo where
  txout : CTxOut
  fCoinBase : Bool := false
  nHeight : Int := 0
  nVersion : BitVec 32 := 0
  deriving DecidableEq

/-- `CTxUndo::vprevout`. -/
abbrev CTxUndo := List CTxInUndo

/-- `CBlockUndo::vtxundo`, for all transactions but the coinbase. -/
abbrev CBlockUndo := List CTxUndo

namespace CCoins

variable (c : CCoins)

/-- The empty constructor, and what `Clear` leaves. -/
def empty : CCoins := ⟨false, [], 0, 0⟩

def isPruned : Bool := c.vout.all (·.isNull)

/-- The output at place `n`; past the end it is null. -/
def outAt (n : Nat) : CTxOut := Trim.get .null c.vout n

def isAvailable (nPos : Nat) : Bool := nPos < c.vout.length && !(c.outAt nPos).isNull

def cleanup : CCoins := { c with vout := Trim.trim CTxOut.isNull c.vout }

def dropUnspendable (o : CTxOut) : CTxOut := if isUnspendable o.scriptPubKey then .null else o

def clearUnspendable : CCoins := cleanup { c with vout := c.vout.map dropUnspendable }

def fromTx (tx : CTransaction) (nHeight : Int) : CCoins :=
  clearUnspendable ⟨tx.isCoinBase, tx.vout, nHeight, tx.nVersion⟩

/-- `CCoins::Spend` of an output that is available. -/
def spend (nPos : Nat) : CCoins := cleanup { c with vout := c.vout.set nPos .null }

/-- `operator==`: pruned objects are always equal. -/
def sameAs (a b : CCoins) : Bool := (a.isPruned && b.isPruned) || a == b

/-- The undo data that `UpdateCoins` records for the spend of one output. -/
def undoOf (nPos : Nat) : CTxInUndo :=
  let spent := c.spend nPos
  if spent.vout.length = 0 then ⟨c.outAt nPos, spent.fCoinBase, spent.nHeight, spent.nVersion⟩
  else { txout := c.outAt nPos }

/-- What `ApplyTxInUndo` does to the coins, and whether it was clean. -/
def applyUndo (undo : CTxInUndo) (c : CCoins) (n : Nat) : CCoins × Bool :=
  let fClean := if undo.nHeight ≠ 0 then c.isPruned else !c.isPruned
  let c := if undo.nHeight ≠ 0 then ⟨undo.fCoinBase, [], undo.nHeight, undo.nVersion⟩ else c
  ({ c with vout := Trim.put .null c.vout n undo.txout }, fClean && !c.isAvailable n)

/-- The values of the available outputs. -/
def availableValue (o : CTxOut) : Int := if o.isNull then 0 else o.nValue

def value : Int := (c.vout.map availableValue).sum

end CCoins

instance : WriteBack.Vacant CCoins where
  blank := .empty
  gone := CCoins.isPruned
  gone_blank := rfl

open WriteBack

/-- The coins that every reachable view holds: cleaned up, with the values
that `CheckTransaction` lets through, and from a block above genesis. -/
structure CCoins.Good (c : CCoins) : Prop where
  trimmed : Trim.Trimmed CTxOut.isNull c.vout
  canonical : Trim.Canonical CTxOut.isNull .null c.vout
  range : ∀ o ∈ c.vout, o.isNull = false → moneyRange o.nValue = true
  height : c.isPruned = false → 0 < c.nHeight

namespace CCoins

variable {c : CCoins}

theorem isPruned_tidy (c : CCoins) : (tidy c).isPruned = c.isPruned := gone_tidy c

theorem tidy_of_not_pruned (h : c.isPruned = false) : tidy c = c :=
  tidy_of_not_gone h

theorem null_isNull : CTxOut.isNull .null = true := rfl

theorem good_empty : Good .empty where
  trimmed := rfl
  canonical := fun _ h => nomatch h
  range := fun _ h => nomatch h
  height := fun h => nomatch h

/-- A cleaned-up object is pruned when it has no outputs at all. -/
theorem pruned_iff (h : Trim.Trimmed CTxOut.isNull c.vout) : c.isPruned = true ↔ c.vout = [] := by
  unfold isPruned
  rw [List.all_eq_true, ← Trim.trim_eq_nil_iff, h]

theorem not_pruned_of_available {n : Nat} (h : c.isAvailable n = true) : c.isPruned = false := by
  unfold isAvailable outAt at h
  simp only [Bool.and_eq_true, decide_eq_true_eq, Bool.not_eq_true'] at h
  rw [Trim.get_of_lt _ h.1] at h
  unfold isPruned
  rw [List.all_eq_false]
  exact ⟨_, List.getElem_mem h.1, by simp [h.2]⟩

theorem isAvailable_iff (c : CCoins) (n : Nat) :
    c.isAvailable n = true ↔ n < c.vout.length ∧ (c.outAt n).isNull = false := by
  simp [isAvailable]

/-- Past the end everything is null, so the test of the length is implied. -/
theorem isAvailable_eq (c : CCoins) (n : Nat) : c.isAvailable n = !(c.outAt n).isNull := by
  unfold isAvailable
  rcases Nat.lt_or_ge n c.vout.length with h | h
  · simp [h]
  · simp [outAt, Trim.get_of_le _ h, null_isNull]

/-! ## Spending one output -/

section Spend

variable {c : CCoins} {n : Nat}

theorem good_spend (h : c.Good) : (c.spend n).Good where
  trimmed := Trim.trimmed_trim _
  canonical := Trim.canonical_trim (Trim.canonical_set h.canonical n fun _ => rfl)
  range := by
    intro o ho hn
    rcases List.mem_or_eq_of_mem_set (Trim.trim_subset _ ho) with ho | rfl
    · exact h.range o ho hn
    · cases hn
  height := by
    intro hp
    refine h.height ?_
    unfold isPruned at *
    rw [List.all_eq_false] at hp ⊢
    obtain ⟨o, ho, hn⟩ := hp
    rcases List.mem_or_eq_of_mem_set (Trim.trim_subset _ ho) with ho | rfl
    · exact ⟨o, ho, hn⟩
    · exact absurd rfl hn

/-- Spending clears its own place and no other. -/
theorem outAt_spend {m : Nat} (h : (c.outAt m).isNull = true → c.outAt m = .null)
    (ha : c.isAvailable n = true) :
    (c.spend n).outAt m = if m = n then .null else c.outAt m := by
  have hset := Trim.get_set .null ((isAvailable_iff c n).mp ha).1 .null m
  unfold outAt spend cleanup at *
  rw [← hset]
  apply Trim.get_trim
  rw [hset]
  split
  · exact fun _ => rfl
  · exact h

/-- Spending takes one output out of a sum in which null outputs count
nothing. -/
theorem sum_spend {f : CTxOut → Int} (hf : ∀ o : CTxOut, o.isNull = true → f o = 0)
    (ha : c.isAvailable n = true) :
    ((c.spend n).vout.map f).sum = (c.vout.map f).sum - f (c.outAt n) := by
  unfold spend cleanup outAt
  rw [Trim.sum_trim hf, Trim.sum_set .null ((isAvailable_iff c n).mp ha).1, hf _ null_isNull,
    Int.add_zero]

theorem availableValue_null {o : CTxOut} (h : o.isNull = true) : availableValue o = 0 := if_pos h

/-- The undo data brings the spent output back, whether it was the last one
of its transaction or not. -/
theorem applyUndo_spend (h : c.Good) (ha : c.isAvailable n = true) :
    applyUndo (c.undoOf n) (tidy (c.spend n)) n = (c, true) := by
  have hp := h.height (not_pruned_of_available ha)
  obtain ⟨hlt, hx⟩ := (isAvailable_iff c n).mp ha
  have hback : Trim.put .null (c.spend n).vout n (c.outAt n) = c.vout :=
    Trim.put_trim_set null_isNull h.trimmed h.canonical hlt hx
  have hgone := pruned_iff (good_spend (n := n) h).trimmed
  by_cases hlast : (c.spend n).vout = []
  · -- the last output: the object is rebuilt from the metadata
    have htidy : tidy (c.spend n) = .empty := tidy_of_gone (hgone.mpr hlast)
    have hundo : c.undoOf n = ⟨c.outAt n, c.fCoinBase, c.nHeight, c.nVersion⟩ := by
      unfold undoOf
      rw [if_pos (by simp [hlast])]
      rfl
    rw [htidy, hundo]
    rw [hlast] at hback
    simp only [applyUndo]
    rw [if_pos (by omega), if_pos (by omega), hback]
    rfl
  · have hnot : (c.spend n).isPruned = false := by
      rw [Bool.eq_false_iff]
      exact fun he => hlast (hgone.mp he)
    have htidy : tidy (c.spend n) = c.spend n := tidy_of_not_gone hnot
    have hundo : c.undoOf n = { txout := c.outAt n } := by
      unfold undoOf
      rw [if_neg (by simpa using hlast)]
    have hfree : (c.spend n).isAvailable n = false := by
      rw [isAvailable_eq, outAt_spend h.canonical.get ha, if_pos rfl]
      rfl
    rw [htidy, hundo]
    simp only [applyUndo, ne_eq, not_true_eq_false, if_false, hnot, hfree, hback]
    rfl

end Spend

/-! ## The outputs of a new transaction -/

section FromTx

variable {tx : CTransaction} {nHeight : Int}

/-- The outputs that `CheckTransaction` lets through. -/
def OutputsInRange (tx : CTransaction) : Prop := ∀ o ∈ tx.vout, moneyRange o.nValue = true

theorem isNull_of_range {o : CTxOut} (h : moneyRange o.nValue = true) : o.isNull = false := by
  rw [moneyRange_iff] at h
  unfold CTxOut.isNull
  rw [beq_eq_false_iff_ne]
  omega

theorem canonical_map_dropUnspendable (h : OutputsInRange tx) :
    Trim.Canonical CTxOut.isNull .null (tx.vout.map dropUnspendable) := by
  intro o ho hn
  obtain ⟨x, hx, rfl⟩ := List.mem_map.mp ho
  unfold dropUnspendable at hn ⊢
  split at hn
  · rename_i hu
    rw [if_pos hu]
  · rw [isNull_of_range (h x hx)] at hn
    cases hn

theorem good_fromTx (h : OutputsInRange tx) (hh : 0 < nHeight) : (fromTx tx nHeight).Good where
  trimmed := Trim.trimmed_trim _
  canonical := Trim.canonical_trim (canonical_map_dropUnspendable h)
  range := by
    intro o ho hn
    obtain ⟨x, hx, rfl⟩ := List.mem_map.mp (Trim.trim_subset _ ho)
    unfold dropUnspendable at hn ⊢
    split at hn
    · cases hn
    · rename_i hu
      rw [if_neg hu]
      exact h x hx
  height := fun _ => hh

theorem pruned_clearUnspendable {c : CCoins} (h : c.isPruned = true) :
    c.clearUnspendable.isPruned = true := by
  unfold isPruned at h ⊢
  rw [List.all_eq_true] at h ⊢
  intro o ho
  obtain ⟨x, hx, rfl⟩ := List.mem_map.mp (Trim.trim_subset _ ho)
  unfold dropUnspendable
  split
  · rfl
  · exact h x hx

theorem dropUnspendable_idem (o : CTxOut) :
    dropUnspendable (dropUnspendable o) = dropUnspendable o := by
  unfold dropUnspendable
  by_cases h : isUnspendable o.scriptPubKey = true
  · rw [if_pos h]
    rfl
  · rw [if_neg h, if_neg h]

/-- Unspendable outputs are already gone from a new transaction. -/
theorem clearUnspendable_fromTx : (fromTx tx nHeight).clearUnspendable = fromTx tx nHeight := by
  have hsame : (fromTx tx nHeight).vout.map dropUnspendable = (fromTx tx nHeight).vout := by
    conv_rhs => rw [← List.map_id (fromTx tx nHeight).vout]
    refine List.map_congr_left fun o ho => ?_
    obtain ⟨x, _, rfl⟩ := List.mem_map.mp (Trim.trim_subset _ ho)
    exact dropUnspendable_idem x
  have htrim : Trim.trim CTxOut.isNull (fromTx tx nHeight).vout = (fromTx tx nHeight).vout :=
    Trim.trimmed_trim _
  rw [clearUnspendable, cleanup, hsame]
  simp only [htrim]

/-- Unspendable outputs are dropped, so at most the outputs are added. -/
theorem value_fromTx_le (h : OutputsInRange tx) :
    (fromTx tx nHeight).value ≤ (tx.vout.map (·.nValue)).sum := by
  have hle : ∀ o ∈ tx.vout, availableValue (dropUnspendable o) ≤ o.nValue := by
    intro o ho
    have hr := (moneyRange_iff _).mp (h o ho)
    unfold dropUnspendable
    split
    · exact hr.1
    · simp [availableValue, isNull_of_range (h o ho)]
  unfold value fromTx clearUnspendable cleanup
  rw [Trim.sum_trim fun _ => availableValue_null, List.map_map]
  exact List.sum_le_sum hle

end FromTx

/-! ## Pruned coins -/

theorem sum_tidy {f : CTxOut → Int} (hf : ∀ o : CTxOut, o.isNull = true → f o = 0) (c : CCoins) :
    ((tidy c).vout.map f).sum = (c.vout.map f).sum := by
  by_cases h : c.isPruned = true
  · rw [tidy_of_gone h]
    refine (List.sum_eq_zero fun n hn => ?_).symm
    obtain ⟨o, ho, rfl⟩ := List.mem_map.mp hn
    exact hf o (List.all_eq_true.mp h o ho)
  · rw [tidy_of_not_pruned (by simpa using h)]

end CCoins

/-! ## The cache -/

/-- `CCoinsViewCache`. The view below it is what it answers to reads, and
its best block. -/
structure CCoinsViewCache where
  base : Uint256 → Option CCoins
  baseBestBlock : Uint256
  cacheCoins : Entries Uint256 CCoins
  hashBlock : Uint256

namespace CCoinsViewCache

variable (v : CCoinsViewCache)

/-- `AccessCoins`: the cached coins, or those of the view below. -/
def accessCoins (txid : Uint256) : Option CCoins := read v.cacheCoins v.base txid

/-- `FetchCoins` keeps what it read. -/
def fetchCoins (txid : Uint256) : CCoinsViewCache :=
  { v with cacheCoins := fetch v.cacheCoins v.base txid }

/-- `Uncache` drops a copy that nothing has changed. -/
def uncache (txid : Uint256) : CCoinsViewCache :=
  { v with cacheCoins := WriteBack.uncache v.cacheCoins txid }

def getBestBlock : Uint256 := if v.hashBlock = 0 then v.baseBestBlock else v.hashBlock

def setBestBlock (hashBlock : Uint256) : CCoinsViewCache := { v with hashBlock }

/-- A change through `ModifyCoins`; the modifier cleans up when it is done. -/
def modifyCoins (txid : Uint256) (f : CCoins → CCoins) : CCoinsViewCache :=
  { v with cacheCoins := modify v.cacheCoins v.base txid fun c => (f c).cleanup }

/-- A change through `ModifyNewCoins`, or nothing where it throws. -/
def modifyNewCoins (txid : Uint256) (coinbase : Bool) (coins : CCoins) : Option CCoinsViewCache :=
  (renew v.cacheCoins txid coinbase coins.cleanup).map fun cacheCoins => { v with cacheCoins }

def haveInputs (tx : CTransaction) : Bool :=
  tx.isCoinBase || tx.vin.all fun txin =>
    match v.accessCoins txin.prevout.hash with
    | none => false
    | some coins => coins.isAvailable txin.prevout.n.toNat

/-- The cache after `HaveInputs` looked at every input. -/
def fetchInputs (tx : CTransaction) : CCoinsViewCache :=
  tx.vin.foldl (fun v txin => v.fetchCoins txin.prevout.hash) v

def getOutputFor (input : CTxIn) : Check CTxOut :=
  match v.accessCoins input.prevout.hash with
  | none => .error (.crash "coins")
  | some coins =>
    if coins.isAvailable input.prevout.n.toNat then .ok (coins.outAt input.prevout.n.toNat)
    else .error (.crash "coins->IsAvailable(input.prevout.n)")

/-- The loop of `GetValueIn`. -/
def valueInFrom : (nResult : Int) → List CTxIn → Check Int
  | nResult, [] => .ok nResult
  | nResult, txin :: vin => do
    let out ← v.getOutputFor txin
    valueInFrom (int64 (nResult + out.nValue)) vin

def getValueIn (tx : CTransaction) : Check Int :=
  if tx.isCoinBase then .ok 0 else v.valueInFrom 0 tx.vin

/-- A new cache on top of this one. -/
def child : CCoinsViewCache where
  base := v.accessCoins
  baseBestBlock := v.getBestBlock
  cacheCoins := ∅
  hashBlock := 0

/-- `child.Flush()`, into the cache below it; nothing where `BatchWrite`
throws. -/
def batchWrite (child : CCoinsViewCache) : Option CCoinsViewCache :=
  (WriteBack.batchWrite v.cacheCoins child.cacheCoins).map fun cacheCoins =>
    { v with cacheCoins, hashBlock := child.hashBlock }

/-- What a reader of the view learns about a transaction id; an entry
without outputs counts as no entry. -/
def coins (txid : Uint256) : CCoins := content v.cacheCoins v.base txid

variable {v} {txid : Uint256}

/-! ## What the operations do to a reader -/

theorem coins_of_access {c : CCoins} (h : v.accessCoins txid = some c) (hp : c.isPruned = false) :
    v.coins txid = c := by
  unfold coins content raw
  rw [show read v.cacheCoins v.base txid = some c from h]
  exact tidy_of_not_gone hp

theorem raw_of_not_pruned (h : (v.coins txid).isPruned = false) :
    raw v.cacheCoins v.base txid = v.coins txid := by
  have hg : Vacant.gone (raw v.cacheCoins v.base txid) = false := by
    rw [← gone_tidy]
    exact h
  exact (tidy_of_not_gone hg).symm

theorem access_of_not_pruned (h : (v.coins txid).isPruned = false) :
    v.accessCoins txid = some (v.coins txid) := by
  have hr := raw_of_not_pruned h
  unfold accessCoins
  unfold raw at hr
  rcases he : read v.cacheCoins v.base txid with _ | c
  · rw [he] at hr
    rw [← hr] at h
    cases h
  · rw [he] at hr
    exact congrArg some hr

/-- An output is available through `AccessCoins` exactly when a reader finds
it available. -/
theorem access_available {n : Nat} :
    (∃ c, v.accessCoins txid = some c ∧ c.isAvailable n = true) ↔
      (v.coins txid).isAvailable n = true := by
  constructor
  · rintro ⟨c, hc, ha⟩
    rw [coins_of_access hc (CCoins.not_pruned_of_available ha)]
    exact ha
  · intro ha
    exact ⟨_, access_of_not_pruned (CCoins.not_pruned_of_available ha), ha⟩

@[simp] theorem coins_fetchCoins (k j : Uint256) : (v.fetchCoins k).coins j = v.coins j := by
  unfold coins fetchCoins content raw
  rw [read_fetch]

end CCoinsViewCache

end junkcoin
