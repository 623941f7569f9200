-- The memory pool (`txmempool.cpp`): its entries with their totals over
-- ancestors and descendants, the links between them and the map of spent
-- outpoints. An iterator is the id of its transaction and a set of iterators
-- is a list without duplicates.
import Junkcoin.Lib.Table
import Junkcoin.Chain

/-! ## A work list -/

namespace Closure

variable {κ ε : Type} [DecidableEq κ]

/-- Put a node on the stage, unless it has been visited. -/
def push (done stage : List κ) (node : κ) : List κ :=
  if done.contains node then stage else stage.insert node

/-- Visit the nodes on the stage and everything that comes next, at most
`fuel` nodes. -/
def walk (next : κ → Except ε (List κ)) : (fuel : Nat) → (stage done : List κ) →
    Except ε (List κ)
  | _, [], done => .ok done
  | 0, _, done => .ok done
  | fuel + 1, node :: stage, done => do
    let nodes ← next node
    walk next fuel (nodes.foldl (push (done.insert node)) stage) (done.insert node)

end Closure

namespace junkcoin

/-! ## Entries -/

/-- Where a number is cut back to `uint64_t`. -/
def uint64 (n : Int) : Int := n % 2 ^ 64

/-- Where a number is cut back to `int`. -/
def int32 (n : Int) : Int := (n + 2 ^ 31) % 2 ^ 32 - 2 ^ 31

structure LockPoints where
  height : Int := 0
  time : Int := 0
  /-- The empty list is the null pointer. -/
  maxInputBlock : BlockIndex := []
  deriving DecidableEq

/-- What the pool takes from the node: the hash functions and
`nBytesPerSigOp`. -/
structure PoolEnv where
  H : Hashes
  nBytesPerSigOp : UInt32

/-- `GetTransactionWeight`. -/
def getTransactionWeight (tx : CTransaction) : Nat :=
  (serializeTransaction false tx).length * (WITNESS_SCALE_FACTOR - 1) +
    (serializeTransaction true tx).length

/-- `GetVirtualTransactionSize`. -/
def getVirtualTransactionSize (nBytesPerSigOp : UInt32) (nWeight nSigOpCost : Int) : Int :=
  (max nWeight (nSigOpCost * nBytesPerSigOp.toNat) + WITNESS_SCALE_FACTOR - 1).tdiv
    WITNESS_SCALE_FACTOR

structure CTxMemPoolEntry where
  tx : CTransaction
  nFee : Int
  nTxWeight : Nat
  nTime : Int
  spendsCoinbase : Bool
  sigOpCost : Int
  feeDelta : Int
  lockPoints : LockPoints
  nCountWithDescendants : Int
  nSizeWithDescendants : Int
  nModFeesWithDescendants : Int
  nCountWithAncestors : Int
  nSizeWithAncestors : Int
  nModFeesWithAncestors : Int
  nSigOpCostWithAncestors : Int
  deriving DecidableEq

namespace CTxMemPoolEntry

variable (env : PoolEnv) (e : CTxMemPoolEntry)

def getTxSize : Int := getVirtualTransactionSize env.nBytesPerSigOp e.nTxWeight e.sigOpCost

def getModifiedFee : Int := int64 (e.nFee + e.feeDelta)

/-- The constructor. `nFee` is a `CAmount`. -/
def create (tx : CTransaction) (nFee nTime : Int) (spendsCoinbase : Bool) (sigOpsCost : Int)
    (lp : LockPoints) : CTxMemPoolEntry :=
  let nFee := int64 nFee
  let nTxWeight := getTransactionWeight tx
  let nTxSize := getVirtualTransactionSize env.nBytesPerSigOp nTxWeight sigOpsCost
  { tx, nFee, nTxWeight, nTime, spendsCoinbase
    sigOpCost := sigOpsCost
    feeDelta := 0
    lockPoints := lp
    nCountWithDescendants := 1
    nSizeWithDescendants := nTxSize
    nModFeesWithDescendants := nFee
    nCountWithAncestors := 1
    nSizeWithAncestors := nTxSize
    nModFeesWithAncestors := nFee
    nSigOpCostWithAncestors := sigOpsCost }

def updateFeeDelta (newFeeDelta : Int) : CTxMemPoolEntry :=
  { e with
    nModFeesWithDescendants := int64 (e.nModFeesWithDescendants + (newFeeDelta - e.feeDelta))
    nModFeesWithAncestors := int64 (e.nModFeesWithAncestors + (newFeeDelta - e.feeDelta))
    feeDelta := newFeeDelta }

def updateDescendantState (modifySize modifyFee modifyCount : Int) : Check CTxMemPoolEntry := do
  let nSizeWithDescendants := uint64 (e.nSizeWithDescendants + modifySize)
  assert (int64 nSizeWithDescendants > 0) "int64_t(nSizeWithDescendants) > 0"
  let nModFeesWithDescendants := int64 (e.nModFeesWithDescendants + modifyFee)
  let nCountWithDescendants := uint64 (e.nCountWithDescendants + modifyCount)
  assert (int64 nCountWithDescendants > 0) "int64_t(nCountWithDescendants) > 0"
  .ok { e with nSizeWithDescendants, nModFeesWithDescendants, nCountWithDescendants }

/-- `modifySigOps` is an `int`. -/
def updateAncestorState (modifySize modifyFee modifyCount modifySigOps : Int) :
    Check CTxMemPoolEntry := do
  let nSizeWithAncestors := uint64 (e.nSizeWithAncestors + modifySize)
  assert (int64 nSizeWithAncestors > 0) "int64_t(nSizeWithAncestors) > 0"
  let nModFeesWithAncestors := int64 (e.nModFeesWithAncestors + modifyFee)
  let nCountWithAncestors := uint64 (e.nCountWithAncestors + modifyCount)
  assert (int64 nCountWithAncestors > 0) "int64_t(nCountWithAncestors) > 0"
  let nSigOpCostWithAncestors := int64 (e.nSigOpCostWithAncestors + int32 modifySigOps)
  assert (int32 nSigOpCostWithAncestors ≥ 0) "int(nSigOpCostWithAncestors) >= 0"
  .ok { e with
    nSizeWithAncestors, nModFeesWithAncestors, nCountWithAncestors, nSigOpCostWithAncestors }

end CTxMemPoolEntry

/-! ## The pool -/

structure TxLinks where
  parents : List Uint256 := []
  children : List Uint256 := []
  deriving DecidableEq

inductive MemPoolRemovalReason
  | unknown | expiry | sizelimit | reorg | block | conflict | replaced
  deriving DecidableEq

structure CTxMemPool where
  mapTx : Table Uint256 CTxMemPoolEntry
  mapLinks : Uint256 → Option TxLinks
  mapNextTx : Table COutPoint CTransaction
  /-- The fee part of `mapDeltas`. -/
  mapDeltas : Uint256 → Option Int
  totalTxSize : Int
  /-- The calls of `NotifyEntryRemoved` so far. -/
  notifyEntryRemoved : List (CTransaction × MemPoolRemovalReason)

namespace CTxMemPool

variable (env : PoolEnv) (s : CTxMemPool) (tx : CTransaction) (entry it : Uint256)

/-- `_clear`. -/
def empty : CTxMemPool where
  mapTx := Table.empty
  mapLinks _ := none
  mapNextTx := Table.empty
  mapDeltas _ := none
  totalTxSize := 0
  notifyEntryRemoved := []

def contains (hash : Uint256) : Bool := (s.mapTx.get hash).isSome

/-- Follow an iterator. -/
def entryAt : Check CTxMemPoolEntry :=
  match s.mapTx.get it with
  | some e => .ok e
  | none => .error (.crash "txiter")

/-- `mapTx.modify`. -/
def modify (it : Uint256) (f : CTxMemPoolEntry → Check CTxMemPoolEntry) : Check CTxMemPool := do
  let e ← s.entryAt it
  let e ← f e
  .ok { s with mapTx := s.mapTx.modify it fun _ => e }

/-- `mapTx.modify` for every entry of a set. -/
def modifyEach (its : List Uint256) (f : CTxMemPoolEntry → Check CTxMemPoolEntry) :
    Check CTxMemPool :=
  its.foldlM (fun s it => s.modify it f) s

def linksOf : TxLinks := (s.mapLinks it).getD {}

def updateChild (child : Uint256) (add : Bool) : CTxMemPool :=
  let links := s.linksOf entry
  let children := if add then links.children.insert child else links.children.erase child
  { s with mapLinks := Function.update s.mapLinks entry (some { links with children }) }

def updateParent (parent : Uint256) (add : Bool) : CTxMemPool :=
  let links := s.linksOf entry
  let parents := if add then links.parents.insert parent else links.parents.erase parent
  { s with mapLinks := Function.update s.mapLinks entry (some { links with parents }) }

def getMemPoolParents : Check (List Uint256) := do
  assert (s.contains entry) "entry != mapTx.end()"
  assert (s.mapLinks entry).isSome "it != mapLinks.end()"
  .ok (s.linksOf entry).parents

def getMemPoolChildren : Check (List Uint256) := do
  assert (s.contains entry) "entry != mapTx.end()"
  assert (s.mapLinks entry).isSome "it != mapLinks.end()"
  .ok (s.linksOf entry).children

/-! ## Ancestors and descendants -/

/-- `CalculateDescendants`. -/
def calculateDescendants (entryit : Uint256) (setDescendants : List Uint256) :
    Check (List Uint256) :=
  Closure.walk s.getMemPoolChildren s.mapTx.keys.length
    (if setDescendants.contains entryit then [] else [entryit]) setDescendants

/-- The limits of `CalculateMemPoolAncestors`. -/
structure AncestorLimits where
  limitAncestorCount : Int
  limitAncestorSize : Int
  limitDescendantCount : Int
  limitDescendantSize : Int

/-- `nNoLimit` for all of them. -/
def noLimit : AncestorLimits where
  limitAncestorCount := 2 ^ 64 - 1
  limitAncestorSize := 2 ^ 64 - 1
  limitDescendantCount := 2 ^ 64 - 1
  limitDescendantSize := 2 ^ 64 - 1

/-- The parents of a transaction, found by its inputs. -/
def searchForParents (limit : Int) : (parentHashes : List Uint256) → List CTxIn →
    Check (List Uint256)
  | parentHashes, [] => .ok parentHashes
  | parentHashes, txin :: vin =>
    if s.contains txin.prevout.hash then do
      let parentHashes := parentHashes.insert txin.prevout.hash
      errorIf (parentHashes.length + 1 > limit)
        s!"too many unconfirmed parents [limit: {limit}]"
      searchForParents limit parentHashes vin
    else searchForParents limit parentHashes vin

/-- The parents of an ancestor that are new. -/
def stageParents (limit : Int) (setAncestors : List Uint256) : (parentHashes : List Uint256) →
    List Uint256 → Check (List Uint256)
  | parentHashes, [] => .ok parentHashes
  | parentHashes, phash :: parents => do
    let parentHashes := Closure.push setAncestors parentHashes phash
    errorIf (parentHashes.length + setAncestors.length + 1 > limit)
      s!"too many unconfirmed ancestors [limit: {limit}]"
    stageParents limit setAncestors parentHashes parents

def ancestorsLoop (limits : AncestorLimits) (entrySize : Int) : (fuel : Nat) →
    (parentHashes setAncestors : List Uint256) → (totalSizeWithAncestors : Int) →
    Check (List Uint256)
  | _, [], setAncestors, _ => .ok setAncestors
  | 0, _, setAncestors, _ => .ok setAncestors
  | fuel + 1, stageit :: parentHashes, setAncestors, totalSizeWithAncestors => do
    let e ← s.entryAt stageit
    let setAncestors := setAncestors.insert stageit
    let totalSizeWithAncestors := uint64 (totalSizeWithAncestors + e.getTxSize env)
    let limit := limits.limitDescendantSize
    let tx := (e.tx.getHash env.H).toHex
    errorIf (uint64 (e.nSizeWithDescendants + entrySize) > limit)
      s!"exceeds descendant size limit for tx {tx} [limit: {limit}]"
    let limit := limits.limitDescendantCount
    errorIf (uint64 (e.nCountWithDescendants + 1) > limit)
      s!"too many descendants for tx {tx} [limit: {limit}]"
    let limit := limits.limitAncestorSize
    errorIf (totalSizeWithAncestors > limit) s!"exceeds ancestor size limit [limit: {limit}]"
    let setMemPoolParents ← s.getMemPoolParents stageit
    let parentHashes ←
      stageParents limits.limitAncestorCount setAncestors parentHashes setMemPoolParents
    ancestorsLoop limits entrySize fuel parentHashes setAncestors totalSizeWithAncestors

/-- `CalculateMemPoolAncestors`. Where it returns false, the error is
`errString`. -/
def calculateMemPoolAncestors (entry : CTxMemPoolEntry) (limits : AncestorLimits)
    (fSearchForParents : Bool) : Check (List Uint256) := do
  let parentHashes ← (if fSearchForParents then
      s.searchForParents limits.limitAncestorCount [] entry.tx.vin
    else s.getMemPoolParents (entry.tx.getHash env.H) : Check (List Uint256))
  s.ancestorsLoop env limits (entry.getTxSize env) s.mapTx.keys.length parentHashes []
    (entry.getTxSize env)

/-! ## Adding an entry -/

/-- `UpdateAncestorsOf`. -/
def updateAncestorsOf (add : Bool) (it : Uint256) (setAncestors : List Uint256) :
    Check CTxMemPool := do
  let parentIters ← s.getMemPoolParents it
  let s := parentIters.foldl (fun s piter => s.updateChild piter it add) s
  let e ← s.entryAt it
  let updateCount : Int := if add then 1 else -1
  let updateSize := int64 (updateCount * e.getTxSize env)
  let updateFee := int64 (updateCount * e.getModifiedFee)
  s.modifyEach setAncestors (·.updateDescendantState updateSize updateFee updateCount)

/-- `UpdateEntryForAncestors`. -/
def updateEntryForAncestors (setAncestors : List Uint256) : Check CTxMemPool := do
  let entries ← setAncestors.mapM s.entryAt
  let updateCount : Int := setAncestors.length
  let updateSize := int64 (entries.map (·.getTxSize env)).sum
  let updateFee := int64 (entries.map (·.getModifiedFee)).sum
  let updateSigOpsCost := int64 (entries.map (·.sigOpCost)).sum
  s.modify it (·.updateAncestorState updateSize updateFee updateCount updateSigOpsCost)

/-- The entry, its links and its fee delta. -/
def insertEntry (hash : Uint256) (entry : CTxMemPoolEntry) : CTxMemPool :=
  let newit := entry.tx.getHash env.H
  let mapTx := s.mapTx.insert newit entry
  let mapLinks := if (s.mapLinks newit).isSome then s.mapLinks
    else Function.update s.mapLinks newit (some {})
  let mapTx := match s.mapDeltas hash with
    | some nFeeDelta =>
      if nFeeDelta ≠ 0 then mapTx.modify newit (·.updateFeeDelta nFeeDelta) else mapTx
    | none => mapTx
  { s with mapTx, mapLinks }

/-- `mapNextTx` after the inputs of a transaction were added. -/
def spendInputs : CTxMemPool :=
  { s with mapNextTx := tx.vin.foldl (fun m txin => m.insert txin.prevout tx) s.mapNextTx }

/-- The links to the parents of a new entry that are in the pool. -/
def linkParents (newit : Uint256) (setParentTransactions : List Uint256) : CTxMemPool :=
  setParentTransactions.foldl
    (fun s phash => if s.contains phash then s.updateParent newit phash true else s) s

/-- `addUnchecked`. -/
def addUnchecked (hash : Uint256) (entry : CTxMemPoolEntry) (setAncestors : List Uint256) :
    Check CTxMemPool := do
  let newit := entry.tx.getHash env.H
  let s := s.insertEntry env hash entry
  let e ← s.entryAt newit
  let s := s.spendInputs e.tx
  let setParentTransactions := (e.tx.vin.map (·.prevout.hash)).foldl (·.insert ·) []
  let s := s.linkParents newit setParentTransactions
  let s ← s.updateAncestorsOf env true newit setAncestors
  let s ← s.updateEntryForAncestors env newit setAncestors
  .ok { s with totalTxSize := uint64 (s.totalTxSize + entry.getTxSize env) }

/-! ## Removing entries -/

/-- `UpdateChildrenForRemoval`. -/
def updateChildrenForRemoval : Check CTxMemPool := do
  let setMemPoolChildren ← s.getMemPoolChildren it
  .ok (setMemPoolChildren.foldl (fun s updateIt => s.updateParent updateIt it false) s)

/-- The descendants of an entry that goes alone. -/
def updateDescendantsOf (removeIt : Uint256) : Check CTxMemPool := do
  let setDescendants ← s.calculateDescendants removeIt []
  let setDescendants := setDescendants.erase removeIt
  let e ← s.entryAt removeIt
  let modifySize := -e.getTxSize env
  let modifyFee := int64 (-e.getModifiedFee)
  let modifySigOps := int32 (-e.sigOpCost)
  s.modifyEach setDescendants (·.updateAncestorState modifySize modifyFee (-1) modifySigOps)

/-- The ancestors of an entry that goes. -/
def updateAncestorsForRemoval (removeIt : Uint256) : Check CTxMemPool := do
  let entry ← s.entryAt removeIt
  let setAncestors ← s.calculateMemPoolAncestors env entry noLimit false
  s.updateAncestorsOf env false removeIt setAncestors

/-- `UpdateForRemoveFromMempool`. -/
def updateForRemoveFromMempool (entriesToRemove : List Uint256) (updateDescendants : Bool) :
    Check CTxMemPool := do
  let s ← (if updateDescendants then
      entriesToRemove.foldlM (fun s removeIt => s.updateDescendantsOf env removeIt) s
    else .ok s : Check CTxMemPool)
  let s ← entriesToRemove.foldlM (fun s removeIt => s.updateAncestorsForRemoval env removeIt) s
  entriesToRemove.foldlM (fun s removeIt => s.updateChildrenForRemoval removeIt) s

/-- `removeUnchecked`. -/
def removeUnchecked (reason : MemPoolRemovalReason) : Check CTxMemPool := do
  let e ← s.entryAt it
  .ok { s with
    notifyEntryRemoved := s.notifyEntryRemoved ++ [(e.tx, reason)]
    mapNextTx := e.tx.vin.foldl (fun m txin => m.erase txin.prevout) s.mapNextTx
    totalTxSize := uint64 (s.totalTxSize - e.getTxSize env)
    mapLinks := Function.update s.mapLinks it none
    mapTx := s.mapTx.erase it }

/-- `RemoveStaged`. -/
def removeStaged (stage : List Uint256) (updateDescendants : Bool)
    (reason : MemPoolRemovalReason) : Check CTxMemPool := do
  let s ← s.updateForRemoveFromMempool env stage updateDescendants
  stage.foldlM (fun s it => s.removeUnchecked env it reason) s

/-- Entries with all their descendants. -/
def withDescendants (its : List Uint256) : Check (List Uint256) :=
  its.foldlM (fun set it => s.calculateDescendants it set) []

/-- The entries that spend an output of a transaction which is not in the
pool. -/
def spendersOf (hash : Uint256) : (its : List Uint256) → (outputs : List Nat) →
    Check (List Uint256)
  | its, [] => .ok its
  | its, i :: outputs =>
    match s.mapNextTx.get ⟨hash, UInt32.ofNat i⟩ with
    | none => spendersOf hash its outputs
    | some tx => do
      let nextit := tx.getHash env.H
      assert (s.contains nextit) "nextit != mapTx.end()"
      spendersOf hash (its.insert nextit) outputs

def removeRecursive (origTx : CTransaction) (reason : MemPoolRemovalReason) :
    Check CTxMemPool := do
  let hash := origTx.getHash env.H
  let txToRemove ← (if s.contains hash then .ok [hash]
    else s.spendersOf env hash [] (List.range origTx.vout.length) : Check (List Uint256))
  let setAllRemoves ← s.withDescendants txToRemove
  s.removeStaged env setAllRemoves false reason

def clearPrioritisation (hash : Uint256) : CTxMemPool :=
  { s with mapDeltas := Function.update s.mapDeltas hash none }

/-- One input of `removeConflicts`. -/
def removeConflict (txin : CTxIn) : Check CTxMemPool :=
  match s.mapNextTx.get txin.prevout with
  | none => .ok s
  | some txConflict =>
    if txConflict.getHash env.H ≠ tx.getHash env.H then
      (s.clearPrioritisation (txConflict.getHash env.H)).removeRecursive env txConflict .conflict
    else .ok s

def removeConflicts : Check CTxMemPool :=
  tx.vin.foldlM (fun s txin => s.removeConflict env tx txin) s

/-- One transaction of `removeForBlock`. -/
def removeForTx : Check CTxMemPool := do
  let hash := tx.getHash env.H
  let s ← (if s.contains hash then s.removeStaged env [hash] true .block
    else .ok s : Check CTxMemPool)
  let s ← s.removeConflicts env tx
  .ok (s.clearPrioritisation hash)

def removeForBlock (vtx : List CTransaction) : Check CTxMemPool :=
  vtx.foldlM (fun s tx => s.removeForTx env tx) s

/-! ## Priorities, expiry and the size limit -/

def prioritiseTransaction (hash : Uint256) (nFeeDelta : Int) : Check CTxMemPool := do
  let delta := int64 ((s.mapDeltas hash).getD 0 + nFeeDelta)
  let s := { s with mapDeltas := Function.update s.mapDeltas hash (some delta) }
  if s.contains hash then do
    let s := { s with mapTx := s.mapTx.modify hash (·.updateFeeDelta delta) }
    let e ← s.entryAt hash
    let setAncestors ← s.calculateMemPoolAncestors env e noLimit false
    let s ← s.modifyEach setAncestors (·.updateDescendantState 0 nFeeDelta 0)
    let setDescendants ← s.calculateDescendants hash []
    s.modifyEach (setDescendants.erase hash) (·.updateAncestorState 0 nFeeDelta 0 0)
  else .ok s

/-- The entries from before `time`, as the index by entry time gives them. -/
def olderThan (time : Int) : List Uint256 :=
  s.mapTx.keys.filter fun it =>
    match s.mapTx.get it with
    | some e => e.nTime < time
    | none => false

/-- `Expire`. -/
def expire (time : Int) : Check CTxMemPool := do
  let stage ← s.withDescendants (s.olderThan time)
  s.removeStaged env stage false .expiry

/-- `CompareTxMemPoolEntryByDescendantScore`, with exact products. -/
def lowerDescendantScore (a b : CTxMemPoolEntry) : Bool :=
  let useDescendantScore (e : CTxMemPoolEntry) : Bool :=
    e.nModFeesWithDescendants * e.getTxSize env > e.getModifiedFee * e.nSizeWithDescendants
  let score (e : CTxMemPoolEntry) : Int × Int :=
    if useDescendantScore e then (e.nModFeesWithDescendants, e.nSizeWithDescendants)
    else (e.getModifiedFee, e.getTxSize env)
  let f1 := (score a).1 * (score b).2
  let f2 := (score a).2 * (score b).1
  if f1 = f2 then a.nTime ≥ b.nTime else f1 < f2

/-- What `TrimToSize` asks about the pool. The node compares scores in
floating point, so the comparison can be any. -/
structure TrimEnv where
  dynamicMemoryUsage : CTxMemPool → Nat
  lowerScore : CTxMemPoolEntry → CTxMemPoolEntry → Bool

/-- The lower one of two entries. -/
def lowerOf (less : CTxMemPoolEntry → CTxMemPoolEntry → Bool) (it best : Uint256) : Uint256 :=
  match s.mapTx.get it, s.mapTx.get best with
  | some a, some b => if less a b then it else best
  | _, _ => best

/-- The begin of the index by descendant score. -/
def lowestScore (less : CTxMemPoolEntry → CTxMemPoolEntry → Bool) : Option Uint256 :=
  match s.mapTx.keys with
  | [] => none
  | it :: its => some (its.foldr (s.lowerOf less) it)

/-- The transactions outside of the pool that no entry spends any more. -/
def noSpendsRemaining (txn : List CTransaction) : List Uint256 :=
  txn.flatMap fun tx => tx.vin.filterMap fun txin =>
    if s.contains txin.prevout.hash then none
    else if s.mapNextTx.keys.any (·.hash == txin.prevout.hash) then none
    else some txin.prevout.hash

/-- The loop of `TrimToSize`, with the list that it fills. -/
def trimLoop (trim : TrimEnv) (sizelimit : Nat) : (fuel : Nat) → CTxMemPool →
    (pvNoSpendsRemaining : List Uint256) → Check (CTxMemPool × List Uint256)
  | 0, s, removed => .ok (s, removed)
  | fuel + 1, s, removed =>
    match s.lowestScore trim.lowerScore with
    | none => .ok (s, removed)
    | some it =>
      if trim.dynamicMemoryUsage s ≤ sizelimit then .ok (s, removed)
      else do
        let stage ← s.calculateDescendants it []
        let entries ← stage.mapM s.entryAt
        let s ← s.removeStaged env stage false .sizelimit
        trimLoop trim sizelimit fuel s (removed ++ s.noSpendsRemaining (entries.map (·.tx)))

/-- `TrimToSize`. -/
def trimToSize (trim : TrimEnv) (sizelimit : Nat) : Check (CTxMemPool × List Uint256) :=
  trimLoop env trim sizelimit s.mapTx.keys.length s []

end CTxMemPool

end junkcoin
