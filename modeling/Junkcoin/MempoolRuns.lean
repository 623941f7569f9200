-- The calls on the memory pool, and the pool after any sequence of them.
import Junkcoin.Mempool

namespace junkcoin

namespace CTxMemPool

/-! ## Calls -/

/-- The calls that change the pool. `addUnchecked` gets a new entry with the
id of its transaction. -/
inductive PoolCall
  | addUnchecked (tx : CTransaction) (nFee nTime : Int) (spendsCoinbase : Bool)
      (sigOpsCost : Int) (lp : LockPoints) (setAncestors : List Uint256)
  | removeStaged (stage : List Uint256) (updateDescendants : Bool)
      (reason : MemPoolRemovalReason)
  | removeForBlock (vtx : List CTransaction)
  | removeConflicts (tx : CTransaction)
  | prioritiseTransaction (hash : Uint256) (nFeeDelta : Int)
  | expire (time : Int)
  | trimToSize (trim : TrimEnv) (sizelimit : Nat)

def PoolCall.run (env : PoolEnv) (s : CTxMemPool) : PoolCall → Check CTxMemPool
  | .addUnchecked tx nFee nTime spendsCoinbase sigOpsCost lp setAncestors =>
    s.addUnchecked env (tx.getHash env.H)
      (.create env tx nFee nTime spendsCoinbase sigOpsCost lp) setAncestors
  | .removeStaged stage updateDescendants reason =>
    s.removeStaged env stage updateDescendants reason
  | .removeForBlock vtx => s.removeForBlock env vtx
  | .removeConflicts tx => s.removeConflicts env tx
  | .prioritiseTransaction hash nFeeDelta => s.prioritiseTransaction env hash nFeeDelta
  | .expire time => s.expire env time
  | .trimToSize trim sizelimit => do
    let (t, _) ← s.trimToSize env trim sizelimit
    .ok t

/-- The pool after a sequence of calls. -/
def runs (env : PoolEnv) (s : CTxMemPool) (calls : List PoolCall) : Check CTxMemPool :=
  calls.foldlM (fun s call => call.run env s) s

/-! ## A small pool -/

/-- A hash that keeps the first byte: the id of a transaction is its version. -/
def versionHashes : Hashes where
  sha256d l := BitVec.ofNat 256 (l.headD 0).toNat
  scrypt _ := 0

def sampleEnv : PoolEnv := ⟨versionHashes, 20⟩

/-- The transaction with a given id that spends the first output of another. -/
def spender (id : BitVec 32) (parent : Uint256) : CTransaction where
  nVersion := id
  vin := [{ prevout := ⟨parent, 0⟩ }]
  vout := [⟨1, []⟩]
  nLockTime := 0

/-- Put it into the pool. -/
def joining (id : BitVec 32) (parent : Uint256) (setAncestors : List Uint256) : PoolCall :=
  .addUnchecked (spender id parent) 1000 0 false 4 {} setAncestors

end CTxMemPool

end junkcoin
