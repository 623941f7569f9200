-- Compact blocks (`blockencodings.h`, `blockencodings.cpp`, and the ring of
-- extra transactions of `net_processing.cpp`). A step that the node does not
-- survive is modelled as such: an index out of range, a null reference that is
-- followed, a loop that does not end.
import Junkcoin.CheckBlock
import Junkcoin.Codec
import Mathlib.Data.List.Dedup

namespace junkcoin

open Reader

/-- What short ids are made with, and how many ids share the bucket of an id
in an `unordered_map` that was filled with these ids, the last one first. -/
structure ShortIdEnv where
  sha256 : List UInt8 → Uint256
  sipHashUint256 : UInt64 → UInt64 → Uint256 → UInt64
  bucketSize : List UInt64 → UInt64 → Nat

/-- The statuses but `READ_STATUS_OK`. -/
inductive ReadStatus
  | INVALID
  | FAILED
  | CHECKBLOCK_FAILED
  deriving DecidableEq

/-- How a call ends early: with a status, or not at all. -/
inductive Stop
  | returns (status : ReadStatus)
  | outOfRange
  | nullDereference
  | endless
  deriving DecidableEq

/-- `l[i]`. -/
def elemAt {α : Type} (l : List α) (i : Nat) : Except Stop α :=
  match l[i]? with
  | some a => .ok a
  | none => .error .outOfRange

def CTransaction.isNull (tx : CTransaction) : Bool := tx.vin.isEmpty && tx.vout.isEmpty

def CPureBlockHeader.isNull (b : CPureBlockHeader) : Bool := b.nBits == 0

def MAX_PROTOCOL_MESSAGE_LENGTH : Nat := 4 * 1000 * 1000

/-- The size of an empty transaction. -/
def MIN_TRANSACTION_BASE_SIZE : Nat :=
  (serializeTransaction false { nVersion := 1, vin := [], vout := [], nLockTime := 0 }).length

/-! ## Messages -/

structure PrefilledTransaction where
  index : UInt16
  tx : CTransaction
  deriving DecidableEq

structure CBlockHeaderAndShortTxIDs where
  nonce : UInt64
  shorttxids : List UInt64
  prefilledtxn : List PrefilledTransaction
  header : CBlockHeader
  deriving DecidableEq

/-- `GetShortID`, with the keys of `FillShortTxIDSelector`. -/
def shortIdOf (E : ShortIdEnv) (header : CBlockHeader) (nonce : UInt64) (txhash : Uint256) :
    UInt64 :=
  let shorttxidhash := (E.sha256 (header.serialize true ++ Bytes.le 8 nonce.toNat)).toNat
  let shorttxidk0 := UInt64.ofNat shorttxidhash
  let shorttxidk1 := UInt64.ofNat (shorttxidhash / 2 ^ 64)
  E.sipHashUint256 shorttxidk0 shorttxidk1 txhash &&& 0xffffffffffff

namespace CBlockHeaderAndShortTxIDs

variable (E : ShortIdEnv) (H : Hashes)

def getShortID (c : CBlockHeaderAndShortTxIDs) (txhash : Uint256) : UInt64 :=
  shortIdOf E c.header c.nonce txhash

def blockTxCount (c : CBlockHeaderAndShortTxIDs) : Nat :=
  c.shorttxids.length + c.prefilledtxn.length

/-- The message for a block: its coinbase, and the short ids of the rest. -/
def ofBlock (nonce : UInt64) (block : CBlock) (fUseWTXID : Bool) :
    Option CBlockHeaderAndShortTxIDs :=
  match block.vtx with
  | [] => none
  | coinbase :: vtx => some
    { nonce
      shorttxids := vtx.map fun tx => shortIdOf E block.toCBlockHeader nonce
        (if fUseWTXID then tx.getWitnessHash H else tx.getHash H)
      prefilledtxn := [⟨0, coinbase⟩]
      header := block.toCBlockHeader }

/-- A short id is six bytes. -/
def serShortID (shortid : UInt64) : List UInt8 :=
  Bytes.le 4 (shortid &&& 0xffffffff).toNat ++ Bytes.le 2 (shortid >>> 32 &&& 0xffff).toNat

def readShortID : Reader String UInt64 := do
  let lsb ← readLe 4
  let msb ← readLe 2
  pure (UInt64.ofNat msb <<< 32 ||| UInt64.ofNat lsb)

def serPrefilled (p : PrefilledTransaction) : List UInt8 :=
  compactSize p.index.toNat ++ serializeTransaction true p.tx

def readPrefilled : Reader String PrefilledTransaction := do
  let idx ← readCompactSize
  failIf (idx > 0xffff) "index overflowed 16-bits"
  let tx ← unserializeTransaction true
  pure ⟨UInt16.ofNat idx, tx⟩

def serialize (c : CBlockHeaderAndShortTxIDs) : List UInt8 :=
  c.header.serialize true ++ Bytes.le 8 c.nonce.toNat ++ serVector serShortID c.shorttxids ++
    serVector serPrefilled c.prefilledtxn

def unserialize : Reader String CBlockHeaderAndShortTxIDs := do
  let header ← CBlockHeader.unserialize true
  let nonce ← readLe 8
  let shorttxids ← readVector readShortID
  let prefilledtxn ← readVector readPrefilled
  pure { nonce := UInt64.ofNat nonce, shorttxids, prefilledtxn, header }

end CBlockHeaderAndShortTxIDs

/-! ## The ring of extra transactions -/

/-- A slot of the ring, which may hold a null reference. -/
abbrev ExtraTxn := Uint256 × Option CTransaction

/-- `AddToCompactExtraTransactions`, on the ring and the place of the next. -/
def addToCompactExtraTransactions (H : Hashes) (max_extra_txn : Nat)
    (ring : List ExtraTxn × Nat) (tx : CTransaction) : List ExtraTxn × Nat :=
  if max_extra_txn = 0 then ring
  else
    let vExtra := if ring.1.isEmpty then List.replicate max_extra_txn (0, none) else ring.1
    (vExtra.set ring.2 (tx.getWitnessHash H, some tx), (ring.2 + 1) % max_extra_txn)

/-- The ring after some transactions. -/
def extraTxnForCompact (H : Hashes) (max_extra_txn : Nat) (txs : List CTransaction) :
    List ExtraTxn :=
  (txs.foldl (addToCompactExtraTransactions H max_extra_txn) ([], 0)).1

/-! ## Reconstruction -/

structure PartiallyDownloadedBlock where
  header : CBlockHeader
  txn_available : List (Option CTransaction)
  prefilled_count : Nat
  mempool_count : Nat
  extra_count : Nat
  deriving DecidableEq

namespace PartiallyDownloadedBlock

variable (E : ShortIdEnv) (H : Hashes)

/-- The loop over the prefilled transactions, the `i`-th first. -/
def placePrefilled (nShort : Nat) : List PrefilledTransaction → (i : Nat) →
    (lastprefilledindex : Int) → (avail : List (Option CTransaction)) →
    Except Stop (List (Option CTransaction))
  | [], _, _, avail => .ok avail
  | p :: prefilledtxn, i, lastprefilledindex, avail =>
    if p.tx.isNull then .error (.returns .INVALID)
    else
      let lastprefilledindex := lastprefilledindex + p.index.toNat + 1
      if lastprefilledindex > 0xffff then .error (.returns .INVALID)
      else if lastprefilledindex > nShort + i then .error (.returns .INVALID)
      else do
        let _ ← elemAt avail lastprefilledindex.toNat
        placePrefilled nShort prefilledtxn (i + 1) lastprefilledindex
          (avail.set lastprefilledindex.toNat (some p.tx))

/-- The loop to the next free place. `index_offset` has 16 bits: once all of
its values are through, the loop goes on for ever. -/
def nextFree (avail : List (Option CTransaction)) (i : Nat) :
    (turns index_offset : Nat) → Except Stop Nat
  | 0, _ => .error .endless
  | turns + 1, index_offset => do
    let tx ← elemAt avail (i + index_offset)
    if tx.isSome then nextFree avail i turns ((index_offset + 1) % 2 ^ 16)
    else .ok index_offset

/-- The places of the short ids, the last written first. A place has 16 bits. -/
def mapShortIds (avail : List (Option CTransaction)) : List UInt64 → (i index_offset : Nat) →
    (shorttxids : List (UInt64 × Nat)) → Except Stop (List (UInt64 × Nat))
  | [], _, _, shorttxids => .ok shorttxids
  | shortid :: rest, i, index_offset, shorttxids => do
    let index_offset ← nextFree avail i (2 ^ 16) index_offset
    let shorttxids := (shortid, (i + index_offset) % 2 ^ 16) :: shorttxids
    if E.bucketSize (shorttxids.map (·.1)) shortid > 12 then .error (.returns .FAILED)
    else mapShortIds avail rest (i + 1) index_offset shorttxids

/-- What the two scans change. -/
structure Scan where
  txn_available : List (Option CTransaction)
  have_txn : List Bool
  mempool_count : Nat := 0
  extra_count : Nat := 0
  deriving DecidableEq

/-- A transaction of the mempool for a place. -/
def takeMempool (pos : Nat) (tx : CTransaction) (s : Scan) : Except Stop Scan := do
  let have_txn ← elemAt s.have_txn pos
  let available ← elemAt s.txn_available pos
  if !have_txn then
    .ok { s with txn_available := s.txn_available.set pos (some tx)
                 have_txn := s.have_txn.set pos true, mempool_count := s.mempool_count + 1 }
  else if available.isSome then
    .ok { s with txn_available := s.txn_available.set pos none
                 mempool_count := s.mempool_count - 1 }
  else .ok s

/-- A slot of the ring for a place. The witness hashes are only compared where
there is a transaction already. -/
def takeExtra (pos : Nat) (tx : Option CTransaction) (s : Scan) : Except Stop Scan := do
  let have_txn ← elemAt s.have_txn pos
  let available ← elemAt s.txn_available pos
  if !have_txn then
    .ok { txn_available := s.txn_available.set pos tx, have_txn := s.have_txn.set pos true
          mempool_count := s.mempool_count + 1, extra_count := s.extra_count + 1 }
  else
    match available, tx with
    | none, _ => .ok s
    | some _, none => .error .nullDereference
    | some available, some tx =>
      if available.getWitnessHash H != tx.getWitnessHash H then
        .ok { s with txn_available := s.txn_available.set pos none
                     mempool_count := s.mempool_count - 1
                     extra_count := (s.extra_count + 2 ^ 64 - 1) % 2 ^ 64 }
      else .ok s

/-- One turn of a scan: a transaction with its witness hash, if its short id is
one of the block. -/
def scanStep {α : Type} (getShortID : Uint256 → UInt64) (shorttxids : List (UInt64 × Nat))
    (takeTx : Nat → α → Scan → Except Stop Scan) (entry : Uint256 × α) (s : Scan) :
    Except Stop Scan :=
  match shorttxids.lookup (getShortID entry.1) with
  | some pos => takeTx pos entry.2 s
  | none => .ok s

/-- A scan, which ends early once all the places are filled. -/
def scan {α : Type} (getShortID : Uint256 → UInt64) (shorttxids : List (UInt64 × Nat)) (size : Nat)
    (takeTx : Nat → α → Scan → Except Stop Scan) : List (Uint256 × α) → Scan → Except Stop Scan
  | [], s => .ok s
  | entry :: entries, s => do
    let s ← scanStep getShortID shorttxids takeTx entry s
    if s.mempool_count = size then .ok s
    else scan getShortID shorttxids size takeTx entries s

/-- `InitData` of a new object, with the transactions of the mempool in the
order of `vTxHashes`. -/
def initData (c : CBlockHeaderAndShortTxIDs) (pool : List CTransaction)
    (extra_txn : List ExtraTxn) : Except Stop PartiallyDownloadedBlock :=
  if c.header.isNull || (c.shorttxids.isEmpty && c.prefilledtxn.isEmpty) then
    .error (.returns .INVALID)
  else if c.blockTxCount > MAX_BLOCK_BASE_SIZE / MIN_TRANSACTION_BASE_SIZE then
    .error (.returns .INVALID)
  else do
    let avail ← placePrefilled c.shorttxids.length c.prefilledtxn 0 (-1)
      (List.replicate c.blockTxCount none)
    let shorttxids ← mapShortIds E avail c.shorttxids 0 0 []
    let size := (shorttxids.map (·.1)).dedup.length
    if size ≠ c.shorttxids.length then .error (.returns .FAILED)
    else do
      let s ← scan (c.getShortID E) shorttxids size takeMempool
        (pool.map fun tx => (tx.getWitnessHash H, tx))
        { txn_available := avail, have_txn := List.replicate avail.length false }
      let s ← scan (c.getShortID E) shorttxids size (takeExtra H) extra_txn s
      .ok { header := c.header, txn_available := s.txn_available
            prefilled_count := c.prefilledtxn.length, mempool_count := s.mempool_count
            extra_count := s.extra_count }

def isTxAvailable (b : PartiallyDownloadedBlock) (index : Nat) : Option Bool :=
  if b.header.isNull then none else b.txn_available[index]?.map (·.isSome)

/-- The loop of `FillBlock`: the transactions of the block, and the missing
ones that are left. -/
def fillTxs : (txn_available : List (Option CTransaction)) → (vtx_missing : List CTransaction) →
    Option (List CTransaction × List CTransaction)
  | [], vtx_missing => some ([], vtx_missing)
  | none :: _, [] => none
  | none :: txn_available, tx :: vtx_missing => do
    let (vtx, left) ← fillTxs txn_available vtx_missing
    some (tx :: vtx, left)
  | some tx :: txn_available, vtx_missing => do
    let (vtx, left) ← fillTxs txn_available vtx_missing
    some (tx :: vtx, left)

/-- `FillBlock`: what it returns if not `READ_STATUS_OK`, and the block if it
was assembled. `checkBlock` gives the corruption flag of a block that fails. -/
def fillBlock (checkBlock : CBlock → Option Bool) (b : PartiallyDownloadedBlock)
    (vtx_missing : List CTransaction) : Option ReadStatus × Option CBlock :=
  match fillTxs b.txn_available vtx_missing with
  | none => (some .INVALID, none)
  | some (vtx, left) =>
    let block : CBlock := { b.header with vtx }
    if !left.isEmpty then (some .INVALID, some block)
    else
      match checkBlock block with
      | none => (none, some block)
      | some true => (some .FAILED, some block)
      | some false => (some .CHECKBLOCK_FAILED, some block)

end PartiallyDownloadedBlock

end junkcoin
