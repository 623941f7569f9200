-- The reply to a `getheaders` request (`ProcessMessage` in
-- `net_processing.cpp`), and when peers accept it as a message: it holds at
-- most 2000 headers, but nothing bounds the auxpow in them.
import Junkcoin.AcceptBlock
import Junkcoin.BlockEncodings
import Junkcoin.ConnectSpec

namespace junkcoin

def MAX_HEADERS_RESULTS : Nat := 2000

def MAX_LOCATOR_SZ : Nat := 101

/-! ## The chain -/

/-- `CChain::Next`. -/
def chainNext (chainActive pindex : BlockIndex) : BlockIndex :=
  if contains chainActive pindex then getAncestor chainActive (nHeight pindex + 1) else []

/-- `FindForkInGlobalIndex`, for the hashes of a locator. -/
def findForkInGlobalIndex (H : Hashes) (blocks : BlockMap) (chainActive : BlockIndex) :
    (vHave : List Uint256) → BlockIndex
  | [] => getAncestor chainActive 0
  | hash :: vHave =>
    match blocks.findBlock H hash with
    | none => findForkInGlobalIndex H blocks chainActive vHave
    | some pindex =>
      if contains chainActive pindex then pindex
      else if getAncestor pindex (nHeight chainActive) = chainActive then chainActive
      else findForkInGlobalIndex H blocks chainActive vHave

/-- `CBlockHeader::SetNull`. -/
def CBlockHeader.null : CBlockHeader :=
  { nVersion := 0, hashPrevBlock := 0, hashMerkleRoot := 0, nTime := 0, nBits := 0, nNonce := 0 }

/-- `CBlockIndex::GetBlockHeader` without the check of the work. The index
entry has no auxpow, so the header with an auxpow is the one on disk. -/
def getBlockHeader (node : Node) : (pindex : BlockIndex) → CBlockHeader
  | [] => .null
  | b :: pprev =>
    if b.isAuxpow then
      ((node.blockFiles (blockHash node.env.H (b :: pprev))).map (·.toCBlockHeader)).getD .null
    else
      { nVersion := b.nVersion, hashPrevBlock := blockHash node.env.H pprev
        hashMerkleRoot := b.hashMerkleRoot, nTime := b.nTime, nBits := b.nBits, nNonce := b.nNonce }

/-! ## The reply -/

/-- The loop over the chain. -/
def collectHeaders (node : Node) (chainActive : BlockIndex) (hashStop : Uint256) :
    (nLimit : Nat) → (pindex : BlockIndex) → List CBlock
  | 0, _ => []
  | nLimit + 1, pindex =>
    if pindex = [] then []
    else { getBlockHeader node pindex with vtx := [] } ::
      if nLimit = 0 ∨ blockHash node.env.H pindex = hashStop then []
      else collectHeaders node chainActive hashStop nLimit (chainNext chainActive pindex)

/-- The blocks, without transactions, of the `headers` message that answers a
`getheaders` message, if there is an answer. A node in its initial download
answers no peer but those on its list. -/
def processGetHeaders (node : Node) (s : NodeState) (fInitialDownload fWhitelisted : Bool)
    (vHave : List Uint256) (hashStop : Uint256) : Option (List CBlock) :=
  if vHave.length > MAX_LOCATOR_SZ then none
  else if fInitialDownload && !fWhitelisted then none
  else if vHave.isEmpty then do
    let pindex ← s.blocks.findBlock node.env.H hashStop
    some (collectHeaders node s.chain.chainActive hashStop MAX_HEADERS_RESULTS pindex)
  else
    let pindex := findForkInGlobalIndex node.env.H s.blocks s.chain.chainActive vHave
    let pindex := if pindex = [] then [] else chainNext s.chain.chainActive pindex
    some (collectHeaders node s.chain.chainActive hashStop MAX_HEADERS_RESULTS pindex)

/-- The payload of a `headers` message. -/
def headersPayload (vHeaders : List CBlock) : List UInt8 :=
  serVector (CBlock.serialize true) vHeaders

/-! ## Walking up the active chain -/

section Walk

variable {chain : BlockIndex} {k : Nat}

theorem entry_nil (hk : chain.length ≤ k) : getAncestor chain k = [] := by
  rw [getAncestor, if_pos (Or.inl (by rw [nHeight]; omega))]

theorem contains_entry (hk : k < chain.length) : contains chain (getAncestor chain k) = true :=
  contains_iff.mpr ⟨entry_ne_nil hk, getAncestor_suffix chain k⟩

/-- The entries of the active chain are those at its heights. -/
theorem entry_of_contains {p : BlockIndex} (h : contains chain p = true) :
    ∃ k : Nat, k < chain.length ∧ p = getAncestor chain k := by
  obtain ⟨hne, hsuf⟩ := contains_iff.mp h
  have hpos := List.length_pos_of_ne_nil hne
  have hle := hsuf.length_le
  have hcast : nHeight p = (p.length - 1 : Nat) := by
    rw [nHeight]
    omega
  refine ⟨p.length - 1, by omega, ?_⟩
  rw [← hcast]
  exact ((getAncestor_eq_iff hne).mpr hsuf).symm

theorem chainNext_entry (hk : k < chain.length) :
    chainNext chain (getAncestor chain k) = getAncestor chain (k + 1 : Nat) := by
  rw [chainNext, if_pos (contains_entry hk), nHeight_entry hk]
  rfl

end Walk

section Reply

variable {node : Node} {chain : BlockIndex} {hashStop : Uint256} {k nLimit : Nat} {s : NodeState}

/-- What is sent of an entry. -/
def sentHeader (node : Node) (pindex : BlockIndex) : CBlock :=
  { getBlockHeader node pindex with vtx := [] }

/-- The blocks of the active chain from a height on. -/
def window (node : Node) (chain : BlockIndex) (k n : Nat) : List CBlock :=
  (List.range' k n).map fun h : Nat => sentHeader node (getAncestor chain h)

theorem window_succ (k n : Nat) : window node chain k (n + 1) =
    sentHeader node (getAncestor chain k) :: window node chain (k + 1) n := rfl

theorem collectHeaders_nil : collectHeaders node chain hashStop nLimit [] = [] := by
  cases nLimit <;> rfl

/-- From an entry of the active chain on, the loop sends some of the entries
that follow. -/
theorem collectHeaders_window (node : Node) (hashStop : Uint256) (hk : k < chain.length)
    (hlimit : 0 < nLimit) :
    ∃ n, 1 ≤ n ∧ n ≤ nLimit ∧ k + n ≤ chain.length ∧
      collectHeaders node chain hashStop nLimit (getAncestor chain k) = window node chain k n := by
  induction nLimit generalizing k with
  | zero => cases hlimit
  | succ nLimit ih =>
    rw [collectHeaders, if_neg (entry_ne_nil hk)]
    split
    · exact ⟨1, by omega, by omega, by omega, rfl⟩
    · rename_i hgo
      rw [chainNext_entry hk]
      by_cases hnext : k + 1 < chain.length
      · obtain ⟨n, h1, hn, hlen, hcollect⟩ := ih hnext (by omega)
        refine ⟨n + 1, by omega, by omega, by omega, ?_⟩
        rw [hcollect, window_succ]
        rfl
      · refine ⟨1, by omega, by omega, by omega, ?_⟩
        have hend : getAncestor chain (k + 1 : Nat) = [] := entry_nil (by omega)
        rw [hend, collectHeaders_nil]
        rfl

/-- The loop stops at the hash that was asked for. -/
theorem collectHeaders_stop {n : Nat} (hn : n + 1 ≤ nLimit) (hlen : k + n < chain.length)
    (hlast : blockHash node.env.H (getAncestor chain (k + n : Nat)) = hashStop)
    (hother : ∀ i, k ≤ i → i < k + n → blockHash node.env.H (getAncestor chain i) ≠ hashStop) :
    collectHeaders node chain hashStop nLimit (getAncestor chain k) =
      window node chain k (n + 1) := by
  induction nLimit generalizing k n with
  | zero => omega
  | succ nLimit ih =>
    rw [collectHeaders, if_neg (entry_ne_nil (by omega)), window_succ]
    cases n with
    | zero =>
      have hhere : blockHash node.env.H (getAncestor chain k) = hashStop := hlast
      rw [if_pos (Or.inr hhere)]
      rfl
    | succ n =>
      have hne := hother k (Nat.le_refl k) (by omega)
      have hrest := ih (k := k + 1) (n := n) (by omega) (by omega)
        (by rw [← hlast]; congr 3; omega) fun i h1 h2 => hother i (by omega) (by omega)
      rw [if_neg (by rintro (h0 | hstop) <;> [omega; exact hne hstop]), chainNext_entry (by omega),
        hrest]
      rfl

/-- An entry that is asked for by its hash is sent alone. -/
theorem collectHeaders_alone {pindex : BlockIndex} (hne : pindex ≠ [])
    (hhash : blockHash node.env.H pindex = hashStop) (hlimit : 0 < nLimit) :
    collectHeaders node chain hashStop nLimit pindex = [sentHeader node pindex] := by
  cases nLimit with
  | zero => cases hlimit
  | succ nLimit =>
    rw [collectHeaders, if_neg hne, if_pos (Or.inr hhash)]
    rfl

/-- The fork is an entry of the active chain, if there is one. -/
theorem findFork_contains (chain : BlockIndex) (H : Hashes) (blocks : BlockMap)
    (vHave : List Uint256) :
    findForkInGlobalIndex H blocks chain vHave = [] ∨
      contains chain (findForkInGlobalIndex H blocks chain vHave) = true := by
  have hself : ∀ q, q <:+ chain → q = [] ∨ contains chain q = true := fun q hq => by
    by_cases hnil : q = []
    · exact Or.inl hnil
    · exact Or.inr (contains_iff.mpr ⟨hnil, hq⟩)
  induction vHave with
  | nil => exact hself _ (getAncestor_suffix chain 0)
  | cons hash vHave ih =>
    rw [findForkInGlobalIndex]
    split
    · exact ih
    · split
      · rename_i hin
        exact Or.inr hin
      · split
        · exact hself _ List.suffix_rfl
        · exact ih

/-! ## The size of the reply -/

def headerSize (node : Node) (pindex : BlockIndex) : Nat :=
  ((getBlockHeader node pindex).serialize true).length

theorem length_sentHeader (pindex : BlockIndex) :
    ((sentHeader node pindex).serialize true).length = headerSize node pindex + 1 := by
  rw [CBlock.serialize, List.length_append]
  rfl

/-- The size of a message with the headers of a window. -/
def windowSize (node : Node) (chain : BlockIndex) (k n : Nat) : Nat :=
  (compactSize n).length +
    ((List.range' k n).map fun h : Nat => headerSize node (getAncestor chain h) + 1).sum

theorem windowSize_two (node : Node) (chain : BlockIndex) (k : Nat) :
    windowSize node chain k 2 = (compactSize 2).length +
      (headerSize node (getAncestor chain k) + 1 +
        (headerSize node (getAncestor chain (k + 1 : Nat)) + 1)) := by
  simp only [windowSize, List.range', List.map_cons, List.map_nil, List.sum_cons, List.sum_nil,
    Nat.add_zero]

theorem length_window (k n : Nat) :
    (headersPayload (window node chain k n)).length = windowSize node chain k n := by
  rw [headersPayload, serVector, List.length_append, window, List.length_map, List.length_range',
    List.length_flatMap, List.map_map, windowSize]
  exact congrArg (fun l => (compactSize n).length + List.sum l)
    (List.map_congr_left fun h _ => length_sentHeader (getAncestor chain h))

theorem length_alone (pindex : BlockIndex) :
    (headersPayload [sentHeader node pindex]).length = headerSize node pindex + 2 := by
  have hcount : (compactSize 1).length = 1 := rfl
  rw [headersPayload, serVector, List.flatMap_singleton, List.length_append, length_sentHeader,
    List.length_singleton, hcount, Nat.add_comm]

/-! ## Replies that are accepted -/

/-- The index finds an entry under its hash, and has the entries of the active
chain. -/
structure NodeState.Indexed (H : Hashes) (s : NodeState) : Prop where
  found : ∀ p ∈ s.blocks.mapBlockIndex, p ≠ [] ∧ s.blocks.findBlock H (blockHash H p) = some p
  active : ∀ p, contains s.chain.chainActive p = true → p ∈ s.blocks.mapBlockIndex

/-- The headers of any 2000 blocks of the active chain in a row, and of any
other block alone, make a message within the limit. -/
structure HeadersFit (node : Node) (s : NodeState) : Prop where
  alone : ∀ p ∈ s.blocks.mapBlockIndex, headerSize node p + 2 ≤ MAX_PROTOCOL_MESSAGE_LENGTH
  inARow : ∀ k n, 1 ≤ k → n ≤ MAX_HEADERS_RESULTS → k + n ≤ s.chain.chainActive.length →
    windowSize node s.chain.chainActive k n ≤ MAX_PROTOCOL_MESSAGE_LENGTH

/-- Two heights of the active chain do not have the same hash. -/
theorem NodeState.Indexed.hash_ne {H : Hashes} (h : s.Indexed H) {i : Nat}
    (hi : i < s.chain.chainActive.length) (hk : k < s.chain.chainActive.length) (hne : i ≠ k) :
    blockHash H (getAncestor s.chain.chainActive i) ≠
      blockHash H (getAncestor s.chain.chainActive k) := by
  intro hsame
  have hfi := (h.found _ (h.active _ (contains_entry hi))).2
  have hfk := (h.found _ (h.active _ (contains_entry hk))).2
  rw [hsame, hfk, Option.some.injEq] at hfi
  have hheight := congrArg nHeight hfi
  rw [nHeight_entry hi, nHeight_entry hk] at hheight
  omega

/-- A request for the blocks of a window. -/
theorem processGetHeaders_window (h : s.Indexed node.env.H) {n : Nat}
    (hn : n + 1 ≤ MAX_HEADERS_RESULTS) (hlen : k + 1 + n < s.chain.chainActive.length) :
    ∃ vHave hashStop, processGetHeaders node s false false vHave hashStop =
      some (window node s.chain.chainActive (k + 1) (n + 1)) := by
  have hentry : contains s.chain.chainActive (getAncestor s.chain.chainActive k) = true :=
    contains_entry (by omega)
  have hfork : findForkInGlobalIndex node.env.H s.blocks s.chain.chainActive
      [blockHash node.env.H (getAncestor s.chain.chainActive k)] =
        getAncestor s.chain.chainActive k := by
    rw [findForkInGlobalIndex, (h.found _ (h.active _ hentry)).2]
    exact if_pos hentry
  refine ⟨[blockHash node.env.H (getAncestor s.chain.chainActive k)],
    blockHash node.env.H (getAncestor s.chain.chainActive (k + 1 + n : Nat)), ?_⟩
  rw [processGetHeaders, if_neg (by simp [MAX_LOCATOR_SZ]), if_neg (by decide), if_neg (by simp)]
  dsimp only
  rw [hfork, if_neg (entry_ne_nil (by omega)), chainNext_entry (by omega),
    collectHeaders_stop hn hlen rfl fun i h1 h2 => h.hash_ne (by omega) hlen (by omega)]

theorem processGetHeaders_alone (h : s.Indexed node.env.H) {p : BlockIndex}
    (hp : p ∈ s.blocks.mapBlockIndex) :
    processGetHeaders node s false false [] (blockHash node.env.H p) =
      some [sentHeader node p] := by
  obtain ⟨hne, hfound⟩ := h.found p hp
  rw [processGetHeaders, if_neg (by decide), if_neg (by decide),
    if_pos (show ([] : List Uint256).isEmpty = true from rfl), hfound]
  exact congrArg some (collectHeaders_alone hne rfl (by decide))

end Reply

/-- Every reply to a `getheaders` message is short enough for the peer exactly
when the headers of any blocks in a row are. -/
theorem getheaders_replies_accepted_iff (node : Node) (s : NodeState) (h : s.Indexed node.env.H) :
    (∀ fInitialDownload fWhitelisted vHave hashStop vHeaders,
      processGetHeaders node s fInitialDownload fWhitelisted vHave hashStop = some vHeaders →
        (headersPayload vHeaders).length ≤ MAX_PROTOCOL_MESSAGE_LENGTH) ↔ HeadersFit node s := by
  constructor
  · refine fun hall => ⟨fun p hp => ?_, fun k n hk hn hlen => ?_⟩
    · rw [← length_alone]
      exact hall _ _ _ _ _ (processGetHeaders_alone h hp)
    · obtain ⟨k, rfl⟩ := Nat.exists_eq_add_of_le' hk
      cases n with
      | zero => exact (by decide : (compactSize 0).length ≤ MAX_PROTOCOL_MESSAGE_LENGTH)
      | succ n =>
        obtain ⟨vHave, hashStop, hreply⟩ := processGetHeaders_window h hn
          (show k + 1 + n < _ by omega)
        rw [← length_window]
        exact hall _ _ _ _ _ hreply
  · intro hfit fInitialDownload fWhitelisted vHave hashStop vHeaders hreply
    unfold processGetHeaders at hreply
    split at hreply
    · cases hreply
    split at hreply
    · cases hreply
    split at hreply
    · cases hfind : s.blocks.findBlock node.env.H hashStop with
      | none =>
        rw [hfind] at hreply
        cases hreply
      | some p =>
        rw [hfind] at hreply
        have hmem := List.mem_of_find?_eq_some hfind
        have hhash : blockHash node.env.H p = hashStop := by
          simpa using List.find?_some hfind
        rw [← Option.some.inj hreply, collectHeaders_alone (h.found p hmem).1 hhash (by decide),
          length_alone]
        exact hfit.alone p hmem
    · rw [← Option.some.inj hreply]
      have hempty : (headersPayload []).length ≤ MAX_PROTOCOL_MESSAGE_LENGTH := by decide
      rcases findFork_contains s.chain.chainActive node.env.H s.blocks vHave with hnil | hin
      · rw [hnil, if_pos rfl, collectHeaders_nil]
        exact hempty
      · obtain ⟨k, hk, hentry⟩ := entry_of_contains hin
        rw [hentry, if_neg (entry_ne_nil hk), chainNext_entry hk]
        by_cases hnext : k + 1 < s.chain.chainActive.length
        · obtain ⟨n, -, hn, hlen, hcollect⟩ := collectHeaders_window node hashStop hnext
            (show 0 < MAX_HEADERS_RESULTS by decide)
          rw [hcollect, length_window]
          exact hfit.inARow _ _ (by omega) hn hlen
        · have hend : getAncestor s.chain.chainActive (k + 1 : Nat) = [] := entry_nil (by omega)
          rw [hend, collectHeaders_nil]
          exact hempty

/-! ## A chain of valid blocks that is too much for one message -/

/-- The active chains of blocks that passed every rule of `AcceptBlock` and
`ConnectBlock`, and that are on disk. -/
inductive ValidChain (node : Node) : BlockIndex → CCoinsViewCache → Prop
  | genesis : ValidChain node [node.env.net.params.genesis] (genesisView node.env)
  | connect {chain : BlockIndex} {v v' : CCoinsViewCache} {block checked : CBlock}
      {undo : Option CBlockUndo} (nAdjustedTime : Int) : ValidChain node chain v →
      block.hashPrevBlock = blockHash node.env.H chain →
      checkBlock node.env block true true = .ok checked →
      contextualCheckBlockHeader node.env.net block.toCBlockHeader chain nAdjustedTime = .ok () →
      contextualCheckBlock node.env block chain = .ok () →
      connectBlock node.env block (block.toCBlockHeader :: chain) v false = .ok (v', undo) →
      node.blockFiles (block.getHash node.env.H) = some block →
      ValidChain node (block.toCBlockHeader :: chain) v'

/-- What the witnesses of a transaction add to its size. -/
def witnessSize (tx : CTransaction) : Nat :=
  if tx.hasWitness then
    2 + (tx.vin.flatMap fun txin => serVector serBytes txin.scriptWitness).length
  else 0

theorem length_serializeTransaction (tx : CTransaction) :
    (serializeTransaction true tx).length =
      (serializeTransaction false tx).length + witnessSize tx := by
  unfold serializeTransaction witnessSize
  cases tx.hasWitness with
  | false => rfl
  | true =>
    simp only [Bool.and_self, Bool.false_and, if_true, Bool.false_eq_true, if_false,
      List.length_append, List.length_cons, List.length_nil]
    omega

theorem length_header {b : CBlockHeader} {a : CAuxPow} (hflag : b.isAuxpow = true)
    (haux : b.auxpow = some a) :
    (b.serialize true).length = (b.serialize false).length + witnessSize a.tx := by
  have htx := length_serializeTransaction a.tx
  rw [CBlockHeader.serialize, CBlockHeader.serialize, hflag, if_pos rfl, if_pos rfl, haux,
    Option.map_some, Option.map_some, Option.getD_some, Option.getD_some, CAuxPow.serialize,
    CAuxPow.serialize]
  simp only [List.length_append]
  omega

section Sample

variable {n : Nat} (pprev : BlockIndex)

/-- Two million bytes. -/
def heavyItem : List UInt8 := List.replicate 2000000 0

/-- The coinbase of a parent block that commits to a block, with a long
witness. -/
def parentCoinbase (hash : Uint256) : CTransaction where
  nVersion := 1
  vin := [{ prevout := .null
            scriptSig := pchMergedMiningHeader ++ hash.bytes.reverse ++ [1, 0, 0, 0, 0, 0, 0, 0]
            scriptWitness := [heavyItem] }]
  vout := [⟨0, []⟩]
  nLockTime := 0

def parentAuxPow (hash : Uint256) : CAuxPow where
  tx := parentCoinbase hash
  hashBlock := 0
  vMerkleBranch := []
  nIndex := 0
  vChainMerkleBranch := []
  nChainIndex := 0
  parentBlock :=
    { nVersion := 1, hashPrevBlock := 0
      hashMerkleRoot := (parentCoinbase hash).getHash CAuxPow.sampleHashes
      nTime := 0, nBits := 0, nNonce := 0 }

def testEnv : Env := { sampleEnv with net := .test }

/-- The coinbase of a merge-mined block; its version tells it apart. -/
def minedCoinbase : CTransaction :=
  { sampleTx [.null] [0] with nVersion := BitVec.ofNat 32 pprev.length }

def minedHeader : CPureBlockHeader where
  nVersion := 0x20210104#32
  hashPrevBlock := blockHash testEnv.H pprev
  hashMerkleRoot := (minedCoinbase pprev).getHash testEnv.H
  nTime := UInt32.ofNat (1703462400 + 121 * pprev.length)
  nBits := 0x1e0fffff
  nNonce := 0

/-- A merge-mined block on top of `pprev`. -/
def minedBlock : CBlock :=
  { minedHeader pprev with
    auxpow := some (parentAuxPow ((minedHeader pprev).getHash testEnv.H))
    vtx := [minedCoinbase pprev] }

def minedIndex : BlockIndex := (minedBlock pprev).toCBlockHeader :: pprev

def minedChain : Nat → BlockIndex
  | 0 => [testEnv.net.params.genesis]
  | n + 1 => minedIndex (minedChain n)

/-- What running the rules on the two blocks gives, without the long witness. -/
theorem minedBlock_runs : ∀ n : Fin 2,
    let chain := minedChain n
    let block := minedBlock chain
    let params := consensusAfter testEnv.net chain
    okWith (checkBlock testEnv block true true) (fun _ => true) = true ∧
    contextualCheckBlockHeader testEnv.net block.toCBlockHeader chain 1703463000 = .ok () ∧
    (block.toCBlockHeader.serialize false).length = 306 ∧
    (block.serialize false).length ≤ 1000 ∧
    (serVector (serializeTransaction true) block.vtx).length ≤ 1000 ∧
    (block.vtx.any fun tx =>
      !isFinalTx tx chain.length (nLockTimeCutoff block chain params)) = false ∧
    checkCoinbaseHeight block chain params = .ok () ∧
    checkDevelopmentFund testEnv block chain.length = .ok () ∧
    checkWitness testEnv.H block chain params = .ok () := by
  decide +kernel

theorem minedBlock_isAuxpow : (minedBlock pprev).isAuxpow = true :=
  show (0x20210104#32 &&& CPureBlockHeader.VERSION_AUXPOW != 0) = true by decide

theorem witnessSize_parentCoinbase (hash : Uint256) :
    witnessSize (parentCoinbase hash) = 2000008 := by
  have hcount : (compactSize 2000000).length = 5 := by decide
  have hitem : heavyItem.length = 2000000 := List.length_replicate
  have hwitness : (serVector serBytes [heavyItem]).length = 2000006 := by
    rw [serVector, List.flatMap_singleton, serBytes, hitem, List.length_append, List.length_append,
      hcount, hitem]
    rfl
  rw [witnessSize, if_pos (show (parentCoinbase hash).hasWitness = true from rfl), parentCoinbase,
    List.flatMap_singleton, hwitness]

theorem minedHeader_size (hn : n < 2) :
    ((minedBlock (minedChain n)).toCBlockHeader.serialize true).length = 2000314 := by
  obtain ⟨-, -, h, -⟩ := minedBlock_runs ⟨n, hn⟩
  rw [length_header (minedBlock_isAuxpow _) rfl, h]
  exact congrArg (306 + ·) (witnessSize_parentCoinbase _)

theorem minedBlock_weight (hn : n < 2) :
    getBlockWeight (minedBlock (minedChain n)) ≤ MAX_BLOCK_WEIGHT := by
  obtain ⟨-, -, -, hbase, htxs, -⟩ := minedBlock_runs ⟨n, hn⟩
  have hmax : MAX_BLOCK_WEIGHT = 4000000 := rfl
  have hscale : WITNESS_SCALE_FACTOR - 1 = 3 := rfl
  rw [getBlockWeight, CBlock.serialize, CBlock.serialize, List.length_append, List.length_append,
    minedHeader_size hn, hscale]
  rw [CBlock.serialize, List.length_append] at hbase
  dsimp only at hbase htxs
  omega

/-- The rules before the weight do not look at the auxpow. -/
theorem minedBlock_accepted (hn : n < 2) :
    contextualCheckBlock testEnv (minedBlock (minedChain n)) (minedChain n) = .ok () := by
  obtain ⟨-, -, -, -, -, hfinal, hheight, hfund, hwitness⟩ := minedBlock_runs ⟨n, hn⟩
  refine bind_ok_iff.mpr ⟨(), rejectIf_ok.mpr hfinal, ?_⟩
  refine bind_ok_iff.mpr ⟨(), hheight, ?_⟩
  refine bind_ok_iff.mpr ⟨(), hfund, ?_⟩
  refine bind_ok_iff.mpr ⟨(), hwitness, ?_⟩
  exact rejectIf_ok.mpr (decide_eq_false (not_lt.mpr (minedBlock_weight hn)))

def minedFiles (hash : Uint256) : Option CBlock :=
  [minedBlock (minedChain 0), minedBlock (minedChain 1)].find? fun block =>
    block.getHash testEnv.H == hash

def minedNode : Node where
  env := testEnv
  blockFiles := minedFiles
  addr := List.length
  cacheUse _ := []
  fDoFullFlush _ := false

theorem minedNode_env : minedNode.env = testEnv := rfl

theorem minedNode_blockFiles : minedNode.blockFiles = minedFiles := by rw [minedNode]

theorem find_by_hash {H : Hashes} {a b : CBlock} (hne : a.getHash H ≠ b.getHash H) :
    [a, b].find? (fun block => block.getHash H == a.getHash H) = some a ∧
      [a, b].find? (fun block => block.getHash H == b.getHash H) = some b := by
  simp [hne]

theorem minedBlock_stored :
    minedFiles ((minedBlock (minedChain 0)).getHash testEnv.H) =
        some (minedBlock (minedChain 0)) ∧
      minedFiles ((minedBlock (minedChain 1)).getHash testEnv.H) =
        some (minedBlock (minedChain 1)) := by
  have hne : (minedBlock (minedChain 0)).getHash testEnv.H ≠
      (minedBlock (minedChain 1)).getHash testEnv.H := by decide +kernel
  exact find_by_hash hne

theorem minedChain_valid : ∃ v, ValidChain minedNode (minedChain 2) v := by
  have h : okWith (connectBlock testEnv (minedBlock (minedChain 0)) (minedChain 1)
      (genesisView testEnv) false) (fun r => okWith (connectBlock testEnv
        (minedBlock (minedChain 1)) (minedChain 2) r.1 false) fun _ => true) = true := by
    decide +kernel
  obtain ⟨⟨v1, undo1⟩, h1, h⟩ := of_okWith h
  obtain ⟨⟨v2, undo2⟩, h2, -⟩ := of_okWith h
  obtain ⟨hcheck1, hheader1, -⟩ := minedBlock_runs 0
  obtain ⟨hcheck2, hheader2, -⟩ := minedBlock_runs 1
  obtain ⟨_, hchecked1, -⟩ := of_okWith hcheck1
  obtain ⟨_, hchecked2, -⟩ := of_okWith hcheck2
  have hfirst : ValidChain minedNode (minedChain 1) v1 :=
    ValidChain.connect 1703463000 ValidChain.genesis rfl hchecked1 hheader1
      (minedBlock_accepted (by decide)) h1 (by
        rw [minedNode_blockFiles, minedNode_env]
        exact minedBlock_stored.1)
  refine ⟨v2, ValidChain.connect 1703463000 hfirst rfl hchecked2 hheader2
    (minedBlock_accepted (by decide)) h2 ?_⟩
  rw [minedNode_blockFiles, minedNode_env]
  exact minedBlock_stored.2

/-- The node with that chain. -/
def minedState : NodeState where
  chain :=
    { coinsDB := ∅
      hashBestChain := blockHash testEnv.H (minedChain 2)
      cacheCoins := ∅
      hashBlock := 0
      chainActive := minedChain 2
      undoFiles := fun _ => none
      nNow := 0 }
  blocks :=
    { mapBlockIndex := [minedChain 0, minedChain 1, minedChain 2]
      info := fun _ => {}
      setBlockIndexCandidates := [minedChain 2]
      mapBlocksUnlinked := []
      pindexBestInvalid := []
      gFailedBlocks := []
      nBlockReverseSequenceId := -1
      nLastPreciousChainwork := 0 }

theorem found_by_hash {H : Hashes} {a b c : BlockIndex}
    (hab : blockHash H a ≠ blockHash H b) (hac : blockHash H a ≠ blockHash H c)
    (hbc : blockHash H b ≠ blockHash H c) :
    ∀ p ∈ [a, b, c], [a, b, c].find? (fun q => blockHash H q == blockHash H p) = some p := by
  simp [hab, hac, hbc]

theorem suffixes {chain p : BlockIndex} {b c g : CBlockHeader} (hchain : chain = [c, b, g])
    (hp : contains chain p = true) : p = [g] ∨ p = [b, g] ∨ p = [c, b, g] := by
  obtain ⟨hne, hsuf⟩ := contains_iff.mp hp
  rw [hchain, List.suffix_cons_iff, List.suffix_cons_iff, List.suffix_cons_iff,
    List.suffix_nil] at hsuf
  rcases hsuf with h | h | h | h
  · exact Or.inr (Or.inr h)
  · exact Or.inr (Or.inl h)
  · exact Or.inl h
  · exact absurd h hne

theorem minedState_indexed : minedState.Indexed testEnv.H where
  found p hp := by
    refine ⟨?_, found_by_hash (by decide +kernel) (by decide +kernel) (by decide +kernel) p hp⟩
    rintro rfl
    simp only [minedState, List.mem_cons, List.not_mem_nil, or_false] at hp
    rcases hp with h | h | h <;> cases h
  active p hp := by
    rcases suffixes rfl hp with rfl | rfl | rfl
    · exact List.mem_cons_self
    · exact List.mem_cons_of_mem _ List.mem_cons_self
    · exact List.mem_cons_of_mem _ (List.mem_cons_of_mem _ List.mem_cons_self)

/-- What is sent of the two blocks is their header on disk. -/
theorem headerSize_mined (hn : n < 2) : headerSize minedNode (minedChain (n + 1)) = 2000314 := by
  have hfile : minedFiles (blockHash testEnv.H (minedIndex (minedChain n))) =
      some (minedBlock (minedChain n)) := by
    obtain rfl | rfl : n = 0 ∨ n = 1 := by omega
    · exact minedBlock_stored.1
    · exact minedBlock_stored.2
  rw [headerSize, minedChain, minedIndex, getBlockHeader, if_pos (minedBlock_isAuxpow _),
    minedNode_blockFiles, minedNode_env, ← minedIndex, hfile]
  exact minedHeader_size hn

theorem windowSize_mined : windowSize minedNode (minedChain 2) 1 2 = 4000631 := by
  have hfirst : headerSize minedNode (getAncestor (minedChain 2) (1 : Nat)) = 2000314 :=
    headerSize_mined (n := 0) (by decide)
  have hsecond : headerSize minedNode (getAncestor (minedChain 2) (1 + 1 : Nat)) = 2000314 :=
    headerSize_mined (n := 1) (by decide)
  have hcount : (compactSize 2).length = 1 := rfl
  have hsize := windowSize_two minedNode (minedChain 2) 1
  omega

theorem minedState_reply :
    ∃ vHave hashStop vHeaders,
      processGetHeaders minedNode minedState false false vHave hashStop = some vHeaders ∧
        MAX_PROTOCOL_MESSAGE_LENGTH < (headersPayload vHeaders).length := by
  have hreply : ∃ vHave hashStop, processGetHeaders minedNode minedState false false vHave
      hashStop = some (window minedNode (minedChain 2) 1 2) :=
    processGetHeaders_window minedState_indexed (k := 0) (n := 1) (by decide) (by decide)
  obtain ⟨vHave, hashStop, hreply⟩ := hreply
  have hsize := (length_window 1 2).trans windowSize_mined
  have hmax : MAX_PROTOCOL_MESSAGE_LENGTH = 4000000 := rfl
  exact ⟨vHave, hashStop, _, hreply, by omega⟩

/-- The chain is valid, and the request is one that a peer would make, but the
reply is too long to be accepted. -/
theorem getheaders_reply_too_long :
    ∃ (node : Node) (s : NodeState) (v : CCoinsViewCache) (vHave : List Uint256)
      (hashStop : Uint256) (vHeaders : List CBlock),
      ValidChain node s.chain.chainActive v ∧ s.Indexed node.env.H ∧
        processGetHeaders node s false false vHave hashStop = some vHeaders ∧
        MAX_PROTOCOL_MESSAGE_LENGTH < (headersPayload vHeaders).length := by
  obtain ⟨v, hv⟩ := minedChain_valid
  obtain ⟨vHave, hashStop, vHeaders, hreply, hlong⟩ := minedState_reply
  exact ⟨minedNode, minedState, v, vHave, hashStop, vHeaders, hv, minedState_indexed, hreply,
    hlong⟩

theorem getheaders_replies_accepted_iff_sample :
    minedState.Indexed minedNode.env.H ∧ ¬ HeadersFit minedNode minedState := by
  refine ⟨minedState_indexed, fun hfit => ?_⟩
  obtain ⟨vHave, hashStop, vHeaders, hreply, hlong⟩ := minedState_reply
  have hshort := (getheaders_replies_accepted_iff minedNode minedState minedState_indexed).mpr hfit
    false false vHave hashStop vHeaders hreply
  omega

end Sample

end junkcoin
