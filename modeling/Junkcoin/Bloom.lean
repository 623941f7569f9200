-- The filter that a peer sets for itself (`bloom.cpp`, and the filter messages
-- of `net_processing.cpp`). A computation that fails is a division by zero or an
-- access outside of `vData`.
import Junkcoin.Interpreter

namespace junkcoin

/-! ## The hash -/

def ROTL32 (x : UInt32) (r : UInt32) : UInt32 := (x <<< r) ||| (x >>> (32 - r))

def murmurMix (k1 : UInt32) : UInt32 := ROTL32 (k1 * 0xcc9e2d51) 15 * 0x1b873593

/-- The blocks of four bytes, and the tail. -/
def murmurBody : (h1 : UInt32) → List UInt8 → UInt32
  | h1, a :: b :: c :: d :: rest =>
    let h1 := h1 ^^^ murmurMix (UInt32.ofNat (Bytes.ofLe [a, b, c, d]))
    murmurBody (ROTL32 h1 13 * 5 + 0xe6546b64) rest
  | h1, [] => h1
  | h1, tail => h1 ^^^ murmurMix (UInt32.ofNat (Bytes.ofLe tail))

/-- `MurmurHash3`. -/
def murmurHash3 (nHashSeed : UInt32) (data : List UInt8) : UInt32 :=
  let h1 := murmurBody nHashSeed data ^^^ UInt32.ofNat data.length
  let h1 := (h1 ^^^ (h1 >>> 16)) * 0x85ebca6b
  let h1 := (h1 ^^^ (h1 >>> 13)) * 0xc2b2ae35
  h1 ^^^ (h1 >>> 16)

/-! ## The filter -/

structure CBloomFilter where
  vData : List UInt8
  isFull : Bool
  isEmpty : Bool
  nHashFuncs : UInt32
  nTweak : UInt32
  nFlags : UInt8
  /-- What `insert` was called with. The node does not keep it; the laws are about it. -/
  inserted : List Valtype
  deriving DecidableEq

/-- What a filter asks about transactions. -/
structure BloomEnv where
  H : Hashes
  /-- Whether `Solver` finds `TX_PUBKEY` or `TX_MULTISIG`. -/
  solvesToKeys : CScript → Bool
  /-- `NODE_BLOOM` is among the services for the peer. -/
  nodeBloom : Bool

namespace CBloomFilter

/-- The default constructor. -/
def full : CBloomFilter where
  vData := []
  isFull := true
  isEmpty := false
  nHashFuncs := 0
  nTweak := 0
  nFlags := 0
  inserted := []

variable (env : BloomEnv) (f : CBloomFilter)

def hash (nHashNum : Nat) (key : Valtype) : Option Nat :=
  if f.vData.length * 8 = 0 then none
  else some ((murmurHash3 (UInt32.ofNat nHashNum * 0xFBA4C795 + f.nTweak) key).toNat %
    (f.vData.length * 8))

def bitMask (nIndex : Nat) : UInt8 := 1 <<< UInt8.ofNat (nIndex % 8)

def setBit (nIndex : Nat) : Option CBloomFilter :=
  if nIndex / 8 < f.vData.length then
    some { f with vData := f.vData.modify (nIndex / 8) (· ||| bitMask nIndex) }
  else none

/-- The loop of `insert`, for these numbers of hash functions. -/
def setBits (key : Valtype) : List Nat → CBloomFilter → Option CBloomFilter
  | [], f => some f
  | i :: is, f => do
    let nIndex ← f.hash i key
    let f ← f.setBit nIndex
    setBits key is f

def insert (key : Valtype) : Option CBloomFilter :=
  let inserted := key :: f.inserted
  if f.isFull then some { f with inserted }
  else do
    let f ← setBits key (List.range f.nHashFuncs.toNat) f
    some { f with isEmpty := false, inserted }

/-- The loop of `contains`. -/
def testBits (key : Valtype) : List Nat → Option Bool
  | [] => some true
  | i :: is => do
    let nIndex ← f.hash i key
    let byte ← f.vData[nIndex / 8]?
    if byte &&& bitMask nIndex = 0 then some false else testBits key is

def contains (key : Valtype) : Option Bool :=
  if f.isFull then some true
  else if f.isEmpty then some false
  else f.testBits key (List.range f.nHashFuncs.toNat)

def updateEmptyFull : CBloomFilter :=
  { f with isFull := f.vData.all (· == 0xff), isEmpty := f.vData.all (· == 0) }

/-! ## Transactions -/

/-- What `GetOp` gives, opcode by opcode, up to the first one that it cannot read. An
opcode that pushes nothing gives an empty vector. -/
def dataOf : (fuel : Nat) → CScript → List Valtype
  | 0, _ => []
  | fuel + 1, pc =>
    match getOp pc with
    | none => []
    | some (_, data, pc) => data :: dataOf fuel pc

def scriptData (script : CScript) : List Valtype := dataOf script.length script

/-- The loop over the data of a script. -/
def containsAny : List Valtype → Option Bool
  | [] => some false
  | data :: rest => do
    let found ← (if data.length ≠ 0 then f.contains data else some false : Option Bool)
    if found then some true else containsAny rest

/-- A matched output goes into the filter, as the flags say. -/
def addOutput (outpoint : COutPoint) (scriptPubKey : CScript) : Option CBloomFilter :=
  if f.nFlags &&& 3 = 1 then f.insert outpoint.serialize
  else if f.nFlags &&& 3 = 2 then
    if env.solvesToKeys scriptPubKey then f.insert outpoint.serialize else some f
  else some f

def scanOutputs (hash : Uint256) : (i : Nat) → List CTxOut → CBloomFilter → (fFound : Bool) →
    Option (CBloomFilter × Bool)
  | _, [], f, fFound => some (f, fFound)
  | i, txout :: vout, f, fFound => do
    if ← f.containsAny (scriptData txout.scriptPubKey) then
      let f ← f.addOutput env ⟨hash, UInt32.ofNat i⟩ txout.scriptPubKey
      scanOutputs hash (i + 1) vout f true
    else scanOutputs hash (i + 1) vout f fFound

def scanInputs : List CTxIn → Option Bool
  | [] => some false
  | txin :: vin => do
    if ← f.contains txin.prevout.serialize then some true
    else if ← f.containsAny (scriptData txin.scriptSig) then some true
    else scanInputs vin

def isRelevantAndUpdate (tx : CTransaction) : Option (CBloomFilter × Bool) :=
  if f.isFull then some (f, true)
  else if f.isEmpty then some (f, false)
  else do
    let hash := tx.getHash env.H
    let fFound ← f.contains hash.bytes
    let (f, fFound) ← scanOutputs env hash 0 tx.vout f fFound
    if fFound then some (f, true)
    else do
      let found ← f.scanInputs tx.vin
      some (f, found)

/-! ## Messages -/

def MAX_BLOOM_FILTER_SIZE : Nat := 36000

def MAX_HASH_FUNCS : Nat := 50

/-- What happens to the filter of a peer. -/
inductive FilterCall
  | filterLoad (vData : List UInt8) (nHashFuncs nTweak : UInt32) (nFlags : UInt8)
  | filterAdd (vData : Valtype)
  | filterClear
  | isRelevantAndUpdate (tx : CTransaction)

/-- The filter after one of them. Without `NODE_BLOOM` the first two are refused. -/
def after : CBloomFilter → FilterCall → Option CBloomFilter
  | f, .filterLoad vData nHashFuncs nTweak nFlags =>
    if env.nodeBloom && vData.length ≤ MAX_BLOOM_FILTER_SIZE &&
        nHashFuncs.toNat ≤ MAX_HASH_FUNCS then
      some (updateEmptyFull { full with vData, nHashFuncs, nTweak, nFlags })
    else some f
  | f, .filterAdd vData =>
    if env.nodeBloom && vData.length ≤ MAX_SCRIPT_ELEMENT_SIZE then f.insert vData else some f
  | f, .filterClear => if env.nodeBloom then some full else some f
  | f, .isRelevantAndUpdate tx => (f.isRelevantAndUpdate env tx).map (·.1)

/-- The filter of a peer after some of them. -/
def peerFilter (calls : List FilterCall) : Option CBloomFilter :=
  calls.foldlM (after env) full

/-! ## Bits -/

variable {f} {key : Valtype}

/-- The bit for one hash function. -/
def index (f : CBloomFilter) (key : Valtype) (i : Nat) : Nat :=
  (murmurHash3 (UInt32.ofNat i * 0xFBA4C795 + f.nTweak) key).toNat % (f.vData.length * 8)

def HasBit (f : CBloomFilter) (n : Nat) : Prop :=
  ∃ byte, f.vData[n / 8]? = some byte ∧ byte &&& bitMask n ≠ 0

/-- What `contains` answers. -/
def Holds (f : CBloomFilter) (key : Valtype) : Prop :=
  f.isFull = true ∨ f.isEmpty = false ∧ ∀ i < f.nHashFuncs.toNat, f.HasBit (f.index key i)

/-- A filter without bytes is full, so that nothing is hashed, and it holds what was
inserted. -/
structure Sound (f : CBloomFilter) : Prop where
  ready : f.vData = [] → f.isFull = true
  holds : ∀ key ∈ f.inserted, f.Holds key

theorem hash_eq (h : f.vData ≠ []) (i : Nat) : f.hash i key = some (f.index key i) := by
  have hpos : 0 < f.vData.length := List.length_pos_iff.mpr h
  rw [hash, if_neg (by omega), index]

theorem index_div_lt (h : f.vData ≠ []) (key : Valtype) (i : Nat) :
    f.index key i / 8 < f.vData.length := by
  have hpos : 0 < f.vData.length := List.length_pos_iff.mpr h
  have := Nat.mod_lt (murmurHash3 (UInt32.ofNat i * 0xFBA4C795 + f.nTweak) key).toNat
    (show 0 < f.vData.length * 8 by omega)
  rw [index]
  omega

theorem bitMask_ne_zero (n : Nat) : bitMask n ≠ 0 := by
  have hall : ∀ k : Fin 8, (1 : UInt8) <<< UInt8.ofNat k.val ≠ 0 := by decide
  exact hall ⟨n % 8, Nat.mod_lt _ (by decide)⟩

theorem or_and_self (b m : UInt8) : (b ||| m) &&& m = m := by
  apply UInt8.eq_of_toBitVec_eq
  ext i
  simp only [UInt8.toBitVec_and, UInt8.toBitVec_or, BitVec.getElem_and, BitVec.getElem_or]
  cases m.toBitVec[i] <;> simp

theorem or_and_ne_zero {b m n : UInt8} (h : b &&& n ≠ 0) : (b ||| m) &&& n ≠ 0 := by
  intro hzero
  apply h
  have hle : b &&& n = ((b ||| m) &&& n) &&& b := by
    apply UInt8.eq_of_toBitVec_eq
    ext i
    simp only [UInt8.toBitVec_and, UInt8.toBitVec_or, BitVec.getElem_and, BitVec.getElem_or]
    cases b.toBitVec[i] <;> simp
  rw [hle, hzero]
  apply UInt8.eq_of_toBitVec_eq
  simp

/-- A bit is set, and no other bit goes away. -/
theorem setBit_spec {n : Nat} (h : n / 8 < f.vData.length) :
    ∃ vData, f.setBit n = some { f with vData } ∧ vData.length = f.vData.length ∧
      HasBit { f with vData } n ∧ ∀ m, f.HasBit m → HasBit { f with vData } m := by
  refine ⟨_, if_pos h, List.length_modify .., ?_, ?_⟩
  · refine ⟨f.vData[n / 8] ||| bitMask n, by simp [h], ?_⟩
    rw [or_and_self]
    exact bitMask_ne_zero n
  · rintro m ⟨byte, hbyte, hset⟩
    by_cases hm : n / 8 = m / 8
    · refine ⟨byte ||| bitMask n, by simp [hm, hbyte], ?_⟩
      exact or_and_ne_zero hset
    · exact ⟨byte, by simp [hm, hbyte], hset⟩

/-- The loop of `insert` sets the bits of the key, and changes nothing but bits. -/
theorem setBits_spec (h : f.vData ≠ []) (key : Valtype) (is : List Nat) :
    ∃ vData, setBits key is f = some { f with vData } ∧ vData.length = f.vData.length ∧
      (∀ i ∈ is, HasBit { f with vData } (f.index key i)) ∧
      ∀ m, f.HasBit m → HasBit { f with vData } m := by
  induction is generalizing f with
  | nil => exact ⟨f.vData, rfl, rfl, by simp, fun _ hm => hm⟩
  | cons i is ih =>
    obtain ⟨vData, hset, hlen, hbit, hkeep⟩ := setBit_spec (index_div_lt h key i)
    have hne : vData ≠ [] := by
      intro hnil
      rw [hnil] at hlen
      exact h (List.length_eq_zero_iff.mp hlen.symm)
    obtain ⟨vData', hrest, hlen', hbits', hkeep'⟩ := ih (f := { f with vData }) hne
    have hindex (j : Nat) : index { f with vData } key j = f.index key j := by
      simp only [index, hlen]
    refine ⟨vData', ?_, hlen'.trans hlen, ?_, fun m hm => hkeep' m (hkeep m hm)⟩
    · rw [setBits, hash_eq h, Option.bind_eq_bind, Option.bind_some, hset]
      exact hrest
    · intro j hj
      rcases List.mem_cons.mp hj with rfl | hj
      · exact hkeep' _ hbit
      · rw [← hindex j]
        exact hbits' j hj

/-! ## Inserting and asking -/

/-- `f'` comes after `f`: it is sound, and it holds what `f` holds. -/
def Follows (f f' : CBloomFilter) : Prop := f'.Sound ∧ ∀ key, f.Holds key → f'.Holds key

theorem Follows.trans {f f' f'' : CBloomFilter} (h : Follows f f') (h' : Follows f' f'') :
    Follows f f'' := ⟨h'.1, fun key hkey => h'.2 key (h.2 key hkey)⟩

theorem insert_spec (h : f.Sound) (key : Valtype) :
    ∃ f', f.insert key = some f' ∧ f'.inserted = key :: f.inserted ∧ Follows f f' := by
  by_cases hfull : f.isFull = true
  · refine ⟨_, if_pos hfull, rfl, ⟨fun _ => hfull, fun _ _ => Or.inl hfull⟩, ?_⟩
    exact fun _ _ => Or.inl hfull
  · have hne : f.vData ≠ [] := fun hnil => hfull (h.ready hnil)
    obtain ⟨vData, hset, hlen, hbits, hkeep⟩ :=
      setBits_spec hne key (List.range f.nHashFuncs.toNat)
    let f' := { f with vData, isEmpty := false, inserted := key :: f.inserted }
    have hindex (k : Valtype) (i : Nat) : f'.index k i = f.index k i := by
      simp only [index, f', hlen]
    have hholds (k : Valtype) (hk : f.Holds k) : f'.Holds k := by
      rcases hk with hk | ⟨_, hk⟩
      · exact absurd hk hfull
      · refine Or.inr ⟨rfl, fun i hi => ?_⟩
        rw [hindex]
        exact hkeep _ (hk i hi)
    refine ⟨f', ?_, rfl, ⟨fun hnil => ?_, fun k hk => ?_⟩, hholds⟩
    · rw [insert, if_neg hfull, hset]
      rfl
    · exact absurd (List.length_eq_zero_iff.mp (hlen ▸ congrArg List.length hnil)) hne
    · rcases List.mem_cons.mp hk with rfl | hk
      · refine Or.inr ⟨rfl, fun i hi => ?_⟩
        rw [hindex]
        exact hbits i (List.mem_range.mpr hi)
      · exact hholds k (h.holds k hk)

theorem testBits_spec (h : f.vData ≠ []) (key : Valtype) (is : List Nat) :
    ∃ b, f.testBits key is = some b ∧ (b = true ↔ ∀ i ∈ is, f.HasBit (f.index key i)) := by
  induction is with
  | nil => exact ⟨true, rfl, by simp⟩
  | cons i is ih =>
    obtain ⟨b, hb, hiff⟩ := ih
    have hlt := index_div_lt h key i
    have hbit : f.HasBit (f.index key i) ↔
        f.vData[f.index key i / 8] &&& bitMask (f.index key i) ≠ 0 := by
      simp [HasBit, List.getElem?_eq_getElem hlt]
    simp only [testBits, hash_eq h, Option.bind_eq_bind, Option.bind_some,
      List.getElem?_eq_getElem hlt, List.mem_cons, forall_eq_or_imp]
    split
    · rename_i hzero
      exact ⟨false, rfl, by simp [hbit, hzero]⟩
    · rename_i hset
      exact ⟨b, hb, by rw [hiff, hbit]; simp [hset]⟩

theorem contains_spec (h : f.Sound) (key : Valtype) :
    ∃ b, f.contains key = some b ∧ (b = true ↔ f.Holds key) := by
  unfold contains Holds
  by_cases hfull : f.isFull = true
  · exact ⟨true, if_pos hfull, by simp [hfull]⟩
  · rw [if_neg hfull]
    by_cases hempty : f.isEmpty = true
    · exact ⟨false, if_pos hempty, by simp [hfull, hempty]⟩
    · rw [if_neg hempty]
      obtain ⟨b, hb, hiff⟩ :=
        testBits_spec (fun hnil => hfull (h.ready hnil)) key (List.range f.nHashFuncs.toNat)
      refine ⟨b, hb, ?_⟩
      simpa [hfull, hempty] using hiff

theorem contains_iff (h : f.Sound) : f.contains key = some true ↔ f.Holds key := by
  obtain ⟨b, hb, hiff⟩ := contains_spec h key
  rw [hb, ← hiff, Option.some.injEq]

theorem containsAny_spec (h : f.Sound) (l : List Valtype) :
    ∃ b, f.containsAny l = some b ∧ (b = true ↔ ∃ data ∈ l, data ≠ [] ∧ f.Holds data) := by
  induction l with
  | nil => exact ⟨false, rfl, by simp⟩
  | cons data rest ih =>
    obtain ⟨b, hb, hiff⟩ := ih
    obtain ⟨found, hfound, hholds⟩ := contains_spec h data
    by_cases hdata : data = []
    · refine ⟨b, ?_, by simp [hdata, hiff]⟩
      simp [containsAny, hdata, hb]
    · cases found with
      | true => exact ⟨true, by simp [containsAny, hdata, hfound], by simp [hdata, ← hholds]⟩
      | false =>
        refine ⟨b, by simp [containsAny, hdata, hfound, hb], ?_⟩
        simp [← hholds, hiff]

/-! ## Transactions against the filter -/

theorem addOutput_spec (h : f.Sound) (outpoint : COutPoint) (scriptPubKey : CScript) :
    ∃ f', f.addOutput env outpoint scriptPubKey = some f' ∧ Follows f f' := by
  obtain ⟨f', hinsert, _, hfollows⟩ := insert_spec h outpoint.serialize
  have hsame : Follows f f := ⟨h, fun _ hk => hk⟩
  unfold addOutput
  split
  · exact ⟨f', hinsert, hfollows⟩
  · split
    · split
      · exact ⟨f', hinsert, hfollows⟩
      · exact ⟨f, rfl, hsame⟩
    · exact ⟨f, rfl, hsame⟩

theorem scanOutputs_spec (h : f.Sound) (hash : Uint256) (i : Nat) (vout : List CTxOut)
    (fFound : Bool) :
    ∃ f' found, scanOutputs env hash i vout f fFound = some (f', found) ∧ Follows f f' ∧
      (fFound = true ∨ (∃ txout ∈ vout, ∃ data ∈ scriptData txout.scriptPubKey,
        data ≠ [] ∧ f.Holds data) → found = true) := by
  induction vout generalizing f i fFound with
  | nil => exact ⟨f, fFound, rfl, ⟨h, fun _ hk => hk⟩, by simp⟩
  | cons txout vout ih =>
    obtain ⟨b, hb, hiff⟩ := containsAny_spec h (scriptData txout.scriptPubKey)
    cases b with
    | true =>
      obtain ⟨f₁, hadd, hfollows⟩ :=
        addOutput_spec env h ⟨hash, UInt32.ofNat i⟩ txout.scriptPubKey
      obtain ⟨f₂, found, hrest, hfollows', hfound⟩ := ih hfollows.1 (i + 1) true
      refine ⟨f₂, found, ?_, hfollows.trans hfollows', fun _ => hfound (Or.inl rfl)⟩
      simp [scanOutputs, hb, hadd, hrest]
    | false =>
      obtain ⟨f₂, found, hrest, hfollows, hfound⟩ := ih h (i + 1) fFound
      refine ⟨f₂, found, by simp [scanOutputs, hb, hrest], hfollows, fun hhit => hfound ?_⟩
      rcases hhit with hhit | ⟨out, hout, hdata⟩
      · exact Or.inl hhit
      · rcases List.mem_cons.mp hout with rfl | hout
        · exact absurd (hiff.mpr hdata) (by simp)
        · exact Or.inr ⟨out, hout, hdata⟩

theorem scanInputs_spec (h : f.Sound) (vin : List CTxIn) :
    ∃ found, f.scanInputs vin = some found ∧
      ((∃ txin ∈ vin, f.Holds txin.prevout.serialize ∨
        ∃ data ∈ scriptData txin.scriptSig, data ≠ [] ∧ f.Holds data) → found = true) := by
  induction vin with
  | nil => exact ⟨false, rfl, by simp⟩
  | cons txin vin ih =>
    obtain ⟨rest, hrest, hfound⟩ := ih
    obtain ⟨b, hb, hiff⟩ := contains_spec h txin.prevout.serialize
    obtain ⟨c, hc, hiff'⟩ := containsAny_spec h (scriptData txin.scriptSig)
    cases b with
    | true => exact ⟨true, by simp [scanInputs, hb], by simp⟩
    | false =>
      cases c with
      | true => exact ⟨true, by simp [scanInputs, hb, hc], by simp⟩
      | false =>
        refine ⟨rest, by simp [scanInputs, hb, hc, hrest], ?_⟩
        rintro ⟨txin', hmem, hhit⟩
        rcases List.mem_cons.mp hmem with rfl | hmem
        · rw [← hiff, ← hiff'] at hhit
          simp at hhit
        · exact hfound ⟨txin', hmem, hhit⟩

/-- The filter contains something of a transaction: its hash, data of an output, an outpoint
that it spends, or data of an input. An empty vector is no data. -/
def Hits (env : BloomEnv) (f : CBloomFilter) (tx : CTransaction) : Prop :=
  f.contains (tx.getHash env.H).bytes = some true ∨
    (∃ txout ∈ tx.vout, ∃ data ∈ scriptData txout.scriptPubKey,
      data ≠ [] ∧ f.contains data = some true) ∨
    ∃ txin ∈ tx.vin, f.contains txin.prevout.serialize = some true ∨
      ∃ data ∈ scriptData txin.scriptSig, data ≠ [] ∧ f.contains data = some true

theorem isRelevantAndUpdate_spec (h : f.Sound) (tx : CTransaction) :
    ∃ f' found, f.isRelevantAndUpdate env tx = some (f', found) ∧ f'.Sound ∧
      (f.Hits env tx → found = true) := by
  simp only [Hits, contains_iff h]
  unfold isRelevantAndUpdate
  by_cases hfull : f.isFull = true
  · exact ⟨f, true, if_pos hfull, h, fun _ => rfl⟩
  · by_cases hempty : f.isEmpty = true
    · refine ⟨f, false, by rw [if_neg hfull, if_pos hempty], h, fun hhit => ?_⟩
      simp [Holds, hfull, hempty] at hhit
    · obtain ⟨b, hb, hiff⟩ := contains_spec h (tx.getHash env.H).bytes
      obtain ⟨f', found, houts, hfollows, hfound⟩ :=
        scanOutputs_spec env h (tx.getHash env.H) 0 tx.vout b
      obtain ⟨found', hins, hfound'⟩ := scanInputs_spec hfollows.1 tx.vin
      rw [if_neg hfull, if_neg hempty]
      cases found with
      | true => exact ⟨f', true, by simp [hb, houts], hfollows.1, fun _ => rfl⟩
      | false =>
        refine ⟨f', found', by simp [hb, houts, hins], hfollows.1, ?_⟩
        -- what the filter held before the outputs were added it holds now
        rintro (hhit | hhit | ⟨txin, hmem, hhit⟩)
        · exact absurd (hfound (Or.inl (hiff.mpr hhit))) (by simp)
        · exact absurd (hfound (Or.inr hhit)) (by simp)
        · refine hfound' ⟨txin, hmem, ?_⟩
          rcases hhit with hhit | ⟨data, hdata, hne, hhit⟩
          · exact Or.inl (hfollows.2 _ hhit)
          · exact Or.inr ⟨data, hdata, hne, hfollows.2 _ hhit⟩

/-! ## The filter of a peer -/

theorem sound_full : full.Sound := ⟨fun _ => rfl, by simp [full]⟩

theorem after_spec (h : f.Sound) (call : FilterCall) :
    ∃ f', after env f call = some f' ∧ f'.Sound := by
  cases call with
  | filterLoad vData nHashFuncs nTweak nFlags =>
    simp only [after]
    split
    · refine ⟨_, rfl, fun hnil => ?_, by simp [updateEmptyFull, full]⟩
      simp only [updateEmptyFull] at hnil ⊢
      simp [hnil]
    · exact ⟨f, rfl, h⟩
  | filterAdd vData =>
    obtain ⟨f', hinsert, _, hfollows⟩ := insert_spec h vData
    simp only [after]
    split
    · exact ⟨f', hinsert, hfollows.1⟩
    · exact ⟨f, rfl, h⟩
  | filterClear =>
    simp only [after]
    split
    · exact ⟨full, rfl, sound_full⟩
    · exact ⟨f, rfl, h⟩
  | isRelevantAndUpdate tx =>
    obtain ⟨f', found, hcall, hsound, _⟩ := isRelevantAndUpdate_spec env h tx
    exact ⟨f', by simp [after, hcall], hsound⟩

theorem foldlM_after_spec (h : f.Sound) (calls : List FilterCall) :
    ∃ f', calls.foldlM (after env) f = some f' ∧ f'.Sound := by
  induction calls generalizing f with
  | nil => exact ⟨f, rfl, h⟩
  | cons call calls ih =>
    obtain ⟨f₁, hcall, hsound⟩ := after_spec env h call
    obtain ⟨f₂, hrest, hsound₂⟩ := ih hsound
    exact ⟨f₂, by simp [hcall, hrest], hsound₂⟩

/-- The filter of a peer after any messages and transactions: nothing divided by zero, it
contains what was inserted, and a transaction that it hits is relevant. -/
theorem no_false_negatives (env : BloomEnv) (calls : List FilterCall) :
    ∃ f, peerFilter env calls = some f ∧
      (∀ key ∈ f.inserted, f.contains key = some true) ∧
      (∀ key, (f.contains key).isSome) ∧
      ∀ tx, ∃ f' found, f.isRelevantAndUpdate env tx = some (f', found) ∧
        (f.Hits env tx → found = true) := by
  obtain ⟨f, hf, hsound⟩ := foldlM_after_spec env sound_full calls
  refine ⟨f, hf, fun key hkey => (contains_iff hsound).mpr (hsound.holds key hkey), ?_, ?_⟩
  · intro key
    obtain ⟨b, hb, _⟩ := contains_spec hsound key
    rw [hb]
    rfl
  · intro tx
    obtain ⟨f', found, hcall, _, hfound⟩ := isRelevantAndUpdate_spec env hsound tx
    exact ⟨f', found, hcall, hfound⟩

def sampleBloomEnv : BloomEnv := ⟨⟨fun _ => 0, fun _ => 0⟩, fun _ => false, true⟩

/-- A transaction whose only output is `OP_0`. -/
def pushesNothing : CTransaction where
  nVersion := 1
  vin := [{ prevout := ⟨1, 0⟩, scriptSig := [] }]
  vout := [⟨0, [0]⟩]
  nLockTime := 0

/-- The empty vector is contained and an output pushes it, but the scan passes over it. -/
theorem empty_push_passed_over :
    (peerFilter sampleBloomEnv [.filterLoad [0, 0, 0, 0] 1 0 0, .filterAdd []]).bind
        (fun f => f.contains []) = some true ∧
      (∃ txout ∈ pushesNothing.vout, [] ∈ scriptData txout.scriptPubKey) ∧
      ((peerFilter sampleBloomEnv [.filterLoad [0, 0, 0, 0] 1 0 0, .filterAdd []]).bind
        (fun f => f.isRelevantAndUpdate sampleBloomEnv pushesNothing)).map (·.2) = some false := by
  decide +kernel

end CBloomFilter

end junkcoin
