-- The work for merged mining (`rpc/mining.cpp`). `getauxblock` and
-- `createauxblock` each remember the blocks that they handed out in statics of
-- their own, but the map of hashes and the templates that own the blocks are
-- the same for both, and each of them clears both when it sees a new tip.
import Junkcoin.Miner

namespace junkcoin

/-! ## The cache -/

/-- The statics that the two functions have alike. -/
structure TemplateStatics where
  nTransactionsUpdatedLast : UInt32 := 0
  /-- The empty list is the null pointer. -/
  pindexPrev : BlockIndex := []
  nStart : UInt64 := 0
  nExtraNonce : UInt32 := 0

/-- The globals of `rpc/mining.cpp` and the statics of its functions. A
`CBlock*` is a number that is not used again after its template is gone. -/
structure AuxCache where
  mapNewBlock : Uint256 → Option Nat
  /-- Which block the template at an address owns. -/
  vNewBlockTemplate : Nat → Option CBlock
  /-- The address of the next template. -/
  nextPtr : Nat
  /-- The static of `IncrementExtraNonce`. -/
  hashPrevBlock : Uint256
  getaux : TemplateStatics
  pblock : Option Nat
  createaux : TemplateStatics
  curBlocks : (scriptID : List UInt8) → Option Nat

def AuxCache.init : AuxCache where
  mapNewBlock _ := none
  vNewBlockTemplate _ := none
  nextPtr := 0
  hashPrevBlock := 0
  getaux := {}
  pblock := none
  createaux := {}
  curBlocks _ := none

/-- How a call fails: with an exception that the caller gets, or by ending the
node. -/
inductive RpcFailure
  | thrown (message : String)
  | crash (what : String)
  deriving DecidableEq

/-- The hash functions. -/
structure MiningEnv where
  H : Hashes
  /-- `CScriptID(scriptPubKey)`. -/
  scriptID : CScript → List UInt8

/-- What a call finds outside of the cache. -/
structure MiningInputs where
  /-- `AuxMiningCheck`. -/
  auxMiningCheck : Except RpcFailure Unit
  nTransactionsUpdated : UInt32
  time : UInt64
  /-- `CreateNewBlock(scriptPubKey, false)` at the tip. -/
  createNewBlock : CScript → Except RpcFailure CBlock

/-- What a create call hands out. -/
structure AuxWork where
  hash : Uint256
  chainid : Int
  previousblockhash : Uint256
  coinbasevalue : Int
  bits : UInt32
  height : Int
  target : Nat
  deriving DecidableEq

/-! ## Making a block -/

/-- `COINBASE_FLAGS`, which nothing ever sets. -/
def COINBASE_FLAGS : CScript := []

/-- `SetAuxpowFlag(true)`. -/
def CBlock.setAuxpowFlag (block : CBlock) : CBlock :=
  { block with nVersion := block.nVersion ||| CPureBlockHeader.VERSION_AUXPOW }

/-- `SetAuxpow`, with a pointer that is not null. -/
def CBlock.setAuxpow (pow : CAuxPow) (block : CBlock) : CBlock :=
  { block.setAuxpowFlag with auxpow := some pow }

/-- The script of the coinbase in `IncrementExtraNonce`. -/
def extraNonceScript (flags : CScript) (nHeight : Nat) (nExtraNonce : UInt32) : CScript :=
  pushInt64 nHeight ++ pushData (scriptNumSerialize nExtraNonce.toNat) ++ flags

/-- `IncrementExtraNonce` with any `COINBASE_FLAGS`: the block, the nonce and the static after
it. -/
def incrementExtraNonceWith (flags : CScript) (H : Hashes) (pindexPrev : BlockIndex)
    (nExtraNonce : UInt32) (hashPrevBlock : Uint256) (block : CBlock) :
    Except RpcFailure (CBlock × UInt32 × Uint256) :=
  let nExtraNonce := (if hashPrevBlock ≠ block.hashPrevBlock then 0 else nExtraNonce) + 1
  let scriptSig := extraNonceScript flags pindexPrev.length nExtraNonce
  match block.vtx with
  | [] => .error (.crash "pblock->vtx[0]")
  | coinbase :: rest =>
    match coinbase.vin with
    | [] => .error (.crash "txCoinbase.vin[0]")
    | txin :: vin =>
      if scriptSig.length > 100 then .error (.crash "txCoinbase.vin[0].scriptSig.size() <= 100")
      else
        let coinbase := { coinbase with vin := { txin with scriptSig } :: vin }
        let block := { block with vtx := coinbase :: rest }
        .ok ({ block with hashMerkleRoot := (blockMerkleRoot H block).1 }, nExtraNonce,
          block.hashPrevBlock)

/-- `IncrementExtraNonce`. -/
def incrementExtraNonce (H : Hashes) (pindexPrev : BlockIndex) (nExtraNonce : UInt32)
    (hashPrevBlock : Uint256) (block : CBlock) :
    Except RpcFailure (CBlock × UInt32 × Uint256) :=
  incrementExtraNonceWith COINBASE_FLAGS H pindexPrev nExtraNonce hashPrevBlock block

/-- The new block of a create call: the block, the statics and the static of
`IncrementExtraNonce` after it. -/
def MiningInputs.newTemplate (H : Hashes) (inp : MiningInputs) (tip : BlockIndex)
    (scriptPubKey : CScript) (statics : TemplateStatics) (hashPrevBlock : Uint256) :
    Except RpcFailure (CBlock × TemplateStatics × Uint256) := do
  let newBlock ← inp.createNewBlock scriptPubKey
  let (newBlock, nExtraNonce, hashPrevBlock) ←
    incrementExtraNonce H tip statics.nExtraNonce hashPrevBlock newBlock
  .ok (newBlock.setAuxpowFlag,
    { nTransactionsUpdatedLast := inp.nTransactionsUpdated, pindexPrev := tip,
      nStart := inp.time, nExtraNonce }, hashPrevBlock)

namespace AuxCache

/-- `mapNewBlock.clear()` and `vNewBlockTemplate.clear()`. -/
def clear (c : AuxCache) : AuxCache :=
  { c with mapNewBlock := fun _ => none, vNewBlockTemplate := fun _ => none }

/-- The new block goes into the map, and its template takes it over. -/
def save (H : Hashes) (newBlock : CBlock) (c : AuxCache) : AuxCache :=
  { c with
    mapNewBlock := Function.update c.mapNewBlock (newBlock.getHash H) (some c.nextPtr)
    vNewBlockTemplate := Function.update c.vNewBlockTemplate c.nextPtr (some newBlock)
    nextPtr := c.nextPtr + 1 }

/-- The end of a create call: the answer is read through `pblock`. -/
def work (H : Hashes) (pblock : Option Nat) (pindexPrev : BlockIndex) (c : AuxCache) :
    Except RpcFailure AuxWork :=
  match pblock.bind c.vNewBlockTemplate with
  | none => .error (.crash "pblock")
  | some block =>
    let (target, fNegative, fOverflow) := setCompact block.nBits
    if fNegative || fOverflow || target == 0 then
      .error (.thrown "invalid difficulty bits in block")
    else
      match block.vtx.head?.bind (·.vout.head?) with
      | none => .error (.crash "pblock->vtx[0]->vout[0]")
      | some out => .ok {
          hash := block.getHash H
          chainid := block.getChainId
          previousblockhash := block.hashPrevBlock
          coinbasevalue := out.nValue
          bits := block.nBits
          height := nHeight pindexPrev + 1
          target }

/-- The template is of another tip, or older than a minute and the mempool has
changed since. The difference of the times is one of `uint64_t`. -/
def outdated (inp : MiningInputs) (tip : BlockIndex) (statics : TemplateStatics) : Bool :=
  statics.pindexPrev != tip ||
    (inp.nTransactionsUpdated != statics.nTransactionsUpdatedLast &&
      inp.time - statics.nStart > 60)

/-! ## The calls -/

/-- `AuxMiningCreateBlock`, the body of `createauxblock`. -/
def auxMiningCreateBlock (env : MiningEnv) (inp : MiningInputs) (tip : BlockIndex)
    (scriptPubKey : CScript) (c : AuxCache) : AuxCache × Except RpcFailure AuxWork :=
  match inp.auxMiningCheck with
  | .error e => (c, .error e)
  | .ok () =>
    let scriptID := env.scriptID scriptPubKey
    let pblock := c.curBlocks scriptID
    if pblock.isNone || outdated inp tip c.createaux then
      let c := if c.createaux.pindexPrev ≠ tip then { c.clear with curBlocks := fun _ => none }
        else c
      match inp.newTemplate env.H tip scriptPubKey c.createaux c.hashPrevBlock with
      | .error e => (c, .error e)
      | .ok (newBlock, createaux, hashPrevBlock) =>
        let pblock := some c.nextPtr
        let c := { c.save env.H newBlock with
          createaux, hashPrevBlock, curBlocks := Function.update c.curBlocks scriptID pblock }
        (c, c.work env.H pblock c.createaux.pindexPrev)
    else (c, c.work env.H pblock c.createaux.pindexPrev)

/-- The script that the wallet offers, for both uses of `getauxblock`. -/
def coinbaseScript : Option CScript → Except RpcFailure CScript
  | none => .error (.thrown "Error: Keypool ran out, please call keypoolrefill first")
  | some [] => .error (.thrown "No coinbase script available (mining requires a wallet)")
  | some reserveScript => .ok reserveScript

/-- `getauxblock` without arguments. -/
def getauxblock (env : MiningEnv) (inp : MiningInputs) (tip : BlockIndex)
    (reserveScript : Option CScript) (c : AuxCache) : AuxCache × Except RpcFailure AuxWork :=
  match coinbaseScript reserveScript, inp.auxMiningCheck with
  | .error e, _ => (c, .error e)
  | _, .error e => (c, .error e)
  | .ok script, .ok () =>
    if outdated inp tip c.getaux then
      let c := if c.getaux.pindexPrev ≠ tip then { c.clear with pblock := none } else c
      match inp.newTemplate env.H tip script c.getaux c.hashPrevBlock with
      | .error e => (c, .error e)
      | .ok (newBlock, getaux, hashPrevBlock) =>
        let pblock := some c.nextPtr
        let c := { c.save env.H newBlock with getaux, hashPrevBlock, pblock }
        (c, c.work env.H c.pblock c.getaux.pindexPrev)
    else (c, c.work env.H c.pblock c.getaux.pindexPrev)

/-- `AuxMiningSubmitBlock`, and the end of `getauxblock` with arguments, from
the hash and the proof that was read from the second argument. The answer is
the block that goes to `ProcessNewBlock`. -/
def auxMiningSubmitBlock (H : Hashes) (auxMiningCheck : Except RpcFailure Unit) (hash : Uint256)
    (pow : Except RpcFailure CAuxPow) (c : AuxCache) : AuxCache × Except RpcFailure CBlock :=
  match auxMiningCheck with
  | .error e => (c, .error e)
  | .ok () =>
    match c.mapNewBlock hash with
    | none => (c, .error (.thrown "block hash unknown"))
    | some p =>
      match c.vNewBlockTemplate p with
      | none => (c, .error (.crash "*mit->second"))
      | some block =>
        match pow with
        | .error e => (c, .error e)
        | .ok pow =>
          let block := block.setAuxpow pow
          let c := { c with
            vNewBlockTemplate := Function.update c.vNewBlockTemplate p (some block) }
          if block.getHash H ≠ hash then (c, .error (.crash "block.GetHash() == hash"))
          else (c, .ok block)

end AuxCache

/-! ## Runs -/

/-- The cache, the active tip, and the hashes that were handed out since the
tip last changed. -/
structure AuxNode where
  cache : AuxCache
  tip : BlockIndex
  handedOut : List Uint256

/-- What can happen. A block that is submitted can become the tip, which is an
event of its own. -/
inductive AuxEvent
  | getauxblock (inp : MiningInputs) (reserveScript : Option CScript)
  | createauxblock (inp : MiningInputs) (scriptPubKey : CScript)
  | submit (auxMiningCheck : Except RpcFailure Unit) (hash : Uint256)
      (pow : Except RpcFailure CAuxPow)
  | tipChanged (tip : BlockIndex)

namespace AuxNode

/-- The hash of an answer was handed out. -/
def handOut (answer : Except RpcFailure AuxWork) (handedOut : List Uint256) : List Uint256 :=
  match answer with
  | .error _ => handedOut
  | .ok work => work.hash :: handedOut

def step (env : MiningEnv) (n : AuxNode) : AuxEvent → AuxNode
  | .getauxblock inp reserveScript =>
    let (cache, answer) := n.cache.getauxblock env inp n.tip reserveScript
    { n with cache, handedOut := handOut answer n.handedOut }
  | .createauxblock inp scriptPubKey =>
    let (cache, answer) := n.cache.auxMiningCreateBlock env inp n.tip scriptPubKey
    { n with cache, handedOut := handOut answer n.handedOut }
  | .submit auxMiningCheck hash pow =>
    { n with cache := (n.cache.auxMiningSubmitBlock env.H auxMiningCheck hash pow).1 }
  | .tipChanged tip => { n with tip, handedOut := [] }

end AuxNode

/-- Nothing is lost: what the two functions keep for the current tip is owned
by a template, and a hash that was handed out since the tip last changed leads
to its block when it is submitted. -/
structure WorkKept (H : Hashes) (n : AuxNode) : Prop where
  getaux : n.cache.getaux.pindexPrev = n.tip → ∀ p, n.cache.pblock = some p →
    (n.cache.vNewBlockTemplate p).isSome
  createaux : n.cache.createaux.pindexPrev = n.tip → ∀ id p, n.cache.curBlocks id = some p →
    (n.cache.vNewBlockTemplate p).isSome
  submitted : ∀ hash ∈ n.handedOut, ∀ pow, ∃ block,
    (n.cache.auxMiningSubmitBlock H (.ok ()) hash (.ok pow)).2 = .ok block ∧
      block.getHash H = hash

/-- The condition on an event. A create call that sees a new tip finds no
work that the other function keeps for this tip, and the tip never changes to
the block for which one of the functions keeps work. -/
def AuxEvent.Proper (n : AuxNode) : AuxEvent → Prop
  | .getauxblock _ _ => n.cache.getaux.pindexPrev ≠ n.tip →
      n.cache.createaux.pindexPrev = n.tip → ∀ id, n.cache.curBlocks id = none
  | .createauxblock _ _ => n.cache.createaux.pindexPrev ≠ n.tip →
      n.cache.getaux.pindexPrev = n.tip → n.cache.pblock = none
  | .submit _ _ _ => True
  | .tipChanged tip =>
    (n.cache.getaux.pindexPrev = tip → n.cache.pblock = none) ∧
    (n.cache.createaux.pindexPrev = tip → ∀ id, n.cache.curBlocks id = none)

/-- The nodes that events with the condition lead to, from a node that just
started. -/
inductive AuxRun (env : MiningEnv) : AuxNode → Prop
  | start (tip : BlockIndex) : AuxRun env ⟨.init, tip, []⟩
  | step {n : AuxNode} (e : AuxEvent) : AuxRun env n → e.Proper n → AuxRun env (n.step env e)

/-! ## The map and the templates -/

section Laws

variable {env : MiningEnv} {H : Hashes} {c : AuxCache} {block : CBlock}

theorem setAuxpowFlag_twice (block : CBlock) :
    block.setAuxpowFlag.setAuxpowFlag = block.setAuxpowFlag := by
  unfold CBlock.setAuxpowFlag
  simp only [BitVec.or_assoc, BitVec.or_self]

/-- The proof is no part of the hash. -/
theorem getHash_setAuxpow (pow : CAuxPow) (hflag : block.setAuxpowFlag = block) :
    (block.setAuxpow pow).getHash H = block.getHash H := by
  unfold CBlock.setAuxpow
  rw [hflag]

namespace AuxCache

variable {p : Nat} {inp : MiningInputs} {tip : BlockIndex} {statics : TemplateStatics}

/-- The map and the templates agree. -/
structure Sound (H : Hashes) (c : AuxCache) : Prop where
  mapped : ∀ hash p, c.mapNewBlock hash = some p →
    ∃ block, c.vNewBlockTemplate p = some block ∧ block.getHash H = hash
  listed : ∀ p block, c.vNewBlockTemplate p = some block →
    (c.mapNewBlock (block.getHash H)).isSome
  flagged : ∀ p block, c.vNewBlockTemplate p = some block → block.setAuxpowFlag = block
  fresh : ∀ p, c.nextPtr ≤ p → c.vNewBlockTemplate p = none

theorem sound_clear (c : AuxCache) : c.clear.Sound H where
  mapped _ _ h := nomatch h
  listed _ _ h := nomatch h
  flagged _ _ h := nomatch h
  fresh _ _ := rfl

theorem Sound.lt_nextPtr (h : c.Sound H) (hp : c.vNewBlockTemplate p = some block) :
    p < c.nextPtr := by
  by_contra hge
  rw [h.fresh p (by omega)] at hp
  cases hp

theorem Sound.save_template (h : c.Sound H) (hp : c.vNewBlockTemplate p = some block)
    (newBlock : CBlock) : (c.save H newBlock).vNewBlockTemplate p = some block := by
  have hne : p ≠ c.nextPtr := Nat.ne_of_lt (h.lt_nextPtr hp)
  exact (Function.update_of_ne hne ..).trans hp

theorem isSome_save_map {hash : Uint256} (hm : (c.mapNewBlock hash).isSome) (newBlock : CBlock) :
    ((c.save H newBlock).mapNewBlock hash).isSome := by
  unfold save
  simp only [Function.update_apply]
  split
  · rfl
  · exact hm

theorem Sound.save (h : c.Sound H) (hflag : block.setAuxpowFlag = block) :
    (c.save H block).Sound H where
  mapped := by
    intro hash p hp
    by_cases hhash : hash = block.getHash H
    · subst hhash
      simp only [AuxCache.save, Function.update_self, Option.some.injEq] at hp
      subst hp
      exact ⟨block, Function.update_self .., rfl⟩
    · simp only [AuxCache.save, Function.update_of_ne hhash] at hp
      obtain ⟨old, hold, heq⟩ := h.mapped hash p hp
      exact ⟨old, h.save_template hold block, heq⟩
  listed := by
    intro p b hp
    by_cases hself : p = c.nextPtr
    · subst hself
      simp only [AuxCache.save, Function.update_self, Option.some.injEq] at hp ⊢
      subst hp
      rw [Function.update_self]
      rfl
    · simp only [AuxCache.save, Function.update_of_ne hself] at hp
      exact isSome_save_map (h.listed p b hp) block
  flagged := by
    intro p b hp
    by_cases hself : p = c.nextPtr
    · subst hself
      simp only [AuxCache.save, Function.update_self, Option.some.injEq] at hp
      exact hp ▸ hflag
    · simp only [AuxCache.save, Function.update_of_ne hself] at hp
      exact h.flagged p b hp
  fresh := by
    intro p hp
    simp only [AuxCache.save] at hp ⊢
    rw [Function.update_of_ne (by omega)]
    exact h.fresh p (by omega)

/-- An answer has a hash of the map, and was read through a pointer. -/
theorem Sound.work_ok (h : c.Sound H) {pblock : Option Nat} {pindexPrev : BlockIndex}
    {work : AuxWork} (hw : c.work H pblock pindexPrev = .ok work) :
    (c.mapNewBlock work.hash).isSome ∧ pblock.isSome := by
  unfold AuxCache.work at hw
  split at hw
  · cases hw
  · rename_i block hblock
    obtain ⟨p, rfl, hp⟩ := Option.bind_eq_some_iff.mp hblock
    dsimp only at hw
    split at hw
    · cases hw
    · split at hw
      · cases hw
      · cases hw
        exact ⟨h.listed p block hp, rfl⟩

/-- A hash of the map leads to its block. -/
theorem Sound.submit_ok (h : c.Sound H) {hash : Uint256} (hm : (c.mapNewBlock hash).isSome)
    (pow : CAuxPow) :
    ∃ block, (c.auxMiningSubmitBlock H (.ok ()) hash (.ok pow)).2 = .ok block ∧
      block.getHash H = hash := by
  obtain ⟨p, hp⟩ := Option.isSome_iff_exists.mp hm
  obtain ⟨block, hblock, hhash⟩ := h.mapped hash p hp
  have hsame : (block.setAuxpow pow).getHash H = hash :=
    (getHash_setAuxpow pow (h.flagged p block hblock)).trans hhash
  refine ⟨block.setAuxpow pow, ?_, hsame⟩
  unfold auxMiningSubmitBlock
  simp only [hp, hblock, hsame, ne_eq, not_true, if_false]

/-- A submission changes nothing, or gives one block its proof. -/
theorem Sound.submit (h : c.Sound H) (check : Except RpcFailure Unit) (hash : Uint256)
    (pow : Except RpcFailure CAuxPow) :
    (c.auxMiningSubmitBlock H check hash pow).1 = c ∨
      ∃ p block proof, c.vNewBlockTemplate p = some block ∧
        (c.auxMiningSubmitBlock H check hash pow).1 = { c with
          vNewBlockTemplate :=
            Function.update c.vNewBlockTemplate p (some (block.setAuxpow proof)) } := by
  unfold auxMiningSubmitBlock
  split
  · exact Or.inl rfl
  · split
    · exact Or.inl rfl
    · rename_i p hp
      obtain ⟨block, hblock, _⟩ := h.mapped hash p hp
      simp only [hblock]
      split
      · exact Or.inl rfl
      · rename_i proof
        refine Or.inr ⟨p, block, proof, hblock, ?_⟩
        split <;> rfl

theorem Sound.proved (h : c.Sound H) (hp : c.vNewBlockTemplate p = some block) (proof : CAuxPow) :
    Sound H { c with
      vNewBlockTemplate :=
        Function.update c.vNewBlockTemplate p (some (block.setAuxpow proof)) } := by
  have hflag := h.flagged p block hp
  have hhash : (block.setAuxpow proof).getHash H = block.getHash H := getHash_setAuxpow proof hflag
  constructor
  · intro hash q hq
    obtain ⟨old, hold, heq⟩ := h.mapped hash q hq
    by_cases hself : q = p
    · subst hself
      rw [hp] at hold
      cases hold
      exact ⟨_, Function.update_self .., hhash.trans heq⟩
    · exact ⟨old, (Function.update_of_ne hself ..).trans hold, heq⟩
  · intro q b hq
    by_cases hself : q = p
    · subst hself
      simp only [Function.update_self, Option.some.injEq] at hq
      subst hq
      rw [hhash]
      exact h.listed q block hp
    · simp only [Function.update_of_ne hself] at hq
      exact h.listed q b hq
  · intro q b hq
    by_cases hself : q = p
    · subst hself
      simp only [Function.update_self, Option.some.injEq] at hq
      subst hq
      unfold CBlock.setAuxpow
      rw [hflag]
      exact congrArg (fun b : CBlock => { b with auxpow := some proof }) hflag
    · simp only [Function.update_of_ne hself] at hq
      exact h.flagged q b hq
  · intro q hq
    have hlt := h.lt_nextPtr hp
    simp only at hq ⊢
    rw [Function.update_of_ne (by omega)]
    exact h.fresh q hq

theorem newTemplate_flagged {scriptPubKey : CScript} {statics' : TemplateStatics}
    {hashPrevBlock hashPrevBlock' : Uint256}
    (h : inp.newTemplate H tip scriptPubKey statics hashPrevBlock =
      .ok (block, statics', hashPrevBlock')) :
    block.setAuxpowFlag = block ∧ statics'.pindexPrev = tip := by
  obtain ⟨made, _, h⟩ := bind_ok h
  obtain ⟨⟨made, nExtraNonce, hashPrev⟩, _, h⟩ := bind_ok h
  cases h
  exact ⟨setAuxpowFlag_twice _, rfl⟩

theorem tip_of_not_outdated (h : ¬ outdated inp tip statics = true) : statics.pindexPrev = tip := by
  unfold outdated at h
  simp only [Bool.or_eq_true, bne_iff_ne, ne_eq, not_or, not_not] at h
  exact h.1

end AuxCache

/-! ## The invariant -/

/-- The map and the templates agree, and nothing is lost. While a hash is out,
one of the functions keeps a block for this tip. -/
structure AuxNode.Inv (H : Hashes) (n : AuxNode) : Prop where
  sound : n.cache.Sound H
  getaux : n.cache.getaux.pindexPrev = n.tip → ∀ p, n.cache.pblock = some p →
    (n.cache.vNewBlockTemplate p).isSome
  createaux : n.cache.createaux.pindexPrev = n.tip → ∀ id p, n.cache.curBlocks id = some p →
    (n.cache.vNewBlockTemplate p).isSome
  found : ∀ hash ∈ n.handedOut, (n.cache.mapNewBlock hash).isSome
  served : n.handedOut ≠ [] →
    (n.cache.getaux.pindexPrev = n.tip ∧ n.cache.pblock.isSome) ∨
    (n.cache.createaux.pindexPrev = n.tip ∧ ∃ id, (n.cache.curBlocks id).isSome)

namespace AuxNode.Inv

variable {n : AuxNode} {inp : MiningInputs} {tip : BlockIndex} {newBlock : CBlock}
  {statics : TemplateStatics}

/-- At a tip for which no function keeps work, nothing has been handed out. -/
theorem of_none_kept (hsound : c.Sound H) (hget : c.getaux.pindexPrev = tip → c.pblock = none)
    (hcreate : c.createaux.pindexPrev = tip → ∀ id, c.curBlocks id = none) :
    AuxNode.Inv H ⟨c, tip, []⟩ where
  sound := hsound
  getaux hsame _ hp := nomatch (hget hsame).symm.trans hp
  createaux hsame id _ hp := nomatch (hcreate hsame id).symm.trans hp
  found _ hmem := nomatch hmem
  served hne := absurd rfl hne

theorem workKept (h : n.Inv H) : WorkKept H n where
  getaux := h.getaux
  createaux := h.createaux
  submitted := fun hash hmem pow => h.sound.submit_ok (h.found hash hmem) pow

theorem isSome_save (h : n.Inv H) {p : Nat} (hp : (n.cache.vNewBlockTemplate p).isSome)
    (newBlock : CBlock) : ((n.cache.save H newBlock).vNewBlockTemplate p).isSome := by
  obtain ⟨block, hblock⟩ := Option.isSome_iff_exists.mp hp
  rw [h.sound.save_template hblock newBlock]
  rfl

/-- An answer that was read from the cache is one more hash to keep. -/
theorem handOut (h : n.Inv H) {pblock : Option Nat} {pindexPrev : BlockIndex}
    (hkept : pblock.isSome →
      (n.cache.getaux.pindexPrev = n.tip ∧ n.cache.pblock.isSome) ∨
      (n.cache.createaux.pindexPrev = n.tip ∧ ∃ id, (n.cache.curBlocks id).isSome)) :
    AuxNode.Inv H { n with
      handedOut := AuxNode.handOut (n.cache.work H pblock pindexPrev) n.handedOut } := by
  rcases hw : n.cache.work H pblock pindexPrev with e | work
  · exact h
  · obtain ⟨hmapped, hsome⟩ := h.sound.work_ok hw
    refine { h with found := ?_, served := fun _ => hkept hsome }
    intro hash hmem
    rcases List.mem_cons.mp hmem with rfl | hmem
    · exact hmapped
    · exact h.found hash hmem

/-! ### `getauxblock` -/

/-- When `getauxblock` sees a new tip, nothing has been handed out for it. -/
theorem clear_get (h : n.Inv H) (htip : n.cache.getaux.pindexPrev ≠ n.tip →
      n.cache.createaux.pindexPrev = n.tip → ∀ id, n.cache.curBlocks id = none) :
    AuxNode.Inv H { n with
      cache := if n.cache.getaux.pindexPrev ≠ n.tip then { n.cache.clear with pblock := none }
        else n.cache } := by
  split
  · rename_i hold
    have hnone : n.handedOut = [] := by
      by_contra hout
      rcases h.served hout with ⟨hsame, _⟩ | ⟨hsame, id, hid⟩
      · exact hold hsame
      · rw [htip hold hsame id] at hid
        cases hid
    rw [hnone]
    apply of_none_kept
    · exact { AuxCache.sound_clear n.cache with }
    · exact fun hsame => absurd hsame hold
    · exact htip hold
  · exact h

theorem save_get (h : n.Inv H) (hflag : newBlock.setAuxpowFlag = newBlock)
    (htip : statics.pindexPrev = n.tip) (hashPrevBlock : Uint256) :
    AuxNode.Inv H { n with
      cache := { n.cache.save H newBlock with
        getaux := statics, hashPrevBlock, pblock := some n.cache.nextPtr } } where
  sound := { h.sound.save hflag with }
  getaux := by
    intro _ p hp
    cases hp
    change (Function.update n.cache.vNewBlockTemplate n.cache.nextPtr (some newBlock) _).isSome
    rw [Function.update_self]
    rfl
  createaux := fun hsame id p hp => h.isSome_save (h.createaux hsame id p hp) newBlock
  found := fun hash hmem => AuxCache.isSome_save_map (h.found hash hmem) newBlock
  served := fun _ => Or.inl ⟨htip, rfl⟩

theorem getauxblock (h : n.Inv env.H) (reserveScript : Option CScript)
    (hp : (AuxEvent.getauxblock inp reserveScript).Proper n) :
    (n.step env (.getauxblock inp reserveScript)).Inv env.H := by
  change AuxNode.Inv env.H { n with
    cache := (n.cache.getauxblock env inp n.tip reserveScript).1
    handedOut := AuxNode.handOut (n.cache.getauxblock env inp n.tip reserveScript).2 n.handedOut }
  unfold AuxCache.getauxblock
  split
  · exact h
  · exact h
  · split
    · have h₁ := h.clear_get hp
      revert h₁
      generalize (if n.cache.getaux.pindexPrev ≠ n.tip then
        { n.cache.clear with pblock := none } else n.cache) = c₁
      intro h₁
      dsimp only
      split
      · exact h₁
      · rename_i newBlock statics hashPrevBlock hnew
        obtain ⟨hflag, htip⟩ := AuxCache.newTemplate_flagged hnew
        exact (h₁.save_get hflag htip hashPrevBlock).handOut fun _ => Or.inl ⟨htip, rfl⟩
    · rename_i hfresh
      exact h.handOut fun hsome => Or.inl ⟨AuxCache.tip_of_not_outdated hfresh, hsome⟩

/-! ### `createauxblock` -/

theorem clear_create (h : n.Inv H) (htip : n.cache.createaux.pindexPrev ≠ n.tip →
      n.cache.getaux.pindexPrev = n.tip → n.cache.pblock = none) :
    AuxNode.Inv H { n with
      cache := if n.cache.createaux.pindexPrev ≠ n.tip then
        { n.cache.clear with curBlocks := fun _ => none } else n.cache } := by
  split
  · rename_i hold
    have hnone : n.handedOut = [] := by
      by_contra hout
      rcases h.served hout with ⟨hsame, hsome⟩ | ⟨hsame, _⟩
      · rw [htip hold hsame] at hsome
        cases hsome
      · exact hold hsame
    rw [hnone]
    apply of_none_kept
    · exact { AuxCache.sound_clear n.cache with }
    · exact htip hold
    · exact fun hsame => absurd hsame hold
  · exact h

/-- The blocks for other scripts are of the same tip. -/
theorem save_create (h : n.Inv H) (hflag : newBlock.setAuxpowFlag = newBlock)
    (htip : statics.pindexPrev = n.tip) (hashPrevBlock : Uint256) (scriptID : List UInt8)
    (hold : n.cache.createaux.pindexPrev = n.tip ∨ ∀ id, n.cache.curBlocks id = none) :
    AuxNode.Inv H { n with
      cache := { n.cache.save H newBlock with
        createaux := statics, hashPrevBlock
        curBlocks := Function.update n.cache.curBlocks scriptID (some n.cache.nextPtr) } } where
  sound := { h.sound.save hflag with }
  getaux := fun hsame p hp => h.isSome_save (h.getaux hsame p hp) newBlock
  createaux := by
    intro _ id p hp
    by_cases hid : id = scriptID
    · subst hid
      simp only [Function.update_self, Option.some.injEq] at hp
      subst hp
      change (Function.update n.cache.vNewBlockTemplate n.cache.nextPtr (some newBlock) _).isSome
      rw [Function.update_self]
      rfl
    · simp only [Function.update_of_ne hid] at hp
      rcases hold with hsame | hnone
      · exact h.isSome_save (h.createaux hsame id p hp) newBlock
      · rw [hnone id] at hp
        cases hp
  found := fun hash hmem => AuxCache.isSome_save_map (h.found hash hmem) newBlock
  served := by
    intro _
    refine Or.inr ⟨htip, scriptID, ?_⟩
    simp only [Function.update_self, Option.isSome_some]

theorem createauxblock (h : n.Inv env.H) (scriptPubKey : CScript)
    (hp : (AuxEvent.createauxblock inp scriptPubKey).Proper n) :
    (n.step env (.createauxblock inp scriptPubKey)).Inv env.H := by
  change AuxNode.Inv env.H { n with
    cache := (n.cache.auxMiningCreateBlock env inp n.tip scriptPubKey).1
    handedOut := AuxNode.handOut (n.cache.auxMiningCreateBlock env inp n.tip scriptPubKey).2
      n.handedOut }
  unfold AuxCache.auxMiningCreateBlock
  split
  · exact h
  · dsimp only
    split
    · have h₁ := h.clear_create hp
      have hold : ∀ c₁, (if n.cache.createaux.pindexPrev ≠ n.tip then
            { n.cache.clear with curBlocks := fun _ => none } else n.cache) = c₁ →
          c₁.createaux.pindexPrev = n.tip ∨ ∀ id, c₁.curBlocks id = none := by
        rintro _ rfl
        split
        · exact Or.inr fun _ => rfl
        · exact Or.inl (not_not.mp ‹_›)
      revert h₁ hold
      generalize (if n.cache.createaux.pindexPrev ≠ n.tip then
        { n.cache.clear with curBlocks := fun _ => none } else n.cache) = c₁
      intro h₁ hold
      split
      · exact h₁
      · rename_i newBlock statics hashPrevBlock hnew
        obtain ⟨hflag, htip⟩ := AuxCache.newTemplate_flagged hnew
        refine (h₁.save_create hflag htip hashPrevBlock (env.scriptID scriptPubKey)
          (hold c₁ rfl)).handOut fun _ => Or.inr ⟨htip, env.scriptID scriptPubKey, ?_⟩
        simp only [Function.update_self, Option.isSome_some]
    · rename_i hfresh
      rw [Bool.or_eq_true, not_or] at hfresh
      refine h.handOut fun hsome => Or.inr ⟨AuxCache.tip_of_not_outdated hfresh.2, _, hsome⟩

/-! ### Submissions and tips -/

theorem submit (h : n.Inv env.H) (check : Except RpcFailure Unit) (hash : Uint256)
    (pow : Except RpcFailure CAuxPow) : (n.step env (.submit check hash pow)).Inv env.H := by
  change AuxNode.Inv env.H { n with
    cache := (n.cache.auxMiningSubmitBlock env.H check hash pow).1 }
  rcases h.sound.submit check hash pow with hsame | ⟨p, block, proof, hp, heq⟩
  · rw [hsame]
    exact h
  · rw [heq]
    have hkept : ∀ q, (n.cache.vNewBlockTemplate q).isSome →
        (Function.update n.cache.vNewBlockTemplate p (some (block.setAuxpow proof)) q).isSome := by
      intro q hq
      rw [Function.update_apply]
      split
      · rfl
      · exact hq
    exact { h with
      sound := h.sound.proved hp proof
      getaux := fun hsame q hq => hkept q (h.getaux hsame q hq)
      createaux := fun hsame id q hq => hkept q (h.createaux hsame id q hq) }

theorem tipChanged (h : n.Inv env.H) (hp : (AuxEvent.tipChanged tip).Proper n) :
    (n.step env (.tipChanged tip)).Inv env.H :=
  of_none_kept h.sound hp.1 hp.2

theorem step (h : n.Inv env.H) (e : AuxEvent) (hp : e.Proper n) : (n.step env e).Inv env.H := by
  cases e with
  | getauxblock inp reserveScript => exact h.getauxblock reserveScript hp
  | createauxblock inp scriptPubKey => exact h.createauxblock scriptPubKey hp
  | submit check hash pow => exact h.submit check hash pow
  | tipChanged tip => exact h.tipChanged hp

end AuxNode.Inv

end Laws

/-- In every run whose events meet the condition no work is lost. -/
theorem aux_work_is_kept (env : MiningEnv) (n : AuxNode) (h : AuxRun env n) :
    WorkKept env.H n := by
  refine AuxNode.Inv.workKept ?_
  induction h with
  | start tip =>
    exact .of_none_kept { AuxCache.sound_clear .init with } (fun _ => rfl) (fun _ _ => rfl)
  | step e _ hp ih => exact ih.step e hp

/-! ## Both functions at one tip -/

def sampleMiningEnv : MiningEnv := ⟨sampleEnv.H, id⟩

/-- A call that finds a template of the given version. -/
def sampleInputs (nVersion : BitVec 32) : MiningInputs where
  auxMiningCheck := .ok ()
  nTransactionsUpdated := 0
  time := 0
  createNewBlock _ := .ok { genesisHeader 0 0 with
    nVersion, vtx := [sampleTx [COutPoint.null] [7]] }

def startedNode : AuxNode := ⟨.init, [genesisHeader 0 0], []⟩

/-- A node that has handed out its first block. -/
def servingNode : AuxNode :=
  startedNode.step sampleMiningEnv (.getauxblock (sampleInputs 1) (some [0x51]))

theorem servingNode_run : AuxRun sampleMiningEnv servingNode :=
  .step _ (.start _) fun _ h => absurd h (by decide)

/-- `getauxblock` at one tip, then `createauxblock` at the next. -/
theorem work_is_kept_over_two_tips :
    let n := (servingNode.step sampleMiningEnv
      (.tipChanged [genesisHeader 1 1, genesisHeader 0 0])).step
      sampleMiningEnv (.createauxblock (sampleInputs 2) [0x51])
    WorkKept sampleMiningEnv.H n ∧ n.handedOut ≠ [] := by
  refine ⟨aux_work_is_kept sampleMiningEnv _ (.step _ (.step _ servingNode_run ?_) ?_),
    by decide +kernel⟩
  · refine ⟨fun h => absurd h ?_, fun h => absurd h ?_⟩ <;> decide +kernel
  · intro _ h
    exact absurd h (by decide +kernel)

/-- The same node after a call of the other function. -/
def droppedNode : AuxNode :=
  servingNode.step sampleMiningEnv (.createauxblock (sampleInputs 2) [0x51])

/-- `getauxblock` and then `createauxblock` at the same tip: the block that
`getauxblock` keeps for this tip is gone, its hash is unknown when it is
submitted, and the next `getauxblock` reads the block that is gone. -/
theorem second_creator_drops_work :
    (droppedNode.cache.getaux.pindexPrev = droppedNode.tip ∧
      droppedNode.cache.pblock = some 0 ∧ droppedNode.cache.vNewBlockTemplate 0 = none) ∧
    (∃ hash ∈ droppedNode.handedOut, ∀ pow,
      (droppedNode.cache.auxMiningSubmitBlock sampleMiningEnv.H (.ok ()) hash pow).2 =
        .error (.thrown "block hash unknown")) ∧
    (droppedNode.cache.getauxblock sampleMiningEnv (sampleInputs 1) droppedNode.tip
      (some [0x51])).2 = .error (.crash "pblock") := by
  have hgone : droppedNode.cache.mapNewBlock (servingNode.handedOut.headD 0) = none := by
    decide +kernel
  refine ⟨by decide +kernel, ⟨servingNode.handedOut.headD 0, by decide +kernel, fun pow => ?_⟩,
    by decide +kernel⟩
  unfold AuxCache.auxMiningSubmitBlock
  rw [hgone]

end junkcoin
