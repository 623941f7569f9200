-- The height in front of the script of a coinbase (BIP34). No encoding of a
-- height starts with the one of another, so that coinbases of different heights
-- differ, and the miner writes what the validator looks for.
import Junkcoin.AuxMining

namespace junkcoin

variable {n : Nat} {block : CBlock} {pindexPrev : BlockIndex} {flags : CScript}

/-! ## Script numbers -/

theorem length_scriptNumMagnitude_le {fuel k : Nat} (h : n < 256 ^ k) :
    (scriptNumMagnitude fuel n).length ≤ k := by
  induction fuel generalizing n k with
  | zero => simp [scriptNumMagnitude]
  | succ fuel ih =>
    cases n with
    | zero => simp [scriptNumMagnitude]
    | succ n =>
      cases k with
      | zero => simp at h
      | succ k =>
        have hdiv : (n + 1) / 256 < 256 ^ k := by
          omega
        rw [scriptNumMagnitude, List.length_cons]
        exact Nat.succ_le_succ (ih hdiv)
        exact Nat.succ_ne_zero n

/-- A number that is not negative is written as its bytes, with a zero behind them where the
last one has the bit of the sign. -/
theorem scriptNumSerialize_nat (n : Nat) :
    scriptNumSerialize n = scriptNumMagnitude 8 n ∨
      scriptNumSerialize n = scriptNumMagnitude 8 n ++ [0] := by
  have hneg : ¬ ((n : Int) < 0) := by omega
  unfold scriptNumSerialize
  simp only [Int.natAbs_natCast, if_neg hneg]
  split
  · rename_i h
    exact Or.inl (List.getLast?_eq_none_iff.mp h).symm
  · split
    · exact Or.inr rfl
    · exact Or.inl rfl

theorem ofLe_scriptNumSerialize (h : n < 256 ^ 8) : Bytes.ofLe (scriptNumSerialize n) = n := by
  rcases scriptNumSerialize_nat n with hs | hs
  · rw [hs, ofLe_scriptNumMagnitude h]
  · rw [hs, Bytes.ofLe_append, ofLe_scriptNumMagnitude h]
    rfl

theorem length_scriptNumSerialize_le (h : n < 256 ^ 4) : (scriptNumSerialize n).length ≤ 5 := by
  have hlen : (scriptNumMagnitude 8 n).length ≤ 4 := length_scriptNumMagnitude_le h
  rcases scriptNumSerialize_nat n with hs | hs
  · rw [hs]
    omega
  · rw [hs, List.length_append, List.length_singleton]
    omega

/-! ## The encodings of heights -/

/-- The three forms, told apart by the first byte. -/
theorem pushInt64_cases {h : Nat} (hh : h < 2 ^ 31) :
    (h ≤ 16 ∧ pushInt64 h = [UInt8.ofNat (if h = 0 then 0 else h + 0x50)]) ∨
      (16 < h ∧ (scriptNumSerialize h).length ≤ 5 ∧ scriptNumSerialize h ≠ [] ∧
        pushInt64 h = UInt8.ofNat (scriptNumSerialize h).length :: scriptNumSerialize h) := by
  unfold pushInt64
  by_cases hsmall : h ≤ 16
  · refine Or.inl ⟨hsmall, ?_⟩
    by_cases hzero : h = 0
    · simp [hzero]
    · rw [if_pos (by omega), if_neg hzero]
      rfl
  · have hlen := length_scriptNumSerialize_le (n := h) (by omega)
    have hne : scriptNumSerialize h ≠ [] := by
      intro hnil
      have := ofLe_scriptNumSerialize (n := h) (by omega)
      rw [hnil, Bytes.ofLe] at this
      omega
    refine Or.inr ⟨by omega, hlen, hne, ?_⟩
    rw [if_neg (by omega), if_neg (by omega), pushData, if_pos (by omega)]

theorem length_pushInt64_le {h : Nat} (hh : h < 2 ^ 31) : (pushInt64 h).length ≤ 6 := by
  rcases pushInt64_cases hh with ⟨_, hp⟩ | ⟨_, hlen, _, hp⟩
  · rw [hp]
    simp
  · rw [hp, List.length_cons]
    omega

/-- No height is written as the start of another one. -/
theorem pushInt64_prefix_free {h₁ h₂ : Nat} {s : CScript} (hh₁ : h₁ < 2 ^ 31) (hh₂ : h₂ < 2 ^ 31)
    (h1 : pushInt64 h₁ <+: s) (h2 : pushInt64 h₂ <+: s) : h₁ = h₂ := by
  have hbyte {m n : Nat} (hm : m < 256) (hn : n < 256) (h : UInt8.ofNat m = UInt8.ofNat n) :
      m = n := by
    have := congrArg UInt8.toNat h
    rw [UInt8.toNat_ofNat', UInt8.toNat_ofNat'] at this
    omega
  have hpos {b : List UInt8} (hb : b ≠ []) : 0 < b.length := List.length_pos_iff.mpr hb
  rcases pushInt64_cases hh₁ with ⟨hs₁, hp₁⟩ | ⟨hb₁, hlen₁, hne₁, hp₁⟩ <;>
    rcases pushInt64_cases hh₂ with ⟨hs₂, hp₂⟩ | ⟨hb₂, hlen₂, hne₂, hp₂⟩ <;>
    rw [hp₁] at h1 <;> rw [hp₂] at h2 <;> obtain ⟨r₁, rfl⟩ := h1 <;> obtain ⟨r₂, heq⟩ := h2 <;>
    simp only [List.cons_append, List.nil_append, List.cons.injEq] at heq
  · have := hbyte (by split <;> omega) (by split <;> omega) heq.1
    split at this <;> split at this <;> omega
  · have := hbyte (by omega) (by split <;> omega) heq.1
    have hnonempty := hpos hne₂
    split at this <;> omega
  · have := hbyte (by split <;> omega) (by omega) heq.1
    have hnonempty := hpos hne₁
    split at this <;> omega
  · -- the same number of bytes, and so the same bytes
    have hlen := hbyte (by omega) (by omega) heq.1
    have hser := (List.append_inj heq.2 hlen).1
    rw [← ofLe_scriptNumSerialize (n := h₁) (by omega),
      ← ofLe_scriptNumSerialize (n := h₂) (by omega), hser]

/-! ## The coinbases of the miner -/

/-- The script of the first input of the first transaction. -/
def coinbaseScript (block : CBlock) : Option CScript :=
  (block.vtx.head?.bind (·.vin.head?)).map (·.scriptSig)

/-- The check of `ContextualCheckBlock`, where BIP34 is enforced. -/
theorem checkCoinbaseHeight_iff {consensusParams : Params}
    (h : fEnforceBIP34 pindexPrev consensusParams = true) :
    checkCoinbaseHeight block pindexPrev consensusParams = .ok () ↔
      ∃ script, coinbaseScript block = some script ∧ pushInt64 pindexPrev.length <+: script := by
  unfold checkCoinbaseHeight coinbaseInput coinbaseScript
  rw [if_pos h]
  cases block.vtx with
  | nil => simp [bind, Except.bind]
  | cons coinbase rest =>
    cases hvin : coinbase.vin with
    | nil => simp [bind, Except.bind, hvin]
    | cons txin vin =>
      simp only [bind, Except.bind, List.head?_cons, Option.bind_some, hvin, Option.map_some,
        Option.some.injEq, exists_eq_left', ← List.isPrefixOf_iff_prefix]
      cases hp : (pushInt64 pindexPrev.length).isPrefixOf txin.scriptSig <;>
        simp [rejectIf, doS]

theorem coinbaseScript_generateCoinbaseCommitment (H : Hashes) (block : CBlock)
    (pindexPrev : BlockIndex) (consensusParams : Params) :
    coinbaseScript (generateCoinbaseCommitment H block pindexPrev consensusParams) =
      coinbaseScript block := by
  have hadd : coinbaseScript (addCommitment H block consensusParams) = coinbaseScript block := by
    unfold addCommitment coinbaseScript
    cases hv : block.vtx with
    | nil => simp [hv]
    | cons coinbase rest =>
      dsimp only
      split <;> simp [hv]
  rw [← hadd, generateCoinbaseCommitment]
  generalize addCommitment H block consensusParams = block
  unfold updateUncommittedBlockStructures coinbaseScript
  cases hv : block.vtx with
  | nil => simp [hv]
  | cons coinbase rest =>
    dsimp only
    split
    · cases hvin : coinbase.vin <;> simp [hvin]
    · simp [hv]

/-- What `CreateNewBlock` writes. -/
theorem coinbaseScript_createNewBlock {node : Node} {nBaseVersion nAdjustedTime : Int}
    {s : NodeState} {scriptPubKeyIn : CScript} {selected : List SelectedTx} {template : CBlock}
    (h : s.createNewBlock node nBaseVersion nAdjustedTime scriptPubKeyIn selected =
      .ok template) :
    coinbaseScript template = some (pushInt64 s.chain.chainActive.length ++ [OP_0]) := by
  have hcall := h
  obtain ⟨_, _, h⟩ := bind_ok h
  obtain ⟨block, hblock, _⟩ := bind_ok h
  have hvtx := createNewBlock_vtx hblock hcall
  obtain ⟨coinbaseTx, hcoinbase, hblock⟩ := bind_ok hblock
  cases hblock
  obtain ⟨split, _, hcoinbase⟩ := bind_ok hcoinbase
  cases hcoinbase
  rw [coinbaseScript, hvtx]
  exact coinbaseScript_generateCoinbaseCommitment _ _ _ _

/-- What `IncrementExtraNonce` writes, for some nonce. -/
theorem coinbaseScript_incrementExtraNonce {H : Hashes} {nExtraNonce : UInt32} {hash : Uint256}
    {r : CBlock × UInt32 × Uint256}
    (h : incrementExtraNonceWith flags H pindexPrev nExtraNonce hash block = .ok r) :
    coinbaseScript r.1 = some (extraNonceScript flags pindexPrev.length r.2.1) := by
  unfold incrementExtraNonceWith at h
  generalize (if hash ≠ block.hashPrevBlock then 0 else nExtraNonce) + 1 = n at h
  dsimp only at h
  split at h
  · cases h
  · split at h
    · cases h
    · split at h
      · cases h
      · cases h
        rfl

theorem length_extraNonceScript_le {nHeight : Nat} (hh : nHeight < 2 ^ 31) (nExtraNonce : UInt32)
    (hflags : flags.length ≤ 80) : (extraNonceScript flags nHeight nExtraNonce).length ≤ 100 := by
  have hheight := length_pushInt64_le hh
  have hnonce := length_scriptNumSerialize_le (n := nExtraNonce.toNat) nExtraNonce.toNat_lt
  rw [extraNonceScript, pushData, if_pos (by omega)]
  simp only [List.length_append, List.length_cons]
  omega

/-- On a block with a coinbase input the assertion about the size does not fail. -/
theorem incrementExtraNonce_returns (H : Hashes) (nExtraNonce : UInt32) (hash : Uint256)
    (hh : pindexPrev.length < 2 ^ 31) (hflags : flags.length ≤ 80)
    (hcoinbase : (coinbaseScript block).isSome) :
    ∃ r, incrementExtraNonceWith flags H pindexPrev nExtraNonce hash block = .ok r := by
  unfold incrementExtraNonceWith
  generalize (if hash ≠ block.hashPrevBlock then 0 else nExtraNonce) + 1 = n
  have hlen := length_extraNonceScript_le hh n hflags
  unfold coinbaseScript at hcoinbase
  cases hv : block.vtx with
  | nil => simp [hv] at hcoinbase
  | cons coinbase rest =>
    cases hvin : coinbase.vin with
    | nil => simp [hv, hvin] at hcoinbase
    | cons txin vin =>
      dsimp only
      rw [hvin]
      dsimp only
      rw [if_neg (by omega)]
      exact ⟨_, rfl⟩

theorem checkCoinbaseHeight_of_prefix {script : CScript} (params : Params)
    (h : coinbaseScript block = some script) (hp : pushInt64 pindexPrev.length <+: script) :
    checkCoinbaseHeight block pindexPrev params = .ok () := by
  by_cases hon : fEnforceBIP34 pindexPrev params = true
  · exact (checkCoinbaseHeight_iff hon).mpr ⟨script, h, hp⟩
  · rw [checkCoinbaseHeight, if_neg hon]

/-- Coinbases that pass the check at different heights differ. What the miner builds passes
at its height, and the script with the extra nonce has at most 100 bytes. -/
theorem coinbase_heights_unique :
    (∀ (block₁ block₂ : CBlock) (p₁ p₂ : BlockIndex) (params₁ params₂ : Params),
      p₁.length < 2 ^ 31 → p₂.length < 2 ^ 31 → p₁.length ≠ p₂.length →
      fEnforceBIP34 p₁ params₁ = true → fEnforceBIP34 p₂ params₂ = true →
      checkCoinbaseHeight block₁ p₁ params₁ = .ok () →
      checkCoinbaseHeight block₂ p₂ params₂ = .ok () →
      coinbaseScript block₁ ≠ coinbaseScript block₂) ∧
    (∀ node s nBaseVersion nAdjustedTime scriptPubKeyIn selected template params,
      NodeState.createNewBlock node nBaseVersion nAdjustedTime s scriptPubKeyIn selected =
        .ok template →
      checkCoinbaseHeight template s.chain.chainActive params = .ok ()) ∧
    ∀ flags H (pindexPrev : BlockIndex) nExtraNonce hash block params,
      (∀ r, incrementExtraNonceWith flags H pindexPrev nExtraNonce hash block = .ok r →
        checkCoinbaseHeight r.1 pindexPrev params = .ok ()) ∧
      (pindexPrev.length < 2 ^ 31 → flags.length ≤ 80 → (coinbaseScript block).isSome →
        ∃ r script, incrementExtraNonceWith flags H pindexPrev nExtraNonce hash block = .ok r ∧
          coinbaseScript r.1 = some script ∧ script.length ≤ 100) := by
  refine ⟨?_, ?_, ?_⟩
  · intro block₁ block₂ p₁ p₂ params₁ params₂ hp₁ hp₂ hne hon₁ hon₂ h₁ h₂ heq
    obtain ⟨script, hs, hpre₁⟩ := (checkCoinbaseHeight_iff hon₁).mp h₁
    obtain ⟨script', hs', hpre₂⟩ := (checkCoinbaseHeight_iff hon₂).mp h₂
    rw [← heq, hs] at hs'
    cases hs'
    exact hne (pushInt64_prefix_free hp₁ hp₂ hpre₁ hpre₂)
  · intro node s nBaseVersion nAdjustedTime scriptPubKeyIn selected template params h
    apply checkCoinbaseHeight_of_prefix params (coinbaseScript_createNewBlock h)
    exact List.prefix_append _ _
  · intro flags H pindexPrev nExtraNonce hash block params
    refine ⟨fun r h => ?_, fun hh hflags hcoinbase => ?_⟩
    · apply checkCoinbaseHeight_of_prefix params (coinbaseScript_incrementExtraNonce h)
      rw [extraNonceScript, List.append_assoc]
      exact List.prefix_append _ _
    · obtain ⟨r, hr⟩ := incrementExtraNonce_returns H nExtraNonce hash hh hflags hcoinbase
      exact ⟨r, _, hr, coinbaseScript_incrementExtraNonce hr,
        length_extraNonceScript_le hh _ hflags⟩

/-- A block with the height in its coinbase. -/
def heightBlock (nHeight : Nat) : CBlock :=
  { nullHeader with
    vtx := [{
      nVersion := 1
      vin := [{ prevout := COutPoint.null, scriptSig := pushInt64 nHeight ++ [OP_0] }]
      vout := []
      nLockTime := 0 }] }

/-- A deployment that starts at once. -/
def startedParams : Params :=
  { regTestParams.consensus with
    nMinerConfirmationWindow := 1
    vDeployments := fun _ => ⟨0, 0, 2000000000⟩ }

/-- A chain of so many blocks. -/
def heightChain (nHeight : Nat) : BlockIndex := List.replicate nHeight regTestParams.genesis

theorem coinbase_heights_unique_sample :
    coinbaseScript (heightBlock 2) ≠ coinbaseScript (heightBlock 17) ∧
      ∃ r script, incrementExtraNonceWith (List.replicate 80 1) sampleHashes (heightChain 17) 0 0
          (heightBlock 17) = .ok r ∧ coinbaseScript r.1 = some script ∧ script.length ≤ 100 :=
  ⟨coinbase_heights_unique.1 (heightBlock 2) (heightBlock 17) (heightChain 2) (heightChain 17)
      startedParams startedParams (by decide) (by decide) (by decide) (by decide +kernel)
      (by decide +kernel) (by decide +kernel) (by decide +kernel),
    (coinbase_heights_unique.2.2 (List.replicate 80 1) sampleHashes (heightChain 17) 0 0
      (heightBlock 17) startedParams).2 (by decide) (by decide) (by decide)⟩

end junkcoin
