-- Headers that arrive from a peer (`ProcessNewBlockHeaders`, and the
-- handlers of `HEADERS` and `CMPCTBLOCK` up to their assertions). Every
-- refusal is reported as invalid; only two kinds of header stop the node.
import Junkcoin.FailedBlocks
import Junkcoin.GetHeaders

namespace junkcoin

/-! ## The model -/

/-- `ProcessNewBlockHeaders`: the index, `*ppindex` and the failure, if there
is one. Each header is checked against the clock of its own moment. -/
def BlockMap.processNewBlockHeaders (env : Env) (addr : BlockIndex → Nat) :
    (clock : Nat → Int) → List CBlockHeader → (ppindex : BlockIndex) → BlockMap →
      Check (BlockMap × BlockIndex × Option Failure)
  | _, [], ppindex, s => .ok (s, ppindex, none)
  | clock, header :: headers, ppindex, s => do
    match ← s.acceptBlockHeader env addr (clock 0) header with
    | (s, .error e) => .ok (s, ppindex, some e)
    | (s, .ok pindex) => processNewBlockHeaders env addr (clock ∘ (· + 1)) headers pindex s

def MAX_BLOCKS_TO_ANNOUNCE : Nat := 8

def MAX_UNCONNECTING_HEADERS : Nat := 10

/-- How a handler leaves the part that is modelled: it returns, with points
for the peer, or goes on with an entry of the index. -/
inductive HandlerStep
  | returns (misbehaving : Nat)
  | proceeds (pindex : BlockIndex)

/-- What a handler does with the result of `ProcessNewBlockHeaders`. It
returns if `state.IsInvalid(nDoS)`, and goes on otherwise. -/
def afterNewHeaders (what : String) (pindex : BlockIndex) : Option Failure → Check HandlerStep
  | some (.invalid nDoS _ _) => .ok (.returns nDoS)
  | _ => do
    assert (!pindex.isEmpty) what
    .ok (.proceeds pindex)

/-- The header of a `CMPCTBLOCK` message. -/
def BlockMap.processCmpctBlockHeader (env : Env) (addr : BlockIndex → Nat) (clock : Nat → Int)
    (header : CBlockHeader) (s : BlockMap) : Check (BlockMap × HandlerStep) :=
  if (s.findBlock env.H header.hashPrevBlock).isNone then .ok (s, .returns 0)
  else do
    let (s, pindex, failure) ← s.processNewBlockHeaders env addr clock [header] []
    let step ← afterNewHeaders "pindex" pindex failure
    .ok (s, step)

/-- Each header names the one before it as its parent. -/
def continuousHeaders (H : Hashes) : (hashLastBlock : Uint256) → List CBlockHeader → Bool
  | _, [] => true
  | hashLastBlock, header :: headers =>
    (hashLastBlock == 0 || header.hashPrevBlock == hashLastBlock) &&
      continuousHeaders H (header.getHash H) headers

/-- The headers of a `HEADERS` message, with the count of the peer's messages
that did not connect. -/
def BlockMap.processHeaders (env : Env) (addr : BlockIndex → Nat) (clock : Nat → Int)
    (headers : List CBlockHeader) (nUnconnectingHeaders : Nat) (s : BlockMap) :
    Check (BlockMap × Nat × HandlerStep) :=
  if headers.length > MAX_HEADERS_RESULTS then .ok (s, nUnconnectingHeaders, .returns 20)
  else match headers with
  | [] => .ok (s, nUnconnectingHeaders, .returns 0)
  | first :: rest =>
    if (s.findBlock env.H first.hashPrevBlock).isNone &&
        (first :: rest).length < MAX_BLOCKS_TO_ANNOUNCE then
      let nUnconnectingHeaders := nUnconnectingHeaders + 1
      .ok (s, nUnconnectingHeaders,
        .returns (if nUnconnectingHeaders % MAX_UNCONNECTING_HEADERS = 0 then 20 else 0))
    else if !continuousHeaders env.H 0 (first :: rest) then
      .ok (s, nUnconnectingHeaders, .returns 20)
    else do
      let (s, pindexLast, failure) ← s.processNewBlockHeaders env addr clock (first :: rest) []
      match ← afterNewHeaders "pindexLast" pindexLast failure with
      | .returns nDoS => .ok (s, nUnconnectingHeaders, .returns nDoS)
      | .proceeds pindexLast => .ok (s, 0, .proceeds pindexLast)

/-! ## How a check fails -/

/-- `state.IsInvalid()`. -/
def Failure.Invalid (e : Failure) : Prop :=
  ∃ dos reason corruption, e = .invalid dos reason corruption

/-- The check failed and only logged the reason. -/
def Failure.Logged (e : Failure) : Prop := ∃ reason, e = .error reason

/-- Every failure of the check has the property. -/
def FailsAs {α : Type} (E : Failure → Prop) (check : Check α) : Prop :=
  ∀ e, check = .error e → E e

section FailsAs

variable {α β : Type} {E F : Failure → Prop} {check : Check α}

theorem FailsAs.bind {f : α → Check β} (hcheck : FailsAs E check)
    (hf : ∀ a, check = .ok a → FailsAs E (f a)) : FailsAs E (check >>= f) := by
  intro e he
  rcases hx : check with e' | a
  · rw [hx] at he
    cases he
    exact hcheck e hx
  · rw [hx] at he
    exact hf a hx e he

theorem FailsAs.mono (hcheck : FailsAs E check) (h : ∀ e, E e → F e) : FailsAs F check :=
  fun e he => h e (hcheck e he)

theorem failsAs_ok (a : α) : FailsAs E (.ok a : Check α) := fun _ he => nomatch he

theorem failsAs_doS (h : ∀ e, e.Invalid → E e) (level : Nat) (reason : String) :
    FailsAs E (doS level reason : Check α) := by
  intro e he
  cases he
  exact h _ ⟨_, _, _, rfl⟩

theorem failsAs_rejectIf (h : ∀ e, e.Invalid → E e) (bad : Bool) (level : Nat) (reason : String) :
    FailsAs E (rejectIf bad level reason) := by
  unfold rejectIf
  split
  · exact failsAs_doS h level reason
  · exact failsAs_ok ()

theorem failsAs_errorIf (h : ∀ e, e.Logged → E e) (bad : Bool) (reason : String) :
    FailsAs E (errorIf bad reason) := by
  unfold errorIf
  split
  · intro e he
    cases he
    exact h _ ⟨_, rfl⟩
  · exact failsAs_ok ()

/-- What only logged its failure is reported as invalid by the caller. -/
theorem FailsAs.orDoS {P : Prop} (hcheck : FailsAs (fun e => e.Logged ∨ P) check) (level : Nat)
    (reason : String) : FailsAs (fun e => e.Invalid ∨ P) (orDoS check level reason) := by
  unfold junkcoin.orDoS
  split
  · exact failsAs_doS (fun _ => Or.inl) level reason
  · rename_i hother
    intro e he
    rcases hcheck e he with ⟨why, rfl⟩ | hp
    · exact absurd he (hother why)
    · exact Or.inr hp

end FailsAs

/-! ## The proof of work of a parent block without inputs -/

/-- `CAuxPow::check` comes to the read of `tx->vin[0]`, and there is none. -/
structure CAuxPow.MissesInput (H : Hashes) (a : CAuxPow) (nChainId : Int) (params : Params) :
    Prop where
  index : a.nIndex = 0
  chain : (params.fStrictChainId && a.parentBlock.getChainId == nChainId) = false
  short : a.vChainMerkleBranch.length ≤ 30
  root : checkMerkleBranch H (a.tx.getHash H) a.vMerkleBranch a.nIndex =
    a.parentBlock.hashMerkleRoot
  vin : a.tx.vin = []

section AuxPow

variable {H : Hashes} {a : CAuxPow} {hash : Uint256} {nChainId : Int} {params : Params}
  {net : Network} {block : CBlockHeader}

theorem CAuxPow.check_fails : FailsAs (fun e => e.Logged ∨ a.MissesInput H nChainId params)
    (a.check H hash nChainId params) := by
  have logged (bad : Bool) (reason : String) :
      FailsAs (fun e => e.Logged ∨ a.MissesInput H nChainId params) (errorIf bad reason) :=
    failsAs_errorIf (fun _ => Or.inl) bad reason
  refine (logged _ _).bind fun _ hindex => (logged _ _).bind fun _ hchain =>
    (logged _ _).bind fun _ hshort => (logged _ _).bind fun _ hroot => ?_
  simp only [errorIf_ok, bne_eq_false_iff_eq, decide_eq_false_iff_not, Nat.not_lt] at *
  refine FailsAs.bind ?_ fun _ _ => ?_
  · intro e he
    refine Or.inr ⟨hindex, hchain, hshort, hroot, ?_⟩
    by_contra hvin
    rw [assert, if_pos (by simpa using hvin)] at he
    cases he
  · split
    · rintro e ⟨⟩
      exact Or.inl ⟨_, rfl⟩
    · have tail (c₁ c₂ c₃ : Bool) (r₁ r₂ r₃ : String) :=
        (logged c₁ r₁).bind fun _ _ => (logged c₂ r₂).bind fun _ _ => logged c₃ r₃
      split
      · exact (logged _ _).bind fun _ _ => (logged _ _).bind fun _ _ => tail _ _ _ _ _ _
      · exact (logged _ _).bind fun _ _ => tail _ _ _ _ _ _

theorem CAuxPow.MissesInput.check (h : a.MissesInput H nChainId params) :
    a.check H hash nChainId params = .error (.crash "tx->vin[0]") := by
  have hindex := h.index
  have hchain := h.chain
  have hshort := h.short
  have hroot := h.root
  have hvin := h.vin
  unfold CAuxPow.check
  simp [errorIf, assert, hindex, hchain, hvin, bind, Except.bind, Nat.not_lt.mpr hshort,
    hindex ▸ hroot]

/-- The header comes to that read. -/
def CBlockHeader.MissesInput (H : Hashes) (net : Network) (block : CBlockHeader) : Prop :=
  (!block.isLegacy && (net.params.getConsensus 0).fStrictChainId &&
    block.getChainId != (net.params.getConsensus 0).nAuxpowChainId) = false ∧
  block.isAuxpow = true ∧
  ∃ auxpow, block.auxpow = some auxpow ∧
    auxpow.MissesInput H block.getChainId (net.params.getConsensus 0)

theorem checkProofOfWork_fails {nBits : UInt32} :
    FailsAs Failure.Logged (checkProofOfWork hash nBits params) := by
  refine (failsAs_errorIf (fun _ h => h) _ _).bind fun _ _ => ?_
  exact failsAs_errorIf (fun _ h => h) _ _

theorem checkAuxPowProofOfWork_fails :
    FailsAs (fun e => e.Logged ∨ block.MissesInput H net)
      (checkAuxPowProofOfWork H net block (net.params.getConsensus 0)) := by
  refine (failsAs_errorIf (fun _ => Or.inl) _ _).bind fun _ hid => ?_
  split
  · refine (failsAs_errorIf (fun _ => Or.inl) _ _).bind fun _ _ => ?_
    split
    · exact failsAs_ok ()
    · exact checkProofOfWork_fails.mono fun _ => Or.inl
  · rename_i auxpow haux
    refine (failsAs_errorIf (fun _ => Or.inl) _ _).bind fun _ hflag => ?_
    refine FailsAs.bind ?_ fun _ _ => checkProofOfWork_fails.mono fun _ => Or.inl
    exact CAuxPow.check_fails.mono fun e => Or.imp_right fun h =>
      ⟨errorIf_ok.mp hid, by simpa using hflag, auxpow, haux, h⟩

theorem checkBlockHeader_fails :
    FailsAs (fun e => e.Invalid ∨ block.MissesInput H net) (checkBlockHeader H net block true) := by
  exact checkAuxPowProofOfWork_fails.orDoS 50 "high-hash"

theorem CBlockHeader.MissesInput.checkBlockHeader (h : block.MissesInput H net) :
    junkcoin.checkBlockHeader H net block true = .error (.crash "tx->vin[0]") := by
  obtain ⟨hid, hflag, auxpow, haux, hmisses⟩ := h
  rw [junkcoin.checkBlockHeader, if_pos rfl, checkAuxPowProofOfWork, hid, haux]
  simp [errorIf, hflag, hmisses.check, bind, Except.bind, orDoS]

end AuxPow

/-! ## One header -/

/-- The interval between two changes of the difficulty is not empty. -/
theorem targetTimespan_pos (net : Network) (height : Nat) :
    (net.params.getConsensus height).nPowTargetSpacing = 60 ∧
      60 ≤ (net.params.getConsensus height).nPowTargetTimespan := by
  cases net <;> unfold CChainParams.getConsensus <;> split
  all_goals first | decide | (split <;> decide)

/-- The first block of the interval is always there. -/
theorem intervalStart_ne_nil {chain : BlockIndex} (hne : chain ≠ []) {interval : Int}
    (hpos : 0 < interval) (hretarget : (nHeight chain + 1) % interval = 0) :
    getAncestor chain (nHeight chain -
      if nHeight chain + 1 ≠ interval then interval else interval - 1) ≠ [] := by
  have hlength : 0 < chain.length := List.length_pos_iff.mpr hne
  have hle : interval ≤ nHeight chain + 1 :=
    Int.le_of_dvd (by unfold nHeight; omega) (Int.dvd_of_emod_eq_zero hretarget)
  unfold getAncestor nHeight at *
  rw [if_neg (by split <;> omega), ← List.length_pos_iff, List.length_drop]
  split <;> omega

theorem getNextWorkRequired_ok (net : Network) (pindexPrev : BlockIndex) (block : CBlockHeader) :
    ∃ required, getNextWorkRequired pindexPrev block (consensusAfter net pindexPrev) =
      .ok required := by
  obtain ⟨hspacing, htimespan⟩ := targetTimespan_pos net pindexPrev.length
  match pindexPrev with
  | [] => exact ⟨_, rfl⟩
  | last :: rest =>
    rw [consensusAfter]
    generalize net.params.getConsensus (last :: rest).length = params at *
    simp only [getNextWorkRequired]
    generalize hspan : (if decide (nHeight (last :: rest) + 1 ≥ 69360) = true then
      params.nPowTargetTimespan else params.nPowTargetTimespan * 12) = span
    have hpos : 0 < span / params.nPowTargetSpacing := by
      rw [hspacing]
      split at hspan <;> omega
    split
    · exact ⟨_, rfl⟩
    split
    · split
      · split <;> exact ⟨_, rfl⟩
      · exact ⟨_, rfl⟩
    · rename_i hretarget
      split
      · rename_i hnone
        exact absurd hnone (intervalStart_ne_nil (List.cons_ne_nil _ _) hpos
          (not_ne_iff.mp hretarget))
      · exact ⟨_, rfl⟩

theorem contextualCheckBlockHeader_fails {net : Network} {block : CBlockHeader}
    {pindexPrev : BlockIndex} {t : Int} :
    FailsAs Failure.Invalid (contextualCheckBlockHeader net block pindexPrev t) := by
  have invalid (bad : Bool) (level : Nat) (reason : String) :
      FailsAs Failure.Invalid (rejectIf bad level reason) :=
    failsAs_rejectIf (fun _ h => h) bad level reason
  refine FailsAs.bind ?_ fun _ _ => invalid _ _ _
  refine (invalid _ _ _).bind fun _ _ => (invalid _ _ _).bind fun _ _ => FailsAs.bind ?_ fun _ _ =>
    (invalid _ _ _).bind fun _ _ => (invalid _ _ _).bind fun _ _ => invalid _ _ _
  obtain ⟨required, hrequired⟩ := getNextWorkRequired_ok net pindexPrev block
  rw [hrequired]
  exact failsAs_ok required

namespace BlockMap

variable {env : Env} {addr : BlockIndex → Nat} {t : Int} {s s' : BlockMap} {block : CBlockHeader}
  {p : BlockIndex}

theorem checkNewHeader_fails : FailsAs (fun e => e.Invalid ∨ block.MissesInput env.H env.net)
    (s.checkNewHeader env t block) := by
  refine checkBlockHeader_fails.bind fun _ _ => ?_
  split
  · exact failsAs_doS (fun _ => Or.inl) 10 "bad-prevblk"
  · refine (failsAs_rejectIf (fun _ => Or.inl) _ _ _).bind fun _ _ => FailsAs.bind ?_ fun _ _ =>
      (contextualCheckBlockHeader_fails.mono fun _ => Or.inl).bind fun _ _ => failsAs_ok _
    unfold checkIndexAgainstCheckpoint
    split
    · exact failsAs_ok ()
    split
    · exact failsAs_ok ()
    split
    · exact failsAs_ok ()
    · exact failsAs_rejectIf (fun _ => Or.inl) _ _ _

theorem checkNewHeader_of_missesInput (h : block.MissesInput env.H env.net) :
    s.checkNewHeader env t block = .error (.crash "tx->vin[0]") := by
  rw [checkNewHeader, h.checkBlockHeader]
  rfl

/-- The two ways in which a header stops the node: its parent block's coinbase
has no input to read, or the header passes every check on top of a block in
`gFailedBlocks` that has lost its mark. -/
def StopsAt (env : Env) (addr : BlockIndex → Nat) (t : Int) (block : CBlockHeader)
    (s : BlockMap) : Prop :=
  block.getHash env.H ≠ hashGenesisBlock env.H env.net ∧
  s.findBlock env.H (block.getHash env.H) = none ∧
  (block.MissesInput env.H env.net ∨
    ∃ pindexPrev failedit, s.checkNewHeader env t block = .ok pindexPrev ∧
      s.findFailedAncestor addr pindexPrev = some failedit ∧
      (s.nStatus failedit).failedValid = false)

/-- What `AcceptBlockHeader` refuses is invalid. -/
theorem acceptBlockHeader_refused {e : Failure}
    (h : s.acceptBlockHeader env addr t block = .ok (s', .error e)) : e.Invalid := by
  unfold acceptBlockHeader at h
  dsimp only at h
  split at h
  · cases h
  split at h
  · rename_i pindex _
    split at h
    · cases h
      exact ⟨_, _, _, rfl⟩
    · cases h
  · obtain ⟨checked, hchecked, h⟩ := bind_ok h
    split at h
    · cases h
      refine (checkNewHeader_fails _ (attempt_eq_error hchecked)).resolve_right fun hmisses => ?_
      rw [checkNewHeader_of_missesInput hmisses] at hchecked
      cases hchecked
    · split at h
      · cases h
      · obtain ⟨_, _, h⟩ := bind_ok h
        cases h
        exact ⟨_, _, _, rfl⟩

/-- `AcceptBlockHeader` returns, except on those headers. -/
theorem acceptBlockHeader_returns_iff :
    (∃ r, s.acceptBlockHeader env addr t block = .ok r) ↔ ¬ s.StopsAt env addr t block := by
  unfold acceptBlockHeader StopsAt
  dsimp only
  split
  · rename_i hgenesis
    simp [beq_iff_eq.mp hgenesis]
  rename_i hgenesis
  split
  · rename_i hfind
    simp [hfind]
  rename_i hfind
  simp only [ne_eq, beq_iff_eq.not.mp hgenesis, not_false_eq_true, hfind, true_and, not_or,
    not_exists, not_and, Bool.not_eq_false]
  rcases hcheck : s.checkNewHeader env t block with e | pindexPrev
  · constructor
    · rintro ⟨r, hr⟩
      refine ⟨fun hmisses => ?_, by simp⟩
      cases hcheck.symm.trans (checkNewHeader_of_missesInput hmisses)
      cases hr
    · rintro ⟨hmisses, -⟩
      obtain ⟨dos, reason, corruption, rfl⟩ := (checkNewHeader_fails _ hcheck).resolve_right hmisses
      exact ⟨_, rfl⟩
  · have hmisses : ¬ block.MissesInput env.H env.net := fun hmisses =>
      nomatch hcheck.symm.trans (checkNewHeader_of_missesInput hmisses)
    simp only [attempt, bind, Except.bind, Except.ok.injEq, hmisses, not_false_eq_true, true_and]
    constructor
    · rintro ⟨r, hr⟩ _ failedit rfl hscan
      rw [hscan] at hr
      obtain ⟨_, hassert, -⟩ := bind_ok hr
      exact assert_ok.mp hassert
    · intro hmarked
      cases hscan : s.findFailedAncestor addr pindexPrev with
      | none => exact ⟨_, rfl⟩
      | some failedit => simp [assert, hmarked _ failedit rfl hscan]

/-- The entry that `AcceptBlockHeader` gives back is the one of the header. -/
theorem acceptBlockHeader_entry (h : s.acceptBlockHeader env addr t block = .ok (s', .ok p))
    (hs : [] ∉ s.mapBlockIndex) : [] ∉ s'.mapBlockIndex ∧ p ∈ s'.mapBlockIndex ∧
      blockHash env.H p = block.getHash env.H := by
  cases acceptBlockHeader_outcome h with
  | known hfind => exact ⟨hs, findBlock_some hfind⟩
  | genesis _ _ hadded => simpa [hadded.map] using ⟨hs, rfl⟩
  | added _ _ _ _ hadded => simpa [hadded.map] using ⟨hs, rfl⟩

/-! ## All headers of a message -/

/-- No header that `ProcessNewBlockHeaders` comes to stops the node. -/
def NeverStops (env : Env) (addr : BlockIndex → Nat) :
    (clock : Nat → Int) → List CBlockHeader → BlockMap → Prop
  | _, [], _ => True
  | clock, header :: headers, s => ¬ s.StopsAt env addr (clock 0) header ∧
    ∀ s' pindex, s.acceptBlockHeader env addr (clock 0) header = .ok (s', .ok pindex) →
      NeverStops env addr (clock ∘ (· + 1)) headers s'

/-- What `ProcessNewBlockHeaders` gives back: the entry of the last header, or
a failure with `state.IsInvalid()`. -/
def Reported (H : Hashes) (headers : List CBlockHeader) (s' : BlockMap) (pindexLast : BlockIndex) :
    Option Failure → Prop
  | none => ∀ header, headers.getLast? = some header →
      pindexLast ≠ [] ∧ pindexLast ∈ s'.mapBlockIndex ∧ blockHash H pindexLast = header.getHash H
  | some e => e.Invalid

variable {clock : Nat → Int} {headers : List CBlockHeader} {ppindex pindexLast : BlockIndex}
  {failure : Option Failure}

theorem processNewBlockHeaders_reported (hs : [] ∉ s.mapBlockIndex)
    (h : s.processNewBlockHeaders env addr clock headers ppindex = .ok (s', pindexLast, failure)) :
    Reported env.H headers s' pindexLast failure := by
  induction headers generalizing clock ppindex s with
  | nil =>
    cases h
    intro header hlast
    cases hlast
  | cons first rest ih =>
    obtain ⟨⟨s₁, r⟩, haccept, h⟩ := bind_ok h
    cases r with
    | error e =>
      cases h
      exact acceptBlockHeader_refused haccept
    | ok pindex =>
      obtain ⟨hs₁, hmem, hhash⟩ := acceptBlockHeader_entry haccept hs
      have hrest := ih hs₁ h
      cases rest with
      | cons second rest => cases failure <;> exact hrest
      | nil =>
        cases h
        rintro header ⟨⟩
        exact ⟨fun hnil => hs₁ (hnil ▸ hmem), hmem, hhash⟩

theorem processNewBlockHeaders_returns_iff (ppindex : BlockIndex) :
    (∃ r, s.processNewBlockHeaders env addr clock headers ppindex = .ok r) ↔
      NeverStops env addr clock headers s := by
  induction headers generalizing clock ppindex s with
  | nil => exact ⟨fun _ => trivial, fun _ => ⟨_, rfl⟩⟩
  | cons header headers ih =>
    rw [NeverStops, ← acceptBlockHeader_returns_iff, processNewBlockHeaders]
    rcases haccept : s.acceptBlockHeader env addr (clock 0) header with e | ⟨s₁, e | pindex⟩
    · simp [bind, Except.bind]
    · simp [bind, Except.bind]
    · simp [bind, Except.bind, ih]

/-! ## The handlers -/

/-- A reported result never fails the assertion of a handler. -/
theorem Reported.afterNewHeaders {H : Hashes} {header : CBlockHeader} (what : String)
    (h : Reported H headers s' pindexLast failure) (hlast : headers.getLast? = some header) :
    ∃ step, junkcoin.afterNewHeaders what pindexLast failure = .ok step ∧
      ∀ pindex, step = .proceeds pindex → pindex ≠ [] ∧ pindex ∈ s'.mapBlockIndex ∧
        blockHash H pindex = header.getHash H := by
  cases failure with
  | some e =>
    obtain ⟨dos, reason, corruption, rfl⟩ := h
    exact ⟨_, rfl, fun pindex hstep => nomatch hstep⟩
  | none =>
    obtain ⟨hne, hrest⟩ := h header hlast
    have hassert : (!pindexLast.isEmpty) = true := by simpa using hne
    refine ⟨.proceeds pindexLast, by simp [junkcoin.afterNewHeaders, assert, hassert, bind,
      Except.bind], ?_⟩
    rintro pindex ⟨⟩
    exact ⟨hne, hrest⟩

/-- The handler of `HEADERS` stops the node only where
`ProcessNewBlockHeaders` does, and goes on with the entry of the last header. -/
theorem processHeaders_spec (hs : [] ∉ s.mapBlockIndex) {n : Nat} :
    (∀ e, s.processHeaders env addr clock headers n = .error e →
      s.processNewBlockHeaders env addr clock headers [] = .error e) ∧
    ∀ s' n' pindexLast, s.processHeaders env addr clock headers n =
      .ok (s', n', .proceeds pindexLast) → pindexLast ≠ [] := by
  unfold processHeaders
  split
  · simp
  cases headers with
  | nil => simp
  | cons first rest =>
    dsimp only
    split
    · simp
    split
    · simp
    rcases hprocess : s.processNewBlockHeaders env addr clock (first :: rest) [] with
      e | ⟨s', pindexLast, failure⟩
    · simp [bind, Except.bind]
    · obtain ⟨header, hlast⟩ : ∃ header, (first :: rest).getLast? = some header :=
        Option.isSome_iff_exists.mp (by simp)
      obtain ⟨step, hstep, hproceeds⟩ := (processNewBlockHeaders_reported hs
        hprocess).afterNewHeaders "pindexLast" hlast
      dsimp only [bind, Except.bind]
      rw [hstep]
      cases step with
      | returns nDoS => simp
      | proceeds pindex =>
        refine ⟨fun e he => (nomatch he), ?_⟩
        rintro _ _ _ ⟨⟩
        exact (hproceeds _ rfl).1

/-- The handler of `CMPCTBLOCK` does so for its one header. -/
theorem processCmpctBlockHeader_spec (hs : [] ∉ s.mapBlockIndex) {header : CBlockHeader} :
    (∀ e, s.processCmpctBlockHeader env addr clock header = .error e →
      s.processNewBlockHeaders env addr clock [header] [] = .error e) ∧
    ∀ s' pindex, s.processCmpctBlockHeader env addr clock header = .ok (s', .proceeds pindex) →
      pindex ≠ [] := by
  unfold processCmpctBlockHeader
  split
  · simp
  rcases hprocess : s.processNewBlockHeaders env addr clock [header] [] with
    e | ⟨s', pindexLast, failure⟩
  · simp [bind, Except.bind]
  · obtain ⟨step, hstep, hproceeds⟩ := (processNewBlockHeaders_reported hs
      hprocess).afterNewHeaders "pindex" rfl
    dsimp only [bind, Except.bind]
    rw [hstep]
    refine ⟨fun e he => (nomatch he), ?_⟩
    rintro _ _ ⟨⟩
    exact (hproceeds _ rfl).1

end BlockMap

/-- `ProcessNewBlockHeaders` sets the entry of the last header or reports an
invalid one, unless it comes to a header that stops the node. The assertions
of the two handlers never fail. -/
theorem header_failures_reported_iff (env : Env) (addr : BlockIndex → Nat) (clock : Nat → Int)
    (s : BlockMap) (hs : [] ∉ s.mapBlockIndex) (headers : List CBlockHeader) :
    ((∃ s' pindexLast failure,
      s.processNewBlockHeaders env addr clock headers [] = .ok (s', pindexLast, failure) ∧
        BlockMap.Reported env.H headers s' pindexLast failure) ↔
      s.NeverStops env addr clock headers) ∧
    (∀ n, (∀ e, s.processHeaders env addr clock headers n = .error e →
        s.processNewBlockHeaders env addr clock headers [] = .error e) ∧
      ∀ s' n' pindexLast, s.processHeaders env addr clock headers n =
        .ok (s', n', .proceeds pindexLast) → pindexLast ≠ []) ∧
    ∀ header, (∀ e, s.processCmpctBlockHeader env addr clock header = .error e →
        s.processNewBlockHeaders env addr clock [header] [] = .error e) ∧
      ∀ s' pindex, s.processCmpctBlockHeader env addr clock header = .ok (s', .proceeds pindex) →
        pindex ≠ [] := by
  refine ⟨?_, fun n => BlockMap.processHeaders_spec hs, fun header =>
    BlockMap.processCmpctBlockHeader_spec hs⟩
  rw [← BlockMap.processNewBlockHeaders_returns_iff []]
  constructor
  · rintro ⟨s', pindexLast, failure, hprocess, -⟩
    exact ⟨_, hprocess⟩
  · rintro ⟨⟨s', pindexLast, failure⟩, hprocess⟩
    exact ⟨s', pindexLast, failure, hprocess, BlockMap.processNewBlockHeaders_reported hs hprocess⟩

/-- A header on the tip of the sample chain is added. -/
theorem header_failures_reported_sample :
    [] ∉ regtestState.blocks.mapBlockIndex ∧ ∃ s' pindexLast failure,
      regtestState.blocks.processNewBlockHeaders regtestNode.env regtestNode.addr
        (fun _ => 1369199888) [fundFirst.toCBlockHeader] [] = .ok (s', pindexLast, failure) ∧
      BlockMap.Reported regtestNode.env.H [fundFirst.toCBlockHeader] s' pindexLast failure := by
  have hs : [] ∉ regtestState.blocks.mapBlockIndex := by decide +kernel
  have hok : okWith (regtestState.blocks.processNewBlockHeaders regtestNode.env regtestNode.addr
      (fun _ => 1369199888) [fundFirst.toCBlockHeader] []) (fun r => r.2.2.isNone) = true := by
    decide +kernel
  obtain ⟨r, hr, -⟩ := of_okWith hok
  refine ⟨hs, (header_failures_reported_iff regtestNode.env regtestNode.addr (fun _ => 1369199888)
    regtestState.blocks hs [fundFirst.toCBlockHeader]).1.mpr ?_⟩
  exact (BlockMap.processNewBlockHeaders_returns_iff []).mp ⟨r, hr⟩

/-! ## A parent block without inputs -/

/-- A transaction without inputs and outputs, as the coinbase of a parent
block. -/
def inputlessAuxPow : CAuxPow where
  tx := { nVersion := 1, vin := [], vout := [], nLockTime := 0 }
  hashBlock := 0
  vMerkleBranch := []
  nIndex := 0
  vChainMerkleBranch := []
  nChainIndex := 0
  parentBlock :=
    { nVersion := 1, hashPrevBlock := 0
      hashMerkleRoot := ({ nVersion := 1, vin := [], vout := [], nLockTime := 0 } :
        CTransaction).getHash regtestNode.env.H
      nTime := 0, nBits := 0, nNonce := 0 }

/-- A header with this proof on top of the tip. -/
def inputlessHeader : CBlockHeader where
  nVersion := 0x20210104#32
  hashPrevBlock := blockHash regtestNode.env.H regtestTip
  hashMerkleRoot := 0
  nTime := 1369199888
  nBits := 0x1e0ffff0
  nNonce := 0
  auxpow := some inputlessAuxPow

/-- The header can be read from the wire, needs no work, and stops the node. -/
theorem inputless_parent_stops_the_node :
    CBlockHeader.unserialize true (inputlessHeader.serialize true) = .ok (inputlessHeader, []) ∧
      failureOf (regtestState.blocks.processNewBlockHeaders regtestNode.env regtestNode.addr
        (fun _ => 1369199888) [inputlessHeader] []) = some (.crash "tx->vin[0]") := by
  constructor
  · decide +kernel
  · decide +kernel

end junkcoin
