-- The warnings about forks (`CheckForkWarningConditions`, its callers and
-- `IsInitialBlockDownload`). A pointer is an index, the empty one is `NULL`,
-- and following it stops the node.
import Junkcoin.BlockMap

namespace junkcoin

/-! ## The state -/

/-- The pointers and flags of the warnings. `alerts` are the blocks that
`AlertNotify` named. -/
structure ForkWarnings where
  pindexBestForkTip : BlockIndex := []
  pindexBestForkBase : BlockIndex := []
  fLargeWorkForkFound : Bool := false
  fLargeWorkInvalidChainFound : Bool := false
  latchToFalse : Bool := false
  alerts : List BlockIndex := []

structure WarningState where
  blocks : BlockMap
  chainActive : BlockIndex
  warnings : ForkWarnings := {}

/-- What says whether a tip is recent. -/
structure TipRules where
  nMinimumChainWork : (nHeight : Int) → Nat
  nMaxTipAge : Int

/-- What is outside of the state at one call. -/
structure Now where
  fImporting : Bool
  fReindex : Bool
  nTime : Int

/-- The pointer is followed. -/
def follow (pindex : BlockIndex) (what : String) : Check Unit := assert (!pindex.isEmpty) what

/-- `GetBlockProof(*pindex)`. -/
def proofOf : BlockIndex → Nat
  | [] => 0
  | b :: _ => getBlockProof b

/-- `pindex->GetBlockTime()`. -/
def timeOf : BlockIndex → Int
  | [] => 0
  | b :: _ => b.getBlockTime

namespace WarningState

variable (rules : TipRules) (now : Now) (s : WarningState) (pindexNewForkTip : BlockIndex)

/-- `IsInitialBlockDownload`. -/
def isInitialBlockDownload : Bool :=
  if s.warnings.latchToFalse then false
  else if now.fImporting || now.fReindex then true
  else if s.chainActive.isEmpty then true
  else if nChainWork s.chainActive < rules.nMinimumChainWork (nHeight s.chainActive) then true
  else timeOf s.chainActive < now.nTime - rules.nMaxTipAge

/-! ## `CheckForkWarningConditions` -/

/-- A fork that is far behind the tip is dropped. -/
def dropOldFork : WarningState :=
  if !s.warnings.pindexBestForkTip.isEmpty &&
      nHeight s.chainActive - nHeight s.warnings.pindexBestForkTip ≥ 100 then
    { s with warnings := { s.warnings with pindexBestForkTip := [] } }
  else s

/-- Whether the warning branch is taken. -/
def warns : Check Bool :=
  if !s.warnings.pindexBestForkTip.isEmpty then .ok true
  else if s.blocks.pindexBestInvalid.isEmpty then .ok false
  else do
    follow s.chainActive "chainActive.Tip()->nChainWork"
    .ok (nChainWork s.blocks.pindexBestInvalid >
      (nChainWork s.chainActive + proofOf s.chainActive * 30) % 2 ^ 256)

/-- The first part of the warning branch: a message, and an alert if there
was none. -/
def alertFork : Check WarningState := do
  follow s.blocks.pindexBestInvalid "pindexBestInvalid->nChainWork"
  follow s.chainActive "chainActive.Tip()->nChainWork"
  if !s.warnings.fLargeWorkForkFound && !s.warnings.pindexBestForkBase.isEmpty then
    follow s.warnings.pindexBestForkBase "pindexBestForkBase->phashBlock"
    .ok { s with warnings := { s.warnings with
      alerts := s.warnings.pindexBestForkBase :: s.warnings.alerts } }
  else .ok s

/-- The second part: which of the two warnings it is. -/
def setFork : Check WarningState :=
  if !s.warnings.pindexBestForkTip.isEmpty && !s.warnings.pindexBestForkBase.isEmpty then do
    follow s.warnings.pindexBestForkBase "pindexBestForkBase->nHeight"
    follow s.warnings.pindexBestForkTip "pindexBestForkTip->nHeight"
    .ok { s with warnings := { s.warnings with fLargeWorkForkFound := true } }
  else .ok { s with warnings := { s.warnings with fLargeWorkInvalidChainFound := true } }

def clearForks : WarningState :=
  { s with warnings := { s.warnings with
    fLargeWorkForkFound := false, fLargeWorkInvalidChainFound := false } }

/-- The rest of `CheckForkWarningConditions`, once the old fork is dropped. -/
def warnIfNeeded : Check WarningState := do
  if ← s.warns then
    let s ← s.alertFork
    s.setFork
  else .ok s.clearForks

/-- `CheckForkWarningConditions`. -/
def checkForkWarningConditions : Check WarningState :=
  if s.isInitialBlockDownload rules now then .ok s
  else
    let s := { s with warnings := { s.warnings with latchToFalse := true } }
    s.dropOldFork.warnIfNeeded

/-! ## The callers -/

/-- The inner loop of `CheckForkWarningConditionsOnNewFork`. -/
def lowerTo (height : Int) : BlockIndex → BlockIndex
  | [] => []
  | b :: p => if nHeight (b :: p) > height then lowerTo height p else b :: p

/-- The outer loop: where the new fork leaves the active chain. -/
def forkBase : (pfork plonger : BlockIndex) → BlockIndex
  | [], _ => []
  | b :: p, plonger =>
    if b :: p = plonger then b :: p
    else
      let plonger := lowerTo (nHeight (b :: p)) plonger
      if b :: p = plonger then b :: p else forkBase p plonger

/-- Whether the new fork is the one to remember: the highest one of seven
blocks or more near the tip. -/
def recordsFork : Bool :=
  let pfork := forkBase pindexNewForkTip s.chainActive
  !pfork.isEmpty &&
    (s.warnings.pindexBestForkTip.isEmpty ||
      nHeight pindexNewForkTip > nHeight s.warnings.pindexBestForkTip) &&
    (nChainWork pindexNewForkTip + 2 ^ 256 - nChainWork pfork) % 2 ^ 256 >
      (proofOf pfork * 7) % 2 ^ 256 &&
    nHeight s.chainActive - nHeight pindexNewForkTip < 72

def recordFork : WarningState :=
  if s.recordsFork pindexNewForkTip then
    { s with warnings := { s.warnings with
      pindexBestForkTip := pindexNewForkTip
      pindexBestForkBase := forkBase pindexNewForkTip s.chainActive } }
  else s

/-- `CheckForkWarningConditionsOnNewFork`. -/
def checkForkWarningConditionsOnNewFork : Check WarningState :=
  (s.recordFork pindexNewForkTip).checkForkWarningConditions rules now

/-- `InvalidChainFound`, with the warnings. -/
def invalidChainFound (pindexNew : BlockIndex) : Check WarningState := do
  follow pindexNew "pindexNew->nChainWork"
  let blocks ← s.blocks.invalidChainFound s.chainActive pindexNew
  { s with blocks }.checkForkWarningConditions rules now

end WarningState

/-- The calls that concern the warnings. An index that is given to one of
them is an entry. -/
inductive WarningStep
  | newFork (pindexNewForkTip : BlockIndex)
  | invalidChain (pindexNew : BlockIndex) (hnew : pindexNew ≠ [])
  | resetFlags (pindex : BlockIndex) (hindex : pindex ≠ [])
  | updateTip (pindexNew : BlockIndex) (hnew : pindexNew ≠ [])
  | check

namespace WarningState

variable (rules : TipRules) (now : Now) (addr : BlockIndex → Nat)

def step (s : WarningState) : WarningStep → Check WarningState
  | .newFork p => s.checkForkWarningConditionsOnNewFork rules now p
  | .invalidChain p _ => s.invalidChainFound rules now p
  | .resetFlags p _ =>
    .ok { s with blocks := s.blocks.resetBlockFailureFlags addr s.chainActive p }
  | .updateTip p _ => .ok { s with chainActive := p }
  | .check => s.checkForkWarningConditions rules now

/-- What a call must not do: remember a fork while no invalid block is known,
or forget the invalid block while a fork is remembered. -/
def KeepsInvalid (s : WarningState) : WarningStep → Prop
  | .newFork p => s.recordsFork p → s.blocks.pindexBestInvalid ≠ []
  | .resetFlags p _ => s.warnings.pindexBestForkTip ≠ [] →
    getAncestor s.blocks.pindexBestInvalid (nHeight p) ≠ p
  | _ => True

/-- A node that has just been started. -/
def Started (s : WarningState) : Prop := s.warnings = {}

/-- The states that such calls reach. -/
inductive Reachable : WarningState → Prop
  | start {s} : Started s → Reachable s
  | step {s s'} (now : Now) (a : WarningStep) : Reachable s → s.KeepsInvalid a →
      s.step rules now addr a = .ok s' → Reachable s'

end WarningState

/-! ## What is known of the pointers -/

theorem follow_ok {p : BlockIndex} {what : String} (h : p ≠ []) : follow p what = .ok () := by
  unfold follow assert
  rw [if_pos (by simpa using h)]

namespace BlockMap

variable {addr : BlockIndex → Nat} {chainActive pindex p : BlockIndex} {s : BlockMap}

theorem noteInvalid_ne_nil (h : p ≠ []) : (s.noteInvalid p).pindexBestInvalid ≠ [] := by
  unfold noteInvalid
  split
  · exact h
  · rename_i hkeep
    intro he
    simp [he] at hkeep

theorem forgetInvalid_of_ne (h : p ≠ s.pindexBestInvalid) : s.forgetInvalid p = s := by
  unfold forgetInvalid
  rw [if_neg h]

theorem readmitCandidate_pindexBestInvalid :
    (s.readmitCandidate addr chainActive p).pindexBestInvalid = s.pindexBestInvalid := by
  unfold readmitCandidate
  split <;> rfl

theorem resetEntry_pindexBestInvalid (addr : BlockIndex → Nat) (chainActive p : BlockIndex)
    (h : getAncestor s.pindexBestInvalid (nHeight pindex) ≠ pindex) :
    (resetEntry addr chainActive pindex s p).pindexBestInvalid = s.pindexBestInvalid := by
  unfold resetEntry
  split
  · rename_i hreset
    simp only [Bool.and_eq_true, beq_iff_eq] at hreset
    have hne : p ≠ s.pindexBestInvalid := by
      rintro rfl
      exact h hreset.2
    rw [forgetInvalid_of_ne, readmitCandidate_pindexBestInvalid]
    · rfl
    · rw [readmitCandidate_pindexBestInvalid]
      exact hne
  · rfl

theorem resetAncestors_pindexBestInvalid :
    (resetAncestors s p).pindexBestInvalid = s.pindexBestInvalid := by
  induction p generalizing s with
  | nil => rfl
  | cons b p ih =>
    unfold resetAncestors
    rw [ih]
    split <;> rfl

/-- The invalid block that is known stays known if it does not descend from
the block that is reset. -/
theorem resetBlockFailureFlags_pindexBestInvalid (addr : BlockIndex → Nat)
    (chainActive : BlockIndex) (h : getAncestor s.pindexBestInvalid (nHeight pindex) ≠ pindex) :
    (s.resetBlockFailureFlags addr chainActive pindex).pindexBestInvalid =
      s.pindexBestInvalid := by
  unfold resetBlockFailureFlags
  rw [resetAncestors_pindexBestInvalid]
  generalize s.mapBlockIndex = l
  induction l generalizing s with
  | nil => rfl
  | cons p l ih =>
    have hp := resetEntry_pindexBestInvalid addr chainActive p h
    rw [List.foldl_cons, ih (by rw [hp]; exact h), hp]

end BlockMap

namespace WarningState

variable {rules : TipRules} {now : Now} {addr : BlockIndex → Nat} {s s' : WarningState}
  {a : WarningStep}

/-- Where a fork is remembered an invalid block is known, and once the
download is over there is a tip. -/
structure PointersKnown (s : WarningState) : Prop where
  invalid : s.warnings.pindexBestForkTip ≠ [] → s.blocks.pindexBestInvalid ≠ []
  tip : s.warnings.latchToFalse = true → s.chainActive ≠ []

theorem PointersKnown.of_started (h : Started s) : s.PointersKnown := by
  unfold Started at h
  constructor <;> simp [h]

/-- The pointers are known in two states that agree on them. -/
theorem PointersKnown.congr (h : s.PointersKnown)
    (htip : s'.warnings.pindexBestForkTip = s.warnings.pindexBestForkTip)
    (hlatch : s'.warnings.latchToFalse = s.warnings.latchToFalse)
    (hinvalid : s'.blocks.pindexBestInvalid = s.blocks.pindexBestInvalid)
    (hchain : s'.chainActive = s.chainActive) : s'.PointersKnown := by
  constructor
  · rw [htip, hinvalid]
    exact h.invalid
  · rw [hlatch, hchain]
    exact h.tip

theorem PointersKnown.dropOldFork (h : s.PointersKnown) : s.dropOldFork.PointersKnown := by
  unfold WarningState.dropOldFork
  split
  · exact ⟨fun hne => absurd rfl hne, h.tip⟩
  · exact h

theorem dropOldFork_chainActive : s.dropOldFork.chainActive = s.chainActive := by
  unfold dropOldFork
  split <;> rfl

/-- The branch is taken only if an invalid block is known. -/
theorem PointersKnown.warns_ok (h : s.PointersKnown) (htip : s.chainActive ≠ []) :
    ∃ fWarn, s.warns = .ok fWarn ∧ (fWarn = true → s.blocks.pindexBestInvalid ≠ []) := by
  unfold WarningState.warns
  split
  · rename_i hfork
    exact ⟨true, rfl, fun _ => h.invalid (by simpa using hfork)⟩
  · split
    · exact ⟨false, rfl, fun hf => by cases hf⟩
    · rename_i hinvalid
      rw [follow_ok htip]
      exact ⟨_, rfl, fun _ => by simpa using hinvalid⟩

theorem alertFork_ok (hinvalid : s.blocks.pindexBestInvalid ≠ []) (htip : s.chainActive ≠ [])
    (h : s.PointersKnown) : ∃ s', s.alertFork = .ok s' ∧ s'.PointersKnown := by
  unfold alertFork
  rw [follow_ok hinvalid, follow_ok htip]
  by_cases hbase : (!s.warnings.fLargeWorkForkFound &&
      !s.warnings.pindexBestForkBase.isEmpty) = true
  · have hne : s.warnings.pindexBestForkBase ≠ [] := by
      simp only [Bool.and_eq_true, Bool.not_eq_true', List.isEmpty_eq_false_iff] at hbase
      exact hbase.2
    rw [follow_ok hne]
    exact ⟨_, if_pos hbase, h.congr rfl rfl rfl rfl⟩
  · exact ⟨_, if_neg hbase, h⟩

theorem setFork_ok (h : s.PointersKnown) : ∃ s', s.setFork = .ok s' ∧ s'.PointersKnown := by
  unfold setFork
  split
  · rename_i hfork
    simp only [Bool.and_eq_true, Bool.not_eq_true', List.isEmpty_eq_false_iff] at hfork
    rw [follow_ok hfork.2, follow_ok hfork.1]
    exact ⟨_, rfl, h.congr rfl rfl rfl rfl⟩
  · exact ⟨_, rfl, h.congr rfl rfl rfl rfl⟩

theorem warnIfNeeded_ok (h : s.PointersKnown) (htip : s.chainActive ≠ []) :
    ∃ s', s.warnIfNeeded = .ok s' ∧ s'.PointersKnown := by
  obtain ⟨fWarn, hwarns, hinvalid⟩ := h.warns_ok htip
  unfold warnIfNeeded
  rw [hwarns]
  cases fWarn with
  | true =>
    obtain ⟨t, halert, ht⟩ := alertFork_ok (hinvalid rfl) htip h
    obtain ⟨u, hset, hu⟩ := setFork_ok ht
    refine ⟨u, ?_, hu⟩
    simp only [bind, Except.bind, if_true, halert, hset]
  | false => exact ⟨_, rfl, h.congr rfl rfl rfl rfl⟩

/-- With the pointers known, the check follows none that is `NULL`. -/
theorem checkForkWarningConditions_ok (h : s.PointersKnown) :
    ∃ s', s.checkForkWarningConditions rules now = .ok s' ∧ s'.PointersKnown := by
  unfold checkForkWarningConditions
  split
  · exact ⟨s, rfl, h⟩
  · rename_i hdone
    have htip : s.chainActive ≠ [] := by
      intro he
      by_cases hl : s.warnings.latchToFalse = true
      · exact h.tip hl he
      · simp [isInitialBlockDownload, hl, he] at hdone
    refine warnIfNeeded_ok (PointersKnown.dropOldFork ⟨h.invalid, fun _ => htip⟩) ?_
    rw [dropOldFork_chainActive]
    exact htip

theorem PointersKnown.recordFork (h : s.PointersKnown) {p : BlockIndex}
    (hp : s.KeepsInvalid (.newFork p)) : (s.recordFork p).PointersKnown := by
  unfold WarningState.recordFork
  split
  · rename_i hrecords
    exact ⟨fun _ => hp hrecords, h.tip⟩
  · exact h

/-- One call keeps the pointers known. The only call that can stop the node
is `InvalidChainFound` on a node without a tip, at its own assertion. -/
theorem PointersKnown.step (rules : TipRules) (now : Now) (addr : BlockIndex → Nat)
    (h : s.PointersKnown) (ha : s.KeepsInvalid a) :
    (∃ s', s.step rules now addr a = .ok s' ∧ s'.PointersKnown) ∨
      (s.chainActive = [] ∧ ∃ p hp, a = .invalidChain p hp) := by
  cases a with
  | newFork p => exact Or.inl (checkForkWarningConditions_ok (h.recordFork ha))
  | invalidChain p hp =>
    by_cases htip : s.chainActive = []
    · exact Or.inr ⟨htip, p, hp, rfl⟩
    · left
      simp only [WarningState.step, WarningState.invalidChainFound, follow_ok hp,
        BlockMap.invalidChainFound]
      have hassert : assert (!s.chainActive.isEmpty) "tip" = .ok () := follow_ok htip
      rw [hassert]
      exact checkForkWarningConditions_ok
        ⟨fun _ => BlockMap.noteInvalid_ne_nil hp, h.tip⟩
  | resetFlags p hp =>
    refine Or.inl ⟨_, rfl, ?_, h.tip⟩
    intro hfork
    have hkept := BlockMap.resetBlockFailureFlags_pindexBestInvalid addr s.chainActive
      (ha hfork)
    simp only [hkept]
    exact h.invalid hfork
  | updateTip p hp => exact Or.inl ⟨_, rfl, h.invalid, fun _ => hp⟩
  | check => exact Or.inl (checkForkWarningConditions_ok h)

theorem Reachable.pointersKnown (h : Reachable rules addr s) : s.PointersKnown := by
  induction h with
  | start hs => exact PointersKnown.of_started hs
  | step now a _ ha hstep ih =>
    rcases ih.step rules now addr ha with ⟨t, ht, hknown⟩ | hempty
    · rw [ht] at hstep
      cases hstep
      exact hknown
    · obtain ⟨htip, p, hp, rfl⟩ := hempty
      simp only [WarningState.step, WarningState.invalidChainFound, follow_ok hp,
        BlockMap.invalidChainFound, htip] at hstep
      cases hstep

end WarningState

/-! ## A branch to look at -/

/-- A header with the lowest difficulty. -/
def easyHeader (nNonce : UInt32) : CBlockHeader :=
  { genesisHeader 0 0 with nBits := 0x207fffff, nNonce }

/-- A branch of eight blocks on the first block. -/
def easyFork : BlockIndex :=
  [easyHeader 9, easyHeader 8, easyHeader 7, easyHeader 6, easyHeader 5, easyHeader 4,
    easyHeader 3, easyHeader 2, easyHeader 0]

/-- A node that has just been started and is at another block. -/
def easyState : WarningState where
  blocks :=
    { mapBlockIndex := easyFork.tails.dropLast
      info := fun _ => { nStatus := { valid := BLOCK_VALID_TRANSACTIONS, failedValid := true } }
      setBlockIndexCandidates := []
      mapBlocksUnlinked := []
      pindexBestInvalid := []
      gFailedBlocks := []
      nBlockReverseSequenceId := -1
      nLastPreciousChainwork := 0 }
  chainActive := [easyHeader 1, easyHeader 0]

/-- A node that takes every tip as recent. -/
def easyRules : TipRules := ⟨fun _ => 0, 0⟩

def easyNow : Now := ⟨false, false, 0⟩

/-- The same node, when it knows that the branch is invalid. -/
def easyInvalidState : WarningState :=
  { easyState with blocks := { easyState.blocks with pindexBestInvalid := easyFork } }

/-! ## No pointer is followed that is `NULL` -/

open WarningState in
/-- In every state that the calls reach, a further one follows only pointers
that are set; what is left is the assertion of `InvalidChainFound` that there
is a tip. -/
theorem fork_warnings_never_follow_null {rules : TipRules} {addr : BlockIndex → Nat}
    {s : WarningState} (hs : Reachable rules addr s) (now : Now) {a : WarningStep}
    (ha : s.KeepsInvalid a) :
    (∃ s', s.step rules now addr a = .ok s') ∨
      (s.chainActive = [] ∧ ∃ p hp, a = .invalidChain p hp) := by
  rcases hs.pointersKnown.step rules now addr ha with ⟨s', hstep, _⟩ | hempty
  · exact Or.inl ⟨s', hstep⟩
  · exact Or.inr hempty

/-- A fork that is remembered while an invalid block is known. -/
theorem known_invalid_fork_is_checked :
    easyInvalidState.recordsFork easyFork = true ∧
      ((∃ s', easyInvalidState.step easyRules easyNow List.length (.newFork easyFork) = .ok s') ∨
        (easyInvalidState.chainActive = [] ∧
          ∃ p hp, WarningStep.newFork easyFork = .invalidChain p hp)) := by
  have hstarted : WarningState.Started easyInvalidState := rfl
  refine ⟨by decide +kernel, ?_⟩
  exact fork_warnings_never_follow_null (.start hstarted) easyNow fun _ => List.cons_ne_nil _ _

/-! ## A run that follows one -/

namespace WarningState

/-- One call after the other. -/
def runSteps (rules : TipRules) (now : Now) (addr : BlockIndex → Nat) :
    List WarningStep → WarningState → Check WarningState
  | [], s => .ok s
  | a :: as, s => do
    let s ← s.step rules now addr a
    runSteps rules now addr as s

end WarningState

/-- `easyFork` is found to be invalid and its branch is remembered, and then
an operator has it reconsidered. -/
def reconsiderFork : List WarningStep :=
  [.invalidChain easyFork (List.cons_ne_nil _ _), .newFork easyFork,
    .resetFlags easyFork (List.cons_ne_nil _ _)]

open WarningState in
/-- The next check follows `pindexBestInvalid`, which is `NULL`. -/
theorem reconsidered_fork_follows_null :
    Started easyState ∧
      failureOf (runSteps easyRules easyNow List.length reconsiderFork easyState) = none ∧
      failureOf (runSteps easyRules easyNow List.length (reconsiderFork ++ [.check]) easyState) =
        some (.crash "pindexBestInvalid->nChainWork") := by
  refine ⟨rfl, ?_, ?_⟩ <;> decide +kernel

end junkcoin
