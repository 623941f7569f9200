-- New headers on top of a block that failed. Only the block that failed is
-- marked, so a header further up is refused because of the flags of its
-- parent or because the scan finds the block in `gFailedBlocks`. What every
-- call has to respect for that to be enough is stated here.
import Junkcoin.FailedBlocks

namespace junkcoin

open BlockStatus NodeState

namespace BlockMap

/-! ## What leads from a header to the block that failed -/

/-- Above a block that is marked every entry is flagged, or the block is in
the set, in which case no entry above it counts as fully checked. -/
structure Traced (env : Env) (chainActive : BlockIndex) (s : BlockMap) : Prop where
  genesis : ∃ p, s.findBlock env.H (hashGenesisBlock env.H env.net) = some p
  parents : s.ParentsKnown
  set : s.FailedMarked
  traced : ∀ x, ∀ q ∈ s.mapBlockIndex, (s.nStatus x).failedValid = true → IsAncestor x q →
    (s.nStatus q).failed = true ∨ x ∈ s.gFailedBlocks
  scripts : ∀ x, ∀ q ∈ s.mapBlockIndex, (s.nStatus x).failedValid = true → IsAncestor x q →
    (s.nStatus q).isValid BLOCK_VALID_SCRIPTS = false
  offChain : ∀ x ∈ s.gFailedBlocks, ¬ x <:+ chainActive

section Traced

variable {env : Env} {addr : BlockIndex → Nat} {chainActive : BlockIndex} {s s' : BlockMap}
  {p q x pindexPrev : BlockIndex} {low chainActive' : BlockIndex} {net : Network} {nTx : Nat}
  {fUndoWritten : Bool} {tip : Option BlockIndex}

/-- The parent is flagged itself, or the scan finds the block. -/
theorem Traced.refuses (addr : BlockIndex → Nat) (h : s.Traced env chainActive)
    (hprev : pindexPrev ∈ s.mapBlockIndex)
    (hx : x ≠ []) (hanc : x <:+ pindexPrev) (hmarked : (s.nStatus x).failedValid = true) :
    (s.nStatus pindexPrev).failed = true ∨ s.findFailedAncestor addr pindexPrev ≠ none := by
  by_cases he : x = pindexPrev
  · subst he
    exact Or.inl (failed_of_failedValid hmarked)
  · have ha : IsAncestor x pindexPrev := ⟨hx, hanc, he⟩
    refine (h.traced x _ hprev hmarked ha).imp_right fun hset hnone => ?_
    unfold findFailedAncestor at hnone
    rw [h.scripts x _ hprev hmarked ha] at hnone
    have hno := List.find?_eq_none.mp hnone x (List.mem_mergeSort.mpr hset)
    simp only [beq_iff_eq, getAncestor_eq_iff hx] at hno
    exact hno hanc

/-- A call that adds no entry. What it marks has no entry above it that was
left without a trace. -/
theorem Traced.step (h : s.Traced env chainActive) (hset : s'.FailedMarked)
    (hmap : s'.mapBlockIndex = s.mapBlockIndex)
    (hgrow : ∀ x ∈ s.gFailedBlocks, x ∈ s'.gFailedBlocks)
    (hflag : ∀ q, (s.nStatus q).failed = true → (s'.nStatus q).failed = true)
    (hnew : ∀ x, ∀ q ∈ s.mapBlockIndex, (s'.nStatus x).failedValid = true →
      (s.nStatus x).failedValid = false → IsAncestor x q →
        ((s'.nStatus q).failed = true ∨ x ∈ s'.gFailedBlocks) ∧
          (s'.nStatus q).isValid BLOCK_VALID_SCRIPTS = false)
    (hscripts : ∀ x, ∀ q ∈ s.mapBlockIndex, (s.nStatus x).failedValid = true → IsAncestor x q →
      (s.nStatus q).isValid BLOCK_VALID_SCRIPTS = false →
        (s'.nStatus q).isValid BLOCK_VALID_SCRIPTS = false)
    (hoff : ∀ x ∈ s'.gFailedBlocks, ¬ x <:+ chainActive') : s'.Traced env chainActive' := by
  constructor
  · unfold findBlock
    rw [hmap]
    exact h.genesis
  · unfold ParentsKnown
    rw [hmap]
    exact h.parents
  · exact hset
  · rw [hmap]
    intro x q hq hx ha
    cases hold : (s.nStatus x).failedValid with
    | true => exact (h.traced x q hq hold ha).imp (hflag q) (hgrow x)
    | false => exact (hnew x q hq hx hold ha).1
  · rw [hmap]
    intro x q hq hx ha
    cases hold : (s.nStatus x).failedValid with
    | true => exact hscripts x q hq hold ha (h.scripts x q hq hold ha)
    | false => exact (hnew x q hq hx hold ha).2
  · exact hoff

/-- A call that marks no block, and raises none to fully checked. -/
theorem Traced.unmarked (h : s.Traced env chainActive) (hmap : s'.mapBlockIndex = s.mapBlockIndex)
    (hset : s'.gFailedBlocks = s.gFailedBlocks)
    (hmark : ∀ q, (s'.nStatus q).failedValid = (s.nStatus q).failedValid)
    (hflag : ∀ q, (s.nStatus q).failed = true → (s'.nStatus q).failed = true)
    (hscripts : ∀ q, (s.nStatus q).isValid BLOCK_VALID_SCRIPTS = false →
      (s'.nStatus q).isValid BLOCK_VALID_SCRIPTS = false) : s'.Traced env chainActive := by
  apply h.step
  · refine h.set.mono hmap hset fun q hm => ?_
    rw [hmark]
    exact hm
  · exact hmap
  · rw [hset]
    exact fun x hx => hx
  · exact hflag
  · intro x q _ hx hold
    rw [hmark, hold] at hx
    cases hx
  · exact fun x q _ _ _ => hscripts q
  · rw [hset]
    exact h.offChain

/-- A header that is added has no ancestor that is marked. -/
theorem Traced.added (h : s.Traced env chainActive) (hprev : pindexPrev ∈ s.mapBlockIndex)
    (hvalid : (s.nStatus pindexPrev).failed = false)
    (hscan : s.findFailedAncestor addr pindexPrev = none) {b : CBlockHeader}
    (ha : HeaderAdded s s' (b :: pindexPrev)) : s'.Traced env chainActive := by
  have hclean : ∀ x, x ≠ [] → x <:+ pindexPrev → (s.nStatus x).failedValid = false := by
    intro x hx hsuf
    by_contra hm
    rcases h.refuses addr hprev hx hsuf (by simpa using hm) with hf | hf
    · rw [hvalid] at hf
      cases hf
    · exact hf hscan
  -- an ancestor of an old entry is an old entry, and keeps its status
  have hold : ∀ x, ∀ q ∈ s'.mapBlockIndex, (s'.nStatus x).failedValid = true → IsAncestor x q →
      q ∈ s.mapBlockIndex ∧ (s.nStatus x).failedValid = true := by
    intro x q hq hx hanc
    rw [ha.map] at hq
    rcases List.mem_cons.mp hq with rfl | hq
    · have hsuf := hanc.suffix_tail
      rw [ha.nStatus (h.parents.mem_of_suffix hprev hanc.1 hsuf), hclean x hanc.1 hsuf] at hx
      cases hx
    · rw [ha.nStatus (h.parents.mem_of_suffix hq hanc.1 hanc.2.1)] at hx
      exact ⟨hq, hx⟩
  constructor
  · obtain ⟨p, hp⟩ := h.genesis
    have hsome : (s'.findBlock env.H (hashGenesisBlock env.H env.net)).isSome := by
      obtain ⟨hmem, hhash⟩ := findBlock_some hp
      unfold findBlock
      rw [List.find?_isSome, ha.map]
      exact ⟨p, List.mem_cons_of_mem _ hmem, by simp [hhash]⟩
    exact Option.isSome_iff_exists.mp hsome
  · intro q hq
    rw [ha.map] at hq ⊢
    rcases List.mem_cons.mp hq with rfl | hq
    · exact ⟨List.cons_ne_nil _ _, fun _ => List.mem_cons_of_mem _ hprev⟩
    · exact ⟨(h.parents q hq).1, fun ht => List.mem_cons_of_mem _ ((h.parents q hq).2 ht)⟩
  · exact h.set.added ha
  · intro x q hq hx hanc
    obtain ⟨hq, hx⟩ := hold x q hq hx hanc
    rw [ha.nStatus hq, ha.failed]
    exact h.traced x q hq hx hanc
  · intro x q hq hx hanc
    obtain ⟨hq, hx⟩ := hold x q hq hx hanc
    rw [ha.nStatus hq]
    exact h.scripts x q hq hx hanc
  · rw [ha.failed]
    exact h.offChain

theorem markFailedChildren_failed (hq : (s.nStatus q).failed = true) :
    ((markFailedChildren low s p).nStatus q).failed = true := by
  unfold nStatus at hq ⊢
  rw [markFailedChildren_info]
  split
  · simp [markChild, failed]
  · exact hq

theorem markFailedChildren_isValid {n : Nat} (hq : (s.nStatus q).isValid n = false) :
    ((markFailedChildren low s p).nStatus q).isValid n = false := by
  unfold nStatus at hq ⊢
  rw [markFailedChildren_info]
  split
  · simp [markChild, isValid, failed]
  · exact hq

theorem Traced.header {block : CBlockHeader} {r : Except Failure BlockIndex}
    (h : s.Traced env chainActive) (ho : HeaderOutcome env addr s block s' r) :
    s'.Traced env chainActive := by
  cases ho with
  | refused => exact h
  | known => exact h
  | genesis hhash hfind =>
    obtain ⟨p, hp⟩ := h.genesis
    rw [← hhash, hfind] at hp
    cases hp
  | added _ hprev hvalid hscan hadded => exact h.added (findBlock_some hprev).1 hvalid hscan hadded
  | marked =>
    exact h.unmarked markFailedChildren_mapBlockIndex markFailedChildren_gFailedBlocks
      (fun q => markFailedChildren_failedValid) (fun q => markFailedChildren_failed)
      fun q => markFailedChildren_isValid

/-- `AcceptBlock` marks a block without adding it to the set, so all that is
above it has to be flagged before. -/
theorem Traced.markIfInvalid {e : Failure} (h : s.Traced env chainActive)
    (habove : ∀ dos reason, e = .invalid dos reason false →
      ∀ q ∈ s.mapBlockIndex, IsAncestor p q → (s.nStatus q).failed = true) :
    (s.markIfInvalid p e).Traced env chainActive := by
  have hset := h.set.markIfInvalid (p := p) e
  unfold BlockMap.markIfInvalid at hset ⊢
  split
  · rename_i dos reason
    have hflag : ∀ q, (s.nStatus q).failed = true →
        ((s.setStatus p fun st => { st with failedValid := true }).nStatus q).failed = true := by
      intro q hq
      rw [setStatus_nStatus]
      split
      · simp [failed]
      · exact hq
    apply h.step hset rfl (fun x hx => hx) hflag
    · intro x q hq hx hold hanc
      have hxp : x = p := by
        by_contra hxp
        rw [setStatus_nStatus, if_neg hxp, hold] at hx
        cases hx
      subst hxp
      have hf := hflag q (habove dos reason rfl q hq hanc)
      exact ⟨Or.inl hf, not_isValid_of_failed hf⟩
    · intro x q _ _ _ hq
      rw [setStatus_nStatus]
      split
      · simp [isValid, failed]
      · exact hq
    · exact h.offChain
  · exact h

theorem stored_failed : ((s.stored net nTx p).nStatus q).failed = (s.nStatus q).failed := by
  rw [stored_nStatus]
  split
  · exact raiseValidity_failed
  · rfl

theorem stored_isValid_scripts (hq : (s.nStatus q).isValid BLOCK_VALID_SCRIPTS = false) :
    ((s.stored net nTx p).nStatus q).isValid BLOCK_VALID_SCRIPTS = false := by
  by_contra hv
  simp only [isValid, stored_failed, Bool.not_eq_false, Bool.and_eq_true,
    Bool.not_eq_true', decide_eq_true_eq] at hv
  have hlevel : BLOCK_VALID_SCRIPTS ≤ (s.nStatus q).valid := by
    have hlevel := hv.2
    rw [stored_nStatus] at hlevel
    split at hlevel
    · have hold := valid_of_raiseValidity hlevel (by decide)
      exact hold
    · exact hlevel
  simp [isValid, hv.1, hlevel] at hq

theorem Traced.received (h : s.Traced env chainActive) :
    (s.receivedBlockTransactions net addr chainActive nTx p).Traced env chainActive := by
  apply h.unmarked
  · exact receivedBlockTransactions_keeps mapBlockIndex (fun _ _ _ => rfl)
      (fun _ _ => rfl) (fun _ _ => rfl) fun _ _ => rfl
  · exact receivedBlockTransactions_keeps gFailedBlocks (fun _ _ _ => rfl)
      (fun _ _ => rfl) (fun _ _ => rfl) fun _ _ => rfl
  · intro q
    rw [receivedBlockTransactions_nStatus, stored_failedValid]
  · intro q hq
    rw [receivedBlockTransactions_nStatus, stored_failed]
    exact hq
  · intro q hq
    rw [receivedBlockTransactions_nStatus]
    exact stored_isValid_scripts hq

/-- A block that could not be connected enters the set. -/
theorem Traced.found (h : s.Traced env p.tail) (hp : p ∈ s.mapBlockIndex)
    (habove : ∀ q ∈ s.mapBlockIndex, IsAncestor p q →
      (s.nStatus q).isValid BLOCK_VALID_SCRIPTS = false)
    (hi : InvalidBlockFound s s' p) : s'.Traced env p.tail := by
  have hstatus : ∀ q, q ≠ p → s'.nStatus q = s.nStatus q := by
    intro q hq
    unfold nStatus
    rw [hi.info, if_neg hq]
  have hself : (s'.nStatus p).failedValid = true := by
    unfold nStatus
    rw [hi.info, if_pos rfl]
    rfl
  apply h.step (h.set.found hp hi) hi.map
  · exact fun x hx => (hi.failed x).mpr (Or.inr hx)
  · intro q hq
    by_cases hqp : q = p
    · subst hqp
      exact failed_of_failedValid hself
    · rw [hstatus q hqp]
      exact hq
  · intro x q hq hx hold hanc
    have hxp : x = p := by
      by_contra hxp
      rw [hstatus x hxp, hold] at hx
      cases hx
    subst hxp
    refine ⟨Or.inr ((hi.failed x).mpr (Or.inl rfl)), ?_⟩
    rw [hstatus q (Ne.symm hanc.2.2)]
    exact habove q hq hanc
  · intro x q _ _ _ hq
    by_cases hqp : q = p
    · subst hqp
      exact not_isValid_of_failed (failed_of_failedValid hself)
    · rw [hstatus q hqp]
      exact hq
  · intro x hx
    rcases (hi.failed x).mp hx with rfl | hx
    · exact not_suffix_tail (h.parents x hp).1
    · exact h.offChain x hx

theorem blockConnected_failed :
    ((s.blockConnected p fUndoWritten).nStatus q).failed = (s.nStatus q).failed := by
  unfold blockConnected
  split
  · rw [setStatus_nStatus]
    split
    · exact raiseValidity_failed
    · rfl
  · rfl

theorem blockConnected_nStatus (hq : q ≠ p) :
    (s.blockConnected p fUndoWritten).nStatus q = s.nStatus q := by
  unfold blockConnected
  split
  · rw [setStatus_nStatus, if_neg hq]
  · rfl

/-- The chain grows by one block that is not flagged. -/
theorem Traced.extended (h : s.Traced env p.tail) (hvalid : (s.nStatus p).failed = false) :
    s.Traced env p := by
  refine { h with offChain := fun x hx hsuf => ?_ }
  have hmarked := h.set.marked x hx
  by_cases hxp : x = p
  · subst hxp
    rw [failed_of_failedValid hmarked] at hvalid
    cases hvalid
  · have hne := (h.parents x (h.set.mem x hx)).1
    exact h.offChain x hx (IsAncestor.suffix_tail ⟨hne, hsuf, hxp⟩)

/-- A block that was connected has no ancestor that is marked: it would be in
the set, and so not on the chain. -/
theorem Traced.blockConnected (h : s.Traced env p) (hvalid : (s.nStatus p).failed = false) :
    (s.blockConnected p fUndoWritten).Traced env p := by
  have hset : (s.blockConnected p fUndoWritten).gFailedBlocks = s.gFailedBlocks := by
    unfold BlockMap.blockConnected
    split <;> rfl
  apply h.step (h.set.blockConnected fUndoWritten)
  · unfold BlockMap.blockConnected
    split <;> rfl
  · rw [hset]
    exact fun x hx => hx
  · intro q hq
    rw [blockConnected_failed]
    exact hq
  · intro x q _ hx hold
    rw [blockConnected_failedValid, hold] at hx
    cases hx
  · intro x q hq hx hanc hlow
    by_cases hqp : q = p
    · subst hqp
      rcases h.traced x q hq hx hanc with hf | hf
      · rw [hvalid] at hf
        cases hf
      · exact absurd hanc.2.1 (h.offChain x hf)
    · rw [blockConnected_nStatus hqp]
      exact hlow
  · rw [hset]
    exact h.offChain

theorem invalidated_failed {i : BlockInfo} :
    (invalidated p tip q i).nStatus.failed =
      (decide (q = p) || decide (q ∈ disconnected p tip) || i.nStatus.failed) := by
  by_cases hq : q = p <;> by_cases hd : q ∈ disconnected p tip <;>
    simp [invalidated, hq, hd, markFailed, markChild, failed]

theorem invalidated_valid {i : BlockInfo} :
    (invalidated p tip q i).nStatus.valid = i.nStatus.valid := by
  unfold invalidated markFailed markChild
  split <;> split <;> rfl

theorem mem_disconnected (hp : p ≠ []) (hq : q <:+ chainActive) (hanc : IsAncestor p q) :
    q ∈ disconnected p (if contains chainActive p then some chainActive else none) := by
  have hpc : p <:+ chainActive := hanc.2.1.trans hq
  rw [if_pos (contains_iff.mpr ⟨hp, hpc⟩)]
  exact (mem_pathAbove hpc).mpr ⟨hq, hanc.2.1, Ne.symm hanc.2.2⟩

/-- `InvalidateBlock` flags what it disconnects, and nothing else above the
block. -/
theorem Traced.invalidated (h : s.Traced env chainActive) (hp : p ∈ s.mapBlockIndex)
    (hshort : chainActive' <:+ chainActive) (hgone : contains chainActive' p = false)
    (habove : ∀ q ∈ s.mapBlockIndex, IsAncestor p q →
      (s.nStatus q).isValid BLOCK_VALID_SCRIPTS = true → q <:+ chainActive)
    (hi : Invalidated addr chainActive' s s' p
      (if contains chainActive p then some chainActive else none)) :
    s'.Traced env chainActive' := by
  have hne : p ≠ [] := (h.parents p hp).1
  have hset := h.set.invalidated hp hi
  have hmarked : ∀ x, (s'.nStatus x).failedValid =
      (decide (x = p) || (s.nStatus x).failedValid) := by
    intro x
    unfold nStatus
    rw [hi.info, invalidated_failedValid]
  have hflag : ∀ q, (s.nStatus q).failed = true → (s'.nStatus q).failed = true := by
    intro q hq
    unfold nStatus at hq ⊢
    rw [hi.info, invalidated_failed, hq, Bool.or_true]
  have hlower : ∀ q, (s.nStatus q).isValid BLOCK_VALID_SCRIPTS = false →
      (s'.nStatus q).isValid BLOCK_VALID_SCRIPTS = false := by
    intro q hq
    have hlevel : (s'.nStatus q).valid = (s.nStatus q).valid := by
      unfold nStatus
      rw [hi.info, invalidated_valid]
    cases hf : (s.nStatus q).failed with
    | true => exact not_isValid_of_failed (hflag q hf)
    | false =>
      simp only [isValid, hf, Bool.not_false, Bool.true_and] at hq
      simp only [isValid, hlevel, hq, Bool.and_false]
  -- a block that is marked is not put back
  have hkeep : ∀ x, (s'.nStatus x).failedValid = true → ¬ Restorable addr chainActive' s' x := by
    intro x hx hr
    have husable := hr.1
    unfold isUsable at husable
    rw [not_isValid_of_failed (failed_of_failedValid hx)] at husable
    cases husable
  apply h.step hset hi.map
  · intro x hx
    have hx' : (s'.nStatus x).failedValid = true := by
      rw [hmarked, h.set.marked x hx, Bool.or_true]
    exact (hi.failed x).mpr ⟨Or.inr hx, fun hr => hkeep x hx' hr.2⟩
  · exact hflag
  · intro x q hq hx hold hanc
    have hxp : x = p := by
      by_contra hxp
      rw [hmarked, hold] at hx
      simp [hxp] at hx
    subst hxp
    refine ⟨Or.inr ((hi.failed x).mpr ⟨Or.inl rfl, fun hr => hkeep x hx hr.2⟩), ?_⟩
    cases hv : (s.nStatus q).isValid BLOCK_VALID_SCRIPTS with
    | false => exact hlower q hv
    | true =>
      have hd := mem_disconnected hne (habove q hq hanc hv) hanc
      apply not_isValid_of_failed
      unfold nStatus
      rw [hi.info, invalidated_failed]
      simp [hd]
  · exact fun x q _ _ _ => hlower q
  · intro x hx hsuf
    rcases ((hi.failed x).mp hx).1 with rfl | hx
    · rw [Bool.eq_false_iff] at hgone
      exact hgone (contains_iff.mpr ⟨hne, hsuf⟩)
    · exact h.offChain x hx (hsuf.trans hshort)

end Traced

end BlockMap

/-! ## Over a run -/

namespace NodeState

/-- The calls of a run without restart, that clear no flags. -/
def NoReset : FailureCall → Prop
  | .resetBlockFailureFlags _ => False
  | _ => True

/-- When a call leaves a trace. `AcceptBlock` may mark a known block only if
all entries above it are flagged; `ConnectTip` and `InvalidateBlock` may mark
one only if they flag every entry above it that counts as fully checked. -/
def LeavesTrace (node : Node) (s : NodeState) : FailureCall → Prop
  | .acceptBlockHeader _ _ => True
  | .acceptBlock _ block _ =>
    ∀ p, s.blocks.findBlock node.env.H (block.getHash node.env.H) = some p →
      ∀ dos reason, checkBeforeStore node.env block p.tail = .error (.invalid dos reason false) →
        ∀ q ∈ s.blocks.mapBlockIndex, IsAncestor p q → (s.blocks.nStatus q).failed = true
  | .connectTip p pblock => (s.blocks.nStatus p).failed = false ∧
    ∀ s' dos reason, s.connectTip node p pblock = .ok (s', some (.invalid dos reason false)) →
      ∀ q ∈ s.blocks.mapBlockIndex, IsAncestor p q →
        (s.blocks.nStatus q).isValid BLOCK_VALID_SCRIPTS = false
  | .invalidateBlock p => ∀ q ∈ s.blocks.mapBlockIndex, IsAncestor p q →
    (s.blocks.nStatus q).isValid BLOCK_VALID_SCRIPTS = true → q <:+ s.chain.chainActive
  | .resetBlockFailureFlags _ => False

/-- A node whose index was loaded: genesis is known, every entry above a
marked block is flagged, and the set is empty. -/
structure Loaded (env : Env) (s : NodeState) : Prop where
  genesis : ∃ p, s.blocks.findBlock env.H (hashGenesisBlock env.H env.net) = some p
  parents : s.blocks.ParentsKnown
  nothing : s.NothingFailed
  flagged : ∀ x, ∀ q ∈ s.blocks.mapBlockIndex, (s.blocks.nStatus x).failedValid = true →
    IsAncestor x q → (s.blocks.nStatus q).failed = true

variable {node : Node} {s s' : NodeState}

theorem Loaded.traced {env : Env} (h : s.Loaded env) :
    s.blocks.Traced env s.chain.chainActive := by
  have hnil : s.blocks.gFailedBlocks = [] := h.nothing
  refine ⟨h.genesis, h.parents, ?_, ?_, ?_, ?_⟩
  · constructor <;> simp [hnil]
  · exact fun x q hq hx ha => Or.inl (h.flagged x q hq hx ha)
  · exact fun x q hq hx ha => BlockMap.not_isValid_of_failed (h.flagged x q hq hx ha)
  · simp [hnil]

/-- Above a header that was just added there is nothing. -/
theorem LeavesTrace.above {t : Int} {block : CBlock} {fRequested : Bool} {blocks : BlockMap}
    {p : BlockIndex} {e : Failure} (h : s.blocks.Traced node.env s.chain.chainActive)
    (hc : s.LeavesTrace node (.acceptBlock t block fRequested))
    (ho : BlockMap.HeaderOutcome node.env node.addr s.blocks block.toCBlockHeader blocks (.ok p))
    (he : checkBeforeStore node.env block p.tail = .error e) {dos : Nat} {reason : String}
    (hinv : e = .invalid dos reason false) :
    ∀ q ∈ blocks.mapBlockIndex, IsAncestor p q → (blocks.nStatus q).failed = true := by
  subst hinv
  cases ho with
  | known hfind _ => exact hc p hfind dos reason he
  | genesis hhash hfind =>
    obtain ⟨g, hg⟩ := h.genesis
    rw [← hhash, hfind] at hg
    cases hg
  | added _ _ _ _ hadded =>
    intro q hq hanc
    rw [hadded.map] at hq
    rcases List.mem_cons.mp hq with he | hq
    · exact absurd he.symm hanc.2.2
    · exact absurd (h.parents.mem_of_suffix hq hanc.1 hanc.2.1) hadded.fresh

theorem traced_call {c : FailureCall} (h : s.blocks.Traced node.env s.chain.chainActive)
    (hp : c.PointsInto s.blocks) (hc : s.LeavesTrace node c)
    (ho : s.failureCall node c = .ok s') : s'.blocks.Traced node.env s'.chain.chainActive := by
  cases c with
  | acceptBlockHeader t block =>
    obtain ⟨⟨blocks, r⟩, hr, ho⟩ := bind_ok ho
    cases ho
    exact h.header (BlockMap.acceptBlockHeader_outcome hr)
  | acceptBlock t block fRequested =>
    obtain ⟨⟨s1, r⟩, hr, ho⟩ := bind_ok ho
    cases ho
    cases acceptBlock_outcome hr with
    | header hheader hchain =>
      rw [hchain]
      exact h.header hheader
    | checked hheader hcheck hblocks hchain =>
      rw [hchain, hblocks]
      apply (h.header hheader).markIfInvalid
      exact fun dos reason hinv => hc.above h hheader hcheck hinv
    | stored hheader _ _ hblocks hchain =>
      rw [hchain, hblocks]
      exact (h.header hheader).received
  | connectTip p pblock =>
    obtain ⟨⟨s1, r⟩, hr, ho⟩ := bind_ok ho
    cases ho
    obtain ⟨htail, hout⟩ := connectTip_outcome hr
    have h' := h
    rw [← htail] at h'
    cases hout with
    | unchanged _ hblocks hchain =>
      rw [hblocks, hchain]
      exact h
    | rejected dos reason hblocks hchain =>
      rw [hchain, ← htail]
      exact h'.found hp.1 (hc.2 s' dos reason hr) (BlockMap.invalidBlockFound_ok hblocks)
    | connected hblocks hchain =>
      rw [hchain]
      have hext := h'.extended hc.1
      rcases hblocks with hblocks | ⟨fUndo, hblocks⟩
      · rw [hblocks]
        exact hext
      · rw [hblocks]
        exact hext.blockConnected hc.1
  | invalidateBlock p =>
    obtain ⟨⟨s1, ok⟩, hr, ho⟩ := bind_ok ho
    cases ho
    obtain ⟨hshort, hout⟩ := invalidateBlock_outcome hr
    rcases hout with hblocks | ⟨hgone, hi⟩
    · rw [hblocks]
      exact { h with offChain := fun x hx hsuf => h.offChain x hx (hsuf.trans hshort) }
    · exact h.invalidated hp.1 hshort hgone hc hi
  | resetBlockFailureFlags p => exact hc.elim

end NodeState

theorem FailureRun.traced {node : Node} {s : NodeState}
    (h : FailureRun node (Loaded node.env) (LeavesTrace node) s) :
    s.blocks.Traced node.env s.chain.chainActive := by
  induction h with
  | start hs => exact hs.traced
  | call c _ hp hc ho ih => exact traced_call ih hp hc ho

/-- In every run whose calls leave a trace, `AcceptBlockHeader` returns false
for a new header that has a marked ancestor, however far below it is. The
scan of the set never stops the node; a header may do so in its own checks. -/
theorem headers_above_failed_block_are_refused {node : Node} {s : NodeState}
    (h : FailureRun node (Loaded node.env) (LeavesTrace node) s)
    (nAdjustedTime : Int) (block : CBlockHeader) {pindexPrev x : BlockIndex}
    (hnew : s.blocks.findBlock node.env.H (block.getHash node.env.H) = none)
    (hprev : s.blocks.findBlock node.env.H block.hashPrevBlock = some pindexPrev)
    (hx : x ≠ []) (hanc : x <:+ pindexPrev) (hmarked : (s.blocks.nStatus x).failedValid = true) :
    (∃ blocks e, s.blocks.acceptBlockHeader node.env node.addr nAdjustedTime block =
      .ok (blocks, .error e)) ∨
    ∃ what, s.blocks.checkNewHeader node.env nAdjustedTime block = .error (.crash what) := by
  have ht := h.traced
  have hgenesis : block.getHash node.env.H ≠ hashGenesisBlock node.env.H node.env.net := by
    intro hhash
    obtain ⟨p, hp⟩ := ht.genesis
    rw [← hhash, hnew] at hp
    cases hp
  have hrefuses := ht.refuses node.addr (BlockMap.findBlock_some hprev).1 hx hanc hmarked
  unfold BlockMap.acceptBlockHeader
  simp only [beq_iff_eq, if_neg hgenesis, hnew]
  cases hcheck : s.blocks.checkNewHeader node.env nAdjustedTime block with
  | error e =>
    cases e with
    | crash what => exact Or.inr ⟨what, rfl⟩
    | invalid _ _ _ => exact Or.inl ⟨_, _, rfl⟩
    | error _ => exact Or.inl ⟨_, _, rfl⟩
  | ok parent =>
    obtain ⟨hfound, hvalid⟩ := BlockMap.checkNewHeader_ok hcheck
    obtain rfl : pindexPrev = parent := by
      rw [hprev] at hfound
      exact Option.some.inj hfound
    have hscan : s.blocks.findFailedAncestor node.addr pindexPrev ≠ none := by
      rcases hrefuses with hf | hf
      · rw [hvalid] at hf
        cases hf
      · exact hf
    obtain ⟨failedit, hfailedit⟩ := Option.ne_none_iff_exists'.mp hscan
    refine Or.inl ⟨BlockMap.markFailedChildren failedit s.blocks pindexPrev,
      .invalid 100 "bad-prevblk" false, ?_⟩
    refine bind_ok_iff.mpr ⟨.ok pindexPrev, rfl, ?_⟩
    simp only [hfailedit]
    exact bind_ok_iff.mpr ⟨(), assert_ok.mpr (ht.set.scanned hfailedit), rfl⟩

/-! ## A header above a block that `AcceptBlock` refused -/

/-- A header on top of some others, at the height after theirs. -/
def regtestHeader (pprev : BlockIndex) : BlockIndex :=
  (regtestBlock pprev []).toCBlockHeader :: pprev

/-- The entry of a block without an output, which `CheckBlock` refuses. -/
def noOutputEntry : BlockIndex := (regtestNext []).toCBlockHeader :: regtestTip

theorem regtestState_loaded : regtestState.Loaded regtestNode.env where
  genesis := Option.isSome_iff_exists.mp (by decide +kernel)
  parents := by decide +kernel
  nothing := rfl
  flagged := fun _ _ _ hx => nomatch hx

/-- A run goes on with a call whose result passes a test. -/
theorem FailureRun.of_okWith {node : Node} {Start : NodeState → Prop}
    {Meets : NodeState → FailureCall → Prop} {s : NodeState} {c : FailureCall}
    {test : NodeState → Bool} (h : FailureRun node Start Meets s)
    (hok : okWith (s.failureCall node c) test = true) (hp : c.PointsInto s.blocks)
    (hc : Meets s c) :
    ∃ s', FailureRun node Start Meets s' ∧ test s' = true := by
  obtain ⟨s', hs', htest⟩ := junkcoin.of_okWith hok
  exact ⟨s', h.call c hp hc hs', htest⟩

/-- What `test` finds after a header for the refused block and one on top. -/
def afterTwoHeaders (test : NodeState → Bool) : Bool :=
  okWith (regtestState.failureCall regtestNode
      (.acceptBlockHeader 1369199888 (regtestNext []).toCBlockHeader)) fun s1 =>
    okWith (s1.failureCall regtestNode
      (.acceptBlockHeader 1369199888 (regtestBlock noOutputEntry []).toCBlockHeader)) test

theorem run_of_afterTwoHeaders (Meets : NodeState → FailureCall → Prop)
    (hmeets : ∀ s t block, Meets s (.acceptBlockHeader t block)) {test : NodeState → Bool}
    (hok : afterTwoHeaders test = true) :
    ∃ s, FailureRun regtestNode (Loaded regtestNode.env) Meets s ∧ test s = true := by
  obtain ⟨s1, hrun1, hok⟩ := (FailureRun.start regtestState_loaded).of_okWith hok trivial
    (hmeets _ _ _)
  exact hrun1.of_okWith hok trivial (hmeets _ _ _)

/-- The two headers are known, and a third one on top of them is not. -/
def NodeState.AwaitsThird (s : NodeState) : Prop :=
  s.blocks.findBlock regtestNode.env.H
      (blockHash regtestNode.env.H (regtestHeader (regtestHeader noOutputEntry))) = none ∧
    s.blocks.findBlock regtestNode.env.H (blockHash regtestNode.env.H
      (regtestHeader noOutputEntry)) = some (regtestHeader noOutputEntry)

instance (s : NodeState) : Decidable s.AwaitsThird := inferInstanceAs (Decidable (_ ∧ _))

/-- A header below, a header on top of it, and then the lower block is marked
by `InvalidateBlock`: a third header is refused. -/
theorem header_above_invalidated_block_is_refused :
    ∃ s, FailureRun regtestNode (Loaded regtestNode.env)
        (LeavesTrace regtestNode) s ∧
      ((∃ blocks e, s.blocks.acceptBlockHeader regtestNode.env regtestNode.addr 1369199888
        (regtestBlock (regtestHeader noOutputEntry) []).toCBlockHeader =
          .ok (blocks, .error e)) ∨
      ∃ what, s.blocks.checkNewHeader regtestNode.env 1369199888
        (regtestBlock (regtestHeader noOutputEntry) []).toCBlockHeader = .error (.crash what)) := by
  have hok : afterTwoHeaders (fun s2 =>
      decide (noOutputEntry ∈ s2.blocks.mapBlockIndex) &&
      decide (∀ q ∈ s2.blocks.mapBlockIndex,
        (s2.blocks.nStatus q).isValid BLOCK_VALID_SCRIPTS = true → q <:+ s2.chain.chainActive) &&
      okWith (s2.failureCall regtestNode (.invalidateBlock noOutputEntry)) fun s3 =>
        decide s3.AwaitsThird && (s3.blocks.nStatus noOutputEntry).failedValid) = true := by
    decide +kernel
  obtain ⟨s2, hrun2, hok⟩ := run_of_afterTwoHeaders (LeavesTrace regtestNode)
    (fun _ _ _ => trivial) hok
  simp only [Bool.and_eq_true, decide_eq_true_eq] at hok
  obtain ⟨⟨hmem, habove⟩, hok⟩ := hok
  obtain ⟨s3, hrun3, hok⟩ := hrun2.of_okWith hok ⟨hmem, List.cons_ne_nil _ _⟩
    fun q hq _ hv => habove q hq hv
  simp only [Bool.and_eq_true, decide_eq_true_eq] at hok
  obtain ⟨⟨hnew, hprev⟩, hmarked⟩ := hok
  have hne : noOutputEntry ≠ [] := List.cons_ne_nil _ _
  have hanc : noOutputEntry <:+ regtestHeader noOutputEntry := List.suffix_cons _ _
  exact ⟨s3, hrun3, headers_above_failed_block_are_refused hrun3 1369199888 _ hnew hprev hne hanc
    hmarked⟩

/-- The header of a block was known, and so was one on top of it, when the
block came and was refused. Another header on top is accepted. -/
theorem header_above_refused_block_is_accepted :
    ∃ s, FailureRun regtestNode (Loaded regtestNode.env)
        (fun _ c => NoReset c) s ∧
      (s.blocks.nStatus noOutputEntry).failedValid = true ∧
      s.blocks.findBlock regtestNode.env.H
        (blockHash regtestNode.env.H (regtestHeader (regtestHeader noOutputEntry))) = none ∧
      s.blocks.findBlock regtestNode.env.H (blockHash regtestNode.env.H
        (regtestHeader noOutputEntry)) = some (regtestHeader noOutputEntry) ∧
      ∃ blocks, s.blocks.acceptBlockHeader regtestNode.env regtestNode.addr 1369199888
        (regtestBlock (regtestHeader noOutputEntry) []).toCBlockHeader =
          .ok (blocks, .ok (regtestHeader (regtestHeader noOutputEntry))) := by
  have hok : afterTwoHeaders (fun s2 =>
      okWith (s2.failureCall regtestNode
          (.acceptBlock 1369199888 (regtestNext []) true)) fun s3 =>
        (s3.blocks.nStatus noOutputEntry).failedValid && decide s3.AwaitsThird &&
        okWith (s3.blocks.acceptBlockHeader regtestNode.env regtestNode.addr 1369199888
          (regtestBlock (regtestHeader noOutputEntry) []).toCBlockHeader) fun r =>
            okWith r.2 fun p =>
              decide (p = regtestHeader (regtestHeader noOutputEntry))) = true := by
    decide +kernel
  obtain ⟨s2, hrun2, hok⟩ := run_of_afterTwoHeaders (fun _ c => NoReset c)
    (fun _ _ _ => trivial) hok
  obtain ⟨s3, hrun3, hok⟩ := hrun2.of_okWith hok trivial trivial
  simp only [Bool.and_eq_true, decide_eq_true_eq] at hok
  obtain ⟨⟨hmarked, hnew, hprev⟩, hok⟩ := hok
  obtain ⟨⟨blocks, r⟩, haccept, hr⟩ := junkcoin.of_okWith hok
  obtain ⟨p, hp, he⟩ := junkcoin.of_okWith hr
  simp only [decide_eq_true_eq] at he
  subst he
  subst hp
  exact ⟨s3, hrun3, hmarked, hnew, hprev, blocks, haccept⟩

end junkcoin
