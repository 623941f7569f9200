-- What the functions on the block index do to each entry, stated once for
-- the invariants that follow: the fields of an entry, the candidates, the
-- blocks that wait for a parent and the blocks that failed.
import Junkcoin.AcceptBlock

namespace junkcoin

open BlockStatus

/-! ## Ancestors -/

/-- An ancestor of `q`, and not `q` itself. -/
def IsAncestor (x q : BlockIndex) : Prop := x ≠ [] ∧ x <:+ q ∧ x ≠ q

theorem not_suffix_tail {p : BlockIndex} (hp : p ≠ []) : ¬ p <:+ p.tail := by
  intro h
  have hlen := h.length_le
  have hpos := List.length_pos_iff.mpr hp
  rw [List.length_tail] at hlen
  omega

theorem IsAncestor.suffix_tail {x p : BlockIndex} (h : IsAncestor x p) : x <:+ p.tail := by
  obtain ⟨hne, hsuf, hother⟩ := h
  cases p with
  | nil => exact absurd (List.suffix_nil.mp hsuf) hne
  | cons b p =>
    rcases List.suffix_cons_iff.mp hsuf with he | hsuf
    · exact absurd he hother
    · exact hsuf

namespace BlockMap

/-- The parent of an entry is in the index too. -/
def ParentsKnown (s : BlockMap) : Prop :=
  ∀ q ∈ s.mapBlockIndex, q ≠ [] ∧ (q.tail ≠ [] → q.tail ∈ s.mapBlockIndex)

instance (s : BlockMap) : Decidable s.ParentsKnown :=
  inferInstanceAs (Decidable (∀ q ∈ s.mapBlockIndex, _))

theorem ParentsKnown.mem_of_suffix {s : BlockMap} {x q : BlockIndex} (h : s.ParentsKnown)
    (hq : q ∈ s.mapBlockIndex) (hx : x ≠ []) (hsuf : x <:+ q) : x ∈ s.mapBlockIndex := by
  induction q with
  | nil => exact absurd rfl (h [] hq).1
  | cons b q ih =>
    rcases List.suffix_cons_iff.mp hsuf with rfl | hsuf
    · exact hq
    · have hne : q ≠ [] := by
        rintro rfl
        exact hx (List.suffix_nil.mp hsuf)
      exact ih ((h _ hq).2 hne) hsuf

theorem failed_of_failedValid {st : BlockStatus} (h : st.failedValid = true) :
    st.failed = true := by
  simp [failed, h]

theorem not_isValid_of_failed {st : BlockStatus} {n : Nat} (h : st.failed = true) :
    st.isValid n = false := by
  simp [isValid, h]

/-! ## A loop over entries -/

section Loops

variable {step : BlockMap → BlockIndex → BlockMap} {s : BlockMap} {l : List BlockIndex}
  {q : BlockIndex}

/-- What one turn keeps, the loop keeps. -/
theorem foldl_keeps {α : Type} (field : BlockMap → α)
    (hstep : ∀ s p, field (step s p) = field s) : field (l.foldl step s) = field s := by
  induction l generalizing s with
  | nil => rfl
  | cons p l ih => rw [List.foldl_cons, ih, hstep]

/-- A turn that changes its own entry, in a way that a second turn would not
change further. -/
theorem foldl_info {g : BlockInfo → BlockInfo} (hg : ∀ i, g (g i) = g i)
    (hstep : ∀ s p q, (step s p).info q = if q = p then g (s.info q) else s.info q) :
    (l.foldl step s).info q = if q ∈ l then g (s.info q) else s.info q := by
  induction l generalizing s with
  | nil => simp
  | cons p l ih =>
    rw [List.foldl_cons, ih, hstep]
    by_cases hp : q = p
    · subst hp
      by_cases hl : q ∈ l <;> simp [hl, hg]
    · simp [hp]

theorem foldl_erases (hstep : ∀ s p q, q ∈ (step s p).setBlockIndexCandidates ↔
      q ∈ s.setBlockIndexCandidates ∧ q ≠ p) :
    q ∈ (l.foldl step s).setBlockIndexCandidates ↔ q ∈ s.setBlockIndexCandidates ∧ q ∉ l := by
  induction l generalizing s with
  | nil => simp
  | cons p l ih =>
    rw [List.foldl_cons, ih, hstep, List.mem_cons, not_or, and_assoc]

end Loops

/-! ## Walks down a branch -/

section Walks

variable {s : BlockMap} {low p q : BlockIndex}

/-- `nStatus |= BLOCK_FAILED_CHILD`. -/
def markChild (i : BlockInfo) : BlockInfo :=
  { i with nStatus := { i.nStatus with failedChild := true } }

theorem markDisconnected_eq : markDisconnected low s p =
    (pathAbove low p).foldl (fun s q =>
      (s.setStatus q fun st => { st with failedChild := true }).eraseCandidate q) s := by
  induction p generalizing s with
  | nil => rfl
  | cons b p ih =>
    unfold markDisconnected pathAbove
    split
    · rfl
    · exact ih

theorem markFailedChildren_eq : markFailedChildren low s p =
    (pathAbove low p).foldl (fun s q =>
      s.setStatus q fun st => { st with failedChild := true }) s := by
  induction p generalizing s with
  | nil => rfl
  | cons b p ih =>
    unfold markFailedChildren pathAbove
    split
    · rfl
    · exact ih

theorem markDisconnected_info : (markDisconnected low s p).info q =
    if q ∈ pathAbove low p then markChild (s.info q) else s.info q := by
  rw [markDisconnected_eq]
  exact foldl_info (fun _ => rfl) fun _ _ _ => rfl

theorem markFailedChildren_info : (markFailedChildren low s p).info q =
    if q ∈ pathAbove low p then markChild (s.info q) else s.info q := by
  rw [markFailedChildren_eq]
  exact foldl_info (fun _ => rfl) fun _ _ _ => rfl

theorem mem_markDisconnected : q ∈ (markDisconnected low s p).setBlockIndexCandidates ↔
    q ∈ s.setBlockIndexCandidates ∧ q ∉ pathAbove low p := by
  rw [markDisconnected_eq]
  exact foldl_erases fun _ _ _ => mem_eraseCandidate

/-- The fields that the walks of `InvalidateBlock` and `AcceptBlockHeader`
leave alone. -/
theorem markDisconnected_keeps {α : Type} (field : BlockMap → α)
    (hstatus : ∀ s p f, field (s.setStatus p f) = field s)
    (herase : ∀ s p, field (s.eraseCandidate p) = field s) :
    field (markDisconnected low s p) = field s := by
  rw [markDisconnected_eq]
  exact foldl_keeps field fun s p => (herase _ p).trans (hstatus s p _)

theorem markFailedChildren_keeps {α : Type} (field : BlockMap → α)
    (hstatus : ∀ s p f, field (s.setStatus p f) = field s) :
    field (markFailedChildren low s p) = field s := by
  rw [markFailedChildren_eq]
  exact foldl_keeps field fun s p => hstatus s p _

end Walks

/-! ## `InvalidateBlock` and `InvalidBlockFound` -/

section Invalidate

variable {addr : BlockIndex → Nat} {s s' : BlockMap} {chainActive p q : BlockIndex}
  {l : List BlockIndex}

@[simp] theorem noteInvalid_info : (s.noteInvalid p).info = s.info := by
  unfold noteInvalid
  split <;> rfl

@[simp] theorem noteInvalid_mapBlockIndex : (s.noteInvalid p).mapBlockIndex = s.mapBlockIndex := by
  unfold noteInvalid
  split <;> rfl

@[simp] theorem noteInvalid_candidates :
    (s.noteInvalid p).setBlockIndexCandidates = s.setBlockIndexCandidates := by
  unfold noteInvalid
  split <;> rfl

@[simp] theorem noteInvalid_mapBlocksUnlinked :
    (s.noteInvalid p).mapBlocksUnlinked = s.mapBlocksUnlinked := by
  unfold noteInvalid
  split <;> rfl

@[simp] theorem noteInvalid_gFailedBlocks : (s.noteInvalid p).gFailedBlocks = s.gFailedBlocks := by
  unfold noteInvalid
  split <;> rfl

theorem invalidChainFound_ok (h : s.invalidChainFound chainActive p = .ok s') :
    chainActive ≠ [] ∧ s' = s.noteInvalid p := by
  obtain ⟨_, htip, h⟩ := bind_ok h
  cases h
  exact ⟨by simpa using htip, rfl⟩

/-- Whether `InvalidateBlock` puts an entry back. -/
def Restorable (addr : BlockIndex → Nat) (chainActive : BlockIndex) (s : BlockMap)
    (q : BlockIndex) : Prop :=
  s.isUsable q = true ∧ s.workLess addr q chainActive = false

theorem restoreCandidates_keeps {α : Type} (field : BlockMap → α) (hfield : ∀ (s : BlockMap) x y,
    field { s with setBlockIndexCandidates := x, gFailedBlocks := y } = field s) :
    field (restoreCandidates addr chainActive s l) = field s := by
  induction l generalizing s with
  | nil => rfl
  | cons p l ih =>
    unfold restoreCandidates
    rw [ih]
    split
    · exact hfield s _ _
    · rfl

/-- Two states with the same entries restore the same ones. -/
theorem restorable_congr (h : s'.info = s.info) :
    Restorable addr chainActive s' q ↔ Restorable addr chainActive s q := by
  simp only [Restorable, isUsable, nStatus, workLess, h]

theorem restorable_iff : (s.isUsable q && !s.workLess addr q chainActive) = true ↔
    Restorable addr chainActive s q := by
  rw [Restorable, Bool.and_eq_true, Bool.not_eq_true']

theorem mem_restoreCandidates :
    q ∈ (restoreCandidates addr chainActive s l).setBlockIndexCandidates ↔
      q ∈ s.setBlockIndexCandidates ∨ (q ∈ l ∧ Restorable addr chainActive s q) := by
  induction l generalizing s with
  | nil => simp [restoreCandidates]
  | cons p l ih =>
    unfold restoreCandidates
    split <;> rename_i hp <;> rw [restorable_iff] at hp <;> rw [ih]
    · change _ ∨ q ∈ l ∧ Restorable addr chainActive s q ↔ _
      by_cases hq : q = p <;> simp [hq, hp]
    · by_cases hq : q = p <;> simp [hq, hp]

/-- A block that is still marked stays in the set of failed blocks. -/
theorem mem_gFailedBlocks_restoreCandidates :
    q ∈ (restoreCandidates addr chainActive s l).gFailedBlocks ↔
      q ∈ s.gFailedBlocks ∧ ¬ (q ∈ l ∧ Restorable addr chainActive s q) := by
  induction l generalizing s with
  | nil => simp [restoreCandidates]
  | cons p l ih =>
    unfold restoreCandidates
    split <;> rename_i hp <;> rw [restorable_iff] at hp <;> rw [ih]
    · change _ ∧ ¬ (q ∈ l ∧ Restorable addr chainActive s q) ↔ _
      by_cases hq : q = p <;> simp [hq, hp]
    · by_cases hq : q = p <;> simp [hq, hp]

/-- `nStatus |= BLOCK_FAILED_VALID`. -/
def markFailed (i : BlockInfo) : BlockInfo :=
  { i with nStatus := { i.nStatus with failedValid := true } }

/-- What `InvalidBlockFound` does. -/
structure InvalidBlockFound (s s' : BlockMap) (p : BlockIndex) : Prop where
  map : s'.mapBlockIndex = s.mapBlockIndex
  info : ∀ q, s'.info q = if q = p then markFailed (s.info q) else s.info q
  candidates : ∀ q, q ∈ s'.setBlockIndexCandidates ↔ q ∈ s.setBlockIndexCandidates ∧ q ≠ p
  unlinked : s'.mapBlocksUnlinked = s.mapBlocksUnlinked
  failed : ∀ q, q ∈ s'.gFailedBlocks ↔ q = p ∨ q ∈ s.gFailedBlocks

theorem invalidBlockFound_ok (h : s.invalidBlockFound chainActive p = .ok s') :
    InvalidBlockFound s s' p := by
  obtain ⟨_, rfl⟩ := invalidChainFound_ok h
  constructor
  · exact noteInvalid_mapBlockIndex
  · intro q
    rw [noteInvalid_info]
    rfl
  · intro q
    rw [noteInvalid_candidates, mem_eraseCandidate]
    rfl
  · exact noteInvalid_mapBlocksUnlinked
  · intro q
    rw [noteInvalid_gFailedBlocks]
    exact List.mem_insert_iff

/-- The entries that `InvalidateBlock` marks as descendants. -/
def disconnected (p : BlockIndex) : Option BlockIndex → List BlockIndex
  | none => []
  | some tip => pathAbove p tip

/-- The entry after `InvalidateBlock`. -/
def invalidated (p : BlockIndex) (tip : Option BlockIndex) (q : BlockIndex) (i : BlockInfo) :
    BlockInfo :=
  let i := if q ∈ disconnected p tip then markChild i else i
  if q = p then markFailed i else i

/-- The entries before anything is put back. -/
theorem markInvalidated_spec (s : BlockMap) (p : BlockIndex) (tip : Option BlockIndex) :
    ∃ t : BlockMap, (∀ addr chainActive, s.invalidateBlock addr chainActive p tip =
        (restoreCandidates addr chainActive t t.mapBlockIndex).invalidChainFound chainActive p) ∧
      t.mapBlockIndex = s.mapBlockIndex ∧
      (∀ q, t.info q = invalidated p tip q (s.info q)) ∧
      (∀ q, q ∈ t.setBlockIndexCandidates ↔
        q ∈ s.setBlockIndexCandidates ∧ q ∉ disconnected p tip ∧ q ≠ p) ∧
      t.mapBlocksUnlinked = s.mapBlocksUnlinked ∧
      ∀ q, q ∈ t.gFailedBlocks ↔ q = p ∨ q ∈ s.gFailedBlocks := by
  refine ⟨_, fun addr chainActive => rfl, ?_⟩
  cases tip with
  | none =>
    refine ⟨rfl, fun q => ?_, fun q => ?_, rfl, fun q => List.mem_insert_iff⟩
    · rfl
    · simp [disconnected]
  | some tip =>
    refine ⟨?_, fun q => ?_, fun q => ?_, ?_, fun q => ?_⟩
    · exact markDisconnected_keeps mapBlockIndex (fun _ _ _ => rfl) fun _ _ => rfl
    · have hmark : invalidated p (some tip) q (s.info q) =
          if q = p then markFailed ((markDisconnected p s tip).info q)
          else (markDisconnected p s tip).info q := by
        rw [markDisconnected_info]
        rfl
      rw [hmark]
      rfl
    · simp [disconnected, mem_markDisconnected, and_assoc]
    · exact markDisconnected_keeps mapBlocksUnlinked (fun _ _ _ => rfl) fun _ _ => rfl
    · have hkeep : (markDisconnected p s tip).gFailedBlocks = s.gFailedBlocks :=
        markDisconnected_keeps gFailedBlocks (fun _ _ _ => rfl) fun _ _ => rfl
      rw [← hkeep]
      exact List.mem_insert_iff

/-- What `InvalidateBlock` does to the index. -/
structure Invalidated (addr : BlockIndex → Nat) (chainActive : BlockIndex) (s s' : BlockMap)
    (p : BlockIndex) (tip : Option BlockIndex) : Prop where
  map : s'.mapBlockIndex = s.mapBlockIndex
  info : ∀ q, s'.info q = invalidated p tip q (s.info q)
  candidates : ∀ q, q ∈ s'.setBlockIndexCandidates ↔
    (q ∈ s.setBlockIndexCandidates ∧ q ∉ disconnected p tip ∧ q ≠ p) ∨
      (q ∈ s.mapBlockIndex ∧ Restorable addr chainActive s' q)
  unlinked : s'.mapBlocksUnlinked = s.mapBlocksUnlinked
  failed : ∀ q, q ∈ s'.gFailedBlocks ↔ (q = p ∨ q ∈ s.gFailedBlocks) ∧
    ¬ (q ∈ s.mapBlockIndex ∧ Restorable addr chainActive s' q)
  tip_ne : chainActive ≠ []

theorem invalidateBlock_ok {tip : Option BlockIndex}
    (h : s.invalidateBlock addr chainActive p tip = .ok s') :
    Invalidated addr chainActive s s' p tip := by
  obtain ⟨t, ht, hmap, hinfo, hcand, hunl, hfail⟩ := markInvalidated_spec s p tip
  rw [ht] at h
  obtain ⟨hne, rfl⟩ := invalidChainFound_ok h
  have hcongr : ∀ q, Restorable addr chainActive
      ((restoreCandidates addr chainActive t t.mapBlockIndex).noteInvalid p) q ↔
      Restorable addr chainActive t q := by
    intro q
    apply restorable_congr
    rw [noteInvalid_info, restoreCandidates_keeps info fun _ _ _ => rfl]
  constructor
  · rw [noteInvalid_mapBlockIndex, restoreCandidates_keeps mapBlockIndex fun _ _ _ => rfl, hmap]
  · intro q
    rw [noteInvalid_info, restoreCandidates_keeps info fun _ _ _ => rfl, hinfo]
  · intro q
    rw [hcongr, noteInvalid_candidates, mem_restoreCandidates, hcand, hmap]
  · rw [noteInvalid_mapBlocksUnlinked, restoreCandidates_keeps mapBlocksUnlinked fun _ _ _ => rfl,
      hunl]
  · intro q
    rw [hcongr, noteInvalid_gFailedBlocks, mem_gFailedBlocks_restoreCandidates, hfail, hmap]
  · exact hne

end Invalidate

/-! ## `ResetBlockFailureFlags` -/

section Reset

variable {addr : BlockIndex → Nat} {s : BlockMap} {chainActive pindex p q : BlockIndex}
  {st : BlockStatus} {α : Type}

def clearFlags (i : BlockInfo) : BlockInfo := { i with nStatus := i.nStatus.clearFailed }

theorem clearFailed_of_not_failed (h : st.failed = false) : st.clearFailed = st := by
  cases st
  simp_all [clearFailed, failed]

theorem isValid_not_failed {n : Nat} (h : st.isValid n = true) : st.failed = false := by
  unfold isValid at h
  simp only [Bool.and_eq_true, Bool.not_eq_true'] at h
  exact h.1

theorem clearFlags_of_not_failed {i : BlockInfo} (h : i.nStatus.failed = false) :
    clearFlags i = i := by
  unfold clearFlags
  rw [clearFailed_of_not_failed h]

section Keeps

variable (field : BlockMap → α) (hstatus : ∀ s p f, field (s.setStatus p f) = field s)
  (hcand : ∀ (s : BlockMap) x, field { s with setBlockIndexCandidates := x } = field s)
  (hinv : ∀ (s : BlockMap) x, field { s with pindexBestInvalid := x } = field s)

include hinv in
theorem forgetInvalid_keeps : field (s.forgetInvalid p) = field s := by
  unfold forgetInvalid
  split
  · exact hinv s _
  · rfl

include hcand in
theorem readmitCandidate_keeps : field (s.readmitCandidate addr chainActive p) = field s := by
  unfold readmitCandidate
  split
  · exact hcand s _
  · rfl

include hstatus

theorem resetAncestors_keeps : field (resetAncestors s p) = field s := by
  induction p generalizing s with
  | nil => rfl
  | cons b p ih =>
    unfold resetAncestors
    rw [ih]
    split
    · exact hstatus s _ _
    · rfl

include hcand hinv

theorem resetEntry_keeps : field (resetEntry addr chainActive pindex s p) = field s := by
  unfold resetEntry
  split
  · rw [forgetInvalid_keeps field hinv, readmitCandidate_keeps field hcand, hstatus]
  · rfl

/-- The fields that `ResetBlockFailureFlags` leaves alone. -/
theorem resetBlockFailureFlags_keeps :
    field (s.resetBlockFailureFlags addr chainActive pindex) = field s := by
  unfold resetBlockFailureFlags
  rw [resetAncestors_keeps field hstatus]
  exact foldl_keeps field fun s p => resetEntry_keeps field hstatus hcand hinv

end Keeps

/-- An entry that was valid already has nothing to clear. -/
theorem resetEntry_info (hne : pindex ≠ []) :
    (resetEntry addr chainActive pindex s p).info q =
      if q = p ∧ pindex <:+ p then clearFlags (s.info q) else s.info q := by
  unfold resetEntry
  split
  · rename_i hreset
    simp only [Bool.and_eq_true, beq_iff_eq, getAncestor_eq_iff hne] at hreset
    rw [forgetInvalid_keeps info fun _ _ => rfl,
      readmitCandidate_keeps info fun _ _ => rfl, setStatus_info]
    simp only [hreset.2, and_true]
    rfl
  · rename_i hkeep
    simp only [Bool.and_eq_true, beq_iff_eq, getAncestor_eq_iff hne, not_and,
      Bool.not_eq_true'] at hkeep
    split
    · rename_i hq
      obtain ⟨rfl, hdesc⟩ := hq
      have hvalid : (s.nStatus q).isValid BLOCK_VALID_TRANSACTIONS = true := by
        by_contra hv
        exact hkeep (by simpa using hv) hdesc
      exact (clearFlags_of_not_failed (isValid_not_failed hvalid)).symm
    · rfl

theorem resetLoop_info (hne : pindex ≠ []) (l : List BlockIndex) :
    (l.foldl (resetEntry addr chainActive pindex) s).info q =
      if q ∈ l ∧ pindex <:+ q then clearFlags (s.info q) else s.info q := by
  induction l generalizing s with
  | nil => simp
  | cons p l ih =>
    rw [List.foldl_cons, ih, resetEntry_info hne]
    by_cases hp : q = p
    · subst hp
      by_cases hd : pindex <:+ q
      · by_cases hl : q ∈ l <;> simp [hd, hl, clearFlags, clearFailed]
      · simp [hd]
    · simp [hp]

theorem resetAncestors_info :
    (resetAncestors s p).info q =
      if q ≠ [] ∧ q <:+ p then clearFlags (s.info q) else s.info q := by
  induction p generalizing s with
  | nil =>
    rw [if_neg]
    · rfl
    · rintro ⟨hne, hq⟩
      exact hne (List.suffix_nil.mp hq)
  | cons b p ih =>
    have hstep : (if (s.nStatus (b :: p)).failed then
        s.setStatus (b :: p) clearFailed else s).info q =
        if q = b :: p then clearFlags (s.info q) else s.info q := by
      split
      · exact setStatus_info
      · rename_i hf
        split
        · rename_i hq
          subst hq
          have hfree : (s.nStatus (b :: p)).failed = false := by simpa using hf
          exact (clearFlags_of_not_failed hfree).symm
        · rfl
    unfold resetAncestors
    rw [ih, hstep]
    simp only [List.suffix_cons_iff]
    by_cases hq : q = b :: p
    · subst hq
      have hno : ¬ (b :: p) <:+ p := by
        intro h
        have := h.length_le
        simp at this
      simp [hno]
    · simp [hq]

/-- The flags of the descendants in the index and of all ancestors are
cleared. -/
theorem resetBlockFailureFlags_info (hne : pindex ≠ []) :
    (s.resetBlockFailureFlags addr chainActive pindex).info q =
      if (q ∈ s.mapBlockIndex ∧ pindex <:+ q) ∨ (q ≠ [] ∧ q <:+ pindex) then clearFlags (s.info q)
      else s.info q := by
  unfold resetBlockFailureFlags
  rw [resetAncestors_info, resetLoop_info hne]
  by_cases ha : q ≠ [] ∧ q <:+ pindex
  · by_cases hd : q ∈ s.mapBlockIndex ∧ pindex <:+ q <;>
      simp [ha, hd, clearFlags, clearFailed]
  · simp only [ha, if_false, or_false]

end Reset

/-! ## `AcceptBlockHeader` -/

section Header

variable {env : Env} {addr : BlockIndex → Nat} {t : Int} {s s' : BlockMap} {block : CBlockHeader}
  {p q : BlockIndex} {H : Hashes} {hash : Uint256}

theorem findBlock_some (h : s.findBlock H hash = some p) :
    p ∈ s.mapBlockIndex ∧ blockHash H p = hash := by
  exact ⟨List.mem_of_find?_eq_some h, by simpa using List.find?_some h⟩

theorem findBlock_none (h : s.findBlock H hash = none) (hq : q ∈ s.mapBlockIndex) :
    blockHash H q ≠ hash := by
  simpa using List.find?_eq_none.mp h q hq

/-- `AddToBlockIndex` of a header that was not there. -/
structure HeaderAdded (s s' : BlockMap) (p : BlockIndex) : Prop where
  fresh : p ∉ s.mapBlockIndex
  ne_nil : p ≠ []
  map : s'.mapBlockIndex = p :: s.mapBlockIndex
  info : ∀ q, s'.info q =
    if q = p then { nStatus := { valid := BLOCK_VALID_TREE } } else s.info q
  candidates : s'.setBlockIndexCandidates = s.setBlockIndexCandidates
  unlinked : s'.mapBlocksUnlinked = s.mapBlocksUnlinked
  failed : s'.gFailedBlocks = s.gFailedBlocks
  number : s'.nBlockSequenceId = s.nBlockSequenceId
  reverse : s'.nBlockReverseSequenceId = s.nBlockReverseSequenceId

theorem HeaderAdded.info_of_mem (h : HeaderAdded s s' p) (hq : q ∈ s.mapBlockIndex) :
    s'.info q = s.info q := by
  rw [h.info, if_neg]
  rintro rfl
  exact h.fresh hq

theorem HeaderAdded.nStatus (h : HeaderAdded s s' p) (hq : q ∈ s.mapBlockIndex) :
    s'.nStatus q = s.nStatus q :=
  congrArg BlockInfo.nStatus (h.info_of_mem hq)

theorem addToBlockIndex_new (h : s.findBlock H (block.getHash H) = none) :
    (s.addToBlockIndex H block).2 = block :: (s.findBlock H block.hashPrevBlock).getD [] ∧
      HeaderAdded s (s.addToBlockIndex H block).1
        (block :: (s.findBlock H block.hashPrevBlock).getD []) := by
  have hfresh : block :: (s.findBlock H block.hashPrevBlock).getD [] ∉ s.mapBlockIndex :=
    fun hmem => findBlock_none h hmem rfl
  unfold addToBlockIndex
  rw [h]
  refine ⟨rfl, hfresh, List.cons_ne_nil _ _, ?_, fun q => ?_, ?_, ?_, ?_, ?_, ?_⟩
  all_goals
    simp only
    split <;> rfl

theorem addToBlockIndex_known (h : s.findBlock H (block.getHash H) = some p) :
    s.addToBlockIndex H block = (s, p) := by
  unfold addToBlockIndex
  rw [h]

/-- What `AcceptBlockHeader` can do: leave the index as it is, add the header,
or mark the blocks between it and one that failed. -/
inductive HeaderOutcome (env : Env) (addr : BlockIndex → Nat) (s : BlockMap)
    (block : CBlockHeader) : BlockMap → Except Failure BlockIndex → Prop
  | refused (e : Failure) : HeaderOutcome env addr s block s (.error e)
  | known {p : BlockIndex} (hfind : s.findBlock env.H (block.getHash env.H) = some p)
      (hvalid : block.getHash env.H ≠ hashGenesisBlock env.H env.net →
        (s.nStatus p).failed = false) :
      HeaderOutcome env addr s block s (.ok p)
  | genesis {s' : BlockMap} (hhash : block.getHash env.H = hashGenesisBlock env.H env.net)
      (hfind : s.findBlock env.H (block.getHash env.H) = none)
      (hadded : HeaderAdded s s' (block :: (s.findBlock env.H block.hashPrevBlock).getD [])) :
      HeaderOutcome env addr s block s'
        (.ok (block :: (s.findBlock env.H block.hashPrevBlock).getD []))
  | added {s' : BlockMap} {pindexPrev : BlockIndex}
      (hfind : s.findBlock env.H (block.getHash env.H) = none)
      (hprev : s.findBlock env.H block.hashPrevBlock = some pindexPrev)
      (hvalid : (s.nStatus pindexPrev).failed = false)
      (hscan : s.findFailedAncestor addr pindexPrev = none)
      (hadded : HeaderAdded s s' (block :: pindexPrev)) :
      HeaderOutcome env addr s block s' (.ok (block :: pindexPrev))
  | marked {failedit pindexPrev : BlockIndex} (e : Failure)
      (hprev : s.findBlock env.H block.hashPrevBlock = some pindexPrev)
      (hscan : s.findFailedAncestor addr pindexPrev = some failedit)
      (hfailed : (s.nStatus failedit).failedValid = true) :
      HeaderOutcome env addr s block (markFailedChildren failedit s pindexPrev) (.error e)

theorem checkNewHeader_ok (h : s.checkNewHeader env t block = .ok p) :
    s.findBlock env.H block.hashPrevBlock = some p ∧ (s.nStatus p).failed = false := by
  obtain ⟨_, _, h⟩ := bind_ok h
  split at h
  · cases h
  · rename_i pindexPrev hprev
    obtain ⟨_, hfailed, h⟩ := bind_ok h
    obtain ⟨_, _, h⟩ := bind_ok h
    obtain ⟨_, _, h⟩ := bind_ok h
    cases h
    refine ⟨hprev, ?_⟩
    unfold rejectIf doS at hfailed
    split at hfailed
    · cases hfailed
    · rename_i hf
      simpa using hf

theorem attempt_eq_ok {α : Type} {x : Check α} {a : α} (h : attempt x = .ok (.ok a)) :
    x = .ok a := by
  unfold attempt at h
  split at h
  · cases h
  · cases h
  · cases h
    rfl

theorem acceptBlockHeader_outcome {r : Except Failure BlockIndex}
    (h : s.acceptBlockHeader env addr t block = .ok (s', r)) :
    HeaderOutcome env addr s block s' r := by
  unfold acceptBlockHeader at h
  simp only at h
  rcases hfind : s.findBlock env.H (block.getHash env.H) with _ | p
  · obtain ⟨hentry, hadded⟩ := addToBlockIndex_new hfind
    split at h
    · rename_i hhash
      cases h
      rw [hentry]
      exact .genesis (by simpa using hhash) hfind hadded
    · rw [hfind] at h
      obtain ⟨checked, hchecked, h⟩ := bind_ok h
      split at h
      · cases h
        exact .refused _
      · rename_i pindexPrev
        obtain ⟨hprev, hvalid⟩ := checkNewHeader_ok (attempt_eq_ok hchecked)
        rcases hscan : s.findFailedAncestor addr pindexPrev with _ | failedit
        · rw [hscan] at h
          cases h
          rw [hentry]
          rw [hprev] at hadded ⊢
          exact .added hfind hprev hvalid hscan hadded
        · rw [hscan] at h
          obtain ⟨_, hassert, h⟩ := bind_ok h
          cases h
          exact .marked _ hprev hscan (assert_ok.mp hassert)
  · rw [addToBlockIndex_known hfind] at h
    split at h
    · rename_i hhash
      cases h
      exact .known hfind fun hne => absurd (by simpa using hhash) hne
    · rw [hfind] at h
      cases hf : (s.nStatus p).failed with
      | true =>
        simp only [hf, if_true] at h
        cases h
        exact .refused _
      | false =>
        simp only [hf] at h
        cases h
        exact .known hfind fun _ => hf

end Header

/-! ## `ReceivedBlockTransactions` -/

section Received

variable {addr : BlockIndex → Nat} {s : BlockMap} {chainActive p q : BlockIndex} {net : Network}
  {nTx : Nat} {α : Type} {queue : List BlockIndex} (field : BlockMap → α)

/-- The number of transactions up to the parent. -/
def chainTxBelow (s : BlockMap) (p : BlockIndex) : Nat :=
  if p.tail.isEmpty then 0 else (s.info p.tail).nChainTx

/-- `linkBlock` numbers the block. -/
def numbered (s : BlockMap) (p : BlockIndex) : BlockMap :=
  { s.setInfo p fun i =>
      { i with nChainTx := s.chainTxBelow p + i.nTx, nSequenceId := s.nBlockSequenceId } with
    nBlockSequenceId := s.nBlockSequenceId + 1 }

/-- `linkBlock` makes it a candidate if it is as good as the tip. -/
def admitted (addr : BlockIndex → Nat) (chainActive p : BlockIndex) (s : BlockMap) : BlockMap :=
  if chainActive.isEmpty || !s.workLess addr p chainActive then s.insertCandidate p else s

theorem linkBlock_eq :
    s.linkBlock addr chainActive p = admitted addr chainActive p (s.numbered p) := rfl

theorem linkBlock_keeps
    (hinfo : ∀ (s : BlockMap) p n m, field (s.setInfo p fun i =>
      { i with nChainTx := n + i.nTx, nSequenceId := m }) = field s)
    (hseq : ∀ (s : BlockMap) n, field { s with nBlockSequenceId := n } = field s)
    (hcand : ∀ (s : BlockMap) l, field { s with setBlockIndexCandidates := l } = field s) :
    field (s.linkBlock addr chainActive p) = field s := by
  have hnumbered : field (s.numbered p) = field s := (hseq _ _).trans (hinfo s p _ _)
  rw [linkBlock_eq]
  unfold admitted
  split
  · exact (hcand _ _).trans hnumbered
  · exact hnumbered

/-- The queue leaves alone what one of its entries leaves alone. -/
theorem linkBlocks_keeps (hlink : ∀ s p, field (linkBlock s addr chainActive p) = field s)
    (hunl : ∀ (s : BlockMap) l, field { s with mapBlocksUnlinked := l } = field s) {fuel : Nat} :
    field (linkBlocks addr chainActive fuel queue s) = field s := by
  induction fuel generalizing queue s with
  | zero => rfl
  | succ fuel ih =>
    cases queue with
    | nil => rfl
    | cons p queue =>
      unfold linkBlocks
      rw [ih]
      exact (hunl _ _).trans (hlink s p)

theorem linkBlock_nStatus : (s.linkBlock addr chainActive p).nStatus q = s.nStatus q := by
  apply linkBlock_keeps (fun s => s.nStatus q)
  · intro s p n m
    simp only [nStatus, setInfo_info]
    split <;> rfl
  · exact fun _ _ => rfl
  · exact fun _ _ => rfl

theorem linkBlocks_nStatus {fuel : Nat} :
    (linkBlocks addr chainActive fuel queue s).nStatus q = s.nStatus q :=
  linkBlocks_keeps (fun s => s.nStatus q) (fun _ _ => linkBlock_nStatus) fun _ _ => rfl

/-- The status of a block whose transactions were received. -/
def receivedStatus (st : BlockStatus) (fWitness : Bool) : BlockStatus :=
  raiseValidity { st with
    haveData := true
    optWitness := st.optWitness || fWitness } BLOCK_VALID_TRANSACTIONS

/-- `ReceivedBlockTransactions` notes that the block is stored. -/
def stored (net : Network) (nTx : Nat) (p : BlockIndex) (s : BlockMap) : BlockMap :=
  s.setInfo p fun i =>
    { i with
      nTx := nTx
      nChainTx := 0
      nStatus := receivedStatus i.nStatus (isWitnessEnabled p.tail (consensusAfter net p.tail)) }

/-- The block waits for its parent. -/
def waiting (p : BlockIndex) (s : BlockMap) : BlockMap :=
  { s with mapBlocksUnlinked := (p.tail, p) :: s.mapBlocksUnlinked }

/-- The parent and all before it have their transactions. -/
def parentLinked (s : BlockMap) (p : BlockIndex) : Bool :=
  p.tail.isEmpty || (s.info p.tail).nChainTx != 0

theorem receivedBlockTransactions_eq :
    s.receivedBlockTransactions net addr chainActive nTx p =
      if (s.stored net nTx p).parentLinked p then
        linkBlocks addr chainActive (s.mapBlocksUnlinked.length + 1) [p] (s.stored net nTx p)
      else if ((s.stored net nTx p).nStatus p.tail).isValid BLOCK_VALID_TREE then
        (s.stored net nTx p).waiting p
      else s.stored net nTx p := rfl

/-- The fields that `ReceivedBlockTransactions` leaves alone. -/
theorem receivedBlockTransactions_keeps
    (hinfo : ∀ (s : BlockMap) p f, field (s.setInfo p f) = field s)
    (hseq : ∀ (s : BlockMap) n, field { s with nBlockSequenceId := n } = field s)
    (hcand : ∀ (s : BlockMap) l, field { s with setBlockIndexCandidates := l } = field s)
    (hunl : ∀ (s : BlockMap) l, field { s with mapBlocksUnlinked := l } = field s) :
    field (s.receivedBlockTransactions net addr chainActive nTx p) = field s := by
  have hstored : field (s.stored net nTx p) = field s := hinfo s p _
  rw [receivedBlockTransactions_eq]
  split
  · rw [linkBlocks_keeps field
      (fun s p => linkBlock_keeps field (fun s p _ _ => hinfo s p _) hseq hcand) hunl]
    exact hstored
  · split
    · exact (hunl _ _).trans hstored
    · exact hstored

theorem stored_nStatus : (s.stored net nTx p).nStatus q =
    if q = p then receivedStatus (s.nStatus q) (isWitnessEnabled p.tail (consensusAfter net p.tail))
    else s.nStatus q := by
  unfold stored nStatus
  rw [setInfo_info]
  split <;> rfl

theorem receivedBlockTransactions_nStatus :
    (s.receivedBlockTransactions net addr chainActive nTx p).nStatus q =
      (s.stored net nTx p).nStatus q := by
  rw [receivedBlockTransactions_eq]
  split
  · exact linkBlocks_nStatus
  · split <;> rfl

end Received

end BlockMap

/-! ## The levels of validity -/

namespace BlockStatus

variable {st : BlockStatus} {n : Nat}

@[simp] theorem raiseValidity_failedValid : (st.raiseValidity n).failedValid = st.failedValid := by
  unfold raiseValidity
  split
  · rfl
  · split <;> rfl

@[simp] theorem raiseValidity_failedChild : (st.raiseValidity n).failedChild = st.failedChild := by
  unfold raiseValidity
  split
  · rfl
  · split <;> rfl

@[simp] theorem raiseValidity_failed : (st.raiseValidity n).failed = st.failed := by
  simp [failed]

@[simp] theorem raiseValidity_haveData : (st.raiseValidity n).haveData = st.haveData := by
  unfold raiseValidity
  split
  · rfl
  · split <;> rfl

/-- A level above `n` is not reached by raising to `n`. -/
theorem valid_of_raiseValidity {m : Nat} (h : m ≤ (st.raiseValidity n).valid) (hm : n < m) :
    m ≤ st.valid := by
  unfold raiseValidity at h
  split at h
  · exact h
  · split at h
    · simp only at h
      omega
    · exact h

end BlockStatus

end junkcoin
