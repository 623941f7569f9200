-- Start-up: the pass of `LoadBlockIndexDB` over the block index database, in
-- the order of the heights. A block below a failed one is marked only if its
-- transactions were received once.
import Junkcoin.BlockMap

namespace junkcoin

/-! ## The database -/

/-- The block tree on disk: the entries with what is stored for them. Every
entry comes with its parent. -/
structure BlockTreeDB where
  entries : List BlockIndex
  nStatus : BlockIndex → BlockStatus
  nTx : BlockIndex → Nat
  entries_ne_nil : ∀ p ∈ entries, p ≠ []
  parent_mem : ∀ p ∈ entries, p.tail ≠ [] → p.tail ∈ entries

namespace BlockMap

variable (addr : BlockIndex → Nat) (s : BlockMap) (pindex : BlockIndex)

/-! ## The pass -/

/-- `LoadBlockIndexGuts`: the entries as they are stored. -/
def ofDB (db : BlockTreeDB) : BlockMap where
  mapBlockIndex := db.entries
  info p := { nStatus := db.nStatus p, nTx := db.nTx p }
  setBlockIndexCandidates := []
  mapBlocksUnlinked := []
  pindexBestInvalid := []
  gFailedBlocks := []
  nBlockReverseSequenceId := -1
  nLastPreciousChainwork := 0

/-- The number of transactions up to a block that was received, and the list
of the blocks that wait for an ancestor. -/
def linkOnLoad : BlockMap :=
  if pindex.tail.isEmpty then s.setInfo pindex fun i => { i with nChainTx := i.nTx }
  else if (s.info pindex.tail).nChainTx != 0 then
    s.setInfo pindex fun i => { i with nChainTx := (s.info pindex.tail).nChainTx + i.nTx }
  else
    { s.setInfo pindex fun i => { i with nChainTx := 0 } with
      mapBlocksUnlinked := (pindex.tail, pindex) :: s.mapBlocksUnlinked }

/-- A block below a failed one becomes a failed child. -/
def inheritFailure : BlockMap :=
  if !(s.nStatus pindex).failed && !pindex.tail.isEmpty && (s.nStatus pindex.tail).failed then
    s.setStatus pindex fun st => { st with failedChild := true }
  else s

/-- The part of the pass for a block whose transactions were received. -/
def loadReceived : BlockMap :=
  if (s.info pindex).nTx > 0 then (s.linkOnLoad pindex).inheritFailure pindex else s

def loadCandidate : BlockMap :=
  if (s.nStatus pindex).isValid BLOCK_VALID_TRANSACTIONS &&
      ((s.info pindex).nChainTx != 0 || pindex.tail.isEmpty) then s.insertCandidate pindex
  else s

def loadBestInvalid : BlockMap :=
  if (s.nStatus pindex).failed then s.noteInvalid pindex else s

def loadBestHeader : BlockMap :=
  if (s.nStatus pindex).isValid BLOCK_VALID_TREE &&
      (s.pindexBestHeader.isEmpty || s.workLess addr s.pindexBestHeader pindex) then
    { s with pindexBestHeader := pindex }
  else s

/-- The body of the loop over `vSortedByHeight`. -/
def loadEntry : BlockMap :=
  (((s.loadReceived pindex).loadCandidate pindex).loadBestInvalid pindex).loadBestHeader addr pindex

/-- The order of `vSortedByHeight`: by height, and then by address. -/
def heightOrder (a b : BlockIndex) : Bool :=
  nHeight a < nHeight b || (nHeight a == nHeight b && addr a ≤ addr b)

/-- The loop of `LoadBlockIndexDB`. -/
def loadBlockIndexDB (db : BlockTreeDB) : BlockMap :=
  (db.entries.mergeSort (heightOrder addr)).foldl (fun s pindex => s.loadEntry addr pindex)
    (ofDB db)

end BlockMap

/-! ## What the pass leaves -/

namespace BlockTreeDB

/-- The status of an entry after the pass: what is stored, and the mark if its
parent has failed after the pass. -/
def loadedStatus (db : BlockTreeDB) : BlockIndex → BlockStatus
  | [] => {}
  | b :: p =>
    let st := db.nStatus (b :: p)
    if db.nTx (b :: p) > 0 ∧ st.failed = false ∧ p ≠ [] ∧ (db.loadedStatus p).failed = true then
      { st with failedChild := true }
    else st

end BlockTreeDB

namespace BlockMap

section Load

variable {addr : BlockIndex → Nat} {s : BlockMap} {pindex q : BlockIndex}

theorem linkOnLoad_nStatus : (s.linkOnLoad pindex).nStatus q = s.nStatus q := by
  unfold linkOnLoad nStatus
  split
  · rw [setInfo_info]
    split <;> rfl
  · split
    · rw [setInfo_info]
      split <;> rfl
    · rw [setInfo_info]
      split <;> rfl

theorem loadCandidate_info : (s.loadCandidate pindex).info = s.info := by
  unfold loadCandidate
  split
  · rfl
  · rfl

theorem loadBestInvalid_info : (s.loadBestInvalid pindex).info = s.info := by
  unfold loadBestInvalid noteInvalid
  split
  · split
    · rfl
    · rfl
  · rfl

theorem loadBestHeader_info : (s.loadBestHeader addr pindex).info = s.info := by
  unfold loadBestHeader
  split
  · rfl
  · rfl

theorem linkOnLoad_nTx : ((s.linkOnLoad pindex).info q).nTx = (s.info q).nTx := by
  unfold linkOnLoad
  split
  · rw [setInfo_info]
    split <;> rfl
  · split
    · rw [setInfo_info]
      split <;> rfl
    · rw [setInfo_info]
      split <;> rfl

/-- The entry is marked by the pass. -/
def Inherits (s : BlockMap) (pindex : BlockIndex) : Prop :=
  (s.info pindex).nTx > 0 ∧ (s.nStatus pindex).failed = false ∧ pindex.tail ≠ [] ∧
    (s.nStatus pindex.tail).failed = true

theorem loadEntry_info : (s.loadEntry addr pindex).info = (s.loadReceived pindex).info := by
  rw [loadEntry, loadBestHeader_info, loadBestInvalid_info, loadCandidate_info]

theorem loadEntry_nTx : ((s.loadEntry addr pindex).info q).nTx = (s.info q).nTx := by
  rw [loadEntry_info]
  unfold loadReceived inheritFailure
  split
  · split
    · rw [setStatus_info]
      split
      · exact linkOnLoad_nTx
      · exact linkOnLoad_nTx
    · exact linkOnLoad_nTx
  · rfl

theorem loadReceived_marks (h : s.Inherits pindex) : (s.loadReceived pindex).nStatus q =
    if q = pindex then { s.nStatus q with failedChild := true } else s.nStatus q := by
  obtain ⟨htx, hmark⟩ := h
  unfold loadReceived inheritFailure
  rw [if_pos htx]
  simp only [linkOnLoad_nStatus]
  rw [if_pos (by simpa [and_assoc] using hmark), setStatus_nStatus, linkOnLoad_nStatus]

theorem loadReceived_keeps (h : ¬ s.Inherits pindex) :
    (s.loadReceived pindex).nStatus q = s.nStatus q := by
  unfold loadReceived inheritFailure
  split
  · rename_i htx
    simp only [linkOnLoad_nStatus]
    rw [if_neg, linkOnLoad_nStatus]
    intro hmark
    apply h
    exact ⟨htx, by simpa [and_assoc] using hmark⟩
  · rfl

theorem loadEntry_nStatus :
    (s.loadEntry addr pindex).nStatus q = (s.loadReceived pindex).nStatus q := by
  rw [nStatus, nStatus, loadEntry_info]

theorem loadBestInvalid_bestHeader :
    (s.loadBestInvalid pindex).pindexBestHeader = s.pindexBestHeader := by
  unfold loadBestInvalid noteInvalid
  split
  · split <;> rfl
  · rfl

theorem loadCandidate_bestHeader :
    (s.loadCandidate pindex).pindexBestHeader = s.pindexBestHeader := by
  unfold loadCandidate
  split <;> rfl

theorem linkOnLoad_bestHeader : (s.linkOnLoad pindex).pindexBestHeader = s.pindexBestHeader := by
  unfold linkOnLoad
  split
  · rfl
  · split <;> rfl

theorem inheritFailure_bestHeader :
    (s.inheritFailure pindex).pindexBestHeader = s.pindexBestHeader := by
  unfold inheritFailure
  split <;> rfl

theorem loadReceived_bestHeader :
    (s.loadReceived pindex).pindexBestHeader = s.pindexBestHeader := by
  unfold loadReceived
  split
  · rw [inheritFailure_bestHeader, linkOnLoad_bestHeader]
  · rfl

/-- The best header stays, or it becomes an entry that is valid. -/
theorem loadEntry_bestHeader (addr : BlockIndex → Nat) (s : BlockMap) (pindex : BlockIndex) :
    (s.loadEntry addr pindex).pindexBestHeader = s.pindexBestHeader ∨
      ((s.loadEntry addr pindex).pindexBestHeader = pindex ∧
        ((s.loadEntry addr pindex).nStatus pindex).failed = false) := by
  have hkept : (((s.loadReceived pindex).loadCandidate pindex).loadBestInvalid
      pindex).pindexBestHeader = s.pindexBestHeader := by
    rw [loadBestInvalid_bestHeader, loadCandidate_bestHeader, loadReceived_bestHeader]
  rw [loadEntry_nStatus]
  unfold loadEntry loadBestHeader
  split
  · rename_i hvalid
    refine Or.inr ⟨rfl, ?_⟩
    rw [Bool.and_eq_true] at hvalid
    have hv := hvalid.1
    rw [nStatus, loadBestInvalid_info, loadCandidate_info] at hv
    unfold BlockStatus.isValid at hv
    rw [Bool.and_eq_true, Bool.not_eq_true'] at hv
    exact hv.1
  · exact Or.inl hkept

/-! ## The whole pass -/

/-- The pass has seen the entries of `done`. -/
structure LoadedTo (db : BlockTreeDB) (done : List BlockIndex) (s : BlockMap) : Prop where
  nTx : ∀ q, (s.info q).nTx = db.nTx q
  loaded : ∀ q ∈ done, s.nStatus q = db.loadedStatus q
  stored : ∀ q, q ∉ done → s.nStatus q = db.nStatus q
  bestHeader : s.pindexBestHeader = [] ∨
    (s.pindexBestHeader ∈ done ∧ (db.loadedStatus s.pindexBestHeader).failed = false)

variable {db : BlockTreeDB} {done : List BlockIndex}

/-- One entry gets the status that it has after the pass. -/
theorem LoadedTo.status (h : LoadedTo db done s) (addr : BlockIndex → Nat) (hne : pindex ≠ [])
    (hparent : pindex.tail ≠ [] → pindex.tail ∈ done) :
    (s.loadEntry addr pindex).nStatus pindex = db.loadedStatus pindex := by
  obtain ⟨b, p, rfl⟩ := List.exists_cons_of_ne_nil hne
  rw [loadEntry_nStatus]
  have hp : p ≠ [] → s.nStatus p = db.loadedStatus p := fun hpne => h.loaded p (hparent hpne)
  rw [BlockTreeDB.loadedStatus]
  by_cases hmem : b :: p ∈ done
  · -- the second time nothing changes
    have hst : s.nStatus (b :: p) = db.loadedStatus (b :: p) := h.loaded _ hmem
    rw [BlockTreeDB.loadedStatus] at hst
    rw [loadReceived_keeps, hst]
    rintro ⟨htx, hok, hpne, hfailed⟩
    rw [List.tail_cons] at hpne hfailed
    rw [h.nTx] at htx
    rw [hp hpne] at hfailed
    rw [hst] at hok
    split at hok
    · cases hf : (db.nStatus (b :: p)).failedValid with
      | true => simp [BlockStatus.failed, hf] at hok
      | false => simp [BlockStatus.failed] at hok
    · rename_i hcond
      exact hcond ⟨htx, hok, hpne, hfailed⟩
  · have hst : s.nStatus (b :: p) = db.nStatus (b :: p) := h.stored _ hmem
    by_cases hin : s.Inherits (b :: p)
    · rw [loadReceived_marks hin, if_pos rfl, hst]
      obtain ⟨htx, hok, hpne, hfailed⟩ := hin
      rw [List.tail_cons] at hpne hfailed
      rw [h.nTx] at htx
      rw [hst] at hok
      rw [hp hpne] at hfailed
      rw [if_pos ⟨htx, hok, hpne, hfailed⟩]
    · rw [loadReceived_keeps hin, hst, if_neg]
      rintro ⟨htx, hok, hpne, hfailed⟩
      apply hin
      refine ⟨?_, ?_, hpne, ?_⟩
      · rw [h.nTx]
        exact htx
      · rw [hst]
        exact hok
      · rw [List.tail_cons, hp hpne]
        exact hfailed

theorem LoadedTo.step (h : LoadedTo db done s) (addr : BlockIndex → Nat) (hne : pindex ≠ [])
    (hparent : pindex.tail ≠ [] → pindex.tail ∈ done) :
    LoadedTo db (pindex :: done) (s.loadEntry addr pindex) := by
  have hself := h.status addr hne hparent
  have hother : ∀ q, q ≠ pindex → (s.loadEntry addr pindex).nStatus q = s.nStatus q := by
    intro q hq
    rw [loadEntry_nStatus]
    by_cases hin : s.Inherits pindex
    · rw [loadReceived_marks hin, if_neg hq]
    · exact loadReceived_keeps hin
  refine ⟨?_, ?_, ?_, ?_⟩
  · intro q
    rw [loadEntry_nTx]
    exact h.nTx q
  · intro q hq
    by_cases he : q = pindex
    · rw [he]
      exact hself
    · rw [hother q he]
      exact h.loaded q ((List.mem_cons.mp hq).resolve_left he)
  · intro q hq
    rw [List.mem_cons, not_or] at hq
    rw [hother q hq.1]
    exact h.stored q hq.2
  · rcases loadEntry_bestHeader addr s pindex with hkept | hnew
    · rw [hkept]
      rcases h.bestHeader with hnil | hmem
      · exact Or.inl hnil
      · exact Or.inr ⟨List.mem_cons_of_mem _ hmem.1, hmem.2⟩
    · rw [hnew.1]
      refine Or.inr ⟨List.mem_cons_self, ?_⟩
      rw [← hself]
      exact hnew.2

theorem heightOrder_trans (a b c : BlockIndex) (hab : heightOrder addr a b = true)
    (hbc : heightOrder addr b c = true) : heightOrder addr a c = true := by
  simp only [heightOrder, Bool.or_eq_true, decide_eq_true_eq, Bool.and_eq_true, beq_iff_eq] at *
  omega

theorem heightOrder_total (a b : BlockIndex) :
    (heightOrder addr a b || heightOrder addr b a) = true := by
  simp only [heightOrder, Bool.or_eq_true, decide_eq_true_eq, Bool.and_eq_true, beq_iff_eq]
  omega

theorem heightOrder_height {a b : BlockIndex} (h : heightOrder addr a b = true) :
    nHeight a ≤ nHeight b := by
  simp only [heightOrder, Bool.or_eq_true, decide_eq_true_eq, Bool.and_eq_true, beq_iff_eq] at h
  omega

/-- The pass over entries in the order of their heights, with the parents
among them or behind. -/
theorem LoadedTo.pass {addr : BlockIndex → Nat} {l : List BlockIndex} (h : LoadedTo db done s)
    (hsorted : l.Pairwise fun a b => heightOrder addr a b = true) (hne : ∀ p ∈ l, p ≠ [])
    (hparent : ∀ p ∈ l, p.tail ≠ [] → p.tail ∈ done ∨ p.tail ∈ l) :
    LoadedTo db (l.reverse ++ done) (l.foldl (fun s pindex => s.loadEntry addr pindex) s) := by
  induction l generalizing s done with
  | nil => exact h
  | cons p l ih =>
    rw [List.pairwise_cons] at hsorted
    have hp : p.tail ≠ [] → p.tail ∈ done := by
      intro htail
      rcases hparent p List.mem_cons_self htail with hdone | hlist
      · exact hdone
      · -- a parent is lower than its child, so it cannot come later
        exfalso
        have hlen : p.tail.length < p.length := by
          rw [List.length_tail]
          have := List.length_pos_of_ne_nil (hne p List.mem_cons_self)
          omega
        rcases List.mem_cons.mp hlist with heq | hin
        · rw [heq] at hlen
          omega
        · have hle := heightOrder_height (hsorted.1 _ hin)
          unfold nHeight at hle
          omega
    have hstep := h.step addr (hne p List.mem_cons_self) hp
    have hrest := ih hstep hsorted.2 (fun q hq => hne q (List.mem_cons_of_mem _ hq)) ?_
    · rw [List.foldl_cons, List.reverse_cons, List.append_assoc]
      exact hrest
    · intro q hq htail
      rcases hparent q (List.mem_cons_of_mem _ hq) htail with hdone | hlist
      · exact Or.inl (List.mem_cons_of_mem _ hdone)
      · rcases List.mem_cons.mp hlist with heq | hin
        · exact Or.inl (List.mem_cons.mpr (Or.inl heq))
        · exact Or.inr hin

/-- What `LoadBlockIndexDB` leaves of the status of the entries and of the
best header. -/
theorem loadBlockIndexDB_loaded (addr : BlockIndex → Nat) (db : BlockTreeDB) :
    (∀ q ∈ db.entries, (loadBlockIndexDB addr db).nStatus q = db.loadedStatus q) ∧
      ((loadBlockIndexDB addr db).pindexBestHeader = [] ∨
        ((loadBlockIndexDB addr db).pindexBestHeader ∈ db.entries ∧
          (db.loadedStatus (loadBlockIndexDB addr db).pindexBestHeader).failed = false)) := by
  have hstart : LoadedTo db [] (ofDB db) := by
    refine ⟨fun _ => rfl, ?_, fun _ _ => rfl, Or.inl rfl⟩
    intro q hq
    cases hq
  have hsorted : (db.entries.mergeSort (heightOrder addr)).Pairwise fun a b =>
      heightOrder addr a b = true :=
    List.pairwise_mergeSort heightOrder_trans heightOrder_total _
  have hpass := hstart.pass hsorted
    (fun p hp => db.entries_ne_nil p (List.mem_mergeSort.mp hp))
    (fun p hp htail => Or.inr (List.mem_mergeSort.mpr
      (db.parent_mem p (List.mem_mergeSort.mp hp) htail)))
  have hmem : ∀ q, q ∈ (db.entries.mergeSort (heightOrder addr)).reverse ++ [] ↔
      q ∈ db.entries := by
    intro q
    rw [List.append_nil, List.mem_reverse, List.mem_mergeSort]
  constructor
  · intro q hq
    exact hpass.loaded q ((hmem q).mpr hq)
  · rcases hpass.bestHeader with hnil | hbest
    · exact Or.inl hnil
    · exact Or.inr ⟨(hmem _).mp hbest.1, hbest.2⟩

end Load

end BlockMap

/-! ## The law -/

/-- The entry has an ancestor with `BLOCK_FAILED_VALID`. -/
def HasFailedAncestor (nStatus : BlockIndex → BlockStatus) (pindex : BlockIndex) : Prop :=
  ∃ a, a ≠ [] ∧ a <:+ pindex.tail ∧ (nStatus a).failedValid = true

namespace BlockTreeDB

variable {db : BlockTreeDB} {p : BlockIndex}

theorem ancestor_mem {a : BlockIndex} (hp : p ∈ db.entries) (ha : a ≠ []) (h : a <:+ p) :
    a ∈ db.entries := by
  induction p with
  | nil => exact absurd (List.suffix_nil.mp h) ha
  | cons b p ih =>
    rcases List.suffix_cons_iff.mp h with rfl | h
    · exact hp
    · have hne : p ≠ [] := by
        rintro rfl
        exact ha (List.suffix_nil.mp h)
      exact ih (db.parent_mem _ hp hne) h

theorem loadedStatus_failedValid (hp : p ≠ []) :
    (db.loadedStatus p).failedValid = (db.nStatus p).failedValid := by
  obtain ⟨b, p, rfl⟩ := List.exists_cons_of_ne_nil hp
  rw [loadedStatus]
  split
  · rfl
  · rfl

theorem loadedStatus_failed (hp : p ≠ []) (h : (db.loadedStatus p).failed = true) :
    (db.nStatus p).failed = true ∨ db.nTx p > 0 := by
  obtain ⟨b, p, rfl⟩ := List.exists_cons_of_ne_nil hp
  rw [loadedStatus] at h
  split at h
  · rename_i hcond
    exact Or.inr hcond.1
  · exact Or.inl h

/-- When every entry below a failed block failed itself or has its
transactions, the pass marks them all. -/
theorem loadedStatus_inherits
    (hdb : ∀ p ∈ db.entries, HasFailedAncestor db.nStatus p →
      (db.nStatus p).failed = true ∨ db.nTx p > 0) (hp : p ∈ db.entries)
    (hfail : HasFailedAncestor db.nStatus p) : (db.loadedStatus p).failed = true := by
  -- from the ancestors down to the entry
  induction p with
  | nil => exact absurd rfl (db.entries_ne_nil _ hp)
  | cons b p ih =>
    obtain ⟨a, hane, hsuffix, ha⟩ := hfail
    have hpne : p ≠ [] := by
      rintro rfl
      exact hane (List.suffix_nil.mp hsuffix)
    have hparent : (db.loadedStatus p).failed = true := by
      have hmem : p ∈ db.entries := db.parent_mem _ hp hpne
      obtain ⟨c, q, rfl⟩ := List.exists_cons_of_ne_nil hpne
      rcases List.suffix_cons_iff.mp hsuffix with rfl | hsuffix
      · rw [BlockStatus.failed, loadedStatus_failedValid hpne, ha, Bool.true_or]
      · exact ih hmem ⟨a, hane, hsuffix, ha⟩
    rw [loadedStatus]
    split
    · simp [BlockStatus.failed]
    · rename_i hcond
      rcases hdb _ hp ⟨a, hane, hsuffix, ha⟩ with hfailed | htx
      · exact hfailed
      · by_contra hok
        exact hcond ⟨htx, by simpa using hok, hpne, hparent⟩

end BlockTreeDB

/-- After start-up every entry with a failed ancestor is marked, and the best
header has no failed ancestor, exactly when every such entry on disk is
marked already or has had its transactions. -/
theorem invalidity_inherited_on_load_iff (addr : BlockIndex → Nat) (db : BlockTreeDB) :
    ((∀ p ∈ db.entries, HasFailedAncestor (BlockMap.loadBlockIndexDB addr db).nStatus p →
        ((BlockMap.loadBlockIndexDB addr db).nStatus p).failed = true) ∧
      ¬ HasFailedAncestor (BlockMap.loadBlockIndexDB addr db).nStatus
        (BlockMap.loadBlockIndexDB addr db).pindexBestHeader) ↔
    ∀ p ∈ db.entries, HasFailedAncestor db.nStatus p →
      (db.nStatus p).failed = true ∨ db.nTx p > 0 := by
  obtain ⟨hloaded, hbest⟩ := BlockMap.loadBlockIndexDB_loaded addr db
  -- the pass does not touch `BLOCK_FAILED_VALID`
  have hiff : ∀ p ∈ db.entries, (HasFailedAncestor (BlockMap.loadBlockIndexDB addr db).nStatus p ↔
      HasFailedAncestor db.nStatus p) := by
    intro p hp
    have hsame : ∀ a, a ≠ [] → a <:+ p.tail →
        ((BlockMap.loadBlockIndexDB addr db).nStatus a).failedValid =
          (db.nStatus a).failedValid := by
      intro a ha hsuffix
      have hmem := BlockTreeDB.ancestor_mem hp ha (hsuffix.trans (List.tail_suffix p))
      rw [hloaded a hmem, BlockTreeDB.loadedStatus_failedValid ha]
    constructor
    · rintro ⟨a, ha, hsuffix, hfail⟩
      exact ⟨a, ha, hsuffix, by rw [← hsame a ha hsuffix]; exact hfail⟩
    · rintro ⟨a, ha, hsuffix, hfail⟩
      exact ⟨a, ha, hsuffix, by rw [hsame a ha hsuffix]; exact hfail⟩
  constructor
  · rintro ⟨hmarked, _⟩ p hp hfail
    have hst := hmarked p hp ((hiff p hp).mpr hfail)
    rw [hloaded p hp] at hst
    exact BlockTreeDB.loadedStatus_failed (db.entries_ne_nil p hp) hst
  · intro hdb
    have hmarked : ∀ p ∈ db.entries, HasFailedAncestor db.nStatus p →
        (db.loadedStatus p).failed = true :=
      fun p hp hfail => BlockTreeDB.loadedStatus_inherits hdb hp hfail
    constructor
    · intro p hp hfail
      rw [hloaded p hp]
      exact hmarked p hp ((hiff p hp).mp hfail)
    · intro hfail
      rcases hbest with hnil | ⟨hmem, hok⟩
      · obtain ⟨a, ha, hsuffix, _⟩ := hfail
        rw [hnil] at hsuffix
        exact ha (List.suffix_nil.mp hsuffix)
      · have hf := hmarked _ hmem ((hiff _ hmem).mp hfail)
        rw [hf] at hok
        cases hok

/-! ## A header below a failed block -/

/-- Genesis, a block on it that failed, and a header on that block. -/
def failedBranch : BlockIndex := [genesisHeader 2 2, genesisHeader 1 1, genesisHeader 0 0]

/-- The failed block has its transactions, the header above it has none. -/
def failedBranchDB : BlockTreeDB where
  entries := [failedBranch, failedBranch.tail, failedBranch.tail.tail]
  nStatus p :=
    if p = failedBranch then { valid := BLOCK_VALID_TREE }
    else if p = failedBranch.tail then
      { valid := BLOCK_VALID_TRANSACTIONS, haveData := true, failedValid := true }
    else { valid := BLOCK_VALID_SCRIPTS, haveData := true }
  nTx p := if p = failedBranch then 0 else 1
  entries_ne_nil := by decide +kernel
  parent_mem := by decide +kernel

/-- The header on the failed block is not marked at start-up. -/
theorem header_below_failed_block_not_marked :
    failedBranch ∈ failedBranchDB.entries ∧
      HasFailedAncestor (BlockMap.loadBlockIndexDB List.length failedBranchDB).nStatus
        failedBranch ∧
      ((BlockMap.loadBlockIndexDB List.length failedBranchDB).nStatus failedBranch).failed =
        false := by
  have hmem : failedBranch ∈ failedBranchDB.entries := List.mem_cons_self
  have htail : failedBranch.tail ∈ failedBranchDB.entries :=
    List.mem_cons_of_mem _ List.mem_cons_self
  have hloaded := (BlockMap.loadBlockIndexDB_loaded List.length failedBranchDB).1
  refine ⟨hmem, ⟨failedBranch.tail, by decide, List.suffix_refl _, ?_⟩, ?_⟩
  · rw [hloaded _ htail]
    decide +kernel
  · rw [hloaded _ hmem]
    decide +kernel

end junkcoin
