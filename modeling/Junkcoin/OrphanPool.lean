-- The pool of transactions whose inputs are not known yet
-- (`net_processing.cpp`): the orphans by their id, and an index of them by the
-- outputs that they spend. The two stay in step.
import Junkcoin.Mempool

namespace junkcoin

open Table

/-! ## The pool of orphans -/

structure COrphanTx where
  tx : CTransaction
  fromPeer : NodeId
  nTimeExpire : Int

def MAX_STANDARD_TX_WEIGHT : Nat := 400000

/-- Expiration time for orphan transactions in seconds. -/
def ORPHAN_TX_EXPIRE_TIME : Int := 20 * 60

/-- Minimum time between orphan transactions expire time checks in seconds. -/
def ORPHAN_TX_EXPIRE_INTERVAL : Int := 5 * 60

/-- The two maps of orphans. An iterator is the id of its transaction, and a
set of iterators a list without duplicates, in the order of the addresses. -/
structure Orphans where
  mapOrphanTransactions : Table Uint256 COrphanTx := .empty
  mapOrphanTransactionsByPrev : Table COutPoint (List Uint256) := .empty
  nNextSweep : Int := 0

namespace Orphans

variable (H : Hashes) (s : Orphans)

/-- `mapOrphanTransactionsByPrev[prevout].insert(it)`. -/
def addPrev (it : Uint256) (byPrev : Table COutPoint (List Uint256)) (txin : CTxIn) :
    Table COutPoint (List Uint256) :=
  match byPrev.get txin.prevout with
  | none => byPrev.insert txin.prevout [it]
  | some _ => byPrev.modify txin.prevout (·.insert it)

/-- `AddOrphanTx` at a given time. -/
def addOrphanTx (nTime : Int) (tx : CTransaction) (peer : NodeId) : Orphans × Bool :=
  let hash := tx.getHash H
  if (s.mapOrphanTransactions.get hash).isSome then (s, false)
  else if getTransactionWeight tx ≥ MAX_STANDARD_TX_WEIGHT then (s, false)
  else
    ({ s with
      mapOrphanTransactions := s.mapOrphanTransactions.insert hash
        ⟨tx, peer, nTime + ORPHAN_TX_EXPIRE_TIME⟩
      mapOrphanTransactionsByPrev := tx.vin.foldl (addPrev hash) s.mapOrphanTransactionsByPrev },
    true)

/-- Take an orphan out of the set of one of its inputs. -/
def erasePrev (it : Uint256) (byPrev : Table COutPoint (List Uint256)) (txin : CTxIn) :
    Table COutPoint (List Uint256) :=
  match byPrev.get txin.prevout with
  | none => byPrev
  | some its =>
    if (its.erase it).isEmpty then byPrev.erase txin.prevout
    else byPrev.modify txin.prevout (·.erase it)

/-- `EraseOrphanTx`. -/
def eraseOrphanTx (hash : Uint256) : Orphans :=
  match s.mapOrphanTransactions.get hash with
  | none => s
  | some orphan =>
    { s with
      mapOrphanTransactionsByPrev :=
        orphan.tx.vin.foldl (erasePrev hash) s.mapOrphanTransactionsByPrev
      mapOrphanTransactions := s.mapOrphanTransactions.erase hash }

/-- The orphans of the pool, with their keys. -/
def entries : List (Uint256 × COrphanTx) :=
  s.mapOrphanTransactions.keys.filterMap fun k =>
    (s.mapOrphanTransactions.get k).map fun orphan => (k, orphan)

/-- The orphans of a pass over the map that meet a condition are erased, each
by the id of its transaction. -/
def eraseEach (p : COrphanTx → Bool) : Orphans :=
  (s.entries.filter (p ·.2)).foldl (fun s orphan => s.eraseOrphanTx (orphan.2.tx.getHash H)) s

/-- `EraseOrphansFor`. -/
def eraseOrphansFor (peer : NodeId) : Orphans := s.eraseEach H (·.fromPeer == peer)

/-- The sweep of expired orphans in `LimitOrphanTxSize`. -/
def sweep (nNow : Int) : Orphans :=
  if s.nNextSweep ≤ nNow then
    let rest := s.entries.filter (·.2.nTimeExpire > nNow)
    let nMinExpTime := rest.foldl (fun m orphan => min orphan.2.nTimeExpire m)
      (nNow + ORPHAN_TX_EXPIRE_TIME - ORPHAN_TX_EXPIRE_INTERVAL)
    { s.eraseEach H (·.nTimeExpire ≤ nNow) with
      nNextSweep := nMinExpTime + ORPHAN_TX_EXPIRE_INTERVAL }
  else s

/-- The least id of a list, in the order of `std::map`. -/
def least : List Uint256 → Option Uint256
  | [] => none
  | k :: keys => some (keys.foldl (fun m k => if k.less m then k else m) k)

/-- `lower_bound(randomhash)`, or the begin of the map. -/
def randomOrphan (randomhash : Uint256) : Option Uint256 :=
  match least (s.mapOrphanTransactions.keys.filter (!Uint256.less · randomhash)) with
  | some k => some k
  | none => least s.mapOrphanTransactions.keys

/-- The evictions of `LimitOrphanTxSize`, with the random numbers that it
draws. -/
def evict (nMaxOrphans : Nat) (rand : Nat → Uint256) : (fuel : Nat) → Orphans → Orphans
  | 0, s => s
  | fuel + 1, s =>
    if s.mapOrphanTransactions.keys.length > nMaxOrphans then
      match s.randomOrphan (rand fuel) with
      | none => s
      | some k => evict nMaxOrphans rand fuel (s.eraseOrphanTx k)
    else s

/-- `LimitOrphanTxSize`. -/
def limitOrphanTxSize (nMaxOrphans : Nat) (nNow : Int) (rand : Nat → Uint256) : Orphans :=
  let s := s.sweep H nNow
  evict nMaxOrphans rand s.mapOrphanTransactions.keys.length s

/-- `PeerLogicValidation::SyncTransaction`: a block spends outputs that orphans
spend too. -/
def syncTransaction (tx : CTransaction) (fInBlock : Bool) : Orphans :=
  if !fInBlock then s
  else
    let vOrphanErase := tx.vin.flatMap fun txin =>
      ((s.mapOrphanTransactionsByPrev.get txin.prevout).getD []).filterMap fun mi =>
        (s.mapOrphanTransactions.get mi).map (·.tx.getHash H)
    vOrphanErase.foldl eraseOrphanTx s

/-- The calls that change the pool. The clock and the random numbers of
`LimitOrphanTxSize` are given. -/
inductive OrphanCall
  | addOrphanTx (nTime : Int) (tx : CTransaction) (peer : NodeId)
  | eraseOrphanTx (hash : Uint256)
  | eraseOrphansFor (peer : NodeId)
  | limitOrphanTxSize (nMaxOrphans : Nat) (nNow : Int) (rand : Nat → Uint256)
  | syncTransaction (tx : CTransaction) (fInBlock : Bool)

def OrphanCall.run : OrphanCall → Orphans
  | .addOrphanTx nTime tx peer => (s.addOrphanTx H nTime tx peer).1
  | .eraseOrphanTx hash => s.eraseOrphanTx hash
  | .eraseOrphansFor peer => s.eraseOrphansFor H peer
  | .limitOrphanTxSize nMaxOrphans nNow rand => s.limitOrphanTxSize H nMaxOrphans nNow rand
  | .syncTransaction tx fInBlock => s.syncTransaction H tx fInBlock

/-- The pool after some calls on an empty one. -/
def after (calls : List OrphanCall) : Orphans := calls.foldl (OrphanCall.run H) {}

end Orphans

namespace Orphans

variable {H : Hashes} {s : Orphans} {it k : Uint256} {o : COutPoint}
  {byPrev : Table COutPoint (List Uint256)} {txin : CTxIn}

/-! ## The index by inputs -/

/-- The index lists an orphan under an output. -/
def Lists (byPrev : Table COutPoint (List Uint256)) (o : COutPoint) (it : Uint256) : Prop :=
  ∃ its, byPrev.get o = some its ∧ it ∈ its

/-- The index has sets, and none of them is empty. -/
def HasSets (byPrev : Table COutPoint (List Uint256)) : Prop :=
  ∀ o its, byPrev.get o = some its → its.Nodup ∧ its ≠ []

theorem lists_addPrev : Lists (addPrev it byPrev txin) o k ↔
    Lists byPrev o k ∨ (o = txin.prevout ∧ k = it) := by
  unfold Lists addPrev
  split
  · rename_i hnone
    rw [get_insert _ hnone]
    by_cases ho : o = txin.prevout
    · simp [ho, hnone]
    · simp [ho]
  · rename_i its hits
    rw [get_modify]
    by_cases ho : o = txin.prevout
    · simp [ho, hits, or_comm]
    · simp [ho]

theorem HasSets.addPrev (h : HasSets byPrev) (it : Uint256) (txin : CTxIn) :
    HasSets (addPrev it byPrev txin) := by
  intro o its ho
  unfold Orphans.addPrev at ho
  split at ho
  · rename_i hnone
    rw [get_insert _ hnone] at ho
    split at ho
    · cases ho
      exact ⟨List.nodup_singleton _, List.cons_ne_nil _ _⟩
    · exact h o its ho
  · rename_i old hold
    rcases get_modify_cases hold ho with ⟨_, rfl⟩ | ⟨_, hget⟩
    · exact ⟨(h _ _ hold).1.insert, List.ne_nil_of_mem List.mem_insert_self⟩
    · exact h o its hget

theorem foldl_addPrev (it : Uint256) (vin : List CTxIn) (h : HasSets byPrev) :
    HasSets (vin.foldl (addPrev it) byPrev) ∧
    ∀ o k, Lists (vin.foldl (addPrev it) byPrev) o k ↔
      Lists byPrev o k ∨ (o ∈ vin.map (·.prevout) ∧ k = it) := by
  induction vin generalizing byPrev with
  | nil => exact ⟨h, by simp⟩
  | cons txin vin ih =>
    obtain ⟨hsets, hlists⟩ := ih (h.addPrev it txin)
    refine ⟨hsets, fun o k => (hlists o k).trans ?_⟩
    rw [lists_addPrev, List.map_cons, List.mem_cons]
    tauto

theorem lists_erasePrev (h : HasSets byPrev) : Lists (erasePrev it byPrev txin) o k ↔
    Lists byPrev o k ∧ ¬ (o = txin.prevout ∧ k = it) := by
  unfold erasePrev
  split
  · rename_i hnone
    refine ⟨fun hl => ⟨hl, ?_⟩, And.left⟩
    rintro ⟨rfl, _⟩
    obtain ⟨its, hits, _⟩ := hl
    exact nomatch hnone.symm.trans hits
  · rename_i its hits
    have hmem := (h _ _ hits).1.mem_erase_iff (a := k) (b := it)
    by_cases ho : o = txin.prevout
    · subst ho
      have hold : Lists byPrev txin.prevout k ↔ k ∈ its :=
        ⟨fun ⟨_, hget, hk⟩ => Option.some.inj (hget.symm.trans hits) ▸ hk, fun hk => ⟨_, hits, hk⟩⟩
      rw [hold]
      split
      · rename_i hempty
        rw [List.isEmpty_iff] at hempty
        rw [hempty] at hmem
        unfold Lists
        rw [get_erase, if_pos rfl]
        tauto
      · unfold Lists
        rw [get_modify, if_pos rfl, hits]
        simp only [Option.map_some, Option.some.injEq, exists_eq_left', true_and, hmem]
        tauto
    · split
      · simp [Lists, get_erase, ho]
      · simp [Lists, get_modify, ho]

theorem HasSets.erasePrev (h : HasSets byPrev) (it : Uint256) (txin : CTxIn) :
    HasSets (erasePrev it byPrev txin) := by
  intro o its ho
  unfold Orphans.erasePrev at ho
  split at ho
  · exact h o its ho
  · rename_i old hold
    split at ho
    · rw [get_erase] at ho
      split at ho
      · cases ho
      · exact h o its ho
    · rename_i hne
      rcases get_modify_cases hold ho with ⟨_, rfl⟩ | ⟨_, hget⟩
      · exact ⟨(h _ _ hold).1.erase _, by simpa using hne⟩
      · exact h o its hget

theorem foldl_erasePrev (it : Uint256) (vin : List CTxIn) (h : HasSets byPrev) :
    HasSets (vin.foldl (erasePrev it) byPrev) ∧
    ∀ o k, Lists (vin.foldl (erasePrev it) byPrev) o k ↔
      Lists byPrev o k ∧ ¬ (o ∈ vin.map (·.prevout) ∧ k = it) := by
  induction vin generalizing byPrev with
  | nil => exact ⟨h, by simp⟩
  | cons txin vin ih =>
    obtain ⟨hsets, hlists⟩ := ih (h.erasePrev it txin)
    refine ⟨hsets, fun o k => (hlists o k).trans ?_⟩
    rw [lists_erasePrev h, List.map_cons, List.mem_cons]
    tauto

/-! ## The two maps in step -/

/-- An orphan stands under its id, and the index lists it under each of its
inputs and nowhere else. -/
structure Linked (H : Hashes) (s : Orphans) : Prop where
  hash : ∀ it orphan, s.mapOrphanTransactions.get it = some orphan → orphan.tx.getHash H = it
  sets : HasSets s.mapOrphanTransactionsByPrev
  lists : ∀ o it, Lists s.mapOrphanTransactionsByPrev o it ↔
    ∃ orphan, s.mapOrphanTransactions.get it = some orphan ∧ o ∈ orphan.tx.vin.map (·.prevout)

theorem linked_empty : Linked H {} :=
  ⟨fun _ _ h => (nomatch h), fun _ _ h => (nomatch h), fun o it => by simp [Lists]⟩

theorem Linked.addOrphanTx (h : Linked H s) (nTime : Int) (tx : CTransaction) (peer : NodeId) :
    Linked H (s.addOrphanTx H nTime tx peer).1 := by
  unfold Orphans.addOrphanTx
  dsimp only
  split
  · exact h
  split
  · exact h
  rename_i hnew _
  rw [Bool.not_eq_true, Option.isSome_eq_false_iff, Option.isNone_iff_eq_none] at hnew
  obtain ⟨hsets, hlists⟩ := foldl_addPrev (tx.getHash H) tx.vin h.sets
  refine ⟨fun it orphan hit => ?_, hsets, fun o it => (hlists o it).trans ?_⟩
  · rw [get_insert _ hnew] at hit
    split at hit
    · rename_i he
      cases hit
      exact he.symm
    · exact h.hash it orphan hit
  · rw [h.lists, get_insert _ hnew]
    by_cases he : it = tx.getHash H
    · simp [he, hnew]
    · simp [he]

theorem Linked.eraseOrphanTx (h : Linked H s) (hash : Uint256) :
    Linked H (s.eraseOrphanTx hash) := by
  unfold Orphans.eraseOrphanTx
  split
  · exact h
  rename_i orphan horphan
  obtain ⟨hsets, hlists⟩ := foldl_erasePrev hash orphan.tx.vin h.sets
  refine ⟨fun it orphan' hit => ?_, hsets, fun o it => (hlists o it).trans ?_⟩
  · rw [get_erase] at hit
    split at hit
    · cases hit
    · exact h.hash it orphan' hit
  · rw [h.lists, get_erase]
    by_cases he : it = hash
    · simp [he, horphan]
    · simp [he]

theorem Linked.foldl_erase {α : Type} (f : α → Uint256) (l : List α) (h : Linked H s) :
    Linked H (l.foldl (fun s a => s.eraseOrphanTx (f a)) s) := by
  induction l generalizing s with
  | nil => exact h
  | cons a l ih => exact ih (h.eraseOrphanTx (f a))

theorem Linked.eraseEach (h : Linked H s) (p : COrphanTx → Bool) : Linked H (s.eraseEach H p) :=
  h.foldl_erase (fun orphan : Uint256 × COrphanTx => orphan.2.tx.getHash H) _

theorem Linked.sweep (h : Linked H s) (nNow : Int) : Linked H (s.sweep H nNow) := by
  unfold Orphans.sweep
  split
  · obtain ⟨hhash, hsets, hlists⟩ := h.eraseEach fun orphan => decide (orphan.nTimeExpire ≤ nNow)
    exact ⟨hhash, hsets, hlists⟩
  · exact h

theorem Linked.syncTransaction (h : Linked H s) (tx : CTransaction) (fInBlock : Bool) :
    Linked H (s.syncTransaction H tx fInBlock) := by
  unfold Orphans.syncTransaction
  split
  · exact h
  · exact h.foldl_erase id _

/-! ## The limit of the pool -/

theorem least_mem {keys : List Uint256} (h : least keys = some k) : k ∈ keys := by
  have hfold : ∀ (keys : List Uint256) (m : Uint256),
      keys.foldl (fun m k => if k.less m then k else m) m ∈ m :: keys := by
    intro keys
    induction keys with
    | nil => exact fun m => List.mem_singleton.mpr rfl
    | cons k keys ih =>
      intro m
      rw [List.foldl_cons]
      split
      · exact List.mem_cons_of_mem _ (ih k)
      · rcases List.mem_cons.mp (ih m) with hm | hm
        · rw [hm]
          exact List.mem_cons_self
        · exact List.mem_cons_of_mem _ (List.mem_cons_of_mem _ hm)
  cases keys with
  | nil => cases h
  | cons m keys =>
    cases h
    exact hfold keys m

/-- An orphan is found whenever there is one. -/
theorem randomOrphan_spec (r : Uint256) : (s.randomOrphan r = none ∧
    s.mapOrphanTransactions.keys = []) ∨
      ∃ k ∈ s.mapOrphanTransactions.keys, s.randomOrphan r = some k := by
  unfold randomOrphan
  split
  · rename_i k hk
    exact Or.inr ⟨k, List.mem_of_mem_filter (least_mem hk), rfl⟩
  · cases hkeys : s.mapOrphanTransactions.keys with
    | nil => exact Or.inl ⟨rfl, rfl⟩
    | cons m keys => exact Or.inr ⟨_, least_mem rfl, rfl⟩

theorem length_eraseOrphanTx (hk : k ∈ s.mapOrphanTransactions.keys) :
    (s.eraseOrphanTx k).mapOrphanTransactions.keys.length + 1 =
      s.mapOrphanTransactions.keys.length := by
  obtain ⟨orphan, horphan⟩ :=
    Option.isSome_iff_exists.mp ((s.mapOrphanTransactions.mem_keys k).mp hk)
  unfold eraseOrphanTx
  rw [horphan]
  rw [keys_erase, List.length_erase_of_mem hk]
  have := List.length_pos_of_mem hk
  omega

/-- What is left of the pool was there before. -/
def Within (s' s : Orphans) : Prop :=
  ∀ it orphan, s'.mapOrphanTransactions.get it = some orphan →
    s.mapOrphanTransactions.get it = some orphan

theorem within_eraseOrphanTx (s : Orphans) (hash : Uint256) : (s.eraseOrphanTx hash).Within s := by
  intro it orphan hit
  unfold eraseOrphanTx at hit
  split at hit
  · exact hit
  · rw [get_erase] at hit
    split at hit
    · cases hit
    · exact hit

theorem get_eraseOrphanTx_self (s : Orphans) (hash : Uint256) :
    (s.eraseOrphanTx hash).mapOrphanTransactions.get hash = none := by
  unfold eraseOrphanTx
  split
  · assumption
  · simp [get_erase]

theorem foldl_erase_spec {α : Type} (f : α → Uint256) (l : List α) (s : Orphans) :
    (l.foldl (fun s a => s.eraseOrphanTx (f a)) s).Within s ∧ ∀ a ∈ l,
      (l.foldl (fun s a => s.eraseOrphanTx (f a)) s).mapOrphanTransactions.get (f a) = none := by
  induction l generalizing s with
  | nil => exact ⟨fun _ _ h => h, by simp⟩
  | cons a l ih =>
    obtain ⟨hwithin, hgone⟩ := ih (s.eraseOrphanTx (f a))
    refine ⟨fun it orphan hit => within_eraseOrphanTx s _ it orphan (hwithin it orphan hit), ?_⟩
    intro b hb
    rcases List.mem_cons.mp hb with rfl | hb
    · rw [← Option.not_isSome_iff_eq_none, Option.isSome_iff_exists]
      rintro ⟨orphan, hget⟩
      exact nomatch (get_eraseOrphanTx_self s _).symm.trans (hwithin _ _ hget)
    · exact hgone b hb

/-- After a sweep no orphan is left that has expired. -/
theorem Linked.sweep_expired (h : Linked H s) {nNow : Int} (hsweep : s.nNextSweep ≤ nNow)
    {it : Uint256} {orphan : COrphanTx}
    (hit : (s.sweep H nNow).mapOrphanTransactions.get it = some orphan) :
    nNow < orphan.nTimeExpire := by
  unfold Orphans.sweep at hit
  rw [if_pos hsweep] at hit
  by_contra hexpired
  obtain ⟨hwithin, hgone⟩ := foldl_erase_spec (fun orphan => orphan.2.tx.getHash H)
    (s.entries.filter (·.2.nTimeExpire ≤ nNow)) s
  have hold := hwithin it orphan hit
  have hmem : (it, orphan) ∈ s.entries.filter (·.2.nTimeExpire ≤ nNow) := by
    rw [List.mem_filter, entries, List.mem_filterMap]
    refine ⟨⟨it, (s.mapOrphanTransactions.mem_keys it).mpr (by simp [hold]), by simp [hold]⟩, ?_⟩
    exact decide_eq_true (not_lt.mp hexpired)
  have := hgone _ hmem
  rw [h.hash it orphan hold] at this
  exact nomatch this.symm.trans hit

theorem evict_spec (nMaxOrphans : Nat) (rand : Nat → Uint256) (fuel : Nat) (h : Linked H s)
    (hfuel : s.mapOrphanTransactions.keys.length ≤ fuel) :
    Linked H (evict nMaxOrphans rand fuel s) ∧ (evict nMaxOrphans rand fuel s).Within s ∧
      (evict nMaxOrphans rand fuel s).mapOrphanTransactions.keys.length ≤ nMaxOrphans := by
  induction fuel generalizing s with
  | zero =>
    rw [evict]
    exact ⟨h, fun _ _ h => h, by omega⟩
  | succ fuel ih =>
    rw [evict]
    split
    · rename_i hmany
      rcases randomOrphan_spec (s := s) (rand fuel) with ⟨_, hnone⟩ | ⟨k, hk, hrandom⟩
      · rw [hnone] at hmany
        exact absurd hmany (Nat.not_lt_zero _)
      · rw [hrandom]
        have := length_eraseOrphanTx hk
        obtain ⟨hlinked, hwithin, hlen⟩ := ih (h.eraseOrphanTx k) (by omega)
        exact ⟨hlinked, fun it orphan hit => within_eraseOrphanTx s k it orphan
          (hwithin it orphan hit), hlen⟩
    · rename_i hfew
      exact ⟨h, fun _ _ h => h, by omega⟩

/-- `LimitOrphanTxSize` comes to an end with no more orphans than it may
leave, and with none that a sweep found expired. -/
theorem limitOrphanTxSize_spec (h : Linked H s) (nMaxOrphans : Nat) (nNow : Int)
    (rand : Nat → Uint256) : Linked H (s.limitOrphanTxSize H nMaxOrphans nNow rand) ∧
      (s.limitOrphanTxSize H nMaxOrphans nNow rand).mapOrphanTransactions.keys.length ≤
        nMaxOrphans ∧
      (s.nNextSweep ≤ nNow → ∀ it orphan,
        (s.limitOrphanTxSize H nMaxOrphans nNow rand).mapOrphanTransactions.get it = some orphan →
        nNow < orphan.nTimeExpire) := by
  obtain ⟨hlinked, hwithin, hlen⟩ := evict_spec nMaxOrphans rand _ (h.sweep nNow) (Nat.le_refl _)
  exact ⟨hlinked, hlen, fun hsweep it orphan hit => h.sweep_expired hsweep (hwithin it orphan hit)⟩

theorem Linked.run (h : Linked H s) (call : OrphanCall) : Linked H (call.run H s) := by
  cases call with
  | addOrphanTx nTime tx peer => exact h.addOrphanTx nTime tx peer
  | eraseOrphanTx hash => exact h.eraseOrphanTx hash
  | eraseOrphansFor peer => exact h.eraseEach fun orphan => orphan.fromPeer == peer
  | limitOrphanTxSize nMaxOrphans nNow rand => exact (limitOrphanTxSize_spec h ..).1
  | syncTransaction tx fInBlock => exact h.syncTransaction tx fInBlock

theorem linked_after (H : Hashes) (calls : List OrphanCall) : Linked H (after H calls) := by
  induction calls using List.reverseRecOn with
  | nil => exact linked_empty
  | append_singleton calls call ih =>
    rw [after, List.foldl_concat]
    exact ih.run call

/-- After any calls the index lists under each output just the stored orphans
that spend it, with no empty set, and the limit leaves at most `nMaxOrphans`
orphans and none that its sweep found expired. -/
theorem orphan_indexes_agree (H : Hashes) (calls : List OrphanCall) :
    (∀ o its, (after H calls).mapOrphanTransactionsByPrev.get o = some its →
      its ≠ [] ∧ its.Nodup) ∧
    (∀ o it, (∃ its, (after H calls).mapOrphanTransactionsByPrev.get o = some its ∧ it ∈ its) ↔
      ∃ orphan, (after H calls).mapOrphanTransactions.get it = some orphan ∧
        o ∈ orphan.tx.vin.map (·.prevout)) ∧
    ∀ nMaxOrphans nNow rand,
      ((after H calls).limitOrphanTxSize H nMaxOrphans nNow rand).mapOrphanTransactions.keys.length
        ≤ nMaxOrphans ∧
      ((after H calls).nNextSweep ≤ nNow → ∀ it orphan,
        ((after H calls).limitOrphanTxSize H nMaxOrphans nNow rand).mapOrphanTransactions.get it =
          some orphan → nNow < orphan.nTimeExpire) := by
  have h := linked_after H calls
  exact ⟨fun o its hits => (h.sets o its hits).symm, h.lists, fun nMaxOrphans nNow rand =>
    (limitOrphanTxSize_spec h nMaxOrphans nNow rand).2⟩

end Orphans

end junkcoin
