-- What `InitData` does with any compact block: where the prefilled
-- transactions and the short ids go, when it does not return, and that a block
-- is rebuilt from its own compact form.
import Junkcoin.BlockEncodings
import Mathlib.Data.List.GetD

namespace junkcoin

open PartiallyDownloadedBlock Reader CBlockHeaderAndShortTxIDs

/-! ## The prefilled transactions -/

/-- The places of the prefilled transactions; `next` is the first one after
the last. -/
def prefilledPlaces : List PrefilledTransaction → (next : Nat) → List Nat
  | [], _ => []
  | p :: ps, next => (next + p.index.toNat) :: prefilledPlaces ps (next + p.index.toNat + 1)

/-- The prefilled transactions that are accepted. -/
def prefilledOk (nShort : Nat) : List PrefilledTransaction → (i next : Nat) → Bool
  | [], _, _ => true
  | p :: ps, i, next =>
    !p.tx.isNull && next + p.index.toNat ≤ 0xffff && next + p.index.toNat ≤ nShort + i &&
      prefilledOk nShort ps (i + 1) (next + p.index.toNat + 1)

/-- The transactions at their places. -/
def placed : List PrefilledTransaction → (next : Nat) → List (Option CTransaction) →
    List (Option CTransaction)
  | [], _, avail => avail
  | p :: ps, next, avail =>
    placed ps (next + p.index.toNat + 1) (avail.set (next + p.index.toNat) (some p.tx))

variable {nShort : Nat} {ps : List PrefilledTransaction} {i next : Nat}
  {avail : List (Option CTransaction)} {α : Type} {n p q index_offset : Nat} {tx : CTransaction}
  {l : List (UInt64 × Nat)}

theorem elemAt_eq {l : List α} (h : n < l.length) : elemAt l n = .ok l[n] := by
  rw [elemAt, List.getElem?_eq_getElem h]

theorem placePrefilled_eq (hlen : avail.length = nShort + i + ps.length) :
    placePrefilled nShort ps i ((next : Int) - 1) avail =
      if prefilledOk nShort ps i next then .ok (placed ps next avail)
      else .error (.returns .INVALID) := by
  induction ps generalizing i next avail with
  | nil => rfl
  | cons p ps ih =>
    have hlast : (next : Int) - 1 + p.index.toNat + 1 = (next + p.index.toNat : Nat) := by omega
    rw [placePrefilled, prefilledOk, placed]
    dsimp only
    rw [hlast, Int.toNat_natCast]
    rw [List.length_cons] at hlen
    cases hnull : p.tx.isNull with
    | true => rfl
    | false =>
      by_cases hmax : next + p.index.toNat ≤ 0xffff
      · by_cases hfit : next + p.index.toNat ≤ nShort + i
        · have hnext : ((next + p.index.toNat : Nat) : Int) =
              ((next + p.index.toNat + 1 : Nat) : Int) - 1 := by omega
          have hset : (avail.set (next + p.index.toNat) (some p.tx)).length =
              nShort + (i + 1) + ps.length := by
            rw [List.length_set]
            omega
          rw [if_neg (by simp), if_neg (by omega), if_neg (by omega), elemAt_eq (by omega)]
          dsimp only [bind, Except.bind]
          rw [hnext, ih hset]
          simp [hmax, hfit]
        · rw [if_neg (by simp), if_neg (by omega), if_pos (by omega)]
          simp [hfit]
      · rw [if_neg (by simp), if_pos (by omega)]
        simp [hmax]

theorem length_placed : (placed ps next avail).length = avail.length := by
  induction ps generalizing next avail with
  | nil => rfl
  | cons p ps ih => rw [placed, ih, List.length_set]

/-- Whether a place is free. -/
def isFree (avail : List (Option CTransaction)) (p : Nat) : Bool := (avail.getD p none).isNone

theorem isFree_set (hp : p < avail.length) :
    isFree (avail.set p (some tx)) q = (isFree avail q && q != p) := by
  unfold isFree
  by_cases h : q = p
  · simp [h, hp]
  · simp [List.getElem?_set_ne (Ne.symm h), h]

/-- The places that are left free. -/
theorem isFree_placed (hok : prefilledOk nShort ps i next = true)
    (hlen : avail.length = nShort + i + ps.length) (q : Nat) :
    isFree (placed ps next avail) q =
      (isFree avail q && !(prefilledPlaces ps next).contains q) := by
  induction ps generalizing i next avail with
  | nil => simp [placed, prefilledPlaces]
  | cons p ps ih =>
    rw [prefilledOk, Bool.and_eq_true, Bool.and_eq_true, Bool.and_eq_true] at hok
    obtain ⟨⟨_, hfit⟩, hrest⟩ := hok
    rw [decide_eq_true_eq] at hfit
    rw [List.length_cons] at hlen
    rw [placed, ih hrest (by rw [List.length_set]; omega), isFree_set (by omega), prefilledPlaces,
      List.contains_cons, Bool.not_or, Bool.and_assoc]
    rfl

/-- There are at most 65536 prefilled transactions, and if there are as many,
they fill the first 65536 places. -/
theorem prefilledOk_length (hok : prefilledOk nShort ps i next = true) (hnext : next ≤ 2 ^ 16) :
    next + ps.length ≤ 2 ^ 16 ∧
      (next + ps.length = 2 ^ 16 → ∀ q, next ≤ q → q < 2 ^ 16 → q ∈ prefilledPlaces ps next) := by
  induction ps generalizing i next with
  | nil => exact ⟨hnext, fun he q h1 h2 => by simp only [List.length_nil] at he; omega⟩
  | cons p ps ih =>
    rw [prefilledOk, Bool.and_eq_true, Bool.and_eq_true, Bool.and_eq_true] at hok
    obtain ⟨⟨⟨_, hmax⟩, _⟩, hrest⟩ := hok
    rw [decide_eq_true_eq] at hmax
    obtain ⟨hle, hfill⟩ := ih hrest (by omega)
    rw [List.length_cons]
    refine ⟨by omega, fun he q h1 h2 => ?_⟩
    rw [prefilledPlaces, List.mem_cons]
    rcases Nat.eq_or_lt_of_le h1 with rfl | hlt
    · exact Or.inl (by omega)
    · exact Or.inr (hfill (by omega) q (by omega) h2)

/-! ## The places of the short ids -/

/-- The free places from `q` on. -/
def freeFrom (avail : List (Option CTransaction)) (q : Nat) : List Nat :=
  (List.range' q (avail.length - q)).filter (isFree avail)

/-- The next free place, with only filled ones before it. -/
theorem freeFrom_cons {rest : List Nat} (h : freeFrom avail q = p :: rest) :
    q ≤ p ∧ p < avail.length ∧ isFree avail p = true ∧
      (∀ k, q ≤ k → k < p → isFree avail k = false) ∧ freeFrom avail (p + 1) = rest := by
  obtain ⟨n, hn⟩ : ∃ n, n = avail.length - q := ⟨_, rfl⟩
  unfold freeFrom at h
  rw [← hn] at h
  induction n generalizing q with
  | zero => cases h
  | succ n ih =>
    rw [List.range'_succ, List.filter_cons] at h
    split at h
    · rename_i hfree
      rw [List.cons.injEq] at h
      obtain ⟨rfl, hrest⟩ := h
      refine ⟨Nat.le_refl q, by omega, hfree, fun k h1 h2 => by omega, ?_⟩
      rw [freeFrom, show avail.length - (q + 1) = n by omega]
      exact hrest
    · rename_i hfilled
      obtain ⟨hle, hlt, hfree, hbetween, hrest⟩ := ih h (by omega)
      refine ⟨by omega, hlt, hfree, fun k h1 h2 => ?_, hrest⟩
      rcases Nat.eq_or_lt_of_le h1 with rfl | hk
      · simpa using hfilled
      · exact hbetween k hk h2

/-- The free places are so many that they fit behind the first of them. -/
theorem freeFrom_bound {rest : List Nat} (h : freeFrom avail q = p :: rest) :
    p + rest.length < avail.length := by
  obtain ⟨-, hlt, -, -, hrest⟩ := freeFrom_cons h
  have hle : rest.length ≤ avail.length - (p + 1) := by
    rw [← hrest, freeFrom]
    exact (List.length_filter_le _ _).trans (Nat.le_of_eq List.length_range')
  omega

theorem elemAt_isFree (avail : List (Option CTransaction)) (hp : p < avail.length) :
    ∃ tx, elemAt avail p = .ok tx ∧ tx.isNone = isFree avail p := by
  refine ⟨_, elemAt_eq hp, ?_⟩
  simp [isFree, hp]

/-- The loop ends at the next free place, if that is less than 65536 away. -/
theorem nextFree_eq {i turns : Nat} (hp : p < avail.length) (hle : i + index_offset ≤ p)
    (hfree : isFree avail p = true)
    (hbetween : ∀ k, i + index_offset ≤ k → k < p → isFree avail k = false)
    (hoffset : p - i < 2 ^ 16) (hturns : p - (i + index_offset) < turns) :
    nextFree avail i turns index_offset = .ok (p - i) := by
  induction turns generalizing index_offset with
  | zero => omega
  | succ turns ih =>
    obtain ⟨tx, hat, htx⟩ := elemAt_isFree avail (p := i + index_offset) (by omega)
    rw [nextFree, hat]
    dsimp only [bind, Except.bind]
    rcases Nat.eq_or_lt_of_le hle with he | hlt
    · rw [he, hfree] at htx
      rw [if_neg (by simpa using htx)]
      congr 1
      omega
    · rw [hbetween _ (Nat.le_refl _) hlt] at htx
      have hsmall : (index_offset + 1) % 2 ^ 16 = index_offset + 1 := Nat.mod_eq_of_lt (by omega)
      rw [if_pos (by simpa using htx), hsmall]
      exact ih (by omega) (fun k h1 h2 => hbetween k (by omega) h2) (by omega)

/-- The loop does not end when 65536 places in a row are filled. -/
theorem nextFree_endless {i turns : Nat} (hlen : i + 2 ^ 16 ≤ avail.length)
    (hfilled : ∀ k, i ≤ k → k < i + 2 ^ 16 → isFree avail k = false) (h : index_offset < 2 ^ 16) :
    nextFree avail i turns index_offset = .error .endless := by
  induction turns generalizing index_offset with
  | zero => rfl
  | succ turns ih =>
    obtain ⟨tx, hat, htx⟩ := elemAt_isFree avail (p := i + index_offset) (by omega)
    rw [hfilled _ (by omega) (by omega)] at htx
    rw [nextFree, hat]
    dsimp only [bind, Except.bind]
    rw [if_pos (by simpa using htx)]
    exact ih (Nat.mod_lt _ (by decide))

/-- No bucket of the map gets too large. -/
def uncrowded (E : ShortIdEnv) : (seen shorttxids : List UInt64) → Bool
  | _, [] => true
  | seen, shortid :: shorttxids =>
    E.bucketSize (shortid :: seen) shortid ≤ 12 && uncrowded E (shortid :: seen) shorttxids

/-- The short ids get the free places, in order, cut to 16 bits. -/
theorem mapShortIds_eq {E : ShortIdEnv} {ids : List UInt64} {i : Nat} {map : List (UInt64 × Nat)}
    (hids : ids.length ≤ (freeFrom avail (i + index_offset)).length)
    (hfew : avail.length < (freeFrom avail (i + index_offset)).length + i + 2 ^ 16) :
    mapShortIds E avail ids i index_offset map =
      if uncrowded E (map.map (·.1)) ids then
        .ok ((ids.zip ((freeFrom avail (i + index_offset)).map (· % 2 ^ 16))).reverse ++ map)
      else .error (.returns .FAILED) := by
  induction ids generalizing i index_offset map with
  | nil => rfl
  | cons shortid ids ih =>
    cases hslots : freeFrom avail (i + index_offset) with
    | nil =>
      rw [hslots] at hids
      cases hids
    | cons p rest =>
      obtain ⟨hle, hlt, hfree, hbetween, hrest⟩ := freeFrom_cons hslots
      have hbound := freeFrom_bound hslots
      rw [hslots, List.length_cons] at hids hfew
      rw [List.length_cons] at hids
      have hnext : i + 1 + (p - i) = p + 1 := by omega
      have hback : i + (p - i) = p := by omega
      rw [mapShortIds, nextFree_eq hlt hle hfree hbetween (by omega) (by omega)]
      dsimp only [bind, Except.bind]
      rw [hback, uncrowded, List.map_cons]
      dsimp only
      by_cases hsize : E.bucketSize (shortid :: map.map (·.1)) shortid ≤ 12
      · rw [if_neg (by omega), ih (by rw [hnext, hrest]; omega) (by rw [hnext, hrest]; omega),
          hnext, hrest, List.map_cons, List.map_cons, List.zip_cons_cons, List.reverse_cons,
          List.append_assoc, List.singleton_append, decide_eq_true hsize, Bool.true_and]
      · rw [if_pos (by omega), decide_eq_false hsize, Bool.false_and, if_neg (by simp)]

/-- The free places of a message, in terms of the message alone. -/
def CBlockHeaderAndShortTxIDs.freePlaces (c : CBlockHeaderAndShortTxIDs) : List Nat :=
  (List.range c.blockTxCount).filter fun p => !(prefilledPlaces c.prefilledtxn 0).contains p

/-- The messages whose short ids are looked at. -/
structure CBlockHeaderAndShortTxIDs.Accepted (c : CBlockHeaderAndShortTxIDs) : Prop where
  header : c.header.isNull = false
  nonempty : (c.shorttxids.isEmpty && c.prefilledtxn.isEmpty) = false
  few : c.blockTxCount ≤ MAX_BLOCK_BASE_SIZE / MIN_TRANSACTION_BASE_SIZE
  prefilled : prefilledOk c.shorttxids.length c.prefilledtxn 0 0 = true

namespace CBlockHeaderAndShortTxIDs

variable {c : CBlockHeaderAndShortTxIDs}

/-- `txn_available` after the first loop. -/
def placedTxs (c : CBlockHeaderAndShortTxIDs) : List (Option CTransaction) :=
  placed c.prefilledtxn 0 (List.replicate c.blockTxCount none)

theorem length_placedTxs : c.placedTxs.length = c.blockTxCount := by
  rw [placedTxs, length_placed, List.length_replicate]

theorem isFree_placedTxs (h : c.Accepted) (q : Nat) :
    isFree c.placedTxs q = !(prefilledPlaces c.prefilledtxn 0).contains q := by
  have hfree : isFree (List.replicate c.blockTxCount none) q = true := by
    unfold isFree
    rw [List.getD_eq_getElem?_getD, List.getElem?_replicate]
    split
    · rfl
    · rfl
  rw [placedTxs, isFree_placed h.prefilled (by rw [List.length_replicate, blockTxCount]; omega),
    hfree, Bool.true_and]

theorem freeFrom_placedTxs (h : c.Accepted) : freeFrom c.placedTxs 0 = c.freePlaces := by
  rw [freeFrom, length_placedTxs, Nat.sub_zero, ← List.range_eq_range', freePlaces]
  exact List.filter_congr fun q _ => isFree_placedTxs h q

end CBlockHeaderAndShortTxIDs

/-- The places of the prefilled transactions are different ones of the block. -/
theorem prefilledPlaces_spec (hok : prefilledOk nShort ps i next = true) :
    (prefilledPlaces ps next).Nodup ∧
      ∀ p ∈ prefilledPlaces ps next, next ≤ p ∧ p < nShort + i + ps.length := by
  induction ps generalizing i next with
  | nil => exact ⟨List.nodup_nil, fun p hp => nomatch hp⟩
  | cons p ps ih =>
    rw [prefilledOk, Bool.and_eq_true, Bool.and_eq_true, Bool.and_eq_true] at hok
    obtain ⟨⟨_, hfit⟩, hrest⟩ := hok
    rw [decide_eq_true_eq] at hfit
    obtain ⟨hnodup, hin⟩ := ih hrest
    rw [prefilledPlaces, List.length_cons]
    refine ⟨List.nodup_cons.mpr ⟨fun hmem => ?_, hnodup⟩, fun q hq => ?_⟩
    · have := (hin _ hmem).1
      omega
    · rcases List.mem_cons.mp hq with rfl | hq
      · omega
      · have := hin q hq
        omega

namespace CBlockHeaderAndShortTxIDs

variable {c : CBlockHeaderAndShortTxIDs}

theorem length_prefilledPlaces (ps : List PrefilledTransaction) (next : Nat) :
    (prefilledPlaces ps next).length = ps.length := by
  induction ps generalizing next with
  | nil => rfl
  | cons p ps ih => rw [prefilledPlaces, List.length_cons, ih, List.length_cons]

/-- There are as many free places as short ids. -/
theorem length_freePlaces (h : c.Accepted) : c.freePlaces.length = c.shorttxids.length := by
  obtain ⟨hnodup, hin⟩ := prefilledPlaces_spec h.prefilled
  have hfilled : ((List.range c.blockTxCount).filter
      fun p => (prefilledPlaces c.prefilledtxn 0).contains p).length = c.prefilledtxn.length := by
    rw [← length_prefilledPlaces c.prefilledtxn 0]
    refine List.Perm.length_eq ((List.perm_ext_iff_of_nodup ?_ hnodup).mpr fun p => ?_)
    · exact List.nodup_range.filter _
    · rw [List.mem_filter, List.mem_range, List.contains_iff_mem]
      refine ⟨fun hp => hp.2, fun hp => ⟨?_, hp⟩⟩
      have := (hin p hp).2
      rw [blockTxCount]
      omega
  have hsum := List.length_eq_length_filter_add (l := List.range c.blockTxCount)
    fun p => (prefilledPlaces c.prefilledtxn 0).contains p
  rw [List.length_range, hfilled] at hsum
  have hcount : c.blockTxCount = c.shorttxids.length + c.prefilledtxn.length := rfl
  rw [freePlaces]
  omega

end CBlockHeaderAndShortTxIDs

/-! ## The map of the short ids -/

/-- A key that occurs once is looked up where it stands. -/
theorem lookup_of_mem (h : (l.map (·.1)).Nodup) {k : UInt64} {v : Nat} (hmem : (k, v) ∈ l) :
    l.lookup k = some v := by
  induction l with
  | nil => cases hmem
  | cons e l ih =>
    rw [List.map_cons, List.nodup_cons] at h
    rcases List.mem_cons.mp hmem with rfl | hmem
    · exact List.lookup_cons_self
    · have hne : k ≠ e.1 := by
        rintro rfl
        exact h.1 (List.mem_map.mpr ⟨_, hmem, rfl⟩)
      rw [List.lookup_cons, beq_eq_false_iff_ne.mpr hne]
      exact ih h.2 hmem

theorem mem_of_lookup {k : UInt64} {v : Nat} (h : l.lookup k = some v) : (k, v) ∈ l := by
  obtain ⟨l1, l2, hl, -⟩ := List.lookup_eq_some_iff.mp h
  rw [hl]
  simp

theorem length_dedup_eq_iff {l : List UInt64} : l.dedup.length = l.length ↔ l.Nodup := by
  constructor
  · intro h
    rw [← (List.dedup_sublist l).eq_of_length h]
    exact List.nodup_dedup l
  · intro h
    rw [h.dedup]

namespace CBlockHeaderAndShortTxIDs

variable {c : CBlockHeaderAndShortTxIDs} {E : ShortIdEnv} {k : UInt64} {v : Nat}

/-- The map of the short ids to their places, the last first. -/
def idMap (c : CBlockHeaderAndShortTxIDs) : List (UInt64 × Nat) :=
  (c.shorttxids.zip (c.freePlaces.map (· % 2 ^ 16))).reverse

theorem mapShortIds_placedTxs (h : c.Accepted)
    (hfew : c.prefilledtxn.length < 2 ^ 16 ∨ c.shorttxids = []) :
    mapShortIds E c.placedTxs c.shorttxids 0 0 [] =
      if uncrowded E [] c.shorttxids then .ok c.idMap else .error (.returns .FAILED) := by
  rcases hfew with hfew | hnone
  · have hfree := freeFrom_placedTxs h
    have hlen := length_freePlaces h
    have hcount : c.blockTxCount = c.shorttxids.length + c.prefilledtxn.length := rfl
    rw [mapShortIds_eq (by rw [Nat.zero_add, hfree, hlen])
      (by rw [Nat.zero_add, hfree, hlen, length_placedTxs]; omega), Nat.zero_add, hfree,
      List.append_nil]
    rfl
  · rw [idMap, hnone]
    rfl

theorem keys_idMap (h : c.Accepted) : c.idMap.map (·.1) = c.shorttxids.reverse := by
  rw [idMap, List.map_reverse, List.map_fst_zip (by rw [List.length_map, length_freePlaces h])]

theorem mem_idMap : (k, v) ∈ c.idMap ↔
    ∃ i : Nat, c.shorttxids[i]? = some k ∧ (c.freePlaces.map (· % 2 ^ 16))[i]? = some v := by
  rw [idMap, List.mem_reverse, List.mem_iff_getElem?]
  simp only [List.getElem?_zip_eq_some]

/-- The place of a short id, in terms of the message alone. -/
def placeOf (c : CBlockHeaderAndShortTxIDs) (i : Nat) : Nat := c.freePlaces.getD i 0 % 2 ^ 16

theorem mem_idMap_iff (h : c.Accepted) : (k, v) ∈ c.idMap ↔
    ∃ i : Nat, c.shorttxids[i]? = some k ∧ c.placeOf i = v := by
  rw [mem_idMap]
  refine exists_congr fun i => and_congr_right fun hi => ?_
  have hlt : i < c.freePlaces.length := by
    rw [length_freePlaces h]
    exact (List.getElem?_eq_some_iff.mp hi).1
  simp [placeOf, hlt]

/-- A place is one of the block's. -/
theorem place_lt (h : c.Accepted) (hmem : (k, v) ∈ c.idMap) : v < c.blockTxCount := by
  obtain ⟨i, hi, rfl⟩ := (mem_idMap_iff h).mp hmem
  have hlt : i < c.freePlaces.length := by
    rw [length_freePlaces h]
    exact (List.getElem?_eq_some_iff.mp hi).1
  have hin : c.freePlaces[i] ∈ List.range c.blockTxCount :=
    (List.mem_filter.mp (List.getElem_mem hlt)).1
  refine Nat.lt_of_le_of_lt (Nat.mod_le _ _) ?_
  rw [List.getD_eq_getElem _ _ hlt]
  exact List.mem_range.mp hin

end CBlockHeaderAndShortTxIDs

/-! ## The scans -/

section Scans

variable {α : Type} {getShortID : Uint256 → UInt64} {shorttxids : List (UInt64 × Nat)} {size : Nat}
  {takeTx : Nat → α → Scan → Except Stop Scan} {N : Nat}

theorem scanStep_keeps {P : Scan → Prop} {e : Uint256 × α} {s : Scan} (hs : P s)
    (hstep : ∀ pos, shorttxids.lookup (getShortID e.1) = some pos →
      ∃ s', takeTx pos e.2 s = .ok s' ∧ P s') :
    ∃ s', scanStep getShortID shorttxids takeTx e s = .ok s' ∧ P s' := by
  unfold scanStep
  cases hlookup : shorttxids.lookup (getShortID e.1) with
  | none => exact ⟨s, rfl, hs⟩
  | some pos => exact hstep pos hlookup

/-- What every step of a scan keeps, the scan keeps. -/
theorem scan_keeps {P : Scan → Prop} {entries : List (Uint256 × α)}
    (hstep : ∀ e ∈ entries, ∀ s pos, P s → shorttxids.lookup (getShortID e.1) = some pos →
      ∃ s', takeTx pos e.2 s = .ok s' ∧ P s') {s : Scan} (hs : P s) :
    ∃ s', scan getShortID shorttxids size takeTx entries s = .ok s' ∧ P s' := by
  induction entries generalizing s with
  | nil => exact ⟨s, rfl, hs⟩
  | cons e entries ih =>
    obtain ⟨s1, hs1, hP⟩ := scanStep_keeps hs fun pos => hstep e List.mem_cons_self s pos hs
    rw [scan, hs1]
    dsimp only [bind, Except.bind]
    split
    · exact ⟨s1, rfl, hP⟩
    · exact ih (fun e he => hstep e (List.mem_cons_of_mem _ he)) hP

/-- Both vectors have a place for every transaction of the block. -/
structure Sized (N : Nat) (s : Scan) : Prop where
  txn_available : s.txn_available.length = N
  have_txn : s.have_txn.length = N

/-- What a place holds: whether a transaction was found for it, and which. -/
def cell (s : Scan) (p : Nat) : Bool × Option CTransaction :=
  (s.have_txn.getD p false, s.txn_available.getD p none)

/-- A step that writes one place. -/
structure Writes (N : Nat) (s s' : Scan) (pos : Nat) (new : Bool × Option CTransaction)
    (mempool_count : Nat) : Prop where
  sized : Sized N s'
  here : cell s' pos = new
  other : ∀ q, q ≠ pos → cell s' q = cell s q
  mempool_count : s'.mempool_count = mempool_count

variable {s : Scan} {pos : Nat}

theorem getD_set {β : Type} {l : List β} {n : Nat} {x d : β} (h : n < l.length) (q : Nat) :
    (l.set n x).getD q d = if q = n then x else l.getD q d := by
  by_cases hq : q = n
  · simp [hq, h]
  · simp [List.getElem?_set_ne (Ne.symm hq), hq]

/-- Writing both vectors at a place, or only one, or none. -/
theorem writes_set (hs : Sized N s) (hpos : pos < N) (have_txn : Bool) (tx : Option CTransaction)
    (mempool_count extra_count : Nat) :
    Writes N s
      { txn_available := s.txn_available.set pos tx, have_txn := s.have_txn.set pos have_txn
        mempool_count, extra_count } pos (have_txn, tx) mempool_count where
  sized := ⟨by rw [List.length_set, hs.txn_available], by rw [List.length_set, hs.have_txn]⟩
  here := by
    rw [cell, getD_set (by rw [hs.have_txn]; exact hpos),
      getD_set (by rw [hs.txn_available]; exact hpos), if_pos rfl, if_pos rfl]
  other q hq := by
    rw [cell, getD_set (by rw [hs.have_txn]; exact hpos),
      getD_set (by rw [hs.txn_available]; exact hpos), if_neg hq, if_neg hq]
    rfl
  mempool_count := rfl

theorem set_getD_self {β : Type} (l : List β) (n : Nat) (d : β) : l.set n (l.getD n d) = l := by
  by_cases h : n < l.length
  · rw [List.getD_eq_getElem _ _ h, List.set_getElem_self]
  · rw [List.set_eq_of_length_le (not_lt.mp h)]

/-- Where something was found already, only the transaction is written. -/
theorem writes_available (hs : Sized N s) (hpos : pos < N) (tx : Option CTransaction)
    (mempool_count extra_count : Nat) :
    Writes N s { s with txn_available := s.txn_available.set pos tx, mempool_count, extra_count }
      pos ((cell s pos).1, tx) mempool_count := by
  have h := writes_set hs hpos (cell s pos).1 tx mempool_count extra_count
  rwa [cell, set_getD_self] at h

theorem writes_self (hs : Sized N s) : Writes N s s pos (cell s pos) s.mempool_count :=
  ⟨hs, rfl, fun _ _ => rfl, rfl⟩

theorem elemAt_cell (hs : Sized N s) (hpos : pos < N) :
    elemAt s.have_txn pos = .ok (cell s pos).1 ∧
      elemAt s.txn_available pos = .ok (cell s pos).2 := by
  rw [← hs.have_txn] at hpos
  have hpos' : pos < s.txn_available.length := by rwa [hs.txn_available, ← hs.have_txn]
  rw [elemAt_eq hpos, elemAt_eq hpos', cell, List.getD_eq_getElem _ _ hpos,
    List.getD_eq_getElem _ _ hpos']
  exact ⟨rfl, rfl⟩

/-- A transaction of the mempool: the first one for a place is kept there, and
the second one takes it away. -/
theorem takeMempool_spec (hs : Sized N s) (hpos : pos < N) (tx : CTransaction) :
    ∃ s' new count, takeMempool pos tx s = .ok s' ∧ Writes N s s' pos new count ∧
      (((cell s pos).1 = false ∧ new = (true, some tx) ∧ count = s.mempool_count + 1) ∨
        (∃ t, cell s pos = (true, some t) ∧ new = (true, none) ∧ count = s.mempool_count - 1) ∨
        (cell s pos = (true, none) ∧ new = (true, none) ∧ count = s.mempool_count)) := by
  rw [takeMempool, (elemAt_cell hs hpos).1, (elemAt_cell hs hpos).2]
  have hw := writes_available hs hpos none (s.mempool_count - 1) s.extra_count
  have hself : Writes N s s pos _ _ := writes_self hs
  rcases hcell : cell s pos with ⟨_ | _, _ | t⟩ <;> rw [hcell] at hw hself
  · exact ⟨_, _, _, rfl, writes_set hs hpos true (some tx) _ _, Or.inl ⟨rfl, rfl, rfl⟩⟩
  · exact ⟨_, _, _, rfl, writes_set hs hpos true (some tx) _ _, Or.inl ⟨rfl, rfl, rfl⟩⟩
  · exact ⟨_, _, _, rfl, hself, Or.inr (Or.inr ⟨rfl, rfl, rfl⟩)⟩
  · exact ⟨_, _, _, rfl, hw, Or.inr (Or.inl ⟨t, rfl, rfl, rfl⟩)⟩

/-- A slot of the ring: a null reference is only followed where a transaction
is there already. -/
theorem takeExtra_spec {H : Hashes} (hs : Sized N s) (hpos : pos < N) (tx : Option CTransaction)
    (hsafe : ∀ t, cell s pos = (true, some t) → tx ≠ none) :
    ∃ s' new count, takeExtra H pos tx s = .ok s' ∧ Writes N s s' pos new count ∧
      (((cell s pos).1 = false ∧ new = (true, tx) ∧ count = s.mempool_count + 1) ∨
        (∃ t, cell s pos = (true, some t) ∧
          ((new = (true, none) ∧ count = s.mempool_count - 1) ∨
            (new = (true, some t) ∧ count = s.mempool_count))) ∨
        (cell s pos = (true, none) ∧ new = (true, none) ∧ count = s.mempool_count)) := by
  rw [takeExtra, (elemAt_cell hs hpos).1, (elemAt_cell hs hpos).2]
  have hw := writes_available hs hpos none (s.mempool_count - 1)
    ((s.extra_count + 2 ^ 64 - 1) % 2 ^ 64)
  have hself : Writes N s s pos _ _ := writes_self hs
  rcases hcell : cell s pos with ⟨_ | _, _ | t⟩ <;> rw [hcell] at hw hself
  · exact ⟨_, _, _, rfl, writes_set hs hpos true tx _ _, Or.inl ⟨rfl, rfl, rfl⟩⟩
  · exact ⟨_, _, _, rfl, writes_set hs hpos true tx _ _, Or.inl ⟨rfl, rfl, rfl⟩⟩
  · exact ⟨_, _, _, rfl, hself, Or.inr (Or.inr ⟨rfl, rfl, rfl⟩)⟩
  · cases tx with
    | none => exact absurd rfl (hsafe t hcell)
    | some tx =>
      dsimp only [bind, Except.bind]
      simp only [Bool.not_true, Bool.false_eq_true, if_false]
      split
      · exact ⟨_, _, _, rfl, hw, Or.inr (Or.inl ⟨t, rfl, Or.inl ⟨rfl, rfl⟩⟩)⟩
      · exact ⟨_, _, _, rfl, hself, Or.inr (Or.inl ⟨t, rfl, Or.inr ⟨rfl, rfl⟩⟩)⟩

end Scans

/-! ## The ring of extra transactions -/

/-- A slot of the ring is null, or a transaction with its witness hash, and the
first slot is not null. -/
structure RingOk (H : Hashes) (ring : List ExtraTxn) : Prop where
  slots : ∀ e ∈ ring, e = (0, none) ∨ ∃ tx, e = (tx.getWitnessHash H, some tx)
  first : ∀ e, ring.head? = some e → e.2 ≠ none

theorem ringOk_add {H : Hashes} {m : Nat} {ring : List ExtraTxn × Nat}
    (h : RingOk H ring.1) (hstart : ring.1 = [] → ring.2 = 0) (tx : CTransaction) :
    let ring' := addToCompactExtraTransactions H m ring tx
    RingOk H ring'.1 ∧ (ring'.1 = [] → ring'.2 = 0) := by
  unfold addToCompactExtraTransactions
  split
  · exact ⟨h, hstart⟩
  rename_i hmax
  dsimp only
  refine ⟨⟨fun e he => ?_, fun e he => ?_⟩, fun hnil => ?_⟩
  · rcases List.mem_or_eq_of_mem_set he with he | rfl
    · split at he
      · exact Or.inl (List.eq_of_mem_replicate he)
      · exact h.slots e he
    · exact Or.inr ⟨tx, rfl⟩
  · split at he
    · rename_i hempty
      obtain ⟨n, hn⟩ := Nat.exists_eq_succ_of_ne_zero hmax
      rw [hstart (List.isEmpty_iff.mp hempty), hn, List.replicate_succ, List.set_cons_zero,
        List.head?_cons, Option.some.injEq] at he
      rw [← he]
      simp
    · obtain ⟨vExtra, it⟩ := ring
      cases vExtra with
      | nil => cases he
      | cons slot rest =>
        cases it with
        | zero =>
          rw [List.set_cons_zero, List.head?_cons, Option.some.injEq] at he
          rw [← he]
          simp
        | succ it =>
          rw [List.set_cons_succ, List.head?_cons, Option.some.injEq] at he
          exact h.first e (by rw [← he, List.head?_cons])
  · split at hnil
    · have := congrArg List.length hnil
      simp only [List.length_set, List.length_replicate, List.length_nil] at this
      exact absurd this hmax
    · rename_i hne
      have := congrArg List.length hnil
      rw [List.length_set, List.length_nil, List.length_eq_zero_iff] at this
      exact absurd (List.isEmpty_iff.mpr this) hne

theorem ringOk_extra (H : Hashes) (max_extra_txn : Nat) (txs : List CTransaction) :
    RingOk H (extraTxnForCompact H max_extra_txn txs) := by
  suffices hall : ∀ ring : List ExtraTxn × Nat, RingOk H ring.1 → (ring.1 = [] → ring.2 = 0) →
      RingOk H (txs.foldl (addToCompactExtraTransactions H max_extra_txn) ring).1 from
    hall ([], 0) ⟨(fun e he => nomatch he), (fun e he => nomatch he)⟩ fun _ => rfl
  induction txs with
  | nil => exact fun ring h _ => h
  | cons tx txs ih =>
    intro ring h hstart
    have hadd := ringOk_add h hstart tx (m := max_extra_txn)
    exact ih _ hadd.1 hadd.2

/-! ## When `InitData` returns -/

/-- A call that comes to an end: with the block, or with a status. -/
def Returns {α : Type} (r : Except Stop α) : Prop :=
  (∃ a, r = .ok a) ∨ ∃ status, r = .error (.returns status)

theorem not_returns {stop : Stop} (h : ∀ status, stop ≠ .returns status) :
    ¬ Returns (.error stop : Except Stop α) := by
  rintro (⟨a, ha⟩ | ⟨status, hstatus⟩)
  · cases ha
  · exact h status (Except.error.inj hstatus)

/-- A message with fewer than 65536 prefilled transactions, or without short
ids, in which the short id of the zero hash does not get the place of the short
id of a transaction; messages that are rejected do not matter. -/
structure CBlockHeaderAndShortTxIDs.Harmless (E : ShortIdEnv) (H : Hashes)
    (c : CBlockHeaderAndShortTxIDs) : Prop where
  ends : c.Accepted → c.prefilledtxn.length < 2 ^ 16 ∨ c.shorttxids = []
  noNull : c.Accepted → c.shorttxids.Nodup → uncrowded E [] c.shorttxids = true →
    2 ≤ c.shorttxids.length → ∀ (i j : Nat) (tx : CTransaction),
      c.shorttxids[i]? = some (c.getShortID E 0) →
      c.shorttxids[j]? = some (c.getShortID E (tx.getWitnessHash H)) → c.placeOf i ≠ c.placeOf j

section InitData

variable {E : ShortIdEnv} {H : Hashes} {c : CBlockHeaderAndShortTxIDs} {pool : List CTransaction}
  {extra_txn : List ExtraTxn}

/-- Where the scans start: the prefilled transactions are there, and nothing
was found. -/
def CBlockHeaderAndShortTxIDs.scanStart (c : CBlockHeaderAndShortTxIDs) : Scan where
  txn_available := c.placedTxs
  have_txn := List.replicate c.placedTxs.length false

/-- The two scans, after the short ids are mapped. -/
def scans (E : ShortIdEnv) (H : Hashes) (c : CBlockHeaderAndShortTxIDs) (pool : List CTransaction)
    (extra_txn : List ExtraTxn) : Except Stop Scan := do
  let s ← scan (c.getShortID E) c.idMap c.shorttxids.length takeMempool
    (pool.map fun tx => (tx.getWitnessHash H, tx)) c.scanStart
  scan (c.getShortID E) c.idMap c.shorttxids.length (takeExtra H) extra_txn s

/-- What both kinds of steps keep, the scans keep. -/
theorem scans_keep {P : Scan → Prop} (hstart : P c.scanStart)
    (hpool : ∀ tx ∈ pool, ∀ s pos, P s →
      c.idMap.lookup (c.getShortID E (tx.getWitnessHash H)) = some pos →
      ∃ s', takeMempool pos tx s = .ok s' ∧ P s')
    (hextra : ∀ e ∈ extra_txn, ∀ s pos, P s → c.idMap.lookup (c.getShortID E e.1) = some pos →
      ∃ s', takeExtra H pos e.2 s = .ok s' ∧ P s') :
    ∃ s, scans E H c pool extra_txn = .ok s ∧ P s := by
  obtain ⟨s, hs, hP⟩ : ∃ s, scan (c.getShortID E) c.idMap c.shorttxids.length takeMempool
      (pool.map fun tx => (tx.getWitnessHash H, tx)) c.scanStart = .ok s ∧ P s := by
    refine scan_keeps (fun e he => ?_) hstart
    obtain ⟨tx, htx, rfl⟩ := List.mem_map.mp he
    exact hpool tx htx
  rw [scans, hs]
  exact scan_keeps hextra hP

theorem placePrefilled_placedTxs (c : CBlockHeaderAndShortTxIDs) :
    placePrefilled c.shorttxids.length c.prefilledtxn 0 (-1) (List.replicate c.blockTxCount none) =
      if prefilledOk c.shorttxids.length c.prefilledtxn 0 0 then .ok c.placedTxs
      else .error (.returns .INVALID) := by
  have hlen : (List.replicate c.blockTxCount (none : Option CTransaction)).length =
      c.shorttxids.length + 0 + c.prefilledtxn.length := List.length_replicate
  have hplace : placePrefilled c.shorttxids.length c.prefilledtxn 0 (((0 : Nat) : Int) - 1) _ = _ :=
    placePrefilled_eq hlen
  exact hplace

theorem initData_rejected (h : ¬ c.Accepted) :
    initData E H c pool extra_txn = .error (.returns .INVALID) := by
  unfold initData
  split
  · rfl
  rename_i hhead
  split
  · rfl
  rename_i hfew
  rw [Bool.not_eq_true, Bool.or_eq_false_iff] at hhead
  rw [placePrefilled_placedTxs,
    if_neg fun hok => h ⟨hhead.1, hhead.2, not_lt.mp hfew, hok⟩]
  rfl

theorem initData_accepted (h : c.Accepted) : initData E H c pool extra_txn = (do
    let shorttxids ← mapShortIds E c.placedTxs c.shorttxids 0 0 []
    let size := (shorttxids.map (·.1)).dedup.length
    if size ≠ c.shorttxids.length then .error (.returns .FAILED)
    else do
      let s ← scan (c.getShortID E) shorttxids size takeMempool
        (pool.map fun tx => (tx.getWitnessHash H, tx)) c.scanStart
      let s ← scan (c.getShortID E) shorttxids size (takeExtra H) extra_txn s
      .ok { header := c.header, txn_available := s.txn_available
            prefilled_count := c.prefilledtxn.length, mempool_count := s.mempool_count
            extra_count := s.extra_count }) := by
  unfold initData
  rw [h.header, h.nonempty, Bool.or_self, if_neg (by simp), if_neg (not_lt.mpr h.few),
    placePrefilled_placedTxs, if_pos h.prefilled]
  rfl

/-- With 65536 prefilled transactions and a short id, the search for a free
place goes round for ever. -/
theorem initData_endless (h : c.Accepted) (hfull : c.prefilledtxn.length = 2 ^ 16)
    (hshort : c.shorttxids ≠ []) : initData E H c pool extra_txn = .error .endless := by
  obtain ⟨-, hfill⟩ := prefilledOk_length h.prefilled (Nat.zero_le _)
  have hcount : c.blockTxCount = c.shorttxids.length + c.prefilledtxn.length := rfl
  have hnext : nextFree c.placedTxs 0 (2 ^ 16) 0 = .error .endless := by
    refine nextFree_endless ?_ (fun k _ hk => ?_) (by decide)
    · rw [length_placedTxs]
      omega
    · have hmem := hfill (by omega) k (Nat.zero_le _) (by omega)
      rw [isFree_placedTxs h, List.contains_iff_mem.mpr hmem]
      rfl
  obtain ⟨shortid, rest, hids⟩ := List.exists_cons_of_ne_nil hshort
  rw [initData_accepted h, hids, mapShortIds, hnext]
  rfl

/-- Otherwise all that matters is how the scans end. -/
theorem initData_scans (h : c.Accepted)
    (hfew : c.prefilledtxn.length < 2 ^ 16 ∨ c.shorttxids = []) :
    initData E H c pool extra_txn =
      if uncrowded E [] c.shorttxids = true ∧ c.shorttxids.Nodup then
        (scans E H c pool extra_txn).map fun s =>
          { header := c.header, txn_available := s.txn_available
            prefilled_count := c.prefilledtxn.length, mempool_count := s.mempool_count
            extra_count := s.extra_count }
      else .error (.returns .FAILED) := by
  rw [initData_accepted h, mapShortIds_placedTxs h hfew]
  cases huncrowded : uncrowded E [] c.shorttxids with
  | false => rfl
  | true =>
    rw [if_pos rfl]
    dsimp only [bind, Except.bind]
    rw [keys_idMap h]
    by_cases hnodup : c.shorttxids.Nodup
    · have hsize : c.shorttxids.reverse.dedup.length = c.shorttxids.length := by
        rw [length_dedup_eq_iff.mpr (List.nodup_reverse.mpr hnodup), List.length_reverse]
      rw [hsize, if_neg (by simp), if_pos ⟨rfl, hnodup⟩]
      unfold scans
      dsimp only [bind, Except.bind]
      cases scan (c.getShortID E) c.idMap c.shorttxids.length takeMempool
          (pool.map fun tx => (tx.getWitnessHash H, tx)) c.scanStart with
      | error e => rfl
      | ok s =>
        cases scan (c.getShortID E) c.idMap c.shorttxids.length (takeExtra H) extra_txn s with
        | error e => rfl
        | ok s => rfl
    · have hsize : c.shorttxids.reverse.dedup.length ≠ c.shorttxids.length := fun he =>
        hnodup (List.nodup_reverse.mp
          (length_dedup_eq_iff.mp (he.trans List.length_reverse.symm)))
      rw [if_pos hsize, if_neg fun hand => hnodup hand.2]

/-- A place is only looked up where a short id has it. -/
theorem lookup_place (h : c.Accepted) {k : UInt64} {pos : Nat} (hk : c.idMap.lookup k = some pos) :
    pos < c.blockTxCount ∧ ∃ i : Nat, c.shorttxids[i]? = some k ∧ c.placeOf i = pos :=
  ⟨place_lt h (mem_of_lookup hk),
    (mem_idMap_iff h).mp (mem_of_lookup hk)⟩

theorem lookup_of_short (h : c.Accepted) (hnodup : c.shorttxids.Nodup) {k : UInt64} {i : Nat}
    (hi : c.shorttxids[i]? = some k) : c.idMap.lookup k = some (c.placeOf i) := by
  refine lookup_of_mem ?_ ((mem_idMap_iff h).mpr ⟨i, hi, rfl⟩)
  rw [keys_idMap h]
  exact List.nodup_reverse.mpr hnodup

theorem sized_start (c : CBlockHeaderAndShortTxIDs) :
    Sized c.blockTxCount c.scanStart :=
  ⟨length_placedTxs, by rw [scanStart, List.length_replicate, length_placedTxs]⟩

theorem cell_start (c : CBlockHeaderAndShortTxIDs) (z : Nat) :
    (cell c.scanStart z).1 = false := by
  rw [cell, scanStart, List.getD_eq_getElem?_getD, List.getElem?_replicate]
  split <;> rfl

/-- At the place of the zero hash nothing is found but null references. -/
def Quiet (E : ShortIdEnv) (c : CBlockHeaderAndShortTxIDs) (s : Scan) : Prop :=
  ∀ z, c.idMap.lookup (c.getShortID E 0) = some z → (cell s z).1 = true → (cell s z).2 = none

/-- No transaction has the place of the zero hash. -/
def Apart (E : ShortIdEnv) (H : Hashes) (c : CBlockHeaderAndShortTxIDs) : Prop :=
  ∀ (tx : CTransaction) (z : Nat), c.idMap.lookup (c.getShortID E 0) = some z →
    c.idMap.lookup (c.getShortID E (tx.getWitnessHash H)) ≠ some z

/-- A step at another place. -/
theorem Quiet.other {s s' : Scan} {pos count : Nat} {new : Bool × Option CTransaction}
    (hq : Quiet E c s) (hw : Writes c.blockTxCount s s' pos new count)
    (hne : c.idMap.lookup (c.getShortID E 0) ≠ some pos) : Quiet E c s' := by
  intro z hz
  rw [hw.other z fun he => hne (he ▸ hz)]
  exact hq z hz

/-- Where no transaction has the place of the zero hash, no null reference is
followed. -/
theorem scans_apart (h : c.Accepted) (hring : RingOk H extra_txn) (hapart : Apart E H c) :
    ∃ s, scans E H c pool extra_txn = .ok s := by
  have hquiet : Quiet E c c.scanStart := by
    intro z _ hhave
    rw [cell_start] at hhave
    cases hhave
  obtain ⟨s, hs, -⟩ : ∃ s, scans E H c pool extra_txn = .ok s ∧
      Sized c.blockTxCount s ∧ Quiet E c s := by
    refine scans_keep ⟨sized_start c, hquiet⟩ (fun tx _ s pos hs hpos => ?_)
      fun e he s pos hs hpos => ?_
    · obtain ⟨s', new, count, htake, hw, -⟩ := takeMempool_spec hs.1 (lookup_place h hpos).1 tx
      exact ⟨s', htake, hw.sized, hs.2.other hw fun hz => hapart tx pos hz hpos⟩
    rcases hring.slots e he with rfl | ⟨tx, rfl⟩
    · -- A null reference: it is written where nothing was found.
      have hnull := hs.2 pos hpos
      obtain ⟨s', new, count, htake, hw, hcases⟩ := takeExtra_spec hs.1 (lookup_place h hpos).1
        none fun t ht => absurd (hnull (by rw [ht])) (by rw [ht]; simp)
      refine ⟨s', htake, hw.sized, fun z hz _ => ?_⟩
      rw [hpos, Option.some.injEq] at hz
      rw [← hz, hw.here]
      rcases hcases with ⟨-, hnew, -⟩ | ⟨t, ht, -⟩ | ⟨-, hnew, -⟩
      · rw [hnew]
      · exact absurd (hnull (by rw [ht])) (by rw [ht]; simp)
      · rw [hnew]
    · obtain ⟨s', new, count, htake, hw, -⟩ := takeExtra_spec hs.1 (lookup_place h hpos).1
        (some tx) fun _ _ => by simp
      exact ⟨s', htake, hw.sized, hs.2.other hw fun hz => hapart tx pos hz hpos⟩
  exact ⟨s, hs⟩

/-- With one short id: as long as nothing was found nothing is counted, and
once a transaction is there the scan is over. -/
def Alone (z : Nat) (s : Scan) : Prop :=
  ((cell s z).1 = false → s.mempool_count = 0) ∧
    ∀ t, cell s z = (true, some t) → s.mempool_count = 1

theorem scanExtra_alone {map : List (UInt64 × Nat)} {N z : Nat} {getShortID : Uint256 → UInt64}
    (hmap : ∀ k pos, map.lookup k = some pos → pos = z) (hz : z < N) {entries : List ExtraTxn}
    {s : Scan} (hs : Sized N s) (ha : Alone z s)
    (hfirst : ∀ e, entries.head? = some e → e.2 ≠ none ∨ s.mempool_count ≠ 1) :
    ∃ s', scan getShortID map 1 (takeExtra H) entries s = .ok s' := by
  induction entries generalizing s with
  | nil => exact ⟨s, rfl⟩
  | cons e entries ih =>
    have hone : ∃ s1, scanStep getShortID map (takeExtra H) e s = .ok s1 ∧ Sized N s1 ∧
        Alone z s1 := by
      refine scanStep_keeps ⟨hs, ha⟩ fun pos hlookup => ?_
      obtain rfl := hmap _ _ hlookup
      obtain ⟨s', new, count, htake, hw, hcases⟩ := takeExtra_spec (H := H) hs hz e.2
        fun t ht => (hfirst e rfl).resolve_right (not_not.mpr (ha.2 t ht))
      refine ⟨s', htake, hw.sized, ?_⟩
      rw [Alone, hw.here, hw.mempool_count]
      rcases hcases with ⟨hnot, rfl, rfl⟩ | ⟨t, ht, ⟨rfl, rfl⟩ | ⟨rfl, rfl⟩⟩ | ⟨-, rfl, rfl⟩
      · exact ⟨(fun h => nomatch h), fun t _ => by rw [ha.1 hnot]⟩
      · exact ⟨(fun h => nomatch h), (fun t h => nomatch h)⟩
      · exact ⟨(fun h => nomatch h), fun _ _ => ha.2 t ht⟩
      · exact ⟨(fun h => nomatch h), (fun t h => nomatch h)⟩
    obtain ⟨s1, hs1, hsized, halone⟩ := hone
    rw [scan, hs1]
    dsimp only [bind, Except.bind]
    split
    · exact ⟨s1, rfl⟩
    · rename_i hcount
      exact ih hsized halone fun _ _ => Or.inr hcount

/-- With at most one short id nothing can go wrong: the ring's first slot is not
null, and a place that is taken ends the scan before the second slot. -/
theorem scans_few (h : c.Accepted) (hring : RingOk H extra_txn) (hone : c.shorttxids.length ≤ 1) :
    ∃ s, scans E H c pool extra_txn = .ok s := by
  have hmap : ∀ k pos, c.idMap.lookup k = some pos →
      c.shorttxids.length = 1 ∧ pos = c.placeOf 0 := by
    intro k pos hk
    obtain ⟨-, i, hi, rfl⟩ := lookup_place h hk
    have hlt := (List.getElem?_eq_some_iff.mp hi).1
    obtain rfl : i = 0 := by omega
    exact ⟨by omega, rfl⟩
  have hpool : ∃ s, scan (c.getShortID E) c.idMap c.shorttxids.length takeMempool
      (pool.map fun tx => (tx.getWitnessHash H, tx)) c.scanStart = .ok s ∧
        Sized c.blockTxCount s ∧ Alone (c.placeOf 0) s := by
    refine scan_keeps (fun e he s pos hs hpos => ?_) ⟨sized_start c, fun _ => rfl, fun t ht => ?_⟩
    · obtain ⟨s', new, count, htake, hw, hcases⟩ :=
        takeMempool_spec hs.1 (lookup_place h hpos).1 e.2
      refine ⟨s', htake, hw.sized, ?_⟩
      rw [(hmap _ _ hpos).2] at hw hcases
      rw [Alone, hw.here, hw.mempool_count]
      rcases hcases with ⟨hnot, rfl, rfl⟩ | ⟨t, ht, rfl, rfl⟩ | ⟨-, rfl, rfl⟩
      · exact ⟨(fun h => nomatch h), fun t _ => by rw [hs.2.1 hnot]⟩
      · exact ⟨(fun h => nomatch h), (fun t h => nomatch h)⟩
      · exact ⟨(fun h => nomatch h), (fun t h => nomatch h)⟩
    · have hstart := cell_start c (c.placeOf 0)
      rw [ht] at hstart
      cases hstart
  obtain ⟨s, hs, hsized, halone⟩ := hpool
  have hextra : ∃ s', scan (c.getShortID E) c.idMap c.shorttxids.length (takeExtra H) extra_txn s =
      .ok s' := by
    by_cases hlen : c.shorttxids.length = 1
    · have hlt : c.placeOf 0 < c.blockTxCount := by
        obtain ⟨k, hk⟩ : ∃ k, c.shorttxids[0]? = some k :=
          ⟨_, List.getElem?_eq_getElem (by omega)⟩
        exact place_lt h ((mem_idMap_iff h).mpr ⟨0, hk, rfl⟩)
      rw [hlen]
      exact scanExtra_alone (fun k pos hk => (hmap k pos hk).2) hlt hsized halone
        fun e he => Or.inl (hring.first e he)
    · obtain ⟨s', hs', -⟩ : ∃ s', scan (c.getShortID E) c.idMap c.shorttxids.length (takeExtra H)
          extra_txn s = .ok s' ∧ True :=
        scan_keeps (fun e _ s pos _ hpos => absurd (hmap _ _ hpos).1 hlen) trivial
      exact ⟨s', hs'⟩
  obtain ⟨s', hs'⟩ := hextra
  refine ⟨s', ?_⟩
  rw [scans, hs]
  exact hs'

/-- A transaction of the ring that is found, and after it a null slot with the
same place. -/
theorem scans_null (h : c.Accepted) (hnodup : c.shorttxids.Nodup) (htwo : 2 ≤ c.shorttxids.length)
    {i j : Nat} {tx : CTransaction} (hi : c.shorttxids[i]? = some (c.getShortID E 0))
    (hj : c.shorttxids[j]? = some (c.getShortID E (tx.getWitnessHash H)))
    (hplace : c.placeOf i = c.placeOf j) :
    scans E H c [] (extraTxnForCompact H 2 [tx]) = .error .nullDereference := by
  have hring : extraTxnForCompact H 2 [tx] =
      [(tx.getWitnessHash H, some tx), (0, none)] := rfl
  have hfound := lookup_of_short h hnodup hj
  have hnull := lookup_of_short h hnodup hi
  rw [hplace] at hnull
  obtain ⟨hlt, -⟩ := lookup_place h hfound
  obtain ⟨s, new, count, htake, hw, hcases⟩ := takeExtra_spec (H := H) (sized_start c) hlt (some tx)
    fun _ _ => by simp
  -- Nothing was found at the place before, so the transaction is kept there.
  have hstart := cell_start c (c.placeOf j)
  obtain ⟨hnew, hcount⟩ : new = (true, some tx) ∧ count = 1 := by
    rcases hcases with ⟨-, hnew, hcount⟩ | ⟨t, ht, -⟩ | ⟨ht, -⟩
    · exact ⟨hnew, hcount⟩
    all_goals
      rw [ht] at hstart
      cases hstart
  have hcell : cell s (c.placeOf j) = (true, some tx) := hw.here.trans hnew
  obtain ⟨hhave, havail⟩ := elemAt_cell hw.sized hlt
  have hpool : scan (c.getShortID E) c.idMap c.shorttxids.length takeMempool
      (List.map (fun tx : CTransaction => (tx.getWitnessHash H, tx)) []) c.scanStart =
        .ok c.scanStart := rfl
  rw [scans, hpool, hring]
  dsimp only [bind, Except.bind]
  rw [scan, scanStep, hfound]
  dsimp only
  rw [htake]
  dsimp only [bind, Except.bind]
  rw [if_neg (by rw [hw.mempool_count, hcount]; omega), scan, scanStep, hnull]
  dsimp only
  rw [takeExtra, hhave, havail, hcell]
  rfl

end InitData

/-- Whatever is in the mempool and in the ring of extra transactions, `InitData`
returns a status, exactly for the harmless messages. -/
theorem initData_returns_iff (E : ShortIdEnv) (H : Hashes) (c : CBlockHeaderAndShortTxIDs) :
    (∀ (pool : List CTransaction) (max_extra_txn : Nat) (txs : List CTransaction),
      Returns (initData E H c pool (extraTxnForCompact H max_extra_txn txs))) ↔
        c.Harmless E H := by
  constructor
  · intro hall
    have hends : c.Accepted → c.prefilledtxn.length < 2 ^ 16 ∨ c.shorttxids = [] := by
      intro h
      by_contra hnot
      rw [not_or, not_lt] at hnot
      have hle := (prefilledOk_length h.prefilled (Nat.zero_le _)).1
      have hend := hall [] 0 []
      rw [initData_endless h (by omega) hnot.2] at hend
      exact not_returns (fun status => by simp) hend
    refine ⟨hends, fun h hnodup huncrowded htwo i j tx hi hj hplace => ?_⟩
    have hend := hall [] 2 [tx]
    rw [initData_scans h (hends h), if_pos ⟨huncrowded, hnodup⟩,
      scans_null h hnodup htwo hi hj hplace] at hend
    exact not_returns (fun status => by simp) hend
  · rintro ⟨hends, hnoNull⟩ pool max_extra_txn txs
    by_cases h : c.Accepted
    swap
    · exact Or.inr ⟨_, initData_rejected h⟩
    have hring := ringOk_extra H max_extra_txn txs
    rw [initData_scans h (hends h)]
    split
    swap
    · exact Or.inr ⟨_, rfl⟩
    rename_i hmapped
    have hscans : ∃ s, scans E H c pool (extraTxnForCompact H max_extra_txn txs) = .ok s := by
      by_cases hone : c.shorttxids.length ≤ 1
      · exact scans_few h hring hone
      · refine scans_apart h hring fun tx z hz htx => ?_
        obtain ⟨-, i, hi, hzi⟩ := lookup_place h hz
        obtain ⟨-, j, hj, hzj⟩ := lookup_place h htx
        exact hnoNull h hmapped.2 hmapped.1 (by omega) i j tx hi hj (hzi.trans hzj.symm)
    obtain ⟨s, hs⟩ := hscans
    rw [hs]
    exact Or.inl ⟨_, rfl⟩

/-! ## The round trip of a message -/

namespace CBlockHeaderAndShortTxIDs

theorem reads_shortID {shortid : UInt64} (h : shortid.toNat < 2 ^ 48) :
    Reads readShortID (serShortID shortid) shortid := by
  have hlsb : (shortid &&& 0xffffffff).toNat = shortid.toNat % 2 ^ 32 :=
    Nat.and_two_pow_sub_one_eq_mod shortid.toNat 32
  have hmsb : (shortid >>> 32 &&& 0xffff).toNat = shortid.toNat / 2 ^ 32 := by
    have hand : (shortid >>> 32 &&& 0xffff).toNat = (shortid.toNat >>> 32) % 2 ^ 16 :=
      Nat.and_two_pow_sub_one_eq_mod (shortid.toNat >>> 32) 16
    omega
  unfold readShortID serShortID
  rw [hlsb, hmsb]
  refine (reads_readLe (by omega)).bind ?_
  refine (reads_readLe (by omega)).map.of_eq rfl (UInt64.toNat_inj.mp ?_)
  have hshift : (UInt64.ofNat (shortid.toNat / 2 ^ 32) <<< 32).toNat =
      (shortid.toNat / 2 ^ 32) <<< 32 := by
    rw [UInt64.toNat_shiftLeft, UInt64.toNat_ofNat', Nat.shiftLeft_eq, Nat.shiftLeft_eq]
    simp only [UInt64.reduceToNat, Nat.reduceMod, Nat.reducePow]
    omega
  have hlow : shortid.toNat % 2 ^ 32 < 2 ^ 32 := Nat.mod_lt _ (by decide)
  rw [UInt64.toNat_or, hshift, UInt64.toNat_ofNat', Nat.mod_eq_of_lt (by omega),
    ← Nat.shiftLeft_add_eq_or_of_lt hlow, Nat.shiftLeft_eq]
  omega

theorem reads_prefilled {p : PrefilledTransaction} (h : p.tx.Fits) (hplain : p.tx.Plain) :
    Reads readPrefilled (serPrefilled p) p := by
  have hidx := p.index.toNat_lt
  have hsize : MAX_SIZE = 2 ^ 25 := rfl
  refine (reads_readCompactSize (by omega)).bind ?_
  have hfail : Reads (failIf (decide (p.index.toNat > 0xffff)) "index overflowed 16-bits") [] () :=
    reads_failIf (decide_eq_false (by omega))
  refine (hfail.bind ((reads_transaction h true hplain).map)).of_eq (List.nil_append _) ?_
  rw [UInt16.ofNat_toNat]
  rfl

/-- The messages that a node writes. -/
structure Fits (c : CBlockHeaderAndShortTxIDs) : Prop where
  header : c.header.Fits
  headerPlain : ∀ a, c.header.auxpow = some a → a.tx.Plain
  shortids : ∀ shortid ∈ c.shorttxids, shortid.toNat < 2 ^ 48
  shortCount : sizeOk c.shorttxids
  prefilled : ∀ p ∈ c.prefilledtxn, p.tx.Fits ∧ p.tx.Plain
  prefilledCount : sizeOk c.prefilledtxn

/-- What is written of a message is read back. -/
theorem reads_message {c : CBlockHeaderAndShortTxIDs} (h : c.Fits) :
    Reads unserialize c.serialize c := by
  have hallowed : ∀ a : CAuxPow, a.allowed true = a := fun _ => rfl
  unfold unserialize serialize
  simp only [List.append_assoc]
  refine (reads_header h.header true h.headerPlain).bind ?_
  refine (reads_readLe (show c.nonce.toNat < 256 ^ 8 from c.nonce.toNat_lt)).bind ?_
  refine (reads_readVector serShortID h.shortCount fun s hs => reads_shortID (h.shortids s hs)).bind
    ?_
  refine (reads_readVector serPrefilled h.prefilledCount fun p hp =>
    reads_prefilled (h.prefilled p hp).1 (h.prefilled p hp).2).map.of_eq rfl ?_
  rw [UInt64.ofNat_toNat]
  have hsame : (CAuxPow.allowed true) = id := funext hallowed
  rw [hsame, Option.map_id]
  rfl

end CBlockHeaderAndShortTxIDs

/-! ## A message that stops the node -/

/-- The same prefilled transaction again and again, each at the next place. -/
theorem prefilledOk_replicate (htx : tx.isNull = false) {nShort i next : Nat}
    (hfit : next ≤ nShort + i) (hmax : next + n ≤ 2 ^ 16) :
    prefilledOk nShort (List.replicate n ⟨0, tx⟩) i next = true := by
  induction n generalizing i next with
  | zero => rfl
  | succ n ih =>
    rw [List.replicate_succ, prefilledOk, htx]
    have hrest := ih (show next + 0 + 1 ≤ nShort + (i + 1) by omega) (by omega)
    have hzero : (0 : UInt16).toNat = 0 := rfl
    simp only [hzero, hrest]
    simp only [Nat.add_zero, Bool.not_false, Bool.true_and, Bool.and_true, Bool.and_eq_true,
      decide_eq_true_eq]
    omega

theorem length_flatMap_replicate (enc : α → List UInt8) (n : Nat) (a : α) :
    ((List.replicate n a).flatMap enc).length = n * (enc a).length := by
  rw [List.length_flatMap, List.map_replicate, List.sum_replicate_nat]

/-- A transaction with one input and no output. -/
def smallTx : CTransaction :=
  { nVersion := 1, vin := [{ prevout := ⟨0, 0⟩, scriptSig := [], nSequence := 0 }]
    vout := [], nLockTime := 0 }

/-- Prefilled transactions at the first `n` places, and a short id. -/
def crowdedMessage (n : Nat) : CBlockHeaderAndShortTxIDs where
  nonce := 0
  shorttxids := [0]
  prefilledtxn := List.replicate n ⟨0, smallTx⟩
  header := { nVersion := 0, hashPrevBlock := 0, hashMerkleRoot := 0, nTime := 0, nBits := 1
              nNonce := 0, auxpow := none }

theorem crowdedMessage_accepted (h : n ≤ 2 ^ 16) : (crowdedMessage n).Accepted where
  header := rfl
  nonempty := rfl
  few := by
    have hcount : (crowdedMessage n).blockTxCount = 1 + n :=
      congrArg (1 + ·) List.length_replicate
    have hmax : MAX_BLOCK_BASE_SIZE / MIN_TRANSACTION_BASE_SIZE = 100000 := by decide +kernel
    omega
  prefilled := prefilledOk_replicate rfl (Nat.zero_le _) ((Nat.zero_add n).trans_le h)

theorem smallTx_fits : smallTx.Fits where
  vin := by simp [sizeOk, smallTx, MAX_SIZE]
  vout := by simp [sizeOk, smallTx, MAX_SIZE]
  ins := by
    simp only [smallTx, List.mem_singleton, forall_eq]
    exact ⟨by simp [sizeOk, MAX_SIZE], by simp [sizeOk, MAX_SIZE], by simp⟩
  outs := by simp [smallTx]

theorem crowdedMessage_fits (h : n ≤ 2 ^ 16) : (crowdedMessage n).Fits where
  header := ⟨show false = (0#32 &&& CPureBlockHeader.VERSION_AUXPOW != 0) by decide,
    fun a ha => nomatch ha⟩
  headerPlain a ha := nomatch ha
  shortids shortid hshortid := by
    rw [List.mem_singleton.mp hshortid]
    decide
  shortCount := show 1 ≤ MAX_SIZE by decide
  prefilled p hp := by
    rw [List.eq_of_mem_replicate hp]
    exact ⟨smallTx_fits, Or.inl (List.cons_ne_nil _ _)⟩
  prefilledCount := by
    have hlen : (crowdedMessage n).prefilledtxn.length = n := List.length_replicate
    have hmax : MAX_SIZE = 2 ^ 25 := rfl
    rw [sizeOk]
    omega

theorem length_compactSize_le (n : Nat) : (compactSize n).length ≤ 9 := by
  unfold compactSize
  split
  · simp
  split
  · simp [Bytes.le]
  split
  · simp [Bytes.le]
  · simp [Bytes.le]

/-- Each of the transactions takes 52 bytes. -/
theorem length_crowdedMessage (n : Nat) : (crowdedMessage n).serialize.length ≤ 104 + n * 52 := by
  have hhead : ((crowdedMessage n).header.serialize true).length = 80 := by
    show (CBlockHeader.serialize true (crowdedMessage 0).header).length = 80
    decide +kernel
  have hnonce : (Bytes.le 8 (crowdedMessage n).nonce.toNat).length = 8 := by
    simp [Bytes.le]
  have hshort : (serVector serShortID
      (crowdedMessage n).shorttxids).length = 7 := by
    show (serVector serShortID [0]).length = 7
    decide +kernel
  have hone : (serPrefilled ⟨0, smallTx⟩).length = 52 := by
    decide +kernel
  have hcount := length_compactSize_le (crowdedMessage n).prefilledtxn.length
  have hprefilled : ((crowdedMessage n).prefilledtxn.flatMap
      serPrefilled).length = n * 52 :=
    (length_flatMap_replicate _ n _).trans (congrArg (n * ·) hone)
  rw [serialize, List.length_append, List.length_append,
    List.length_append, hhead, hnonce, hshort, serVector, List.length_append, hprefilled]
  omega

/-- A message within the limit after which `InitData` does not return, whatever
the node knows. -/
theorem initData_does_not_return :
    ∃ (payload : List UInt8) (c : CBlockHeaderAndShortTxIDs),
      payload.length ≤ MAX_PROTOCOL_MESSAGE_LENGTH ∧
        unserialize payload = .ok (c, []) ∧
        ∀ (E : ShortIdEnv) (H : Hashes) (pool : List CTransaction) (extra_txn : List ExtraTxn),
          initData E H c pool extra_txn = .error .endless := by
  obtain ⟨n, hn⟩ : ∃ n : Nat, n = 2 ^ 16 := ⟨_, rfl⟩
  refine ⟨(crowdedMessage n).serialize, crowdedMessage n, ?_, ?_, fun E H pool extra_txn => ?_⟩
  · have hlen := length_crowdedMessage n
    have hmax : MAX_PROTOCOL_MESSAGE_LENGTH = 4000000 := rfl
    omega
  · have hread := reads_message (crowdedMessage_fits hn.le) []
    rwa [List.append_nil] at hread
  · exact initData_endless (crowdedMessage_accepted hn.le) (List.length_replicate.trans hn)
      (List.cons_ne_nil _ _)

end junkcoin
