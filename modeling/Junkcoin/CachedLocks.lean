-- The lock points of an entry (`TestLockPointValidity` and
-- `CheckSequenceLocks` of `validation.cpp`): when the cached lock of a
-- transaction still gives what a new calculation would give.
import Junkcoin.AcceptToMemoryPool
import Junkcoin.BlockMap
import Junkcoin.MempoolRuns

namespace junkcoin

variable (tip : BlockIndex)

/-- `TestLockPointValidity`. -/
def testLockPointValidity (chainActive : BlockIndex) (lp : LockPoints) : Bool :=
  lp.maxInputBlock.isEmpty || contains chainActive lp.maxInputBlock

theorem suffix_of_valid {chainActive : BlockIndex} {lp : LockPoints}
    (h : testLockPointValidity chainActive lp = true) (hne : lp.maxInputBlock ≠ []) :
    lp.maxInputBlock <:+ chainActive := by
  rcases Bool.or_eq_true .. ▸ h with hnil | hin
  · exact absurd (List.isEmpty_iff.mp hnil) hne
  · exact (contains_iff.mp hin).2

/-- `CheckSequenceLocks` with existing lock points. -/
def checkExistingLocks (lp : LockPoints) : Bool :=
  !(lp.height ≥ nHeight (CTxMemPool.nextIndex tip) || lp.time ≥ getMedianTimePast tip)

/-! ## Locks of single inputs -/

/-- The lock of an input applies. -/
def CTxIn.locked (txin : CTxIn) : Prop := txin.nSequence &&& SEQUENCE_LOCKTIME_DISABLE_FLAG = 0

def CTxIn.timeLocked (txin : CTxIn) : Prop := txin.nSequence &&& SEQUENCE_LOCKTIME_TYPE_FLAG ≠ 0

/-- The value of a lock, in blocks or in units of 512 seconds. -/
def CTxIn.lockValue (txin : CTxIn) : Int := (txin.nSequence &&& SEQUENCE_LOCKTIME_MASK).toNat

/-- The lock of an input, counted from a block, is below a height or a time. -/
def LockBelow (block : BlockIndex) (height time : Int) (p : CTxIn × Int) : Prop :=
  (p.1.timeLocked → getMedianTimePast (getAncestor block (max (p.2 - 1) 0)) +
    p.1.lockValue * 512 - 1 < time) ∧
  (¬ p.1.timeLocked → p.2 + p.1.lockValue - 1 < height)

/-- By induction on the inputs: the greatest lock is below a bound just if all
the locks are. -/
theorem sequenceLocksFrom_lt {block : BlockIndex} {a b height time : Int}
    {l : List (CTxIn × Int)} :
    ((sequenceLocksFrom block a b l).1 < height ∧ (sequenceLocksFrom block a b l).2 < time) ↔
      (a < height ∧ b < time) ∧ ∀ p ∈ l, p.1.locked → LockBelow block height time p := by
  induction l generalizing a b with
  | nil => simp [sequenceLocksFrom]
  | cons p l ih =>
    obtain ⟨txin, h⟩ := p
    rw [List.forall_mem_cons, sequenceLocksFrom]
    split
    · rename_i hoff
      have hnot : ¬ txin.locked := hoff
      simp only [ih, hnot, false_imp_iff, true_and]
    · rename_i hon
      have hlocked : txin.locked := not_not.mp hon
      split
      · rename_i htime
        have htimed : txin.timeLocked := htime
        simp only [ih, LockBelow, hlocked, htimed, true_imp_iff, not_true, false_imp_iff,
          and_true, max_lt_iff, CTxIn.lockValue]
        tauto
      · rename_i hheight
        have hnot : ¬ txin.timeLocked := hheight
        simp only [ih, LockBelow, hlocked, hnot, true_imp_iff, not_false_eq_true, false_imp_iff,
          true_and, max_lt_iff, CTxIn.lockValue]
        tauto

theorem getMedianTimePast_nonneg {tip : BlockIndex} (h : tip ≠ []) : 0 ≤ getMedianTimePast tip := by
  refine Median.le_median (lastTimes_ne_nil h) fun x hx => ?_
  obtain ⟨b, _, rfl⟩ := List.mem_map.mp hx
  simp [CPureBlockHeader.getBlockTime]

theorem nHeight_nextIndex : nHeight (CTxMemPool.nextIndex tip) = nHeight tip + 1 := by
  simp [nHeight, CTxMemPool.nextIndex]

theorem suffix_nextIndex : tip <:+ CTxMemPool.nextIndex tip :=
  List.suffix_cons ..

theorem foldl_max_le_iff {l : List Int} {a b : Int} :
    l.foldl max a ≤ b ↔ a ≤ b ∧ ∀ x ∈ l, x ≤ b := by
  induction l generalizing a with
  | nil => simp
  | cons x l ih =>
    rw [List.foldl_cons, ih, max_le_iff, List.forall_mem_cons, and_assoc]

namespace CTxMemPool

/-! ## The heights of the inputs -/

variable (s : CTxMemPool)

/-- The heights of the coins that the inputs spend, where all of them are
there. -/
def coinHeights (pcoinsTip : CCoinsViewCache) (tx : CTransaction) : Option (List Int) :=
  tx.vin.mapM fun txin => (s.getCoins pcoinsTip txin.prevout.hash).map (·.nHeight)

/-- The height that a coin of some height counts from. -/
def placeOf (tip : BlockIndex) (height : Int) : Int :=
  if height = MEMPOOL_HEIGHT then nHeight tip + 1 else height

variable {s} {pcoinsTip : CCoinsViewCache} {tip : BlockIndex} {tx : CTransaction} {hs : List Int}
  {fVerifySequence : Bool}

theorem mapM_map_option {α β γ : Type} (f : α → Option β) (g : β → γ) (l : List α) :
    l.mapM (fun a => (f a).map g) = (l.mapM f).map (List.map g) := by
  induction l with
  | nil => rfl
  | cons a l ih =>
    simp only [List.mapM_cons, ih]
    cases f a with
    | none => rfl
    | some b =>
      cases l.mapM f with
      | none => rfl
      | some bs => rfl

/-- Only the heights of the coins matter. -/
theorem checkSequenceLocksWith_of_heights (h : s.coinHeights pcoinsTip tx = some hs) :
    s.checkSequenceLocksWith fVerifySequence pcoinsTip tip tx =
      (sequenceLocks tx fVerifySequence (hs.map (placeOf tip)) (nextIndex tip),
        { height := (calculateSequenceLocks tx fVerifySequence (hs.map (placeOf tip))
            (nextIndex tip)).1
          time := (calculateSequenceLocks tx fVerifySequence (hs.map (placeOf tip))
            (nextIndex tip)).2
          maxInputBlock := getAncestor tip (((lockedHeights tx fVerifySequence
            (hs.map (placeOf tip))).filter (· ≠ nHeight tip + 1)).foldl max 0) }) := by
  rw [coinHeights, mapM_map_option] at h
  unfold checkSequenceLocksWith
  cases hcoins : tx.vin.mapM fun txin => s.getCoins pcoinsTip txin.prevout.hash with
  | none =>
    rw [hcoins] at h
    cases h
  | some coins =>
    rw [hcoins] at h
    cases h
    rw [List.map_map]
    rfl

end CTxMemPool

/-! ## When the cached lock is still right -/

open CTxMemPool

/-- The locks on confirmed inputs are met by the next block. -/
def ConfirmedLocksMet (inputs : List (CTxIn × Int)) : Prop :=
  ∀ p ∈ inputs, p.2 ≠ MEMPOOL_HEIGHT → p.1.locked →
    LockBelow (nextIndex tip) (nHeight tip + 1) (getMedianTimePast tip) p

/-- Where an input from the pool has a lock, the chain has not become lower or
older. -/
def PoolLocksKept (tip₀ tip₁ : BlockIndex) (inputs : List (CTxIn × Int)) : Prop :=
  ∀ p ∈ inputs, p.2 = MEMPOOL_HEIGHT → p.1.locked →
    (p.1.timeLocked → getMedianTimePast tip₀ ≤ getMedianTimePast tip₁) ∧
    (¬ p.1.timeLocked → nHeight tip₀ ≤ nHeight tip₁)

section Inputs

variable {tip₀ tip₁ mib : BlockIndex} {height time : Int} {p : CTxIn × Int} {tip : BlockIndex}

/-- The lock on a confirmed input only depends on the chain up to the input. -/
theorem lockBelow_confirmed (h₀ : mib <:+ tip₀) (h₁ : mib <:+ tip₁) (hne : mib ≠ [])
    (hp : p.2 ≤ nHeight mib) :
    LockBelow (nextIndex tip₀) height time p ↔ LockBelow (nextIndex tip₁) height time p := by
  have hpos := List.length_pos_of_ne_nil hne
  have hk : max (p.2 - 1) 0 ≤ nHeight mib := by
    unfold nHeight at *
    omega
  unfold LockBelow
  rw [getAncestor_of_suffix (h₀.trans (suffix_nextIndex tip₀)) hk,
    getAncestor_of_suffix (h₁.trans (suffix_nextIndex tip₁)) hk]

theorem getAncestor_nextIndex (h : tip ≠ []) :
    getAncestor (nextIndex tip) (max (nHeight tip + 1 - 1) 0) = tip := by
  have hpos := List.length_pos_of_ne_nil h
  have hk : max (nHeight tip + 1 - 1) 0 = nHeight tip := by
    unfold nHeight
    omega
  rw [hk]
  exact (getAncestor_eq_iff h).mpr (suffix_nextIndex tip)

theorem lockBelow_pool (h : tip ≠ []) {txin : CTxIn} :
    LockBelow (nextIndex tip) height time (txin, nHeight tip + 1) ↔
      (txin.timeLocked → getMedianTimePast tip + txin.lockValue * 512 - 1 < time) ∧
      (¬ txin.timeLocked → nHeight tip + txin.lockValue < height) := by
  unfold LockBelow
  rw [getAncestor_nextIndex h]
  have harith : nHeight tip + 1 + txin.lockValue - 1 = nHeight tip + txin.lockValue := by omega
  rw [harith]

/-- A lock on an input from the pool that was met is zero. -/
theorem lockValue_of_met (h : tip ≠ []) {txin : CTxIn}
    (hmet : LockBelow (nextIndex tip) (nHeight tip + 1) (getMedianTimePast tip)
      (txin, nHeight tip + 1)) : txin.lockValue = 0 := by
  rw [lockBelow_pool h] at hmet
  have hpos : 0 ≤ txin.lockValue := Int.natCast_nonneg _
  by_cases htime : txin.timeLocked
  · have hlow := hmet.1 htime
    omega
  · have hlow := hmet.2 htime
    omega

end Inputs

section Cached

variable {tip₀ tip₁ : BlockIndex} {tx : CTransaction} {hs : List Int} {fVerifySequence : Bool}

/-- The lock pair at a tip is below a height and a time. -/
theorem calculateSequenceLocks_lt {tip : BlockIndex} {height time : Int} (hheight : 0 ≤ height)
    (htime : 0 ≤ time) :
    ((calculateSequenceLocks tx fVerifySequence (hs.map (placeOf tip)) (nextIndex tip)).1 < height ∧
      (calculateSequenceLocks tx fVerifySequence (hs.map (placeOf tip)) (nextIndex tip)).2 < time) ↔
    (tx.nVersion.toNat ≥ 2 ∧ fVerifySequence = true → ∀ p ∈ tx.vin.zip hs, p.1.locked →
      LockBelow (nextIndex tip) height time (p.1, placeOf tip p.2)) := by
  unfold calculateSequenceLocks
  split
  · rename_i henforced
    rw [Bool.and_eq_true, decide_eq_true_iff] at henforced
    rw [sequenceLocksFrom_lt, List.zip_map_right]
    simp only [List.forall_mem_map, Prod.map, id, henforced, and_self, true_imp_iff]
    exact and_iff_right ⟨by omega, by omega⟩
  · rename_i hoff
    rw [Bool.and_eq_true, decide_eq_true_iff] at hoff
    simp only [hoff, false_imp_iff, iff_true]
    omega

/-- The tests on a lock pair. -/
theorem not_or_ge {a b c d : Int} : (!(decide (a ≥ c) || decide (b ≥ d))) = true ↔
    a < c ∧ b < d := by
  simp

/-- A block that the cached lock points keep on the chain is above all the
confirmed inputs that have a lock. -/
theorem le_nHeight_maxInputBlock (htip : tip₀ ≠ [])
    (hchain : ∀ h ∈ hs, h ≠ MEMPOOL_HEIGHT → 0 ≤ h ∧ h ≤ nHeight tip₀)
    (henforced : tx.nVersion.toNat ≥ 2 ∧ fVerifySequence = true) :
    let mib := getAncestor tip₀ (((lockedHeights tx fVerifySequence
      (hs.map (placeOf tip₀))).filter (· ≠ nHeight tip₀ + 1)).foldl max 0)
    mib ≠ [] ∧ mib <:+ tip₀ ∧
      ∀ p ∈ tx.vin.zip hs, p.2 ≠ MEMPOOL_HEIGHT → p.1.locked → p.2 ≤ nHeight mib := by
  intro mib
  have hpos := List.length_pos_of_ne_nil htip
  have hheights : lockedHeights tx fVerifySequence (hs.map (placeOf tip₀)) =
      (tx.vin.zip hs).map fun p =>
        if p.1.nSequence &&& SEQUENCE_LOCKTIME_DISABLE_FLAG ≠ 0 then 0 else placeOf tip₀ p.2 := by
    unfold lockedHeights
    rw [if_pos (by simpa using henforced), List.zip_map_right, List.map_map]
    rfl
  have hbounds : 0 ≤ ((lockedHeights tx fVerifySequence (hs.map (placeOf tip₀))).filter
        (· ≠ nHeight tip₀ + 1)).foldl max 0 ∧
      ((lockedHeights tx fVerifySequence (hs.map (placeOf tip₀))).filter
        (· ≠ nHeight tip₀ + 1)).foldl max 0 ≤ nHeight tip₀ := by
    have hzero : 0 ≤ nHeight tip₀ := by unfold nHeight; omega
    refine ⟨(foldl_max_le_iff.mp (le_refl _)).1, foldl_max_le_iff.mpr ⟨hzero, ?_⟩⟩
    intro x hx
    obtain ⟨hx, hne⟩ := List.mem_filter.mp hx
    rw [hheights] at hx
    obtain ⟨p, hp, rfl⟩ := List.mem_map.mp hx
    have hplace : placeOf tip₀ p.2 = nHeight tip₀ + 1 ∨ placeOf tip₀ p.2 ≤ nHeight tip₀ := by
      unfold placeOf
      split
      · exact .inl rfl
      · rename_i hconf
        exact .inr (hchain p.2 (List.of_mem_zip hp).2 hconf).2
    have hne := of_decide_eq_true hne
    split
    · exact hzero
    · rename_i hon
      rw [if_neg hon] at hne
      exact hplace.resolve_left hne
  have hmib : nHeight mib = _ := nHeight_getAncestor hbounds.1 hbounds.2
  refine ⟨?_, getAncestor_suffix _ _, ?_⟩
  · intro hnil
    rw [hnil] at hmib
    simp only [nHeight, List.length_nil] at hmib hbounds
    omega
  · intro p hp hconf hlocked
    rw [hmib]
    refine (foldl_max_le_iff.mp (le_refl _)).2 _ (List.mem_filter.mpr ⟨?_, ?_⟩)
    · rw [hheights]
      refine List.mem_map.mpr ⟨p, hp, ?_⟩
      have hon : ¬ p.1.nSequence &&& SEQUENCE_LOCKTIME_DISABLE_FLAG ≠ 0 := not_not.mpr hlocked
      rw [if_neg hon, placeOf, if_neg hconf]
    · have hle := (hchain p.2 (List.of_mem_zip hp).2 hconf).2
      exact decide_eq_true (by omega)

/-- What passes with the cached lock and what passes with a new one. -/
theorem locks_met_iff (htip₀ : tip₀ ≠ []) (htip₁ : tip₁ ≠ []) {mib : BlockIndex}
    (hne : mib ≠ []) (hmib₀ : mib <:+ tip₀) (hmib₁ : mib <:+ tip₁) {inputs : List (CTxIn × Int)}
    (hbelow : ∀ p ∈ inputs, p.2 ≠ MEMPOOL_HEIGHT → p.1.locked → p.2 ≤ nHeight mib)
    (hmet : ∀ p ∈ inputs, p.1.locked → LockBelow (nextIndex tip₀) (nHeight tip₀ + 1)
      (getMedianTimePast tip₀) (p.1, placeOf tip₀ p.2)) :
    ((∀ p ∈ inputs, p.1.locked → LockBelow (nextIndex tip₀) (nHeight tip₁ + 1)
        (getMedianTimePast tip₁) (p.1, placeOf tip₀ p.2)) ↔
      ConfirmedLocksMet tip₁ inputs ∧ PoolLocksKept tip₀ tip₁ inputs) ∧
    ((∀ p ∈ inputs, p.1.locked → LockBelow (nextIndex tip₁) (nHeight tip₁ + 1)
        (getMedianTimePast tip₁) (p.1, placeOf tip₁ p.2)) ↔ ConfirmedLocksMet tip₁ inputs) := by
  have hconf : ∀ p ∈ inputs, p.2 ≠ MEMPOOL_HEIGHT → p.1.locked →
      (LockBelow (nextIndex tip₀) (nHeight tip₁ + 1) (getMedianTimePast tip₁)
          (p.1, placeOf tip₀ p.2) ↔
        LockBelow (nextIndex tip₁) (nHeight tip₁ + 1) (getMedianTimePast tip₁) p) ∧
      placeOf tip₁ p.2 = p.2 := by
    intro p hp hc hl
    rw [placeOf, if_neg hc, placeOf, if_neg hc]
    exact ⟨lockBelow_confirmed hmib₀ hmib₁ hne (hbelow p hp hc hl), rfl⟩
  have hpool : ∀ p ∈ inputs, p.2 = MEMPOOL_HEIGHT → p.1.locked →
      (LockBelow (nextIndex tip₀) (nHeight tip₁ + 1) (getMedianTimePast tip₁)
          (p.1, placeOf tip₀ p.2) ↔
        (p.1.timeLocked → getMedianTimePast tip₀ ≤ getMedianTimePast tip₁) ∧
        (¬ p.1.timeLocked → nHeight tip₀ ≤ nHeight tip₁)) ∧
      LockBelow (nextIndex tip₁) (nHeight tip₁ + 1) (getMedianTimePast tip₁)
        (p.1, placeOf tip₁ p.2) := by
    intro p hp hc hl
    have hzero := hmet p hp hl
    rw [placeOf, if_pos hc] at hzero
    have hvalue := lockValue_of_met htip₀ hzero
    rw [placeOf, if_pos hc, placeOf, if_pos hc, lockBelow_pool htip₀, lockBelow_pool htip₁, hvalue]
    refine ⟨?_, fun _ => by omega, fun _ => by omega⟩
    constructor
    · exact fun h => ⟨fun ht => by have := h.1 ht; omega, fun ht => by have := h.2 ht; omega⟩
    · exact fun h => ⟨fun ht => by have := h.1 ht; omega, fun ht => by have := h.2 ht; omega⟩
  refine ⟨⟨fun h => ⟨?_, ?_⟩, fun ⟨hc, hk⟩ p hp hl => ?_⟩, fun h p hp hc hl => ?_,
    fun h p hp hl => ?_⟩
  · exact fun p hp hc hl => ((hconf p hp hc hl).1).mp (h p hp hl)
  · exact fun p hp hc hl => ((hpool p hp hc hl).1).mp (h p hp hl)
  · by_cases hin : p.2 = MEMPOOL_HEIGHT
    · exact (hpool p hp hin hl).1.mpr (hk p hp hin hl)
    · exact (hconf p hp hin hl).1.mpr (hc p hp hin hl)
  · have hnew := h p hp hl
    rwa [(hconf p hp hc hl).2] at hnew
  · by_cases hin : p.2 = MEMPOOL_HEIGHT
    · exact (hpool p hp hin hl).2
    · rw [(hconf p hp hin hl).2]
      exact h p hp hin hl

/-- The cached lock of a transaction that entered the pool at an earlier tip
gives what a new calculation gives, just if the locks on its inputs from the
pool are not above the current chain when all the other locks are met. -/
theorem cached_locks_sound_iff (s₀ s₁ : CTxMemPool) (view₀ view₁ : CCoinsViewCache)
    (tip₀ tip₁ : BlockIndex) (tx : CTransaction) (hs : List Int) (fVerifySequence : Bool)
    (lp : LockPoints) (htip₀ : tip₀ ≠ []) (htip₁ : tip₁ ≠ [])
    (hheights₀ : s₀.coinHeights view₀ tx = some hs) (hheights₁ : s₁.coinHeights view₁ tx = some hs)
    (hchain : ∀ h ∈ hs, h ≠ MEMPOOL_HEIGHT → 0 ≤ h ∧ h ≤ nHeight tip₀)
    (hlp : s₀.checkSequenceLocksWith fVerifySequence view₀ tip₀ tx = (true, lp))
    (hvalid : testLockPointValidity tip₁ lp = true) :
    checkExistingLocks tip₁ lp = (s₁.checkSequenceLocksWith fVerifySequence view₁ tip₁ tx).1 ↔
      (tx.nVersion.toNat ≥ 2 ∧ fVerifySequence = true → ConfirmedLocksMet tip₁ (tx.vin.zip hs) →
        PoolLocksKept tip₀ tip₁ (tx.vin.zip hs)) := by
  rw [checkSequenceLocksWith_of_heights hheights₀] at hlp
  rw [checkSequenceLocksWith_of_heights hheights₁]
  obtain ⟨hpass, hlp⟩ := Prod.mk.inj hlp
  rw [← hlp] at hvalid ⊢
  clear hlp
  have hzero₀ : 0 ≤ nHeight tip₀ + 1 := by unfold nHeight; omega
  have hzero₁ : 0 ≤ nHeight tip₁ + 1 := by unfold nHeight; omega
  have hpassed (tip : BlockIndex) : sequenceLocks tx fVerifySequence (hs.map (placeOf tip))
      (nextIndex tip) = true ↔ _ := not_or_ge
  have hcached : ∀ lp, checkExistingLocks tip₁ lp = true ↔ _ := fun lp => not_or_ge
  rw [hpassed, nHeight_nextIndex] at hpass
  have hmet := (calculateSequenceLocks_lt hzero₀ (getMedianTimePast_nonneg htip₀)).mp hpass
  rw [Bool.eq_iff_iff, hcached, hpassed, nHeight_nextIndex,
    calculateSequenceLocks_lt hzero₁ (getMedianTimePast_nonneg htip₁)]
  refine (iff_congr Iff.rfl
    (calculateSequenceLocks_lt hzero₁ (getMedianTimePast_nonneg htip₁))).trans ?_
  by_cases henforced : tx.nVersion.toNat ≥ 2 ∧ fVerifySequence = true
  · obtain ⟨hne, hmib₀, hbelow⟩ := le_nHeight_maxInputBlock htip₀ hchain henforced
    obtain ⟨hold, hnew⟩ := locks_met_iff htip₀ htip₁ hne hmib₀ (suffix_of_valid hvalid hne) hbelow
      (hmet henforced)
    simp only [henforced, and_self, true_imp_iff]
    rw [hold, hnew]
    exact and_iff_left_iff_imp
  · simp only [henforced, false_imp_iff]

end Cached

namespace CTxMemPool

/-- A transaction that spends another one in the pool with the sequence number
0. -/
def zeroLocked : CTransaction where
  nVersion := 2
  vin := [{ prevout := ⟨1, 0⟩, nSequence := 0 }]
  vout := [⟨1, []⟩]
  nLockTime := 0

def noCoins : CCoinsViewCache where
  base _ := none
  baseBestBlock := 0
  cacheCoins := ∅
  hashBlock := 0

/-- A chain of some length. -/
def blocks (n : Nat) : BlockIndex := List.replicate n regTestParams.genesis

/-- The lock points of this transaction at a tip, with its parent in the
pool. -/
theorem zeroLocked_entry (n : Nat) (hn : n = 1 ∨ n = 2) : ∃ s lp,
    empty.runs sampleEnv [joining 1 9 []] = .ok s ∧
    s.coinHeights noCoins zeroLocked = some [MEMPOOL_HEIGHT] ∧
    s.checkSequenceLocksWith true noCoins (blocks n) zeroLocked = (true, lp) ∧
    testLockPointValidity (blocks (3 - n)) lp = true ∧ lp.height = n - 1 := by
  have hok : okWith (empty.runs sampleEnv [joining 1 9 []]) (fun s =>
      s.coinHeights noCoins zeroLocked == some [MEMPOOL_HEIGHT] &&
      (s.checkSequenceLocksWith true noCoins (blocks n) zeroLocked).1 &&
      testLockPointValidity (blocks (3 - n))
        (s.checkSequenceLocksWith true noCoins (blocks n) zeroLocked).2 &&
      (s.checkSequenceLocksWith true noCoins (blocks n) zeroLocked).2.height == n - 1) = true := by
    rcases hn with rfl | rfl
    · decide +kernel
    · decide +kernel
  obtain ⟨s, hs, htest⟩ := of_okWith hok
  simp only [Bool.and_eq_true, beq_iff_eq] at htest
  obtain ⟨⟨⟨h1, h2⟩, h3⟩, h4⟩ := htest
  exact ⟨s, _, hs, h1, Prod.ext h2 rfl, h3, h4⟩

/-- The chain has grown since the transaction came. -/
theorem cached_locks_sound_iff_grown : ∃ (s : CTxMemPool) (lp : LockPoints),
    s.checkSequenceLocksWith true noCoins (blocks 1) zeroLocked = (true, lp) ∧
    checkExistingLocks (blocks 2) lp =
      (s.checkSequenceLocksWith true noCoins (blocks 2) zeroLocked).1 := by
  obtain ⟨s, lp, -, hheights, hlp, hvalid, -⟩ := zeroLocked_entry 1 (.inl rfl)
  refine ⟨s, lp, hlp, (cached_locks_sound_iff s s noCoins noCoins (blocks 1) (blocks 2) zeroLocked
    [MEMPOOL_HEIGHT] true lp (by decide) (by decide) hheights hheights (by simp) hlp hvalid).mpr
    fun _ _ _ _ _ _ => ⟨fun _ => by decide +kernel, fun _ => by decide +kernel⟩⟩

/-- The last block is disconnected after the transaction came, and its parent
is still in the pool: by the cached lock it may not be in the next block, and by
a new calculation it may. -/
theorem stale_lock_after_disconnect : ∃ s lp,
    empty.runs sampleEnv [joining 1 9 []] = .ok s ∧
    s.coinHeights noCoins zeroLocked = some [MEMPOOL_HEIGHT] ∧
    s.checkSequenceLocksWith true noCoins (blocks 2) zeroLocked = (true, lp) ∧
    testLockPointValidity (blocks 1) lp = true ∧
    checkExistingLocks (blocks 1) lp = false ∧
    (s.checkSequenceLocksWith true noCoins (blocks 1) zeroLocked).1 = true := by
  obtain ⟨s, lp, hs, hheights, hlp, hvalid, hheight⟩ := zeroLocked_entry 2 (.inr rfl)
  obtain ⟨s', lp', hs', -, hlp', -⟩ := zeroLocked_entry 1 (.inl rfl)
  cases hs.symm.trans hs'
  refine ⟨s, lp, hs, hheights, hlp, hvalid, ?_, by rw [hlp']⟩
  have hlow : nHeight (nextIndex (blocks 1)) ≤ 2 - 1 := by decide
  unfold checkExistingLocks
  rw [hheight, Bool.not_eq_false', Bool.or_eq_true]
  exact .inl (decide_eq_true hlow)

end CTxMemPool

end junkcoin
