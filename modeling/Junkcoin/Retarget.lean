-- Retargeting (`CalculateJunkcoinNextWorkRequired` and `GetNextWorkRequired`):
-- when the 256-bit product of a target and a timespan is exact, and which
-- block the rule for minimum difficulty takes its bits from.
import Junkcoin.Headers

namespace junkcoin

variable (fNewDifficultyProtocol : Bool)

/-! ## The timespan of a retarget -/

/-- `nTargetTimespanCurrent`. -/
def targetTimespan (params : Params) : Int :=
  if fNewDifficultyProtocol then params.nPowTargetTimespan else params.nPowTargetTimespan * 12

/-- The shortest timespan that counts for the block at `height`. -/
def timespanMin (timespan height : Int) : Int :=
  let least := if fNewDifficultyProtocol then timespan - timespan / 4 else timespan / 4
  if height > 10000 then least else if height > 5000 then least / 2 else least / 4

/-- The longest timespan that counts. -/
def timespanMax (timespan : Int) : Int :=
  if fNewDifficultyProtocol then timespan + timespan / 4 else timespan * 4

def clampTimespan (timespan height actual : Int) : Int :=
  max (timespanMin fNewDifficultyProtocol timespan height)
    (min actual (timespanMax fNewDifficultyProtocol timespan))

section
variable (fNew : Bool) {timespan : Int} (height : Int)

theorem timespanMin_bounds (h : 0 ≤ timespan) :
    0 ≤ timespanMin fNew timespan height ∧ timespanMin fNew timespan height ≤ timespan := by
  have hleast : ∀ least, 0 ≤ least → least ≤ timespan →
      0 ≤ (if height > 10000 then least else if height > 5000 then least / 2 else least / 4) ∧
      (if height > 10000 then least else if height > 5000 then least / 2 else least / 4) ≤
        timespan := by
    intro least h0 h1
    split
    · exact ⟨h0, h1⟩
    · split <;> omega
  apply hleast <;> split <;> omega

theorem timespanMax_bounds (h : 0 ≤ timespan) :
    timespan ≤ timespanMax fNew timespan ∧ timespanMax fNew timespan ≤ timespan * 4 := by
  unfold timespanMax
  split <;> omega

/-- A timespan within the bounds is not changed. -/
theorem clampTimespan_of_within {actual : Int} (h1 : timespanMin fNew timespan height ≤ actual)
    (h2 : actual ≤ timespanMax fNew timespan) :
    clampTimespan fNew timespan height actual = actual := by
  unfold clampTimespan
  omega

theorem clampTimespan_bounds (h : 0 ≤ timespan) (actual : Int) :
    0 ≤ clampTimespan fNew timespan height actual ∧
      clampTimespan fNew timespan height actual ≤ timespanMax fNew timespan := by
  have hmin := timespanMin_bounds fNew height h
  have hmax := timespanMax_bounds fNew h
  unfold clampTimespan
  omega

end

/-! ## The new target -/

/-- The new work without any cut: the target is scaled by the clamped timespan
over unbounded integers and held at the limit. -/
def exactWorkRequired (lastHeight : Int) (last : CBlockHeader) (nFirstBlockTime : Int)
    (params : Params) : UInt32 :=
  let timespan := targetTimespan fNewDifficultyProtocol params
  let clamped := clampTimespan fNewDifficultyProtocol timespan (lastHeight + 1)
    (last.getBlockTime - nFirstBlockTime)
  getCompact (min (params.powLimit : Int) ((setCompact last.nBits).1 * clamped / timespan)).toNat

/-- What the C++ function computes, with the cuts to 32 and 256 bits. -/
theorem calculate_eq (fNew : Bool) (timespan lastHeight : Int) (last : CBlockHeader)
    (first : Int) (params : Params) :
    calculateJunkcoinNextWorkRequired fNew timespan lastHeight last first params =
      getCompact (min params.powLimit ((setCompact last.nBits).1 *
        (clampTimespan fNew timespan (lastHeight + 1) (last.getBlockTime - first) % 2 ^ 32).toNat
          % 2 ^ 256 / timespan.toNat)) := by
  have hmin : ∀ a b : Nat, (if a > b then b else a) = min b a := by
    intro a b
    split <;> omega
  unfold calculateJunkcoinNextWorkRequired clampTimespan timespanMin timespanMax
  dsimp only
  rw [hmin]
  split <;> (try split) <;> rfl

/-- A number below `2 ^ 218` has a compact form with a size below 30. -/
theorem getCompact_lt {bn : Nat} (h : bn < 2 ^ 218) : (getCompact bn).toNat < 0x1e * 2 ^ 24 := by
  have hbits : bits bn ≤ 218 ∧ bn < 2 ^ bits bn := by
    unfold bits
    split
    · omega
    · rename_i h0
      exact ⟨(Nat.log2_lt h0).mpr h, Nat.lt_log2_self⟩
  obtain ⟨hb, hlt⟩ := hbits
  unfold getCompact
  dsimp only
  generalize hsize : (bits bn + 7) / 8 = nSize
  have hbn : bn < 2 ^ (8 * nSize) := lt_of_lt_of_le hlt (Nat.pow_le_pow_right (by omega) (by omega))
  generalize hc : (if nSize ≤ 3 then bn * 2 ^ (8 * (3 - nSize)) else bn / 2 ^ (8 * (nSize - 3))) =
    nCompact
  have hmant : nCompact < 2 ^ 24 := by
    rw [← hc]
    split
    · calc bn * 2 ^ (8 * (3 - nSize)) < 2 ^ (8 * nSize) * 2 ^ (8 * (3 - nSize)) :=
            Nat.mul_lt_mul_of_pos_right hbn (Nat.two_pow_pos _)
        _ = 2 ^ 24 := by rw [← Nat.pow_add]; congr 1; omega
    · rw [Nat.div_lt_iff_lt_mul (Nat.two_pow_pos _), ← Nat.pow_add]
      exact lt_of_lt_of_le hbn (Nat.pow_le_pow_right (by omega) (by omega))
  by_cases htop : nCompact.testBit 23 = true
  · rw [if_pos htop, UInt32.toNat_ofNat']
    omega
  · rw [if_neg htop, UInt32.toNat_ofNat']
    omega

theorem getCompact_powLimit : (getCompact (2 ^ 236 - 1)).toNat = 0x1e0fffff := by decide +kernel

/-- The parameters of every network leave room for the factor of a timespan
but not for that of four of them. -/
structure Params.Work (params : Params) : Prop where
  powLimit : params.powLimit = 2 ^ 236 - 1
  spacing : params.nPowTargetSpacing = 60
  timespan : params.nPowTargetTimespan = 24 * 60 * 60 ∨ params.nPowTargetTimespan = 4 * 60 * 60 ∨
    params.nPowTargetTimespan = 60

theorem getConsensus_work (net : Network) (n : Nat) : (net.params.getConsensus n).Work := by
  cases net <;> unfold CChainParams.getConsensus <;> split
  all_goals first
    | exact ⟨rfl, rfl, by decide⟩
    | (split <;> exact ⟨rfl, rfl, by decide⟩)

theorem Params.Work.targetTimespan_bounds {params : Params} (h : params.Work) (fNew : Bool) :
    60 ≤ targetTimespan fNew params ∧ targetTimespan fNew params ≤ 2 ^ 20 := by
  have := h.timespan
  unfold targetTimespan
  split <;> omega

section
variable {params : Params} (hw : params.Work) (fNew : Bool) (lastHeight : Int)
  (last : CBlockHeader)

/-- The timespan that a retarget multiplies by. -/
def retargetTimespan (fNewDifficultyProtocol : Bool) (lastHeight : Int) (last : CBlockHeader)
    (nFirstBlockTime : Int) (params : Params) : Int :=
  clampTimespan fNewDifficultyProtocol (targetTimespan fNewDifficultyProtocol params)
    (lastHeight + 1) (last.getBlockTime - nFirstBlockTime)

include hw

/-- The conversion of the timespan to 32 bits keeps it. -/
theorem retargetTimespan_bounds (first : Int) :
    0 ≤ retargetTimespan fNew lastHeight last first params ∧
      retargetTimespan fNew lastHeight last first params ≤
        timespanMax fNew (targetTimespan fNew params) ∧
      retargetTimespan fNew lastHeight last first params < 2 ^ 32 := by
  have ht := hw.targetTimespan_bounds fNew
  have hc := clampTimespan_bounds fNew (lastHeight + 1) (by omega : 0 ≤ targetTimespan fNew params)
    (last.getBlockTime - first)
  have hm := timespanMax_bounds fNew (by omega : 0 ≤ targetTimespan fNew params)
  exact ⟨hc.1, hc.2, by unfold retargetTimespan; omega⟩

/-- Where the product fits in 256 bits the new work is exact. -/
theorem calculate_exact {first : Int}
    (hfits : (setCompact last.nBits).1 * retargetTimespan fNew lastHeight last first params <
      2 ^ 256) :
    calculateJunkcoinNextWorkRequired fNew (targetTimespan fNew params) lastHeight last first
      params = exactWorkRequired fNew lastHeight last first params := by
  obtain ⟨h0, -, h32⟩ := retargetTimespan_bounds hw fNew lastHeight last first
  have ht := hw.targetTimespan_bounds fNew
  rw [calculate_eq]
  unfold exactWorkRequired
  unfold retargetTimespan at h0 h32 hfits
  dsimp only
  generalize clampTimespan fNew _ _ _ = c at h0 h32 hfits
  generalize targetTimespan fNew params = timespan at ht
  lift c to Nat using h0
  lift timespan to Nat using by omega
  generalize (setCompact last.nBits).1 = target at hfits ⊢
  rw [← Nat.cast_mul] at hfits ⊢
  rw [Int.emod_eq_of_lt (by omega) h32, Int.toNat_natCast, Int.toNat_natCast,
    Nat.mod_eq_of_lt (by omega), ← Int.natCast_ediv]
  generalize target * c / timespan = quotient
  congr 1
  omega

omit hw in
/-- The least timespan for which the product reaches `2 ^ 256` lies within
the bounds, and the product passes them by less than the target. -/
theorem exists_wrapping_timespan {target : Nat} {timespan least most : Int}
    (hlimit : target ≤ 2 ^ 236 - 1) (ht : timespan ≤ 2 ^ 20)
    (hleast : 0 ≤ least ∧ least ≤ timespan) (hmost : timespan ≤ most ∧ most ≤ timespan * 4)
    (hbig : 2 ^ 256 ≤ target * most) :
    ∃ ts : Nat, 2 ^ 256 ≤ target * ts ∧ target * ts < 2 ^ 256 + target ∧
      least ≤ ts ∧ ts ≤ most := by
  have hpos : 0 < target := by
    rcases Nat.eq_zero_or_pos target with h | h
    · simp [h] at hbig
    · exact h
  lift most to Nat using by omega
  lift least to Nat using hleast.1
  have hdiv := Nat.div_add_mod (2 ^ 256 + target - 1) target
  have hmod := Nat.mod_lt (2 ^ 256 + target - 1) hpos
  have hlow : 2 ^ 256 ≤ target * ((2 ^ 256 + target - 1) / target) := by omega
  have hhigh : target * ((2 ^ 256 + target - 1) / target) < 2 ^ 256 + target := by omega
  refine ⟨(2 ^ 256 + target - 1) / target, hlow, hhigh, ?_, ?_⟩
  · have hsmall : target * least < 2 ^ 256 := calc
      target * least ≤ (2 ^ 236 - 1) * 2 ^ 20 := Nat.mul_le_mul hlimit (by omega)
      _ < 2 ^ 256 := by decide
    exact_mod_cast (Nat.lt_of_mul_lt_mul_left (lt_of_lt_of_le hsmall hlow)).le
  · have hnext : target * ((2 ^ 256 + target - 1) / target) < target * (most + 1) := by
      rw [Nat.mul_succ]
      omega
    exact_mod_cast Nat.le_of_lt_succ (Nat.lt_of_mul_lt_mul_left hnext)

omit hw in
/-- A product that does not fit needs a long timespan. -/
theorem timespan_large {target : Nat} {timespan most : Int} (hlimit : target ≤ 2 ^ 236 - 1)
    (h0 : 0 ≤ most) (hmost : most ≤ timespan * 4) (hbig : 2 ^ 256 ≤ target * most) :
    2 ^ 18 ≤ timespan := by
  by_contra hlt
  have : (target : Int) * most ≤ (2 ^ 236 - 1) * 2 ^ 20 :=
    Int.mul_le_mul (by omega) (by omega) h0 (by omega)
  omega

/-- Where the longest timespan does not fit, some first block makes the
product wrap to less than the target. -/
theorem calculate_wraps (hlimit : (setCompact last.nBits).1 ≤ params.powLimit)
    (hbig : 2 ^ 256 ≤
      (setCompact last.nBits).1 * timespanMax fNew (targetTimespan fNew params)) :
    ∃ first, calculateJunkcoinNextWorkRequired fNew (targetTimespan fNew params) lastHeight last
      first params ≠ exactWorkRequired fNew lastHeight last first params := by
  have ht := hw.targetTimespan_bounds fNew
  have hmin := timespanMin_bounds fNew (lastHeight + 1)
    (by omega : 0 ≤ targetTimespan fNew params)
  have hmax := timespanMax_bounds fNew (by omega : 0 ≤ targetTimespan fNew params)
  have hlimit' := hw.powLimit ▸ hlimit
  obtain ⟨ts, hlow, hhigh, hts0, hts⟩ := exists_wrapping_timespan hlimit' ht.2 hmin hmax hbig
  refine ⟨last.getBlockTime - ts, fun h => ?_⟩
  have hclamp := clampTimespan_of_within fNew (lastHeight + 1) hts0 hts
  rw [calculate_eq] at h
  unfold exactWorkRequired at h
  dsimp only at h
  rw [sub_sub_cancel, hclamp, hw.powLimit] at h
  have hsmall := timespan_large hlimit' (by omega) hmax.2 hbig
  generalize targetTimespan fNew params = timespan at *
  generalize (setCompact last.nBits).1 = target at *
  lift timespan to Nat using by omega
  have hwrapped : target * ts % 2 ^ 256 / timespan < 2 ^ 218 := by
    rw [Nat.mod_eq_sub_mod hlow, Nat.mod_eq_of_lt (by omega), Nat.div_lt_iff_lt_mul (by omega)]
    omega
  have hscaled : 2 ^ 236 - 1 ≤ target * ts / timespan := by
    rw [Nat.le_div_iff_mul_le (by omega)]
    omega
  have hexact : (min ((2 ^ 236 - 1 : Nat) : Int) (target * (ts : Int) / timespan)).toNat =
      2 ^ 236 - 1 := by
    rw [← Nat.cast_mul, ← Int.natCast_ediv]
    generalize target * ts / timespan = quotient at hscaled
    omega
  rw [hexact, Int.emod_eq_of_lt (by omega) (by omega), Int.toNat_natCast, Int.toNat_natCast] at h
  have hlt := getCompact_lt (lt_of_le_of_lt (Nat.min_le_right (2 ^ 236 - 1) _) hwrapped)
  rw [h, getCompact_powLimit] at hlt
  omega

/-- A first block that lies the longest timespan back is counted as such. -/
theorem retargetTimespan_longest :
    retargetTimespan fNew lastHeight last
      (last.getBlockTime - timespanMax fNew (targetTimespan fNew params)) params =
        timespanMax fNew (targetTimespan fNew params) := by
  have ht := hw.targetTimespan_bounds fNew
  have hmin := timespanMin_bounds fNew (lastHeight + 1) (by omega : 0 ≤ targetTimespan fNew params)
  have hmax := timespanMax_bounds fNew (by omega : 0 ≤ targetTimespan fNew params)
  unfold retargetTimespan
  rw [sub_sub_cancel]
  exact clampTimespan_of_within fNew (lastHeight + 1) (by omega) le_rfl

end

/-- The product of the target with the longest timespan fits in 256 bits. -/
def FitsRetarget (last : CBlockHeader) (params : Params) : Prop :=
  (setCompact last.nBits).1 *
    timespanMax fNewDifficultyProtocol (targetTimespan fNewDifficultyProtocol params) < 2 ^ 256

/-- Under the new protocol, and on the test networks under both, every target
up to the limit fits. -/
theorem fitsRetarget_of_protocol (net : Network) (n : Nat) (fNew : Bool) (last : CBlockHeader)
    (hlimit : (setCompact last.nBits).1 ≤ (net.params.getConsensus n).powLimit)
    (h : fNew = true ∨ net ≠ .main) : FitsRetarget fNew last (net.params.getConsensus n) := by
  have hmax : 0 ≤ timespanMax fNew (targetTimespan fNew (net.params.getConsensus n)) ∧
      timespanMax fNew (targetTimespan fNew (net.params.getConsensus n)) ≤ 2 ^ 20 := by
    rcases h with rfl | h
    · have := (getConsensus_work net n).timespan
      unfold timespanMax targetTimespan
      simp only [if_true]
      omega
    · have htime : (net.params.getConsensus n).nPowTargetTimespan = 4 * 60 * 60 ∨
          (net.params.getConsensus n).nPowTargetTimespan = 60 := by
        cases net with
        | main => exact absurd rfl h
        | test => unfold CChainParams.getConsensus; split <;> (try split) <;> decide
        | regtest => unfold CChainParams.getConsensus; split <;> (try split) <;> decide
      unfold timespanMax targetTimespan
      split <;> omega
  rw [(getConsensus_work net n).powLimit] at hlimit
  calc _ ≤ ((2 ^ 236 - 1) * 2 ^ 20 : Int) :=
        Int.mul_le_mul (by omega) hmax.2 hmax.1 (by omega)
    _ < 2 ^ 256 := by decide

/-- For a target up to the limit: the timespan always survives its conversion
to 32 bits; the product survives its cut to 256 bits for every first block
exactly when it does for the longest timespan; the new work is the exact one
for every first block exactly then, and for any one first block for which the
product survives. -/
theorem retarget_exact_iff (net : Network) (n : Nat) (fNew : Bool) (lastHeight : Int)
    (last : CBlockHeader)
    (hlimit : (setCompact last.nBits).1 ≤ (net.params.getConsensus n).powLimit) :
    (∀ first, 0 ≤ retargetTimespan fNew lastHeight last first (net.params.getConsensus n) ∧
      retargetTimespan fNew lastHeight last first (net.params.getConsensus n) < 2 ^ 32) ∧
    ((∀ first, (setCompact last.nBits).1 *
        retargetTimespan fNew lastHeight last first (net.params.getConsensus n) < 2 ^ 256) ↔
      FitsRetarget fNew last (net.params.getConsensus n)) ∧
    ((∀ first, calculateJunkcoinNextWorkRequired fNew
        (targetTimespan fNew (net.params.getConsensus n)) lastHeight last first
        (net.params.getConsensus n) =
          exactWorkRequired fNew lastHeight last first (net.params.getConsensus n)) ↔
      FitsRetarget fNew last (net.params.getConsensus n)) ∧
    ∀ first, (setCompact last.nBits).1 *
        retargetTimespan fNew lastHeight last first (net.params.getConsensus n) < 2 ^ 256 →
      calculateJunkcoinNextWorkRequired fNew (targetTimespan fNew (net.params.getConsensus n))
        lastHeight last first (net.params.getConsensus n) =
          exactWorkRequired fNew lastHeight last first (net.params.getConsensus n) := by
  have hw := getConsensus_work net n
  have hprod : FitsRetarget fNew last (net.params.getConsensus n) → ∀ first,
      (setCompact last.nBits).1 *
        retargetTimespan fNew lastHeight last first (net.params.getConsensus n) < 2 ^ 256 := by
    intro hfits first
    have hb := retargetTimespan_bounds hw fNew lastHeight last first
    exact lt_of_le_of_lt (Int.mul_le_mul_of_nonneg_left hb.2.1 (Int.natCast_nonneg _)) hfits
  have hexact := fun first => @calculate_exact _ hw fNew lastHeight last first
  refine ⟨fun first => ?_, ⟨fun h => ?_, hprod⟩, ⟨fun h => ?_, fun hfits first => ?_⟩, hexact⟩
  · have hb := retargetTimespan_bounds hw fNew lastHeight last first
    exact ⟨hb.1, hb.2.2⟩
  · have := h (last.getBlockTime -
      timespanMax fNew (targetTimespan fNew (net.params.getConsensus n)))
    rwa [retargetTimespan_longest hw] at this
  · by_contra hbig
    obtain ⟨first, hne⟩ := calculate_wraps hw fNew lastHeight last hlimit (by
      unfold FitsRetarget at hbig
      omega)
    exact hne (h first)
  · exact hexact first (hprod hfits first)

/-- The header of a block with the lowest difficulty. -/
def easiestHeader (nTime : UInt32) : CBlockHeader :=
  { genesisHeader nTime 0 with nBits := 0x1e0fffff }

/-- A retarget of the test network after thirteen days at the lowest
difficulty. -/
theorem retarget_exact_test :
    calculateJunkcoinNextWorkRequired false (targetTimespan false testConsensus) 2879
      (easiestHeader 1368517264) 1367394064 testConsensus =
        exactWorkRequired false 2879 (easiestHeader 1368517264) 1367394064 testConsensus := by
  have hlimit : (setCompact (easiestHeader 1368517264).nBits).1 ≤
      (Network.test.params.getConsensus 2880).powLimit := by decide +kernel
  exact (retarget_exact_iff .test 2880 false 2879 (easiestHeader 1368517264) hlimit).2.2.1.mpr
    (fitsRetarget_of_protocol .test 2880 false _ hlimit (.inr (by decide))) 1367394064

/-- On the main network before the switch, a period of thirteen days at the
lowest difficulty makes the product wrap: the difficulty rises almost
fourteenfold where it should stay the lowest. -/
theorem retarget_wraps_main :
    (setCompact (easiestHeader 1368517264).nBits).1 ≤ mainConsensus.powLimit ∧
    exactWorkRequired false 17279 (easiestHeader 1368517264) 1367394064 mainConsensus =
      0x1e0fffff ∧
    calculateJunkcoinNextWorkRequired false (targetTimespan false mainConsensus) 17279
      (easiestHeader 1368517264) 1367394064 mainConsensus = 0x1e0126ce := by
  decide +kernel

/-! ## The rule for minimum difficulty -/

/-- The number of blocks between two retargets, as it is in force for the
block at `height`. -/
def adjustmentInterval (params : Params) (height : Int) : Int :=
  targetTimespan (height ≥ 69360) params / params.nPowTargetSpacing

/-- The bits of the nearest block, from the tip down, that does not carry the
limit or stands at a height where `regular` holds. -/
def nearestBits (limit : UInt32) (regular : Int → Prop) [DecidablePred regular] :
    BlockIndex → UInt32
  | [] => 0
  | b :: ps =>
    if b.nBits ≠ limit ∨ regular (nHeight (b :: ps)) then b.nBits else nearestBits limit regular ps

/-- Every block of the chain from height `first` on carries the limit. -/
def EasySince (limit : UInt32) (pindex : BlockIndex) (first : Int) : Prop :=
  ∀ p, p <:+ pindex → first ≤ nHeight p → p.head?.map (·.nBits) = some limit

section
variable {limit : UInt32} {regular : Int → Prop} [DecidablePred regular] {pindex : BlockIndex}
  {r : Int} {regular' : Int → Prop}

theorem nHeight_cons (b : CBlockHeader) (ps : BlockIndex) : nHeight (b :: ps) = nHeight ps + 1 := by
  unfold nHeight
  rw [List.length_cons]
  omega

theorem easySince_cons {b : CBlockHeader} {ps : BlockIndex} {first : Int} :
    EasySince limit (b :: ps) first ↔
      (first ≤ nHeight (b :: ps) → b.nBits = limit) ∧ EasySince limit ps first := by
  constructor
  · intro h
    refine ⟨fun hf => ?_, fun p hp => h p (hp.trans (List.suffix_cons b ps))⟩
    simpa using h (b :: ps) List.suffix_rfl hf
  · rintro ⟨hb, hps⟩ p hp hf
    rcases List.suffix_cons_iff.mp hp with rfl | hp
    · simpa using hb hf
    · exact hps p hp hf

/-- Nothing is below the height where a chain ends. -/
theorem easySince_of_gt {ps : BlockIndex} {first : Int} (h : nHeight ps < first) :
    EasySince limit ps first := by
  intro p hp hf
  have := hp.length_le
  unfold nHeight at h hf
  omega

/-- The walk stops at the last regular height when all blocks from there on
carry the limit. -/
theorem nearestBits_of_easy (hr : regular r) (hle : r ≤ nHeight pindex) (h0 : 0 ≤ r)
    (heasy : EasySince limit pindex r) : nearestBits limit regular pindex = limit := by
  induction pindex with
  | nil =>
    unfold nHeight at hle
    simp at hle
    omega
  | cons b ps ih =>
    rw [easySince_cons] at heasy
    unfold nearestBits
    split
    · exact heasy.1 hle
    · rename_i hcont
      have hne : nHeight (b :: ps) ≠ r := fun h => hcont (.inr (h ▸ hr))
      rw [nHeight_cons] at hle hne
      exact ih (by omega) heasy.2

/-- Otherwise it stops at the last block that does not carry the limit. -/
theorem nearestBits_of_hard (h0 : 0 ≤ r) (hlast : ∀ k, r < k → k ≤ nHeight pindex → ¬ regular k)
    (hhard : ¬ EasySince limit pindex r) :
    nearestBits limit regular pindex = nearestBits limit (fun _ => False) pindex ∧
      nearestBits limit regular pindex ≠ limit := by
  induction pindex with
  | nil =>
    refine absurd (easySince_of_gt ?_) hhard
    exact lt_of_lt_of_le (by decide) h0
  | cons b ps ih =>
    by_cases hb : b.nBits = limit
    · have hps : ¬ EasySince limit ps r := fun h => hhard (easySince_cons.mpr ⟨fun _ => hb, h⟩)
      have hreg : ¬ regular (nHeight (b :: ps)) := by
        refine hlast _ ?_ le_rfl
        by_contra hle
        rw [nHeight_cons] at hle
        exact hps (easySince_of_gt (by omega))
      unfold nearestBits
      rw [if_neg (by simp [hb, hreg]), if_neg (by simp [hb])]
      refine ih (fun k hk hle => hlast k hk ?_) hps
      rw [nHeight_cons]
      omega
    · unfold nearestBits
      rw [if_pos (.inl hb), if_pos (.inl hb)]
      exact ⟨rfl, hb⟩

/-- Two walks that stop at different heights end at the same bits exactly
when the one that stops earlier does not stop at an easy block without need. -/
theorem nearestBits_eq_iff {r' : Int} [DecidablePred regular'] (h0 : 0 ≤ r') (hrr : r' ≤ r)
    (hr : regular r) (hr' : regular' r') (hle : r ≤ nHeight pindex)
    (hlast : ∀ k, r < k → k ≤ nHeight pindex → ¬ regular k)
    (hlast' : ∀ k, r' < k → k ≤ nHeight pindex → ¬ regular' k) :
    nearestBits limit regular pindex = nearestBits limit regular' pindex ↔
      (EasySince limit pindex r → EasySince limit pindex r') := by
  constructor
  · intro heq heasy
    by_contra hhard
    have h1 := nearestBits_of_easy hr hle (by omega) heasy
    exact (nearestBits_of_hard h0 hlast' hhard).2 (heq ▸ h1)
  · intro himp
    by_cases heasy : EasySince limit pindex r
    · rw [nearestBits_of_easy hr hle (by omega) heasy,
        nearestBits_of_easy hr' (by omega) h0 (himp heasy)]
    · have heasy' : ¬ EasySince limit pindex r' := fun h =>
        heasy fun p hp hf => h p hp (by omega)
      rw [(nearestBits_of_hard (by omega) hlast heasy).1, (nearestBits_of_hard h0 hlast' heasy').1]

/-- Heights below the last regular one do not matter to the walk. -/
theorem nearestBits_congr [DecidablePred regular'] (h0 : 0 ≤ r) (hle : r ≤ nHeight pindex)
    (hr : regular r) (hsame : ∀ k, r ≤ k → (regular k ↔ regular' k)) :
    nearestBits limit regular pindex = nearestBits limit regular' pindex := by
  induction pindex with
  | nil =>
    unfold nHeight at hle
    simp at hle
    omega
  | cons b ps ih =>
    have hstop : (b.nBits ≠ limit ∨ regular (nHeight (b :: ps))) ↔
        (b.nBits ≠ limit ∨ regular' (nHeight (b :: ps))) := or_congr_right (hsame _ hle)
    unfold nearestBits
    by_cases h : b.nBits ≠ limit ∨ regular (nHeight (b :: ps))
    · rw [if_pos h, if_pos (hstop.mp h)]
    · have hne : nHeight (b :: ps) ≠ r := fun heq => h (.inr (heq ▸ hr))
      rw [nHeight_cons] at hle hne
      rw [if_neg h, if_neg (hstop.not.mp h)]
      exact ih (by omega)

/-- The walk of the C++ code. -/
theorem lastNonMinBits_eq (interval : Int) (pindex : BlockIndex) :
    lastNonMinBits interval limit pindex =
      nearestBits limit (fun k => k % interval = 0) pindex := by
  induction pindex with
  | nil => rfl
  | cons b ps ih =>
    cases ps with
    | nil =>
      unfold nearestBits
      rw [if_pos (.inr (by simp [nHeight]))]
      rfl
    | cons p ps =>
      unfold lastNonMinBits nearestBits
      rw [ih]
      by_cases hb : b.nBits = limit <;> by_cases hk : nHeight (b :: p :: ps) % interval = 0
      all_goals simp [hb, hk]

end

/-- The last multiple of an interval up to a height. -/
theorem last_multiple {interval height : Int} (hi : 0 < interval) (h : 0 ≤ height) :
    0 ≤ height - height % interval ∧ height - height % interval ≤ height ∧
      (height - height % interval) % interval = 0 ∧
      ∀ k, height - height % interval < k → k ≤ height → ¬ k % interval = 0 := by
  have h1 := Int.emod_nonneg height hi.ne'
  have h2 := Int.emod_lt_of_pos height hi
  have h3 := Int.emod_add_mul_ediv height interval
  have h4 : 0 ≤ interval * (height / interval) := Int.mul_nonneg hi.le (Int.ediv_nonneg h hi.le)
  refine ⟨by omega, by omega, ?_, fun k hk hle h0 => ?_⟩
  · exact Int.emod_eq_zero_of_dvd ⟨height / interval, by omega⟩
  · obtain ⟨m, rfl⟩ := Int.dvd_of_emod_eq_zero h0
    have hlow : height / interval < m := Int.lt_of_mul_lt_mul_left (by omega) hi.le
    have hhigh : m < height / interval + 1 := by
      refine Int.lt_of_mul_lt_mul_left (a := interval) ?_ hi.le
      rw [Int.mul_add]
      omega
    omega

/-- The bits of the last block that did not use the exception: of the nearest
block that does not carry the limit or stands at a retarget. -/
def regularBits (params : Params) (pindexLast : BlockIndex) : UInt32 :=
  nearestBits (getCompact params.powLimit) (fun k => k % adjustmentInterval params k = 0) pindexLast

/-- What the C++ code returns between two retargets for a block that comes in
time. -/
theorem getNextWorkRequired_between {params : Params} {last : CBlockHeader} {ps : BlockIndex}
    {pblock : CBlockHeader} (hflag : params.fPowAllowMinDifficultyBlocks = true)
    (hbetween : ¬ (nHeight (last :: ps) + 1) %
      adjustmentInterval params (nHeight (last :: ps) + 1) = 0)
    (htime : pblock.getBlockTime ≤ last.getBlockTime + params.nPowTargetSpacing * 2) :
    getNextWorkRequired (last :: ps) pblock params =
      .ok (nearestBits (getCompact params.powLimit)
        (fun k => k % params.difficultyAdjustmentInterval = 0) (last :: ps)) := by
  have hslow : ¬ pblock.getBlockTime > last.getBlockTime + params.nPowTargetSpacing * 2 := by omega
  have hdigi : allowDigishieldMinDifficultyForBlock (last :: ps) pblock params = false := by
    unfold allowDigishieldMinDifficultyForBlock
    simp [hslow]
  unfold adjustmentInterval targetTimespan at hbetween
  unfold getNextWorkRequired
  dsimp only
  rw [hdigi, if_neg Bool.false_ne_true, if_pos hbetween, if_pos hflag, if_neg hslow,
    lastNonMinBits_eq]

/-- The first record of a network is in force until its height has 32 bits;
the others have the timespan of one block. -/
theorem consensus_or_late (net : Network) (n : Nat) :
    net.params.getConsensus n = net.params.consensus ∨
      0xffffffff ≤ n ∧ (net.params.getConsensus n).nPowTargetTimespan = 60 := by
  have hdigi : net.params.digishieldConsensus.nHeightEffective = 0xffffffff ∧
      net.params.digishieldConsensus.nPowTargetTimespan = 60 ∧
      net.params.auxpowConsensus.nPowTargetTimespan = 60 := by
    cases net <;> decide
  unfold CChainParams.getConsensus
  split
  · exact .inl rfl
  · rename_i h
    refine .inr ⟨by omega, ?_⟩
    split
    · exact hdigi.2.2
    · exact hdigi.2.1

/-- Only the test network has the exception, and between two retargets its
first record is in force. -/
theorem intervals_of_exception {net : Network} {pindex : BlockIndex}
    (hflag : (consensusAfter net pindex).fPowAllowMinDifficultyBlocks = true)
    (hbetween : ¬ (nHeight pindex + 1) %
      adjustmentInterval (consensusAfter net pindex) (nHeight pindex + 1) = 0) :
    (consensusAfter net pindex).difficultyAdjustmentInterval = 240 ∧
      ∀ k, adjustmentInterval (consensusAfter net pindex) k = if k ≥ 69360 then 240 else 2880 := by
  have htest : consensusAfter net pindex = testConsensus := by
    rcases consensus_or_late net pindex.length with h | ⟨hlate, h⟩
    · unfold consensusAfter at hflag ⊢
      rw [h] at hflag ⊢
      cases net with
      | main => exact absurd hflag (by decide)
      | test => rfl
      | regtest => exact absurd hflag (by decide)
    · -- the records for later heights have an interval of one block
      refine absurd ?_ hbetween
      unfold adjustmentInterval targetTimespan consensusAfter
      rw [decide_eq_true (by unfold nHeight; omega), if_pos rfl, h,
        (getConsensus_work net pindex.length).spacing, Int.ediv_self (by decide), Int.emod_one]
  rw [htest]
  refine ⟨rfl, fun k => ?_⟩
  unfold adjustmentInterval targetTimespan
  by_cases hk : k ≥ 69360
  · rw [if_pos hk, decide_eq_true hk]
    rfl
  · rw [if_neg hk, decide_eq_false hk]
    rfl

/-- On a network with the exception, for a block that is not a retarget and
comes in time: the required bits are the regular ones exactly when the switch
has passed, or when, if all blocks since the last multiple of the interval in
the parameters carry the limit, so do all blocks since the last retarget. -/
theorem min_difficulty_regular_iff (net : Network) (last : CBlockHeader) (ps : BlockIndex)
    (pblock : CBlockHeader)
    (hflag : (consensusAfter net (last :: ps)).fPowAllowMinDifficultyBlocks = true)
    (hbetween : ¬ (nHeight (last :: ps) + 1) %
      adjustmentInterval (consensusAfter net (last :: ps)) (nHeight (last :: ps) + 1) = 0)
    (htime : pblock.getBlockTime ≤ last.getBlockTime +
      (consensusAfter net (last :: ps)).nPowTargetSpacing * 2) :
    getNextWorkRequired (last :: ps) pblock (consensusAfter net (last :: ps)) =
        .ok (regularBits (consensusAfter net (last :: ps)) (last :: ps)) ↔
      69360 ≤ nHeight (last :: ps) + 1 ∨
        (EasySince (getCompact (consensusAfter net (last :: ps)).powLimit) (last :: ps)
            (nHeight (last :: ps) - nHeight (last :: ps) %
              (consensusAfter net (last :: ps)).difficultyAdjustmentInterval) →
          EasySince (getCompact (consensusAfter net (last :: ps)).powLimit) (last :: ps)
            (nHeight (last :: ps) - nHeight (last :: ps) %
              adjustmentInterval (consensusAfter net (last :: ps)) (nHeight (last :: ps)))) := by
  rw [getNextWorkRequired_between hflag hbetween htime]
  obtain ⟨hparams, hforce⟩ := intervals_of_exception hflag hbetween
  have h0 : 0 ≤ nHeight (last :: ps) := by
    rw [nHeight_cons]
    unfold nHeight
    omega
  rw [Except.ok.injEq, hparams]
  by_cases hswitch : 69360 ≤ nHeight (last :: ps) + 1
  · -- 69360 is itself a multiple of the new interval, so the walk ends above the switch
    refine iff_of_true (nearestBits_congr (r := 69360) (by decide) ?_ (by decide) fun k hk => ?_)
      (.inl hswitch)
    · by_contra hlt
      have hat : nHeight (last :: ps) + 1 = 69360 := by omega
      rw [hat, hforce, if_pos le_rfl] at hbetween
      exact hbetween (by decide)
    · rw [hforce, if_pos hk]
  · have hforce' : ∀ k, k ≤ nHeight (last :: ps) →
        adjustmentInterval (consensusAfter net (last :: ps)) k = 2880 := fun k hk => by
      rw [hforce, if_neg (by omega)]
    obtain ⟨-, h2, h3, h4⟩ := last_multiple (by decide : (0 : Int) < 240) h0
    obtain ⟨h1', h2', h3', h4'⟩ := last_multiple (by decide : (0 : Int) < 2880) h0
    rw [or_iff_right hswitch, hforce' _ le_rfl]
    refine nearestBits_eq_iff h1' (by omega) h3 ?_ h2 h4 fun k hk hle => ?_
    · rw [hforce' _ h2']
      exact h3'
    · rw [hforce' _ hle]
      exact h4' k hk hle

/-- A chain of the test network in which every block after the first comes
more than two spacings late. -/
def lateChain (n : Nat) : BlockIndex :=
  ((List.range n).reverse.map fun k => easiestHeader (UInt32.ofNat (1367394264 + 200 * k))) ++
    [testNetParams.genesis]

/-- The block that comes in time on top of it. -/
def timelyHeader (n : Nat) : CBlockHeader :=
  easiestHeader (UInt32.ofNat (1367394264 + 200 * n - 140))

/-- A block that comes in time after one late block has the bits of the first
block again. -/
theorem min_difficulty_regular_sample :
    getNextWorkRequired (lateChain 1) (timelyHeader 1) (consensusAfter .test (lateChain 1)) =
      .ok (regularBits (consensusAfter .test (lateChain 1)) (lateChain 1)) := by
  refine (min_difficulty_regular_iff .test (easiestHeader 1367394264) [testNetParams.genesis]
    (timelyHeader 1) (by decide +kernel) (by decide +kernel) (by decide +kernel)).mpr (.inr ?_)
  exact fun h => h

/-- After 240 late blocks the walk stops at the height 240, which is not a
retarget, and a block that comes in time has the limit as well. -/
theorem min_difficulty_leaks :
    (consensusAfter .test (lateChain 240)).fPowAllowMinDifficultyBlocks = true ∧
    (nHeight (lateChain 240) + 1) %
      adjustmentInterval (consensusAfter .test (lateChain 240)) (nHeight (lateChain 240) + 1) ≠ 0 ∧
    getNextWorkRequired (lateChain 240) (timelyHeader 240)
      (consensusAfter .test (lateChain 240)) = .ok 0x1e0fffff ∧
    regularBits (consensusAfter .test (lateChain 240)) (lateChain 240) = 0x1e0ffff0 := by
  decide +kernel

end junkcoin
