-- The emission: the sum of the subsidies of the main network up to a height.
-- The draw can pay a bonus at every height, so the sum stays within
-- `MAX_MONEY` for every draw up to the height 53077 and no further.
import Junkcoin.ChainParams

namespace junkcoin

variable (mtRandom : Int → Int) (nHeight : Nat)

/-- The subsidy of one block of the main network, without fees. -/
def mainnetSubsidy : Int :=
  getJunkcoinBlockSubsidy mtRandom nHeight 0 (mainParams.getConsensus nHeight)

/-- The subsidies of the heights 0 to `n`. -/
def emission (mtRandom : Int → Int) : (n : Nat) → Int
  | 0 => mainnetSubsidy mtRandom 0
  | n + 1 => emission mtRandom n + mainnetSubsidy mtRandom (n + 1)

/-- The draws that `generateMTRandom` makes with the range 100000. -/
def InRange : Prop := ∀ h, 1 ≤ mtRandom h ∧ mtRandom h ≤ 100000

/-! ## The largest subsidy of a height -/

/-- The most that a block can pay: the triple of the table up to the height
1540, and the jackpot behind it. -/
def largestSubsidy : Int :=
  if nHeight < 101 then 3000 * COIN
  else if nHeight < 1541 then 1500 * COIN
  else 1000 * COIN

/-- The draw that pays the most. -/
def luckyDraw (nHeight : Int) : Int := if nHeight < 1541 then 1 else 100000

theorem luckyDraw_inRange : InRange luckyDraw := by
  intro h
  unfold luckyDraw
  split <;> omega

/-- No height of the main network uses the table of the test networks. -/
theorem mainParams_table :
    (mainParams.getConsensus nHeight).fPowAllowMinDifficultyBlocks = false := by
  unfold CChainParams.getConsensus
  split
  · rfl
  · split
    · rfl
    · rfl

theorem mainnetSubsidy_eq :
    mainnetSubsidy mtRandom nHeight =
      if mtRandom nHeight > 99990 then 1000 * COIN
      else if mtRandom nHeight < 1001 then mainSubsidy nHeight * 3
      else mainSubsidy nHeight := by
  rw [mainnetSubsidy, getJunkcoinBlockSubsidy_zero, baseSubsidy, mainParams_table]
  simp only [Bool.false_eq_true, if_false]

/-- From the height 1541 on the triple of the table is below the jackpot. -/
theorem mainSubsidy_late {nHeight : Nat} (h : 1541 ≤ nHeight) :
    0 < mainSubsidy nHeight ∧ mainSubsidy nHeight ≤ 200 * COIN := by
  unfold mainSubsidy
  rw [if_neg (by omega), if_neg (by omega)]
  repeat' apply ite_bounds
  all_goals decide

theorem mainSubsidy_first {nHeight : Nat} (h : nHeight < 101) :
    mainSubsidy nHeight = 1000 * COIN := by
  rw [mainSubsidy, if_pos (by omega)]

theorem mainSubsidy_second {nHeight : Nat} (h1 : ¬ nHeight < 101) (h2 : nHeight < 1541) :
    mainSubsidy nHeight = 500 * COIN := by
  rw [mainSubsidy, if_neg (by omega), if_pos (by omega)]

theorem mainnetSubsidy_le : mainnetSubsidy mtRandom nHeight ≤ largestSubsidy nHeight := by
  rw [mainnetSubsidy_eq, largestSubsidy]
  by_cases h1 : nHeight < 101
  · rw [if_pos h1, mainSubsidy_first h1]
    simp only [COIN]
    split
    · omega
    · split <;> omega
  · by_cases h2 : nHeight < 1541
    · rw [if_neg h1, if_pos h2, mainSubsidy_second h1 h2]
      simp only [COIN]
      split
      · omega
      · split <;> omega
    · have hb := mainSubsidy_late (Nat.le_of_not_lt h2)
      split
      · omega
      · split <;> omega

theorem mainnetSubsidy_lucky : mainnetSubsidy luckyDraw nHeight = largestSubsidy nHeight := by
  rw [mainnetSubsidy_eq, largestSubsidy]
  by_cases h2 : nHeight < 1541
  · have hdraw : luckyDraw nHeight = 1 := by
      rw [luckyDraw, if_pos (by omega)]
    rw [hdraw, if_neg (by omega), if_pos (by omega)]
    by_cases h1 : nHeight < 101
    · rw [if_pos h1, mainSubsidy_first h1]
      rfl
    · rw [if_neg h1, if_pos h2, mainSubsidy_second h1 h2]
      rfl
  · have hdraw : luckyDraw nHeight = 100000 := by
      rw [luckyDraw, if_neg (by omega)]
    rw [hdraw, if_pos (by omega), if_neg (by omega), if_neg h2]

/-! ## The sum -/

/-- The largest sum up to a height, in whole coins. -/
def largestEmission (n : Nat) : Int :=
  if n < 101 then 3000 * (n + 1)
  else if n < 1541 then 303000 + 1500 * (n - 100)
  else 2463000 + 1000 * (n - 1540)

theorem largestEmission_succ (n : Nat) :
    largestEmission (n + 1) * COIN = largestEmission n * COIN + largestSubsidy (n + 1) := by
  simp only [largestEmission, largestSubsidy, COIN]
  by_cases h1 : n + 1 < 101
  · omega
  · by_cases h2 : n + 1 < 1541
    · rw [if_neg h1, if_pos h2, if_neg h1, if_pos h2]
      split
      · omega
      · omega
    · split <;> omega

theorem emission_le_largest (n : Nat) : emission mtRandom n ≤ largestEmission n * COIN := by
  induction n with
  | zero => exact mainnetSubsidy_le mtRandom 0
  | succ n ih =>
    have hstep := mainnetSubsidy_le mtRandom (n + 1)
    rw [emission, largestEmission_succ]
    omega

theorem emission_lucky (n : Nat) : emission luckyDraw n = largestEmission n * COIN := by
  induction n with
  | zero => exact mainnetSubsidy_lucky 0
  | succ n ih => rw [emission, largestEmission_succ, mainnetSubsidy_lucky, ih]

theorem largestEmission_fits (n : Nat) : largestEmission n * COIN ≤ MAX_MONEY ↔ n ≤ 53077 := by
  simp only [largestEmission, MAX_MONEY, COIN]
  split
  · omega
  · split <;> omega

/-! ## The law -/

/-- The emission up to a height stays within `MAX_MONEY` for every draw
exactly up to the height 53077. -/
theorem emission_within_max_money_iff (n : Nat) :
    (∀ mtRandom, InRange mtRandom → emission mtRandom n ≤ MAX_MONEY) ↔ n ≤ 53077 := by
  rw [← largestEmission_fits]
  constructor
  · intro h
    rw [← emission_lucky]
    exact h luckyDraw luckyDraw_inRange
  · intro h mtRandom _
    exact Int.le_trans (emission_le_largest mtRandom n) h

/-- At the height 53078 the luckiest draw has paid more than `MAX_MONEY`. -/
theorem lucky_emission_exceeds_max_money :
    InRange luckyDraw ∧ MAX_MONEY < emission luckyDraw 53078 := by
  refine ⟨luckyDraw_inRange, ?_⟩
  rw [emission_lucky]
  decide

end junkcoin
