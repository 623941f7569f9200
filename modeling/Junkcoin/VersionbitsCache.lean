-- The laws of the versionbits cache. `GetStateFor` stops early, at a median
-- time before the start and at anything that an earlier call left in the
-- cache. It still gives the state that one gets by going through the periods
-- from genesis on, and `GetStateSinceHeightFor` the height from which on it
-- has been the same.
import Junkcoin.Versionbits

namespace junkcoin

open ConditionChecker

namespace ConditionChecker

variable (c : ConditionChecker)

/-! ## `GetStateSinceHeightFor` -/

/-- The loop over the periods before. Each turn goes back at least one block. -/
def sinceLoop (initialState : ThresholdState) :
    (fuel : Nat) → Cache → (pindexPrev : BlockIndex) → BlockIndex × Cache
  | 0, cache, pindexPrev => (pindexPrev, cache)
  | fuel + 1, cache, pindexPrev =>
    let previousPeriodParent := getAncestor pindexPrev (nHeight pindexPrev - c.period)
    if previousPeriodParent = [] then (pindexPrev, cache)
    else
      let (state, cache) := c.getStateFor cache previousPeriodParent
      if state = initialState then sinceLoop initialState fuel cache previousPeriodParent
      else (pindexPrev, cache)

/-- `AbstractThresholdConditionChecker::GetStateSinceHeightFor`. -/
def getStateSinceHeightFor (cache : Cache) (pindexPrev : BlockIndex) : Int × Cache :=
  let (initialState, cache) := c.getStateFor cache pindexPrev
  if initialState = .defined then (0, cache)
  else
    let pindexPrev := c.align pindexPrev
    let (pindexPrev, cache) := c.sinceLoop initialState pindexPrev.length cache pindexPrev
    (nHeight pindexPrev + 1, cache)

/-! ## The states period by period -/

/-- The last block before period `k` on the chain of `p`. -/
def periodParent (p : BlockIndex) (k : Nat) : BlockIndex := p.drop (p.length - k * c.period)

/-- The state in period `k`, from genesis on. -/
def periodState (p : BlockIndex) : (k : Nat) → ThresholdState
  | 0 => .defined
  | k + 1 => c.stateNext (periodState p k) (c.periodParent p (k + 1))

/-- The period of the block after `p`. -/
def nextPeriod (p : BlockIndex) : Nat := p.length / c.period

/-- The first height of the periods up to the next block that have its state,
without a gap. -/
def FirstHeight (p : BlockIndex) (height : Int) : Prop :=
  ∃ j ≤ c.nextPeriod p, height = j * c.period ∧
    (∀ i, j ≤ i → i ≤ c.nextPeriod p → c.periodState p i = c.periodState p (c.nextPeriod p)) ∧
    (j = 0 ∨ c.periodState p (j - 1) ≠ c.periodState p (c.nextPeriod p))

/-- What earlier calls leave in the cache. -/
def cacheAfter (calls : List BlockIndex) : Cache :=
  calls.foldl (fun cache q => (c.getStateFor cache q).2) .empty

/-- Each block comes after the median time of its parent. -/
def MedianTimeRule (p : BlockIndex) : Prop :=
  ∀ b q, b :: q <:+ p → q ≠ [] → getMedianTimePast q < b.getBlockTime

variable {c} {p q : BlockIndex} {cache : Cache} {k : Nat} {state : ThresholdState}

theorem MedianTimeRule.median_mono (h : MedianTimeRule p) (hq : q <:+ p) (hne : q ≠ []) :
    getMedianTimePast q ≤ getMedianTimePast p := by
  induction p with
  | nil => exact absurd (List.suffix_nil.mp hq) hne
  | cons b p ih =>
    rcases List.suffix_cons_iff.mp hq with rfl | hq
    · exact Int.le_refl _
    · have hp : p ≠ [] := by
        rintro rfl
        exact hne (List.suffix_nil.mp hq)
      have hrule : MedianTimeRule p := fun b' q' hq' => h b' q' (hq'.trans (List.suffix_cons _ _))
      exact Int.le_trans (ih hrule hq)
        (getMedianTimePast_mono hp (h b p (List.suffix_refl _) hp))

theorem MedianTimeRule.of_suffix (h : MedianTimeRule p) (hq : q <:+ p) : MedianTimeRule q :=
  fun b q' hq' => h b q' (hq'.trans hq)

/-! ## Where the windows end -/

theorem periodParent_suffix (k : Nat) : c.periodParent p k <:+ p := List.drop_suffix _ _

theorem length_periodParent (hk : k * c.period ≤ p.length) :
    (c.periodParent p k).length = k * c.period := by
  unfold periodParent
  rw [List.length_drop]
  omega

theorem periodParent_zero : c.periodParent p 0 = [] := by
  unfold periodParent
  rw [Nat.zero_mul, Nat.sub_zero, List.drop_length]

/-- One period back is the parent of the period before. -/
theorem drop_periodParent (hk : (k + 1) * c.period ≤ p.length) :
    (c.periodParent p (k + 1)).drop c.period = c.periodParent p k := by
  unfold periodParent
  rw [List.drop_drop]
  rw [Nat.succ_mul] at hk ⊢
  congr 1
  omega

theorem periodParent_ne_nil (hp : 0 < c.period) (hk : (k + 1) * c.period ≤ p.length) :
    c.periodParent p (k + 1) ≠ [] := by
  intro hnil
  have hlen := length_periodParent hk
  rw [hnil, List.length_nil, Nat.succ_mul] at hlen
  omega

theorem align_eq_periodParent : c.align p = c.periodParent p (c.nextPeriod p) := by
  rw [align_eq]
  unfold periodParent nextPeriod
  have := Nat.div_add_mod p.length c.period
  rw [Nat.mul_comm] at this
  congr 1
  omega

theorem nextPeriod_mul_le : c.nextPeriod p * c.period ≤ p.length := Nat.div_mul_le_self _ _

theorem align_periodParent (hk : k * c.period ≤ p.length) :
    c.align (c.periodParent p k) = c.periodParent p k := by
  rw [align_eq, length_periodParent hk, Nat.mul_mod_left, List.drop_zero]

/-! ## The early stop is right -/

/-- Before the start time nothing has happened, and with a timeout that is not
before it nothing has failed either. -/
theorem stateAfter_periodParent (hp : 0 < c.period) (ht : c.beginTime ≤ c.endTime)
    (hrule : MedianTimeRule p) (hk : k * c.period ≤ p.length) :
    c.stateAfter (c.periodParent p k) = c.periodState p k := by
  induction k with
  | zero =>
    rw [periodParent_zero, stateAfter_eq hp, if_pos (Or.inl rfl)]
    rfl
  | succ k ih =>
    have hbelow : k * c.period ≤ p.length := by
      rw [Nat.succ_mul] at hk
      omega
    have hne := periodParent_ne_nil hp hk
    have ih := ih hbelow
    unfold periodState
    rw [← ih, stateAfter_eq hp, drop_periodParent hk]
    split
    · rename_i hearly
      have hearly := hearly.resolve_left hne
      -- the period before ended before the start time as well
      have hdefined : c.stateAfter (c.periodParent p k) = .defined := by
        rw [stateAfter_eq hp]
        apply if_pos
        by_cases hnil : c.periodParent p k = []
        · exact Or.inl hnil
        · refine Or.inr (Int.lt_of_le_of_lt ?_ hearly)
          rw [← drop_periodParent hk] at hnil ⊢
          exact (hrule.of_suffix (periodParent_suffix _)).median_mono (List.drop_suffix _ _) hnil
      rw [hdefined]
      unfold stateNext
      rw [if_neg (by omega), if_neg (by omega)]
    · rfl

theorem cacheSound_cacheAfter (hp : 0 < c.period) (calls : List BlockIndex) :
    c.CacheSound (c.cacheAfter calls) := by
  suffices h : ∀ cache, c.CacheSound cache →
      c.CacheSound (calls.foldl (fun cache q => (c.getStateFor cache q).2) cache) from
    h _ cacheSound_empty
  induction calls with
  | nil => exact fun _ h => h
  | cons q calls ih => exact fun cache h => ih _ (getStateFor_spec hp h q).2

theorem getStateFor_eq_periodState (hp : 0 < c.period) (ht : c.beginTime ≤ c.endTime)
    (hrule : MedianTimeRule p) (hc : c.CacheSound cache) :
    (c.getStateFor cache p).1 = c.periodState p (c.nextPeriod p) := by
  rw [(getStateFor_spec hp hc p).1, align_eq_periodParent,
    stateAfter_periodParent hp ht hrule nextPeriod_mul_le]

/-! ## The height -/

/-- A state other than the first is never followed by the first. -/
theorem stateNext_ne_defined (h : state ≠ .defined) (w : BlockIndex) :
    c.stateNext state w ≠ .defined := by
  unfold stateNext
  split
  · exact absurd rfl h
  · split
    · simp
    · split <;> simp
  all_goals simp

theorem periodState_defined_of_le (hk : c.periodState p k = .defined) {i : Nat} (hi : i ≤ k) :
    c.periodState p i = .defined := by
  induction k with
  | zero =>
    rw [Nat.le_zero.mp hi]
    rfl
  | succ k ih =>
    rcases Nat.le_or_eq_of_le_succ hi with hi | rfl
    · refine ih ?_ hi
      by_contra hne
      exact stateNext_ne_defined hne _ hk
    · exact hk

/-- The loop goes back over the periods with the same state. -/
theorem sinceLoop_spec (hp : 0 < c.period) (ht : c.beginTime ≤ c.endTime) (hrule : MedianTimeRule p)
    (hstate : state ≠ .defined) {fuel : Nat} (hk : k * c.period ≤ p.length) (hfuel : k ≤ fuel)
    (hc : c.CacheSound cache) (hlast : c.periodState p k = state) :
    ∃ j ≤ k, (c.sinceLoop state fuel cache (c.periodParent p k)).1 = c.periodParent p j ∧
      (∀ i, j ≤ i → i ≤ k → c.periodState p i = state) ∧
      0 < j ∧ c.periodState p (j - 1) ≠ state := by
  induction fuel generalizing k cache with
  | zero =>
    rw [Nat.le_zero.mp hfuel] at hlast
    exact absurd hlast.symm hstate
  | succ fuel ih =>
    cases k with
    | zero => exact absurd hlast.symm hstate
    | succ k =>
      have hbelow : k * c.period ≤ p.length := by
        rw [Nat.succ_mul] at hk
        omega
      have hself : ∀ i, k + 1 ≤ i → i ≤ k + 1 → c.periodState p i = state := by
        intro i h1 h2
        rw [Nat.le_antisymm h2 h1]
        exact hlast
      unfold sinceLoop
      simp only [getAncestor_back, drop_periodParent hk]
      split
      · -- there is no period before the first
        rename_i hnil
        have hzero : k = 0 := by
          have hlen := length_periodParent hbelow
          rw [hnil, List.length_nil] at hlen
          rcases Nat.mul_eq_zero.mp hlen.symm with h | h
          · exact h
          · omega
        refine ⟨k + 1, Nat.le_refl _, rfl, hself, Nat.succ_pos _, ?_⟩
        rw [hzero]
        exact Ne.symm hstate
      · obtain ⟨hval, hsound⟩ := getStateFor_spec hp hc (c.periodParent p k)
        rw [align_periodParent hbelow, stateAfter_periodParent hp ht hrule hbelow] at hval
        split
        · rename_i hsame
          obtain ⟨j, hj, hres, hrun, hpos, hstop⟩ := ih hbelow (by omega) hsound
            (hval.symm.trans hsame)
          refine ⟨j, by omega, hres, fun i h1 h2 => ?_, hpos, hstop⟩
          rcases Nat.le_or_eq_of_le_succ h2 with h2 | rfl
          · exact hrun i h1 h2
          · exact hlast
        · rename_i hother
          refine ⟨k + 1, Nat.le_refl _, rfl, hself, Nat.succ_pos _, ?_⟩
          rw [Nat.add_sub_cancel, ← hval]
          exact hother

theorem getStateSinceHeightFor_first (hp : 0 < c.period) (ht : c.beginTime ≤ c.endTime)
    (hrule : MedianTimeRule p) (hc : c.CacheSound cache) :
    c.FirstHeight p (c.getStateSinceHeightFor cache p).1 := by
  have hstate := getStateFor_eq_periodState hp ht hrule hc
  have hsound := (getStateFor_spec hp hc p).2
  have hk : c.nextPeriod p * c.period ≤ p.length := nextPeriod_mul_le
  unfold getStateSinceHeightFor
  simp only [hstate]
  split
  · rename_i hdefined
    refine ⟨0, Nat.zero_le _, by simp, fun i _ hi => ?_, Or.inl rfl⟩
    rw [hdefined]
    exact periodState_defined_of_le hdefined hi
  · rename_i hne
    rw [align_eq_periodParent]
    have hfuel : c.nextPeriod p ≤ (c.periodParent p (c.nextPeriod p)).length := by
      rw [length_periodParent hk]
      exact Nat.le_mul_of_pos_right _ hp
    obtain ⟨j, hj, hres, hrun, hpos, hstop⟩ := sinceLoop_spec hp ht hrule hne hk hfuel hsound rfl
    rw [hres]
    refine ⟨j, hj, ?_, hrun, Or.inr hstop⟩
    have hjle : j * c.period ≤ p.length := Nat.le_trans (Nat.mul_le_mul_right _ hj) hk
    unfold nHeight
    rw [length_periodParent hjle]
    push_cast
    omega

end ConditionChecker

/-! ## The law -/

/-- Whatever earlier calls left in the cache, `GetStateFor` gives the state
of the next block's period, and `GetStateSinceHeightFor` the height at which
that state began. -/
theorem versionbits_cache_is_transparent (c : ConditionChecker) (hp : 0 < c.period)
    (ht : c.beginTime ≤ c.endTime) (calls : List BlockIndex) (p : BlockIndex)
    (hrule : MedianTimeRule p) :
    (c.getStateFor (c.cacheAfter calls) p).1 = c.periodState p (c.nextPeriod p) ∧
      c.FirstHeight p (c.getStateSinceHeightFor (c.cacheAfter calls) p).1 :=
  have hc := cacheSound_cacheAfter hp calls
  ⟨getStateFor_eq_periodState hp ht hrule hc,
    getStateSinceHeightFor_first hp ht hrule hc⟩

/-- A test deployment that one signalling block of a window locks in. -/
def shortDeployment (period : Nat) (beginTime endTime : Int) : ConditionChecker where
  beginTime := beginTime
  endTime := endTime
  period := period
  threshold := 1
  condition _ := true

theorem medianTimeRule_nil : MedianTimeRule [] := by
  intro b q hq
  exact absurd (List.suffix_nil.mp hq) (List.cons_ne_nil _ _)

theorem ConditionChecker.MedianTimeRule.cons {b : CBlockHeader} {p : BlockIndex}
    (h : MedianTimeRule p) (hb : p ≠ [] → getMedianTimePast p < b.getBlockTime) :
    MedianTimeRule (b :: p) := by
  intro b' q hq hne
  rcases List.suffix_cons_iff.mp hq with heq | hq
  · obtain ⟨rfl, rfl⟩ := List.cons.inj heq
    exact hb hne
  · exact h b' q hq hne

/-- Five blocks with increasing times. -/
def risingChain : BlockIndex := [110, 100, 90, 80, 70].map (genesisHeader · 0)

/-- After two windows of two blocks the deployment is locked in, since height
four. The call reads the state of the first window from the cache. -/
theorem locked_in_after_two_windows :
    let c := shortDeployment 2 50 200
    (c.getStateFor (c.cacheAfter [risingChain.drop 2]) risingChain).1 = .lockedIn ∧
    c.FirstHeight risingChain
      (c.getStateSinceHeightFor (c.cacheAfter [risingChain.drop 2]) risingChain).1 ∧
    (c.getStateSinceHeightFor (c.cacheAfter [risingChain.drop 2]) risingChain).1 = 4 := by
  intro c
  have hrule : MedianTimeRule risingChain := by
    refine .cons (.cons (.cons (.cons (.cons medianTimeRule_nil ?_) ?_) ?_) ?_) ?_
    all_goals decide
  obtain ⟨hstate, hheight⟩ := versionbits_cache_is_transparent c (by decide) (by decide)
    [risingChain.drop 2] risingChain hrule
  exact ⟨hstate.trans (by decide), hheight, by decide⟩

/-- A timeout before the start: a median time between the two has the
deployment failed, but the early stop calls it defined. -/
theorem timeout_before_start_stays_defined :
    MedianTimeRule [genesisHeader 70 0] ∧
    ((shortDeployment 1 100 50).getStateFor ((shortDeployment 1 100 50).cacheAfter [])
      [genesisHeader 70 0]).1 = .defined ∧
    (shortDeployment 1 100 50).periodState [genesisHeader 70 0]
      ((shortDeployment 1 100 50).nextPeriod [genesisHeader 70 0]) = .failed :=
  ⟨medianTimeRule_nil.cons (absurd rfl), by decide, by decide⟩

end junkcoin
