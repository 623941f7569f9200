-- The threshold states of the deployments (`versionbits.cpp`): `GetStateFor`
-- with its cache, and the recursion over the windows that it computes.
import Junkcoin.Chain

namespace junkcoin

inductive ThresholdState
  | defined | started | lockedIn | active | failed
  deriving DecidableEq, Repr

/-- What an `AbstractThresholdConditionChecker` is asked for. -/
structure ConditionChecker where
  beginTime : Int
  endTime : Int
  period : Nat
  threshold : Nat
  condition : CBlockHeader → Bool

namespace ConditionChecker

variable (c : ConditionChecker)

/-- The signals in the window that ends with `pindexPrev`. -/
def count (pindexPrev : BlockIndex) : Nat := (pindexPrev.take c.period).countP c.condition

/-- One turn of the forward walk: the state after the window that ends with
`pindexPrev`, from the state in that window. -/
def stateNext (state : ThresholdState) (pindexPrev : BlockIndex) : ThresholdState :=
  match state with
  | .defined =>
    if getMedianTimePast pindexPrev ≥ c.endTime then .failed
    else if getMedianTimePast pindexPrev ≥ c.beginTime then .started
    else .defined
  | .started =>
    if getMedianTimePast pindexPrev ≥ c.endTime then .failed
    else if c.count pindexPrev ≥ c.threshold then .lockedIn
    else .started
  | .lockedIn => .active
  | .active => .active
  | .failed => .failed

/-- `ThresholdConditionCache`. -/
abbrev Cache := BlockIndex → Option ThresholdState

def Cache.empty : Cache := fun _ => none

def Cache.set (cache : Cache) (pindex : BlockIndex) (state : ThresholdState) : Cache :=
  fun q => if q = pindex then some state else cache q

/-- The walk back, in steps of one period, to an entry whose state is known.
It gives the cache, that entry, and the entries to compute, oldest first. -/
def walkBack : (fuel : Nat) → Cache → BlockIndex → (vToCompute : List BlockIndex) →
    Cache × BlockIndex × List BlockIndex
  | 0, cache, pindexPrev, vToCompute => (cache, pindexPrev, vToCompute)
  | fuel + 1, cache, pindexPrev, vToCompute =>
    if (cache pindexPrev).isSome then (cache, pindexPrev, vToCompute)
    else if pindexPrev = [] then (cache.set pindexPrev .defined, pindexPrev, vToCompute)
    else if getMedianTimePast pindexPrev < c.beginTime then
      (cache.set pindexPrev .defined, pindexPrev, vToCompute)
    else walkBack fuel cache (getAncestor pindexPrev (nHeight pindexPrev - c.period))
      (pindexPrev :: vToCompute)

/-- The walk forward over the entries to compute. -/
def walkForward : List BlockIndex → ThresholdState → Cache → ThresholdState × Cache
  | [], state, cache => (state, cache)
  | pindexPrev :: vToCompute, state, cache =>
    let state := c.stateNext state pindexPrev
    walkForward vToCompute state (cache.set pindexPrev state)

/-- The last block of the last window that is complete. -/
def align (pindexPrev : BlockIndex) : BlockIndex :=
  if pindexPrev = [] then []
  else getAncestor pindexPrev (nHeight pindexPrev - (nHeight pindexPrev + 1) % c.period)

/-- `AbstractThresholdConditionChecker::GetStateFor`. Every step of the walk
goes back at least one block, so the length of the chain is enough fuel. -/
def getStateFor (cache : Cache) (pindexPrev : BlockIndex) : ThresholdState × Cache :=
  let pindexPrev := c.align pindexPrev
  let (cache, known, vToCompute) := c.walkBack (pindexPrev.length + 1) cache pindexPrev []
  c.walkForward vToCompute ((cache known).getD .defined) cache

/-! ## The recursion over the windows -/

/-- The state after the window that ends with `pindex`, without a cache; `n`
bounds the number of windows. -/
def stateWithin : (n : Nat) → BlockIndex → ThresholdState
  | 0, _ => .defined
  | n + 1, pindex =>
    if pindex = [] ∨ getMedianTimePast pindex < c.beginTime then .defined
    else c.stateNext (stateWithin n (pindex.drop c.period)) pindex

/-- The state after the window that ends with `pindex`. -/
def stateAfter (pindex : BlockIndex) : ThresholdState := c.stateWithin pindex.length pindex

theorem align_eq (pindexPrev : BlockIndex) :
    c.align pindexPrev = pindexPrev.drop (pindexPrev.length % c.period) := by
  unfold align
  split
  · rename_i h
    simp [h]
  · have hh : (nHeight pindexPrev + 1) % (c.period : Int) =
        ((pindexPrev.length % c.period : Nat) : Int) := by
      unfold nHeight
      push_cast
      congr 1
      omega
    rw [hh, getAncestor_back]

theorem align_length (pindexPrev : BlockIndex) :
    (c.align pindexPrev).length = pindexPrev.length / c.period * c.period := by
  rw [align_eq, List.length_drop]
  have := Nat.div_add_mod pindexPrev.length c.period
  rw [Nat.mul_comm] at this
  omega

variable {c} (hp : 0 < c.period)
include hp

/-- More windows than the chain has change nothing. -/
theorem stateWithin_enough (n m : Nat) (pindex : BlockIndex) (hn : pindex.length ≤ n)
    (hm : pindex.length ≤ m) : c.stateWithin n pindex = c.stateWithin m pindex := by
  induction n generalizing m pindex with
  | zero =>
    have : pindex = [] := List.eq_nil_of_length_eq_zero (by omega)
    subst this
    cases m <;> simp [stateWithin]
  | succ n ih =>
    cases m with
    | zero =>
      have : pindex = [] := List.eq_nil_of_length_eq_zero (by omega)
      subst this
      simp [stateWithin]
    | succ m =>
      unfold stateWithin
      rw [ih m (pindex.drop c.period) (by rw [List.length_drop]; omega)
        (by rw [List.length_drop]; omega)]

theorem stateAfter_eq (pindex : BlockIndex) :
    c.stateAfter pindex =
      if pindex = [] ∨ getMedianTimePast pindex < c.beginTime then .defined
      else c.stateNext (c.stateAfter (pindex.drop c.period)) pindex := by
  cases pindex with
  | nil => simp [stateAfter, stateWithin]
  | cons b p =>
    unfold stateAfter
    rw [List.length_cons, stateWithin, stateWithin_enough hp p.length
      ((b :: p).drop c.period).length _ ?_ (Nat.le_refl _)]
    simp only [List.length_drop, List.length_cons]
    omega

omit hp

/-! ## The cache is transparent -/

/-- Every cached state is the state of its window. -/
def CacheSound (c : ConditionChecker) (cache : Cache) : Prop :=
  ∀ q s, cache q = some s → s = c.stateAfter q

theorem cacheSound_empty : c.CacheSound Cache.empty := by
  intro q s h
  cases h

theorem cacheSound_set {cache : Cache} (h : c.CacheSound cache) (q : BlockIndex) :
    c.CacheSound (cache.set q (c.stateAfter q)) := by
  intro r s hr
  unfold Cache.set at hr
  split at hr
  · rename_i he
    cases hr
    rw [he]
  · exact h r s hr

/-- Each entry is one window after the entry before it, starting at `known`. -/
def Ladder (c : ConditionChecker) : (known : BlockIndex) → List BlockIndex → Prop
  | _, [] => True
  | known, q :: v => c.stateAfter q = c.stateNext (c.stateAfter known) q ∧ Ladder c q v

include hp

/-- The walk back ends at an entry in the cache, below a ladder to where it
began. -/
theorem walkBack_spec (fuel : Nat) (cache : Cache) (q : BlockIndex) (v : List BlockIndex)
    (hf : q.length < fuel) (hc : c.CacheSound cache) (hl : c.Ladder q v) :
    let r := c.walkBack fuel cache q v
    c.CacheSound r.1 ∧ r.1 r.2.1 = some (c.stateAfter r.2.1) ∧ c.Ladder r.2.1 r.2.2 ∧
      (r.2.1 :: r.2.2).getLast? = (q :: v).getLast? := by
  induction fuel generalizing q v with
  | zero => omega
  | succ fuel ih =>
    have stop : ∀ (_ : c.stateAfter q = .defined), c.CacheSound (cache.set q .defined) ∧
        (cache.set q .defined) q = some (c.stateAfter q) := by
      intro hd
      refine ⟨?_, by simp [Cache.set, hd]⟩
      rw [← hd]
      exact cacheSound_set hc q
    unfold walkBack
    split
    · rename_i h
      obtain ⟨s, hs⟩ := Option.isSome_iff_exists.mp h
      exact ⟨hc, hs.trans (congrArg some (hc q s hs)), hl, rfl⟩
    · split
      · rename_i hq
        obtain ⟨h1, h2⟩ := stop (by rw [stateAfter_eq hp]; simp [hq])
        exact ⟨h1, h2, hl, rfl⟩
      · split
        · rename_i hq
          obtain ⟨h1, h2⟩ := stop (by rw [stateAfter_eq hp]; simp [hq])
          exact ⟨h1, h2, hl, rfl⟩
        · rename_i hq hm
          rw [getAncestor_back]
          have hlen : 0 < q.length := List.length_pos_iff.mpr hq
          refine (ih (q.drop c.period) (q :: v) (by rw [List.length_drop]; omega)
            ⟨?_, hl⟩).imp id fun h => h.imp id fun h => h.imp id fun h => ?_
          · rw [stateAfter_eq hp, if_neg (by simp [hq, hm])]
          · rw [h, List.getLast?_cons_cons]

omit hp

/-- The walk forward climbs the ladder. -/
theorem walkForward_spec (known : BlockIndex) (v : List BlockIndex) (cache : Cache)
    (hc : c.CacheSound cache) (hl : c.Ladder known v) :
    let r := c.walkForward v (c.stateAfter known) cache
    c.CacheSound r.2 ∧ some r.1 = (known :: v).getLast?.map c.stateAfter := by
  induction v generalizing known cache with
  | nil => exact ⟨hc, rfl⟩
  | cons q v ih =>
    unfold walkForward
    rw [← hl.1, List.getLast?_cons_cons]
    exact ih q _ (cacheSound_set hc q) hl.2

include hp

/-- With every sound cache `GetStateFor` gives the state of the last complete
window, and the cache that it leaves is sound again. -/
theorem getStateFor_spec {cache : Cache} (hc : c.CacheSound cache) (pindexPrev : BlockIndex) :
    (c.getStateFor cache pindexPrev).1 = c.stateAfter (c.align pindexPrev) ∧
      c.CacheSound (c.getStateFor cache pindexPrev).2 := by
  obtain ⟨h1, h2, h3, h4⟩ := walkBack_spec hp ((c.align pindexPrev).length + 1) cache
    (c.align pindexPrev) [] (by omega) hc trivial
  obtain ⟨h5, h6⟩ := walkForward_spec _ _ _ h1 h3
  unfold getStateFor
  simp only [h2, Option.getD_some]
  refine ⟨?_, h5⟩
  rw [h4] at h6
  exact Option.some.inj h6

omit hp

/-! ## Windows along a chain -/

theorem succ_mod_cases (n : Nat) {m : Nat} (hm : 0 < m) :
    ((n + 1) % m = 0 ∧ n % m + 1 = m) ∨ (n + 1) % m = n % m + 1 := by
  have hlt := Nat.mod_lt n hm
  have hn : n + 1 = m * (n / m) + (n % m + 1) := by
    have := Nat.div_add_mod n m
    omega
  rcases Nat.lt_or_eq_of_le (Nat.succ_le_of_lt hlt) with h | h
  · right
    rw [hn, Nat.mul_add_mod, Nat.mod_eq_of_lt h]
  · left
    have hlast : n % m + 1 = m := h
    exact ⟨by rw [hn, hlast, Nat.mul_add_mod, Nat.mod_self], hlast⟩

include hp

/-- A further block either leaves the last complete window as it is, or is
the last block of a window itself. -/
theorem align_cons (b : CBlockHeader) (u : BlockIndex) :
    c.align (b :: u) = c.align u ∨
      (c.align (b :: u) = b :: u ∧ c.align u = (b :: u).drop c.period) := by
  rw [align_eq, align_eq, List.length_cons]
  rcases succ_mod_cases u.length hp with ⟨h0, hu⟩ | h
  · refine Or.inr ⟨by rw [h0, List.drop_zero], ?_⟩
    calc u.drop (u.length % c.period) = (b :: u).drop (u.length % c.period + 1) := rfl
      _ = (b :: u).drop c.period := by rw [hu]
  · exact Or.inl (by rw [h, List.drop_succ_cons])

/-- The state after a window that is not before the start time. -/
theorem stateAfter_step {w : BlockIndex} (hw : c.beginTime ≤ getMedianTimePast w) (hne : w ≠ []) :
    c.stateAfter w = c.stateNext (c.stateAfter (w.drop c.period)) w := by
  rw [stateAfter_eq hp, if_neg]
  rintro (h | h)
  · exact hne h
  · omega

/-- A window whose state is not `DEFINED` ended after the start time. -/
theorem begun_of_stateAfter {w : BlockIndex} (h : c.stateAfter w ≠ .defined) :
    w ≠ [] ∧ c.beginTime ≤ getMedianTimePast w := by
  rw [stateAfter_eq hp] at h
  split at h
  · exact absurd rfl h
  · rename_i hn
    exact ⟨fun h' => hn (Or.inl h'), Int.not_lt.mp fun h' => hn (Or.inr h')⟩

omit hp

end ConditionChecker

/-! ## The deployments -/

def VERSIONBITS_TOP_BITS : BitVec 32 := 0x20000000#32

def VERSIONBITS_TOP_MASK : BitVec 32 := 0xE0000000#32

/-- `VersionBitsConditionChecker`. -/
def versionBitsConditionChecker (params : Params) (pos : DeploymentPos) : ConditionChecker where
  beginTime := (params.vDeployments pos).nStartTime
  endTime := (params.vDeployments pos).nTimeout
  period := params.nMinerConfirmationWindow
  threshold := params.nRuleChangeActivationThreshold
  condition b := b.nVersion &&& VERSIONBITS_TOP_MASK == VERSIONBITS_TOP_BITS &&
    b.nVersion &&& (1#32 <<< (params.vDeployments pos).bit) != 0

/-- `VersionBitsState`, from an empty cache: any cache that earlier calls
filled gives the same state (`getStateFor_spec`). -/
def versionBitsState (pindexPrev : BlockIndex) (params : Params) (pos : DeploymentPos) :
    ThresholdState :=
  ((versionBitsConditionChecker params pos).getStateFor .empty pindexPrev).1

end junkcoin
