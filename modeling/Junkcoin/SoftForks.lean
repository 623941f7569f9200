-- The rules that a deployment switches (`ConnectBlock`, lines 1884 to 1952,
-- and `ContextualCheckBlock`): which state applies which rule to a block, and
-- when a rule that was applied stays applied.
import Junkcoin.Headers

namespace junkcoin

open ConditionChecker CAuxPow

/-! ## The rules of a block -/

/-- The script flags that `ConnectBlock` sets. -/
structure ScriptFlags where
  P2SH : Bool
  DERSIG : Bool
  CHECKLOCKTIMEVERIFY : Bool
  CHECKSEQUENCEVERIFY : Bool
  WITNESS : Bool
  NULLDUMMY : Bool
  deriving DecidableEq, Repr

/-- The states in which the rules of BIP34, BIP65 and BIP66 are applied. -/
def ThresholdState.isOn (state : ThresholdState) : Bool := state == .active || state == .started

def isWitnessEnabled (pindexPrev : BlockIndex) (params : Params) : Bool :=
  versionBitsState pindexPrev params .segwit == .active

/-- The flags for the block after `pprev`. The names of the two states are
those of the source, and so are the deployments that they read. -/
def scriptFlags (pprev : BlockIndex) (consensus : Params) : ScriptFlags :=
  let stateBip65 := versionBitsState pprev consensus .bip66
  let stateBip66 := versionBitsState pprev consensus .bip65
  let witness := isWitnessEnabled pprev consensus
  { P2SH := true
    DERSIG := stateBip66.isOn
    CHECKLOCKTIMEVERIFY := stateBip65.isOn
    CHECKSEQUENCEVERIFY := versionBitsState pprev consensus .csv == .active
    WITNESS := witness
    NULLDUMMY := witness }

/-- Whether `ConnectBlock` refuses to overwrite unspent transactions. -/
def fEnforceBIP30 (pprev : BlockIndex) (consensus : Params) : Bool :=
  (versionBitsState pprev consensus .bip34).isOn

/-- Whether `ContextualCheckBlock` asks for the height in the coinbase. -/
def fEnforceBIP34 (pindexPrev : BlockIndex) (consensusParams : Params) : Bool :=
  (versionBitsState pindexPrev consensusParams .bip34).isOn

inductive SoftForkRule
  | dersig | checkLockTimeVerify | bip30 | bip34Height
  deriving DecidableEq, Repr

variable (net : Network)

/-- The rule is applied to the block `pindex`. -/
def applies (rule : SoftForkRule) (pindex : BlockIndex) : Bool :=
  let pprev := pindex.tail
  let consensus := consensusAfter net pprev
  match rule with
  | .dersig => (scriptFlags pprev consensus).DERSIG
  | .checkLockTimeVerify => (scriptFlags pprev consensus).CHECKLOCKTIMEVERIFY
  | .bip30 => fEnforceBIP30 pprev consensus
  | .bip34Height => fEnforceBIP34 pprev consensus

/-- The deployment that the code reads for a rule. -/
def SoftForkRule.deployment : SoftForkRule → DeploymentPos
  | .dersig => .bip65
  | .checkLockTimeVerify => .bip66
  | .bip30 => .bip34
  | .bip34Height => .bip34

theorem applies_eq (rule : SoftForkRule) (pindex : BlockIndex) :
    applies net rule pindex = (versionBitsState pindex.tail (consensusAfter net pindex.tail)
      rule.deployment).isOn := by
  cases rule <;> rfl

/-! ## One checker for each deployment -/

/-- The checker of a deployment. It is the same at every height. -/
def checker (pos : DeploymentPos) : ConditionChecker :=
  versionBitsConditionChecker net.params.consensus pos

theorem checker_period (pos : DeploymentPos) : (checker net pos).period = 10080 := by
  cases net <;> rfl

theorem checker_period_pos (pos : DeploymentPos) : 0 < (checker net pos).period := by
  rw [checker_period]
  decide

/-- The state of a deployment for the block after `pprev` is the state after
the last complete window. -/
theorem versionBitsState_eq (pprev : BlockIndex) (pos : DeploymentPos) :
    versionBitsState pprev (consensusAfter net pprev) pos =
      (checker net pos).stateAfter ((checker net pos).align pprev) := by
  have hc : versionBitsConditionChecker (consensusAfter net pprev) pos = checker net pos := by
    obtain ⟨h1, h2, h3⟩ := getConsensus_deployments net pprev.length
    unfold checker versionBitsConditionChecker consensusAfter
    rw [h1, h2, h3]
    cases net <;> rfl
  unfold versionBitsState
  rw [hc]
  exact (getStateFor_spec (checker_period_pos net pos)
    cacheSound_empty pprev).1

/-! ## When a rule stays applied -/

/-- No complete window below the tip takes the deployment out of `STARTED`:
its median time is before the timeout and too few of its blocks signal. -/
def NeverLeavesStarted (c : ConditionChecker) (p : BlockIndex) : Prop :=
  ∀ w, w <:+ p → w ≠ [] → w.length % c.period = 0 →
    c.stateAfter (w.drop c.period) = .started →
      getMedianTimePast w < c.endTime ∧ c.count w < c.threshold

/-- The median time does not go back between ancestors of `p`. -/
def MedianMono (p : BlockIndex) : Prop :=
  ∀ q q', q <:+ q' → q' <:+ p → q ≠ [] → getMedianTimePast q ≤ getMedianTimePast q'

section Windows

variable {c : ConditionChecker} {p : BlockIndex} {w : BlockIndex}

/-- Once begun, the next window makes one step from the state before it. -/
theorem stateAfter_of_begun (hp : 0 < c.period) (hm : MedianMono p) (hw : w <:+ p)
    (h : c.stateAfter (w.drop c.period) ≠ .defined) :
    c.stateAfter w = c.stateNext (c.stateAfter (w.drop c.period)) w := by
  obtain ⟨hne, hb⟩ := begun_of_stateAfter hp h
  refine stateAfter_step hp (Int.le_trans hb ?_) ?_
  · exact hm _ _ (List.drop_suffix _ _) hw hne
  · rintro rfl
    exact hne (List.drop_nil)

theorem isOn_iff (s : ThresholdState) : s.isOn = true ↔ s = .active ∨ s = .started := by
  cases s <;> simp [ThresholdState.isOn]

/-- One further block keeps a rule that is on. -/
theorem isOn_step (hp : 0 < c.period) (hm : MedianMono p) (hn : NeverLeavesStarted c p)
    {b : CBlockHeader} {u : BlockIndex} (hu : b :: u <:+ p)
    (hon : (c.stateAfter (c.align u)).isOn = true) :
    (c.stateAfter (c.align (b :: u))).isOn = true := by
  rcases align_cons hp b u with h | ⟨hend, hbefore⟩
  · rw [h]
    exact hon
  · rw [hbefore] at hon
    rw [hend]
    have hlen : (b :: u).length % c.period = 0 := by
      have := align_length c (b :: u)
      rw [hend] at this
      rw [this]
      exact Nat.mul_mod_left _ _
    rcases (isOn_iff _).mp hon with ha | hs
    · rw [stateAfter_of_begun hp hm hu (by rw [ha]; decide), ha]
      rfl
    · obtain ⟨ht, hc⟩ := hn (b :: u) hu (List.cons_ne_nil _ _) hlen hs
      rw [stateAfter_of_begun hp hm hu (by rw [hs]; decide), hs]
      simp only [stateNext]
      rw [if_neg (by omega), if_neg (by omega)]
      rfl

/-- Over any number of further blocks. -/
theorem isOn_run (hp : 0 < c.period) (hm : MedianMono p) (hn : NeverLeavesStarted c p)
    {u v : BlockIndex} (huv : u <:+ v) (hv : v <:+ p)
    (hon : (c.stateAfter (c.align u)).isOn = true) : (c.stateAfter (c.align v)).isOn = true := by
  induction v with
  | nil =>
    rw [List.suffix_nil.mp huv] at hon
    exact hon
  | cons b v ih =>
    rcases List.suffix_cons_iff.mp huv with rfl | huv
    · exact hon
    · exact isOn_step hp hm hn hv (ih huv ((List.suffix_cons b v).trans hv))

/-- A window that leaves `STARTED` takes the rule off. -/
theorem off_of_leaves (hp : 0 < c.period) (hm : MedianMono p) (hw : w <:+ p)
    (hs : c.stateAfter (w.drop c.period) = .started)
    (h : ¬ (getMedianTimePast w < c.endTime ∧ c.count w < c.threshold)) :
    (c.stateAfter w).isOn = false := by
  rw [stateAfter_of_begun hp hm hw (by rw [hs]; decide), hs]
  simp only [stateNext]
  split
  · rfl
  · split
    · rfl
    · exact absurd ⟨by omega, by omega⟩ h

theorem align_of_whole (h : w.length % c.period = 0) : c.align w = w := by
  rw [align_eq, h, List.drop_zero]

/-- A rule stays on along `p` exactly when no window leaves `STARTED`. -/
theorem stays_on_iff (hp : 0 < c.period) (hm : MedianMono p) :
    (∀ u v, u <:+ v → v <:+ p → (c.stateAfter (c.align u)).isOn = true →
      (c.stateAfter (c.align v)).isOn = true) ↔ NeverLeavesStarted c p := by
  constructor
  · intro h w hw hne hlen hs
    by_contra hleave
    have hoff := off_of_leaves hp hm hw hs hleave
    have hdrop : (w.drop c.period).length % c.period = 0 := by
      rw [List.length_drop, Nat.mod_eq_zero_of_dvd]
      exact Nat.dvd_sub (Nat.dvd_of_mod_eq_zero hlen) (Nat.dvd_refl _)
    have hon := h (w.drop c.period) w (List.drop_suffix _ _) hw
      (by rw [align_of_whole hdrop, hs]; rfl)
    rw [align_of_whole hlen, hoff] at hon
    cases hon
  · intro hn u v huv hv hon
    exact isOn_run hp hm hn huv hv hon

end Windows

variable {H : Hashes} {net}

theorem HeaderValid.medianMono {p : BlockIndex} (h : HeaderValid H net p) : MedianMono p := by
  intro q q' hqq hq hne
  have hne' : q' ≠ [] := by
    rintro rfl
    exact hne (List.suffix_nil.mp hqq)
  exact (h.of_suffix hq hne').median_mono hqq hne

/-! ## A chain that signals for BIP65 only -/

section Sample

variable {n : Nat} {b : CBlockHeader} {pos : DeploymentPos}

/-- The header at height `i`: it carries the chain id of the test network and
signals with bit 2. It comes more than two spacings after its parent, so
minimum difficulty is what the rules ask for. -/
def sampleHeader (i : Nat) (hashPrevBlock : Uint256) : CBlockHeader where
  nVersion := 0x20210004#32
  hashPrevBlock := hashPrevBlock
  hashMerkleRoot := 0
  nTime := UInt32.ofNat (1703462400 + 121 * i)
  nBits := 0x1e0fffff
  nNonce := 0

variable (H) in
/-- The sample chain up to height `n`. -/
def sampleChain : (n : Nat) → BlockIndex
  | 0 => [testNetParams.genesis]
  | n + 1 =>
    sampleHeader (n + 1) (((sampleChain n).head?.map (·.getHash H)).getD 0) :: sampleChain n

theorem length_sampleChain (n : Nat) : (sampleChain H n).length = n + 1 := by
  induction n with
  | zero => rfl
  | succ n ih => rw [sampleChain, List.length_cons, ih]

theorem drop_sampleChain (n k : Nat) : (sampleChain H (n + k)).drop k = sampleChain H n := by
  induction k with
  | zero => rfl
  | succ k ih => rw [← Nat.add_assoc, sampleChain, List.drop_succ_cons, ih]

theorem sampleHeader_time {i : Nat} (hi : i ≤ 20160) (h : Uint256) :
    (sampleHeader i h).getBlockTime = 1703462400 + 121 * i := by
  change ((UInt32.ofNat (1703462400 + 121 * i)).toNat : Int) = _
  rw [UInt32.toNat_ofNat']
  omega

/-- What the checks read from the version of a sample header. -/
theorem sampleHeader_version (i : Nat) (h : Uint256) :
    (sampleHeader i h).getBaseVersion = 4 ∧ (sampleHeader i h).getChainId = 0x2021 ∧
      (sampleHeader i h).isAuxpow = false ∧ (sampleHeader i h).isLegacy = false := by
  have hv : (sampleHeader i h).nVersion = 0x20210004#32 := rfl
  simp only [CPureBlockHeader.getBaseVersion, CPureBlockHeader.getChainId,
    CPureBlockHeader.isAuxpow, CPureBlockHeader.isLegacy, hv]
  decide

/-- Above genesis the sample chain has sample headers only. -/
theorem mem_take_sampleChain {k : Nat} (hk : k ≤ n) (hb : b ∈ (sampleChain H n).take k) :
    ∃ i h, n < i + k ∧ i ≤ n ∧ b = sampleHeader i h := by
  induction n generalizing k with
  | zero => simp [Nat.le_zero.mp hk] at hb
  | succ n ih =>
    cases k with
    | zero => simp at hb
    | succ k =>
      rw [sampleChain, List.take_succ_cons, List.mem_cons] at hb
      rcases hb with rfl | hb
      · exact ⟨n + 1, _, by omega, by omega, rfl⟩
      · obtain ⟨i, h, h1, h2, h3⟩ := ih (by omega) hb
        exact ⟨i, h, by omega, by omega, h3⟩

theorem sampleChain_time_le (hn : n ≤ 20160) (hb : b ∈ sampleChain H n) :
    b.getBlockTime ≤ 1703462400 + 121 * n := by
  induction n with
  | zero =>
    rw [sampleChain, List.mem_singleton] at hb
    subst hb
    decide
  | succ n ih =>
    rw [sampleChain, List.mem_cons] at hb
    rcases hb with rfl | hb
    · rw [sampleHeader_time hn]
    · have := ih (by omega) hb
      push_cast
      omega

theorem sampleChain_ne_nil (n : Nat) : sampleChain H n ≠ [] := by
  cases n <;> simp [sampleChain]

theorem sampleChain_median_le (hn : n ≤ 20160) :
    getMedianTimePast (sampleChain H n) ≤ 1703462400 + 121 * n := by
  refine Median.median_le (lastTimes_ne_nil (sampleChain_ne_nil n)) ?_
  intro t ht
  obtain ⟨b, hb, rfl⟩ := List.mem_map.mp ht
  exact sampleChain_time_le hn (List.mem_of_mem_take hb)

theorem le_sampleChain_median (h11 : 11 ≤ n) (hn : n ≤ 20160) :
    1703462400 ≤ getMedianTimePast (sampleChain H n) := by
  refine Median.le_median (lastTimes_ne_nil (sampleChain_ne_nil n)) ?_
  intro t ht
  obtain ⟨b, hb, rfl⟩ := List.mem_map.mp ht
  obtain ⟨i, h, _, hi, rfl⟩ := mem_take_sampleChain h11 hb
  rw [sampleHeader_time (by omega)]
  omega

/-- The next header may have minimum difficulty. -/
theorem sampleHeader_work (hn : n < 20160) (h : Uint256) :
    getNextWorkRequired (sampleChain H n) (sampleHeader (n + 1) h) testConsensus =
      .ok 0x1e0fffff := by
  obtain ⟨last, p, hc⟩ := List.exists_cons_of_ne_nil (sampleChain_ne_nil (H := H) n)
  have hlast := sampleChain_time_le (H := H) (n := n) (by omega) (b := last) (by simp [hc])
  have hmin : allowDigishieldMinDifficultyForBlock (last :: p) (sampleHeader (n + 1) h)
      testConsensus = true := by
    unfold allowDigishieldMinDifficultyForBlock
    rw [sampleHeader_time (by omega)]
    simp [testConsensus]
    omega
  rw [hc]
  simp only [getNextWorkRequired, hmin, if_true]
  decide +kernel

/-- The rules of a header, for a header of the sample chain. -/
theorem sampleHeader_contextual (hn : n < 20160) (h : Uint256) :
    contextualCheckBlockHeader .test (sampleHeader (n + 1) h) (sampleChain H n)
      (1703462400 + 121 * (n + 1)) = .ok () := by
  have hcons : consensusAfter .test (sampleChain H n) = testConsensus := by
    unfold consensusAfter CChainParams.getConsensus
    rw [length_sampleChain, if_pos]
    · rfl
    · change n + 1 < 0xffffffff
      omega
  have hmed := sampleChain_median_le (H := H) (n := n) (by omega)
  obtain ⟨hbase, _, haux, hleg⟩ := sampleHeader_version (n + 1) h
  rw [contextualCheckBlockHeader_ok, contextualHeaderRules_ok, hcons,
    sampleHeader_time (by omega)]
  refine ⟨⟨fun _ => hleg, fun _ => haux, sampleHeader_work hn h, ?_, ?_⟩, ?_⟩
  · push_cast
    omega
  · push_cast
    omega
  · simp [badVersion, hbase]

/-- A hash of zero meets every target. -/
theorem sampleHeader_pow (hs : ∀ l, H.scrypt l = 0) (i : Nat) (h : Uint256) :
    checkBlockHeader H .test (sampleHeader i h) true = .ok () := by
  obtain ⟨_, hid, haux, hleg⟩ := sampleHeader_version i h
  have hpow : checkProofOfWork 0 0x1e0fffff testConsensus = .ok () := by decide +kernel
  rw [checkBlockHeader, if_pos rfl, orDoS_ok, checkAuxPowProofOfWork, hleg, hid, haux]
  refine bind_ok_iff.mpr ⟨(), rfl, bind_ok_iff.mpr ⟨(), rfl, ?_⟩⟩
  rw [Bool.and_false, if_neg Bool.false_ne_true, CPureBlockHeader.getPoWHash, hs]
  exact hpow

theorem sampleChain_valid (hs : ∀ l, H.scrypt l = 0) (hn : n ≤ 20160) :
    HeaderValid H .test (sampleChain H n) := by
  induction n with
  | zero => exact HeaderValid.genesis
  | succ n ih =>
    have hv := ih (by omega)
    have hctx := sampleHeader_contextual (H := H) (n := n) (by omega)
      (((sampleChain H n).head?.map (·.getHash H)).getD 0)
    rw [sampleChain]
    obtain ⟨last, p, hc⟩ := List.exists_cons_of_ne_nil (sampleChain_ne_nil (H := H) n)
    rw [hc] at hv hctx ⊢
    exact HeaderValid.step _ hv rfl (sampleHeader_pow hs _ _) hctx

theorem checker_times (hpos : pos ≠ .testdummy) :
    (checker .test pos).beginTime = 1703462400 ∧ (checker .test pos).endTime = 1735084800 := by
  cases pos <;> first | exact absurd rfl hpos | exact ⟨rfl, rfl⟩

/-- A sample header signals for BIP65 and for nothing else. -/
theorem sampleHeader_signals (hpos : pos ≠ .testdummy) (i : Nat) (h : Uint256) :
    (checker .test pos).condition (sampleHeader i h) = (pos == .bip65) := by
  have hv : (sampleHeader i h).nVersion = 0x20210004#32 := rfl
  simp only [checker, versionBitsConditionChecker, hv]
  cases pos <;> first | exact absurd rfl hpos | decide

/-- After the first window the deployments have started. -/
theorem sampleChain_started (hpos : pos ≠ .testdummy) :
    (checker .test pos).stateAfter (sampleChain H 10079) = .started := by
  have hlo := le_sampleChain_median (H := H) (n := 10079) (by omega) (by omega)
  have hhi := sampleChain_median_le (H := H) (n := 10079) (by omega)
  obtain ⟨hbegin, hend⟩ := checker_times hpos
  have hdrop : (sampleChain H 10079).drop (checker .test pos).period = [] := by
    rw [checker_period, List.drop_of_length_le (by rw [length_sampleChain])]
  have hdef : (checker .test pos).stateAfter [] = .defined := rfl
  rw [stateAfter_step (checker_period_pos .test pos) (by rw [hbegin]; exact hlo)
    (sampleChain_ne_nil _), hdrop, hdef]
  simp only [stateNext]
  rw [if_neg (by omega), if_pos (by omega)]

/-- After the second window BIP65 is locked in, and no other deployment. -/
theorem sampleChain_second (hpos : pos ≠ .testdummy) :
    (checker .test pos).stateAfter (sampleChain H 20159) =
      if pos = .bip65 then .lockedIn else .started := by
  have hlo := le_sampleChain_median (H := H) (n := 20159) (by omega) (by omega)
  have hhi := sampleChain_median_le (H := H) (n := 20159) (by omega)
  obtain ⟨hbegin, hend⟩ := checker_times hpos
  have hthreshold : (checker .test pos).threshold = 9576 := rfl
  have hcount : (checker .test pos).count (sampleChain H 20159) =
      if pos = .bip65 then 10080 else 0 := by
    unfold count
    have hall : ∀ b ∈ (sampleChain H 20159).take 10080,
        (checker .test pos).condition b = (pos == .bip65) := by
      intro b hb
      obtain ⟨i, h, _, _, rfl⟩ := mem_take_sampleChain (by omega) hb
      exact sampleHeader_signals hpos i h
    split
    · rename_i he
      rw [List.countP_eq_length.mpr, List.length_take, length_sampleChain]
      · rfl
      · intro b hb
        rw [hall b hb, he]
        rfl
    · rename_i he
      rw [List.countP_eq_zero]
      intro b hb
      simpa [hall b hb] using he
  rw [stateAfter_step (checker_period_pos .test pos) (by rw [hbegin]; exact hlo)
    (sampleChain_ne_nil _), checker_period, drop_sampleChain 10079 10080,
    sampleChain_started hpos]
  simp only [stateNext, hcount, hthreshold]
  rw [if_neg (by omega)]
  split <;> rfl

theorem sampleChain_state (n : Nat) (hn : (n + 1) % 10080 = 0) :
    versionBitsState (sampleChain H n) (consensusAfter .test (sampleChain H n)) pos =
      (checker .test pos).stateAfter (sampleChain H n) := by
  rw [versionBitsState_eq, align_of_whole]
  rw [length_sampleChain, checker_period]
  exact hn

/-- At height 10080 the deployments have started, and the rules are applied. -/
theorem sampleChain_dersig_on : applies .test .dersig (sampleChain H 10080) = true := by
  rw [applies_eq, sampleChain, List.tail_cons, sampleChain_state 10079 rfl,
    sampleChain_started (by decide)]
  rfl

/-- At height 20160 the lock-in of BIP65 takes the rule that reads it off. -/
theorem sampleChain_dersig_off : applies .test .dersig (sampleChain H 20160) = false := by
  rw [applies_eq, sampleChain, List.tail_cons, sampleChain_state 20159 rfl,
    sampleChain_second (by decide)]
  rfl

theorem sampleChain_suffix : sampleChain H 10080 <:+ sampleChain H 20160 := by
  rw [← drop_sampleChain 10080 10080]
  exact List.drop_suffix _ _

end Sample

/-! ## The laws -/

theorem tail_suffix_tail {q q' : BlockIndex} (h : q <:+ q') : q.tail <:+ q'.tail := by
  obtain ⟨t, rfl⟩ := h
  cases t with
  | nil => exact List.suffix_rfl
  | cons b t => exact ((List.tail_suffix q).trans (List.suffix_append t q))

/-- Every ancestor of the parent is the parent of a block of the chain. -/
theorem exists_child {u p : BlockIndex} (hp : p ≠ []) (h : u <:+ p.tail) :
    ∃ b, b :: u <:+ p := by
  obtain ⟨t, ht⟩ := h
  obtain ⟨last, rest, rfl⟩ := List.exists_cons_of_ne_nil hp
  subst ht
  cases t.eq_nil_or_concat with
  | inl h => exact ⟨last, by rw [h]; exact List.suffix_rfl⟩
  | inr h =>
    obtain ⟨s, b, rfl⟩ := h
    exact ⟨b, last :: s, by simp⟩

/-- Along one chain a rule stays applied exactly when its deployment never
leaves `STARTED` below the tip. -/
theorem applies_stays_iff {p : BlockIndex} (h : HeaderValid H net p) (rule : SoftForkRule) :
    (∀ q q', q <:+ q' → q' <:+ p → applies net rule q = true → applies net rule q' = true) ↔
      NeverLeavesStarted (checker net rule.deployment) p.tail := by
  have hm : MedianMono p.tail :=
    fun q q' h1 h2 => h.medianMono q q' h1 (h2.trans (List.tail_suffix p))
  rw [← stays_on_iff (checker_period_pos net rule.deployment) hm]
  simp only [applies_eq, versionBitsState_eq]
  constructor
  · intro hq u v huv hv hon
    obtain ⟨b, hb⟩ := exists_child h.ne_nil hv
    obtain ⟨a, ha⟩ := exists_child h.ne_nil (huv.trans hv)
    refine hq (a :: u) (b :: v) ?_ hb hon
    refine List.suffix_of_suffix_length_le ha hb ?_
    have := huv.length_le
    simp only [List.length_cons]
    omega
  · intro hu q q' hqq hq hon
    exact hu q.tail q'.tail (tail_suffix_tail hqq) (tail_suffix_tail hq) hon

/-- No rule is ever switched off along a valid chain exactly when no complete
window below its tip takes BIP34, BIP65 or BIP66 out of `STARTED`. -/
theorem rules_stay_applied_iff (p : BlockIndex) (h : HeaderValid H net p) :
    (∀ rule q q', q <:+ q' → q' <:+ p → applies net rule q = true → applies net rule q' = true) ↔
      ∀ pos ∈ [DeploymentPos.bip34, .bip65, .bip66],
        NeverLeavesStarted (checker net pos) p.tail := by
  simp only [applies_stays_iff h, List.mem_cons, List.not_mem_nil, or_false, forall_eq_or_imp,
    forall_eq]
  constructor
  · intro hr
    exact ⟨hr .bip30, hr .dersig, hr .checkLockTimeVerify⟩
  · rintro ⟨h34, h65, h66⟩ rule
    cases rule with
    | dersig => exact h65
    | checkLockTimeVerify => exact h66
    | bip30 => exact h34
    | bip34Height => exact h34

/-- On the sample chain a window takes one of the deployments out of
`STARTED`. -/
theorem rules_stay_applied_iff_sample :
    HeaderValid sampleHashes .test (sampleChain sampleHashes 20160) ∧
      ¬ ∀ pos ∈ [DeploymentPos.bip34, .bip65, .bip66],
        NeverLeavesStarted (checker .test pos) (sampleChain sampleHashes 20160).tail := by
  have hv := sampleChain_valid (H := sampleHashes) (fun _ => rfl) (Nat.le_refl 20160)
  refine ⟨hv, fun h => ?_⟩
  have hoff := (rules_stay_applied_iff _ hv).mpr h .dersig _ _ sampleChain_suffix
    List.suffix_rfl sampleChain_dersig_on
  rw [sampleChain_dersig_off] at hoff
  cases hoff

/-- On the sample chain `DERSIG` is applied at height 10080 and no longer at
height 20160, when BIP65 has just locked in. -/
theorem dersig_is_switched_off :
    HeaderValid sampleHashes .test (sampleChain sampleHashes 20160) ∧
      sampleChain sampleHashes 10080 <:+ sampleChain sampleHashes 20160 ∧
      applies .test .dersig (sampleChain sampleHashes 10080) = true ∧
      applies .test .dersig (sampleChain sampleHashes 20160) = false :=
  ⟨sampleChain_valid (fun _ => rfl) (Nat.le_refl _), sampleChain_suffix, sampleChain_dersig_on,
    sampleChain_dersig_off⟩

/-- Each rule follows its own deployment for the block `b` after `p`: the
flag of BIP66 is the state of BIP66, the flag of BIP65 the state of BIP65,
and an old version is refused once its deployment is active. -/
def FollowsOwnDeployment (net : Network) (b : CBlockHeader) (p : BlockIndex) (t : Int) : Prop :=
  let consensus := consensusAfter net p
  (scriptFlags p consensus).DERSIG = (versionBitsState p consensus .bip66).isOn ∧
    (scriptFlags p consensus).CHECKLOCKTIMEVERIFY = (versionBitsState p consensus .bip65).isOn ∧
    (versionBitsState p consensus .bip34 = .active → b.getBaseVersion < 2 →
      contextualCheckBlockHeader net b p t ≠ .ok ()) ∧
    (versionBitsState p consensus .bip66 = .active → b.getBaseVersion < 3 →
      contextualCheckBlockHeader net b p t ≠ .ok ()) ∧
    (versionBitsState p consensus .bip65 = .active → b.getBaseVersion < 4 →
      contextualCheckBlockHeader net b p t ≠ .ok ())

/-- The test of the version asks for one of BIP65 and BIP66 to be active and
the other locked in, so it is silent when both rules are on or both off. -/
theorem badVersion_eq_false (b : CBlockHeader) (s34 : ThresholdState) {s65 s66 : ThresholdState}
    (h : s65.isOn = s66.isOn) : badVersion b s34 s65 s66 = false := by
  have h34 : (s34 == .active && s34 == .lockedIn) = false := by cases s34 <;> rfl
  have h66 : (s66 == .active && s65 == .lockedIn) = false := by
    cases s65 <;> cases s66 <;> first | rfl | exact absurd h (by decide)
  have h65 : (s65 == .active && s66 == .lockedIn) = false := by
    cases s65 <;> cases s66 <;> first | rfl | exact absurd h (by decide)
  rw [badVersion, h34, h66, h65]
  simp only [Bool.and_false, Bool.or_false]

/-- Each rule follows its own deployment exactly when BIP65 and BIP66 are on
together, and no old version of an active deployment passes the other rules
for headers. -/
theorem follows_own_deployment_iff (net : Network) (b : CBlockHeader) (p : BlockIndex) (t : Int) :
    FollowsOwnDeployment net b p t ↔
      (versionBitsState p (consensusAfter net p) .bip65).isOn =
        (versionBitsState p (consensusAfter net p) .bip66).isOn ∧
      (contextualHeaderRules net b p t = .ok () →
        (versionBitsState p (consensusAfter net p) .bip34 = .active → 2 ≤ b.getBaseVersion) ∧
        (versionBitsState p (consensusAfter net p) .bip66 = .active → 3 ≤ b.getBaseVersion) ∧
        (versionBitsState p (consensusAfter net p) .bip65 = .active → 4 ≤ b.getBaseVersion)) := by
  unfold FollowsOwnDeployment
  constructor
  · rintro ⟨hder, -, h34, h66, h65⟩
    refine ⟨hder, fun hrules => ?_⟩
    have hok : contextualCheckBlockHeader net b p t = .ok () :=
      (contextualCheckBlockHeader_ok net).mpr ⟨hrules, badVersion_eq_false b _ hder⟩
    exact ⟨fun h => Int.not_lt.mp fun hv => h34 h hv hok,
      fun h => Int.not_lt.mp fun hv => h66 h hv hok, fun h => Int.not_lt.mp fun hv => h65 h hv hok⟩
  · rintro ⟨hon, hver⟩
    have hrules : contextualCheckBlockHeader net b p t = .ok () →
        contextualHeaderRules net b p t = .ok () :=
      fun h => ((contextualCheckBlockHeader_ok net).mp h).1
    exact ⟨hon, hon.symm, fun h hv hok => absurd ((hver (hrules hok)).1 h) (Int.not_le.mpr hv),
      fun h hv hok => absurd ((hver (hrules hok)).2.1 h) (Int.not_le.mpr hv),
      fun h hv hok => absurd ((hver (hrules hok)).2.2 h) (Int.not_le.mpr hv)⟩

/-- At height 10080 and at height 20160 of the sample chain BIP66 is in the
same state, and the flag of BIP66 is not. -/
theorem dersig_ignores_bip66 :
    HeaderValid sampleHashes .test (sampleChain sampleHashes 20160) ∧
      versionBitsState (sampleChain sampleHashes 10079)
        (consensusAfter .test (sampleChain sampleHashes 10079)) .bip66 = .started ∧
      versionBitsState (sampleChain sampleHashes 20159)
        (consensusAfter .test (sampleChain sampleHashes 20159)) .bip66 = .started ∧
      applies .test .dersig (sampleChain sampleHashes 10080) = true ∧
      applies .test .dersig (sampleChain sampleHashes 20160) = false := by
  refine ⟨sampleChain_valid (fun _ => rfl) (Nat.le_refl _), ?_, ?_, sampleChain_dersig_on,
    sampleChain_dersig_off⟩
  · rw [sampleChain_state 10079 rfl, sampleChain_started (by decide)]
  · rw [sampleChain_state 20159 rfl, sampleChain_second (by decide)]
    rfl

end junkcoin
