-- Block locators: `GetLocator` names a few ancestors of a block, one by one and
-- then ever further back, and `FindForkInGlobalIndex` takes the first of them
-- that is in the active chain.
import Junkcoin.SkipList
import Mathlib.Data.Nat.Log

open ParentTree

namespace junkcoin.BlockTree

open BlockHeap

section Model

variable (s : BlockTree) (getBlockHash : BlockPtr → Uint256)

/-- `CChain::operator[]`, for a height that is not negative. -/
def entry (nHeight : Nat) : Option BlockPtr := s.vChain[nHeight]?.join

/-- `CChain::Tip`. -/
def tip : Option BlockPtr := s.entry (s.vChain.length - 1)

/-- The next block of a locator: from the chain if possible, otherwise by the
skip list. -/
def goBack (pindex : BlockPtr) (nHeight : Nat) : Check (Option BlockPtr) := do
  if ← s.contains pindex then pure (s.entry nHeight) else s.heap.getAncestor pindex nHeight

/-- The step is an `int`. -/
def nextStep (size nStep : Nat) : Check Nat :=
  if size > 10 then
    if nStep * 2 < 2 ^ 31 then .ok (nStep * 2) else .error (.crash "overflow")
  else .ok nStep

/-- The loop of `GetLocator`. -/
def locatorLoop : (fuel : Nat) → (nStep : Nat) → (vHave : List Uint256) →
    (pindex : Option BlockPtr) → Check (List Uint256)
  | 0, _, _, _ => .error (.crash "no end")
  | _ + 1, _, vHave, none => .ok vHave
  | fuel + 1, nStep, vHave, some pindex => do
    let node ← s.heap.deref pindex
    let vHave := vHave ++ [getBlockHash pindex]
    -- stop when we have added the genesis block
    if node.nHeight = 0 then pure vHave
    else do
      -- exponentially larger steps back, plus the genesis block
      let next ← s.goBack pindex (node.nHeight - nStep)
      let nStep ← nextStep vHave.length nStep
      locatorLoop fuel nStep vHave next

/-- `CChain::GetLocator`, of the tip where no block is given. -/
def getLocator (pindex : Option BlockPtr) : Check (List Uint256) :=
  match pindex.or s.tip with
  | none => .ok []
  | some pindex => do
    let node ← s.heap.deref pindex
    locatorLoop s getBlockHash (node.nHeight + 1) 1 [] (some pindex)

/-- `FindForkInGlobalIndex`. -/
def findForkInGlobalIndex (mapBlockIndex : Uint256 → Option BlockPtr) :
    (vHave : List Uint256) → Check (Option BlockPtr)
  | [] => .ok (s.entry 0)
  | hash :: vHave =>
    match mapBlockIndex hash with
    | none => findForkInGlobalIndex mapBlockIndex vHave
    | some pindex => do
      if ← s.contains pindex then pure (some pindex)
      else do
        if (← s.heap.getAncestor pindex s.height) = s.tip then pure s.tip
        else findForkInGlobalIndex mapBlockIndex vHave

end Model

/-! ## How far back -/

/-- The step after the entry with an index. -/
def stepAfter (i : Nat) : Nat := 2 ^ (i - 10)

/-- How far the entry with an index lies behind the block. -/
def offset (i : Nat) : Nat := if i ≤ 10 then i else 9 + 2 ^ (i - 10)

theorem offset_succ (i : Nat) : offset (i + 1) = offset i + stepAfter i := by
  unfold offset stepAfter
  rcases Nat.lt_trichotomy i 10 with h | rfl | h
  · rw [if_pos (by omega), if_pos (by omega), show i - 10 = 0 by omega, pow_zero]
  · rfl
  · rw [if_neg (by omega), if_neg (by omega), show i + 1 - 10 = (i - 10) + 1 by omega, pow_succ]
    omega

theorem stepAfter_le_offset {i : Nat} (h : 10 < i) : stepAfter i ≤ offset i := by
  rw [stepAfter, offset, if_neg (by omega)]
  omega

theorem nextStep_eq {i : Nat} (h : stepAfter i < 2 ^ 30) :
    nextStep (i + 1) (stepAfter i) = .ok (stepAfter (i + 1)) := by
  unfold nextStep
  by_cases hi : i + 1 > 10
  · rw [if_pos hi, if_pos (by omega), stepAfter, stepAfter, show i + 1 - 10 = (i - 10) + 1 by omega,
      pow_succ]
  · rw [if_neg hi, stepAfter, stepAfter, show i - 10 = 0 by omega, show i + 1 - 10 = 0 by omega]

/-- The first entry that lies as far back as `d` lies at most twice as far. -/
theorem offset_first {d j : Nat} (hfirst : ∀ k < j, offset k < d) (hj : d ≤ offset j) :
    offset j ≤ 2 * d ∧ (d ≤ 10 → offset j = d) := by
  cases j with
  | zero =>
    rw [show offset 0 = 0 from rfl] at hj ⊢
    omega
  | succ j =>
    have hlast := hfirst j (Nat.lt_succ_self j)
    rw [offset_succ] at hj ⊢
    by_cases hi : j ≤ 10
    · rw [stepAfter, show j - 10 = 0 by omega, pow_zero] at hj ⊢
      omega
    · have := stepAfter_le_offset (Nat.lt_of_not_le hi)
      rw [show offset j = 9 + 2 ^ (j - 10) from if_neg hi] at hlast this hj ⊢
      have := Nat.one_le_two_pow (n := j - 10)
      omega

/-- The number of entries. -/
theorem offset_count {n h : Nat} (hlast : ∀ k < n, offset k < h) :
    n + 1 ≤ 12 + Nat.log 2 (h + 1) := by
  by_cases hn : n ≤ 11
  · omega
  · have hprev := hlast (n - 1) (by omega)
    rw [offset, if_neg (by omega)] at hprev
    have := Nat.le_log_of_pow_le Nat.one_lt_two
      (show 2 ^ (n - 11) ≤ h + 1 by rw [show n - 11 = n - 1 - 10 by omega]; omega)
    omega

/-- The ancestor a number of blocks back, or the genesis block. -/
def behind (heap : BlockHeap) (b : BlockPtr) (k : Nat) : BlockPtr :=
  (back heap.prev (min k (heap.heightOf b)) b).getD b

section Runs

variable {s : BlockTree} {last : Option BlockPtr} {getBlockHash : BlockPtr → Uint256}
  {mapBlockIndex : Uint256 → Option BlockPtr} {b : BlockPtr} (hs : Inv s last)
  (hb : b < s.heap.length)

theorem zero_behind : behind s.heap b 0 = b := by
  rfl

include hs in
theorem back_behind (k : Nat) :
    back s.heap.prev (min k (s.heap.heightOf b)) b = some (behind s.heap b k) ∧
      s.heap.heightOf (behind s.heap b k) = s.heap.heightOf b - k := by
  obtain ⟨p, hp⟩ := hs.linked.ranked.exists_back (Nat.min_le_right k (s.heap.heightOf b))
  have hheight := hs.linked.ranked.height_back hp
  rw [behind, hp, Option.getD_some]
  exact ⟨rfl, by omega⟩

include hs hb in
theorem behind_lt (k : Nat) : behind s.heap b k < s.heap.length :=
  hs.linked.ancestor_lt ⟨_, (back_behind hs k).1⟩ hb

include hs in
theorem tip_eq : s.tip = last := by
  rw [tip, entry]
  cases hlast : last with
  | none =>
    rw [hs.chain.empty hlast]
    rfl
  | some t =>
    rw [hs.chain.length hlast, Nat.add_sub_cancel, hs.chain.entry hlast _ (le_refl _), Nat.sub_self]
    rfl

include hs in
/-- Both ways to go back lead to the ancestor. -/
theorem goBack_eq {p : BlockPtr} (hp : p < s.heap.length) {n : Nat} (hn : n ≤ s.heap.heightOf p) :
    s.goBack p n = .ok (back s.heap.prev (s.heap.heightOf p - n) p) := by
  obtain ⟨inside, hcontains, hiff⟩ := hs.contains_iff hp
  rw [goBack, hcontains, ok_bind]
  cases inside with
  | true =>
    obtain ⟨t, hlast, hanc⟩ := hiff.mp rfl
    have hle := hs.linked.ranked.height_le hanc
    rw [if_pos rfl, entry, hs.chain.entry hlast n (by omega), Option.join_some,
      ← back_add (hs.linked.ranked.back_of_ancestor hanc),
      show s.heap.heightOf t - s.heap.heightOf p + (s.heap.heightOf p - n) =
        s.heap.heightOf t - n by omega]
    rfl
  | false =>
    rw [if_neg (by simp), hs.linked.getAncestor_eq hp, if_neg (by omega), Int.toNat_natCast]

variable (getBlockHash) in
include hs hb in
/-- The entries of a locator, from the one with index `i`. -/
theorem locatorLoop_spec (hsmall : s.heap.heightOf b < 2 ^ 29) (fuel : Nat) {i : Nat}
    {vHave : List Uint256} (hi : vHave.length = i)
    (hfuel : s.heap.heightOf b - offset i + 1 ≤ fuel) :
    ∃ n, s.heap.heightOf b ≤ offset (i + n) ∧
      (∀ k, i ≤ k → k < i + n → offset k < s.heap.heightOf b) ∧
      s.locatorLoop getBlockHash fuel (stepAfter i) vHave (some (behind s.heap b (offset i))) =
        .ok (vHave ++ (List.range' i (n + 1)).map fun j =>
          getBlockHash (behind s.heap b (offset j))) := by
  induction fuel generalizing i vHave with
  | zero => omega
  | succ fuel ih =>
    obtain ⟨hback, hheight⟩ := back_behind hs (b := b) (offset i)
    obtain ⟨node, hderef, -, hnode, -⟩ := exists_deref (behind_lt hs hb (offset i))
    rw [locatorLoop, hderef, ok_bind]
    by_cases hzero : node.nHeight = 0
    · exact ⟨0, by rw [Nat.add_zero]; omega, fun k h1 h2 => (by omega), by rw [if_pos hzero]; rfl⟩
    · have hstep : stepAfter i < 2 ^ 30 := by
        by_cases hten : 10 < i
        · have := stepAfter_le_offset hten
          omega
        · rw [stepAfter, show i - 10 = 0 by omega]
          decide
      have hnext : s.goBack (behind s.heap b (offset i)) (node.nHeight - stepAfter i) =
          .ok (some (behind s.heap b (offset (i + 1)))) := by
        rw [goBack_eq hs (behind_lt hs hb _) (by omega), ← back_add hback, offset_succ,
          ← (back_behind hs (offset i + stepAfter i)).1]
        congr 2
        omega
      have hstep' := offset_succ i
      have hpos : 0 < stepAfter i := Nat.two_pow_pos _
      have hlen : (vHave ++ [getBlockHash (behind s.heap b (offset i))]).length = i + 1 := by
        rw [List.length_append, hi]
        rfl
      obtain ⟨n, hend, hlow, hloop⟩ := ih hlen (by omega)
      refine ⟨n + 1, by rwa [Nat.add_right_comm, Nat.add_assoc] at hend, fun k h1 h2 => ?_, ?_⟩
      · rcases Nat.eq_or_lt_of_le h1 with rfl | hlt
        · omega
        · exact hlow k hlt (by omega)
      · rw [if_neg hzero, hnext, ok_bind, hlen, nextStep_eq hstep, ok_bind, hloop,
          List.range'_succ (n := n + 1), List.map_cons, List.append_assoc, List.singleton_append]

variable (getBlockHash) in
include hs hb in
/-- The entries of a locator, up to the genesis block. -/
theorem getLocator_spec (hsmall : s.heap.heightOf b < 2 ^ 29) :
    ∃ n, s.heap.heightOf b ≤ offset n ∧ (∀ k < n, offset k < s.heap.heightOf b) ∧
      s.getLocator getBlockHash (some b) = .ok ((List.range' 0 (n + 1)).map fun j =>
        getBlockHash (behind s.heap b (offset j))) := by
  obtain ⟨node, hderef, -, hnode, -⟩ := exists_deref hb
  have hnil : ([] : List Uint256).length = 0 := rfl
  obtain ⟨n, hend, hlow, hloop⟩ := locatorLoop_spec getBlockHash hs hb hsmall (node.nHeight + 1)
    hnil (by rw [hnode]; exact Nat.le_refl _)
  rw [Nat.zero_add] at hend hlow
  refine ⟨n, hend, fun k hk => hlow k (Nat.zero_le k) hk, ?_⟩
  rw [getLocator, Option.some_or]
  dsimp only
  rw [hderef, ok_bind]
  rwa [show offset 0 = 0 from rfl, zero_behind] at hloop

include hs hb in
/-- The ancestors of a block that the chain contains are those up to the fork. -/
theorem contains_of_fork {f q : BlockPtr} (hf : ForkOf s b (some f))
    (hq : Ancestor s.heap.prev q b) :
    s.contains q = .ok (decide (s.heap.heightOf q ≤ s.heap.heightOf f)) := by
  obtain ⟨⟨hfb, hin⟩, hhigh⟩ := hf
  obtain ⟨inside, hcontains, hiff⟩ := hs.contains_iff (hs.linked.ancestor_lt hq hb)
  obtain ⟨inside', hcontains', hiff'⟩ := hs.contains_iff (hs.linked.ancestor_lt hfb hb)
  obtain rfl : inside' = true := Except.ok.inj (hcontains'.symm.trans hin)
  obtain ⟨t, hlast, hft⟩ := hiff'.mp rfl
  have hinside : inside = decide (s.heap.heightOf q ≤ s.heap.heightOf f) := by
    refine Bool.eq_iff_iff.mpr ⟨fun h => ?_, fun h => ?_⟩
    · subst h
      exact decide_eq_true (hhigh q ⟨hq, hcontains⟩)
    · have hqf := hs.linked.ranked.ancestor_of_le hq hfb (of_decide_eq_true h)
      exact hiff.mpr ⟨t, hlast, hqf.trans hft⟩
  rw [hcontains, hinside]

include hs hb in
/-- A block above the fork has the tip below it only where that is the fork. -/
theorem ancestor_eq_tip_iff {f q : BlockPtr} (hf : ForkOf s b (some f))
    (hq : Ancestor s.heap.prev q b) (habove : s.heap.heightOf f < s.heap.heightOf q) :
    ∃ r, s.heap.getAncestor q s.height = .ok r ∧ (r = s.tip ↔ last = some f) := by
  obtain ⟨⟨hfb, hin⟩, hhigh⟩ := hf
  obtain ⟨inside, hcontains, hiff⟩ := hs.contains_iff (hs.linked.ancestor_lt hfb hb)
  obtain rfl : inside = true := Except.ok.inj (hcontains.symm.trans hin)
  obtain ⟨t, hlast, hft⟩ := hiff.mp rfl
  have hqlt := hs.linked.ancestor_lt hq hb
  have hheight : s.height = s.heap.heightOf t := by
    rw [height, hs.chain.length hlast]
    omega
  refine ⟨_, hs.linked.getAncestor_eq hqlt _, ?_⟩
  rw [tip_eq hs, hheight, hlast, Int.toNat_natCast, Option.some.injEq]
  constructor
  · intro htip
    split at htip
    · cases htip
    · obtain ⟨inside, hcontains, hiff⟩ := hs.contains_iff (hs.chain.inside hlast)
      obtain rfl : inside = true := hiff.mpr ⟨t, hlast, .refl t⟩
      have hle := hhigh t ⟨Ancestor.trans ⟨_, htip⟩ hq, hcontains⟩
      have hge := hs.linked.ranked.height_le hft
      exact (hs.linked.ranked.eq_of_height hft (by omega)).symm
  · rintro rfl
    rw [if_neg (by omega)]
    exact hs.linked.ranked.back_of_ancestor (hs.linked.ranked.ancestor_of_le hfb hq habove.le)

include hs hb in
/-- The lookup goes on to the first entry that is not above the fork. -/
theorem findForkInGlobalIndex_spec
    (hmap : ∀ p < s.heap.length, mapBlockIndex (getBlockHash p) = some p) {f : BlockPtr}
    (hf : ForkOf s b (some f)) (hne : last ≠ some f) {i n : Nat}
    (hend : s.heap.heightOf b - s.heap.heightOf f ≤ offset (i + n)) :
    ∃ j, i ≤ j ∧ s.heap.heightOf b - s.heap.heightOf f ≤ offset j ∧
      (∀ k, i ≤ k → k < j → offset k < s.heap.heightOf b - s.heap.heightOf f) ∧
      s.findForkInGlobalIndex mapBlockIndex ((List.range' i (n + 1)).map fun j =>
        getBlockHash (behind s.heap b (offset j))) = .ok (some (behind s.heap b (offset j))) := by
  have hentry (i : Nat) : Ancestor s.heap.prev (behind s.heap b (offset i)) b ∧
      s.heap.heightOf (behind s.heap b (offset i)) = s.heap.heightOf b - offset i :=
    ⟨⟨_, (back_behind hs _).1⟩, (back_behind hs _).2⟩
  have hfound {i : Nat} (hi : s.heap.heightOf b - s.heap.heightOf f ≤ offset i)
      (vHave : List Uint256) : s.findForkInGlobalIndex mapBlockIndex
        (getBlockHash (behind s.heap b (offset i)) :: vHave) =
          .ok (some (behind s.heap b (offset i))) := by
    obtain ⟨hanc, hheight⟩ := hentry i
    rw [findForkInGlobalIndex, hmap _ (behind_lt hs hb _)]
    dsimp only
    rw [contains_of_fork hs hb hf hanc, ok_bind, if_pos (decide_eq_true (by omega))]
    rfl
  induction n generalizing i with
  | zero => exact ⟨i, le_refl i, hend, fun k h1 h2 => (by omega), hfound hend []⟩
  | succ n ih =>
    by_cases hi : s.heap.heightOf b - s.heap.heightOf f ≤ offset i
    · exact ⟨i, le_refl i, hi, fun k h1 h2 => (by omega), hfound hi _⟩
    · obtain ⟨j, hij, hj, hfirst, hfind⟩ := ih (i := i + 1)
        (by rwa [Nat.add_right_comm, Nat.add_assoc])
      refine ⟨j, by omega, hj, fun k h1 h2 => ?_, ?_⟩
      · rcases Nat.eq_or_lt_of_le h1 with rfl | hlt
        · omega
        · exact hfirst k hlt h2
      · obtain ⟨hanc, hheight⟩ := hentry i
        obtain ⟨r, hr, hiff⟩ := ancestor_eq_tip_iff hs hb hf hanc (by omega)
        rw [List.range'_succ (n := n + 1), List.map_cons, findForkInGlobalIndex,
          hmap _ (behind_lt hs hb _)]
        dsimp only
        rw [contains_of_fork hs hb hf hanc, ok_bind, if_neg (by simp; omega), hr, ok_bind,
          if_neg (fun h => hne (hiff.mp h)), hfind]

include hs hb in
/-- Where the fork is the tip, the first entry tells. -/
theorem findForkInGlobalIndex_tip
    (hmap : ∀ p < s.heap.length, mapBlockIndex (getBlockHash p) = some p) {f : BlockPtr}
    (hf : ForkOf s b (some f)) (heq : last = some f) (vHave : List Uint256) :
    s.findForkInGlobalIndex mapBlockIndex (getBlockHash b :: vHave) = .ok (some f) := by
  have hle := hs.linked.ranked.height_le hf.1.1
  rw [findForkInGlobalIndex, hmap b hb]
  dsimp only
  rw [contains_of_fork hs hb hf (.refl b), ok_bind]
  by_cases habove : s.heap.heightOf f < s.heap.heightOf b
  · obtain ⟨r, hr, hiff⟩ := ancestor_eq_tip_iff hs hb hf (.refl b) habove
    rw [if_neg (by simp; omega), hr, ok_bind, if_pos (hiff.mpr heq), tip_eq hs, heq]
    rfl
  · rw [if_pos (decide_eq_true (by omega)),
      hs.linked.ranked.eq_of_height hf.1.1 (by omega)]
    rfl

include hs hb in
theorem exists_fork (hne : s.vChain ≠ []) : ∃ f, ForkOf s b (some f) := by
  obtain ⟨r, -, hfork⟩ := hs.findFork_spec hb
  cases r with
  | some f => exact ⟨f, hfork⟩
  | none =>
    cases hlast : last with
    | none => exact absurd (hs.chain.empty hlast) hne
    | some t =>
      -- the genesis block is behind every block
      have hgenesis {p : BlockPtr} (hp : p < s.heap.length) : Ancestor s.heap.prev 0 p := by
        obtain ⟨g, hg⟩ := hs.linked.ranked.exists_back (le_refl (s.heap.heightOf p))
        have := hs.linked.ranked.height_back hg
        have hanc : Ancestor s.heap.prev g p := ⟨_, hg⟩
        rwa [hs.linked.eq_genesis (hs.linked.ancestor_lt hanc hp) (by omega)] at hanc
      have hb0 := hgenesis hb
      obtain ⟨inside, hcontains, hiff⟩ := hs.contains_iff (hs.linked.ancestor_lt hb0 hb)
      obtain rfl : inside = true := hiff.mpr ⟨t, hlast, hgenesis (hs.chain.inside hlast)⟩
      exact absurd hcontains (hfork 0 hb0)

end Runs

/-- A locator leads to the fork, or to an ancestor of it that is at most twice
as far behind the block. -/
theorem locator_finds_fork (calls : List Call) {s : BlockTree}
    (hrun : calls.foldlM BlockTree.call genesis = .ok s) (getBlockHash : BlockPtr → Uint256)
    (mapBlockIndex : Uint256 → Option BlockPtr)
    (hmap : ∀ p < s.heap.length, mapBlockIndex (getBlockHash p) = some p)
    (hne : s.vChain ≠ []) {b : BlockPtr} (hb : b < s.heap.length)
    (hsmall : s.heap.heightOf b < 2 ^ 29) :
    (∃ f, ForkOf s b (some f)) ∧ ∃ vHave, s.getLocator getBlockHash (some b) = .ok vHave ∧
      vHave.length ≤ 12 + Nat.log 2 (s.heap.heightOf b + 1) ∧
      ∀ f, ForkOf s b (some f) → ∃ r,
        s.findForkInGlobalIndex mapBlockIndex vHave = .ok (some r) ∧
        Ancestor s.heap.prev r f ∧ s.contains r = .ok true ∧
        s.heap.heightOf b - s.heap.heightOf r ≤ 2 * (s.heap.heightOf b - s.heap.heightOf f) ∧
        (s.heap.heightOf b - s.heap.heightOf f ≤ 10 ∨ s.tip = some f → r = f) := by
  have hs := genesis_inv.run hrun
  obtain ⟨n, hend, hlow, hlocator⟩ := getLocator_spec getBlockHash hs hb hsmall
  refine ⟨exists_fork hs hb hne, _, hlocator, ?_, fun f hf => ?_⟩
  · rw [List.length_map, List.length_range']
    exact offset_count hlow
  · obtain ⟨⟨hfb, hin⟩, hhigh⟩ := hf
    have hle := hs.linked.ranked.height_le hfb
    by_cases htip : calls.foldl tipAfter none = some f
    · refine ⟨f, ?_, .refl f, hin, by omega, fun _ => rfl⟩
      exact findForkInGlobalIndex_tip hs hb hmap ⟨⟨hfb, hin⟩, hhigh⟩ htip _
    · obtain ⟨j, -, hj, hfirst, hfind⟩ := findForkInGlobalIndex_spec hs hb hmap
        ⟨⟨hfb, hin⟩, hhigh⟩ htip (i := 0) (n := n) (by rw [Nat.zero_add]; omega)
      obtain ⟨hback, hheight⟩ := back_behind hs (b := b) (offset j)
      obtain ⟨htwice, hexact⟩ := offset_first (fun k hk => hfirst k (Nat.zero_le k) hk) hj
      have hrb : Ancestor s.heap.prev (behind s.heap b (offset j)) b := ⟨_, hback⟩
      have hrf := hs.linked.ranked.ancestor_of_le hrb hfb (by omega)
      refine ⟨_, hfind, hrf, ?_, by omega, fun h => ?_⟩
      · rw [contains_of_fork hs hb ⟨⟨hfb, hin⟩, hhigh⟩ hrb, decide_eq_true (by omega)]
      · rcases h with hten | h
        · have := hexact hten
          exact hs.linked.ranked.eq_of_height hrf (by omega)
        · rw [tip_eq hs] at h
          exact absurd h htip

/-- A block on a branch beside the tip. -/
theorem locator_finds_fork_beside : ∃ s vHave,
    [Call.link 0, .buildSkip 1, .link 1, .buildSkip 2, .link 1, .buildSkip 3,
      .setTip (some 2)].foldlM BlockTree.call genesis = .ok s ∧
      s.getLocator (BitVec.ofNat 256) (some 3) = .ok vHave ∧ vHave.length ≤ 13 ∧
      ∀ f, ForkOf s 3 (some f) → ∃ r,
        s.findForkInGlobalIndex (fun hash => some hash.toNat) vHave = .ok (some r) ∧
        Ancestor s.heap.prev r f := by
  have hrun : [Call.link 0, .buildSkip 1, .link 1, .buildSkip 2, .link 1, .buildSkip 3,
      .setTip (some 2)].foldlM BlockTree.call genesis =
      .ok ⟨[⟨none, none, 0⟩, ⟨some 0, some 0, 1⟩, ⟨some 1, some 0, 2⟩, ⟨some 1, some 0, 2⟩],
        [some 0, some 1, some 2]⟩ := by
    simp [call, link, deref, buildSkip, BlockHeap.getAncestor, ancestorLoop, getSkipHeight,
      invertLowestOne, genesis, setTip, setTipLoop, resize, bind, Except.bind, pure, Except.pure]
  obtain ⟨-, vHave, hlocator, hlen, hfind⟩ := locator_finds_fork _ hrun (BitVec.ofNat 256)
    (fun hash => some hash.toNat) (by decide) (by decide) (b := 3) (by decide) (by decide)
  refine ⟨_, vHave, hrun, hlocator, hlen, fun f hf => ?_⟩
  obtain ⟨r, hr, hanc, -⟩ := hfind f hf
  exact ⟨r, hr, hanc⟩

end junkcoin.BlockTree
