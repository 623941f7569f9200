-- The comparators of the indexes of the memory pool (`txmempool.h`), with
-- products that are evaluated exactly.
import Junkcoin.Lib.WeakOrder
import Junkcoin.MempoolRuns
import Mathlib.Data.List.Lex

namespace junkcoin

namespace CTxMemPoolEntry

open WeakOrder CTxMemPool

variable (env : PoolEnv) (e a b c : CTxMemPoolEntry)

/-! ## The comparators -/

/-- `CompareTxMemPoolEntryByScore`. -/
def compareByScore : Bool :=
  let f1 := a.getModifiedFee * b.getTxSize env
  let f2 := b.getModifiedFee * a.getTxSize env
  if f1 = f2 then (b.tx.getHash env.H).less (a.tx.getHash env.H) else f1 > f2

/-- `CompareTxMemPoolEntryByAncestorFee`. -/
def compareByAncestorFee : Bool :=
  let f1 := a.nModFeesWithAncestors * b.nSizeWithAncestors
  let f2 := a.nSizeWithAncestors * b.nModFeesWithAncestors
  if f1 = f2 then (a.tx.getHash env.H).less (b.tx.getHash env.H) else f1 > f2

/-- All that a comparator divides by is positive. -/
structure PositiveSizes : Prop where
  size : 0 < e.getTxSize env
  sizeWithDescendants : 0 < e.nSizeWithDescendants
  sizeWithAncestors : 0 < e.nSizeWithAncestors

/-! ## What they compare -/

/-- The fee rate of an entry. -/
def feeRate : ℚ := e.getModifiedFee / e.getTxSize env

/-- The fee rate of an entry with its descendants. -/
def descendantRate : ℚ := e.nModFeesWithDescendants / e.nSizeWithDescendants

def ancestorRate : ℚ := e.nModFeesWithAncestors / e.nSizeWithAncestors

/-- The bytes of the hash, as `memcmp` compares them. -/
def hashKey : List Nat := (e.tx.getHash env.H).bytes.map UInt8.toNat

/-- The greater one of the two rates, as the comment in front of the comparator
has it. -/
def descendantScore : ℚ := max (e.feeRate env) e.descendantRate

variable {env e a b c}

theorem less_hash_iff : ((a.tx.getHash env.H).less (b.tx.getHash env.H) = true) ↔
    a.hashKey env < b.hashKey env := by
  simp [Uint256.less, hashKey]

theorem compareByScore_iff (ha : a.PositiveSizes env) (hb : b.PositiveSizes env) :
    a.compareByScore env b ↔
      toLex (-a.feeRate env, OrderDual.toDual (a.hashKey env)) <
        toLex (-b.feeRate env, OrderDual.toDual (b.hashKey env)) := by
  have heq := ratio_eq_iff (n := a.getModifiedFee) (m := b.getModifiedFee) ha.size hb.size
  have hlt := ratio_lt_iff (n := b.getModifiedFee) (m := a.getModifiedFee) hb.size ha.size
  rw [Prod.Lex.toLex_lt_toLex, neg_lt_neg_iff, neg_inj, OrderDual.toDual_lt_toDual, feeRate,
    feeRate, heq, hlt, ← less_hash_iff, compareByScore]
  split
  · rename_i h
    simp [h]
  · rename_i h
    simp [h]

theorem compareByAncestorFee_iff (ha : a.PositiveSizes env) (hb : b.PositiveSizes env) :
    a.compareByAncestorFee env b ↔
      toLex (-a.ancestorRate, a.hashKey env) < toLex (-b.ancestorRate, b.hashKey env) := by
  have heq := ratio_eq_iff (n := a.nModFeesWithAncestors) (m := b.nModFeesWithAncestors)
    ha.sizeWithAncestors hb.sizeWithAncestors
  have hlt := ratio_lt_iff (n := b.nModFeesWithAncestors) (m := a.nModFeesWithAncestors)
    hb.sizeWithAncestors ha.sizeWithAncestors
  rw [Prod.Lex.toLex_lt_toLex, neg_lt_neg_iff, neg_inj, ancestorRate, ancestorRate, heq, hlt,
    ← less_hash_iff, compareByAncestorFee, Int.mul_comm a.nSizeWithAncestors]
  split
  · rename_i h
    simp [h]
  · rename_i h
    simp [h]

/-- The fee and the size that `CompareTxMemPoolEntryByDescendantScore` takes for an entry
have the greater one of the two rates. -/
theorem descendantScore_eq (he : e.PositiveSizes env) :
    ∃ n d : Int, 0 < d ∧ e.descendantScore env = n / d ∧
      (if e.nModFeesWithDescendants * e.getTxSize env > e.getModifiedFee * e.nSizeWithDescendants
        then (e.nModFeesWithDescendants, e.nSizeWithDescendants)
        else (e.getModifiedFee, e.getTxSize env)) = (n, d) := by
  have hlt := ratio_lt_iff (n := e.getModifiedFee) (m := e.nModFeesWithDescendants) he.size
    he.sizeWithDescendants
  split
  · rename_i h
    exact ⟨_, _, he.sizeWithDescendants, max_eq_right (hlt.mpr h).le, rfl⟩
  · rename_i h
    exact ⟨_, _, he.size, max_eq_left (not_lt.mp (mt hlt.mp h)), rfl⟩

/-- A tie is passed on: the comparison of the times is not strict. -/
theorem lowerDescendantScore_iff (ha : a.PositiveSizes env) (hb : b.PositiveSizes env) :
    lowerDescendantScore env a b ↔
      toLex (a.descendantScore env, -a.nTime) ≤ toLex (b.descendantScore env, -b.nTime) := by
  obtain ⟨n, d, hd, hscore, hpair⟩ := descendantScore_eq ha
  obtain ⟨m, e, he, hscore', hpair'⟩ := descendantScore_eq hb
  have heq := ratio_eq_iff (n := n) (m := m) hd he
  have hlt := ratio_lt_iff (n := n) (m := m) hd he
  rw [Prod.Lex.toLex_le_toLex, neg_le_neg_iff, hscore, hscore', heq, hlt]
  simp only [lowerDescendantScore, decide_eq_true_eq, hpair, hpair',
    Int.mul_comm d m]
  split
  · rename_i h
    simp [h]
  · rename_i h
    simp [h]

/-! ## The laws -/

/-- The comparators by score and by ancestor fee obey the laws of a strict weak order. The
one by descendant score obeys them where the first two entries do not tie, and so never for
an entry and itself. -/
theorem comparators_lawful_iff (env : PoolEnv) (a b c : CTxMemPoolEntry)
    (ha : a.PositiveSizes env) (hb : b.PositiveSizes env) (hc : c.PositiveSizes env) :
    LawsAt (compareByScore env) a b c ∧ LawsAt (compareByAncestorFee env) a b c ∧
      (LawsAt (lowerDescendantScore env) a b c ↔
        a.descendantScore env ≠ b.descendantScore env ∨ a.nTime ≠ b.nTime) := by
  refine ⟨lawsAt_of_key _ (fun _ _ => compareByScore_iff) ha hb hc,
    lawsAt_of_key _ (fun _ _ => compareByAncestorFee_iff) ha hb hc, ?_⟩
  rw [lawsAt_iff_of_key (fun e => toLex (e.descendantScore env, -e.nTime))
    (fun _ _ => lowerDescendantScore_iff) ha hb hc]
  simp only [ne_eq, toLex_inj, Prod.mk.injEq, neg_inj]
  tauto

/-- Three entries of a pool. -/
def timedEntry (nTime : Int) : CTxMemPoolEntry :=
  create sampleEnv { nVersion := 1, vin := [], vout := [], nLockTime := 0 } 1000 nTime
    false 0 {}

theorem timedEntry_positive (nTime : Int) :
    (timedEntry nTime).PositiveSizes sampleEnv where
  size := show (0 : Int) < (timedEntry 0).getTxSize sampleEnv by decide +kernel
  sizeWithDescendants := show (0 : Int) < (timedEntry 0).nSizeWithDescendants by decide +kernel
  sizeWithAncestors := show (0 : Int) < (timedEntry 0).nSizeWithAncestors by decide +kernel

theorem comparators_lawful_iff_timed :
    LawsAt (lowerDescendantScore sampleEnv) (timedEntry 1) (timedEntry 2)
      (timedEntry 3) :=
  (comparators_lawful_iff sampleEnv (timedEntry 1) (timedEntry 2) (timedEntry 3)
    (timedEntry_positive 1) (timedEntry_positive 2) (timedEntry_positive 3)).2.2.mpr
    (Or.inr (by decide))

/-- An entry comes before itself. -/
theorem descendant_order_reflexive :
    lowerDescendantScore sampleEnv (timedEntry 1) (timedEntry 1) = true ∧
      ¬ LawsAt (lowerDescendantScore sampleEnv) (timedEntry 1)
        (timedEntry 1) (timedEntry 1) := by
  have h : lowerDescendantScore sampleEnv (timedEntry 1) (timedEntry 1) :=
    (lowerDescendantScore_iff (timedEntry_positive 1) (timedEntry_positive 1)).mpr le_rfl
  exact ⟨h, fun hlaws => hlaws.asymm ⟨h, h⟩⟩

end CTxMemPoolEntry

end junkcoin
