-- The memory that a cache of coins thinks it uses (`cachedCoinsUsage` of
-- `coins.cpp`). Every function of the cache changes the counter by
-- differences. It is the sum over the cached objects as long as no coinbase
-- overwrites coins that are still cached and no flush is broken off.
import Junkcoin.Coins
import Junkcoin.Lib.Runs
import Junkcoin.Lib.Weigh

namespace junkcoin

open WriteBack

/-! ## Coins in memory -/

/-- `size_t`. -/
abbrev SizeT := BitVec 64

/-- `memusage::MallocUsage`. -/
def mallocUsage (alloc : SizeT) : SizeT :=
  if alloc = 0 then 0 else ((alloc + 31) >>> 4) <<< 4

/-- A `CCoins` in memory: with the capacity of `vout`, and what the script
at each place has allocated. -/
structure StoredCoins where
  coins : CCoins
  capacity : SizeT
  allocatedMemory : Nat → SizeT

namespace StoredCoins

variable (c : StoredCoins)

/-- A new object, and what `Clear` leaves. -/
def empty : StoredCoins := ⟨.empty, 0, fun _ => 0⟩

/-- `Cleanup` gives the memory of `vout` back when no output is left. -/
def cleanup : StoredCoins :=
  { c with
    coins := c.coins.cleanup
    capacity := if c.coins.cleanup.vout.isEmpty then 0 else c.capacity }

/-- `sizeof(CTxOut)`. -/
def sizeofCTxOut : SizeT := 40

/-- `DynamicMemoryUsage`. -/
def dynamicMemoryUsage : SizeT :=
  mallocUsage (c.capacity * sizeofCTxOut) +
    ((List.range c.coins.vout.length).map fun i => mallocUsage (c.allocatedMemory i)).sum

end StoredCoins

/-- Coins that have been cleaned up. All coins are that a cache holds, and
all that a view answers. -/
structure CleanCoins extends StoredCoins where
  trimmed : Trim.Trimmed CTxOut.isNull coins.vout
  freed : coins.vout = [] → capacity = 0

namespace CleanCoins

/-- The coins after `Cleanup`. -/
def ofStored (c : StoredCoins) : CleanCoins where
  toStoredCoins := c.cleanup
  trimmed := Trim.trimmed_trim _
  freed h := if_pos (List.isEmpty_iff.mpr h)

def empty : CleanCoins := ofStored .empty

def isPruned (c : CleanCoins) : Bool := c.coins.isPruned

/-- Pruned coins that have been cleaned up use no memory. -/
theorem usage_of_pruned {c : CleanCoins} (h : c.isPruned = true) : c.dynamicMemoryUsage = 0 := by
  have hnil : c.coins.vout = [] := (CCoins.pruned_iff c.trimmed).mp h
  rw [StoredCoins.dynamicMemoryUsage, c.freed hnil, hnil]
  rfl

end CleanCoins

/-! ## The cache -/

/-- The part of a `CCoinsViewCache` that is counted. -/
structure CountedCache where
  cacheCoins : Entries Uint256 CleanCoins
  cachedCoinsUsage : SizeT

/-- How a call ends. -/
inductive Ended
  | returned
  | threw
  deriving DecidableEq

/-- The view that a cache is flushed to: another cache, the database, whose
write may throw, or a view that writes nothing. -/
inductive FlushBase
  | cache (base : CountedCache)
  | db (ended : Ended)
  | none

namespace CountedCache

/-- A new cache. -/
def new : CountedCache := ⟨∅, 0⟩

variable (c : CountedCache) (txid : Uint256)

/-- `FetchCoins`, with the answer of the base if it is asked. -/
def fetchCoins (answer : Option CleanCoins) : CountedCache :=
  match c.cacheCoins.lookup txid with
  | some _ => c
  | none =>
    match answer with
    | none => c
    | some tmp =>
      { cacheCoins := c.cacheCoins.insert txid ⟨tmp, false, tmp.isPruned⟩
        cachedCoinsUsage := c.cachedCoinsUsage + tmp.dynamicMemoryUsage }

/-- The destructor of the `CCoinsModifier` for an entry, with the usage that
was recorded for it. -/
def closeModifier (coins : StoredCoins) (fresh : Bool) (cachedCoinUsage : SizeT) : CountedCache :=
  let coins := CleanCoins.ofStored coins
  let usage := c.cachedCoinsUsage - cachedCoinUsage
  if fresh && coins.isPruned then ⟨c.cacheCoins.erase txid, usage⟩
  else ⟨c.cacheCoins.insert txid ⟨coins, true, fresh⟩, usage + coins.dynamicMemoryUsage⟩

/-- `ModifyCoins` and what is done through its modifier. -/
def modifyCoins (answer : Option CleanCoins) (change : StoredCoins → StoredCoins) : CountedCache :=
  match c.cacheCoins.lookup txid with
  | some e =>
    c.closeModifier txid (change e.val.toStoredCoins) e.fresh e.val.dynamicMemoryUsage
  | none =>
    match answer with
    | none => c.closeModifier txid (change .empty) true 0
    | some coins => c.closeModifier txid (change coins.toStoredCoins) coins.isPruned 0

/-- `ModifyNewCoins` and what is done through its modifier. Where it throws
nothing has changed. -/
def modifyNewCoins (coinbase : Bool) (change : StoredCoins → StoredCoins) : CountedCache :=
  let e := (c.cacheCoins.lookup txid).getD ⟨.empty, false, false⟩
  if !coinbase && !e.val.isPruned then c
  else c.closeModifier txid (change .empty) (e.fresh || (!coinbase && !e.dirty)) 0

/-- One round of the loop of `BatchWrite`; nothing where it throws. -/
def writeEntry (e : Entry CleanCoins) : Option CountedCache :=
  if !e.dirty then some c
  else
    match c.cacheCoins.lookup txid with
    | none =>
      if e.fresh && e.val.isPruned then some c
      else
        some
          { cacheCoins := c.cacheCoins.insert txid ⟨e.val, true, e.fresh⟩
            cachedCoinsUsage := c.cachedCoinsUsage + e.val.dynamicMemoryUsage }
    | some itUs =>
      if e.fresh && !itUs.val.isPruned then none
      else if itUs.fresh && e.val.isPruned then
        some
          { cacheCoins := c.cacheCoins.erase txid
            cachedCoinsUsage := c.cachedCoinsUsage - itUs.val.dynamicMemoryUsage }
      else
        some
          { cacheCoins := c.cacheCoins.insert txid ⟨e.val, true, itUs.fresh⟩
            cachedCoinsUsage := c.cachedCoinsUsage - itUs.val.dynamicMemoryUsage +
              e.val.dynamicMemoryUsage }

/-- The loop of `BatchWrite`, and how many entries it has taken out of the
child's map when it throws. -/
def writeList : CountedCache → List (Sigma fun _ : Uint256 => Entry CleanCoins) →
    CountedCache × Option Nat
  | c, [] => (c, none)
  | c, ⟨txid, e⟩ :: mapCoins =>
    match c.writeEntry txid e with
    | none => (c, some 0)
    | some c =>
      let (c, stopped) := c.writeList mapCoins
      (c, stopped.map (· + 1))

/-- `BatchWrite` from a child. -/
def batchWrite (child : CountedCache) : CountedCache := (c.writeList child.cacheCoins.entries).1

/-- `Uncache`. -/
def uncache : CountedCache :=
  match c.cacheCoins.lookup txid with
  | none => c
  | some e =>
    if !e.dirty && !e.fresh then
      { cacheCoins := c.cacheCoins.erase txid
        cachedCoinsUsage := c.cachedCoinsUsage - e.val.dynamicMemoryUsage }
    else c

/-- How many entries the `BatchWrite` of the base has taken out when it
throws. The database takes all of them out before it writes. -/
def stopsAt : FlushBase → Option Nat
  | .cache base => (base.writeList c.cacheCoins.entries).2
  | .db .threw => some c.cacheCoins.entries.length
  | .db .returned => none
  | .none => none

/-- `Flush`. -/
def flush (base : FlushBase) : CountedCache :=
  match c.stopsAt base with
  | none => ⟨∅, 0⟩
  | some n =>
    { c with
      cacheCoins :=
        ⟨c.cacheCoins.entries.drop n,
          c.cacheCoins.nodupKeys.sublist (List.drop_sublist n _)⟩ }

end CountedCache

/-! ## Sequences of calls -/

/-- A call to a cache, with the answers of the views around it. -/
inductive CacheCall
  | fetchCoins (txid : Uint256) (answer : Option CleanCoins)
  | modifyCoins (txid : Uint256) (answer : Option CleanCoins)
      (change : StoredCoins → StoredCoins)
  | modifyNewCoins (txid : Uint256) (coinbase : Bool) (change : StoredCoins → StoredCoins)
  | batchWrite (child : CountedCache)
  | uncache (txid : Uint256)
  | flush (base : FlushBase)

namespace CountedCache

/-- The cache after a call, also if the call throws. -/
def call (c : CountedCache) : CacheCall → CountedCache
  | .fetchCoins txid answer => c.fetchCoins txid answer
  | .modifyCoins txid answer change => c.modifyCoins txid answer change
  | .modifyNewCoins txid coinbase change => c.modifyNewCoins txid coinbase change
  | .batchWrite child => c.batchWrite child
  | .uncache txid => c.uncache txid
  | .flush base => c.flush base

/-- The memory of a cached object. -/
def usageOf (e : Entry CleanCoins) : SizeT := e.val.dynamicMemoryUsage

/-- The counter is the sum over the cached objects. -/
def Exact (c : CountedCache) : Prop := c.cachedCoinsUsage = Weigh.total usageOf c.cacheCoins

/-- A coinbase overwrites no cached coins that use memory, and a flush that
is broken off has taken none out. -/
def KeepsCount (c : CountedCache) : CacheCall → Prop
  | .modifyNewCoins txid true _ => Weigh.under usageOf c.cacheCoins txid = 0
  | .flush base => ∀ n, c.stopsAt base = some n →
      Weigh.list usageOf (c.cacheCoins.entries.take n) = 0
  | _ => True

/-! ## One call -/

section Call

variable {c : CountedCache} {txid : Uint256}

theorem exact_iff (c : CountedCache) :
    c.Exact ↔ c.cachedCoinsUsage = Weigh.total usageOf c.cacheCoins := Iff.rfl

theorem fetchCoins_exact (h : c.Exact) (answer : Option CleanCoins) :
    (c.fetchCoins txid answer).Exact := by
  unfold fetchCoins
  split
  · exact h
  · rename_i hnone
    split
    · exact h
    · rename_i tmp
      rw [exact_iff, Weigh.total_insert, Weigh.under_of_none _ hnone, sub_zero, ← h]
      rfl

/-- After the destructor of a modifier the count is right just if the usage
that was recorded is that of the object in the cache. -/
theorem closeModifier_exact_iff (h : c.Exact) (coins : StoredCoins) (fresh : Bool)
    (recorded : SizeT) :
    (c.closeModifier txid coins fresh recorded).Exact ↔
      recorded = Weigh.under usageOf c.cacheCoins txid := by
  unfold closeModifier
  dsimp only
  split
  · rw [exact_iff, Weigh.total_erase, ← h]
    exact sub_right_inj
  · rw [exact_iff, Weigh.total_insert, ← h]
    exact (add_left_inj _).trans sub_right_inj

theorem modifyCoins_exact (h : c.Exact) (answer : Option CleanCoins)
    (change : StoredCoins → StoredCoins) : (c.modifyCoins txid answer change).Exact := by
  unfold modifyCoins
  split
  · rename_i e he
    exact (closeModifier_exact_iff h _ _ _).mpr (Weigh.under_of_lookup usageOf he).symm
  · rename_i hnone
    have hzero := (Weigh.under_of_none usageOf hnone).symm
    split
    · exact (closeModifier_exact_iff h _ _ _).mpr hzero
    · exact (closeModifier_exact_iff h _ _ _).mpr hzero

theorem modifyNewCoins_exact_iff (h : c.Exact) (coinbase : Bool)
    (change : StoredCoins → StoredCoins) :
    (c.modifyNewCoins txid coinbase change).Exact ↔
      c.KeepsCount (.modifyNewCoins txid coinbase change) := by
  unfold modifyNewCoins
  dsimp only
  cases coinbase with
  | true =>
    rw [Bool.not_true, Bool.false_and, if_neg Bool.false_ne_true, closeModifier_exact_iff h]
    exact eq_comm
  | false =>
    refine iff_of_true ?_ trivial
    split
    · exact h
    · rename_i hpruned
      refine (closeModifier_exact_iff h _ _ _).mpr ?_
      cases he : c.cacheCoins.lookup txid with
      | none => exact (Weigh.under_of_none usageOf he).symm
      | some e =>
        -- the coins that were found are pruned, or it would have thrown
        rw [he] at hpruned
        rw [Weigh.under_of_lookup usageOf he]
        exact (CleanCoins.usage_of_pruned (by simpa using hpruned)).symm

theorem writeEntry_exact (h : c.Exact) {e : Entry CleanCoins} {d : CountedCache}
    (hd : c.writeEntry txid e = some d) : d.Exact := by
  unfold writeEntry at hd
  split at hd
  · cases hd
    exact h
  · split at hd
    · rename_i hnone
      split at hd
      · cases hd
        exact h
      · cases hd
        rw [exact_iff, Weigh.total_insert, Weigh.under_of_none _ hnone, sub_zero, ← h]
        rfl
    · rename_i itUs hus
      split at hd
      · cases hd
      · split at hd
        · cases hd
          rw [exact_iff, Weigh.total_erase, Weigh.under_of_lookup _ hus, ← h]
          rfl
        · cases hd
          rw [exact_iff, Weigh.total_insert, Weigh.under_of_lookup _ hus, ← h]
          rfl

/-- Every round of `BatchWrite` keeps the count, so it is right also when the
loop is broken off. -/
theorem writeList_exact (h : c.Exact)
    (mapCoins : List (Sigma fun _ : Uint256 => Entry CleanCoins)) :
    (c.writeList mapCoins).1.Exact := by
  induction mapCoins generalizing c with
  | nil => exact h
  | cons x mapCoins ih =>
    obtain ⟨txid, e⟩ := x
    rw [writeList]
    split
    · exact h
    · rename_i d hd
      exact ih (writeEntry_exact h hd)

theorem uncache_exact (h : c.Exact) : (c.uncache txid).Exact := by
  unfold uncache
  split
  · exact h
  · rename_i e he
    split
    · rw [exact_iff, Weigh.total_erase, Weigh.under_of_lookup _ he, ← h]
      rfl
    · exact h

theorem flush_exact_iff (h : c.Exact) (base : FlushBase) :
    (c.flush base).Exact ↔ c.KeepsCount (.flush base) := by
  unfold flush
  split
  · rename_i hnone
    refine iff_of_true rfl ?_
    intro n hn
    rw [hnone] at hn
    cases hn
  · rename_i n hn
    have hsplit : Weigh.list usageOf (c.cacheCoins.entries.take n) +
        Weigh.list usageOf (c.cacheCoins.entries.drop n) = c.cachedCoinsUsage := by
      rw [← Weigh.list_append, List.take_append_drop]
      exact h.symm
    rw [exact_iff, ← hsplit]
    constructor
    · intro hleft m hm
      rw [hn] at hm
      cases hm
      exact add_eq_right.mp hleft
    · intro htaken
      exact add_eq_right.mpr (htaken n hn)

/-- A call keeps the count just if it meets the condition. -/
theorem call_exact_iff (h : c.Exact) (call : CacheCall) :
    (c.call call).Exact ↔ c.KeepsCount call := by
  cases call with
  | fetchCoins txid answer => exact iff_of_true (fetchCoins_exact h answer) trivial
  | modifyCoins txid answer change => exact iff_of_true (modifyCoins_exact h answer change) trivial
  | modifyNewCoins txid coinbase change => exact modifyNewCoins_exact_iff h coinbase change
  | batchWrite child => exact iff_of_true (writeList_exact h child.cacheCoins.entries) trivial
  | uncache txid => exact iff_of_true (uncache_exact h) trivial
  | flush base => exact flush_exact_iff h base

end Call

end CountedCache

/-- Through any sequence of calls the counter of a cache is the memory of
the cached objects, just if every call meets the condition. -/
theorem cached_usage_exact_iff (calls : List CacheCall) :
    (∀ n, let c := Runs.run CountedCache.call .new (calls.take n)
      c.cachedCoinsUsage = Weigh.total CountedCache.usageOf c.cacheCoins) ↔
      Runs.Meets CountedCache.call CountedCache.KeepsCount .new calls :=
  Runs.always_iff CountedCache.Exact (fun _ call h => CountedCache.call_exact_iff h call)
    (s := .new) rfl calls

/-- One output, in a `vout` for one. -/
def oneOutput : StoredCoins := ⟨⟨true, [⟨50, []⟩], 1, 1⟩, 1, fun _ => 0⟩

/-- The same coinbase twice: the counter still has the coins that are gone. -/
theorem duplicate_coinbase_counted_twice :
    let c := Runs.run CountedCache.call .new
      [.modifyNewCoins 7 true fun _ => oneOutput, .modifyNewCoins 7 true fun _ => oneOutput]
    c.cachedCoinsUsage = 128 ∧ Weigh.total CountedCache.usageOf c.cacheCoins = 64 := by
  decide +kernel

end junkcoin
