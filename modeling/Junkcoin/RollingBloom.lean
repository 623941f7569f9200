-- `CRollingBloomFilter`: three generations of insertions share one table of
-- two bits for each place. A place carries the number of the generation that
-- wrote it last, and a generation is wiped when its number is used again. So
-- the last two full generations and the current one are never lost.
import Junkcoin.Bloom

namespace junkcoin

/-! ## The filter -/

/-- `CRollingBloomFilter`. `data` has the words `data[2 * i]` and
`data[2 * i + 1]` of the C++ vector side by side. -/
structure CRollingBloomFilter where
  nEntriesPerGeneration : Nat
  nEntriesThisGeneration : Nat
  nGeneration : Nat
  data : List (BitVec 64 × BitVec 64)
  nTweak : UInt32
  nHashFuncs : Nat

namespace CRollingBloomFilter

variable (f : CRollingBloomFilter)

/-- `reset`, with the random tweak that it draws. -/
def reset (nTweak : UInt32) : CRollingBloomFilter :=
  { f with
    nTweak
    nEntriesThisGeneration := 0
    nGeneration := 1
    data := f.data.map fun _ => (0, 0) }

/-- The constructor for a number of hash functions and of pairs of words, which it gets
from the false positive rate. The sum is one of `unsigned int`. -/
def new (nElements : UInt32) (nHashFuncs words : Nat) (nTweak : UInt32) : CRollingBloomFilter :=
  reset { nEntriesPerGeneration := (nElements + 1).toNat / 2
          nEntriesThisGeneration := 0
          nGeneration := 1
          data := List.replicate words (0, 0)
          nTweak
          nHashFuncs } nTweak

def rollingBloomHash (nHashNum : Nat) (nTweak : UInt32) (vDataToHash : Valtype) : UInt32 :=
  murmurHash3 (UInt32.ofNat nHashNum * 0xFBA4C795 + nTweak) vDataToHash

/-- The bit of a word that a hash stands for. -/
def bit (h : UInt32) : Nat := h.toNat % 64

/-- The pair of words: `pos & ~1` and `pos | 1` are the two words of pair `pos / 2`. -/
def pair (h : UInt32) : Nat := (h.toNat / 64) % (2 * f.data.length) / 2

/-- Wipe old entries that used this generation number. -/
def wipe (nGeneration : Nat) (p : BitVec 64 × BitVec 64) : BitVec 64 × BitVec 64 :=
  let nGenerationMask1 := -BitVec.ofNat 64 (nGeneration &&& 1)
  let nGenerationMask2 := -BitVec.ofNat 64 (nGeneration >>> 1)
  let mask := (p.1 ^^^ nGenerationMask1) ||| (p.2 ^^^ nGenerationMask2)
  (p.1 &&& mask, p.2 &&& mask)

/-- The generation change of `insert`. -/
def roll : CRollingBloomFilter :=
  if f.nEntriesThisGeneration = f.nEntriesPerGeneration then
    let nGeneration := if f.nGeneration + 1 = 4 then 1 else f.nGeneration + 1
    { f with nEntriesThisGeneration := 0, nGeneration, data := f.data.map (wipe nGeneration) }
  else f

/-- Write the number of the generation at a bit. -/
def stampPair (nGeneration b : Nat) (p : BitVec 64 × BitVec 64) : BitVec 64 × BitVec 64 :=
  ((p.1 &&& ~~~(1#64 <<< b)) ||| BitVec.ofNat 64 (nGeneration &&& 1) <<< b,
    (p.2 &&& ~~~(1#64 <<< b)) ||| BitVec.ofNat 64 (nGeneration >>> 1) <<< b)

/-- The hashes of a key, in the order of the loops of `insert` and `contains`. -/
def hashes (vKey : Valtype) : List UInt32 :=
  (List.range f.nHashFuncs).map fun n => rollingBloomHash n f.nTweak vKey

/-- One turn of the loop of `insert`. -/
def mark (h : UInt32) : CRollingBloomFilter :=
  { f with data := f.data.modify (f.pair h) (stampPair f.nGeneration (bit h)) }

/-- `insert`. The counter is an `int`. -/
def insert (vKey : Valtype) : CRollingBloomFilter :=
  let f := f.roll
  let f := { f with nEntriesThisGeneration := (f.nEntriesThisGeneration + 1) % 2 ^ 32 }
  (f.hashes vKey).foldl mark f

/-- One turn of the loop of `contains`. -/
def marked (h : UInt32) : Bool :=
  let p := f.data.getD (f.pair h) (0, 0)
  ((p.1 ||| p.2) >>> bit h).getLsbD 0

def contains (vKey : Valtype) : Bool := (f.hashes vKey).all f.marked

/-! ## The generation that a place carries -/

/-- The number at a bit of a pair of words. -/
def number (p : BitVec 64 × BitVec 64) (b : Nat) : Nat :=
  (p.1.getLsbD b).toNat + 2 * (p.2.getLsbD b).toNat

theorem getLsbD_put (x : BitVec 64) (v : Bool) {b c : Nat} (hc : c < 64) :
    ((x &&& ~~~(1#64 <<< b)) ||| BitVec.ofNat 64 v.toNat <<< b).getLsbD c =
      if c = b then v else x.getLsbD c := by
  rcases lt_trichotomy c b with h | h | h
  · cases v <;> simp [hc, h, h.ne]
  · subst h
    cases v <;> simp [hc]
  · have h0 : ¬ c - b = 0 := by omega
    cases v <;> simp [hc, h.not_gt, h.ne', h0]

theorem number_stampPair {g b c : Nat} (hg : g = 1 ∨ g = 2 ∨ g = 3) (hc : c < 64)
    (p : BitVec 64 × BitVec 64) :
    number (stampPair g b p) c = if c = b then g else number p c := by
  have h0 (x : BitVec 64) := getLsbD_put x false (b := b) hc
  have h1 (x : BitVec 64) := getLsbD_put x true (b := b) hc
  simp only [Bool.toNat_true, Bool.toNat_false] at h0 h1
  rcases hg with rfl | rfl | rfl <;>
    simp only [number, stampPair, Nat.reduceAnd, Nat.reduceShiftRight, h0, h1] <;>
    split <;> rfl

theorem number_wipe {g b : Nat} (hg : g = 1 ∨ g = 2 ∨ g = 3) (hb : b < 64)
    (p : BitVec 64 × BitVec 64) :
    number (wipe g p) b = if number p b = g then 0 else number p b := by
  have h0 : (-0#64).getLsbD b = false := by simp
  have h1 : (-1#64).getLsbD b = true := by
    rw [show -1#64 = BitVec.allOnes 64 by decide, BitVec.getLsbD_allOnes]
    exact decide_eq_true hb
  rcases hg with rfl | rfl | rfl <;>
    simp only [number, wipe, Nat.reduceAnd, Nat.reduceShiftRight, BitVec.getLsbD_and,
      BitVec.getLsbD_or, BitVec.getLsbD_xor, h0, h1] <;>
    rcases Bool.eq_false_or_eq_true (p.1.getLsbD b) with hp | hp <;>
    rcases Bool.eq_false_or_eq_true (p.2.getLsbD b) with hq | hq <;> simp [hp, hq]

/-- The number at the place of a hash. -/
def stamp (h : UInt32) : Nat := number (f.data.getD (f.pair h) (0, 0)) (bit h)

theorem bit_lt (h : UInt32) : bit h < 64 := Nat.mod_lt _ (by decide)

variable {f}

theorem marked_of_stamp {h : UInt32} (hstamp : f.stamp h ≠ 0) : f.marked h = true := by
  simp only [stamp, number] at hstamp
  simp only [marked, BitVec.getLsbD_ushiftRight, BitVec.getLsbD_or, Nat.add_zero]
  generalize f.data.getD (f.pair h) (0, 0) = p at *
  cases hp : p.1.getLsbD (bit h) <;> cases hq : p.2.getLsbD (bit h) <;> simp [hp, hq] at hstamp ⊢

/-! ## What one turn changes -/

/-- The numbers of generations. -/
def Numbered (g : Nat) : Prop := g = 1 ∨ g = 2 ∨ g = 3

theorem pair_lt (hdata : 0 < f.data.length) (h : UInt32) : f.pair h < f.data.length := by
  have := Nat.mod_lt (h.toNat / 64) (show 0 < 2 * f.data.length by omega)
  unfold pair
  omega

theorem stamp_mark (hg : Numbered f.nGeneration) (hdata : 0 < f.data.length) (k h : UInt32) :
    (f.mark k).stamp h =
      if f.pair k = f.pair h ∧ bit h = bit k then f.nGeneration else f.stamp h := by
  have hpair : (f.mark k).pair h = f.pair h := by simp [pair, mark]
  have hlt := pair_lt hdata h
  rw [stamp, hpair, stamp, mark]
  simp only [List.getD_eq_getElem?_getD, List.getElem?_modify, List.getElem?_eq_getElem hlt,
    Option.map_eq_map, Option.map_some, Option.getD_some]
  split
  · rename_i hp
    rw [number_stampPair hg (bit_lt h)]
    simp [hp]
  · rename_i hp
    simp [hp]

/-- The loop of `insert` writes the number of the generation at the places of the key. -/
theorem foldl_mark (hg : Numbered f.nGeneration) (hdata : 0 < f.data.length) (ks : List UInt32) :
    ∃ data, ks.foldl mark f = { f with data } ∧ data.length = f.data.length ∧
      (∀ h, stamp { f with data } h = f.nGeneration ∨ stamp { f with data } h = f.stamp h) ∧
      ∀ k ∈ ks, stamp { f with data } k = f.nGeneration := by
  induction ks generalizing f with
  | nil => exact ⟨f.data, rfl, rfl, fun h => Or.inr rfl, by simp⟩
  | cons k ks ih =>
    have hlen : (f.mark k).data.length = f.data.length := by simp [mark]
    obtain ⟨data, hrest, hdata', hold, hnew⟩ := @ih (f.mark k) hg (hlen ▸ hdata)
    have hmark := stamp_mark hg hdata k
    refine ⟨data, hrest, hdata'.trans hlen, fun h => ?_, fun m hm => ?_⟩
    · rcases hold h with h1 | h1
      · exact Or.inl h1
      · have h2 := hmark h
        split at h2
        · exact Or.inl (h1.trans h2)
        · exact Or.inr (h1.trans h2)
    · rcases List.mem_cons.mp hm with rfl | hm
      · rcases hold m with h1 | h1
        · exact h1
        · exact h1.trans ((hmark m).trans (if_pos ⟨rfl, rfl⟩))
      · exact hnew m hm

/-! ## What is remembered -/

/-- The number of insertions in a full generation. A counter of 32 bits that waits for
zero comes around. -/
def generationSize (nEntriesPerGeneration : Nat) : Nat :=
  if nEntriesPerGeneration = 0 then 2 ^ 32 else nEntriesPerGeneration

/-- The filter in its `era`-th generation, with `count` insertions into it. The insertions,
newest first, stand in the table with the numbers of the generations since then, as long as
no more than two generations have passed. -/
structure Remembers (per : Nat) (f : CRollingBloomFilter) (log : List Valtype) (era count : Nat) :
    Prop where
  per_eq : f.nEntriesPerGeneration = per
  per_lt : per < 2 ^ 32
  data_pos : 0 < f.data.length
  generation : f.nGeneration = era % 3 + 1
  counter : f.nEntriesThisGeneration = count % 2 ^ 32
  count_le : count ≤ generationSize per
  recent : ∀ i vKey, log[i]? = some vKey → ∀ d ≤ 2, i < count + d * generationSize per →
    ∀ h ∈ f.hashes vKey, ∃ e, era ≤ e + d ∧ e ≤ era ∧ f.stamp h = e % 3 + 1

theorem numbered_mod (e : Nat) : Numbered (e % 3 + 1) := by
  unfold Numbered
  omega

/-- Each of the last insertions is found. -/
theorem Remembers.contains {per : Nat} {log : List Valtype} {era count : Nat}
    (h : Remembers per f log era count) {i : Nat} {vKey : Valtype} (hi : log[i]? = some vKey)
    (hlt : i < 2 * generationSize per) :
    f.contains vKey = true := by
  refine List.all_eq_true.mpr fun k hk => marked_of_stamp ?_
  obtain ⟨e, -, -, he⟩ := h.recent i vKey hi 2 le_rfl (by omega) k hk
  omega

/-- The counter is full just when the generation is. -/
theorem Remembers.full_iff {per : Nat} {log : List Valtype} {era count : Nat}
    (h : Remembers per f log era count) (hstart : count = 0 → per ≠ 0) :
    f.nEntriesThisGeneration = f.nEntriesPerGeneration ↔ count = generationSize per := by
  have hle := h.count_le
  have hlt := h.per_lt
  rw [h.counter, h.per_eq]
  rw [generationSize] at hle ⊢
  split at hle
  · rename_i hzero
    rw [if_pos hzero]
    omega
  · rename_i hpos
    rw [if_neg hpos]
    omega

theorem stamp_roll (hdata : 0 < f.data.length) {g : Nat} (hg : Numbered g) (h : UInt32) :
    stamp { f with nEntriesThisGeneration := 0, nGeneration := g, data := f.data.map (wipe g) } h =
      if f.stamp h = g then 0 else f.stamp h := by
  have hlt := pair_lt hdata h
  simp only [stamp, pair, List.length_map, List.getD_eq_getElem?_getD, List.getElem?_map]
  rw [pair] at hlt
  rw [List.getElem?_eq_getElem hlt]
  exact number_wipe hg (bit_lt h) _

theorem generationSize_pos (per : Nat) : 0 < generationSize per := by
  unfold generationSize
  split <;> omega

/-- A generation change keeps what the last two generations wrote. -/
theorem Remembers.roll {per : Nat} {log : List Valtype} {era count : Nat}
    (h : Remembers per f log era count) (hstart : count = 0 → per ≠ 0) :
    ∃ era' count', Remembers per f.roll log era' count' ∧ count' < generationSize per := by
  by_cases hfull : count = generationSize per
  · have hgen : (if f.nGeneration + 1 = 4 then 1 else f.nGeneration + 1) = (era + 1) % 3 + 1 := by
      rw [h.generation]
      split <;> omega
    refine ⟨era + 1, 0, ?_, generationSize_pos per⟩
    rw [CRollingBloomFilter.roll, if_pos ((h.full_iff hstart).mpr hfull), hgen]
    refine ⟨h.per_eq, h.per_lt, by simpa using h.data_pos, rfl, rfl, Nat.zero_le _, ?_⟩
    intro i vKey hi d hd hlt k hk
    -- an insertion of the last `d` generations was one of the last `d - 1` before
    obtain ⟨c, rfl⟩ : ∃ c, d = c + 1 := Nat.exists_eq_add_one.mpr (by
      rcases Nat.eq_zero_or_pos d with rfl | hpos
      · omega
      · exact hpos)
    obtain ⟨e, he1, he2, hstamp⟩ := h.recent i vKey hi c (by omega)
      (by rw [Nat.add_mul] at hlt; omega) k hk
    refine ⟨e, by omega, by omega, ?_⟩
    rw [stamp_roll h.data_pos (numbered_mod (era + 1)) k, hstamp, if_neg (by omega)]
  · rw [CRollingBloomFilter.roll, if_neg (mt (h.full_iff hstart).mp hfull)]
    exact ⟨era, count, h, lt_of_le_of_ne h.count_le hfull⟩

theorem Remembers.insert {per : Nat} {log : List Valtype} {era count : Nat}
    (h : Remembers per f log era count) (hstart : count = 0 → per ≠ 0) (vKey : Valtype) :
    ∃ era' count', Remembers per (f.insert vKey) (vKey :: log) era' (count' + 1) := by
  obtain ⟨era, count, h, hlt⟩ := h.roll hstart
  rw [CRollingBloomFilter.insert]
  generalize f.roll = g at h hlt
  have hg : Numbered g.nGeneration := h.generation ▸ numbered_mod era
  obtain ⟨data, hmark, hlen, hold, hnew⟩ := foldl_mark (f := { g with
    nEntriesThisGeneration := (g.nEntriesThisGeneration + 1) % 2 ^ 32 }) hg h.data_pos
    (g.hashes vKey)
  refine ⟨era, count, ?_⟩
  refine Eq.mpr (congrArg (Remembers per · _ _ _) hmark)
    ⟨h.per_eq, h.per_lt, ?_, h.generation, ?_, hlt, ?_⟩
  · exact lt_of_lt_of_eq h.data_pos hlen.symm
  · simp only [h.counter]
    omega
  · intro i key hi d hd hlt' k hk
    cases i with
    | zero =>
      obtain rfl : vKey = key := by simpa using hi
      exact ⟨era, by omega, le_rfl, (hnew k hk).trans h.generation⟩
    | succ i =>
      obtain ⟨e, he1, he2, hstamp⟩ := h.recent i key (by simpa using hi) d hd
        (by omega) k hk
      rcases hold k with hk' | hk'
      · exact ⟨era, by omega, le_rfl, hk'.trans h.generation⟩
      · exact ⟨e, he1, he2, hk'.trans hstamp⟩

/-! ## Whole runs -/

/-- The calls that change a filter. `reset` draws a new tweak. -/
inductive RollingCall
  | insert (vKey : Valtype)
  | reset (nTweak : UInt32)

def RollingCall.run (f : CRollingBloomFilter) : RollingCall → CRollingBloomFilter
  | .insert vKey => f.insert vKey
  | .reset nTweak => f.reset nTweak

/-- The insertions since the last reset, newest first. -/
def RollingCall.log (log : List Valtype) : RollingCall → List Valtype
  | .insert vKey => vKey :: log
  | .reset _ => []

theorem Remembers.reset {per : Nat} {log : List Valtype} {era count : Nat}
    (h : Remembers per f log era count) (nTweak : UInt32) :
    Remembers per (f.reset nTweak) [] 0 (if per = 0 then 2 ^ 32 else 0) where
  per_eq := h.per_eq
  per_lt := h.per_lt
  data_pos := by simpa [CRollingBloomFilter.reset] using h.data_pos
  generation := rfl
  counter := by split <;> rfl
  count_le := by
    unfold generationSize
    split <;> omega
  recent := by simp

theorem remembers_run {per : Nat} {log : List Valtype} {era count : Nat}
    (h : Remembers per f log era count) (hstart : count = 0 → per ≠ 0) (calls : List RollingCall) :
    ∃ era count, Remembers per (calls.foldl RollingCall.run f) (calls.foldl RollingCall.log log)
      era count := by
  induction calls generalizing f log era count with
  | nil => exact ⟨era, count, h⟩
  | cons call calls ih =>
    cases call with
    | insert vKey =>
      obtain ⟨era', count', h'⟩ := h.insert hstart vKey
      exact ih h' (by omega)
    | reset nTweak =>
      refine ih (h.reset nTweak) ?_
      split <;> omega

theorem le_generationSize (nElements : UInt32) :
    nElements.toNat ≤ 2 * generationSize ((nElements + 1).toNat / 2) := by
  have hlt := nElements.toNat_lt
  have hsum : (nElements + 1).toNat = (nElements.toNat + 1) % 2 ^ 32 := by simp [UInt32.toNat_add]
  rw [hsum, generationSize]
  split <;> omega

/-- After any sequence of insertions and resets, the filter contains each of the last
`nElements` values inserted since the last reset. -/
theorem contains_last_insertions (nElements : UInt32) (nHashFuncs words : Nat) (hwords : 0 < words)
    (nTweak : UInt32) (calls : List RollingCall) (vKey : Valtype)
    (hlast : vKey ∈ (calls.foldl RollingCall.log []).take nElements.toNat) :
    (calls.foldl RollingCall.run (new nElements nHashFuncs words nTweak)).contains vKey = true := by
  have hnew : Remembers ((nElements + 1).toNat / 2) (new nElements nHashFuncs words nTweak) [] 0
      (if (nElements + 1).toNat / 2 = 0 then 2 ^ 32 else 0) := by
    have hlt := (nElements + 1).toNat_lt
    refine ⟨rfl, by omega, by simpa [new, reset] using hwords, rfl, by split <;> rfl, ?_, by simp⟩
    unfold generationSize
    split <;> omega
  obtain ⟨era, count, h⟩ := remembers_run hnew (by split <;> omega) calls
  obtain ⟨i, hi⟩ := List.mem_iff_getElem?.mp hlast
  rw [List.getElem?_take] at hi
  split at hi
  · rename_i hlt
    exact h.contains hi (lt_of_lt_of_le hlt (le_generationSize nElements))
  · cases hi

/-- Three insertions into a filter for two elements: the generation has changed, and the
last two are found. -/
theorem contains_last_insertions_two :
    [0x02] ∈ ([[0x03], [0x02], [0x01]] : List Valtype).take 2 ∧
      ([.insert [0x01], .insert [0x02], .insert [0x03]].foldl RollingCall.run
        (new 2 3 4 7)).contains [0x02] = true :=
  ⟨by decide, contains_last_insertions 2 3 4 (by decide) 7
    [.insert [0x01], .insert [0x02], .insert [0x03]] [0x02] (by decide)⟩

end CRollingBloomFilter

end junkcoin
