-- The block index. A `CBlockIndex` pointer is the chain of headers from its
-- block down to genesis, newest first; `NULL` is the empty chain.
import Junkcoin.ChainParams
import Junkcoin.Lib.Median

namespace junkcoin

variable {p q chain : BlockIndex} {k : Nat} (pindex : BlockIndex)

/-- A block index entry with all its ancestors. -/
abbrev BlockIndex := List CBlockHeader

/-- The height of an entry: genesis has height 0. -/
def nHeight : Int := pindex.length - 1

/-- `CBlockIndex::GetAncestor`. -/
def getAncestor (height : Int) : BlockIndex :=
  if height > nHeight pindex ∨ height < 0 then []
  else pindex.drop (nHeight pindex - height).toNat

def nMedianTimeSpan : Nat := 11

/-- The times of the last blocks. -/
def lastTimes : List Int :=
  (pindex.take nMedianTimeSpan).map (·.getBlockTime)

/-- `CBlockIndex::GetMedianTimePast`. -/
def getMedianTimePast : Int := Median.median (lastTimes pindex)

/-! ## Ancestors -/

/-- Going back by `n` blocks drops `n` entries. -/
theorem getAncestor_back (n : Nat) : getAncestor pindex (nHeight pindex - n) = pindex.drop n := by
  unfold getAncestor
  split
  · rename_i h
    unfold nHeight at h
    rw [List.drop_of_length_le (by omega)]
  · congr 1
    omega

theorem getAncestor_suffix (height : Int) : getAncestor pindex height <:+ pindex := by
  unfold getAncestor
  split
  · exact List.nil_suffix
  · exact List.drop_suffix _ _

/-- An entry finds its ancestors by their height. -/
theorem getAncestor_eq_iff (hp : p ≠ []) : getAncestor q (nHeight p) = p ↔ p <:+ q := by
  constructor
  · intro h
    rw [← h]
    exact getAncestor_suffix q _
  · intro h
    have hlen := h.length_le
    have hpos := List.length_pos_of_ne_nil hp
    unfold getAncestor nHeight
    rw [if_neg (by omega)]
    have hdrop : ((q.length : Int) - 1 - (p.length - 1)).toNat = q.length - p.length := by omega
    rw [hdrop]
    exact (List.suffix_iff_eq_drop.mp h).symm

theorem nHeight_getAncestor {height : Int} (h0 : 0 ≤ height) (h : height ≤ nHeight p) :
    nHeight (getAncestor p height) = height := by
  unfold getAncestor nHeight at *
  rw [if_neg (by omega), List.length_drop]
  omega

theorem getAncestor_of_suffix (h : p <:+ q) {k : Int} (hk : k ≤ nHeight p) :
    getAncestor q k = getAncestor p k := by
  obtain ⟨l, rfl⟩ := h
  unfold getAncestor nHeight at *
  rw [List.length_append, Nat.cast_add]
  by_cases h0 : k < 0
  · rw [if_pos (.inr h0), if_pos (.inr h0)]
  · rw [if_neg (by omega), if_neg (by omega)]
    have hback : ((l.length + p.length : Int) - 1 - k).toNat =
        l.length + ((p.length : Int) - 1 - k).toNat := by omega
    rw [hback, List.drop_append]
    simp

theorem nHeight_entry (hk : k < chain.length) : nHeight (getAncestor chain k) = k :=
  nHeight_getAncestor (by omega) (by rw [nHeight]; omega)

theorem entry_ne_nil (hk : k < chain.length) : getAncestor chain k ≠ [] := by
  intro h
  have hheight := nHeight_entry hk
  rw [h, nHeight, List.length_nil] at hheight
  omega

theorem tail_entry (hk : k + 1 < chain.length) :
    (getAncestor chain (k + 1 : Nat)).tail = getAncestor chain k := by
  have hup := nHeight_entry hk
  have htail : nHeight (getAncestor chain (k + 1 : Nat)).tail = k := by
    rw [nHeight, List.length_tail] at *
    omega
  have hne : (getAncestor chain (k + 1 : Nat)).tail ≠ [] := by
    intro h
    rw [h, nHeight, List.length_nil] at htail
    omega
  rw [← htail]
  exact ((getAncestor_eq_iff hne).mpr
    ((List.tail_suffix _).trans (getAncestor_suffix _ _))).symm

/-- The entries from `p` down to the one above `low`. -/
def pathAbove (low : BlockIndex) : BlockIndex → List BlockIndex
  | [] => []
  | b :: p => if b :: p = low then [] else (b :: p) :: pathAbove low p

theorem mem_pathAbove {low : BlockIndex} (h : low <:+ p) :
    q ∈ pathAbove low p ↔ q <:+ p ∧ low <:+ q ∧ q ≠ low := by
  induction p with
  | nil =>
    have hlow := List.suffix_nil.mp h
    subst hlow
    simp only [pathAbove, List.not_mem_nil, List.suffix_nil, false_iff]
    rintro ⟨rfl, _, hne⟩
    exact hne rfl
  | cons b p ih =>
    unfold pathAbove
    split
    · rename_i he
      subst he
      simp only [List.not_mem_nil, false_iff]
      rintro ⟨hq, hlow, hne⟩
      exact hne (List.IsSuffix.eq_of_length_le hq hlow.length_le)
    · rename_i hne
      have hlow : low <:+ p := by
        rcases List.suffix_cons_iff.mp h with he | hlow
        · exact absurd he.symm hne
        · exact hlow
      rw [List.mem_cons, ih hlow, List.suffix_cons_iff]
      constructor
      · rintro (rfl | ⟨hq, hl, hn⟩)
        · exact ⟨Or.inl rfl, h, hne⟩
        · exact ⟨Or.inr hq, hl, hn⟩
      · rintro ⟨rfl | hq, hl, hn⟩
        · exact Or.inl rfl
        · exact Or.inr ⟨hq, hl, hn⟩

/-! ## Median time -/

theorem lastTimes_ne_nil {pindex : BlockIndex} (h : pindex ≠ []) : lastTimes pindex ≠ [] := by
  cases pindex with
  | nil => exact absurd rfl h
  | cons b p => simp [lastTimes, nMedianTimeSpan]

theorem lastTimes_cons (b : CBlockHeader) (p : BlockIndex) :
    lastTimes (b :: p) = b.getBlockTime :: (p.take 10).map (·.getBlockTime) := by
  simp [lastTimes, nMedianTimeSpan]

/-- A block whose time is above the median of its parent never lowers the
median. -/
theorem getMedianTimePast_mono {b : CBlockHeader} (hp : p ≠ [])
    (h : getMedianTimePast p < b.getBlockTime) :
    getMedianTimePast p ≤ getMedianTimePast (b :: p) := by
  unfold getMedianTimePast at h ⊢
  rw [lastTimes_cons]
  refine Median.median_mono (lastTimes_ne_nil hp) ?_ ?_ (Int.le_of_lt h)
  · unfold lastTimes nMedianTimeSpan
    exact (List.take_sublist_take_left (by omega)).map _
  · simp only [lastTimes, nMedianTimeSpan, List.length_map, List.length_take]
    omega

end junkcoin
