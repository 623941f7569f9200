-- Partial merkle trees (`merkleblock.h`, `merkleblock.cpp`): the part of a
-- merkle tree that proves some transactions to be in a block. What is built is
-- extracted again, and nothing that is not in the block is extracted.
import Junkcoin.CheckBlock
import Junkcoin.MerkleRoot
import Junkcoin.Codec
import Junkcoin.Lib.BitPack

namespace junkcoin

open MerkleTree Reader

structure CPartialMerkleTree where
  nTransactions : UInt32
  vBits : List Bool
  vHash : List Uint256
  fBad : Bool
  deriving DecidableEq

/-- The cursors and the results of `ExtractMatches`, and `fBad` as it sets it.
`hashed` is for the proofs only: the pairs that were hashed. -/
structure Extraction where
  nBitsUsed : Nat := 0
  nHashUsed : Nat := 0
  vMatch : List Uint256 := []
  vnIndex : List Nat
  fBad : Bool
  hashed : List (Uint256 × Uint256) := []
  deriving DecidableEq

namespace CPartialMerkleTree

variable (H : Hashes)

/-- `CalcTreeWidth`, on `unsigned int`. -/
def calcTreeWidth (nTransactions height : Nat) : Nat :=
  (nTransactions + 2 ^ height - 1) % 2 ^ 32 / 2 ^ height

/-- The loop that finds the height of the tree. The height is below 31: it is
the shift of an `int`. -/
def treeHeight (nTransactions : Nat) : (fuel nHeight : Nat) → Option Nat
  | 0, _ => none
  | fuel + 1, nHeight =>
    if calcTreeWidth nTransactions nHeight > 1 then treeHeight nTransactions fuel (nHeight + 1)
    else some nHeight

/-! ## Building -/

def calcHash (vTxid : List Uint256) : (height pos : Nat) → Uint256
  | 0, pos => vTxid.getD pos 0
  | height + 1, pos =>
    let left := calcHash vTxid height (2 * pos)
    hashNodes H left
      (if 2 * pos + 1 < calcTreeWidth vTxid.length height then calcHash vTxid height (2 * pos + 1)
      else left)

/-- Whether a node is the parent of a matched id. -/
def parentOfMatch (nTransactions : Nat) (vMatch : List Bool) (height pos : Nat) : Bool :=
  (List.range' (pos * 2 ^ height) (2 ^ height)).any fun p =>
    p < nTransactions && vMatch.getD p false

/-- The bits and the hashes that `TraverseAndBuild` pushes. -/
def traverseAndBuild (vTxid : List Uint256) (vMatch : List Bool) :
    (height pos : Nat) → List Bool × List Uint256
  | 0, pos => ([parentOfMatch vTxid.length vMatch 0 pos], [calcHash H vTxid 0 pos])
  | height + 1, pos =>
    let fParentOfMatch := parentOfMatch vTxid.length vMatch (height + 1) pos
    if !fParentOfMatch then ([fParentOfMatch], [calcHash H vTxid (height + 1) pos])
    else
      let left := traverseAndBuild vTxid vMatch height (2 * pos)
      if 2 * pos + 1 < calcTreeWidth vTxid.length height then
        let right := traverseAndBuild vTxid vMatch height (2 * pos + 1)
        (fParentOfMatch :: (left.1 ++ right.1), left.2 ++ right.2)
      else (fParentOfMatch :: left.1, left.2)

/-- The constructor from the ids and the matches. -/
def build (vTxid : List Uint256) (vMatch : List Bool) : Option CPartialMerkleTree := do
  let nHeight ← treeHeight vTxid.length 31 0
  let (vBits, vHash) := traverseAndBuild H vTxid vMatch nHeight 0
  some { nTransactions := UInt32.ofNat vTxid.length, vBits, vHash, fBad := false }

def serialize (t : CPartialMerkleTree) : List UInt8 :=
  Bytes.le 4 t.nTransactions.toNat ++ serVector Uint256.bytes t.vHash ++
    serBytes (BitPack.pack ((t.vBits.length + 7) / 8) fun p => t.vBits.getD p false)

def unserialize : Reader String CPartialMerkleTree := do
  let nTransactions ← readLe 4
  let vHash ← readVector readUint256
  let vBytes ← readByteVector
  pure { nTransactions := UInt32.ofNat nTransactions, vBits := BitPack.unpack vBytes, vHash
         fBad := false }

/-! ## Extracting -/

variable (t : CPartialMerkleTree)

/-- The next bit; past the end the tree is bad. An index out of range would be
`none`. -/
def nextBit (s : Extraction) (next : Bool → Extraction → Option (Uint256 × Extraction)) :
    Option (Uint256 × Extraction) :=
  if s.nBitsUsed ≥ t.vBits.length then some (0, { s with fBad := true })
  else do
    let fParentOfMatch ← t.vBits[s.nBitsUsed]?
    next fParentOfMatch { s with nBitsUsed := s.nBitsUsed + 1 }

/-- The stored hash of a node below which nothing is of interest. -/
def useHash (height pos : Nat) (fParentOfMatch : Bool) (s : Extraction) :
    Option (Uint256 × Extraction) :=
  if s.nHashUsed ≥ t.vHash.length then some (0, { s with fBad := true })
  else do
    let hash ← t.vHash[s.nHashUsed]?
    let s := { s with nHashUsed := s.nHashUsed + 1 }
    if height == 0 && fParentOfMatch then
      some (hash, { s with vMatch := s.vMatch ++ [hash], vnIndex := s.vnIndex ++ [pos] })
    else some (hash, s)

/-- The hash of two subtrees. -/
def combine (left right : Uint256) (s : Extraction) : Uint256 × Extraction :=
  (hashNodes H left right, { s with hashed := s.hashed ++ [(left, right)] })

def traverseAndExtract : (height pos : Nat) → Extraction → Option (Uint256 × Extraction)
  | 0, pos, s => t.nextBit s fun fParentOfMatch s => t.useHash 0 pos fParentOfMatch s
  | height + 1, pos, s => t.nextBit s fun fParentOfMatch s =>
    if !fParentOfMatch then t.useHash (height + 1) pos fParentOfMatch s
    else do
      let (left, s) ← traverseAndExtract height (2 * pos) s
      if 2 * pos + 1 < calcTreeWidth t.nTransactions.toNat height then do
        let (right, s) ← traverseAndExtract height (2 * pos + 1) s
        -- The ids below two branches are unique, so the branches are.
        some (combine H left right { s with fBad := s.fBad || right == left })
      else some (combine H left left s)

/-- `ExtractMatches`: the root, or zero. The matches are cleared before, the
indices are not. -/
def extractMatches (vnIndex : List Nat) : Option (Uint256 × Extraction) :=
  let s : Extraction := { vnIndex, fBad := t.fBad }
  let nTransactions := t.nTransactions.toNat
  if nTransactions = 0 then some (0, s)
  else if nTransactions > MAX_BLOCK_BASE_SIZE / 60 then some (0, s)
  else if t.vHash.length > nTransactions then some (0, s)
  else if t.vBits.length < t.vHash.length then some (0, s)
  else do
    let nHeight ← treeHeight nTransactions 31 0
    let (hashMerkleRoot, s) ← t.traverseAndExtract H nHeight 0 s
    if s.fBad then some (0, s)
    else if (s.nBitsUsed + 7) / 8 ≠ (t.vBits.length + 7) / 8 then some (0, s)
    else if s.nHashUsed ≠ t.vHash.length then some (0, s)
    else some (hashMerkleRoot, s)

/-! ## Widths and heights -/

section Sizes

variable {n : Nat}

theorem calcTreeWidth_eq (hn : n ≤ MAX_BLOCK_BASE_SIZE / 60) {height : Nat} (h : height < 16) :
    calcTreeWidth n height = width n height := by
  have hpow : 2 ^ height ≤ 2 ^ 15 := Nat.pow_le_pow_right (by decide) (by omega)
  simp only [MAX_BLOCK_BASE_SIZE] at hn
  rw [calcTreeWidth, width, Nat.mod_eq_of_lt (by omega)]

theorem height_lt (hn : n ≤ MAX_BLOCK_BASE_SIZE / 60) : height n < 16 := by
  have hle : n ≤ 2 ^ 15 := by
    simp only [MAX_BLOCK_BASE_SIZE] at hn
    omega
  exact Nat.lt_succ_of_le ((Nat.clog_le_iff_le_pow Nat.one_lt_two).mpr hle)

theorem treeHeight_eq (hn : n ≤ MAX_BLOCK_BASE_SIZE / 60) {fuel k : Nat} (hk : k ≤ height n)
    (hfuel : height n < k + fuel) : treeHeight n fuel k = some (height n) := by
  induction fuel generalizing k with
  | zero => omega
  | succ fuel ih =>
    have hlt := height_lt hn
    rw [treeHeight, calcTreeWidth_eq hn (by omega)]
    split
    · rename_i hwide
      have hmore : k < height n := by
        rw [← not_le, ← width_le_one]
        omega
      exact ih hmore (by omega)
    · rename_i hone
      have hroot := width_le_one.mp (not_lt.mp hone)
      rw [Nat.le_antisymm hk hroot]

end Sizes

/-! ## The matches below a node -/

section Matches

variable {n : Nat} {vMatch : List Bool} {height pos : Nat}

/-- The places of the matched ids below a node. -/
def matchedBelow (n : Nat) (vMatch : List Bool) (height pos : Nat) : List Nat :=
  (List.range' (pos * 2 ^ height) (2 ^ height)).filter fun p => p < n && vMatch.getD p false

theorem matchedBelow_succ : matchedBelow n vMatch (height + 1) pos =
    matchedBelow n vMatch height (2 * pos) ++ matchedBelow n vMatch height (2 * pos + 1) := by
  have hstart : pos * 2 ^ (height + 1) = 2 * pos * 2 ^ height := by ring
  have hmid : (2 * pos + 1) * 2 ^ height = 2 * pos * 2 ^ height + 2 ^ height := by ring
  have hlen : 2 ^ (height + 1) = 2 ^ height + 2 ^ height := by ring
  rw [matchedBelow, matchedBelow, matchedBelow, hstart, hmid, hlen, ← List.filter_append,
    List.range'_append_1]

/-- Nothing is matched where there is no node. -/
theorem matchedBelow_of_not_lt (h : ¬ pos < width n height) :
    matchedBelow n vMatch height pos = [] := by
  rw [lt_width, not_lt] at h
  refine List.filter_eq_nil_iff.mpr fun p hp => ?_
  rw [List.mem_range'_1] at hp
  simp only [Bool.and_eq_true, decide_eq_true_eq, not_and]
  intro hlt
  omega

theorem matchedBelow_of_not_parent (h : parentOfMatch n vMatch height pos = false) :
    matchedBelow n vMatch height pos = [] := by
  rw [parentOfMatch, List.any_eq_false] at h
  exact List.filter_eq_nil_iff.mpr h

theorem matchedBelow_zero :
    matchedBelow n vMatch 0 pos = if parentOfMatch n vMatch 0 pos then [pos] else [] := by
  simp only [matchedBelow, parentOfMatch, pow_zero, Nat.mul_one, List.range'_one, List.any_cons,
    List.any_nil, Bool.or_false, List.filter_cons, List.filter_nil]

/-- Below the root are all the matches. -/
theorem matchedBelow_root :
    matchedBelow n vMatch (MerkleTree.height n) 0 =
      (List.range n).filter fun p => vMatch.getD p false := by
  have hle : n ≤ 2 ^ MerkleTree.height n := Nat.le_pow_clog Nat.one_lt_two n
  obtain ⟨d, hd⟩ := Nat.exists_eq_add_of_le hle
  have hsplit : List.range' 0 (2 ^ MerkleTree.height n) = List.range n ++ List.range' n d := by
    rw [hd, List.range_eq_range', ← List.range'_append_1, Nat.zero_add]
  have hleft : (List.range n).filter (fun p => p < n && vMatch.getD p false) =
      (List.range n).filter fun p => vMatch.getD p false :=
    List.filter_congr fun p hp => by simp [List.mem_range.mp hp]
  have hright : (List.range' n d).filter (fun p => p < n && vMatch.getD p false) = [] := by
    refine List.filter_eq_nil_iff.mpr fun p hp => ?_
    rw [List.mem_range'_1] at hp
    simp only [Bool.and_eq_true, decide_eq_true_eq, not_and]
    omega
  rw [matchedBelow, Nat.zero_mul, hsplit, List.filter_append, hleft, hright, List.append_nil]

end Matches

/-! ## What is built is extracted -/

section Complete

variable {H} {t} {vTxid : List Uint256} {vMatch : List Bool}
  (hmax : vTxid.length ≤ MAX_BLOCK_BASE_SIZE / 60) {pos : Nat} {s : Extraction} {bit : Bool}
  {left : List Bool × List Uint256} {places : List Nat} {leaf : Nat → Uint256}
  {hashed : List (Uint256 × Uint256)} (tree : CPartialMerkleTree)

include hmax in
theorem calcHash_eq {height : Nat} (h : height < 16) :
    calcHash H vTxid height pos = node (hashNodes H) (leafAt vTxid) vTxid.length height pos := by
  induction height generalizing pos with
  | zero => rfl
  | succ height ih =>
    rw [calcHash, node, calcTreeWidth_eq hmax (by omega), ih (by omega), ih (by omega)]

/-- A list that stands at a cursor, in two parts. -/
theorem prefix_drop_append {α : Type} {l l1 l2 : List α} {k : Nat} (h : l1 ++ l2 <+: l.drop k) :
    l1 <+: l.drop k ∧ l2 <+: l.drop (k + l1.length) := by
  obtain ⟨rest, h⟩ := h
  refine ⟨⟨l2 ++ rest, by rw [← List.append_assoc, h]⟩, rest, ?_⟩
  rw [← List.drop_drop, ← h, List.append_assoc, List.drop_left]

theorem getElem?_of_prefix_drop {α : Type} {l rest : List α} {k : Nat} {a : α}
    (h : a :: rest <+: l.drop k) : l[k]? = some a := by
  obtain ⟨more, h⟩ := h
  rw [← List.head?_drop, ← h, List.cons_append, List.head?_cons]

theorem nextBit_eq {next : Bool → Extraction → Option (Uint256 × Extraction)} {rest : List Bool}
    (h : bit :: rest <+: t.vBits.drop s.nBitsUsed) :
    t.nextBit s next = next bit { s with nBitsUsed := s.nBitsUsed + 1 } := by
  have hget := getElem?_of_prefix_drop h
  have hlt := (List.getElem?_eq_some_iff.mp hget).1
  rw [nextBit, if_neg (by omega), hget]
  rfl

theorem useHash_eq {height : Nat} {hash : Uint256} {rest : List Uint256}
    (h : hash :: rest <+: t.vHash.drop s.nHashUsed) :
    t.useHash height pos bit s = some (hash,
      if height == 0 && bit then
        { s with nHashUsed := s.nHashUsed + 1, vMatch := s.vMatch ++ [hash]
                 vnIndex := s.vnIndex ++ [pos] }
      else { s with nHashUsed := s.nHashUsed + 1 }) := by
  have hget := getElem?_of_prefix_drop h
  have hlt := (List.getElem?_eq_some_iff.mp hget).1
  rw [useHash, if_neg (by omega), hget]
  split <;> rfl

/-- What an extraction has used and found, when nothing was wrong. -/
structure Extracts (s s' : Extraction) (built : List Bool × List Uint256) (places : List Nat)
    (leaf : Nat → Uint256) : Prop where
  nBitsUsed : s'.nBitsUsed = s.nBitsUsed + built.1.length
  nHashUsed : s'.nHashUsed = s.nHashUsed + built.2.length
  vMatch : s'.vMatch = s.vMatch ++ places.map leaf
  vnIndex : s'.vnIndex = s.vnIndex ++ places
  fBad : s'.fBad = s.fBad

/-- A subtree without a right sibling, with the bit above it. -/
theorem Extracts.wrap {s1 : Extraction}
    (h : Extracts { s with nBitsUsed := s.nBitsUsed + 1 } s1 left places leaf) :
    Extracts s { s1 with hashed } (bit :: left.1, left.2) places leaf where
  nBitsUsed := by
    rw [h.nBitsUsed, List.length_cons]
    dsimp only
    omega
  nHashUsed := h.nHashUsed
  vMatch := h.vMatch
  vnIndex := h.vnIndex
  fBad := h.fBad

/-- Two subtrees, with the bit above them. -/
theorem Extracts.join {s1 s2 : Extraction} {right : List Bool × List Uint256} {places' : List Nat}
    (h : Extracts { s with nBitsUsed := s.nBitsUsed + 1 } s1 left places leaf)
    (h' : Extracts s1 s2 right places' leaf) :
    Extracts s { s2 with hashed } (bit :: (left.1 ++ right.1), left.2 ++ right.2)
      (places ++ places') leaf where
  nBitsUsed := by
    rw [h'.nBitsUsed, h.nBitsUsed, List.length_cons, List.length_append]
    dsimp only
    omega
  nHashUsed := by rw [h'.nHashUsed, h.nHashUsed, List.length_append, Nat.add_assoc]
  vMatch := by rw [h'.vMatch, h.vMatch, List.map_append, List.append_assoc]
  vnIndex := by rw [h'.vnIndex, h.vnIndex, List.append_assoc]
  fBad := by rw [h'.fBad, h.fBad]

/-- The bits and the hashes of the next subtree are the next of the tree. -/
def Ahead (t : CPartialMerkleTree) (s : Extraction) (built : List Bool × List Uint256) : Prop :=
  built.1 <+: t.vBits.drop s.nBitsUsed ∧ built.2 <+: t.vHash.drop s.nHashUsed

/-- A node at which the traversal stops. -/
theorem extract_stop {height : Nat} {hash : Uint256} (hahead : Ahead t s ([bit], [hash]))
    (hplaces : places = if height == 0 && bit then [pos] else [])
    (hleaf : height = 0 → leafAt vTxid pos = hash) :
    ∃ s', t.useHash height pos bit { s with nBitsUsed := s.nBitsUsed + 1 } = some (hash, s') ∧
      Extracts s s' ([bit], [hash]) places (leafAt vTxid) := by
  rw [useHash_eq (s := { s with nBitsUsed := s.nBitsUsed + 1 }) hahead.2]
  refine ⟨_, rfl, ?_⟩
  rw [hplaces]
  split
  · rename_i hzero
    simp only [Bool.and_eq_true, beq_iff_eq] at hzero
    exact ⟨rfl, rfl, by rw [← hleaf hzero.1]; rfl, rfl, rfl⟩
  · exact ⟨rfl, rfl, (List.append_nil _).symm, (List.append_nil _).symm, rfl⟩

include hmax in
/-- The extraction follows the building: it comes to the hash of the node, and
finds what is matched below it. -/
theorem extract_build (hn : t.nTransactions.toNat = vTxid.length)
    (hno : ∀ level pos, ¬ Twins (hashNodes H) (leafAt vTxid) vTxid.length level pos)
    {height : Nat} (hheight : height < 16)
    (hahead : Ahead t s (traverseAndBuild H vTxid vMatch height pos)) :
    ∃ s', t.traverseAndExtract H height pos s =
        some (node (hashNodes H) (leafAt vTxid) vTxid.length height pos, s') ∧
      Extracts s s' (traverseAndBuild H vTxid vMatch height pos)
        (matchedBelow vTxid.length vMatch height pos) (leafAt vTxid) := by
  induction height generalizing pos s with
  | zero =>
    rw [traverseAndExtract, nextBit_eq hahead.1]
    exact extract_stop hahead matchedBelow_zero fun _ => rfl
  | succ height ih =>
    have hwidth : calcTreeWidth vTxid.length height = width vTxid.length height :=
      calcTreeWidth_eq hmax (by omega)
    rw [traverseAndBuild] at hahead ⊢
    rw [traverseAndExtract]
    rw [hwidth] at hahead ⊢
    rw [hn, hwidth]
    cases hparent : parentOfMatch vTxid.length vMatch (height + 1) pos with
    | false =>
      rw [hparent] at hahead
      rw [calcHash_eq hmax hheight] at hahead ⊢
      rw [nextBit_eq hahead.1]
      exact extract_stop hahead (matchedBelow_of_not_parent hparent) (fun h => nomatch h)
    | true =>
      rw [hparent] at hahead
      rw [matchedBelow_succ]
      by_cases hright : 2 * pos + 1 < width vTxid.length height
      · rw [if_pos hright] at hahead ⊢
        have hbits : [true] ++ _ <+: _ := hahead.1
        have hleftBits := prefix_drop_append (prefix_drop_append hbits).2
        have hleftHash := prefix_drop_append hahead.2
        obtain ⟨s1, hleft, el⟩ := ih (by omega) (s := { s with nBitsUsed := s.nBitsUsed + 1 })
          ⟨hleftBits.1, hleftHash.1⟩
        obtain ⟨s2, hrt, er⟩ := ih (by omega) (s := s1)
          ⟨by rw [el.nBitsUsed]; exact hleftBits.2, by rw [el.nHashUsed]; exact hleftHash.2⟩
        have hdiff : (node (hashNodes H) (leafAt vTxid) vTxid.length height (2 * pos + 1) ==
            node (hashNodes H) (leafAt vTxid) vTxid.length height (2 * pos)) = false :=
          beq_eq_false_iff_ne.mpr fun he => hno height pos ⟨hright, he.symm⟩
        rw [nextBit_eq hahead.1]
        simp only [Bool.not_true, Bool.false_eq_true, if_false, hleft, hrt, if_pos hright,
          Option.bind_eq_bind, Option.bind_some, hdiff, Bool.or_false]
        exact ⟨_, by rw [node_succ, children_of_right hright]; rfl, el.join er⟩
      · rw [if_neg hright] at hahead ⊢
        have hbits : [true] ++ _ <+: _ := hahead.1
        obtain ⟨s1, hleft, el⟩ := ih (by omega) (s := { s with nBitsUsed := s.nBitsUsed + 1 })
          ⟨(prefix_drop_append hbits).2, hahead.2⟩
        rw [nextBit_eq hahead.1, matchedBelow_of_not_lt hright, List.append_nil]
        simp only [Bool.not_true, Bool.false_eq_true, if_false, hleft, if_neg hright,
          Option.bind_eq_bind, Option.bind_some]
        exact ⟨_, by rw [node_succ, children_of_last hright]; rfl, el.wrap⟩

variable (H vMatch) in
include hmax in
/-- The sizes that `ExtractMatches` checks: no more hashes than ids, and a bit
for each hash. -/
theorem build_sizes {height : Nat} (hheight : height < 16)
    (hpos : pos < width vTxid.length height) :
    let built := traverseAndBuild H vTxid vMatch height pos
    pos * 2 ^ height + built.2.length ≤ vTxid.length ∧ built.2.length ≤ 2 ^ height ∧
      built.2.length ≤ built.1.length ∧ built.1.length < 2 ^ (height + 1) := by
  have hone : ∀ height, 1 ≤ 2 ^ height := fun height => Nat.one_le_two_pow
  induction height generalizing pos with
  | zero =>
    rw [lt_width] at hpos
    refine ⟨?_, hone 0, Nat.le_refl 1, Nat.one_lt_two⟩
    simp only [traverseAndBuild, List.length_singleton]
    omega
  | succ height ih =>
    have hwidth : calcTreeWidth vTxid.length height = width vTxid.length height :=
      calcTreeWidth_eq hmax (by omega)
    have hstart : pos * 2 ^ (height + 1) = 2 * pos * 2 ^ height := by ring
    have hmid : (2 * pos + 1) * 2 ^ height = 2 * pos * 2 ^ height + 2 ^ height := by ring
    have hh := hone height
    rw [traverseAndBuild]
    rw [hwidth]
    rw [lt_width, hstart] at hpos
    split
    · refine ⟨?_, hone _, Nat.le_refl 1, ?_⟩
      · simp only [List.length_singleton]
        omega
      · simp only [List.length_singleton]
        omega
    · have hleft := ih (by omega) (lt_width.mpr hpos)
      split
      · rename_i hright
        have hrt := ih (by omega) hright
        dsimp only at hrt ⊢
        rw [List.length_append, List.length_cons, List.length_append]
        omega
      · dsimp only
        rw [List.length_cons]
        omega

/-- A tree as it is read: its bits fill up the last byte. -/
def padded : CPartialMerkleTree :=
  { tree with
    vBits := BitPack.unpack
      (BitPack.pack ((tree.vBits.length + 7) / 8) fun p => tree.vBits.getD p false)
    fBad := false }

theorem padded_vBits :
    tree.vBits <+: tree.padded.vBits ∧
      tree.padded.vBits.length = 8 * ((tree.vBits.length + 7) / 8) := by
  rw [padded, BitPack.unpack_pack, List.length_map, List.length_range]
  refine ⟨?_, rfl⟩
  rw [List.prefix_iff_eq_take, ← List.map_take, List.take_range]
  refine List.ext_getElem (by simp; omega) fun p h1 h2 => ?_
  simp [h1]

theorem reads_tree (hhash : sizeOk tree.vHash) (hbits : tree.vBits.length ≤ MAX_SIZE) :
    Reads unserialize tree.serialize tree.padded := by
  unfold unserialize serialize
  refine (reads_uint32 tree.nTransactions).bind ((reads_branch hhash).bind ?_)
  refine (reads_readByteVector ?_).map.of_eq rfl ?_
  · rw [BitPack.length_pack]
    omega
  · rw [UInt32.ofNat_toNat]
    rfl

variable (H vMatch) in
include hmax in
theorem build_spec : ∃ tree, build H vTxid vMatch = some tree ∧
    tree.nTransactions.toNat = vTxid.length ∧
    tree.vBits = (traverseAndBuild H vTxid vMatch (height vTxid.length) 0).1 ∧
    tree.vHash = (traverseAndBuild H vTxid vMatch (height vTxid.length) 0).2 := by
  have hheight := height_lt hmax
  rw [build, treeHeight_eq hmax (Nat.zero_le _) (by omega)]
  refine ⟨_, rfl, ?_, rfl, rfl⟩
  refine Nat.mod_eq_of_lt (Nat.lt_of_le_of_lt hmax ?_)
  decide

include hmax in
/-- `ExtractMatches` of a tree that was built, whatever bits fill it up. -/
theorem extractMatches_built (hne : vTxid ≠ [])
    (hno : ∀ level pos, ¬ Twins (hashNodes H) (leafAt vTxid) vTxid.length level pos)
    (hn : t.nTransactions.toNat = vTxid.length) (hgood : t.fBad = false)
    (hhash : t.vHash = (traverseAndBuild H vTxid vMatch (height vTxid.length) 0).2)
    (hbits : (traverseAndBuild H vTxid vMatch (height vTxid.length) 0).1 <+: t.vBits)
    (hpad : (t.vBits.length + 7) / 8 =
      ((traverseAndBuild H vTxid vMatch (height vTxid.length) 0).1.length + 7) / 8)
    (vnIndex : List Nat) :
    ∃ s, t.extractMatches H vnIndex = some (root (hashNodes H) (leafAt vTxid) vTxid.length, s) ∧
      Extracts { vnIndex, fBad := false } s
        (traverseAndBuild H vTxid vMatch (height vTxid.length) 0)
        ((List.range vTxid.length).filter fun p => vMatch.getD p false) (leafAt vTxid) := by
  have hpos : 0 < vTxid.length := List.length_pos_of_ne_nil hne
  have hheight := height_lt hmax
  obtain ⟨hids, _, hmore, _⟩ := build_sizes H vMatch hmax hheight (width_pos.mpr hpos)
  have hlong := hbits.length_le
  have hahead : Ahead t { vnIndex, fBad := t.fBad }
      (traverseAndBuild H vTxid vMatch (height vTxid.length) 0) :=
    ⟨hbits, hhash ▸ List.prefix_refl _⟩
  obtain ⟨s, hextract, hs⟩ := extract_build hmax hn hno hheight hahead
  rw [matchedBelow_root] at hs
  have hfBad : s.fBad = false := hs.fBad.trans hgood
  have hnBits := hs.nBitsUsed.trans (Nat.zero_add _)
  have hnHash := hs.nHashUsed.trans (Nat.zero_add _)
  refine ⟨s, ?_, hgood ▸ hs⟩
  rw [← hhash] at hids hmore hnHash
  unfold extractMatches
  rw [hn, if_neg (by omega), if_neg (by omega), if_neg (by omega), if_neg (by omega),
    treeHeight_eq hmax (Nat.zero_le _) (by omega)]
  simp only [Option.bind_eq_bind, Option.bind_some, hextract, hfBad, Bool.false_eq_true, if_false]
  rw [if_neg (by omega), if_neg (by omega)]
  rfl

end Complete

/-! ## What is extracted is in the block -/

section Sound

variable {H} {t} {s s' : Extraction} {hash : Uint256}

theorem nextBit_cases {next : Bool → Extraction → Option (Uint256 × Extraction)}
    (h : t.nextBit s next = some (hash, s')) :
    s' = { s with fBad := true } ∨
      ∃ bit, next bit { s with nBitsUsed := s.nBitsUsed + 1 } = some (hash, s') := by
  unfold nextBit at h
  split at h
  · rw [Option.some.injEq, Prod.mk.injEq] at h
    exact Or.inl h.2.symm
  · obtain ⟨bit, -, hnext⟩ := Option.bind_eq_some_iff.mp h
    exact Or.inr ⟨bit, hnext⟩

theorem useHash_cases {height pos : Nat} {bit : Bool}
    (h : t.useHash height pos bit s = some (hash, s')) :
    (s'.vMatch = s.vMatch ∧ s'.vnIndex = s.vnIndex ∧ s'.hashed = s.hashed) ∨
      (height = 0 ∧ s'.vMatch = s.vMatch ++ [hash] ∧ s'.vnIndex = s.vnIndex ++ [pos] ∧
        s'.hashed = s.hashed) := by
  unfold useHash at h
  split at h
  · obtain ⟨-, rfl⟩ := h
    exact Or.inl ⟨rfl, rfl, rfl⟩
  · obtain ⟨stored, -, hstored⟩ := Option.bind_eq_some_iff.mp h
    split at hstored
    · rename_i hmatch
      obtain ⟨rfl, rfl⟩ := hstored
      simp only [Bool.and_eq_true, beq_iff_eq] at hmatch
      exact Or.inr ⟨hmatch.1, rfl, rfl, rfl⟩
    · obtain ⟨-, rfl⟩ := hstored
      exact Or.inl ⟨rfl, rfl, rfl⟩

/-- The index of an id is its place in the list. -/
def InPlace (vTxid : List Uint256) (id : Uint256) (place : Nat) : Prop := vTxid[place]? = some id

/-- What a subtree adds to the matches. If it comes to the hash of the node
that stands there, the matches are in the list. -/
structure Finds (vTxid : List Uint256) (s s' : Extraction) (atNode : Prop) : Prop where
  hashed : s.hashed ⊆ s'.hashed
  found : ∃ ids places, s'.vMatch = s.vMatch ++ ids ∧ s'.vnIndex = s.vnIndex ++ places ∧
    (atNode → List.Forall₂ (InPlace vTxid) ids places)

theorem Finds.nothing {vTxid : List Uint256} {atNode : Prop} (hmatch : s'.vMatch = s.vMatch)
    (hindex : s'.vnIndex = s.vnIndex) (hhashed : s'.hashed = s.hashed) :
    Finds vTxid s s' atNode where
  hashed := hhashed ▸ List.Subset.refl _
  found := ⟨[], [], by rw [hmatch, List.append_nil], by rw [hindex, List.append_nil],
    fun _ => .nil⟩

/-- One subtree after another, and the hash of both. -/
theorem Finds.join {vTxid : List Uint256} {s1 s2 : Extraction} {P Q R : Prop}
    (h : Finds vTxid s s1 P) (h' : Finds vTxid s1 s2 Q) (hP : R → P) (hQ : R → Q)
    (hmatch : s'.vMatch = s2.vMatch) (hindex : s'.vnIndex = s2.vnIndex)
    (hhashed : s2.hashed ⊆ s'.hashed) : Finds vTxid s s' R := by
  obtain ⟨ids, places, hids, hplaces, hin⟩ := h.found
  obtain ⟨ids', places', hids', hplaces', hin'⟩ := h'.found
  refine ⟨List.Subset.trans (List.Subset.trans h.hashed h'.hashed) hhashed, ids ++ ids',
    places ++ places', ?_, ?_,
    fun hR => List.rel_append (hin (hP hR)) (hin' (hQ hR))⟩
  · rw [hmatch, hids', hids, List.append_assoc]
  · rw [hindex, hplaces', hplaces, List.append_assoc]

variable {vTxid : List Uint256} {S : Set (Uint256 × Uint256)}
  (hS : Below (hashNodes H) (leafAt vTxid) vTxid.length (height vTxid.length) S)
  (hmax : vTxid.length ≤ MAX_BLOCK_BASE_SIZE / 60) (hn : t.nTransactions.toNat = vTxid.length)

include hS hmax hn in
/-- An attacker's tree: wherever it comes to the hash of a node of the true
tree, it follows the true tree below, as the pairs that are hashed do not
collide. -/
theorem extract_sound {height pos : Nat} (hheight : height ≤ MerkleTree.height vTxid.length)
    (hpos : pos < width vTxid.length height)
    (h : t.traverseAndExtract H height pos s = some (hash, s')) (hin : ∀ x ∈ s'.hashed, x ∈ S) :
    Finds vTxid s s' (hash = node (hashNodes H) (leafAt vTxid) vTxid.length height pos) := by
  induction height generalizing pos s s' hash with
  | zero =>
    rw [width_zero] at hpos
    rcases nextBit_cases h with hs | ⟨bit, huse⟩
    · exact Finds.nothing (by rw [hs]) (by rw [hs]) (by rw [hs])
    · rcases useHash_cases huse with ⟨hm, hi, hh⟩ | ⟨-, hm, hi, hh⟩
      · exact Finds.nothing hm hi hh
      · refine ⟨by rw [hh]; exact List.Subset.refl _, [hash], [pos], hm, hi, fun hnode => ?_⟩
        refine .cons ?_ .nil
        rw [InPlace, hnode, node, leafAt_eq hpos, List.getElem?_eq_getElem hpos]
  | succ height ih =>
    have hlt := height_lt hmax
    have hwidth : calcTreeWidth vTxid.length height = width vTxid.length height :=
      calcTreeWidth_eq hmax (by omega)
    have hchildren := hS.mem height pos (by omega) hpos
    have hleftPos : 2 * pos < width vTxid.length height := by
      rw [width_succ] at hpos
      omega
    rw [traverseAndExtract, hn, hwidth] at h
    rcases nextBit_cases h with hs | ⟨bit, hnext⟩
    · exact Finds.nothing (by rw [hs]) (by rw [hs]) (by rw [hs])
    cases bit with
    | false =>
      rcases useHash_cases hnext with ⟨hm, hi, hh⟩ | ⟨hzero, -⟩
      · exact Finds.nothing hm hi hh
      · cases hzero
    | true =>
      obtain ⟨⟨left, s1⟩, hleft, hnext⟩ := Option.bind_eq_some_iff.mp hnext
      dsimp only at hnext
      split at hnext
      · rename_i hright
        obtain ⟨⟨right, s2⟩, hrt, hnext⟩ := Option.bind_eq_some_iff.mp hnext
        rw [Option.some.injEq, combine, Prod.mk.injEq] at hnext
        obtain ⟨hhash, hs'⟩ := hnext
        subst hs'
        have hin2 : ∀ x ∈ s2.hashed, x ∈ S := fun x hx => hin x (List.mem_append_left _ hx)
        have hpair : (left, right) ∈ S := hin _ (by simp)
        have fr := ih (by omega) hright hrt hin2
        have fl := ih (by omega) hleftPos hleft fun x hx => hin2 x (fr.hashed hx)
        have heq : hash = node (hashNodes H) (leafAt vTxid) vTxid.length (height + 1) pos →
            (left, right) = children (hashNodes H) (leafAt vTxid) vTxid.length height pos :=
          fun hnode => hS.inj hpair hchildren (hhash.trans (hnode.trans node_succ))
        rw [children_of_right hright] at heq
        exact Finds.join ⟨fl.hashed, fl.found⟩ fr (fun hnode => congrArg Prod.fst (heq hnode))
          (fun hnode => congrArg Prod.snd (heq hnode)) rfl rfl (List.subset_append_left _ _)
      · rename_i hright
        rw [Option.some.injEq, combine, Prod.mk.injEq] at hnext
        obtain ⟨hhash, hs'⟩ := hnext
        subst hs'
        have hin1 : ∀ x ∈ s1.hashed, x ∈ S := fun x hx => hin x (List.mem_append_left _ hx)
        have hpair : (left, left) ∈ S := hin _ (by simp)
        have fl := ih (by omega) hleftPos hleft hin1
        have heq : hash = node (hashNodes H) (leafAt vTxid) vTxid.length (height + 1) pos →
            (left, left) = children (hashNodes H) (leafAt vTxid) vTxid.length height pos :=
          fun hnode => hS.inj hpair hchildren (hhash.trans (hnode.trans node_succ))
        have fn : Finds vTxid s1 s1 True := Finds.nothing rfl rfl rfl
        exact Finds.join ⟨fl.hashed, fl.found⟩ fn (fun hnode => congrArg Prod.fst (heq hnode))
          (fun _ => trivial) rfl rfl (List.subset_append_left _ _)

/-! ## No index out of range -/

theorem useHash_total (height pos : Nat) (bit : Bool) (s : Extraction) :
    ∃ r, t.useHash height pos bit s = some r := by
  unfold useHash
  split
  · exact ⟨_, rfl⟩
  · rename_i hlt
    rw [List.getElem?_eq_getElem (not_le.mp hlt)]
    split
    · exact ⟨_, rfl⟩
    · exact ⟨_, rfl⟩

theorem nextBit_total {next : Bool → Extraction → Option (Uint256 × Extraction)}
    (h : ∀ bit s, ∃ r, next bit s = some r) (s : Extraction) : ∃ r, t.nextBit s next = some r := by
  unfold nextBit
  split
  · exact ⟨_, rfl⟩
  · rename_i hlt
    rw [List.getElem?_eq_getElem (not_le.mp hlt)]
    exact h _ _

theorem traverseAndExtract_total (height pos : Nat) (s : Extraction) :
    ∃ r, t.traverseAndExtract H height pos s = some r := by
  induction height generalizing pos s with
  | zero => exact nextBit_total (fun bit s => useHash_total 0 pos bit s) s
  | succ height ih =>
    refine nextBit_total (fun bit s => ?_) s
    cases bit with
    | false => exact useHash_total (height + 1) pos false s
    | true =>
      obtain ⟨⟨left, s1⟩, hleft⟩ := ih (2 * pos) s
      obtain ⟨⟨right, s2⟩, hright⟩ := ih (2 * pos + 1) s1
      simp only [Bool.not_true, Bool.false_eq_true, if_false, hleft, hright, Option.bind_eq_bind,
        Option.bind_some]
      split
      · exact ⟨_, rfl⟩
      · exact ⟨_, rfl⟩

/-- Whatever the tree is, the height is found and no index is out of range. -/
theorem extractMatches_total (t : CPartialMerkleTree) (vnIndex : List Nat) :
    ∃ r, t.extractMatches H vnIndex = some r := by
  unfold extractMatches
  dsimp only
  split
  · exact ⟨_, rfl⟩
  split
  · exact ⟨_, rfl⟩
  rename_i hmax
  have hlt := height_lt (not_lt.mp hmax)
  split
  · exact ⟨_, rfl⟩
  split
  · exact ⟨_, rfl⟩
  obtain ⟨⟨root, s⟩, hextract⟩ := traverseAndExtract_total (H := H) (t := t)
    (MerkleTree.height t.nTransactions.toNat) 0 { vnIndex, fBad := t.fBad }
  rw [treeHeight_eq (not_lt.mp hmax) (Nat.zero_le _) (by omega)]
  simp only [Option.bind_eq_bind, Option.bind_some, hextract]
  split
  · exact ⟨_, rfl⟩
  split
  · exact ⟨_, rfl⟩
  split
  · exact ⟨_, rfl⟩
  · exact ⟨_, rfl⟩

/-- A root that is not zero is what the traversal came to. -/
theorem extractMatches_cases {vnIndex : List Nat} {r : Uint256} (hr : r ≠ 0)
    (h : t.extractMatches H vnIndex = some (r, s)) :
    0 < t.nTransactions.toNat ∧ t.nTransactions.toNat ≤ MAX_BLOCK_BASE_SIZE / 60 ∧
      t.traverseAndExtract H (MerkleTree.height t.nTransactions.toNat) 0
        { vnIndex, fBad := t.fBad } = some (r, s) := by
  have hzero : ∀ s0 : Extraction, some ((0 : Uint256), s0) ≠ some (r, s) := by
    intro s0 he
    rw [Option.some.injEq, Prod.mk.injEq] at he
    exact hr he.1.symm
  unfold extractMatches at h
  dsimp only at h
  split at h
  · exact absurd h (hzero _)
  rename_i hpos
  split at h
  · exact absurd h (hzero _)
  rename_i hmax
  have hlt := height_lt (not_lt.mp hmax)
  split at h
  · exact absurd h (hzero _)
  split at h
  · exact absurd h (hzero _)
  rw [treeHeight_eq (not_lt.mp hmax) (Nat.zero_le _) (by omega), Option.bind_eq_bind,
    Option.bind_some] at h
  obtain ⟨⟨root, s1⟩, hextract, h⟩ := Option.bind_eq_some_iff.mp h
  refine ⟨Nat.pos_of_ne_zero hpos, not_lt.mp hmax, ?_⟩
  split at h
  · exact absurd h (hzero _)
  split at h
  · exact absurd h (hzero _)
  split at h
  · exact absurd h (hzero _)
  · exact hextract.trans h

end Sound

end CPartialMerkleTree

open CPartialMerkleTree in
/-- A partial tree of a block that no two siblings of its merkle tree are equal
in: built, written, read and extracted, it gives the root, the matched ids and
their places, and all its bits and hashes are used. -/
theorem extractMatches_complete {H : Hashes} (vTxid : List Uint256) (vMatch : List Bool)
    (hne : vTxid ≠ []) (hmax : vTxid.length ≤ MAX_BLOCK_BASE_SIZE / 60)
    (hno : ∀ level pos, ¬ Twins (hashNodes H) (leafAt vTxid) vTxid.length level pos) :
    ∃ tree t s, build H vTxid vMatch = some tree ∧
      CPartialMerkleTree.unserialize tree.serialize = .ok (t, []) ∧
      t.extractMatches H [] = some ((computeMerkleRoot H vTxid).1, s) ∧
      s.vnIndex = ((List.range vTxid.length).filter fun p => vMatch.getD p false) ∧
      s.vMatch = s.vnIndex.map (leafAt vTxid) ∧
      s.nBitsUsed = tree.vBits.length ∧ (tree.vBits.length + 7) / 8 = (t.vBits.length + 7) / 8 ∧
      s.nHashUsed = t.vHash.length := by
  have hpos : 0 < vTxid.length := List.length_pos_of_ne_nil hne
  have hheight := height_lt hmax
  obtain ⟨hids, _, _, hfew⟩ := build_sizes H vMatch hmax hheight (width_pos.mpr hpos)
  have hsmall : vTxid.length < 2 ^ 15 := by
    simp only [MAX_BLOCK_BASE_SIZE] at hmax
    omega
  have hbytes : 2 ^ (height vTxid.length + 1) ≤ 2 ^ 16 :=
    Nat.pow_le_pow_right (by decide) (by omega)
  obtain ⟨tree, hbuild, hn, hvBits, hvHash⟩ := build_spec H vMatch hmax
  rw [← hvBits] at hfew
  rw [← hvHash] at hids
  obtain ⟨hfill, hlen⟩ := padded_vBits tree
  have hread := reads_tree tree (by simp only [sizeOk, MAX_SIZE]; omega)
    (by simp only [MAX_SIZE]; omega) []
  rw [List.append_nil] at hread
  obtain ⟨s, hextract, hs⟩ := extractMatches_built hmax hne hno (t := tree.padded) hn rfl hvHash
    (hvBits ▸ hfill) (by rw [← hvBits, hlen]; omega) []
  refine ⟨tree, tree.padded, s, hbuild, hread, ?_, hs.vnIndex, ?_, ?_, by rw [hlen]; omega, ?_⟩
  · rw [(computeMerkleRoot_spec hne (by omega)).1]
    exact hextract
  · rw [hs.vMatch, hs.vnIndex]
    rfl
  · rw [hs.nBitsUsed, ← hvBits]
    exact Nat.zero_add _
  · rw [hs.nHashUsed, ← hvHash]
    exact Nat.zero_add _

/-- A list of three ids of which two are matched. -/
theorem extractMatches_complete_sample : ∃ tree t s,
    CPartialMerkleTree.build remainderHashes [1, 2, 3] [false, true, true] = some tree ∧
      CPartialMerkleTree.unserialize tree.serialize = .ok (t, []) ∧
      t.extractMatches remainderHashes [] =
        some ((computeMerkleRoot remainderHashes [1, 2, 3]).1, s) ∧
      s.vnIndex = [1, 2] := by
  have hno : ∀ level pos, ¬ Twins (hashNodes remainderHashes) (leafAt [1, 2, 3]) 3 level pos := by
    intro level pos h
    have hlevel : level < 2 := h.level_lt
    have hpos := h.1
    have hall : ∀ level < 2, ∀ pos < 2, 2 * pos + 1 < width 3 level →
        node (hashNodes remainderHashes) (leafAt [1, 2, 3]) 3 level (2 * pos) ≠
          node (hashNodes remainderHashes) (leafAt [1, 2, 3]) 3 level (2 * pos + 1) := by
      decide +kernel
    have hwidth : ∀ level < 2, width 3 level ≤ 3 := by decide
    have := hwidth level hlevel
    exact hall level hlevel pos (by omega) hpos h.2
  obtain ⟨tree, t, s, hbuild, hread, hextract, hindex, -⟩ :=
    extractMatches_complete [1, 2, 3] [false, true, true] (by simp) (by decide) hno
  exact ⟨tree, t, s, hbuild, hread, hextract, hindex⟩

/-- A tree from which the root of a list is extracted, as long as the root is
not zero and no two pairs that are hashed collide: the matches are in the list,
at their places. For any tree at all, the extraction ends without reading past
the bits or the hashes. -/
theorem extractMatches_sound (H : Hashes) :
    (∀ (t : CPartialMerkleTree) (vTxid : List Uint256) (s : Extraction),
      t.nTransactions.toNat = vTxid.length → (computeMerkleRoot H vTxid).1 ≠ 0 →
      t.extractMatches H [] = some ((computeMerkleRoot H vTxid).1, s) →
      Set.InjOn (Function.uncurry (hashNodes H)) {x | x ∈ merkleNodes H vTxid ∨ x ∈ s.hashed} →
      List.Forall₂ (fun id index => vTxid[index]? = some id) s.vMatch s.vnIndex) ∧
    ∀ (tree : CPartialMerkleTree) (vnIndex : List Nat),
      ∃ r s, tree.extractMatches H vnIndex = some (r, s) := by
  refine ⟨fun t vTxid s hn hroot h no_collision => ?_, fun tree vnIndex => ?_⟩
  · obtain ⟨hpos, hmax, hextract⟩ := CPartialMerkleTree.extractMatches_cases hroot h
    rw [hn] at hpos hmax hextract
    have hS := below_pairs no_collision (fun x hx => Or.inl hx : ∀ x ∈ merkleNodes H vTxid, _)
    have hfinds := CPartialMerkleTree.extract_sound hS hmax hn (le_refl _) (width_pos.mpr hpos)
      hextract fun x hx => Or.inr hx
    obtain ⟨ids, places, hids, hplaces, hin⟩ := hfinds.found
    rw [hids, hplaces]
    have hsmall : vTxid.length < 2 ^ 32 := by
      simp only [MAX_BLOCK_BASE_SIZE] at hmax
      omega
    exact hin (computeMerkleRoot_spec (List.ne_nil_of_length_pos hpos) hsmall).1
  · obtain ⟨⟨r, s⟩, hr⟩ := CPartialMerkleTree.extractMatches_total (H := H) tree vnIndex
    exact ⟨r, s, hr⟩

/-- A tree for the second of two ids. -/
def sampleTree : CPartialMerkleTree where
  nTransactions := 2
  vBits := [true, false, true, false, false, false, false, false]
  vHash := [1, 2]
  fBad := false

theorem extractMatches_sound_sample : ∃ s,
    sampleTree.extractMatches remainderHashes [] =
        some ((computeMerkleRoot remainderHashes [1, 2]).1, s) ∧
      s.vMatch = [2] ∧
      List.Forall₂ (fun id index => ([1, 2] : List Uint256)[index]? = some id) s.vMatch
        s.vnIndex := by
  have h : sampleTree.extractMatches remainderHashes [] =
      some ((computeMerkleRoot remainderHashes [1, 2]).1,
        { nBitsUsed := 3, nHashUsed := 2, vMatch := [2], vnIndex := [1], fBad := false
          hashed := [(1, 2)] }) := by
    decide +kernel
  refine ⟨_, h, rfl, (extractMatches_sound _).1 sampleTree [1, 2] _ rfl (by decide +kernel) h ?_⟩
  have hnodes : merkleNodes remainderHashes [1, 2] = [(1, 2)] := by decide +kernel
  intro x hx y hy _
  simp only [hnodes, List.mem_singleton, or_self, Set.mem_ofPred_eq] at hx hy
  rw [hx, hy]

/-- A tree with a byte of bits too many. -/
def overfullTree : CPartialMerkleTree where
  nTransactions := 1
  vBits := true :: List.replicate 15 false
  vHash := [5]
  fBad := false

/-- A failed extraction returns zero, which is the root of a list with the one
id zero. The match that it leaves is not in that list. -/
theorem failed_extraction_returns_zero_root :
    (computeMerkleRoot remainderHashes [0]).1 = 0 ∧
      ∃ s, overfullTree.extractMatches remainderHashes [] =
          some ((computeMerkleRoot remainderHashes [0]).1, s) ∧
        s.vMatch = [5] ∧ s.vnIndex = [0] :=
  ⟨by decide +kernel,
    { nBitsUsed := 1, nHashUsed := 1, vMatch := [5], vnIndex := [0], fBad := false },
    by decide +kernel, rfl, rfl⟩

end junkcoin
