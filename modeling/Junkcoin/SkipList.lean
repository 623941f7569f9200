-- The block tree as it lies in memory: `pprev` and the `pskip` that `BuildSkip`
-- stores, the walks over them, and the vector of the active chain.
import Junkcoin.Lib.ParentTree
import Junkcoin.NextBlocks

open ParentTree

namespace junkcoin

/-- A `CBlockIndex*` that is not `NULL`. -/
abbrev BlockPtr := Nat

/-- The links of a `CBlockIndex`. -/
structure BlockNode where
  pprev : Option BlockPtr
  pskip : Option BlockPtr
  nHeight : Nat
  deriving DecidableEq

/-- The entries of the block index, each at the place that its pointer names. -/
abbrev BlockHeap := List BlockNode

namespace BlockHeap

variable (heap : BlockHeap)

def deref (p : BlockPtr) : Check BlockNode :=
  match heap[p]? with
  | some node => .ok node
  | none => .error (.crash "dangling pointer")

/-- The loop of `GetAncestor`. -/
def ancestorLoop (height heightWalk : Nat) (pindexWalk : BlockPtr) : Check BlockPtr :=
  if _h : height < heightWalk then do
    let node ← heap.deref pindexWalk
    let heightSkip := getSkipHeight heightWalk
    let heightSkipPrev := getSkipHeight (heightWalk - 1)
    -- only follow pskip if pprev->pskip isn't better than pskip->pprev
    let follow := if heightSkip = height ∨ heightSkip > height ∧
        ¬ (heightSkipPrev + 2 < heightSkip ∧ heightSkipPrev ≥ height) then node.pskip else none
    match follow with
    | some pskip => ancestorLoop height heightSkip pskip
    | none =>
      match node.pprev with
      | some pprev => ancestorLoop height (heightWalk - 1) pprev
      | none => .error (.crash "pindexWalk->pprev")
  else .ok pindexWalk
termination_by heightWalk
decreasing_by
  · exact getSkipHeight_lt (by omega)
  · omega

/-- `CBlockIndex::GetAncestor`. -/
def getAncestor (pindex : BlockPtr) (height : Int) : Check (Option BlockPtr) := do
  let node ← heap.deref pindex
  if height > node.nHeight ∨ height < 0 then pure none
  else do pure (some (← heap.ancestorLoop height.toNat node.nHeight pindex))

/-- `CBlockIndex::BuildSkip`. -/
def buildSkip (pindex : BlockPtr) : Check BlockHeap := do
  let node ← heap.deref pindex
  match node.pprev with
  | none => pure heap
  | some pprev => do
    let pskip ← heap.getAncestor pprev (getSkipHeight node.nHeight)
    pure (heap.set pindex { node with pskip })

/-- A new entry is linked to its parent. -/
def link (pprev : BlockPtr) : Check BlockHeap := do
  let parent ← heap.deref pprev
  pure (heap ++ [⟨some pprev, none, parent.nHeight + 1⟩])

/-- The loop of `LastCommonAncestor`. -/
def lastCommonLoop : (fuel : Nat) → (pa pb : Option BlockPtr) →
    Check (Option BlockPtr × Option BlockPtr)
  | 0, _, _ => .error (.crash "no end")
  | fuel + 1, some pa, some pb =>
    if pa = pb then .ok (some pa, some pb)
    else do lastCommonLoop fuel (← heap.deref pa).pprev (← heap.deref pb).pprev
  | _ + 1, pa, pb => .ok (pa, pb)

/-- The taller of two blocks is cut down to the height of the other one. -/
def cutTaller (pa pb : BlockPtr) (a b : BlockNode) : Check (Option BlockPtr × Option BlockPtr) :=
  if a.nHeight > b.nHeight then do pure (← heap.getAncestor pa b.nHeight, some pb)
  else if b.nHeight > a.nHeight then do pure (some pa, ← heap.getAncestor pb a.nHeight)
  else pure (some pa, some pb)

/-- `LastCommonAncestor`. -/
def lastCommonAncestor (pa pb : BlockPtr) : Check (Option BlockPtr) := do
  let a ← heap.deref pa
  let b ← heap.deref pb
  let (qa, qb) ← heap.cutTaller pa pb a b
  let (qa, qb) ← heap.lastCommonLoop (min a.nHeight b.nHeight + 1) qa qb
  -- eventually all chain branches meet at the genesis block
  assert (qa = qb) "pa == pb"
  pure qa

end BlockHeap

/-- The block index and the active chain. A `NULL` in the vector is `none`. -/
structure BlockTree where
  heap : BlockHeap
  vChain : List (Option BlockPtr)

namespace BlockTree

variable (s : BlockTree)

/-- `std::vector::resize`. -/
def resize (v : List (Option BlockPtr)) (n : Nat) : List (Option BlockPtr) :=
  v.take n ++ List.replicate (n - v.length) none

/-- The loop of `SetTip`. -/
def setTipLoop (heap : BlockHeap) : (fuel : Nat) → (vChain : List (Option BlockPtr)) →
    (pindex : Option BlockPtr) → Check (List (Option BlockPtr))
  | 0, _, _ => .error (.crash "no end")
  | _ + 1, vChain, none => .ok vChain
  | fuel + 1, vChain, some pindex => do
    let node ← heap.deref pindex
    match vChain[node.nHeight]? with
    | none => .error (.crash "out of range")
    | some entry =>
      if entry ≠ some pindex then
        setTipLoop heap fuel (vChain.set node.nHeight (some pindex)) node.pprev
      else .ok vChain

/-- `CChain::SetTip`. -/
def setTip : Option BlockPtr → Check BlockTree
  | none => .ok { s with vChain := [] }
  | some pindex => do
    let node ← s.heap.deref pindex
    let vChain ← setTipLoop s.heap (node.nHeight + 2) (resize s.vChain (node.nHeight + 1))
      (some pindex)
    pure { s with vChain }

/-- `CChain::Contains`. -/
def contains (pindex : BlockPtr) : Check Bool := do
  let node ← s.heap.deref pindex
  pure (s.vChain[node.nHeight]? = some (some pindex))

/-- `CChain::Height`. -/
def height : Int := s.vChain.length - 1

/-- The loop of `FindFork`. -/
def findForkLoop : (fuel : Nat) → (pindex : Option BlockPtr) → Check (Option BlockPtr)
  | 0, _ => .error (.crash "no end")
  | _ + 1, none => .ok none
  | fuel + 1, some pindex => do
    if ← s.contains pindex then pure (some pindex)
    else findForkLoop fuel (← s.heap.deref pindex).pprev

/-- `CChain::FindFork`. -/
def findFork : Option BlockPtr → Check (Option BlockPtr)
  | none => .ok none
  | some pindex => do
    let node ← s.heap.deref pindex
    let start ←
      if node.nHeight > s.height then s.heap.getAncestor pindex s.height else pure (some pindex)
    s.findForkLoop (node.nHeight + 2) start

/-- What happens to the index and the chain. `AddToBlockIndex` links an entry
and builds its skip at once, `LoadBlockIndexDB` builds them all later. -/
inductive Call
  | link (pprev : BlockPtr)
  | buildSkip (pindex : BlockPtr)
  | setTip (pindex : Option BlockPtr)

def call : Call → Check BlockTree
  | .link pprev => do pure { s with heap := ← s.heap.link pprev }
  | .buildSkip pindex => do pure { s with heap := ← s.heap.buildSkip pindex }
  | .setTip pindex => s.setTip pindex

/-- The index with the genesis block. -/
def genesis : BlockTree := ⟨[⟨none, none, 0⟩], []⟩

/-- The tip after a call. -/
def tipAfter (tip : Option BlockPtr) : Call → Option BlockPtr
  | .setTip pindex => pindex
  | _ => tip

end BlockTree

/-! ## The links -/

namespace BlockHeap

/-- `pprev`, where there is an entry. -/
def prev (heap : BlockHeap) (p : BlockPtr) : Option BlockPtr := heap[p]?.bind BlockNode.pprev

def heightOf (heap : BlockHeap) (p : BlockPtr) : Nat := heap[p]?.elim 0 BlockNode.nHeight

/-- The heights follow the links, every entry is linked to an older one down to
the genesis block, and a skip leads to where `GetSkipHeight` says. -/
structure Linked (heap : BlockHeap) : Prop where
  ranked : Ranked heap.prev heap.heightOf
  older {p q : BlockPtr} : heap.prev p = some q → q < p
  root {p : BlockPtr} : p < heap.length → heap.prev p = none → p = 0
  skip {p q : BlockPtr} {node : BlockNode} : heap[p]? = some node → node.pskip = some q →
    back heap.prev (node.nHeight - getSkipHeight node.nHeight) p = some q

variable {heap heap' : BlockHeap} {p q : BlockPtr} {node : BlockNode}

theorem deref_ok : heap.deref p = .ok node ↔ heap[p]? = some node := by
  unfold deref
  cases heap[p]? with
  | none => simp
  | some n => simp

theorem exists_deref (hp : p < heap.length) : ∃ node, heap.deref p = .ok node ∧
    heap[p]? = some node ∧ heap.heightOf p = node.nHeight ∧ heap.prev p = node.pprev := by
  have hnode := List.getElem?_eq_getElem hp
  exact ⟨_, deref_ok.mpr hnode, hnode, by rw [heightOf, hnode]; rfl, by rw [prev, hnode]; rfl⟩

theorem lt_of_deref (h : heap.deref p = .ok node) : p < heap.length :=
  (List.getElem?_eq_some_iff.mp (deref_ok.mp h)).1

namespace Linked

variable (hl : heap.Linked)

include hl

theorem back_le {n : Nat} (h : back heap.prev n p = some q) : q ≤ p := by
  induction n generalizing p with
  | zero =>
    cases h
    exact le_refl _
  | succ n ih =>
    cases hp : heap.prev p with
    | none =>
      rw [back, hp] at h
      cases h
    | some r =>
      rw [back_succ hp] at h
      exact (ih h).trans (hl.older hp).le

theorem ancestor_lt (h : Ancestor heap.prev q p) (hp : p < heap.length) : q < heap.length := by
  obtain ⟨n, hn⟩ := h
  exact (hl.back_le hn).trans_lt hp

/-- The walk comes to the ancestor at the height, and never fails. -/
theorem ancestorLoop_eq {height heightWalk : Nat} (hp : p < heap.length)
    (hwalk : heap.heightOf p = heightWalk) (hle : height ≤ heightWalk) :
    ∃ q, heap.ancestorLoop height heightWalk p = .ok q ∧
      back heap.prev (heightWalk - height) p = some q := by
  induction heightWalk using Nat.strong_induction_on generalizing p with
  | _ heightWalk ih =>
    unfold ancestorLoop
    by_cases h : height < heightWalk
    · obtain ⟨node, hderef, hnode, hheight, hprev⟩ := exists_deref hp
      have hskip := getSkipHeight_lt (Nat.zero_lt_of_lt h)
      rw [dif_pos h, hderef, ok_bind]
      dsimp only
      split
      · -- the skip
        rename_i r hfollow
        split at hfollow
        · rename_i hbetter
          have hback := hl.skip hnode hfollow
          rw [← hheight, hwalk] at hback
          have hr := hl.ranked.height_back hback
          obtain ⟨q, hq, hend⟩ := ih _ hskip (hl.ancestor_lt ⟨_, hback⟩ hp) (by omega) (by omega)
          refine ⟨q, hq, ?_⟩
          rw [show heightWalk - height = (heightWalk - getSkipHeight heightWalk) +
            (getSkipHeight heightWalk - height) by omega, back_add hback, hend]
        · cases hfollow
      · cases hpprev : node.pprev with
        | none =>
          have := hl.ranked.root (hprev.trans hpprev)
          omega
        | some r =>
          have hr := hprev.trans hpprev
          have hup := hl.ranked.parent hr
          obtain ⟨q, hq, hend⟩ := ih (heightWalk - 1) (by omega)
            ((hl.older hr).trans hp) (by omega) (by omega)
          refine ⟨q, hq, ?_⟩
          rw [show heightWalk - height = (heightWalk - 1 - height) + 1 by omega, back_succ hr, hend]
    · rw [dif_neg h]
      exact ⟨p, rfl, by rw [show heightWalk - height = 0 by omega]; rfl⟩

/-- `GetAncestor` follows `pprev`. -/
theorem getAncestor_eq (hp : p < heap.length) (height : Int) :
    heap.getAncestor p height = .ok
      (if height > heap.heightOf p ∨ height < 0 then none
       else back heap.prev (heap.heightOf p - height.toNat) p) := by
  obtain ⟨node, hderef, -, hheight, -⟩ := exists_deref hp
  rw [getAncestor, hderef, ok_bind, hheight]
  by_cases hout : height > node.nHeight ∨ height < 0
  · rw [if_pos hout, if_pos hout]
    rfl
  · rw [if_neg hout, if_neg hout]
    obtain ⟨q, hq, hback⟩ := hl.ancestorLoop_eq hp hheight
      (show height.toNat ≤ node.nHeight by omega)
    rw [hq, hback]
    rfl

theorem getAncestor_below (hp : p < heap.length) {height : Nat} (h : height ≤ heap.heightOf p) :
    ∃ q, heap.getAncestor p height = .ok (some q) ∧ Ancestor heap.prev q p ∧
      heap.heightOf q = height := by
  obtain ⟨q, hq⟩ := hl.ranked.exists_back (Nat.sub_le (heap.heightOf p) height)
  have hheight := hl.ranked.height_back hq
  refine ⟨q, ?_, ⟨_, hq⟩, by omega⟩
  rw [hl.getAncestor_eq hp, if_neg (by omega), Int.toNat_natCast, hq]

theorem exists_prev (hp : p < heap.length) (h : 0 < heap.heightOf p) :
    ∃ q, heap.prev p = some q ∧ q < heap.length ∧ heap.heightOf p = heap.heightOf q + 1 := by
  cases hprev : heap.prev p with
  | none =>
    have := hl.ranked.root hprev
    omega
  | some q => exact ⟨q, rfl, (hl.older hprev).trans hp, hl.ranked.parent hprev⟩

theorem eq_genesis (hp : p < heap.length) (h : heap.heightOf p = 0) : p = 0 := by
  cases hprev : heap.prev p with
  | none => exact hl.root hp hprev
  | some q =>
    have := hl.ranked.parent hprev
    omega

/-- From two blocks of one height down to the first that they share. -/
theorem lastCommonLoop_spec {pa pb : BlockPtr} {n : Nat} (hpa : pa < heap.length)
    (hpb : pb < heap.length) (ha : heap.heightOf pa = n) (hb : heap.heightOf pb = n) :
    ∃ q, heap.lastCommonLoop (n + 1) (some pa) (some pb) = .ok (some q, some q) ∧
      Highest heap.heightOf
        (fun d => Ancestor heap.prev d pa ∧ Ancestor heap.prev d pb) q := by
  induction n generalizing pa pb with
  | zero =>
    obtain rfl := hl.eq_genesis hpa ha
    obtain rfl := hl.eq_genesis hpb hb
    exact ⟨0, by simp [lastCommonLoop], ⟨.refl 0, .refl 0⟩, fun d hd => hl.ranked.height_le hd.1⟩
  | succ n ih =>
    unfold lastCommonLoop
    by_cases heq : pa = pb
    · subst heq
      exact ⟨pa, by rw [if_pos rfl], ⟨.refl pa, .refl pa⟩, fun d hd => hl.ranked.height_le hd.1⟩
    · obtain ⟨qa, hqa, hlta, hupa⟩ := hl.exists_prev hpa (by omega)
      obtain ⟨qb, hqb, hltb, hupb⟩ := hl.exists_prev hpb (by omega)
      obtain ⟨a, hda, -, -, ha'⟩ := exists_deref hpa
      obtain ⟨b, hdb, -, -, hb'⟩ := exists_deref hpb
      obtain ⟨q, hloop, ⟨haq, hbq⟩, hhigh⟩ := ih hlta hltb (by omega) (by omega)
      refine ⟨q, ?_, ⟨haq.trans (.of_prev hqa), hbq.trans (.of_prev hqb)⟩, fun d hd => ?_⟩
      · rw [if_neg heq, hda, ok_bind, hdb, ok_bind, ← ha', hqa, ← hb', hqb]
        exact hloop
      · -- a common ancestor of this height would be both of them
        have hlt : heap.heightOf d ≠ n + 1 := fun hd' =>
          heq ((hl.ranked.eq_of_height hd.1 (by omega)).symm.trans
            (hl.ranked.eq_of_height hd.2 (by omega)))
        have hle := hl.ranked.height_le hd.1
        exact hhigh d ⟨hl.ranked.ancestor_prev hd.1 (by omega) hqa,
          hl.ranked.ancestor_prev hd.2 (by omega) hqb⟩

/-- `LastCommonAncestor` returns the highest common ancestor. -/
theorem lastCommonAncestor_spec {pa pb : BlockPtr} (hpa : pa < heap.length)
    (hpb : pb < heap.length) :
    ∃ q, heap.lastCommonAncestor pa pb = .ok (some q) ∧
      Highest heap.heightOf
        (fun d => Ancestor heap.prev d pa ∧ Ancestor heap.prev d pb) q := by
  obtain ⟨a, hda, -, ha, -⟩ := exists_deref hpa
  obtain ⟨b, hdb, -, hb, -⟩ := exists_deref hpb
  -- each side is cut down to the height of the lower one
  obtain ⟨qa, hqa, hanca, hheighta⟩ := hl.getAncestor_below hpa
    (show min a.nHeight b.nHeight ≤ heap.heightOf pa by omega)
  obtain ⟨qb, hqb, hancb, hheightb⟩ := hl.getAncestor_below hpb
    (show min a.nHeight b.nHeight ≤ heap.heightOf pb by omega)
  obtain ⟨q, hloop, ⟨haq, hbq⟩, hhigh⟩ := hl.lastCommonLoop_spec (hl.ancestor_lt hanca hpa)
    (hl.ancestor_lt hancb hpb) hheighta hheightb
  refine ⟨q, ?_, ⟨haq.trans hanca, hbq.trans hancb⟩, fun d hd => ?_⟩
  · have hcut : heap.cutTaller pa pb a b = .ok (some qa, some qb) := by
      rw [cutTaller]
      split
      · rw [show min a.nHeight b.nHeight = b.nHeight by omega] at hqa
        rw [hqa, hl.ranked.eq_of_height hancb (by omega)]
        rfl
      · rw [hl.ranked.eq_of_height hanca (by omega)]
        split
        · rw [show min a.nHeight b.nHeight = a.nHeight by omega] at hqb
          rw [hqb]
          rfl
        · rw [hl.ranked.eq_of_height hancb (by omega)]
          rfl
    rw [lastCommonAncestor, hda, ok_bind, hdb, ok_bind, hcut, ok_bind]
    dsimp only
    rw [hloop, ok_bind]
    rw [assert_bind (by simp)]
    rfl
  · have hda := hl.ranked.height_le hd.1
    have hdb := hl.ranked.height_le hd.2
    exact hhigh d ⟨hl.ranked.ancestor_of_le hd.1 hanca (by omega),
      hl.ranked.ancestor_of_le hd.2 hancb (by omega)⟩

end Linked

/-! ## New entries and new skips -/

/-- What was there keeps its links and its height. -/
structure Grows (heap heap' : BlockHeap) : Prop where
  length : heap.length ≤ heap'.length
  prev {p : BlockPtr} : p < heap.length → heap'.prev p = heap.prev p
  height {p : BlockPtr} : p < heap.length → heap'.heightOf p = heap.heightOf p

theorem Grows.back (hg : Grows heap heap') (hl : heap.Linked) (hp : p < heap.length) (n : Nat) :
    back heap'.prev n p = back heap.prev n p := by
  induction n generalizing p with
  | zero => rfl
  | succ n ih =>
    rw [ParentTree.back, ParentTree.back, hg.prev hp]
    cases hprev : heap.prev p with
    | none => rfl
    | some q => exact ih ((hl.older hprev).trans hp)

theorem link_spec (hl : heap.Linked) (h : heap.link p = .ok heap') :
    Grows heap heap' ∧ heap'.Linked := by
  obtain ⟨parent, hparent, h⟩ := bind_ok h
  cases h
  have hlt := lt_of_deref hparent
  have hold {q : BlockPtr} (hq : q < heap.length) {new : BlockNode} :
      (heap ++ [new])[q]? = heap[q]? := List.getElem?_append_left hq
  have hgrows : Grows heap (heap ++ [⟨some p, none, parent.nHeight + 1⟩]) :=
    ⟨by simp, fun hq => by rw [prev, hold hq]; rfl, fun hq => by rw [heightOf, hold hq]; rfl⟩
  have hnew : (heap ++ [(⟨some p, none, parent.nHeight + 1⟩ : BlockNode)])[heap.length]? =
      some ⟨some p, none, parent.nHeight + 1⟩ := by simp
  have hnone {q : BlockPtr} (hq : heap.length < q) {new : BlockNode} :
      (heap ++ [new])[q]? = none := List.getElem?_eq_none (by simp; omega)
  have hprev : prev (heap ++ [⟨some p, none, parent.nHeight + 1⟩]) heap.length = some p := by
    rw [prev, hnew]
    rfl
  have hheight : heightOf (heap ++ [⟨some p, none, parent.nHeight + 1⟩]) heap.length =
      heap.heightOf p + 1 := by
    rw [heightOf, hnew, heightOf, deref_ok.mp hparent]
    rfl
  refine ⟨hgrows, ⟨fun {q} hq => ?_, fun {q r} hq => ?_⟩, fun {q r} hq => ?_, fun {q} hq hnil => ?_,
    fun {q r node} hq hskip => ?_⟩
  all_goals obtain hlen | rfl | hlen := lt_trichotomy q heap.length
  · rw [hgrows.height hlen, hl.ranked.root (by rwa [hgrows.prev hlen] at hq)]
  · rw [hprev] at hq
    cases hq
  · rw [heightOf, hnone hlen]
    rfl
  · rw [hgrows.prev hlen] at hq
    rw [hgrows.height hlen, hgrows.height ((hl.older hq).trans hlen), hl.ranked.parent hq]
  · rw [hprev] at hq
    cases hq
    rw [hheight, hgrows.height hlt]
  · rw [prev, hnone hlen] at hq
    cases hq
  · exact hl.older (by rwa [hgrows.prev hlen] at hq)
  · rw [hprev] at hq
    cases hq
    exact hlt
  · rw [prev, hnone hlen] at hq
    cases hq
  · exact hl.root hlen (by rwa [hgrows.prev hlen] at hnil)
  · rw [hprev] at hnil
    cases hnil
  · rw [List.length_append, List.length_singleton] at hq
    exact absurd hlen (Nat.lt_succ_iff.mp hq).not_gt
  · rw [hgrows.back hl hlen]
    exact hl.skip (by rwa [hold hlen] at hq) hskip
  · rw [hnew] at hq
    cases hq
    cases hskip
  · rw [hnone hlen] at hq
    cases hq

section SetSkip

variable {node : BlockNode} (hnode : heap[p]? = some node) (pskip : Option BlockPtr)

include hnode

theorem getElem?_setSkip (q : BlockPtr) : (heap.set p { node with pskip })[q]? =
    if q = p then some { node with pskip } else heap[q]? := by
  have hlt : p < heap.length := (List.getElem?_eq_some_iff.mp hnode).1
  rw [List.getElem?_set]
  by_cases hq : q = p
  · rw [if_pos hq.symm, if_pos hq, if_pos (hq ▸ hlt)]
  · rw [if_neg (Ne.symm hq), if_neg hq]

theorem prev_setSkip : prev (heap.set p { node with pskip }) = heap.prev := by
  funext q
  rw [prev, prev, getElem?_setSkip hnode pskip]
  split
  · rename_i hq
    rw [hq, hnode]
    rfl
  · rfl

theorem heightOf_setSkip : heightOf (heap.set p { node with pskip }) = heap.heightOf := by
  funext q
  rw [heightOf, heightOf, getElem?_setSkip hnode pskip]
  split
  · rename_i hq
    rw [hq, hnode]
    rfl
  · rfl

end SetSkip

/-- The ancestor of the parent at the height of the skip is one of the block. -/
theorem back_of_buildSkip {node : BlockNode} {parent r : BlockPtr} (hl : heap.Linked)
    (hnode : heap[p]? = some node) (hpprev : node.pprev = some parent)
    (hskip : heap.getAncestor parent (getSkipHeight node.nHeight) = .ok (some r)) :
    back heap.prev (node.nHeight - getSkipHeight node.nHeight) p = some r := by
  have hlt : p < heap.length := (List.getElem?_eq_some_iff.mp hnode).1
  have hup : heap.prev p = some parent := by
    rw [prev, hnode]
    exact hpprev
  have hparent := hl.ranked.parent hup
  have hheight : heap.heightOf p = node.nHeight := by
    rw [heightOf, hnode]
    rfl
  have hlow := getSkipHeight_lt (show 0 < node.nHeight by omega)
  rw [hl.getAncestor_eq ((hl.older hup).trans hlt), if_neg (by omega)] at hskip
  rw [show node.nHeight - getSkipHeight node.nHeight =
    (heap.heightOf parent - getSkipHeight node.nHeight) + 1 by omega, back_succ hup]
  simpa using hskip

theorem buildSkip_spec (hl : heap.Linked) (h : heap.buildSkip p = .ok heap') :
    Grows heap heap' ∧ heap'.Linked := by
  obtain ⟨node, hderef, h⟩ := bind_ok h
  have hnode := deref_ok.mp hderef
  split at h
  · cases h
    exact ⟨⟨le_refl _, fun _ => rfl, fun _ => rfl⟩, hl⟩
  · rename_i parent hpprev
    obtain ⟨pskip, hskip, h⟩ := bind_ok h
    cases h
    have hprev := prev_setSkip hnode pskip
    have hheight := heightOf_setSkip hnode pskip
    refine ⟨⟨by rw [List.length_set], fun _ => by rw [hprev], fun _ => by rw [hheight]⟩, ?_, ?_, ?_,
      fun {q r n} hq hr => ?_⟩
    · rw [hprev, hheight]
      exact hl.ranked
    · rw [hprev]
      exact hl.older
    · rw [hprev, List.length_set]
      exact hl.root
    · rw [hprev]
      rw [getElem?_setSkip hnode pskip] at hq
      split at hq
      · rename_i heq
        cases hq
        subst heq
        obtain rfl : pskip = some r := hr
        have hback := back_of_buildSkip hl hnode hpprev hskip
        exact hback
      · exact hl.skip hq hr

end BlockHeap

/-! ## The active chain -/

namespace BlockTree

open BlockHeap

/-- The vector of a chain: the ancestors of its tip by height. -/
structure ChainOf (heap : BlockHeap) (tip : Option BlockPtr) (vChain : List (Option BlockPtr)) :
    Prop where
  empty : tip = none → vChain = []
  inside {t : BlockPtr} : tip = some t → t < heap.length
  length {t : BlockPtr} : tip = some t → vChain.length = heap.heightOf t + 1
  entry {t : BlockPtr} : tip = some t → ∀ i ≤ heap.heightOf t,
    vChain[i]? = some (back heap.prev (heap.heightOf t - i) t)

/-- Below an entry of the vector stand its ancestors. -/
def Downward (heap : BlockHeap) (vChain : List (Option BlockPtr)) (n : Nat) : Prop :=
  ∀ i x, i < n → vChain[i]? = some (some x) →
    ∀ j ≤ i, vChain[j]? = some (back heap.prev (i - j) x)

variable {heap heap' : BlockHeap} {tip : Option BlockPtr} {vChain : List (Option BlockPtr)}
  {t : BlockPtr} {s s' : BlockTree}

theorem ChainOf.grows (hc : ChainOf heap tip vChain) (hl : heap.Linked) (hg : Grows heap heap') :
    ChainOf heap' tip vChain where
  empty := hc.empty
  inside ht := (hc.inside ht).trans_le hg.length
  length ht := by rw [hg.height (hc.inside ht), hc.length ht]
  entry ht i hi := by
    rw [hg.height (hc.inside ht)] at hi ⊢
    rw [hg.back hl (hc.inside ht), hc.entry ht i hi]

theorem ChainOf.downward (hc : ChainOf heap tip vChain) (n : Nat) :
    Downward heap (resize vChain n) n := by
  intro i x hi hx j hj
  have hold {k : Nat} (hk : k < n) (hlen : k < vChain.length) :
      (resize vChain n)[k]? = vChain[k]? := by
    rw [resize, List.getElem?_append_left (by rw [List.length_take]; omega),
      List.getElem?_take_of_lt hk]
  by_cases hlen : i < vChain.length
  · rw [hold hi hlen] at hx
    rw [hold (by omega) (by omega)]
    cases htip : tip with
    | none =>
      rw [hc.empty htip] at hlen
      exact absurd hlen (Nat.not_lt_zero i)
    | some t =>
      have hheight := hc.length htip
      rw [hc.entry htip i (by omega)] at hx
      rw [hc.entry htip j (by omega), ← back_add (Option.some.inj hx),
        show heap.heightOf t - j = heap.heightOf t - i + (i - j) by omega]
  · rw [resize, List.getElem?_append_right (by rw [List.length_take]; omega),
      List.getElem?_replicate] at hx
    split at hx
    · cases hx
    · cases hx

theorem ChainOf.of_entries (ht : t < heap.length) (hlen : vChain.length = heap.heightOf t + 1)
    (hentry : ∀ i ≤ heap.heightOf t, vChain[i]? = some (back heap.prev (heap.heightOf t - i) t)) :
    ChainOf heap (some t) vChain := by
  refine ⟨fun h => ?_, fun h => ?_, fun h => ?_, fun h => ?_⟩
  all_goals cases h
  · exact ht
  · exact hlen
  · exact hentry

/-- The loop writes the ancestors of the tip, down to one that is there. -/
theorem setTipLoop_spec (hl : heap.Linked) (ht : t < heap.length) {n : Nat} {p : BlockPtr}
    (hlen : vChain.length = heap.heightOf t + 1)
    (hp : back heap.prev (heap.heightOf t - n) t = some p) (hn : heap.heightOf p = n)
    (habove : ∀ i ≤ heap.heightOf t, n < i →
      vChain[i]? = some (back heap.prev (heap.heightOf t - i) t))
    (hbelow : Downward heap vChain (n + 1)) :
    ∃ vChain', setTipLoop heap (n + 2) vChain (some p) = .ok vChain' ∧
      ChainOf heap (some t) vChain' := by
  induction n using Nat.strong_induction_on generalizing p vChain with
  | _ n ih =>
    have hpt := hl.ranked.height_back hp
    have hplt := hl.ancestor_lt ⟨_, hp⟩ ht
    obtain ⟨node, hderef, -, hnode, hprev⟩ := exists_deref hplt
    have hget : vChain[node.nHeight]? = some vChain[node.nHeight] :=
      List.getElem?_eq_getElem (by omega)
    rw [setTipLoop, hderef, ok_bind, hget]
    dsimp only
    by_cases hentry : vChain[node.nHeight] = some p
    · -- the rest of the chain is that of the block
      rw [if_neg (by simpa using hentry)]
      refine ⟨vChain, rfl, .of_entries ht hlen fun i hi => ?_⟩
      by_cases hin : n < i
      · exact habove i hi hin
      · rw [hbelow n p (Nat.lt_succ_self n) (by rw [← hn, hnode, hget, hentry]) i (by omega),
          ← back_add hp, show heap.heightOf t - n + (n - i) = heap.heightOf t - i by omega]
    · rw [if_pos hentry]
      have hset {i : Nat} (hi : i ≤ heap.heightOf t) (hni : n ≤ i) :
          (vChain.set node.nHeight (some p))[i]? =
            some (back heap.prev (heap.heightOf t - i) t) := by
        rcases Nat.eq_or_lt_of_le hni with rfl | hlt
        · rw [← hnode, hn, List.getElem?_set_self (by omega), hp]
        · rw [List.getElem?_set_ne (by omega), habove i hi hlt]
      cases hq : node.pprev with
      | none =>
        have hroot := hl.ranked.root (hprev.trans hq)
        exact ⟨_, rfl, .of_entries ht (by rw [List.length_set, hlen]) fun i hi =>
          hset hi (by omega)⟩
      | some q =>
        have hq := hprev.trans hq
        have hup := hl.ranked.parent hq
        have hback : back heap.prev (heap.heightOf t - (n - 1)) t = some q := by
          rw [show heap.heightOf t - (n - 1) = heap.heightOf t - n + 1 by omega, back_add hp,
            back_succ hq]
          rfl
        have hdown : Downward heap (vChain.set node.nHeight (some p)) (n - 1 + 1) := by
          intro i x hi hx j hj
          rw [List.getElem?_set_ne (by omega)] at hx ⊢
          exact hbelow i x (by omega) hx j hj
        obtain ⟨vChain', hloop, hchain⟩ := ih (n - 1) (by omega) (by rw [List.length_set, hlen])
          hback (by omega) (fun i hi hni => hset hi (by omega)) hdown
        refine ⟨vChain', ?_, hchain⟩
        rwa [show n - 1 + 2 = n + 1 by omega] at hloop

/-- `SetTip` leaves the chain of the tip. -/
theorem setTip_spec (hl : s.heap.Linked) (hc : ChainOf s.heap tip s.vChain) {new : Option BlockPtr}
    (h : s.setTip new = .ok s') : s'.heap = s.heap ∧ ChainOf s'.heap new s'.vChain := by
  cases new with
  | none =>
    cases h
    exact ⟨rfl, fun _ => rfl, fun h => (by cases h), fun h => (by cases h), fun h => (by cases h)⟩
  | some t =>
    obtain ⟨node, hderef, h⟩ := bind_ok h
    have ht := lt_of_deref hderef
    obtain ⟨node', hderef', -, hheight, -⟩ := exists_deref ht
    obtain rfl : node' = node := Except.ok.inj (hderef'.symm.trans hderef)
    obtain ⟨vChain, hloop, h⟩ := bind_ok h
    cases h
    have hlen : (resize s.vChain (node'.nHeight + 1)).length = s.heap.heightOf t + 1 := by
      rw [resize, List.length_append, List.length_take, List.length_replicate]
      omega
    obtain ⟨vChain', hloop', hchain⟩ := setTipLoop_spec hl ht hlen
      (by rw [hheight, Nat.sub_self]; rfl) hheight (fun i hi hlt => (by omega))
      (hc.downward (node'.nHeight + 1))
    obtain rfl : vChain' = vChain := Except.ok.inj (hloop'.symm.trans hloop)
    exact ⟨rfl, hchain⟩

/-- What every call keeps. -/
structure Inv (s : BlockTree) (tip : Option BlockPtr) : Prop where
  linked : s.heap.Linked
  chain : ChainOf s.heap tip s.vChain

theorem genesis_inv : Inv genesis none where
  linked := by
    have hprev (p : BlockPtr) : genesis.heap.prev p = none := by
      cases p with
      | zero => rfl
      | succ p => rfl
    have hheight (p : BlockPtr) : genesis.heap.heightOf p = 0 := by
      cases p with
      | zero => rfl
      | succ p => rfl
    refine ⟨⟨fun _ => hheight _, fun h => ?_⟩, fun h => ?_, fun h _ => Nat.lt_one_iff.mp h,
      fun {p q node} h hskip => ?_⟩
    · rw [hprev] at h
      cases h
    · rw [hprev] at h
      cases h
    · cases p with
      | zero =>
        cases h
        cases hskip
      | succ p => cases h
  chain := ⟨fun _ => rfl, fun h => (by cases h), fun h => (by cases h), fun h => (by cases h)⟩

/-- One call. -/
theorem Inv.call (h : Inv s tip) {c : Call} (hcall : s.call c = .ok s') :
    Inv s' (tipAfter tip c) := by
  cases c with
  | link pprev =>
    obtain ⟨heap, hlink, hs⟩ := bind_ok hcall
    cases hs
    obtain ⟨hg, hl⟩ := link_spec h.linked hlink
    exact ⟨hl, h.chain.grows h.linked hg⟩
  | buildSkip pindex =>
    obtain ⟨heap, hbuild, hs⟩ := bind_ok hcall
    cases hs
    obtain ⟨hg, hl⟩ := buildSkip_spec h.linked hbuild
    exact ⟨hl, h.chain.grows h.linked hg⟩
  | setTip pindex =>
    obtain ⟨hheap, hchain⟩ := setTip_spec h.linked h.chain hcall
    exact ⟨hheap ▸ h.linked, hchain⟩

/-- A run of calls. -/
theorem Inv.run (h : Inv s tip) {calls : List Call}
    (hrun : calls.foldlM BlockTree.call s = .ok s') : Inv s' (calls.foldl tipAfter tip) := by
  induction calls generalizing s tip with
  | nil =>
    cases hrun
    exact h
  | cons c calls ih =>
    obtain ⟨u, hcall, hrest⟩ := bind_ok hrun
    exact ih (h.call hcall) hrest

/-- The highest ancestor-or-self in the chain, `none` where there is none. -/
def ForkOf (s : BlockTree) (p : BlockPtr) : Option BlockPtr → Prop
  | some q => Highest s.heap.heightOf
      (fun d => Ancestor s.heap.prev d p ∧ s.contains d = .ok true) q
  | none => ∀ d, Ancestor s.heap.prev d p → s.contains d ≠ .ok true

theorem ForkOf.of_lower {p q : BlockPtr} {r : Option BlockPtr} (h : ForkOf s q r)
    (hq : Ancestor s.heap.prev q p)
    (hlow : ∀ d, Ancestor s.heap.prev d p → s.contains d = .ok true → Ancestor s.heap.prev d q) :
    ForkOf s p r := by
  cases r with
  | none => exact fun d hd hin => h d (hlow d hd hin) hin
  | some f =>
    obtain ⟨⟨hf, hin⟩, hhigh⟩ := h
    exact ⟨⟨hf.trans hq, hin⟩, fun d hd => hhigh d ⟨hlow d hd.1 hd.2, hd.2⟩⟩

section Fork

variable {s : BlockTree} (hs : Inv s tip) {p : BlockPtr}

include hs

/-- The chain contains its tip and the ancestors of it. -/
theorem Inv.contains_iff (hp : p < s.heap.length) :
    ∃ b, s.contains p = .ok b ∧ (b = true ↔ ∃ t, tip = some t ∧ Ancestor s.heap.prev p t) := by
  obtain ⟨node, hderef, -, hheight, -⟩ := exists_deref hp
  refine ⟨_, by rw [contains, hderef, ok_bind]; rfl, ?_⟩
  rw [decide_eq_true_eq, ← hheight]
  constructor
  · intro hentry
    cases htip : tip with
    | none =>
      rw [hs.chain.empty htip] at hentry
      cases hentry
    | some t =>
      have hlt := (List.getElem?_eq_some_iff.mp hentry).1
      rw [hs.chain.length htip] at hlt
      rw [hs.chain.entry htip _ (by omega)] at hentry
      exact ⟨t, rfl, _, Option.some.inj hentry⟩
  · rintro ⟨t, htip, hanc⟩
    rw [hs.chain.entry htip _ (hs.linked.ranked.height_le hanc),
      hs.linked.ranked.back_of_ancestor hanc]

theorem Inv.contains_lt (hp : p < s.heap.length) (h : s.contains p = .ok true) :
    s.heap.heightOf p < s.vChain.length := by
  obtain ⟨b, hb, hiff⟩ := hs.contains_iff hp
  obtain rfl : b = true := Except.ok.inj (hb.symm.trans h)
  obtain ⟨t, htip, hanc⟩ := hiff.mp rfl
  have := hs.linked.ranked.height_le hanc
  rw [hs.chain.length htip]
  omega

theorem Inv.findForkLoop_spec (fuel : Nat) (hp : p < s.heap.length)
    (hfuel : s.heap.heightOf p + 2 ≤ fuel) :
    ∃ r, s.findForkLoop fuel (some p) = .ok r ∧ ForkOf s p r := by
  induction fuel generalizing p with
  | zero => omega
  | succ fuel ih =>
    have hr := hs.linked.ranked
    obtain ⟨b, hb, -⟩ := hs.contains_iff hp
    rw [findForkLoop, hb, ok_bind]
    cases b with
    | true =>
      exact ⟨some p, rfl, ⟨.refl p, hb⟩, fun d hd => hr.height_le hd.1⟩
    | false =>
      have hproper {d : BlockPtr} (hd : Ancestor s.heap.prev d p) (hin : s.contains d = .ok true) :
          s.heap.heightOf d < s.heap.heightOf p := by
        refine lt_of_le_of_ne (hr.height_le hd) fun heq => ?_
        rw [hr.eq_of_height hd heq, hb] at hin
        cases hin
      obtain ⟨node, hderef, -, -, hprev⟩ := exists_deref hp
      rw [if_neg (by simp), hderef, ok_bind]
      cases hq : node.pprev with
      | none =>
        have hroot := hr.root (hprev.trans hq)
        obtain ⟨fuel, rfl⟩ := Nat.exists_eq_add_of_le' (show 1 ≤ fuel by omega)
        refine ⟨none, rfl, fun d hd hin => ?_⟩
        have := hproper hd hin
        omega
      | some q =>
        have hq := hprev.trans hq
        have hup := hr.parent hq
        obtain ⟨r, hloop, hfork⟩ := ih ((hs.linked.older hq).trans hp) (by omega)
        exact ⟨r, hloop, hfork.of_lower (.of_prev hq)
          fun d hd hin => hr.ancestor_prev hd (hproper hd hin) hq⟩

/-- `FindFork` returns the highest ancestor-or-self in the chain. -/
theorem Inv.findFork_spec (hp : p < s.heap.length) :
    ∃ r, s.findFork (some p) = .ok r ∧ ForkOf s p r := by
  obtain ⟨node, hderef, -, hheight, -⟩ := exists_deref hp
  have hr := hs.linked.ranked
  rw [findFork, hderef, ok_bind]
  by_cases habove : (node.nHeight : Int) > s.height
  · rw [if_pos habove]
    rw [height] at habove ⊢
    cases hlen : s.vChain.length with
    | zero =>
      rw [hs.linked.getAncestor_eq hp, if_pos (by omega)]
      refine ⟨none, rfl, fun d hd hin => ?_⟩
      have := hs.contains_lt (hs.linked.ancestor_lt hd hp) hin
      omega
    | succ n =>
      obtain ⟨q, hq, hanc, hqheight⟩ := hs.linked.getAncestor_below hp
        (show n ≤ s.heap.heightOf p by omega)
      obtain ⟨r, hloop, hfork⟩ := hs.findForkLoop_spec (node.nHeight + 2)
        (hs.linked.ancestor_lt hanc hp) (by omega)
      refine ⟨r, ?_, hfork.of_lower hanc fun d hd hin => ?_⟩
      · rw [show ((n + 1 : Nat) : Int) - 1 = (n : Nat) by omega, hq]
        exact hloop
      · have := hs.contains_lt (hs.linked.ancestor_lt hd hp) hin
        exact hr.ancestor_of_le hd hanc (by omega)
  · rw [if_neg habove]
    obtain ⟨r, hloop, hfork⟩ := hs.findForkLoop_spec (node.nHeight + 2) hp (by omega)
    exact ⟨r, hloop, hfork⟩

end Fork

/-- The block index and the chain after any calls: `GetAncestor` follows `pprev`,
`LastCommonAncestor` finds the highest common ancestor, the chain contains the
ancestors of the last tip and `FindFork` finds the highest block in it. -/
theorem skip_list_transparent (calls : List Call) {s : BlockTree}
    (hrun : calls.foldlM BlockTree.call genesis = .ok s) :
    (∀ p < s.heap.length, ∀ height : Int, s.heap.getAncestor p height = .ok
      (if height > s.heap.heightOf p ∨ height < 0 then none
       else back s.heap.prev (s.heap.heightOf p - height.toNat) p)) ∧
    (∀ pa < s.heap.length, ∀ pb < s.heap.length, ∃ q,
      s.heap.lastCommonAncestor pa pb = .ok (some q) ∧
      Highest s.heap.heightOf
        (fun d => Ancestor s.heap.prev d pa ∧ Ancestor s.heap.prev d pb) q) ∧
    (∀ p < s.heap.length, ∃ b, s.contains p = .ok b ∧
      (b = true ↔ ∃ t, calls.foldl tipAfter none = some t ∧ Ancestor s.heap.prev p t)) ∧
    ∀ p < s.heap.length, ∃ r, s.findFork (some p) = .ok r ∧ ForkOf s p r := by
  have hs := genesis_inv.run hrun
  exact ⟨fun p hp height => hs.linked.getAncestor_eq hp height,
    fun pa hpa pb hpb => hs.linked.lastCommonAncestor_spec hpa hpb,
    fun p hp => hs.contains_iff hp, fun p hp => hs.findFork_spec hp⟩

/-- Two branches over block 1, and a chain that moves from one to the other. -/
theorem skip_list_of_branches : ∃ s,
    [Call.link 0, .buildSkip 1, .link 1, .buildSkip 2, .link 1, .buildSkip 3, .setTip (some 2),
      .setTip (some 3)].foldlM BlockTree.call genesis = .ok s ∧
      s.vChain = [some 0, some 1, some 3] ∧
      s.heap.getAncestor 2 0 = .ok (back s.heap.prev 2 2) ∧
      ∃ r, s.findFork (some 2) = .ok r ∧ ForkOf s 2 r := by
  have hrun : [Call.link 0, .buildSkip 1, .link 1, .buildSkip 2, .link 1, .buildSkip 3,
      .setTip (some 2), .setTip (some 3)].foldlM BlockTree.call genesis =
      .ok ⟨[⟨none, none, 0⟩, ⟨some 0, some 0, 1⟩, ⟨some 1, some 0, 2⟩, ⟨some 1, some 0, 2⟩],
        [some 0, some 1, some 3]⟩ := by
    simp [call, link, deref, buildSkip, BlockHeap.getAncestor, ancestorLoop, getSkipHeight,
      invertLowestOne, genesis, setTip, setTipLoop, resize, bind, Except.bind, pure, Except.pure]
  obtain ⟨hancestor, -, -, hfork⟩ := skip_list_transparent _ hrun
  exact ⟨_, hrun, rfl, hancestor 2 (by decide) 0, hfork 2 (by decide)⟩

end BlockTree

end junkcoin
