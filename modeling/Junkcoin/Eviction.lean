-- `CConnman::AttemptToEvictConnection`: which connections are safe when the
-- node makes room for a new one. `std::sort` may leave elements that compare
-- equal in any order, so it is any sort.
import Junkcoin.Lib.Ranked
import Mathlib.Data.List.Nodup
import Mathlib.Logic.Function.Basic

namespace junkcoin

open WeakOrder

variable {l candidates : List NodeEvictionCandidate} {less : Comparator}
  {node : NodeEvictionCandidate} (a b c : NodeEvictionCandidate)

/-! ## Candidates and their orders -/

/-- The part of `CNode` that eviction reads. -/
structure ConnectedNode where
  id : Int
  fInbound : Bool
  fWhitelisted : Bool
  fDisconnect : Bool
  nTimeConnected : Int
  nMinPingUsecTime : Int
  nLastBlockTime : Int
  nLastTXTime : Int
  nServices : BitVec 64
  fRelayTxes : Bool
  /-- The peer has loaded a filter. -/
  pfilter : Bool
  nKeyedNetGroup : BitVec 64
  deriving DecidableEq

structure NodeEvictionCandidate where
  id : Int
  nTimeConnected : Int
  nMinPingUsecTime : Int
  nLastBlockTime : Int
  nLastTXTime : Int
  fRelevantServices : Bool
  fRelayTxes : Bool
  fBloomFilter : Bool
  nKeyedNetGroup : BitVec 64
  deriving DecidableEq

abbrev Comparator := NodeEvictionCandidate → NodeEvictionCandidate → Bool

def reverseCompareNodeMinPingTime : Comparator := fun a b =>
  a.nMinPingUsecTime > b.nMinPingUsecTime

def reverseCompareNodeTimeConnected : Comparator := fun a b =>
  a.nTimeConnected > b.nTimeConnected

def compareNetGroupKeyed : Comparator := fun a b => a.nKeyedNetGroup < b.nKeyedNetGroup

def compareNodeBlockTime : Comparator := fun a b =>
  if a.nLastBlockTime ≠ b.nLastBlockTime then a.nLastBlockTime < b.nLastBlockTime
  else if a.fRelevantServices ≠ b.fRelevantServices then b.fRelevantServices
  else a.nTimeConnected > b.nTimeConnected

def compareNodeTXTime : Comparator := fun a b =>
  if a.nLastTXTime ≠ b.nLastTXTime then a.nLastTXTime < b.nLastTXTime
  else if a.fRelayTxes ≠ b.fRelayTxes then b.fRelayTxes
  else if a.fBloomFilter ≠ b.fBloomFilter then a.fBloomFilter
  else a.nTimeConnected > b.nTimeConnected

/-! ## `AttemptToEvictConnection` -/

abbrev StdSort := Ranked.Sorter NodeEvictionCandidate

def ConnectedNode.candidate (nRelevantServices : BitVec 64) (node : ConnectedNode) :
    NodeEvictionCandidate where
  id := node.id
  nTimeConnected := node.nTimeConnected
  nMinPingUsecTime := node.nMinPingUsecTime
  nLastBlockTime := node.nLastBlockTime
  nLastTXTime := node.nLastTXTime
  fRelevantServices := node.nServices &&& nRelevantServices == nRelevantServices
  fRelayTxes := node.fRelayTxes
  fBloomFilter := node.pfilter
  nKeyedNetGroup := node.nKeyedNetGroup

/-- Whether a node may be evicted at all. -/
def ConnectedNode.evictable (node : ConnectedNode) : Bool :=
  !node.fWhitelisted && node.fInbound && !node.fDisconnect

def evictionCandidates (nRelevantServices : BitVec 64) (vNodes : List ConnectedNode) :
    List NodeEvictionCandidate :=
  (vNodes.filter ConnectedNode.evictable).map (ConnectedNode.candidate nRelevantServices)

/-- The network groups while they are counted. `naMostConnections` has no
value at the start. -/
structure NetGroups where
  mapNetGroupNodes : BitVec 64 → List NodeEvictionCandidate := fun _ => []
  naMostConnections : Option (BitVec 64) := none
  nMostConnections : Nat := 0
  nMostConnectionsTime : Int := 0

def NetGroups.add (s : NetGroups) (node : NodeEvictionCandidate) : NetGroups :=
  let group := s.mapNetGroupNodes node.nKeyedNetGroup ++ [node]
  let grouptime := (group.head?.map (·.nTimeConnected)).getD 0
  let s : NetGroups := { s with
    mapNetGroupNodes := Function.update s.mapNetGroupNodes node.nKeyedNetGroup group }
  if group.length > s.nMostConnections ∨
      group.length = s.nMostConnections ∧ grouptime > s.nMostConnectionsTime then
    { s with
      nMostConnections := group.length
      nMostConnectionsTime := grouptime
      naMostConnections := some node.nKeyedNetGroup }
  else s

/-- The first node of the group with the most connections. -/
def frontOfLargestGroup (l : List NodeEvictionCandidate) : Option NodeEvictionCandidate :=
  let s := l.foldl NetGroups.add {}
  s.naMostConnections.bind fun na => (s.mapNetGroupNodes na).head?

/-- `if (vEvictionCandidates.empty()) return false`. -/
def unlessEmpty (l : List NodeEvictionCandidate) : Option (List NodeEvictionCandidate) :=
  if l.isEmpty then none else some l

/-- `AttemptToEvictConnection` up to the choice of the node. -/
def selectNodeToEvict (S : StdSort) (vEvictionCandidates : List NodeEvictionCandidate) :
    Option NodeEvictionCandidate := do
  let l ← unlessEmpty vEvictionCandidates
  let l ← unlessEmpty (Ranked.cut 4 (S.sort compareNetGroupKeyed l))
  let l ← unlessEmpty (Ranked.cut 8 (S.sort reverseCompareNodeMinPingTime l))
  let l ← unlessEmpty (Ranked.cut 4 (S.sort compareNodeTXTime l))
  let l ← unlessEmpty (Ranked.cut 4 (S.sort compareNodeBlockTime l))
  let l ← unlessEmpty (Ranked.cut (l.length / 2) (S.sort reverseCompareNodeTimeConnected l))
  frontOfLargestGroup l

/-- The first node with the id is told to disconnect. -/
def disconnectNode (evicted : Int) : List ConnectedNode → Bool × List ConnectedNode
  | [] => (false, [])
  | node :: vNodes =>
    if node.id = evicted then (true, { node with fDisconnect := true } :: vNodes)
    else ((disconnectNode evicted vNodes).1, node :: (disconnectNode evicted vNodes).2)

/-- `CConnman::AttemptToEvictConnection`. -/
def attemptToEvictConnection (S : StdSort) (nRelevantServices : BitVec 64)
    (vNodes : List ConnectedNode) : Bool × List ConnectedNode :=
  match selectNodeToEvict S (evictionCandidates nRelevantServices vNodes) with
  | none => (false, vNodes)
  | some evicted => disconnectNode evicted.id vNodes

/-! ## The comparators are strict weak orders -/

theorem lawsAt_minPing : LawsAt reverseCompareNodeMinPingTime a b c :=
  lawsAt_of_total_key (fun n => -n.nMinPingUsecTime)
    (by simp [reverseCompareNodeMinPingTime])

theorem lawsAt_timeConnected : LawsAt reverseCompareNodeTimeConnected a b c :=
  lawsAt_of_total_key (fun n => -n.nTimeConnected)
    (by simp [reverseCompareNodeTimeConnected])

theorem lawsAt_netGroup : LawsAt compareNetGroupKeyed a b c :=
  lawsAt_of_total_key (fun n => n.nKeyedNetGroup.toNat)
    (by simp [compareNetGroupKeyed, BitVec.lt_def])

theorem lawsAt_blockTime : LawsAt compareNodeBlockTime a b c := by
  refine lawsAt_of_total_key
    (fun n => toLex (n.nLastBlockTime, toLex (n.fRelevantServices, -n.nTimeConnected)))
    (fun x y => ?_)
  rw [compareNodeBlockTime, Prod.Lex.toLex_lt_toLex, Prod.Lex.toLex_lt_toLex]
  rcases lt_trichotomy x.nLastBlockTime y.nLastBlockTime with h | h | h
  · simp [h, h.ne]
  · cases x.fRelevantServices <;> cases y.fRelevantServices <;> simp [h]
  · simp [h.ne', h.not_gt]

theorem lawsAt_txTime : LawsAt compareNodeTXTime a b c := by
  refine lawsAt_of_total_key
    (fun n => toLex (n.nLastTXTime, toLex (n.fRelayTxes,
      toLex (!n.fBloomFilter, -n.nTimeConnected)))) (fun x y => ?_)
  rw [compareNodeTXTime, Prod.Lex.toLex_lt_toLex, Prod.Lex.toLex_lt_toLex,
    Prod.Lex.toLex_lt_toLex]
  rcases lt_trichotomy x.nLastTXTime y.nLastTXTime with h | h | h
  · simp [h, h.ne]
  · cases x.fRelayTxes <;> cases y.fRelayTxes <;> cases x.fBloomFilter <;>
      cases y.fBloomFilter <;> simp [h]
  · simp [h.ne', h.not_gt]

/-! ## One cut -/

/-- What is left of the candidates has no node twice. -/
structure LeftOf (candidates l : List NodeEvictionCandidate) : Prop where
  nodup : l.Nodup
  subperm : l.Subperm candidates

theorem LeftOf.cut (h : LeftOf candidates l) (S : StdSort)
    (hless : ∀ a b c, LawsAt less a b c) (k : Nat) :
    LeftOf candidates (Ranked.cut k (S.sort less l)) where
  nodup := ((S.sorts less hless l).1.nodup_iff.mpr h.nodup).sublist (Ranked.cut_sublist _ _)
  subperm := ((Ranked.cut_sublist k _).subperm.trans (S.sorts less hless l).1.subperm).trans
    h.subperm

/-- The other candidates that `less` does not put below a node. -/
def others (worse : Comparator) (node : NodeEvictionCandidate) (l : List NodeEvictionCandidate) :
    List NodeEvictionCandidate :=
  l.filter fun other => decide (other ≠ node) && !worse other node

/-- A node that is better than all but fewer than `k` of the candidates is
cut off, whatever has been removed before. -/
theorem LeftOf.not_mem_cut (h : LeftOf candidates l) (S : StdSort) {worse : Comparator}
    (hless : ∀ a b c, LawsAt less a b c)
    (hworse : ∀ a b, worse a b = true → less a b = true) {k : Nat}
    (hfew : (others worse node candidates).length < k) : node ∉ Ranked.cut k (S.sort less l) := by
  obtain ⟨hperm, hsorted⟩ := S.sorts less hless l
  refine Ranked.not_mem_cut hsorted (hperm.nodup_iff.mpr h.nodup) (lt_of_le_of_lt ?_ hfew)
  rw [(hperm.filter _).length_eq]
  refine le_trans ?_ ((h.subperm.filter _).length_le)
  refine (List.monotone_filter_right l fun other hother => ?_).length_le
  simp only [Bool.and_eq_true, Bool.not_eq_true'] at hother ⊢
  refine ⟨hother.1, ?_⟩
  cases hw : worse other node with
  | false => rfl
  | true => rw [hworse _ _ hw] at hother; exact hother.2

/-! ## The chosen node -/

theorem mem_of_foldl_add {s : NetGroups} {g : BitVec 64}
    (h : node ∈ (l.foldl NetGroups.add s).mapNetGroupNodes g) :
    node ∈ s.mapNetGroupNodes g ∨ node ∈ l := by
  induction l generalizing s with
  | nil => exact Or.inl h
  | cons first l ih =>
    have hadd : (s.add first).mapNetGroupNodes = Function.update s.mapNetGroupNodes
        first.nKeyedNetGroup (s.mapNetGroupNodes first.nKeyedNetGroup ++ [first]) := by
      rw [NetGroups.add]
      split <;> rfl
    rcases ih h with hs | hl
    · rw [hadd, Function.update_apply] at hs
      split at hs
      · rename_i hg
        rw [List.mem_append, List.mem_singleton] at hs
        rcases hs with hs | rfl
        · exact Or.inl (hg ▸ hs)
        · exact Or.inr (List.mem_cons_self ..)
      · exact Or.inl hs
    · exact Or.inr (List.mem_cons_of_mem _ hl)

theorem mem_of_frontOfLargestGroup (h : frontOfLargestGroup l = some node) : node ∈ l := by
  obtain ⟨na, -, hfront⟩ := Option.bind_eq_some_iff.mp h
  exact (mem_of_foldl_add (List.mem_of_mem_head? hfront)).resolve_left (by simp)

theorem unlessEmpty_eq_some {l' : List NodeEvictionCandidate} (h : unlessEmpty l = some l') :
    l' = l := by
  rw [unlessEmpty] at h
  split at h
  · cases h
  · cases h
    rfl

/-- The chosen node is a candidate, and none of the best. -/
theorem selectNodeToEvict_spec {S : StdSort} (hnodup : candidates.Nodup)
    (h : selectNodeToEvict S candidates = some node) :
    node ∈ candidates ∧
      8 ≤ (others (fun a b => a.nMinPingUsecTime > b.nMinPingUsecTime) node candidates).length ∧
      4 ≤ (others (fun a b => a.nLastTXTime < b.nLastTXTime) node candidates).length ∧
      4 ≤ (others (fun a b => a.nLastBlockTime < b.nLastBlockTime) node candidates).length := by
  simp only [selectNodeToEvict, Option.bind_eq_bind, Option.bind_eq_some_iff] at h
  obtain ⟨l0, h0, l1, h1, l2, h2, l3, h3, l4, h4, l5, h5, hfront⟩ := h
  obtain rfl := unlessEmpty_eq_some h0
  obtain rfl := unlessEmpty_eq_some h1
  obtain rfl := unlessEmpty_eq_some h2
  obtain rfl := unlessEmpty_eq_some h3
  obtain rfl := unlessEmpty_eq_some h4
  obtain rfl := unlessEmpty_eq_some h5
  have hleft0 : LeftOf l0 l0 := ⟨hnodup, List.Subperm.refl _⟩
  have hleft1 := hleft0.cut S lawsAt_netGroup 4
  have hleft2 := hleft1.cut S lawsAt_minPing 8
  have hleft3 := hleft2.cut S lawsAt_txTime 4
  have hmem (less : Comparator) (hless : ∀ a b c, LawsAt less a b c) (k : Nat)
      (l : List NodeEvictionCandidate) (hin : node ∈ Ranked.cut k (S.sort less l)) : node ∈ l :=
    (S.sorts less hless l).1.subset ((Ranked.cut_sublist _ _).subset hin)
  have hin4 := hmem _ lawsAt_timeConnected _ _ (mem_of_frontOfLargestGroup hfront)
  have hin3 := hmem _ lawsAt_blockTime _ _ hin4
  have hin2 := hmem _ lawsAt_txTime _ _ hin3
  refine ⟨hmem _ lawsAt_netGroup _ _ (hmem _ lawsAt_minPing _ _ hin2), ?_, ?_, ?_⟩
  · refine not_lt.mp fun hfew => hleft1.not_mem_cut S lawsAt_minPing (fun a b hab => ?_) hfew hin2
    exact hab
  · refine not_lt.mp fun hfew => hleft2.not_mem_cut S lawsAt_txTime (fun a b hab => ?_) hfew hin3
    rw [decide_eq_true_eq] at hab
    simp [compareNodeTXTime, hab.ne, hab]
  · refine not_lt.mp fun hfew => hleft3.not_mem_cut S lawsAt_blockTime (fun a b hab => ?_) hfew hin4
    rw [decide_eq_true_eq] at hab
    simp [compareNodeBlockTime, hab.ne, hab]

/-! ## Protected connections -/

/-- How many other evictable nodes are as good as a node. -/
def rivals (vNodes : List ConnectedNode) (node : ConnectedNode)
    (asGood : ConnectedNode → ConnectedNode → Bool) : Nat :=
  (vNodes.filter fun other =>
    other.evictable && decide (other.id ≠ node.id) && asGood other node).length

/-- The connections that are never evicted: those that are no candidates, and
candidates that are better in one respect than all but a few others. -/
def Protected (vNodes : List ConnectedNode) (node : ConnectedNode) : Prop :=
  node.fInbound = false ∨ node.fWhitelisted = true ∨ node.fDisconnect = true ∨
    rivals vNodes node (fun other node => !(node.nMinPingUsecTime < other.nMinPingUsecTime)) ≤ 7 ∨
    rivals vNodes node (fun other node => !(other.nLastTXTime < node.nLastTXTime)) ≤ 3 ∨
    rivals vNodes node (fun other node => !(other.nLastBlockTime < node.nLastBlockTime)) ≤ 3

instance (vNodes : List ConnectedNode) (node : ConnectedNode) :
    Decidable (Protected vNodes node) := by
  unfold Protected
  infer_instance

/-- The connected nodes: each has its own id. -/
structure Connections where
  vNodes : List ConnectedNode
  ids : (vNodes.map (·.id)).Nodup

theorem Connections.eq_of_id (s : Connections) {a b : ConnectedNode} (ha : a ∈ s.vNodes)
    (hb : b ∈ s.vNodes) (h : a.id = b.id) : a = b :=
  List.inj_on_of_nodup_map s.ids ha hb h

theorem others_le_rivals (worse : Comparator) (asGood : ConnectedNode → ConnectedNode → Bool)
    (s : Connections) {node : ConnectedNode} (hnode : node ∈ s.vNodes)
    (nRelevantServices : BitVec 64) (h : ∀ other, worse (other.candidate nRelevantServices)
      (node.candidate nRelevantServices) = !asGood other node) :
    (others worse (node.candidate nRelevantServices)
      (evictionCandidates nRelevantServices s.vNodes)).length ≤ rivals s.vNodes node asGood := by
  rw [others, evictionCandidates, List.filter_map, List.length_map, List.filter_filter, rivals]
  rw [← List.countP_eq_length_filter, ← List.countP_eq_length_filter]
  refine List.countP_mono_left fun other hother hcond => ?_
  simp only [Function.comp_apply, h, Bool.not_not, Bool.and_eq_true, decide_eq_true_eq] at hcond ⊢
  refine ⟨⟨hcond.2, fun hid => hcond.1.1 ?_⟩, hcond.1.2⟩
  rw [s.eq_of_id hother hnode hid]

theorem getElem?_disconnectNode {vNodes : List ConnectedNode} {evicted : Int} {i : Nat}
    {node : ConnectedNode} (hi : vNodes[i]? = some node) (hne : node.id ≠ evicted) :
    (disconnectNode evicted vNodes).2[i]? = some node := by
  induction vNodes generalizing i with
  | nil => cases hi
  | cons first vNodes ih =>
    rw [disconnectNode]
    cases i with
    | zero =>
      obtain rfl : first = node := by simpa using hi
      simp [hne]
    | succ i =>
      split
      · exact hi
      · exact ih hi

theorem nodup_evictionCandidates (s : Connections) (nRelevantServices : BitVec 64) :
    (evictionCandidates nRelevantServices s.vNodes).Nodup := by
  have hids : ((evictionCandidates nRelevantServices s.vNodes).map (·.id)).Nodup := by
    rw [evictionCandidates, List.map_map]
    exact s.ids.sublist ((List.filter_sublist).map _)
  exact hids.of_map _

/-- A protected connection is left as it is. -/
theorem protected_not_evicted (S : StdSort) (nRelevantServices : BitVec 64) (s : Connections)
    (i : Nat) (node : ConnectedNode) (hi : s.vNodes[i]? = some node)
    (hprotected : Protected s.vNodes node) :
    (attemptToEvictConnection S nRelevantServices s.vNodes).2[i]? = some node := by
  rw [attemptToEvictConnection]
  have hnode : node ∈ s.vNodes := List.mem_of_getElem? hi
  cases hsel : selectNodeToEvict S (evictionCandidates nRelevantServices s.vNodes) with
  | none => exact hi
  | some evicted =>
    refine getElem?_disconnectNode hi fun hid => ?_
    obtain ⟨hmem, hping, htx, hblock⟩ :=
      selectNodeToEvict_spec (nodup_evictionCandidates s nRelevantServices) hsel
    obtain ⟨n, hn, rfl⟩ := List.mem_map.mp hmem
    obtain ⟨hn, hevictable⟩ := List.mem_filter.mp hn
    obtain rfl : n = node := s.eq_of_id hn hnode hid.symm
    simp only [ConnectedNode.evictable, Bool.and_eq_true, Bool.not_eq_true'] at hevictable
    rcases hprotected with h | h | h | h | h | h
    · rw [hevictable.1.2] at h
      cases h
    · rw [hevictable.1.1] at h
      cases h
    · rw [hevictable.2] at h
      cases h
    · have := others_le_rivals (fun a b => a.nMinPingUsecTime > b.nMinPingUsecTime)
        (fun other node => !(node.nMinPingUsecTime < other.nMinPingUsecTime)) s hn
        nRelevantServices fun other => (Bool.not_not _).symm
      omega
    · have := others_le_rivals (fun a b => a.nLastTXTime < b.nLastTXTime)
        (fun other node => !(other.nLastTXTime < node.nLastTXTime)) s hn
        nRelevantServices fun other => (Bool.not_not _).symm
      omega
    · have := others_le_rivals (fun a b => a.nLastBlockTime < b.nLastBlockTime)
        (fun other node => !(other.nLastBlockTime < node.nLastBlockTime)) s hn
        nRelevantServices fun other => (Bool.not_not _).symm
      omega

/-- An inbound node with nothing but its number as ping time. -/
def sampleConnectedNode (n : Nat) : ConnectedNode :=
  { id := n, fInbound := true, fWhitelisted := false, fDisconnect := false, nTimeConnected := 0,
    nMinPingUsecTime := n, nLastBlockTime := 0, nLastTXTime := 0, nServices := 0,
    fRelayTxes := false, pfilter := false, nKeyedNetGroup := n }

def sampleConnections : Connections where
  vNodes := (List.range 24).map sampleConnectedNode
  ids := by decide

/-- Of 24 nodes the one with the eighth lowest ping time is safe. -/
theorem protected_not_evicted_eighth_ping :
    Protected sampleConnections.vNodes (sampleConnectedNode 7) ∧
      (attemptToEvictConnection Ranked.insertionSorter 0 sampleConnections.vNodes).2[7]? =
        some (sampleConnectedNode 7) :=
  have h : Protected sampleConnections.vNodes (sampleConnectedNode 7) := by decide
  ⟨h, protected_not_evicted _ 0 sampleConnections 7 _ (by decide) h⟩

end junkcoin
