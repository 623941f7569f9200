-- `CWallet::GetAddressGroupings` groups the addresses of the wallet that were
-- used together. The groups of the single transactions are merged through
-- shared pointers to sets, which are deleted and pointed to anew on the way.
import Junkcoin.Standard
import Junkcoin.Lib.Components
import Junkcoin.Lib.Heap
import Junkcoin.Lib.OrderedSet
import Mathlib.Algebra.Order.BigOperators.Group.List
import Mathlib.Data.Prod.Lex

namespace junkcoin

open Components Relation OrderedSet

/-! ## The model -/

/-- The order of `CTxDestination`: by the kind, then by the bytes. -/
def CTxDestination.rank : CTxDestination → ℕ ×ₗ List ℕ
  | .noDestination => toLex (0, [])
  | .keyID hash => toLex (1, hash.map UInt8.toNat)
  | .scriptID hash => toLex (2, hash.map UInt8.toNat)

theorem CTxDestination.rank_injective : Function.Injective CTxDestination.rank := by
  have hmap : Function.Injective (List.map UInt8.toNat) :=
    List.map_injective_iff.mpr fun _ _ => UInt8.toNat_inj.mp
  intro d e h
  cases d <;> cases e <;> simp_all [CTxDestination.rank, hmap.eq_iff]

instance : LinearOrder CTxDestination := LinearOrder.lift' CTxDestination.rank
  CTxDestination.rank_injective

/-- `set<CTxDestination>`. -/
abbrev Grouping := OrderedSet CTxDestination

/-- `set<CTxDestination>*`. -/
abbrev Ptr := Nat

/-- What is read of the wallet. `isMine` says whether `::IsMine` gives something
else than `ISMINE_NO` for a script; the keys of `mapWallet` may stand in any
order. -/
structure CWallet where
  mapWallet : Table Uint256 CTransaction
  mapAddressBook : List CTxDestination
  isMine : CScript → Bool

namespace CWallet

variable (hash160 : Valtype → Valtype) (w : CWallet) (s : OrderedSet Grouping × Grouping)

/-- `CWallet::IsMine(const CTxIn&)`. -/
def isMineIn (txin : CTxIn) : Bool :=
  match w.mapWallet.get txin.prevout.hash with
  | none => false
  | some prev =>
    match prev.vout[txin.prevout.n.toNat]? with
    | none => false
    | some out => w.isMine out.scriptPubKey

/-- `CWallet::IsChange`. -/
def isChange (txout : CTxOut) : Bool :=
  if w.isMine txout.scriptPubKey then
    match extractDestination hash160 txout.scriptPubKey with
    | none => true
    | some address => !w.mapAddressBook.contains address
  else false

/-- Group all input addresses with each other: one input, with `any_mine`. -/
def groupInput (s : Grouping × Bool) (txin : CTxIn) : Except Fault (Grouping × Bool) :=
  if w.isMineIn txin then
    match w.mapWallet.get txin.prevout.hash with
    | none => .error .outOfRange
    | some prev =>
      match prev.vout[txin.prevout.n.toNat]? with
      | none => .error .outOfRange
      | some out =>
        match extractDestination hash160 out.scriptPubKey with
        | none => .ok s
        | some address => .ok (s.1.insert address, true)
  else .ok s

/-- Group change with input addresses: one output. -/
def groupChange (grouping : Grouping) (txout : CTxOut) : Grouping :=
  if w.isChange hash160 txout then
    match extractDestination hash160 txout.scriptPubKey with
    | none => grouping
    | some txoutAddr => grouping.insert txoutAddr
  else grouping

/-- Group lone addrs by themselves: one output. -/
def groupLone (txout : CTxOut) : OrderedSet Grouping × Grouping :=
  if w.isMine txout.scriptPubKey then
    match extractDestination hash160 txout.scriptPubKey with
    | none => s
    | some address => (s.1.insert (s.2.insert address), .empty)
  else s

/-- The inputs and the change of one transaction. -/
def groupSpend (tx : CTransaction) : Except Fault (OrderedSet Grouping × Grouping) :=
  if tx.vin.length > 0 then do
    let (grouping, any_mine) ← tx.vin.foldlM (w.groupInput hash160) (s.2, false)
    let grouping := if any_mine then tx.vout.foldl (w.groupChange hash160) grouping else grouping
    if grouping.toList.length > 0 then .ok (s.1.insert grouping, .empty) else .ok (s.1, grouping)
  else .ok s

/-- One turn of the loop over `mapWallet`. -/
def groupTransaction (hash : Uint256) : Except Fault (OrderedSet Grouping × Grouping) :=
  match w.mapWallet.get hash with
  | none => .ok s
  | some tx => do
    let s ← w.groupSpend hash160 s tx
    .ok (tx.vout.foldl (w.groupLone hash160) s)

end CWallet

/-- The variables of the second half of `GetAddressGroupings`. -/
structure Merging where
  heap : Heap Grouping
  uniqueGroupings : OrderedSet Ptr
  setmap : CTxDestination → Option Ptr

namespace Merging

/-- Make a set of all the groups hit by this new group. -/
def hits (setmap : CTxDestination → Option Ptr) (grouping : Grouping) : OrderedSet Ptr :=
  grouping.toList.foldl (fun hits address =>
    match setmap address with
    | none => hits
    | some p => hits.insert p) .empty

/-- Merge all hit groups into a new single group and delete old groups. -/
def mergeHits (merged : Ptr) :
    List Ptr → Heap Grouping × OrderedSet Ptr → Except Fault (Heap Grouping × OrderedSet Ptr)
  | [], s => .ok s
  | hit :: hits, (heap, uniqueGroupings) => do
    let heap ← heap.write merged ((← heap.read merged).insertAll (← heap.read hit))
    mergeHits merged hits (← heap.delete hit, uniqueGroupings.erase hit)

/-- Update setmap. -/
def pointTo (merged : Ptr) (elements : List CTxDestination)
    (setmap : CTxDestination → Option Ptr) : CTxDestination → Option Ptr :=
  elements.foldl (fun setmap element => Function.update setmap element (some merged)) setmap

/-- One turn of the loop over `groupings`. -/
def mergeGrouping (A : Allocator Grouping) (s : Merging) (grouping : Grouping) :
    Except Fault Merging := do
  let merged := A.address s.heap
  let (heap, uniqueGroupings) ← mergeHits merged (hits s.setmap grouping).toList
    (s.heap.new A grouping, s.uniqueGroupings)
  let elements ← heap.read merged
  .ok ⟨heap, uniqueGroupings.insert merged, pointTo merged elements.toList s.setmap⟩

/-- The last loop: copy each set and delete it. -/
def collect : List Ptr → OrderedSet Grouping × Heap Grouping →
    Except Fault (OrderedSet Grouping × Heap Grouping)
  | [], s => .ok s
  | uniqueGrouping :: rest, (ret, heap) => do
    let grouping ← heap.read uniqueGrouping
    collect rest (ret.insert grouping, ← heap.delete uniqueGrouping)

end Merging

/-- `CWallet::GetAddressGroupings`, with the heap that it leaves behind. -/
def CWallet.getAddressGroupings (hash160 : Valtype → Valtype) (A : Allocator Grouping)
    (w : CWallet) : Except Fault (OrderedSet Grouping × Heap Grouping) := do
  let (groupings, _) ← w.mapWallet.keys.foldlM (w.groupTransaction hash160) (.empty, .empty)
  let s ← groupings.toList.foldlM (Merging.mergeGrouping A) ⟨.empty, .empty, fun _ => none⟩
  Merging.collect s.uniqueGroupings.toList (.empty, s.heap)

/-! ## What the groups are for -/

namespace CWallet

variable (hash160 : Valtype → Valtype) (w : CWallet)

/-- The address of an output that is ours. -/
def ownAddress (out : CTxOut) : Option CTxDestination :=
  if w.isMine out.scriptPubKey then extractDestination hash160 out.scriptPubKey else none

/-- The output of a transaction of the wallet that an input spends. -/
def spentOut (txin : CTxIn) : Option CTxOut :=
  (w.mapWallet.get txin.prevout.hash).bind fun prev => prev.vout[txin.prevout.n.toNat]?

def ownInputAddresses (tx : CTransaction) : List CTxDestination :=
  tx.vin.filterMap fun txin => (w.spentOut txin).bind (w.ownAddress hash160)

def changeAddresses (tx : CTransaction) : List CTxDestination :=
  (tx.vout.filter (w.isChange hash160)).filterMap fun out =>
    extractDestination hash160 out.scriptPubKey

def ownOutputAddresses (tx : CTransaction) : List CTxDestination :=
  tx.vout.filterMap (w.ownAddress hash160)

/-- The addresses that a transaction links: change is linked to the addresses of
the inputs, and to nothing where there are none. -/
def linkedAddresses (tx : CTransaction) : List CTxDestination :=
  if w.ownInputAddresses hash160 tx = [] then []
  else w.ownInputAddresses hash160 tx ++ w.changeAddresses hash160 tx

/-- A transaction of the wallet links two addresses. -/
def LinkedBy (a b : CTxDestination) : Prop :=
  ∃ hash tx, w.mapWallet.get hash = some tx ∧ a ∈ w.linkedAddresses hash160 tx ∧
    b ∈ w.linkedAddresses hash160 tx

/-- An output of a transaction of the wallet pays the address, and is ours. -/
def Mentions (a : CTxDestination) : Prop :=
  ∃ hash tx, w.mapWallet.get hash = some tx ∧ a ∈ w.ownOutputAddresses hash160 tx

/-! ## The groups of the transactions -/

variable {hash160 w} {tx : CTransaction} {a b : CTxDestination}

theorem groupInput_eq (grouping : Grouping) (any_mine : Bool) (txin : CTxIn) :
    w.groupInput hash160 (grouping, any_mine) txin =
      .ok (match (w.spentOut txin).bind (w.ownAddress hash160) with
        | none => (grouping, any_mine)
        | some address => (grouping.insert address, true)) := by
  unfold groupInput isMineIn spentOut ownAddress
  rcases w.mapWallet.get txin.prevout.hash with _ | prev
  · rfl
  · rcases hout : prev.vout[txin.prevout.n.toNat]? with _ | out
    · simp [hout]
    · by_cases hmine : w.isMine out.scriptPubKey = true
      · cases hdest : extractDestination hash160 out.scriptPubKey <;> simp [hout, hmine, hdest]
      · simp [hout, hmine]

/-- The loop over the inputs never reads outside of `mapWallet`. -/
theorem groupInputs_eq (grouping : Grouping) (any_mine : Bool) (vin : List CTxIn) :
    vin.foldlM (w.groupInput hash160) (grouping, any_mine) =
      let own := vin.filterMap fun txin => (w.spentOut txin).bind (w.ownAddress hash160)
      .ok (own.foldl (fun g a => g.insert a) grouping, any_mine || !own.isEmpty) := by
  induction vin generalizing grouping any_mine with
  | nil => simp [pure, Except.pure]
  | cons txin vin ih =>
    rw [List.foldlM_cons, groupInput_eq, ok_bind, List.filterMap_cons]
    cases (w.spentOut txin).bind (w.ownAddress hash160) with
    | none => exact ih grouping any_mine
    | some address =>
      rw [ih]
      simp

theorem groupChanges_eq (grouping : Grouping) (vout : List CTxOut) :
    vout.foldl (w.groupChange hash160) grouping =
      ((vout.filter (w.isChange hash160)).filterMap fun out =>
        extractDestination hash160 out.scriptPubKey).foldl (fun g a => g.insert a) grouping := by
  induction vout generalizing grouping with
  | nil => rfl
  | cons out vout ih =>
    rw [List.foldl_cons, ih, groupChange]
    by_cases hchange : w.isChange hash160 out = true
    · rw [if_pos hchange, List.filter_cons_of_pos hchange, List.filterMap_cons]
      cases extractDestination hash160 out.scriptPubKey <;> rfl
    · rw [if_neg hchange, List.filter_cons_of_neg hchange]

theorem groupLones_eq (groupings : OrderedSet Grouping) (vout : List CTxOut) :
    vout.foldl (w.groupLone hash160) (groupings, .empty) =
      ((vout.filterMap (w.ownAddress hash160)).foldl
        (fun gs a => gs.insert (.ofList [a])) groupings, .empty) := by
  induction vout generalizing groupings with
  | nil => rfl
  | cons out vout ih =>
    rw [List.foldl_cons, List.filterMap_cons, groupLone, ownAddress]
    by_cases hmine : w.isMine out.scriptPubKey = true
    · rw [if_pos hmine, if_pos hmine]
      cases extractDestination hash160 out.scriptPubKey with
      | none => exact ih groupings
      | some address => exact ih _
    · rw [if_neg hmine, if_neg hmine]
      exact ih groupings

theorem groupSpend_eq (groupings : OrderedSet Grouping) :
    w.groupSpend hash160 (groupings, .empty) tx =
      .ok (if w.linkedAddresses hash160 tx = [] then groupings
        else groupings.insert (.ofList (w.linkedAddresses hash160 tx)), .empty) := by
  unfold groupSpend
  cases hown : w.ownInputAddresses hash160 tx with
  | nil =>
    have hlinked : w.linkedAddresses hash160 tx = [] := by rw [linkedAddresses, if_pos hown]
    split
    · unfold ownInputAddresses at hown
      rw [groupInputs_eq, ok_bind, hown]
      rfl
    · rfl
  | cons first own =>
    have hne : ¬ w.ownInputAddresses hash160 tx = [] := by simp [hown]
    have hlinked : w.linkedAddresses hash160 tx =
        w.ownInputAddresses hash160 tx ++ w.changeAddresses hash160 tx := by
      rw [linkedAddresses, if_neg hne]
    have hvin : tx.vin.length > 0 := by
      rw [gt_iff_lt, List.length_pos_iff]
      intro hvin
      rw [ownInputAddresses, hvin] at hown
      cases hown
    have hfold : tx.vout.foldl (w.groupChange hash160)
        ((w.ownInputAddresses hash160 tx).foldl (fun g a => g.insert a) .empty) =
          .ofList (w.linkedAddresses hash160 tx) := by
      rw [groupChanges_eq, hlinked, ofList, List.foldl_append]
      rfl
    have hmem : first ∈ (ofList (w.linkedAddresses hash160 tx)).toList := by
      rw [mem_toList, mem_ofList, hlinked, hown]
      exact List.mem_append_left _ List.mem_cons_self
    have hany : (false || !(w.ownInputAddresses hash160 tx).isEmpty) = true := by simp [hown]
    have hinputs : tx.vin.foldlM (w.groupInput hash160) (.empty, false) =
        .ok ((w.ownInputAddresses hash160 tx).foldl (fun g a => g.insert a) .empty, true) := by
      rw [groupInputs_eq, ← hany]
      rfl
    rw [if_pos hvin, hinputs, ok_bind]
    simp only [if_true]
    rw [hfold, if_pos (List.length_pos_of_mem hmem), if_neg]
    simp [hlinked, hown]

/-- The groups that a transaction puts into `groupings`. -/
def GroupOf (hash160 : Valtype → Valtype) (w : CWallet) (tx : CTransaction)
    (g : Grouping) : Prop :=
  (w.linkedAddresses hash160 tx ≠ [] ∧ g = .ofList (w.linkedAddresses hash160 tx)) ∨
    ∃ a ∈ w.ownOutputAddresses hash160 tx, g = .ofList [a]

theorem mem_foldl_singletons {l : List CTxDestination} {groupings : OrderedSet Grouping}
    {g : Grouping} : g ∈ l.foldl (fun gs a => gs.insert (.ofList [a])) groupings ↔
      g ∈ groupings ∨ ∃ a ∈ l, g = .ofList [a] := by
  induction l generalizing groupings with
  | nil => simp
  | cons a l ih =>
    rw [List.foldl_cons, ih, mem_insert]
    simp only [List.mem_cons, exists_eq_or_imp]
    tauto

theorem groupTransaction_spec (hash160 : Valtype → Valtype) {hash : Uint256}
    (htx : w.mapWallet.get hash = some tx) (groupings : OrderedSet Grouping) : ∃ groupings',
      w.groupTransaction hash160 (groupings, .empty) hash = .ok (groupings', .empty) ∧
        ∀ g, g ∈ groupings' ↔ g ∈ groupings ∨ GroupOf hash160 w tx g := by
  rw [groupTransaction, htx]
  dsimp only
  rw [groupSpend_eq, ok_bind, groupLones_eq]
  refine ⟨_, rfl, fun g => ?_⟩
  rw [mem_foldl_singletons, GroupOf, ← or_assoc]
  refine or_congr_left ?_
  by_cases hlinked : w.linkedAddresses hash160 tx = []
  · simp [hlinked]
  · rw [if_neg hlinked, mem_insert]
    simp only [ne_eq, hlinked, not_false_eq_true, true_and]
    exact or_comm

/-- The first half of `GetAddressGroupings`. -/
theorem groupTransactions_spec (hash160 : Valtype → Valtype) (keys : List Uint256)
    (hkeys : ∀ hash ∈ keys, (w.mapWallet.get hash).isSome) (groupings : OrderedSet Grouping) :
    ∃ groupings',
      keys.foldlM (w.groupTransaction hash160) (groupings, .empty) = .ok (groupings', .empty) ∧
        ∀ g, g ∈ groupings' ↔ g ∈ groupings ∨
          ∃ hash ∈ keys, ∃ tx, w.mapWallet.get hash = some tx ∧ GroupOf hash160 w tx g := by
  induction keys generalizing groupings with
  | nil => exact ⟨groupings, rfl, fun g => by simp⟩
  | cons hash keys ih =>
    obtain ⟨tx, htx⟩ := Option.isSome_iff_exists.mp (hkeys hash List.mem_cons_self)
    obtain ⟨first, hfirst, hmem⟩ := groupTransaction_spec hash160 htx groupings
    obtain ⟨groupings', hrun, hmem'⟩ :=
      ih (fun hash h => hkeys hash (List.mem_cons_of_mem _ h)) first
    refine ⟨groupings', by rw [List.foldlM_cons, hfirst, ok_bind, hrun], fun g => ?_⟩
    rw [hmem', hmem, or_assoc]
    simp [htx]

theorem groupings_spec (hash160 : Valtype → Valtype) (w : CWallet) : ∃ groupings,
    w.mapWallet.keys.foldlM (w.groupTransaction hash160) (.empty, .empty) =
        .ok (groupings, .empty) ∧
      ∀ g, g ∈ groupings ↔
        ∃ hash tx, w.mapWallet.get hash = some tx ∧ GroupOf hash160 w tx g := by
  obtain ⟨groupings, hgroup, hmem⟩ := groupTransactions_spec hash160 w.mapWallet.keys
    (fun hash h => (w.mapWallet.mem_keys hash).mp h) .empty
  refine ⟨groupings, hgroup, fun g => ?_⟩
  rw [hmem, or_iff_right not_mem_empty]
  refine exists_congr fun hash => ?_
  rw [w.mapWallet.mem_keys]
  refine ⟨fun h => h.2, fun h => ⟨?_, h⟩⟩
  obtain ⟨tx, htx, -⟩ := h
  rw [htx]
  rfl

theorem ownAddress_of_isChange {out : CTxOut} (hchange : w.isChange hash160 out = true)
    (ha : extractDestination hash160 out.scriptPubKey = some a) :
    w.ownAddress hash160 out = some a := by
  unfold isChange at hchange
  split at hchange
  · rename_i hmine
    rw [ownAddress, if_pos hmine, ha]
  · cases hchange

/-- The addresses of our inputs are those of outputs that are ours. -/
theorem mentions_of_input (ha : a ∈ w.ownInputAddresses hash160 tx) : w.Mentions hash160 a := by
  obtain ⟨txin, -, ha⟩ := List.mem_filterMap.mp ha
  obtain ⟨out, hout, ha⟩ := Option.bind_eq_some_iff.mp ha
  obtain ⟨prev, hprev, hout⟩ := Option.bind_eq_some_iff.mp hout
  exact ⟨_, prev, hprev, List.mem_filterMap.mpr ⟨out, List.mem_of_getElem? hout, ha⟩⟩

theorem mem_ownOutputs_of_change (ha : a ∈ w.changeAddresses hash160 tx) :
    a ∈ w.ownOutputAddresses hash160 tx := by
  obtain ⟨out, hout, ha⟩ := List.mem_filterMap.mp ha
  obtain ⟨hout, hchange⟩ := List.mem_filter.mp hout
  exact List.mem_filterMap.mpr ⟨out, hout, ownAddress_of_isChange hchange ha⟩

theorem mentions_of_linked {hash : Uint256} (htx : w.mapWallet.get hash = some tx)
    (ha : a ∈ w.linkedAddresses hash160 tx) : w.Mentions hash160 a := by
  unfold linkedAddresses at ha
  split at ha
  · cases ha
  · rcases List.mem_append.mp ha with ha | ha
    · exact mentions_of_input ha
    · exact ⟨hash, tx, htx, mem_ownOutputs_of_change ha⟩

section Groups

variable {groupings : OrderedSet Grouping}
  (hmem : ∀ g, g ∈ groupings ↔ ∃ hash tx, w.mapWallet.get hash = some tx ∧ GroupOf hash160 w tx g)

include hmem

theorem mentions_iff : (∃ g ∈ groupings.toList, a ∈ g) ↔ w.Mentions hash160 a := by
  constructor
  · rintro ⟨g, hg, ha⟩
    obtain ⟨hash, tx, htx, ⟨-, rfl⟩ | ⟨c, hc, rfl⟩⟩ := (hmem g).mp hg
    · exact mentions_of_linked htx (mem_ofList.mp ha)
    · obtain rfl := List.mem_singleton.mp (mem_ofList.mp ha)
      exact ⟨hash, tx, htx, hc⟩
  · rintro ⟨hash, tx, htx, ha⟩
    exact ⟨.ofList [a], (hmem _).mpr ⟨hash, tx, htx, Or.inr ⟨a, ha, rfl⟩⟩,
      mem_ofList.mpr (List.mem_singleton_self a)⟩

/-- A chain of groups is a chain of transactions: a lone address leads nowhere. -/
theorem connected_iff : Connected groupings.toList a b ↔ ReflTransGen (w.LinkedBy hash160) a b := by
  constructor
  · intro h
    induction h with
    | refl => exact .refl
    | tail _ hlink ih =>
      obtain ⟨g, hg, hb, hc⟩ := hlink
      obtain ⟨hash, tx, htx, ⟨-, rfl⟩ | ⟨d, -, rfl⟩⟩ := (hmem g).mp hg
      · exact ih.tail ⟨hash, tx, htx, mem_ofList.mp hb, mem_ofList.mp hc⟩
      · obtain rfl := List.mem_singleton.mp (mem_ofList.mp hb)
        obtain rfl := List.mem_singleton.mp (mem_ofList.mp hc)
        exact ih
  · intro h
    induction h with
    | refl => exact .refl
    | tail _ hlink ih =>
      obtain ⟨hash, tx, htx, hb, hc⟩ := hlink
      refine ih.tail ⟨_, (hmem _).mpr ⟨hash, tx, htx, Or.inl ⟨List.ne_nil_of_mem hb, rfl⟩⟩, ?_, ?_⟩
      · exact mem_ofList.mpr hb
      · exact mem_ofList.mpr hc

theorem exists_mem_of_grouping {g : Grouping} (hg : g ∈ groupings) : ∃ a, a ∈ g := by
  obtain ⟨hash, tx, htx, ⟨hne, rfl⟩ | ⟨a, -, rfl⟩⟩ := (hmem g).mp hg
  · obtain ⟨a, ha⟩ := List.exists_mem_of_ne_nil _ hne
    exact ⟨a, mem_ofList.mpr ha⟩
  · exact ⟨a, mem_ofList.mpr (List.mem_singleton_self a)⟩

end Groups

end CWallet

/-! ## Merging the groups -/

namespace Merging

/-- What holds between the turns of the loop: the sets that are allocated are
those of `uniqueGroupings`, and `setmap` points from the elements of each set to
it and from nowhere else, so no pointer to a deleted set is left. -/
structure Good (done : List Grouping) (s : Merging) : Prop where
  unique : ∀ p, p ∈ s.uniqueGroupings ↔ (s.heap.cells.get p).isSome
  points : ∀ a p, s.setmap a = some p ↔ ∃ set, s.heap.cells.get p = some set ∧ a ∈ set
  inhabited : ∀ p set, s.heap.cells.get p = some set → ∃ a, a ∈ set
  labels : Labels done s.setmap

theorem good_init : Good [] ⟨.empty, .empty, fun _ => none⟩ where
  unique p := by simp [Heap.empty]
  points a p := by simp [Heap.empty]
  inhabited p set h := by cases h
  labels := labels_nil

variable {s : Merging} {done : List Grouping} {g : Grouping} {p merged : Ptr}

theorem mem_hits {setmap : CTxDestination → Option Ptr} :
    p ∈ hits setmap g ↔ ∃ a ∈ g, setmap a = some p := by
  have hfold : ∀ (l : List CTxDestination) (found : OrderedSet Ptr),
      p ∈ l.foldl (fun hits address =>
        match setmap address with
        | none => hits
        | some p => hits.insert p) found ↔ p ∈ found ∨ ∃ a ∈ l, setmap a = some p := by
    intro l
    induction l with
    | nil => simp
    | cons a l ih =>
      intro found
      rw [List.foldl_cons, ih]
      cases ha : setmap a with
      | none => simp [ha]
      | some q =>
        simp only [mem_insert, List.mem_cons, exists_eq_or_imp, ha, Option.some.injEq]
        grind
  rw [hits, hfold]
  exact or_iff_right not_mem_empty

/-- The loop over the sets that were hit reads and deletes each of them once. -/
theorem mergeHits_spec (hits : List Ptr) (hnodup : hits.Nodup) (hmerged : merged ∉ hits)
    (heap : Heap Grouping) (uniqueGroupings : OrderedSet Ptr) (whole : Grouping)
    (hwhole : heap.cells.get merged = some whole)
    (hhits : ∀ p ∈ hits, (heap.cells.get p).isSome) :
    ∃ heap' uniqueGroupings' whole',
      mergeHits merged hits (heap, uniqueGroupings) = .ok (heap', uniqueGroupings') ∧
      heap'.cells.get merged = some whole' ∧
      (∀ a, a ∈ whole' ↔
        a ∈ whole ∨ ∃ p ∈ hits, ∃ set, heap.cells.get p = some set ∧ a ∈ set) ∧
      (∀ p, p ≠ merged →
        heap'.cells.get p = if p ∈ hits then none else heap.cells.get p) ∧
      ∀ p, p ∈ uniqueGroupings' ↔ p ∈ uniqueGroupings ∧ p ∉ hits := by
  induction hits generalizing heap uniqueGroupings whole with
  | nil => exact ⟨heap, uniqueGroupings, whole, rfl, hwhole, by simp, by simp, by simp⟩
  | cons hit hits ih =>
    obtain ⟨hnot, hnodup⟩ := List.nodup_cons.mp hnodup
    obtain ⟨hne, hmerged⟩ := not_or.mp (fun h => hmerged (List.mem_cons.mpr h))
    obtain ⟨set, hset⟩ := Option.isSome_iff_exists.mp (hhits hit List.mem_cons_self)
    obtain ⟨heap1, hwrite, hget1⟩ := Heap.write_of_get (w := whole.insertAll set) hwhole
    have hset1 : heap1.cells.get hit = some set := by rw [hget1, if_neg (Ne.symm hne), hset]
    obtain ⟨heap2, hdelete, hget2⟩ := Heap.delete_of_get hset1
    -- the sets that are still to come are as they were
    have hget : ∀ p, p ≠ merged → p ≠ hit → heap2.cells.get p = heap.cells.get p := by
      intro p hp hp'
      rw [hget2, if_neg hp', hget1, if_neg hp]
    have hrest : ∀ p ∈ hits, heap2.cells.get p = heap.cells.get p := fun p hp =>
      hget p (fun h => hmerged (h ▸ hp)) (fun h => hnot (h ▸ hp))
    obtain ⟨heap', unique', whole', hrun, hwhole', hmem, hother, hunique⟩ := ih hnodup hmerged
      heap2 (uniqueGroupings.erase hit) (whole.insertAll set)
      (by rw [hget2, if_neg hne, hget1, if_pos rfl])
      (fun p hp => by rw [hrest p hp]; exact hhits p (List.mem_cons_of_mem _ hp))
    refine ⟨heap', unique', whole', ?_, hwhole', fun a => ?_, fun p hp => ?_, fun p => ?_⟩
    · rw [mergeHits, Heap.read_of_get hwhole, ok_bind, Heap.read_of_get hset, ok_bind, hwrite,
        ok_bind, hdelete, ok_bind, hrun]
    · rw [hmem, mem_insertAll, or_assoc]
      simp only [List.mem_cons, exists_eq_or_imp, hset, Option.some.injEq, exists_eq_left']
      refine or_congr_right (or_congr_right (exists_congr fun p => and_congr_right fun hp => ?_))
      rw [hrest p hp]
    · rw [hother p hp]
      by_cases hp' : p = hit
      · subst hp'
        rw [if_neg hnot, if_pos List.mem_cons_self, hget2, if_pos rfl]
      · rw [hget p hp hp']
        simp [hp']
    · rw [hunique, mem_erase]
      simp only [List.mem_cons]
      tauto

theorem pointTo_apply (elements : List CTxDestination) (setmap : CTxDestination → Option Ptr)
    (a : CTxDestination) : pointTo merged elements setmap a =
      if a ∈ elements then some merged else setmap a := by
  induction elements generalizing setmap with
  | nil => rfl
  | cons element elements ih =>
    change pointTo merged elements (Function.update setmap element (some merged)) a = _
    rw [ih, Function.update_apply]
    by_cases ha : a ∈ elements
    · simp [ha]
    · by_cases he : a = element <;> simp [ha, he]

/-- What a new group meets is the group and the sets that it hits. -/
theorem met_iff {setmap : CTxDestination → Option Ptr} {a : CTxDestination} :
    Met setmap g a ↔ a ∈ g ∨ ∃ p ∈ hits setmap g, setmap a = some p := by
  refine or_congr_right ⟨?_, ?_⟩
  · rintro ⟨b, hb, p, hpa, hpb⟩
    exact ⟨p, mem_hits.mpr ⟨b, hb, hpb⟩, hpa⟩
  · rintro ⟨p, hp, hpa⟩
    obtain ⟨b, hb, hpb⟩ := mem_hits.mp hp
    exact ⟨b, hb, p, hpa, hpb⟩

/-- A set that the new group does not hit holds nothing that it meets. -/
theorem mem_hits_iff_met {setmap : CTxDestination → Option Ptr} {a : CTxDestination}
    (ha : setmap a = some p) : p ∈ hits setmap g ↔ Met setmap g a := by
  rw [met_iff]
  constructor
  · intro hp
    exact Or.inr ⟨p, hp, ha⟩
  · rintro (hag | ⟨q, hq, haq⟩)
    · exact mem_hits.mpr ⟨a, hag, ha⟩
    · obtain rfl : p = q := Option.some.inj (ha.symm.trans haq)
      exact hq

/-- What one turn of the loop over `groupings` does. -/
structure Turned (s : Merging) (g : Grouping) (merged : Ptr) (s' : Merging) : Prop where
  fresh : s.heap.cells.get merged = none
  whole : ∃ whole, s'.heap.cells.get merged = some whole ∧ ∀ a, a ∈ whole ↔ Met s.setmap g a
  other : ∀ p, p ≠ merged → s'.heap.cells.get p =
    if p ∈ hits s.setmap g then none else s.heap.cells.get p
  unique : ∀ p, p ∈ s'.uniqueGroupings ↔
    p = merged ∨ (p ∈ s.uniqueGroupings ∧ p ∉ hits s.setmap g)
  met : ∀ a, Met s.setmap g a → s'.setmap a = some merged
  rest : ∀ a, ¬ Met s.setmap g a → s'.setmap a = s.setmap a

theorem Good.hit_allocated (h : Good done s) (hp : p ∈ hits s.setmap g) :
    ∃ set, s.heap.cells.get p = some set := by
  obtain ⟨a, -, ha⟩ := mem_hits.mp hp
  obtain ⟨set, hset, -⟩ := (h.points a p).mp ha
  exact ⟨set, hset⟩

theorem mergeGrouping_turned (A : Allocator Grouping) (h : Good done s) :
    ∃ s', mergeGrouping A s g = .ok s' ∧ Turned s g (A.address s.heap) s' := by
  generalize hmerged : A.address s.heap = merged
  have hfresh : s.heap.cells.get merged = none := hmerged ▸ A.fresh s.heap
  have hnew : ∀ p, (s.heap.new A g).cells.get p =
      if p = merged then some g else s.heap.cells.get p := fun p => hmerged ▸ Heap.get_new A
  have hold : ∀ p ∈ hits s.setmap g, p ≠ merged := by
    rintro p hp rfl
    obtain ⟨set, hset⟩ := h.hit_allocated hp
    cases hset.symm.trans hfresh
  have hallocated : ∀ p ∈ hits s.setmap g, ((s.heap.new A g).cells.get p).isSome := by
    intro p hp
    obtain ⟨set, hset⟩ := h.hit_allocated hp
    rw [hnew, if_neg (hold p hp), hset]
    rfl
  obtain ⟨heap', unique', whole, hrun, hwhole, hmem, hother, hunique⟩ :=
    mergeHits_spec (hits s.setmap g).toList (hits s.setmap g).nodup
      (fun hp => hold merged hp rfl) (s.heap.new A g) s.uniqueGroupings g
      (by rw [hnew, if_pos rfl]) hallocated
  -- the merged set holds what was met
  have hmet : ∀ a, a ∈ whole ↔ Met s.setmap g a := by
    intro a
    rw [hmem, met_iff]
    refine or_congr_right (exists_congr fun p => and_congr_right fun hp => ?_)
    rw [hnew, if_neg (hold p hp), ← h.points]
  refine ⟨⟨heap', unique'.insert merged, pointTo merged whole.toList s.setmap⟩, ?_, hfresh,
    ⟨whole, hwhole, hmet⟩, fun p hp => ?_, fun p => ?_, fun a ha => ?_, fun a ha => ?_⟩
  · rw [mergeGrouping]
    rw [hmerged, hrun, ok_bind]
    dsimp only
    rw [Heap.read_of_get hwhole, ok_bind]
  · rw [hother p hp, hnew, if_neg hp]
    rfl
  · rw [mem_insert, hunique]
    rfl
  · exact (pointTo_apply ..).trans (if_pos ((hmet a).mpr ha))
  · exact (pointTo_apply ..).trans (if_neg fun hw => ha ((hmet a).mp hw))

section Turn

variable {s' : Merging} (h : Good done s) (ht : Turned s g merged s')

include h ht

theorem Good.setmap_ne (a : CTxDestination) : s.setmap a ≠ some merged := by
  intro ha
  obtain ⟨set, hset, -⟩ := (h.points a merged).mp ha
  cases hset.symm.trans ht.fresh

theorem Good.turn_points (a : CTxDestination) (p : Ptr) :
    s'.setmap a = some p ↔ ∃ set, s'.heap.cells.get p = some set ∧ a ∈ set := by
  by_cases hp : p = merged
  · obtain ⟨whole, hwhole, hmem⟩ := ht.whole
    subst hp
    rw [hwhole]
    simp only [Option.some.injEq, exists_eq_left', hmem]
    refine ⟨fun ha => ?_, ht.met a⟩
    by_contra hmet
    exact h.setmap_ne ht a ((ht.rest a hmet).symm.trans ha)
  · rw [ht.other p hp]
    by_cases hmet : Met s.setmap g a
    · -- the pointer went over to the merged set, and a set that had `a` is deleted
      rw [ht.met a hmet]
      refine iff_of_false (fun he => hp (Option.some.inj he).symm) ?_
      rintro ⟨set, hset, ha⟩
      split at hset
      · cases hset
      · rename_i hhit
        exact hhit ((mem_hits_iff_met ((h.points a p).mpr ⟨set, hset, ha⟩)).mpr hmet)
    · rw [ht.rest a hmet]
      by_cases hhit : p ∈ hits s.setmap g
      · rw [if_pos hhit]
        refine iff_of_false (fun ha => hmet ((mem_hits_iff_met ha).mp hhit)) ?_
        rintro ⟨set, hset, -⟩
        cases hset
      · rw [if_neg hhit]
        exact h.points a p

theorem Good.turn (hg : ∃ a, a ∈ g) : Good (done ++ [g]) s' := by
  obtain ⟨whole, hwhole, hmem⟩ := ht.whole
  refine ⟨fun p => ?_, h.turn_points ht, fun p set hset => ?_,
    h.labels.merge ⟨ht.met, ht.rest, fun a ha => absurd ha (h.setmap_ne ht a)⟩⟩
  · rw [ht.unique]
    by_cases hp : p = merged
    · simp [hp, hwhole]
    · rw [ht.other p hp, h.unique]
      by_cases hhit : p ∈ hits s.setmap g <;> simp [hp, hhit]
  · by_cases hp : p = merged
    · obtain ⟨a, ha⟩ := hg
      obtain rfl : whole = set := Option.some.inj (hwhole.symm.trans (hp ▸ hset))
      exact ⟨a, (hmem a).mpr (Or.inl ha)⟩
    · rw [ht.other p hp] at hset
      split at hset
      · cases hset
      · exact h.inhabited p set hset

end Turn

/-- The loop over `groupings` ends with the components of the groups. -/
theorem mergeGroupings_spec (A : Allocator Grouping) (groupings : List Grouping)
    (hne : ∀ g ∈ groupings, ∃ a, a ∈ g) (h : Good done s) :
    ∃ s', groupings.foldlM (mergeGrouping A) s = .ok s' ∧ Good (done ++ groupings) s' := by
  induction groupings generalizing s done with
  | nil => exact ⟨s, rfl, by rwa [List.append_nil]⟩
  | cons g groupings ih =>
    obtain ⟨s1, hrun, hturned⟩ := mergeGrouping_turned A h
    obtain ⟨s', hrest, hgood⟩ := ih (fun g' hg' => hne g' (List.mem_cons_of_mem _ hg'))
      (h.turn hturned (hne g List.mem_cons_self))
    refine ⟨s', by rw [List.foldlM_cons, hrun, ok_bind, hrest], ?_⟩
    rwa [List.append_assoc] at hgood

section Sets

variable {a b : CTxDestination} {set : Grouping} (h : Good done s)

include h

theorem Good.mem_iff (hset : s.heap.cells.get p = some set) : a ∈ set ↔ s.setmap a = some p := by
  rw [h.points]
  simp [hset]

/-- Each set is a component of the groups. -/
theorem Good.component (hset : s.heap.cells.get p = some set) (ha : a ∈ set) :
    b ∈ set ↔ Connected done a b := by
  have hpa : s.setmap a = some p := (h.mem_iff hset).mp ha
  have hlabels := h.labels a
  constructor
  · intro hb
    exact ((hlabels b).mp ⟨p, hpa, (h.mem_iff hset).mp hb⟩).2
  · intro hcon
    have hmem : ∃ g ∈ done, a ∈ g := ((hlabels a).mp ⟨p, hpa, hpa⟩).1
    obtain ⟨q, hqa, hqb⟩ := (hlabels b).mpr ⟨hmem, hcon⟩
    obtain rfl : p = q := Option.some.inj (hpa.symm.trans hqa)
    exact (h.mem_iff hset).mpr hqb

theorem Good.cover : (∃ g ∈ done, a ∈ g) ↔ ∃ p set, s.heap.cells.get p = some set ∧ a ∈ set := by
  constructor
  · intro hmem
    obtain ⟨p, hpa, -⟩ := (h.labels a a).mpr ⟨hmem, .refl⟩
    exact ⟨p, (h.points a p).mp hpa⟩
  · rintro ⟨p, hset⟩
    have hpa := (h.points a p).mpr hset
    exact ((h.labels a a).mp ⟨p, hpa, hpa⟩).1

end Sets

/-- The last loop returns the sets and deletes each of them once. -/
theorem collect_spec (ptrs : List Ptr) (hnodup : ptrs.Nodup) (ret : OrderedSet Grouping)
    (heap : Heap Grouping) (hptrs : ∀ p ∈ ptrs, (heap.cells.get p).isSome) :
    ∃ ret' heap', collect ptrs (ret, heap) = .ok (ret', heap') ∧
      (∀ x, x ∈ ret' ↔ x ∈ ret ∨ ∃ p ∈ ptrs, heap.cells.get p = some x) ∧
      ∀ p, heap'.cells.get p = if p ∈ ptrs then none else heap.cells.get p := by
  induction ptrs generalizing ret heap with
  | nil => exact ⟨ret, heap, rfl, by simp, by simp⟩
  | cons q ptrs ih =>
    obtain ⟨hnot, hnodup⟩ := List.nodup_cons.mp hnodup
    obtain ⟨set, hset⟩ := Option.isSome_iff_exists.mp (hptrs q List.mem_cons_self)
    obtain ⟨heap1, hdelete, hget⟩ := Heap.delete_of_get hset
    have hrest : ∀ p ∈ ptrs, heap1.cells.get p = heap.cells.get p := by
      intro p hp
      have hne : p ≠ q := ne_of_mem_of_not_mem hp hnot
      rw [hget, if_neg hne]
    obtain ⟨ret', heap', hrun, hmem, hget'⟩ := ih hnodup (ret.insert set) heap1
      (fun p hp => by rw [hrest p hp]; exact hptrs p (List.mem_cons_of_mem _ hp))
    refine ⟨ret', heap', ?_, fun x => ?_, fun p => ?_⟩
    · rw [collect, Heap.read_of_get hset, ok_bind, hdelete, ok_bind, hrun]
    · rw [hmem, mem_insert]
      simp only [List.mem_cons, exists_eq_or_imp, hset, Option.some.injEq]
      have hcongr : (∃ p ∈ ptrs, heap1.cells.get p = some x) ↔
          ∃ p ∈ ptrs, heap.cells.get p = some x :=
        exists_congr fun p => and_congr_right fun hp => by rw [hrest p hp]
      rw [hcongr, eq_comm]
      tauto
    · rw [hget', hget]
      by_cases hp : p = q
      · simp [hp]
      · simp [hp]

theorem Good.collect_all (h : Good done s) : ∃ ret heap,
    collect s.uniqueGroupings.toList (.empty, s.heap) = .ok (ret, heap) ∧
      (∀ set, set ∈ ret ↔ ∃ p, s.heap.cells.get p = some set) ∧
      ∀ p, heap.cells.get p = none := by
  obtain ⟨ret, heap, hcollect, hret, hheap⟩ := collect_spec s.uniqueGroupings.toList
    s.uniqueGroupings.nodup .empty s.heap fun p hp => (h.unique p).mp hp
  refine ⟨ret, heap, hcollect, fun set => ?_, fun p => ?_⟩
  · rw [hret, or_iff_right not_mem_empty]
    refine exists_congr fun p => and_iff_right_of_imp fun hset => ?_
    rw [mem_toList, h.unique, hset]
    rfl
  · rw [hheap]
    split
    · rfl
    · rename_i hp
      rw [mem_toList, h.unique] at hp
      exact Option.not_isSome_iff_eq_none.mp hp

end Merging

/-- The sets that are returned are the components of the addresses that outputs
of ours pay, where a transaction of the wallet links the addresses of its own
inputs and, when there are some, its change. No set is read or deleted after it
was deleted, and in the end each was deleted as often as it was allocated. -/
theorem address_groupings_are_components (hash160 : Valtype → Valtype) (A : Allocator Grouping)
    (w : CWallet) : ∃ ret heap, w.getAddressGroupings hash160 A = .ok (ret, heap) ∧
      (∀ p, heap.cells.get p = none ∧ heap.deleted.count p = heap.given.count p) ∧
      (∀ set ∈ ret, ∃ a, a ∈ set) ∧
      (∀ a, w.Mentions hash160 a ↔ ∃ set ∈ ret, a ∈ set) ∧
      (∀ set ∈ ret, ∀ set' ∈ ret, ∀ a, a ∈ set → a ∈ set' → set = set') ∧
      ∀ set ∈ ret, ∀ a ∈ set, ∀ b,
        b ∈ set ↔ ReflTransGen (w.LinkedBy hash160) a b := by
  obtain ⟨groupings, hgroup, hgroups⟩ := CWallet.groupings_spec hash160 w
  obtain ⟨s, hrun, hgood⟩ := Merging.mergeGroupings_spec A groupings.toList
    (fun g hg => CWallet.exists_mem_of_grouping hgroups hg) Merging.good_init
  obtain ⟨ret, heap, hcollect, hret, hempty⟩ := hgood.collect_all
  refine ⟨ret, heap, ?_, fun p => ⟨hempty p, Heap.deleted_of_empty hempty⟩, fun set hset => ?_,
    fun a => ?_, fun set hset set' hset' a ha ha' => ?_, fun set hset a ha b => ?_⟩
  · rw [CWallet.getAddressGroupings, hgroup, ok_bind]
    dsimp only
    rw [hrun, ok_bind, hcollect]
  · obtain ⟨p, hp⟩ := (hret set).mp hset
    exact hgood.inhabited p set hp
  · rw [← CWallet.mentions_iff hgroups]
    refine (hgood.cover).trans ⟨?_, ?_⟩
    · rintro ⟨p, set, hp, ha⟩
      exact ⟨set, (hret set).mpr ⟨p, hp⟩, ha⟩
    · rintro ⟨set, hset, ha⟩
      obtain ⟨p, hp⟩ := (hret set).mp hset
      exact ⟨p, set, hp, ha⟩
  · obtain ⟨p, hp⟩ := (hret set).mp hset
    obtain ⟨q, hq⟩ := (hret set').mp hset'
    ext b
    rw [hgood.component hp ha, hgood.component hq ha']
  · obtain ⟨p, hp⟩ := (hret set).mp hset
    rw [hgood.component hp ha]
    exact CWallet.connected_iff hgroups

/-- A wallet whose transaction 2 spends a bare multisig output of transaction 1,
which is ours and has no address, to two change outputs. -/
def multisigWallet : CWallet where
  mapWallet := ((Table.empty.insert 2 ⟨1, [{ prevout := ⟨1, 0⟩ }],
      [⟨1, payToKey 7⟩, ⟨1, payToKey 8⟩], 0⟩).insert 1 ⟨1, [], [⟨3, multisig⟩], 0⟩)
  mapAddressBook := []
  isMine script := script = multisig || script = payToKey 7 || script = payToKey 8
where
  payToKey (b : UInt8) : CScript := [0x76, OP_HASH160, 20] ++ List.replicate 20 b ++ [0x88, 0xac]
  multisig : CScript := 0x51 :: 33 :: List.replicate 33 2 ++ [0x51, 0xae]

/-- An allocator that never hands out an address again. -/
def neverAgain : Allocator Grouping where
  address h := h.given.sum + 1
  fresh h := by
    have hnot : h.given.sum + 1 ∉ h.given := fun hmem =>
      absurd (List.le_sum_of_mem hmem) (Nat.not_succ_le_self _)
    have hcount := h.balanced (h.given.sum + 1)
    rw [List.count_eq_zero_of_not_mem hnot] at hcount
    by_contra hne
    rw [if_pos (Option.isSome_iff_ne_none.mpr hne)] at hcount
    omega

/-- The two change addresses of that transaction stay in groups of their own. -/
theorem change_of_multisig_apart : ∃ tx, multisigWallet.mapWallet.get 2 = some tx ∧
    tx.vin.all multisigWallet.isMineIn = true ∧
    multisigWallet.changeAddresses id tx =
      [.keyID (List.replicate 20 7), .keyID (List.replicate 20 8)] ∧
    (multisigWallet.getAddressGroupings id neverAgain).toOption.map (fun r => r.1.toList) =
      some [.ofList [.keyID (List.replicate 20 7)], .ofList [.keyID (List.replicate 20 8)]] := by
  refine ⟨_, rfl, ?_, ?_, ?_⟩
  · decide +kernel
  · decide +kernel
  · decide +kernel

end junkcoin
