-- The list of witness hashes that compact blocks are rebuilt from (`vTxHashes`
-- of `txmempool.cpp`): a removed entry is replaced by the last one, whose place
-- is kept in the entry itself. `clear` forgets the entries but not the list.
import Junkcoin.Lib.Runs
import Junkcoin.MempoolRuns

namespace junkcoin

/-! ## Entries without their totals -/

/-- A count, a size, a modified fee and a sigop cost. -/
abbrev Totals := Int × Int × Int × Int

namespace CTxMemPoolEntry

variable (e : CTxMemPoolEntry)

def withAncestorTotals (t : Totals) : CTxMemPoolEntry :=
  { e with
    nCountWithAncestors := t.1
    nSizeWithAncestors := t.2.1
    nModFeesWithAncestors := t.2.2.1
    nSigOpCostWithAncestors := t.2.2.2 }

def withDescendantTotals (t : Totals) : CTxMemPoolEntry :=
  { e with
    nCountWithDescendants := t.1
    nSizeWithDescendants := t.2.1
    nModFeesWithDescendants := t.2.2.1 }

/-- An entry without its totals. -/
def bare : CTxMemPoolEntry := (e.withAncestorTotals 0).withDescendantTotals 0

end CTxMemPoolEntry

namespace CTxMemPool

variable {env : PoolEnv} {s t : CTxMemPool} {it : Uint256}
  {f : CTxMemPoolEntry → Check CTxMemPoolEntry} {A : List Uint256}

/-! ## The transactions in the pool -/

/-- The entries without their totals, and the deltas. -/
def core (s : CTxMemPool) : (Uint256 → Option CTxMemPoolEntry) × (Uint256 → Option Int) :=
  (fun it => (s.mapTx.get it).map (·.bare), s.mapDeltas)

/-- The transaction that an iterator leads to. -/
def txAt (s : CTxMemPool) (it : Uint256) : Option CTransaction := (s.mapTx.get it).map (·.tx)

theorem isSome_txAt : (s.txAt it).isSome = s.contains it := by simp [txAt, contains]

theorem txAt_eq_core : s.txAt it = (s.core.1 it).map (·.tx) := by
  rw [core, Option.map_map]
  rfl

theorem txAt_of_core (h : t.core = s.core) : t.txAt = s.txAt := by
  funext it
  rw [txAt_eq_core, txAt_eq_core, h]

/-- A change of entries that only changes their totals. -/
def KeepsBare (f : CTxMemPoolEntry → Check CTxMemPoolEntry) : Prop :=
  ∀ e e', f e = .ok e' → e'.bare = e.bare

theorem keepsBare_updateDescendantState (a b c : Int) :
    KeepsBare (·.updateDescendantState a b c) := by
  intro e e' h
  obtain ⟨_, _, h⟩ := bind_ok h
  obtain ⟨_, _, h⟩ := bind_ok h
  cases h
  rfl

theorem keepsBare_updateAncestorState (a b c d : Int) :
    KeepsBare (·.updateAncestorState a b c d) := by
  intro e e' h
  obtain ⟨_, _, h⟩ := bind_ok h
  obtain ⟨_, _, h⟩ := bind_ok h
  obtain ⟨_, _, h⟩ := bind_ok h
  cases h
  rfl

theorem core_modify (hf : KeepsBare f) (h : s.modify it f = .ok t) : t.core = s.core := by
  obtain ⟨e, he, h⟩ := bind_ok h
  obtain ⟨e', he', h⟩ := bind_ok h
  cases h
  refine Prod.ext (funext fun k => ?_) rfl
  unfold entryAt at he
  split at he
  · rename_i e₁ hget
    cases he
    show ((s.mapTx.modify it fun _ => e').get k).map _ = (s.mapTx.get k).map _
    rw [Table.get_modify]
    split
    · rename_i hk
      rw [hk, hget]
      exact congrArg some (hf e e' he')
    · rfl
  · cases he

theorem core_foldlM {α : Type} {f : CTxMemPool → α → Check CTxMemPool} {l : List α}
    (hf : ∀ s t, ∀ a ∈ l, f s a = .ok t → t.core = s.core) (h : l.foldlM f s = .ok t) :
    t.core = s.core := by
  induction l generalizing s with
  | nil =>
    cases h
    rfl
  | cons a l ih =>
    obtain ⟨u, hu, h⟩ := bind_ok h
    rw [ih (fun s t b hb => hf s t b (List.mem_cons_of_mem _ hb)) h,
      hf s u a List.mem_cons_self hu]

theorem core_modifyEach {its : List Uint256} (hf : KeepsBare f) (h : s.modifyEach its f = .ok t) :
    t.core = s.core :=
  core_foldlM (fun _ _ _ _ hm => core_modify hf hm) h

/-- Links are not entries. -/
theorem core_foldl (op : CTxMemPool → Uint256 → CTxMemPool) (l : List Uint256)
    (hop : ∀ s a, (op s a).core = s.core) : (l.foldl op s).core = s.core := by
  induction l generalizing s with
  | nil => rfl
  | cons a l ih => rw [List.foldl_cons, ih, hop]

theorem core_updateAncestorsOf {add : Bool} (h : s.updateAncestorsOf env add it A = .ok t) :
    t.core = s.core := by
  obtain ⟨parents, _, h⟩ := bind_ok h
  obtain ⟨e, _, h⟩ := bind_ok h
  rw [core_modifyEach (keepsBare_updateDescendantState _ _ _) h]
  exact core_foldl _ _ fun _ _ => rfl

theorem core_updateForRemoveFromMempool {stage : List Uint256} {updateDescendants : Bool}
    (h : s.updateForRemoveFromMempool env stage updateDescendants = .ok t) :
    t.core = s.core := by
  obtain ⟨s₁, h₁, h⟩ := bind_ok h
  obtain ⟨s₂, h₂, h₃⟩ := bind_ok h
  have hfirst : s₁.core = s.core := by
    split at h₁
    · refine core_foldlM (fun s t a _ h => ?_) h₁
      obtain ⟨_, _, h⟩ := bind_ok h
      obtain ⟨_, _, h⟩ := bind_ok h
      exact core_modifyEach (keepsBare_updateAncestorState _ _ _ _) h
    · cases h₁
      rfl
  have hsecond : s₂.core = s₁.core := by
    refine core_foldlM (fun s t a _ h => ?_) h₂
    obtain ⟨_, _, h⟩ := bind_ok h
    obtain ⟨_, _, h⟩ := bind_ok h
    exact core_updateAncestorsOf h
  have hthird : t.core = s₂.core := by
    refine core_foldlM (fun s t a _ h => ?_) h₃
    obtain ⟨_, _, h⟩ := bind_ok h
    cases h
    exact core_foldl _ _ fun _ _ => rfl
  rw [hthird, hsecond, hfirst]

theorem core_addUnchecked {hash : Uint256} {entry : CTxMemPoolEntry}
    (h : s.addUnchecked env hash entry A = .ok t) :
    t.core = (s.insertEntry env hash entry).core := by
  obtain ⟨e, _, h⟩ := bind_ok h
  obtain ⟨s₁, h₁, h⟩ := bind_ok h
  obtain ⟨s₂, h₂, h⟩ := bind_ok h
  obtain ⟨_, _, h₂⟩ := bind_ok h₂
  cases h
  calc s₂.core = s₁.core := core_modify (keepsBare_updateAncestorState _ _ _ _) h₂
    _ = _ := core_updateAncestorsOf h₁
    _ = _ := core_foldl _ _ fun s a => by split <;> rfl

/-- An id that is taken keeps its transaction. -/
theorem txAt_insertEntry (hash : Uint256) (entry : CTxMemPoolEntry) (k : Uint256) :
    (s.insertEntry env hash entry).txAt k =
      if k = entry.tx.getHash env.H ∧ s.contains k = false then some entry.tx
      else s.txAt k := by
  have hdelta : (s.insertEntry env hash entry).txAt k =
      ((s.mapTx.insert (entry.tx.getHash env.H) entry).get k).map (·.tx) := by
    unfold insertEntry txAt
    split
    · split
      · rw [Table.get_modify]
        split
        · rename_i hk
          rw [hk, Option.map_map]
          rfl
        · rfl
      · rfl
    · rfl
  rw [hdelta]
  cases htaken : s.mapTx.get (entry.tx.getHash env.H) with
  | some w =>
    rw [Table.insert_of_some _ htaken, if_neg]
    · rfl
    · rintro ⟨rfl, hk⟩
      simp [contains, htaken] at hk
  | none =>
    rw [Table.get_insert _ htaken]
    by_cases hk : k = entry.tx.getHash env.H
    · subst hk
      simp [contains, htaken]
    · simp [hk, txAt]

theorem txAt_removeUnchecked {reason : MemPoolRemovalReason}
    (h : s.removeUnchecked env it reason = .ok t) (k : Uint256) :
    t.txAt k = if k = it then none else s.txAt k := by
  obtain ⟨e, _, h⟩ := bind_ok h
  cases h
  unfold txAt
  rw [Table.get_erase]
  split <;> rfl

/-- `_clear`, but for the rolling fee. -/
def clear (s : CTxMemPool) : CTxMemPool :=
  { s with mapTx := .empty, mapLinks := fun _ => none, mapNextTx := .empty, totalTxSize := 0 }

end CTxMemPool

/-! ## The list of hashes -/

/-- The pool with `vTxHashes` and the `vTxHashesIdx` of its entries. -/
structure HashedPool where
  pool : CTxMemPool
  vTxHashes : List (Uint256 × Uint256) := []
  vTxHashesIdx : Uint256 → Nat := fun _ => 0

namespace HashedPool

variable (env : PoolEnv) (s : HashedPool)

/-- `addUnchecked`. -/
def addUnchecked (hash : Uint256) (entry : CTxMemPoolEntry) (setAncestors : List Uint256) :
    Check HashedPool := do
  let newit := entry.tx.getHash env.H
  let pool ← s.pool.addUnchecked env hash entry setAncestors
  let e ← pool.entryAt newit
  .ok { pool,
        vTxHashes := s.vTxHashes ++ [(e.tx.getWitnessHash env.H, newit)],
        vTxHashesIdx := Function.update s.vTxHashesIdx newit s.vTxHashes.length }

/-- `vTxHashes` and its back indices when an entry goes: the last pair takes
its place. -/
def forgetHash (it : Uint256) : Check HashedPool :=
  if s.vTxHashes.length > 1 then
    match s.vTxHashes.getLast? with
    | none => .error (.crash "vTxHashes.back()")
    | some back => do
      let i := s.vTxHashesIdx it
      assert (i < s.vTxHashes.length) "vTxHashes[it->vTxHashesIdx]"
      let _ ← s.pool.entryAt back.2
      .ok { s with
        vTxHashes := (s.vTxHashes.set i back).dropLast
        vTxHashesIdx := Function.update s.vTxHashesIdx back.2 i }
  else .ok { s with vTxHashes := [] }

/-- `removeUnchecked`. -/
def removeUnchecked (it : Uint256) (reason : MemPoolRemovalReason) : Check HashedPool := do
  let s ← s.forgetHash it
  let pool ← s.pool.removeUnchecked env it reason
  .ok { s with pool }

/-- `RemoveStaged`, which every removal ends in. -/
def removeStaged (stage : List Uint256) (updateDescendants : Bool)
    (reason : MemPoolRemovalReason) : Check HashedPool := do
  let pool ← s.pool.updateForRemoveFromMempool env stage updateDescendants
  stage.foldlM (fun s it => s.removeUnchecked env it reason) { s with pool }

/-- `clear`: the list stays. -/
def clear : HashedPool := { s with pool := s.pool.clear }

/-! ## The list mirrors the pool -/

/-- Every entry has its pair at its place, and there are no other pairs. -/
structure Mirrors : Prop where
  entries : ∀ it tx, s.pool.txAt it = some tx →
    s.vTxHashes[s.vTxHashesIdx it]? = some (tx.getWitnessHash env.H, it)
  pairs : ∀ i p, s.vTxHashes[i]? = some p → s.pool.contains p.2 = true ∧ s.vTxHashesIdx p.2 = i

variable {env} {s} {t : HashedPool} {it : Uint256}

theorem Mirrors.of_txAt {pool : CTxMemPool} (h : s.Mirrors env) (htx : pool.txAt = s.pool.txAt) :
    { s with pool := pool : HashedPool }.Mirrors env := by
  refine ⟨fun it tx hit => h.entries it tx (htx ▸ hit), fun i p hp => ?_⟩
  rw [← CTxMemPool.isSome_txAt, htx, CTxMemPool.isSome_txAt]
  exact h.pairs i p hp

theorem entryAt_of_contains {s : CTxMemPool} (h : s.contains it = true) :
    ∃ e, s.entryAt it = .ok e ∧ s.txAt it = some e.tx := by
  obtain ⟨e, he⟩ := Option.isSome_iff_exists.mp h
  exact ⟨e, by rw [CTxMemPool.entryAt, he], by rw [CTxMemPool.txAt, he]; rfl⟩

/-! ## Every removal keeps it -/

theorem getElem?_replaced {α : Type} {l : List α} {back : α} {i : Nat} (hi : i < l.length)
    (j : Nat) : ((l.set i back).dropLast)[j]? =
      if j < l.length - 1 then if i = j then some back else l[j]? else none := by
  rw [List.getElem?_dropLast, List.length_set]
  split
  · by_cases hij : i = j
    · rw [if_pos hij, ← hij, List.getElem?_set_self hi]
    · rw [if_neg hij, List.getElem?_set_ne hij]
  · rfl

/-- What the list looks like without an entry. -/
structure Forgets (env : PoolEnv) (s : HashedPool) (it : Uint256) (t : HashedPool) : Prop where
  pool : t.pool = s.pool
  entries : ∀ k tx, k ≠ it → s.pool.txAt k = some tx →
    t.vTxHashes[t.vTxHashesIdx k]? = some (tx.getWitnessHash env.H, k)
  pairs : ∀ i p, t.vTxHashes[i]? = some p →
    p.2 ≠ it ∧ s.pool.contains p.2 = true ∧ t.vTxHashesIdx p.2 = i

/-- The last pair takes the place of the one that goes. -/
theorem Mirrors.forgets_of_back (h : s.Mirrors env) {tx : CTransaction}
    {back : Uint256 × Uint256} (hit : s.pool.txAt it = some tx)
    (hback : s.vTxHashes[s.vTxHashes.length - 1]? = some back) :
    Forgets env s it
      { s with
        vTxHashes := (s.vTxHashes.set (s.vTxHashesIdx it) back).dropLast
        vTxHashesIdx := Function.update s.vTxHashesIdx back.2 (s.vTxHashesIdx it) } := by
  have hplace := h.entries it tx hit
  obtain ⟨hlt, -⟩ := List.getElem?_eq_some_iff.mp hplace
  obtain ⟨hmem, hidx⟩ := h.pairs _ back hback
  refine ⟨rfl, ?_, ?_⟩
  · intro k tx' hk htx
    have hpair := h.entries k tx' htx
    obtain ⟨hklt, -⟩ := List.getElem?_eq_some_iff.mp hpair
    -- two entries have two places
    have hother : ∀ k', k' ≠ k → ∀ w, s.vTxHashes[s.vTxHashesIdx k']? = some (w, k') →
        s.vTxHashesIdx k' ≠ s.vTxHashesIdx k := by
      intro k' hk' w hw heq
      rw [heq, hpair] at hw
      injection hw with hw
      exact hk' (congrArg Prod.snd hw).symm
    have hne := hother it (Ne.symm hk) _ hplace
    dsimp only
    rw [getElem?_replaced hlt]
    by_cases hkb : back.2 = k
    · rw [hkb] at hidx
      rw [hkb, Function.update_self, if_pos (by omega), if_pos rfl, ← hback, ← hidx, hpair]
    · have hnotlast := hother back.2 hkb back.1 (hidx ▸ hback)
      rw [Function.update_of_ne (Ne.symm hkb), if_pos (by omega), if_neg hne, hpair]
  · intro i p hp
    dsimp only at hp ⊢
    rw [getElem?_replaced hlt] at hp
    split at hp
    · split at hp
      · rename_i hi heq
        cases hp
        refine ⟨?_, hmem, heq ▸ Function.update_self ..⟩
        intro hself
        rw [hself] at hidx
        omega
      · rename_i hi hne
        obtain ⟨hin, hat⟩ := h.pairs i p hp
        refine ⟨fun hself => hne (hself ▸ hat), hin, ?_⟩
        rw [Function.update_of_ne _, hat]
        intro hself
        rw [hself] at hat
        omega
    · cases hp

theorem Mirrors.forgetHash (h : s.Mirrors env) {tx : CTransaction}
    (hit : s.pool.txAt it = some tx) : ∃ t, s.forgetHash it = .ok t ∧ Forgets env s it t := by
  have hplace := h.entries it tx hit
  obtain ⟨hlt, -⟩ := List.getElem?_eq_some_iff.mp hplace
  unfold HashedPool.forgetHash
  split
  · obtain ⟨back, hback⟩ : ∃ back, s.vTxHashes[s.vTxHashes.length - 1]? = some back :=
      ⟨_, List.getElem?_eq_getElem (by omega)⟩
    obtain ⟨e, he, -⟩ := entryAt_of_contains (h.pairs _ back hback).1
    refine ⟨_, ?_, h.forgets_of_back hit hback⟩
    rw [List.getLast?_eq_getElem?, hback]
    simp only [assert, hlt, decide_true, he]
    rfl
  · refine ⟨_, rfl, rfl, ?_, fun i p hp => by simp at hp⟩
    intro k tx' hk htx
    have hpair := h.entries k tx' htx
    obtain ⟨hklt, -⟩ := List.getElem?_eq_some_iff.mp hpair
    -- the only pair is that of the entry which goes
    have heq : s.vTxHashesIdx k = s.vTxHashesIdx it := by omega
    rw [heq, hplace] at hpair
    injection hpair with hpair
    exact absurd (congrArg Prod.snd hpair).symm hk

theorem Mirrors.removeUnchecked {reason : MemPoolRemovalReason} {pool : CTxMemPool}
    (h : s.Mirrors env) (hp : s.pool.removeUnchecked env it reason = .ok pool) :
    ∃ t, s.removeUnchecked env it reason = .ok t ∧ t.pool = pool ∧ t.Mirrors env := by
  have htx := CTxMemPool.txAt_removeUnchecked hp
  have hentry : ∃ tx, s.pool.txAt it = some tx := by
    obtain ⟨e, he, -⟩ := bind_ok hp
    unfold CTxMemPool.entryAt at he
    split at he
    · rename_i hget
      exact ⟨_, by rw [CTxMemPool.txAt, hget]; rfl⟩
    · cases he
  obtain ⟨tx, hit⟩ := hentry
  obtain ⟨u, hu, hpool, hentries, hpairs⟩ := h.forgetHash hit
  refine ⟨{ u with pool }, ?_, rfl, ?_, ?_⟩
  · rw [HashedPool.removeUnchecked, hu]
    show (u.pool.removeUnchecked env it reason >>= _) = _
    rw [hpool, hp]
    rfl
  · intro k tx' hk
    rw [htx] at hk
    split at hk
    · cases hk
    · rename_i hne
      exact hentries k tx' hne hk
  · intro i p hp'
    obtain ⟨hne, hin, hidx⟩ := hpairs i p hp'
    refine ⟨?_, hidx⟩
    rw [← CTxMemPool.isSome_txAt, htx, if_neg hne, CTxMemPool.isSome_txAt]
    exact hin

/-- By induction on the entries still to go. -/
theorem Mirrors.removeEach {stage : List Uint256} {reason : MemPoolRemovalReason}
    {pool : CTxMemPool} (h : s.Mirrors env)
    (hp : stage.foldlM (fun s it => s.removeUnchecked env it reason) s.pool = .ok pool) :
    ∃ t, stage.foldlM (fun s it => s.removeUnchecked env it reason) s = .ok t ∧
      t.pool = pool ∧ t.Mirrors env := by
  induction stage generalizing s with
  | nil =>
    cases hp
    exact ⟨s, rfl, rfl, h⟩
  | cons it stage ih =>
    obtain ⟨pool₁, h₁, hp⟩ := bind_ok hp
    obtain ⟨s₁, hs₁, rfl, hm⟩ := h.removeUnchecked h₁
    rw [List.foldlM_cons, hs₁]
    exact ih hm hp

theorem Mirrors.removeStaged {stage : List Uint256} {updateDescendants : Bool}
    {reason : MemPoolRemovalReason} {pool : CTxMemPool} (h : s.Mirrors env)
    (hp : s.pool.removeStaged env stage updateDescendants reason = .ok pool) :
    ∃ t, s.removeStaged env stage updateDescendants reason = .ok t ∧ t.pool = pool ∧
      t.Mirrors env := by
  obtain ⟨pool₁, h₁, hp⟩ := bind_ok hp
  rw [HashedPool.removeStaged, h₁]
  have htx := CTxMemPool.txAt_of_core (CTxMemPool.core_updateForRemoveFromMempool h₁)
  exact (h.of_txAt htx).removeEach hp

/-! ## Additions and clearing -/

theorem contains_addUnchecked {s t : CTxMemPool} {hash : Uint256} {entry : CTxMemPoolEntry}
    {A : List Uint256} (h : s.addUnchecked env hash entry A = .ok t) (k : Uint256) :
    t.contains k = true ↔ k = entry.tx.getHash env.H ∨ s.contains k = true := by
  rw [← CTxMemPool.isSome_txAt, CTxMemPool.txAt_of_core (CTxMemPool.core_addUnchecked h),
    CTxMemPool.txAt_insertEntry]
  split
  · rename_i hnew
    simp [hnew.1]
  · rename_i hold
    rw [CTxMemPool.isSome_txAt]
    constructor
    · exact .inr
    · rintro (hk | hk)
      · by_contra hc
        exact hold ⟨hk, Bool.eq_false_iff.mpr hc⟩
      · exact hk

/-- A second entry under one id would have two pairs. -/
theorem Mirrors.addUnchecked {hash : Uint256} {entry : CTxMemPoolEntry} {A : List Uint256}
    {pool : CTxMemPool} (h : s.Mirrors env)
    (hp : s.pool.addUnchecked env hash entry A = .ok pool) :
    ∃ t, s.addUnchecked env hash entry A = .ok t ∧
      (t.Mirrors env ↔ s.pool.contains (entry.tx.getHash env.H) = false) := by
  have hcore := CTxMemPool.txAt_of_core (CTxMemPool.core_addUnchecked hp)
  have htx := fun k => (congrFun hcore k).trans (CTxMemPool.txAt_insertEntry hash entry k)
  have hin := contains_addUnchecked hp
  generalize hnewit : entry.tx.getHash env.H = newit at htx hin ⊢
  obtain ⟨e, he, hetx⟩ := entryAt_of_contains ((hin newit).mpr (.inl rfl))
  have hcall : s.addUnchecked env hash entry A = .ok
      { pool,
        vTxHashes := s.vTxHashes ++ [(e.tx.getWitnessHash env.H, newit)],
        vTxHashesIdx := Function.update s.vTxHashesIdx newit s.vTxHashes.length } := by
    rw [HashedPool.addUnchecked, hp, hnewit]
    show (pool.entryAt newit >>= _) = _
    rw [he]
    rfl
  refine ⟨_, hcall, ?_⟩
  constructor
  · intro hm
    by_contra hc
    rw [Bool.not_eq_false] at hc
    -- the first pair of the entry stays where it was
    obtain ⟨_, -, hold⟩ := entryAt_of_contains hc
    have hpair := h.entries newit _ hold
    obtain ⟨hlt, -⟩ := List.getElem?_eq_some_iff.mp hpair
    have hat := (hm.pairs _ _ ((List.getElem?_append_left hlt).trans hpair)).2
    have hlast : s.vTxHashes.length = s.vTxHashesIdx newit :=
      (Function.update_self newit _ s.vTxHashesIdx).symm.trans hat
    omega
  · intro hnew
    constructor
    · intro k tx hk
      dsimp only at hk ⊢
      by_cases heq : k = newit
      · subst heq
        rw [Function.update_self, List.getElem?_concat_length]
        rw [hk] at hetx
        cases hetx
        rfl
      · rw [htx, if_neg fun hc => heq hc.1] at hk
        have hpair := h.entries k tx hk
        obtain ⟨hlt, -⟩ := List.getElem?_eq_some_iff.mp hpair
        rw [Function.update_of_ne heq, List.getElem?_append_left hlt, hpair]
    · intro i p hi
      dsimp only at hi ⊢
      rw [List.getElem?_append] at hi
      split at hi
      · obtain ⟨hold, hat⟩ := h.pairs i p hi
        refine ⟨(hin _).mpr (.inr hold), ?_⟩
        rw [Function.update_of_ne _, hat]
        rintro rfl
        rw [hnew] at hold
        cases hold
      · rename_i hge
        obtain ⟨hlt, hp₁⟩ := List.getElem?_eq_some_iff.mp hi
        simp only [List.length_singleton] at hlt
        obtain rfl : i = s.vTxHashes.length := by omega
        simp only [Nat.sub_self, List.getElem_cons_zero] at hp₁
        subst hp₁
        exact ⟨(hin _).mpr (.inl rfl), Function.update_self ..⟩

theorem Mirrors.clear_iff (h : s.Mirrors env) :
    s.clear.Mirrors env ↔ s.pool.mapTx.keys = [] := by
  constructor
  · intro hm
    by_contra hne
    obtain ⟨k, hk⟩ := List.exists_mem_of_ne_nil _ hne
    obtain ⟨_, -, htx⟩ := entryAt_of_contains ((Table.mem_keys _ k).mp hk)
    exact nomatch (hm.pairs _ _ (h.entries k _ htx)).1
  · intro hnil
    refine ⟨fun k tx hk => (nomatch hk), fun i p hp => ?_⟩
    have hmem := (Table.mem_keys _ _).mpr (h.pairs i p hp).1
    rw [hnil] at hmem
    exact nomatch hmem

/-! ## Any sequence of calls -/

open CTxMemPool (spender sampleEnv versionHashes)

theorem isOk_iff {α : Type} (x : Check α) : okWith x (fun _ => true) = true ↔ ∃ a, x = .ok a := by
  cases x with
  | ok a => exact iff_of_true rfl ⟨a, rfl⟩
  | error e => simp [okWith]

instance decidableOfOk {α : Type} {P : α → Prop} [DecidablePred P] :
    (x : Check α) → Decidable (∀ a, x = .ok a → P a)
  | .ok a => decidable_of_iff (P a) ⟨fun h _ he => Except.ok.inj he ▸ h, fun h => h a rfl⟩
  | .error _ => .isTrue fun _ he => nomatch he

inductive Call
  | addUnchecked (hash : Uint256) (entry : CTxMemPoolEntry) (setAncestors : List Uint256)
  | removeStaged (stage : List Uint256) (updateDescendants : Bool)
      (reason : MemPoolRemovalReason)
  | clear

variable (env)

def call (s : HashedPool) : Call → Check HashedPool
  | .addUnchecked hash entry setAncestors => s.addUnchecked env hash entry setAncestors
  | .removeStaged stage updateDescendants reason =>
    s.removeStaged env stage updateDescendants reason
  | .clear => .ok s.clear

/-- A call after others, none of which may fail. -/
def step (s : Check HashedPool) (c : Call) : Check HashedPool := s >>= (·.call env c)

/-- The entries and their links are such that the call goes through. -/
def PoolTakes (s : CTxMemPool) : Call → Prop
  | .addUnchecked hash entry setAncestors =>
    ∃ t, s.addUnchecked env hash entry setAncestors = .ok t
  | .removeStaged stage updateDescendants reason =>
    ∃ t, s.removeStaged env stage updateDescendants reason = .ok t
  | .clear => True

/-- No id comes twice, and only an empty pool is cleared. -/
def KeepsMirror (s : CTxMemPool) : Call → Prop
  | .addUnchecked _ entry _ => s.contains (entry.tx.getHash env.H) = false
  | .removeStaged .. => True
  | .clear => s.mapTx.keys = []

instance decidablePoolTakes (s : CTxMemPool) : (c : Call) → Decidable (PoolTakes env s c)
  | .addUnchecked hash entry setAncestors =>
    decidable_of_iff _ (isOk_iff (s.addUnchecked env hash entry setAncestors))
  | .removeStaged stage updateDescendants reason =>
    decidable_of_iff _ (isOk_iff (s.removeStaged env stage updateDescendants reason))
  | .clear => .isTrue trivial

instance decidableKeepsMirror (s : CTxMemPool) : (c : Call) → Decidable (KeepsMirror env s c)
  | .addUnchecked .. => instDecidableEqBool _ _
  | .removeStaged .. => .isTrue trivial
  | .clear => inferInstanceAs (Decidable (_ = _))

/-- The calls up to some point went through, with a property of the pool. -/
def Reaches (P : HashedPool → Prop) (s : Check HashedPool) : Prop := ∃ t, s = .ok t ∧ P t

variable {env}

theorem Mirrors.step_iff (h : s.Mirrors env) {c : Call} (hc : PoolTakes env s.pool c) :
    Reaches (Mirrors env) (step env (.ok s) c) ↔ KeepsMirror env s.pool c := by
  cases c with
  | addUnchecked hash entry A =>
    obtain ⟨_, hpool⟩ := hc
    obtain ⟨t, ht, hiff⟩ := h.addUnchecked hpool
    refine Iff.trans ?_ hiff
    constructor
    · rintro ⟨t', ht', hm⟩
      cases ht.symm.trans ht'
      exact hm
    · exact fun hm => ⟨t, ht, hm⟩
  | removeStaged stage updateDescendants reason =>
    obtain ⟨_, hpool⟩ := hc
    obtain ⟨t, ht, -, hm⟩ := h.removeStaged hpool
    exact iff_of_true ⟨t, ht, hm⟩ trivial
  | clear =>
    refine Iff.trans ?_ h.clear_iff
    constructor
    · rintro ⟨t', ht', hm⟩
      cases ht'
      exact hm
    · exact fun hm => ⟨_, rfl, hm⟩

theorem empty_mirrors : ({ pool := .empty } : HashedPool).Mirrors env :=
  ⟨fun _ _ h => (nomatch h), fun _ _ h => (nomatch h)⟩

/-- The list mirrors the pool after every call of a sequence just if no call
adds an id that is there or clears a pool that is not empty. -/
theorem hashes_mirror_iff (env : PoolEnv) (calls : List Call)
    (hcalls : Runs.Meets (step env) (fun s c => ∀ t, s = .ok t → PoolTakes env t.pool c)
      (.ok { pool := .empty }) calls) :
    (∀ n, Reaches (Mirrors env) (Runs.run (step env) (.ok { pool := .empty }) (calls.take n))) ↔
      Runs.Meets (step env) (fun s c => ∀ t, s = .ok t → KeepsMirror env t.pool c)
        (.ok { pool := .empty }) calls := by
  refine Runs.always_iff_of_legal _ (fun _ => True) (fun _ _ _ _ => trivial) ?_ trivial
    ⟨_, rfl, empty_mirrors⟩ calls hcalls
  rintro _ c - hlegal ⟨s, rfl, hs⟩
  rw [hs.step_iff (hlegal s rfl)]
  constructor
  · rintro hk _ ⟨⟩
    exact hk
  · exact fun hk => hk s rfl

/-- A transaction comes in. -/
def entering (id : BitVec 32) : Call :=
  .addUnchecked ((spender id 9).getHash versionHashes)
    (.create sampleEnv (spender id 9) 1000 0 false 4 {}) []

/-- Two come in, the first one goes, the second one too, and the pool is
cleared. -/
theorem hashes_mirror_iff_sample :
    Runs.Meets (step sampleEnv) (fun s c => ∀ t, s = .ok t → KeepsMirror sampleEnv t.pool c)
      (.ok { pool := .empty }) [entering 1, entering 2, .removeStaged [1] false .expiry,
        .removeStaged [2] false .expiry, .clear] ∧
    ∀ n, Reaches (Mirrors sampleEnv) (Runs.run (step sampleEnv) (.ok { pool := .empty })
      ([entering 1, entering 2, .removeStaged [1] false .expiry,
        .removeStaged [2] false .expiry, .clear].take n)) := by
  have hkeeps : Runs.Meets (step sampleEnv)
      (fun s c => ∀ t, s = .ok t → KeepsMirror sampleEnv t.pool c) (.ok { pool := .empty })
      [entering 1, entering 2, .removeStaged [1] false .expiry,
        .removeStaged [2] false .expiry, .clear] := by
    decide +kernel
  exact ⟨hkeeps, (hashes_mirror_iff sampleEnv _ (by decide +kernel)).mpr hkeeps⟩

/-- A pool with one transaction is cleared: the pair of the transaction stays
behind. -/
theorem cleared_pool_keeps_pair :
    Runs.Meets (step sampleEnv) (fun s c => ∀ t, s = .ok t → PoolTakes sampleEnv t.pool c)
      (.ok { pool := .empty }) [entering 1, .clear] ∧
    ∃ t, Runs.run (step sampleEnv) (.ok { pool := .empty }) [entering 1, .clear] = .ok t ∧
      t.pool.contains 1 = false ∧ (1, 1) ∈ t.vTxHashes ∧ ¬ t.Mirrors sampleEnv := by
  have hok : okWith (Runs.run (step sampleEnv) (.ok { pool := .empty }) [entering 1, .clear])
      (fun t => !t.pool.contains 1 && t.vTxHashes == [(1, 1)]) = true := by
    decide +kernel
  obtain ⟨t, ht, htest⟩ := of_okWith hok
  rw [Bool.and_eq_true, Bool.not_eq_true', beq_iff_eq] at htest
  refine ⟨by decide +kernel, t, ht, htest.1, by simp [htest.2], fun hm => ?_⟩
  have hin := (hm.pairs 0 (1, 1) (by rw [htest.2]; rfl)).1
  rw [htest.1] at hin
  cases hin

end HashedPool

end junkcoin
