-- The cache of valid signatures (`cuckoocache.h`). An insertion may push
-- elements from one of their places to another; whatever it does, no slot
-- comes to hold an element that was not inserted.
import Mathlib.Algebra.Group.Nat.Defs
import Mathlib.Data.Fintype.Basic
import Mathlib.Data.Set.Subsingleton

namespace junkcoin.CuckooCache

/-! ## The cache -/

/-- What `setup` and the hash function fix: the size, the depth limit and the
eight locations of each element. `default` fills the slots at the start. -/
structure Shape (Element : Type) where
  size : Nat
  two_le : 2 ≤ size
  depth_limit : Nat
  compute_hashes : Element → Fin 8 → Fin size
  default : Element

variable {Element : Type} (shape : Shape Element)

/-- The epoch size that `setup` computes, on `uint32_t`. -/
def Shape.epoch_size : Nat := max 1 (45 * shape.size % 2 ^ 32 / 100)

structure Cache (shape : Shape Element) where
  table : Fin shape.size → Element
  collection_flags : Fin shape.size → Bool
  epoch_flags : Fin shape.size → Bool
  epoch_heuristic_counter : Nat

/-- The cache after `setup`: every slot may be used. -/
def setup : Cache shape where
  table _ := shape.default
  collection_flags _ := true
  epoch_flags _ := false
  epoch_heuristic_counter := shape.epoch_size

namespace Cache

variable {shape} (s : Cache shape) {p : Fin shape.size → Bool} {loc : Fin shape.size}

def allow_erase (n : Fin shape.size) : Cache shape :=
  { s with collection_flags := Function.update s.collection_flags n true }

/-- `please_keep(n)` and `epoch_flags[n] = epoch`. -/
def please_keep (n : Fin shape.size) (epoch : Bool) : Cache shape :=
  { s with
    collection_flags := Function.update s.collection_flags n false
    epoch_flags := Function.update s.epoch_flags n epoch }

def epoch_check : Cache shape :=
  if s.epoch_heuristic_counter ≠ 0 then
    { s with epoch_heuristic_counter := s.epoch_heuristic_counter - 1 }
  else
    let epoch_unused_count := (List.finRange shape.size).countP fun i =>
      s.epoch_flags i && !s.collection_flags i
    if epoch_unused_count ≥ shape.epoch_size then
      { s with
        -- elements of the old epoch may go, those of this one become old
        collection_flags := fun i => s.collection_flags i || !s.epoch_flags i
        epoch_flags := fun _ => false
        epoch_heuristic_counter := shape.epoch_size }
    else
      { s with
        epoch_heuristic_counter :=
          max 1 (max (shape.epoch_size / 16) (shape.epoch_size - epoch_unused_count)) }

/-- The first of the locations of `e` that a condition picks. -/
def findLoc (e : Element) (p : Fin shape.size → Bool) : Option (Fin shape.size) :=
  (List.ofFn (shape.compute_hashes e)).find? p

/-- `locs[(1 + (std::find(locs, last_loc) - locs.begin())) & 7]`. -/
def nextLoc (e : Element) (last_loc : Option (Fin shape.size)) : Fin shape.size :=
  let found := match last_loc with
    | none => 8
    | some loc => (List.ofFn (shape.compute_hashes e)).idxOf loc
  shape.compute_hashes e ⟨(1 + found) % 8, Nat.mod_lt _ (by decide)⟩

/-- The loop of `insert` with the element in hand. It returns the cache and
the element that found no place. -/
def kick : (depth : Nat) → (last_loc : Option (Fin shape.size)) → (last_epoch : Bool) →
    (e : Element) → Cache shape → Cache shape × Option Element
  | 0, _, _, e, s => (s, some e)
  | depth + 1, last_loc, last_epoch, e, s =>
    match findLoc e s.collection_flags with
    | some loc =>
      ({ s with table := Function.update s.table loc e }.please_keep loc last_epoch, none)
    | none =>
      let loc := nextLoc e last_loc
      kick depth (some loc) (s.epoch_flags loc) (s.table loc)
        { s with
          table := Function.update s.table loc e
          epoch_flags := Function.update s.epoch_flags loc last_epoch }

def insert [DecidableEq Element] (e : Element) : Cache shape :=
  let s := s.epoch_check
  match findLoc e fun loc => s.table loc = e with
  | some loc => s.please_keep loc true
  | none => (s.kick shape.depth_limit none true e).1

/-- `contains`, which may also mark the element as one to be collected. -/
def contains [DecidableEq Element] (e : Element) (erase : Bool) : Bool × Cache shape :=
  match findLoc e fun loc => s.table loc = e with
  | some loc => (true, if erase then s.allow_erase loc else s)
  | none => (false, s)

/-! ## What the slots hold -/

/-- The slot is one of the eight locations of the element. -/
def AtHome (e : Element) (i : Fin shape.size) : Prop := ∃ k, shape.compute_hashes e k = i

/-- A slot that is in use, or holds another element than the default one,
holds an inserted element at one of its locations. -/
def Sound (inserted : Element → Prop) (s : Cache shape) : Prop :=
  ∀ i, s.table i ≠ shape.default ∨ s.collection_flags i = false →
    inserted (s.table i) ∧ AtHome (s.table i) i

theorem of_findLoc_eq_some {e : Element} (h : findLoc e p = some loc) :
    p loc = true ∧ AtHome e loc :=
  ⟨List.find?_some h, (List.mem_ofFn' _ _).mp (List.mem_of_find?_eq_some h)⟩

theorem of_findLoc_eq_none {e : Element} (h : findLoc e p = none) (hloc : AtHome e loc) :
    p loc = false := by
  obtain ⟨k, rfl⟩ := hloc
  simpa using List.find?_eq_none.mp h _ ((List.mem_ofFn' _ _).mpr ⟨k, rfl⟩)

theorem atHome_nextLoc (e : Element) (last_loc : Option (Fin shape.size)) :
    AtHome e (nextLoc e last_loc) := ⟨_, rfl⟩

section Keeps

variable {s t : Cache shape} {inserted : Element → Prop} {e : Element} {loc : Fin shape.size}
  {last_loc : Option (Fin shape.size)} {last_epoch : Bool}

/-- An inserted element is written to one of its locations. -/
theorem Sound.write (h : Sound inserted s) (he : inserted e) (hloc : AtHome e loc)
    (htable : t.table = Function.update s.table loc e)
    (hflags : ∀ i ≠ loc, t.collection_flags i = s.collection_flags i) : Sound inserted t := by
  intro i hi
  by_cases hil : i = loc
  · subst hil
    rw [htable, Function.update_self]
    exact ⟨he, hloc⟩
  · rw [htable, Function.update_of_ne hil] at hi ⊢
    rw [hflags i hil] at hi
    exact h i hi

/-- Slots are given up. -/
theorem Sound.release (h : Sound inserted s) (htable : t.table = s.table)
    (hflags : ∀ i, t.collection_flags i = false → s.collection_flags i = false) :
    Sound inserted t := by
  intro i hi
  rw [htable] at hi ⊢
  exact h i (hi.imp_right (hflags i))

theorem sound_epoch_check (h : Sound inserted s) : Sound inserted s.epoch_check := by
  rw [epoch_check]
  split
  · exact h
  · dsimp only
    split
    · refine h.release rfl fun i hi => ?_
      simp only [Bool.or_eq_false_iff] at hi
      exact hi.1
    · exact h

theorem sound_kick {depth : Nat} (h : Sound inserted s) (he : inserted e) :
    Sound inserted (s.kick depth last_loc last_epoch e).1 := by
  induction depth generalizing s e last_loc last_epoch with
  | zero => exact h
  | succ depth ih =>
    rw [kick]
    split
    · rename_i loc hfind
      refine h.write he (of_findLoc_eq_some hfind).2 rfl fun i hi => ?_
      exact Function.update_of_ne hi _ _
    · rename_i hfind
      have hhome := atHome_nextLoc e last_loc
      -- the element that is pushed out was in use
      have hout := h _ (Or.inr (of_findLoc_eq_none hfind hhome))
      exact ih (h.write he hhome rfl fun i _ => rfl) hout.1

theorem sound_insert [DecidableEq Element] (h : Sound inserted s) (he : inserted e) :
    Sound inserted (s.insert e) := by
  have hcheck := sound_epoch_check h
  rw [insert]
  split
  · rename_i loc hfind
    obtain ⟨hfound, hhome⟩ := of_findLoc_eq_some hfind
    refine hcheck.write he hhome ?_ fun i hi => Function.update_of_ne hi _ _
    rw [← of_decide_eq_true hfound, Function.update_eq_self]
    rfl
  · exact sound_kick hcheck he

theorem sound_contains [DecidableEq Element] (h : Sound inserted s) (erase : Bool) :
    Sound inserted (s.contains e erase).2 := by
  rw [contains]
  split
  · rename_i loc _
    split
    · refine h.release rfl fun i hi => ?_
      simp only [allow_erase, Function.update_apply] at hi
      split at hi
      · cases hi
      · exact hi
    · exact h
  · exact h

/-- What is in use, and the element in hand, is in the table at the end or is
the one that found no place. -/
theorem kick_keeps {depth : Nat} {x : Element}
    (hx : (∃ i, s.collection_flags i = false ∧ s.table i = x) ∨ x = e) :
    (∃ j, (s.kick depth last_loc last_epoch e).1.table j = x) ∨
      (s.kick depth last_loc last_epoch e).2 = some x := by
  induction depth generalizing s e last_loc last_epoch with
  | zero =>
    rcases hx with ⟨i, -, hi⟩ | rfl
    · exact Or.inl ⟨i, hi⟩
    · exact Or.inr rfl
  | succ depth ih =>
    rw [kick]
    split
    · rename_i loc hfind
      have hflag := (of_findLoc_eq_some hfind).1
      rcases hx with ⟨i, hunused, hi⟩ | rfl
      · have hne : i ≠ loc := fun h => by rw [h, hflag] at hunused; cases hunused
        exact Or.inl ⟨i, (Function.update_of_ne hne _ _).trans hi⟩
      · exact Or.inl ⟨loc, Function.update_self ..⟩
    · rename_i hfind
      apply ih
      rcases hx with ⟨i, hused, hi⟩ | rfl
      · by_cases hil : i = nextLoc e last_loc
        · exact Or.inr (hil ▸ hi.symm)
        · exact Or.inl ⟨i, hused, (Function.update_of_ne hil _ _).trans hi⟩
      · exact Or.inl ⟨_, of_findLoc_eq_none hfind (atHome_nextLoc x last_loc),
          Function.update_self ..⟩

end Keeps

/-- The elements in use that an insertion makes disappear. What its epoch
check gave up is not in use. -/
def lostBy [DecidableEq Element] (s : Cache shape) (e : Element) : Set Element :=
  { x | (∃ i, s.epoch_check.collection_flags i = false ∧ s.epoch_check.table i = x) ∧
    ∀ j, (s.insert e).table j ≠ x }

theorem lostBy_subsingleton [DecidableEq Element] (s : Cache shape) (e : Element) :
    (s.lostBy e).Subsingleton := by
  cases hfind : findLoc e fun loc => decide (s.epoch_check.table loc = e) with
  | some loc =>
    -- the element is there already, and the table stays as it is
    rintro x ⟨⟨i, -, hi⟩, hgone⟩
    refine absurd hi ?_
    have := hgone i
    rwa [insert, hfind] at this
  | none =>
    have hlost : ∀ x ∈ s.lostBy e,
        (s.epoch_check.kick shape.depth_limit none true e).2 = some x := by
      rintro x ⟨hused, hgone⟩
      rw [insert, hfind] at hgone
      exact (kick_keeps (Or.inl hused)).resolve_left fun ⟨j, hj⟩ => hgone j hj
    intro x hx y hy
    exact Option.some.inj ((hlost x hx).symm.trans (hlost y hy))

end Cache

/-! ## Whole runs -/

variable [DecidableEq Element]

/-- The calls on a cache. -/
inductive Call (Element : Type)
  | insert (e : Element)
  | contains (e : Element) (erase : Bool)

def Call.run (s : Cache shape) : Call Element → Cache shape
  | .insert e => s.insert e
  | .contains e erase => (s.contains e erase).2

variable {shape}

theorem sound_run {inserted : Element → Prop} {s : Cache shape} (h : s.Sound inserted)
    (calls : List (Call Element)) (hins : ∀ e, Call.insert e ∈ calls → inserted e) :
    (calls.foldl (Call.run shape) s).Sound inserted := by
  induction calls generalizing s with
  | nil => exact h
  | cons call calls ih =>
    have hrest : ∀ e, Call.insert e ∈ calls → inserted e := fun e he =>
      hins e (List.mem_cons_of_mem _ he)
    cases call with
    | insert e => exact ih (Cache.sound_insert h (hins e (List.mem_cons_self ..))) hrest
    | contains e erase => exact ih (Cache.sound_contains h erase) hrest

/-- After any calls every stored element is at one of its eight locations,
only inserted elements are found, and an insertion makes at most one element
disappear that was not marked for collection. -/
theorem cache_never_confirms_other (shape : Shape Element) (calls : List (Call Element)) :
    (∀ i, (calls.foldl (Call.run shape) (setup shape)).table i ≠ shape.default ∨
        (calls.foldl (Call.run shape) (setup shape)).collection_flags i = false →
      ∃ k, shape.compute_hashes ((calls.foldl (Call.run shape) (setup shape)).table i) k = i) ∧
    (∀ e erase, e ≠ shape.default →
      ((calls.foldl (Call.run shape) (setup shape)).contains e erase).1 = true →
      Call.insert e ∈ calls) ∧
    ∀ e, ((calls.foldl (Call.run shape) (setup shape)).lostBy e).Subsingleton := by
  have hsetup : (setup shape).Sound fun e => Call.insert e ∈ calls := fun i hi => by
    simp [setup] at hi
  have hsound := sound_run hsetup calls fun e he => he
  refine ⟨fun i hi => (hsound i hi).2, fun e erase hne hfound => ?_, fun e =>
    Cache.lostBy_subsingleton _ e⟩
  rw [Cache.contains] at hfound
  split at hfound
  · rename_i loc hfind
    have heq := of_decide_eq_true (Cache.of_findLoc_eq_some hfind).1
    rw [← heq] at hne ⊢
    exact (hsound loc (Or.inl hne)).1
  · cases hfound

end junkcoin.CuckooCache
