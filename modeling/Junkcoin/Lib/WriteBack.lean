-- A write-back cache over a base that only answers reads. Each entry says
-- if it differs from the base (`dirty`) and if the base has nothing under
-- its key (`fresh`). A fresh entry whose value is gone is dropped at once.
-- `Sound` is what makes that safe: under it the cache reads as one flat map,
-- and so does its parent after the entries are written to it.
import Mathlib.Data.List.AList

namespace WriteBack

/-- Values that can stand for "nothing is here". A reader that finds a gone
value and a reader that finds no value at all have seen the same thing. -/
class Vacant (V : Type) where
  blank : V
  gone : V → Bool
  gone_blank : gone blank = true

attribute [simp] Vacant.gone_blank

open Vacant

/-- A cached value with its two flags. -/
structure Entry (V : Type) where
  val : V
  dirty : Bool
  fresh : Bool
  deriving DecidableEq

/-- The entries of one cache. -/
abbrev Entries (K V : Type) := AList (fun _ : K => Entry V)

variable {K V : Type} [DecidableEq K] [Vacant V] {v : V} {es es' : Entries K V}
  {base : K → Option V} {k : K} {overwrite : Bool}

/-- All gone values count as the blank one. -/
def tidy (v : V) : V := if gone v then blank else v

@[simp] theorem tidy_of_gone (h : gone v = true) : tidy v = blank := by simp [tidy, h]

theorem tidy_of_not_gone (h : gone v = false) : tidy v = v := by simp [tidy, h]

@[simp] theorem tidy_blank : tidy (blank : V) = blank := by simp

@[simp] theorem gone_tidy (v : V) : gone (tidy v) = gone v := by
  unfold tidy
  split <;> simp [*]

@[simp] theorem tidy_tidy (v : V) : tidy (tidy v) = tidy v := by
  by_cases h : gone v = true
  · rw [tidy_of_gone h, tidy_blank]
  · rw [tidy_of_not_gone (by simpa using h), tidy_of_not_gone (by simpa using h)]

/-! ## The operations -/

/-- A read looks in the cache first, and then in the base. -/
def read (es : Entries K V) (base : K → Option V) (k : K) : Option V :=
  match es.lookup k with
  | some e => some e.val
  | none => base k

/-- The value under a key, or the blank one. -/
def raw (es : Entries K V) (base : K → Option V) (k : K) : V := (read es base k).getD blank

/-- What a reader learns about a key. -/
def content (es : Entries K V) (base : K → Option V) (k : K) : V := tidy (raw es base k)

/-- A read also keeps a copy of what the base answered. -/
def fetch (es : Entries K V) (base : K → Option V) (k : K) : Entries K V :=
  match es.lookup k with
  | some _ => es
  | none =>
    match base k with
    | none => es
    | some v => es.insert k ⟨v, false, gone v⟩

/-- The entry that a change of `k` starts from. -/
def entryFor (es : Entries K V) (base : K → Option V) (k : K) : Entry V :=
  match es.lookup k with
  | some e => e
  | none =>
    match base k with
    | none => ⟨blank, false, true⟩
    | some v => ⟨v, false, gone v⟩

/-- Put the entry back, or drop it when the base need not hear of it. -/
def settle (es : Entries K V) (k : K) (e : Entry V) : Entries K V :=
  if e.fresh && gone e.val then es.erase k else es.insert k e

def modify (es : Entries K V) (base : K → Option V) (k : K) (f : V → V) : Entries K V :=
  let e := entryFor es base k
  settle es k ⟨f e.val, true, e.fresh⟩

/-- Replace the value of `k` with no look at the base. Without `overwrite`
the cache must hold no value for `k`, and the new entry is taken to be fresh
unless an earlier change of `k` still has to reach the base. -/
def renew (es : Entries K V) (k : K) (overwrite : Bool) (v : V) : Option (Entries K V) :=
  let e := (es.lookup k).getD ⟨blank, false, false⟩
  if !overwrite && !gone e.val then none
  else some (settle es k ⟨v, true, e.fresh || (!overwrite && !e.dirty)⟩)

/-- Forget an entry that the base need not hear of. -/
def uncache (es : Entries K V) (k : K) : Entries K V :=
  match es.lookup k with
  | none => es
  | some e => if !e.dirty && !e.fresh then es.erase k else es

/-- Write one entry of a child cache to its parent. -/
def writeEntry (ps : Entries K V) (k : K) (e : Entry V) : Option (Entries K V) :=
  if !e.dirty then some ps
  else
    match ps.lookup k with
    | none => if e.fresh && gone e.val then some ps else some (ps.insert k ⟨e.val, true, e.fresh⟩)
    | some p =>
      if e.fresh && !gone p.val then none
      else if p.fresh && gone e.val then some (ps.erase k)
      else some (ps.insert k ⟨e.val, true, p.fresh⟩)

def writeList (ps : Entries K V) : List (Sigma fun _ : K => Entry V) → Option (Entries K V)
  | [] => some ps
  | ⟨k, e⟩ :: l => (writeEntry ps k e).bind fun ps' => writeList ps' l

/-- Write all entries of a child cache to its parent. -/
def batchWrite (ps cs : Entries K V) : Option (Entries K V) := writeList ps cs.entries

/-- Write the dirty entries of a cache to a plain store. -/
def commitList (store : AList fun _ : K => V) :
    List (Sigma fun _ : K => Entry V) → AList fun _ : K => V
  | [] => store
  | ⟨k, e⟩ :: l =>
    commitList (if !e.dirty then store else if gone e.val then store.erase k
      else store.insert k e.val) l

def commit (store : AList fun _ : K => V) (cs : Entries K V) : AList fun _ : K => V :=
  commitList store cs.entries

/-! ## The invariant of a cache -/

/-- A clean entry repeats the base. -/
def Clean (es : Entries K V) (base : K → Option V) : Prop :=
  ∀ k e, es.lookup k = some e → e.dirty = false → base k = some e.val

/-- A fresh entry has nothing below it, and a clean entry repeats the base. -/
structure Sound (es : Entries K V) (base : K → Option V) : Prop where
  fresh_gone : ∀ k e, es.lookup k = some e → e.fresh = true → gone ((base k).getD blank) = true
  clean_eq : Clean es base

/-- The cache has an entry for everything that the base holds under `k`. -/
def Knows (es : Entries K V) (base : K → Option V) (k : K) : Prop :=
  es.lookup k = none → gone ((base k).getD blank) = true

theorem sound_empty (base : K → Option V) : Sound (∅ : Entries K V) base := by
  constructor <;> intro k e h <;> simp at h

section Lookup

variable (es : Entries K V) (base : K → Option V)

theorem raw_of_lookup {k : K} {e : Entry V} (h : es.lookup k = some e) :
    raw es base k = e.val := by
  simp [raw, read, h]

theorem raw_of_lookup_none {k : K} (h : es.lookup k = none) :
    raw es base k = (base k).getD blank := by
  simp [raw, read, h]

theorem entryFor_val (k : K) : (entryFor es base k).val = raw es base k := by
  unfold entryFor raw read
  rcases es.lookup k with _ | e
  · rcases base k with _ | v <;> rfl
  · rfl

theorem entryFor_fresh (h : Sound es base) (k : K) (hf : (entryFor es base k).fresh = true) :
    gone ((base k).getD blank) = true := by
  unfold entryFor at hf
  rcases he : es.lookup k with _ | e
  · simp only [he] at hf
    rcases hb : base k with _ | v
    · simp
    · simpa [hb] using hf
  · simp only [he] at hf
    exact h.fresh_gone k e he hf

theorem lookup_settle (k j : K) (e : Entry V) :
    (settle es k e).lookup j =
      if j = k then (if e.fresh && gone e.val then none else some e) else es.lookup j := by
  unfold settle
  by_cases hj : j = k
  · subst hj
    split <;> simp
  · split
    · exact AList.lookup_erase_ne hj
    · exact AList.lookup_insert_ne hj

/-- What `settle` does to the reader, when a dropped entry tells the truth
about the base. -/
theorem content_settle (k j : K) (e : Entry V)
    (hf : j = k → e.fresh = true → gone e.val = true → gone ((base k).getD blank) = true) :
    content (settle es k e) base j = if j = k then tidy e.val else content es base j := by
  by_cases hj : j = k
  · subst hj
    by_cases hdrop : (e.fresh && gone e.val) = true
    · have hl : (settle es j e).lookup j = none := by simp [lookup_settle, hdrop]
      simp only [Bool.and_eq_true] at hdrop
      rw [content, raw_of_lookup_none _ _ hl, tidy_of_gone (hf rfl hdrop.1 hdrop.2), if_pos rfl,
        tidy_of_gone hdrop.2]
    · have hl : (settle es j e).lookup j = some e := by simp [lookup_settle, hdrop]
      rw [content, raw_of_lookup _ _ hl, if_pos rfl]
  · simp only [content, raw, read, lookup_settle, hj, if_false]

theorem clean_settle (h : Clean es base) (k : K) (e : Entry V) (hd : e.dirty = true) :
    Clean (settle es k e) base := by
  intro j x hx hcl
  rw [lookup_settle] at hx
  by_cases hj : j = k
  · subst hj
    simp only [if_true] at hx
    split at hx
    · cases hx
    · cases hx
      rw [hd] at hcl
      cases hcl
  · simp only [hj, if_false] at hx
    exact h j x hx hcl

theorem sound_settle (h : Sound es base) (k : K) (e : Entry V) (hd : e.dirty = true)
    (hf : e.fresh = true → gone ((base k).getD blank) = true) : Sound (settle es k e) base := by
  refine ⟨fun j x hx hfr => ?_, clean_settle es base h.clean_eq k e hd⟩
  rw [lookup_settle] at hx
  by_cases hj : j = k
  · subst hj
    simp only [if_true] at hx
    split at hx
    · cases hx
    · cases hx
      exact hf hfr
  · simp only [hj, if_false] at hx
    exact h.fresh_gone j x hx hfr

/-- An entry is dropped only when the base holds nothing. -/
theorem knows_settle {j : K} (h : Knows es base j) (k : K) (e : Entry V)
    (hf : e.fresh = true → gone ((base k).getD blank) = true) :
    Knows (settle es k e) base j := by
  intro hl
  rw [lookup_settle] at hl
  by_cases hj : j = k
  · subst hj
    rw [if_pos rfl] at hl
    split at hl
    · rename_i hdrop
      simp only [Bool.and_eq_true] at hdrop
      exact hf hdrop.1
    · cases hl
  · rw [if_neg hj] at hl
    exact h hl

end Lookup

/-! ## The operations on the flat map -/

theorem read_fetch (es : Entries K V) (base : K → Option V) (k j : K) :
    read (fetch es base k) base j = read es base j := by
  unfold fetch
  rcases he : es.lookup k with _ | e
  · rcases hb : base k with _ | v
    · rfl
    · by_cases hj : j = k
      · subst hj
        simp [read, he, hb]
      · simp [read, AList.lookup_insert_ne hj]
  · rfl

/-- What the cache holds after a read. -/
theorem lookup_fetch (es : Entries K V) (base : K → Option V) (k j : K) :
    (fetch es base k).lookup j = es.lookup j ∨
      j = k ∧ es.lookup k = none ∧
        ∃ v, base k = some v ∧ (fetch es base k).lookup k = some ⟨v, false, gone v⟩ := by
  unfold fetch
  rcases he : es.lookup k with _ | e
  · rcases hb : base k with _ | v
    · exact .inl rfl
    · by_cases hj : j = k
      · exact .inr ⟨hj, rfl, v, rfl, AList.lookup_insert _⟩
      · exact .inl (AList.lookup_insert_ne hj)
  · exact .inl rfl

theorem clean_fetch (h : Clean es base) (k : K) : Clean (fetch es base k) base := by
  intro j x hx hcl
  rcases lookup_fetch es base k j with hsame | ⟨rfl, -, v, hb, hnew⟩
  · exact h j x (hsame ▸ hx) hcl
  · rw [hnew] at hx
    cases hx
    exact hb

theorem sound_fetch (h : Sound es base) (k : K) : Sound (fetch es base k) base := by
  refine ⟨fun j x hx hfr => ?_, clean_fetch h.clean_eq k⟩
  rcases lookup_fetch es base k j with hsame | ⟨rfl, -, v, hb, hnew⟩
  · exact h.fresh_gone j x (hsame ▸ hx) hfr
  · rw [hnew] at hx
    cases hx
    rw [hb]
    exact hfr

theorem knows_fetch {j : K} (h : Knows es base j) (k : K) : Knows (fetch es base k) base j := by
  intro hl
  rcases lookup_fetch es base k j with hsame | ⟨rfl, -, v, -, hnew⟩
  · exact h (hsame ▸ hl)
  · rw [hnew] at hl
    cases hl

theorem content_modify (k j : K) (f : V → V)
    (hf : j = k → (entryFor es base k).fresh = true → gone (f (raw es base k)) = true →
      gone ((base k).getD blank) = true) :
    content (modify es base k f) base j =
      if j = k then tidy (f (raw es base k)) else content es base j := by
  rw [← entryFor_val es base k] at hf ⊢
  exact content_settle es base k j ⟨_, true, _⟩ hf

theorem sound_modify (h : Sound es base) (k : K) (f : V → V) : Sound (modify es base k f) base :=
  sound_settle es base h k _ rfl (entryFor_fresh es base h k)

theorem knows_modify (h : Sound es base) {j : K} (hj : Knows es base j) (k : K) (f : V → V) :
    Knows (modify es base k f) base j :=
  knows_settle es base hj k _ (entryFor_fresh es base h k)

/-- The flag that `renew` sets tells the truth when a key that the cache
does not know is gone in the base. -/
theorem renew_fresh (h : Sound es base) (hb : overwrite = false → Knows es base k)
    (hg : overwrite = false → gone ((es.lookup k).getD ⟨blank, false, false⟩).val = true)
    (hf : (((es.lookup k).getD ⟨blank, false, false⟩).fresh ||
      (!overwrite && !((es.lookup k).getD ⟨blank, false, false⟩).dirty)) = true) :
    gone ((base k).getD blank) = true := by
  rcases he : es.lookup k with _ | e
  · simp only [he, Option.getD_none, Bool.false_or, Bool.and_eq_true, Bool.not_eq_true'] at hf
    exact hb hf.1 he
  · simp only [he, Option.getD_some, Bool.or_eq_true, Bool.and_eq_true, Bool.not_eq_true'] at hf hg
    rcases hf with hfr | ⟨how, hcl⟩
    · exact h.fresh_gone k e he hfr
    · simp only [h.clean_eq k e he hcl, Option.getD_some]
      exact hg how

theorem content_renew (h : Sound es base) (hb : overwrite = false → Knows es base k)
    (hr : renew es k overwrite v = some es') :
    Sound es' base ∧
      (∀ j, content es' base j = if j = k then tidy v else content es base j) ∧
      ∀ j, Knows es base j → Knows es' base j := by
  unfold renew at hr
  simp only at hr
  split at hr
  · cases hr
  · rename_i hc
    cases hr
    have hg : overwrite = false →
        gone ((es.lookup k).getD ⟨blank, false, false⟩).val = true := by
      intro how
      simpa [how] using hc
    refine ⟨sound_settle es base h k _ rfl (renew_fresh h hb hg), fun j => ?_,
      fun j hj => knows_settle es base hj k _ (renew_fresh h hb hg)⟩
    rw [content_settle es base k j _ fun _ hfr _ => renew_fresh h hb hg hfr]

theorem clean_renew (h : Clean es base) (hr : renew es k overwrite v = some es') :
    Clean es' base := by
  unfold renew at hr
  simp only at hr
  split at hr
  · cases hr
  · cases hr
    exact clean_settle es base h k _ rfl

/-- Without `overwrite`, a successful `renew` found nothing under its key. -/
theorem renew_gone (hb : Knows es base k) (hr : renew es k false v = some es') :
    content es base k = blank := by
  unfold renew at hr
  simp only [Bool.not_false, Bool.true_and] at hr
  split at hr
  · cases hr
  · rename_i hc
    simp only [Bool.not_eq_true', Bool.not_eq_false] at hc
    rcases he : es.lookup k with _ | e
    · simp [content, raw_of_lookup_none es base he, hb he]
    · simp only [he, Option.getD_some] at hc
      simp [content, raw_of_lookup es base he, hc]

/-! ## Weights

A fresh entry that does not tell the truth hides what is in the base, and a
reader finds it again when the entry is dropped. So no operation on one key adds
more than its new value to what the key weighs together with what it hides. -/

section Weight

variable (w : V → Int) (es : Entries K V) (base : K → Option V)

/-- What the entry of a key hides. -/
def hidden (k : K) : Int :=
  match es.lookup k with
  | some e => if e.fresh then w (tidy ((base k).getD blank)) else 0
  | none => 0

def held (k : K) : Int := w (content es base k) + hidden w es base k

variable {w es base} (hblank : w blank = 0)

theorem held_nonneg (hw : ∀ v, 0 ≤ w v) (k : K) : 0 ≤ held w es base k := by
  refine Int.add_nonneg (hw _) ?_
  unfold hidden
  split
  · split
    · exact hw _
    · exact Int.le_refl _
  · exact Int.le_refl _

include hblank

theorem held_settle (k j : K) (e : Entry V) :
    held w (settle es k e) base j = if j = k then
      w (tidy e.val) + (if e.fresh then w (tidy ((base k).getD blank)) else 0)
    else held w es base j := by
  unfold held hidden
  by_cases hj : j = k
  · subst hj
    by_cases hdrop : (e.fresh && gone e.val) = true
    · have hl : (settle es j e).lookup j = none := by simp [lookup_settle, hdrop]
      simp only [Bool.and_eq_true] at hdrop
      simp [content, raw_of_lookup_none _ _ hl, hl, hdrop.1, tidy_of_gone hdrop.2, hblank]
    · have hl : (settle es j e).lookup j = some e := by simp [lookup_settle, hdrop]
      simp [content, raw_of_lookup _ _ hl, hl]
  · simp [content, raw, read, lookup_settle, hj]

theorem held_modify (k j : K) (f : V → V) :
    held w (modify es base k f) base j = if j = k then
      held w es base k - w (content es base k) + w (tidy (f (raw es base k)))
    else held w es base j := by
  have hhidden : (if (entryFor es base k).fresh then w (tidy ((base k).getD blank)) else 0) =
      hidden w es base k := by
    unfold entryFor hidden
    rcases es.lookup k with _ | e
    · rcases base k with _ | v
      · simp [hblank]
      · by_cases hv : gone v = true <;> simp [hv, hblank]
    · rfl
  simp only [modify, held_settle hblank, entryFor_val, hhidden]
  unfold held
  split <;> omega

theorem held_renew_le (hw : ∀ v, 0 ≤ w v) (h : Clean es base) {es' : Entries K V} {k : K}
    {overwrite : Bool} {v : V} (hr : renew es k overwrite v = some es') (j : K) :
    held w es' base j ≤ if j = k then held w es base k + w (tidy v) else held w es base j := by
  unfold renew at hr
  simp only at hr
  split at hr
  · cases hr
  · rename_i hc
    cases hr
    rw [held_settle hblank]
    split
    · rw [Int.add_comm]
      refine Int.add_le_add_right ?_ _
      unfold held hidden content
      rcases he : es.lookup k with _ | e
      · have hbase := hw (tidy ((base k).getD blank))
        rw [raw_of_lookup_none _ _ he]
        simp only [Option.getD_none, Int.add_zero]
        split <;> omega
      · have hval := hw (tidy e.val)
        rw [raw_of_lookup _ _ he]
        simp only [he, Option.getD_some, Bool.not_eq_true] at hc ⊢
        by_cases hf : e.fresh = true
        · simp only [hf, Bool.true_or, if_true]
          omega
        · rw [if_neg hf, Int.add_zero]
          split
          · -- a clean entry repeats the base, and has no value here
            rename_i hnew
            simp only [hf, Bool.false_or, Bool.and_eq_true, Bool.not_eq_true'] at hnew
            rw [hnew.1, Bool.not_false, Bool.true_and, Bool.not_eq_false'] at hc
            refine Int.le_of_eq ?_
            rw [h k e he hnew.2, Option.getD_some, tidy_of_gone hc]
          · exact hval
    · exact Int.le_refl _

theorem held_fetch (k j : K) : held w (fetch es base k) base j = held w es base j := by
  have hcontent : content (fetch es base k) base j = content es base j := by
    unfold content raw
    rw [read_fetch]
  unfold held hidden
  rw [hcontent]
  rcases lookup_fetch es base k j with hsame | ⟨rfl, hnone, v, hb, hnew⟩
  · rw [hsame]
  · rw [hnew, hnone, hb]
    by_cases hv : gone v = true <;> simp [hv, hblank]

/-- A sound cache hides nothing. -/
theorem held_of_sound (h : Sound es base) (k : K) : held w es base k = w (content es base k) := by
  unfold held hidden
  rcases he : es.lookup k with _ | e
  · exact Int.add_zero _
  · by_cases hf : e.fresh = true
    · simp [hf, tidy_of_gone (h.fresh_gone k e he hf), hblank]
    · simp [hf]

end Weight

end WriteBack
