-- Readers of byte strings, and the two halves of a round trip: a reader gives
-- back what was written, whatever stands behind it, and it takes nothing but
-- what would be written.
import Mathlib.Data.List.Basic

/-- A reader takes bytes from the front of its input, or fails. -/
abbrev Reader (ε α : Type) := StateT (List UInt8) (Except ε) α

namespace Reader

variable {ε α β : Type}

/-- The next `n` bytes. -/
def take (eof : ε) (n : Nat) : Reader ε (List UInt8) := fun input =>
  if n ≤ input.length then .ok (input.take n, input.drop n) else .error eof

/-- Fail with `e` in a bad case. -/
def failIf (bad : Bool) (e : ε) : Reader ε Unit := fun input =>
  if bad then .error e else .ok ((), input)

/-- The same reader `n` times. -/
def many (r : Reader ε α) : Nat → Reader ε (List α)
  | 0 => pure []
  | n + 1 => do
    let a ← r
    let l ← many r n
    pure (a :: l)

/-- A reader for each element of a list. -/
def each (r : α → Reader ε β) : List α → Reader ε (List β)
  | [] => pure []
  | a :: l => do
    let b ← r a
    let bs ← each r l
    pure (b :: bs)

/-! ## Reading what was written -/

/-- From these bytes the reader gets this value, and leaves what follows. -/
def Reads (r : Reader ε α) (bytes : List UInt8) (a : α) : Prop :=
  ∀ rest, r (bytes ++ rest) = .ok (a, rest)

theorem Reads.pure (a : α) : Reads (pure a : Reader ε α) [] a := fun _ => rfl

theorem Reads.bind {r : Reader ε α} {f : α → Reader ε β} {bytes bytes' : List UInt8} {a : α}
    {b : β} (h : Reads r bytes a) (h' : Reads (f a) bytes' b) :
    Reads (r >>= f) (bytes ++ bytes') b := by
  intro rest
  show (r (bytes ++ bytes' ++ rest) >>= fun x => f x.1 x.2) = _
  rw [List.append_assoc, h]
  exact h' rest

/-- The last step of a reader. -/
theorem Reads.map {r : Reader ε α} {f : α → β} {bytes : List UInt8} {a : α}
    (h : Reads r bytes a) : Reads (r >>= fun a => Pure.pure (f a)) bytes (f a) := by
  have := h.bind (f := fun a => Pure.pure (f a)) (Reads.pure (f a))
  rwa [List.append_nil] at this

theorem Reads.of_eq {r : Reader ε α} {bytes bytes' : List UInt8} {a a' : α} (h : Reads r bytes a)
    (hbytes : bytes = bytes') (ha : a = a') : Reads r bytes' a' := by
  rw [← hbytes, ← ha]
  exact h

theorem reads_take (eof : ε) (bytes : List UInt8) : Reads (take eof bytes.length) bytes bytes := by
  intro rest
  simp [take]

theorem reads_failIf {bad : Bool} {e : ε} (h : bad = false) : Reads (failIf bad e) [] () := by
  intro rest
  simp [failIf, h]

theorem reads_many {r : Reader ε α} {enc : α → List UInt8} {l : List α}
    (h : ∀ a ∈ l, Reads r (enc a) a) : Reads (many r l.length) (l.flatMap enc) l := by
  induction l with
  | nil => exact Reads.pure []
  | cons a l ih =>
    exact (h a List.mem_cons_self).bind
      (ih fun b hb => h b (List.mem_cons_of_mem _ hb)).map

theorem reads_each {r : α → Reader ε β} {enc : β → List UInt8} {g : β → α} {l : List β}
    (h : ∀ b ∈ l, Reads (r (g b)) (enc b) b) :
    Reads (each r (l.map g)) (l.flatMap enc) l := by
  induction l with
  | nil => exact Reads.pure []
  | cons b l ih =>
    exact (h b List.mem_cons_self).bind
      (ih fun c hc => h c (List.mem_cons_of_mem _ hc)).map

/-! ## Taking only what would be written -/

variable {input rest : List UInt8}

theorem bind_eq_ok {r : Reader ε α} {f : α → Reader ε β} {b : β}
    (h : (r >>= f) input = .ok (b, rest)) :
    ∃ a mid, r input = .ok (a, mid) ∧ f a mid = .ok (b, rest) := by
  change (r input >>= fun x => f x.1 x.2) = _ at h
  cases hr : r input with
  | error e =>
    rw [hr] at h
    cases h
  | ok x =>
    rw [hr] at h
    exact ⟨x.1, x.2, rfl, h⟩

theorem pure_eq_ok {a b : α} (h : (pure a : Reader ε α) input = .ok (b, rest)) :
    a = b ∧ input = rest := by
  cases h
  exact ⟨rfl, rfl⟩

theorem take_eq_ok {eof : ε} {n : Nat} {b : List UInt8} (h : take eof n input = .ok (b, rest)) :
    input = b ++ rest ∧ b.length = n := by
  unfold take at h
  split at h
  · rename_i hle
    cases h
    exact ⟨(List.take_append_drop n input).symm, List.length_take_of_le hle⟩
  · cases h

theorem failIf_eq_ok {bad : Bool} {e : ε} {u : Unit} (h : failIf bad e input = .ok (u, rest)) :
    bad = false ∧ input = rest := by
  unfold failIf at h
  split at h
  · cases h
  · rename_i hbad
    cases h
    exact ⟨by simpa using hbad, rfl⟩

/-- The reader takes nothing but the encoding of what it returns. -/
def Takes (r : Reader ε α) (enc : α → List UInt8) : Prop :=
  ∀ input a rest, r input = .ok (a, rest) → input = enc a ++ rest

theorem many_eq_ok {r : Reader ε α} {enc : α → List UInt8} (hr : Takes r enc) {n : Nat}
    {l : List α} (h : many r n input = .ok (l, rest)) :
    input = l.flatMap enc ++ rest ∧ l.length = n := by
  induction n generalizing input l with
  | zero =>
    obtain ⟨rfl, rfl⟩ := pure_eq_ok h
    exact ⟨rfl, rfl⟩
  | succ n ih =>
    obtain ⟨a, mid, ha, h⟩ := bind_eq_ok h
    obtain ⟨as, mid', has, h⟩ := bind_eq_ok h
    obtain ⟨rfl, rfl⟩ := pure_eq_ok h
    obtain ⟨hmid, hlen⟩ := ih has
    refine ⟨?_, by rw [List.length_cons, hlen]⟩
    rw [hr _ _ _ ha, hmid, List.flatMap_cons, List.append_assoc]

end Reader
