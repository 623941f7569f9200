-- Numbers as little-endian byte strings, and the first place of one list
-- in another.
import Mathlib.Data.List.Basic
import Mathlib.Tactic.Ring

namespace Bytes

/-! ## Little-endian numbers -/

/-- The `len` low bytes of `n`, the least significant first. -/
def le : (len : Nat) → (n : Nat) → List UInt8
  | 0, _ => []
  | len + 1, n => UInt8.ofNat n :: le len (n / 256)

/-- The number that a little-endian byte string stands for. -/
def ofLe : List UInt8 → Nat
  | [] => 0
  | b :: bs => b.toNat + 256 * ofLe bs

@[simp] theorem length_le (len n : Nat) : (le len n).length = len := by
  induction len generalizing n with
  | zero => rfl
  | succ len ih => simp [le, ih]

theorem ofLe_le (len n : Nat) : ofLe (le len n) = n % 256 ^ len := by
  induction len generalizing n with
  | zero => simp [le, ofLe, Nat.mod_one]
  | succ len ih =>
    have hb : (UInt8.ofNat n).toNat = n % 256 := by simp
    rw [le, ofLe, ih, hb, pow_succ', Nat.mod_mul]

theorem ofLe_append (a b : List UInt8) : ofLe (a ++ b) = ofLe a + 256 ^ a.length * ofLe b := by
  induction a with
  | nil => simp [ofLe]
  | cons x a ih =>
    rw [List.cons_append, ofLe, ofLe, ih, List.length_cons, pow_succ]
    ring

theorem ofLe_lt (b : List UInt8) : ofLe b < 256 ^ b.length := by
  induction b with
  | nil => simp [ofLe]
  | cons x b ih =>
    have hx := x.toNat_lt
    rw [ofLe, List.length_cons, pow_succ]
    omega

/-- A byte string is the string of the number that it stands for. -/
theorem le_ofLe (b : List UInt8) : le b.length (ofLe b) = b := by
  induction b with
  | nil => rfl
  | cons x b ih =>
    have hx := x.toNat_lt
    have hdiv : (x.toNat + 256 * ofLe b) / 256 = ofLe b := by omega
    have hbyte : UInt8.ofNat (x.toNat + 256 * ofLe b) = x := by
      apply UInt8.toNat_inj.mp
      rw [UInt8.toNat_ofNat']
      omega
    rw [List.length_cons, le, ofLe, hdiv, ih, hbyte]

/-- Two numbers that fit and have the same bytes are the same. -/
theorem le_inj {len m n : Nat} (hm : m < 256 ^ len) (hn : n < 256 ^ len)
    (h : le len m = le len n) : m = n := by
  have he := congrArg ofLe h
  rwa [ofLe_le, ofLe_le, Nat.mod_eq_of_lt hm, Nat.mod_eq_of_lt hn] at he

/-! ## The first place of a pattern -/

section Search

variable {α : Type} [DecidableEq α] {l pat : List α} {x : α}

/-- The first index at which `pat` stands in the list, as `std::search`. -/
def search (pat : List α) : List α → Option Nat
  | [] => if pat = [] then some 0 else none
  | x :: xs =>
    if pat.isPrefixOf (x :: xs) then some 0 else (search pat xs).map (· + 1)

theorem take_of_isPrefixOf (h : pat.isPrefixOf l = true) : l.take pat.length = pat := by
  rw [List.isPrefixOf_iff_prefix] at h
  exact (List.prefix_iff_eq_take.mp h).symm

/-- The pattern stands where `search` says. -/
theorem search_some {i : Nat} (h : search pat l = some i) : (l.drop i).take pat.length = pat := by
  induction l generalizing i with
  | nil =>
    simp only [search] at h
    split at h
    · rename_i hp
      simp [hp]
    · cases h
  | cons x xs ih =>
    simp only [search] at h
    split at h
    · rename_i hp
      cases h
      exact take_of_isPrefixOf hp
    · rcases hs : search pat xs with _ | j
      · simp [hs] at h
      · simp only [hs, Option.map_some, Option.some.injEq] at h
        subst h
        exact ih hs

/-- Where the pattern does not stand at the front, the search goes on. -/
theorem search_cons_of_not_prefix (h : ¬ pat <+: x :: l) :
    search pat (x :: l) = (search pat l).map (· + 1) := by
  rw [search, if_neg (fun hp => h (List.isPrefixOf_iff_prefix.mp hp))]

theorem search_of_prefix (hl : l ≠ []) (h : pat <+: l) : search pat l = some 0 := by
  cases l with
  | nil => exact absurd rfl hl
  | cons x l => rw [search, if_pos (List.isPrefixOf_iff_prefix.mpr h)]

omit [DecidableEq α] in
/-- A pattern does not reach across an element that it does not have. -/
theorem prefix_of_prefix_append {r : List α} (hx : x ∉ pat) (h : pat <+: l ++ x :: r) :
    pat <+: l := by
  rcases Nat.le_or_ge pat.length l.length with hle | hge
  · exact List.prefix_of_prefix_length_le h (List.prefix_append _ _) hle
  · rcases Nat.eq_or_lt_of_le hge with heq | hlt
    · exact List.prefix_of_prefix_length_le h (List.prefix_append _ _) heq.ge
    · have hfront : l ++ [x] <+: l ++ x :: r := ⟨r, by simp⟩
      have hlong : l ++ [x] <+: pat := by
        refine List.prefix_of_prefix_length_le hfront h ?_
        rw [List.length_append, List.length_singleton]
        omega
      exact absurd (hlong.subset (by simp)) hx

/-- A pattern that stands in neither part does not stand in the whole, with
an element between the parts that it does not have. -/
theorem search_append_none {r : List α} (hx : x ∉ pat) (hl : search pat l = none)
    (hr : search pat r = none) : search pat (l ++ x :: r) = none := by
  induction l with
  | nil =>
    have hne : pat ≠ [] := by
      rintro rfl
      cases hl
    rw [List.nil_append, search_cons_of_not_prefix, hr]
    · rfl
    · intro h
      exact hne (List.prefix_nil.mp (prefix_of_prefix_append (l := []) hx h))
  | cons y l ih =>
    rw [search] at hl
    split at hl
    · cases hl
    · rename_i hp
      have hl' : search pat l = none := by simpa using hl
      rw [List.cons_append, search_cons_of_not_prefix, ih hl']
      · rfl
      · intro h
        exact hp (List.isPrefixOf_iff_prefix.mpr
          (prefix_of_prefix_append (l := y :: l) hx h))

end Search

end Bytes
