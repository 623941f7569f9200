-- Numbers written in a buffer of digits, least digit first: one pass that
-- multiplies by a factor and adds a digit in place, and what is read from the
-- buffer at the end.
import Mathlib.Data.Nat.Digits.Lemmas
import Mathlib.Data.List.DropRight
import Mathlib.Tactic.Ring

namespace Positional

variable {base : Nat}

/-! ## One pass over the digits -/

/-- Multiplies the digits by `factor` and adds `carry`. The pass ends when
nothing is carried and `used` digits are done, or at the end of the buffer.
It returns the digits, the last carry and the number of digits done. -/
def mulAdd (base factor used : Nat) : (carry i : Nat) → List Nat → List Nat × Nat × Nat
  | carry, i, [] => ([], carry, i)
  | carry, i, d :: ds =>
    if carry ≠ 0 ∨ i < used then
      let carry := carry + factor * d
      let (ds, last, i) := mulAdd base factor used (carry / base) (i + 1) ds
      (carry % base :: ds, last, i)
    else (d :: ds, carry, i)

theorem ofDigits_zeros {ds : List Nat} (h : ∀ d ∈ ds, d = 0) : Nat.ofDigits base ds = 0 := by
  induction ds with
  | nil => rfl
  | cons d ds ih =>
    rw [Nat.ofDigits_cons, ih fun x hx => h x (List.mem_cons_of_mem _ hx),
      h d List.mem_cons_self]
    simp

/-- The digits from the `n`-th on are zero. -/
def ZeroFrom (n : Nat) (ds : List Nat) : Prop := ∀ d ∈ ds.drop n, d = 0

theorem ZeroFrom.tail {used i d : Nat} {ds : List Nat} (h : ZeroFrom (used - i) (d :: ds)) :
    ZeroFrom (used - (i + 1)) ds := by
  intro x hx
  refine h x ?_
  rcases Nat.lt_or_ge i used with hlt | hge
  · rw [show used - i = used - (i + 1) + 1 by omega, List.drop_succ_cons]
    exact hx
  · rw [show used - i = 0 by omega, List.drop_zero]
    exact List.mem_cons_of_mem _ (List.mem_of_mem_drop hx)

/-- The value after the first digit is done, from the value of the others. -/
theorem ofDigits_mulAdd_cons {factor carry d last : Nat} {ds ds' : List Nat}
    (h : Nat.ofDigits base ds' + base ^ ds.length * last =
      Nat.ofDigits base ds * factor + (carry + factor * d) / base) :
    Nat.ofDigits base ((carry + factor * d) % base :: ds') + base ^ (d :: ds).length * last =
      Nat.ofDigits base (d :: ds) * factor + carry :=
  calc Nat.ofDigits base ((carry + factor * d) % base :: ds') + base ^ (d :: ds).length * last
      = (carry + factor * d) % base +
          base * (Nat.ofDigits base ds' + base ^ ds.length * last) := by
        rw [Nat.ofDigits_cons, List.length_cons, Nat.pow_succ]
        ring
    _ = (base * ((carry + factor * d) / base) + (carry + factor * d) % base) +
          base * Nat.ofDigits base ds * factor := by
        rw [h]
        ring
    _ = Nat.ofDigits base (d :: ds) * factor + carry := by
        rw [Nat.div_add_mod, Nat.ofDigits_cons]
        ring

/-- What one pass does to the value, the digits and the part in use. -/
theorem mulAdd_spec (factor used : Nat) (hbase : 0 < base) (carry i : Nat) (ds : List Nat)
    (hzero : ZeroFrom (used - i) ds) :
    (mulAdd base factor used carry i ds).1.length = ds.length ∧
    Nat.ofDigits base (mulAdd base factor used carry i ds).1 +
        base ^ ds.length * (mulAdd base factor used carry i ds).2.1 =
      Nat.ofDigits base ds * factor + carry ∧
    ((∀ d ∈ ds, d < base) → ∀ d ∈ (mulAdd base factor used carry i ds).1, d < base) ∧
    i ≤ (mulAdd base factor used carry i ds).2.2 ∧
    (mulAdd base factor used carry i ds).2.2 ≤ i + ds.length ∧
    ZeroFrom ((mulAdd base factor used carry i ds).2.2 - i)
      (mulAdd base factor used carry i ds).1 := by
  induction ds generalizing carry i with
  | nil =>
    unfold mulAdd
    refine ⟨rfl, by simp, by simp, by simp, by simp, ?_⟩
    simp [ZeroFrom]
  | cons d ds ih =>
    unfold mulAdd
    split
    · obtain ⟨hlen, hval, hdig, hlo, hhi, hz⟩ := ih ((carry + factor * d) / base) (i + 1) hzero.tail
      dsimp only
      rcases hr : mulAdd base factor used ((carry + factor * d) / base) (i + 1) ds with
        ⟨ds', last, i'⟩
      rw [hr] at hlen hval hdig hlo hhi hz
      dsimp only at *
      refine ⟨by simp [hlen], ofDigits_mulAdd_cons hval, ?_, by omega,
        by rw [List.length_cons]; omega, ?_⟩
      · intro h x hx
        rcases List.mem_cons.mp hx with rfl | hx
        · exact Nat.mod_lt _ hbase
        · exact hdig (fun y hy => h y (List.mem_cons_of_mem _ hy)) x hx
      · intro x hx
        rw [show i' - i = i' - (i + 1) + 1 by omega, List.drop_succ_cons] at hx
        exact hz x hx
    · rename_i hstop
      have hall : ∀ x ∈ d :: ds, x = 0 := by
        intro x hx
        exact hzero x (by rw [show used - i = 0 by omega]; exact hx)
      have hcarry : carry = 0 := by omega
      dsimp only
      refine ⟨rfl, ?_, fun h => h, le_rfl, by omega, ?_⟩
      · rw [ofDigits_zeros hall, hcarry]
        simp
      · intro x hx
        exact hall x (List.mem_of_mem_drop hx)

/-! ## A buffer of digits -/

/-- The number whose digits are given greatest first. -/
def ofDigitsBE (base : Nat) (ds : List Nat) : Nat := Nat.ofDigits base ds.reverse

theorem ofDigitsBE_concat (base : Nat) (ds : List Nat) (d : Nat) :
    ofDigitsBE base (ds ++ [d]) = ofDigitsBE base ds * base + d := by
  unfold ofDigitsBE
  rw [List.reverse_append, List.reverse_singleton, List.singleton_append, Nat.ofDigits_cons]
  simp [Nat.mul_comm, Nat.add_comm]

/-- More digits make the number no smaller. -/
theorem le_ofDigitsBE_append (hbase : 0 < base) (ds ds' : List Nat) :
    ofDigitsBE base ds ≤ ofDigitsBE base (ds ++ ds') := by
  unfold ofDigitsBE
  rw [List.reverse_append, Nat.ofDigits_append]
  exact le_add_left (Nat.le_mul_of_pos_left _ (Nat.pow_pos hbase))

/-- The digits, least first, of which those from `used` on are zero. -/
structure Buffer where
  digits : List Nat
  used : Nat
  deriving DecidableEq

namespace Buffer

def empty (size : Nat) : Buffer := ⟨List.replicate size 0, 0⟩

/-- One pass: the new buffer, and what was carried out of it. -/
def feed (base factor : Nat) (b : Buffer) (x : Nat) : Buffer × Nat :=
  let (digits, carry, used) := mulAdd base factor b.used x 0 b.digits
  (⟨digits, used⟩, carry)

/-- One pass for each digit, as long as nothing is carried out. -/
def feedAll (base factor : Nat) : Buffer → List Nat → Option Buffer
  | b, [] => some b
  | b, x :: xs =>
    if (b.feed base factor x).2 = 0 then feedAll base factor (b.feed base factor x).1 xs else none

/-- The digits in use, greatest first, without leading zeros. -/
def read (b : Buffer) : List Nat :=
  (b.digits.reverse.drop (b.digits.length - b.used)).dropWhile (· == 0)

/-- The buffer holds the number `n` in `size` digits. -/
structure Holds (base size n : Nat) (b : Buffer) : Prop where
  length : b.digits.length = size
  used : b.used ≤ size
  digits : ∀ d ∈ b.digits, d < base
  value : Nat.ofDigits base b.digits = n
  zero : ZeroFrom b.used b.digits

variable {factor size n : Nat} {b : Buffer}

theorem holds_empty (size : Nat) (hbase : 0 < base) : (empty size).Holds base size 0 where
  length := List.length_replicate
  used := Nat.zero_le _
  digits := fun _ hd => List.eq_of_mem_replicate hd ▸ hbase
  value := Nat.ofDigits_replicate_zero
  zero := fun _ hd => List.eq_of_mem_replicate (List.mem_of_mem_drop hd)

theorem Holds.lt (h : b.Holds base size n) (hbase : 1 < base) : n < base ^ size := by
  rw [← h.value, ← h.length]
  exact Nat.ofDigits_lt_base_pow_length hbase h.digits

/-- Nothing is carried out exactly when the new number has room. -/
theorem Holds.feed (h : b.Holds base size n) (hbase : 1 < base) (factor x : Nat) :
    ((b.feed base factor x).2 = 0 ↔ n * factor + x < base ^ size) ∧
      ((b.feed base factor x).2 = 0 →
        (b.feed base factor x).1.Holds base size (n * factor + x)) := by
  obtain ⟨hlen, hval, hdig, -, hused, hzero⟩ :=
    mulAdd_spec factor b.used (Nat.zero_lt_of_lt hbase) x 0 b.digits h.zero
  unfold Buffer.feed
  rcases hr : mulAdd base factor b.used x 0 b.digits with ⟨digits, carry, used⟩
  rw [hr] at hlen hval hdig hused hzero
  dsimp only at *
  rw [h.value, h.length] at hval
  have hholds : carry = 0 → Buffer.Holds base size (n * factor + x) ⟨digits, used⟩ := by
    rintro rfl
    have hfit : used ≤ size := h.length ▸ (by omega : used ≤ b.digits.length)
    exact ⟨hlen.trans h.length, hfit, hdig h.digits, by simpa using hval, hzero⟩
  refine ⟨⟨fun hcarry => (hholds hcarry).lt hbase, fun hroom => ?_⟩, hholds⟩
  by_contra hne
  have := Nat.le_mul_of_pos_right (base ^ size) (Nat.pos_of_ne_zero hne)
  omega

/-- The passes write the number whose digits they add, as long as it has
room. -/
theorem Holds.feedAll {pre : List Nat} (h : b.Holds base size (ofDigitsBE factor pre))
    (hbase : 1 < base) (hfactor : 0 < factor) (xs : List Nat) :
    (b.feedAll base factor xs = none ∧ base ^ size ≤ ofDigitsBE factor (pre ++ xs)) ∨
      ∃ b', b.feedAll base factor xs = some b' ∧
        b'.Holds base size (ofDigitsBE factor (pre ++ xs)) := by
  induction xs generalizing pre b with
  | nil =>
    rw [List.append_nil]
    exact Or.inr ⟨b, rfl, h⟩
  | cons x xs ih =>
    obtain ⟨hcarry, hholds⟩ := h.feed hbase factor x
    rw [← ofDigitsBE_concat] at hcarry hholds
    unfold Buffer.feedAll
    split
    · rename_i h0
      rw [List.append_cons]
      exact ih (hholds h0)
    · rename_i h0
      rw [hcarry, Nat.not_lt] at h0
      rw [List.append_cons]
      exact Or.inl ⟨rfl, h0.trans (le_ofDigitsBE_append hfactor _ xs)⟩

/-- What is read are the digits of the number. -/
theorem Holds.read (h : b.Holds base size n) (hbase : 1 < base) :
    b.read = (Nat.digits base n).reverse := by
  have hpart : b.read = ((b.digits.take b.used).rdropWhile (· == 0)).reverse := by
    unfold Buffer.read List.rdropWhile
    rw [List.reverse_take, List.reverse_reverse]
  have hzeros : ∀ d ∈ (b.digits.take b.used).rtakeWhile (· == 0), d = 0 := fun d hd => by
    simpa using List.mem_rtakeWhile_imp hd
  have hvalue : Nat.ofDigits base ((b.digits.take b.used).rdropWhile (· == 0)) = n := by
    rw [← h.value]
    conv_rhs => rw [← List.take_append_drop b.used b.digits, Nat.ofDigits_append,
      ofDigits_zeros h.zero, Nat.mul_zero, Nat.add_zero,
      ← List.rdropWhile_append_rtakeWhile (p := (· == 0)) (l := b.digits.take b.used),
      Nat.ofDigits_append, ofDigits_zeros hzeros, Nat.mul_zero, Nat.add_zero]
  rw [hpart, ← hvalue, Nat.digits_ofDigits base hbase]
  · intro d hd
    exact h.digits d (List.mem_of_mem_take ((List.rdropWhile_prefix (· == 0) _).subset hd))
  · intro hne
    simpa using List.rdropWhile_last_not (· == 0) _ hne

/-- What is read after the passes over an empty buffer is the number in the
other base, if there is room for it. -/
theorem feedAll_empty_iff {xs : List Nat} {α : Type} (hbase : 1 < base) (hfactor : 0 < factor)
    (F : List Nat → α) {y : α} :
    (∃ b, (empty size).feedAll base factor xs = some b ∧ F b.read = y) ↔
      ofDigitsBE factor xs < base ^ size ∧
        F (Nat.digits base (ofDigitsBE factor xs)).reverse = y := by
  have hempty : (empty size).Holds base size (ofDigitsBE factor []) :=
    holds_empty size (Nat.zero_lt_of_lt hbase)
  rcases hempty.feedAll hbase hfactor xs with ⟨hnone, hlarge⟩ | ⟨b, hsome, hholds⟩
  · rw [List.nil_append, ← Nat.not_lt] at hlarge
    simp [hnone, hlarge]
  · rw [List.nil_append] at hholds
    simp only [hsome, Option.some.injEq, exists_eq_left', hholds.read hbase, hholds.lt hbase,
      true_and]

end Buffer

/-! ## Numbers and how many digits they need -/

theorem ofDigitsBE_lt (hbase : 1 < base) {ds : List Nat} (h : ∀ d ∈ ds, d < base) :
    ofDigitsBE base ds < base ^ ds.length := by
  have := Nat.ofDigits_lt_base_pow_length hbase fun d hd => h d (List.mem_reverse.mp hd)
  rwa [List.length_reverse] at this

/-- Digits without a leading zero are the digits of their number. -/
theorem digits_ofDigitsBE (hbase : 1 < base) {ds : List Nat} (h : ∀ d ∈ ds, d < base)
    (hhead : ds.head? ≠ some 0) : (Nat.digits base (ofDigitsBE base ds)).reverse = ds := by
  unfold ofDigitsBE
  rw [Nat.digits_ofDigits base hbase, List.reverse_reverse]
  · exact fun d hd => h d (List.mem_reverse.mp hd)
  · intro hne h0
    apply hhead
    rw [← h0, List.getLast_reverse, List.head?_eq_some_head]

/-- The digits of a number do not begin with a zero. -/
theorem head_digits {n : Nat} : (Nat.digits base n).reverse.head? ≠ some 0 := by
  rw [List.head?_reverse]
  intro h
  obtain ⟨ne, hlast⟩ := List.mem_getLast?_eq_getLast h
  exact Nat.getLast_digit_ne_zero base (Nat.digits_ne_nil_iff_ne_zero.mp ne) hlast.symm

theorem ofDigitsBE_digits (base n : Nat) : ofDigitsBE base (Nat.digits base n).reverse = n := by
  unfold ofDigitsBE
  rw [List.reverse_reverse, Nat.ofDigits_digits]

/-- The number of digits that a rate of two bases asks for is enough. -/
theorem pow_le_of_rate {b c p q : Nat} (hc : 0 < c) (hq : 0 < q) (hrate : b ^ q ≤ c ^ p)
    (n : Nat) : b ^ n ≤ c ^ (n * p / q + 1) := by
  refine (Nat.pow_le_pow_iff_left hq.ne').mp ?_
  calc (b ^ n) ^ q = (b ^ q) ^ n := by rw [← Nat.pow_mul, ← Nat.pow_mul, Nat.mul_comm]
    _ ≤ (c ^ p) ^ n := Nat.pow_le_pow_left hrate n
    _ = c ^ (n * p) := by rw [← Nat.pow_mul, Nat.mul_comm]
    _ ≤ c ^ ((n * p / q + 1) * q) := by
      refine Nat.pow_le_pow_right hc ?_
      have := Nat.lt_div_mul_add (a := n * p) hq
      rw [Nat.add_mul]
      omega
    _ = (c ^ (n * p / q + 1)) ^ q := Nat.pow_mul ..

end Positional
