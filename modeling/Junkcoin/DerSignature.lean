-- The strict encoding of signatures is DER with one byte of hash type behind
-- it. `IsValidSignatureEncoding` takes exactly these byte vectors, and reads no
-- byte outside of them.
import Junkcoin.ScriptNum
import Mathlib.Data.List.GetD

namespace junkcoin

variable (sig v : Valtype)

/-! ## The grammar -/

/-- The number that big-endian bytes stand for. -/
def ofBe : Nat := Bytes.ofLe v.reverse

/-- The bytes of a number that is not negative: the top bit is the sign. -/
def NotNegative : Prop := ∃ b ∈ v.head?, b.toNat < 128

/-- A DER integer that is not negative: no shorter bytes stand for the same
number. -/
structure DerInteger (v : Valtype) : Prop where
  notNegative : NotNegative v
  minimal : ∀ w, NotNegative w → ofBe w = ofBe v → v.length ≤ w.length

/-- `0x30 [total-length] 0x02 [R-length] [R] 0x02 [S-length] [S] [sighash]` -/
def derSignature (R S : Valtype) (sighash : UInt8) : Valtype :=
  0x30 :: UInt8.ofNat (R.length + S.length + 4) :: 0x02 :: UInt8.ofNat R.length ::
    (R ++ 0x02 :: UInt8.ofNat S.length :: (S ++ [sighash]))

/-- The signatures of 9 to 73 bytes by the grammar. -/
def IsDerSignature : Prop :=
  9 ≤ sig.length ∧ sig.length ≤ 73 ∧
    ∃ R S sighash, DerInteger R ∧ DerInteger S ∧ sig = derSignature R S sighash

/-! ## Integers by their first bytes -/

theorem ofBe_cons (b : UInt8) (v : Valtype) :
    ofBe (b :: v) = ofBe v + 256 ^ v.length * b.toNat := by
  rw [ofBe, List.reverse_cons, ofLe_snoc, List.length_reverse, ofBe]

theorem ofBe_lt : ofBe v < 256 ^ v.length := by
  have h := Bytes.ofLe_lt v.reverse
  rwa [List.length_reverse] at h

theorem NotNegative.ofBe_lt {v : Valtype} (h : NotNegative v) :
    ofBe v < 256 ^ (v.length - 1) * 128 := by
  obtain ⟨b, hb, hlt⟩ := h
  cases v with
  | nil => cases hb
  | cons c v =>
    obtain rfl : c = b := by simpa using hb
    have hv := junkcoin.ofBe_lt v
    rw [ofBe_cons, List.length_cons, Nat.add_sub_cancel]
    calc ofBe v + 256 ^ v.length * c.toNat < 256 ^ v.length * (c.toNat + 1) := by
          rw [Nat.mul_add]
          omega
      _ ≤ 256 ^ v.length * 128 := Nat.mul_le_mul_left _ hlt

/-- Minimal is what the two tests on the first bytes say. -/
theorem derInteger_iff : DerInteger v ↔ v ≠ [] ∧ (v.getD 0 0).toNat < 128 ∧
    (1 < v.length → v.getD 0 0 = 0 → 128 ≤ (v.getD 1 0).toNat) := by
  constructor
  · rintro ⟨⟨b, hb, hlt⟩, hmin⟩
    match v with
    | [] => cases hb
    | [c] =>
      obtain rfl : c = b := by simpa using hb
      exact ⟨List.cons_ne_nil _ _, hlt, fun h => absurd h (by simp)⟩
    | c :: d :: v =>
      obtain rfl : c = b := by simpa using hb
      refine ⟨List.cons_ne_nil _ _, hlt, fun _ hzero => ?_⟩
      by_contra hd
      -- without the zero byte the number is the same
      obtain rfl : c = 0 := hzero
      have := hmin (d :: v) ⟨d, rfl, by simpa using hd⟩ (by rw [ofBe_cons 0]; simp)
      simp at this
  · rintro ⟨hne, hlt, hpad⟩
    match v with
    | [] => exact absurd rfl hne
    | [c] =>
      refine ⟨⟨c, rfl, hlt⟩, fun w hw _ => ?_⟩
      obtain ⟨b, hb, -⟩ := hw
      exact List.length_pos_of_mem (List.mem_of_mem_head? hb)
    | c :: d :: v =>
      refine ⟨⟨c, rfl, hlt⟩, fun w hw heq => ?_⟩
      have hwlt := hw.ofBe_lt
      have hlow : 256 ^ v.length * 128 ≤ ofBe (c :: d :: v) := by
        rw [ofBe_cons, ofBe_cons, List.length_cons, pow_succ]
        by_cases hzero : c = 0
        · have hd : 128 ≤ d.toNat := hpad (by simp) hzero
          have := Nat.mul_le_mul_left (256 ^ v.length) hd
          omega
        · have hc : 1 ≤ c.toNat := Nat.one_le_iff_ne_zero.mpr fun h => hzero (UInt8.toNat_inj.mp h)
          have := Nat.mul_le_mul_left (256 ^ v.length * 256) hc
          omega
      by_contra hshort
      have hle : 256 ^ (w.length - 1) ≤ 256 ^ v.length := by
        refine Nat.pow_le_pow_right (by decide) ?_
        simp only [List.length_cons] at hshort
        omega
      omega

/-! ## The code with its accesses -/

/-- `len > 1 && sig[i] == 0x00 && !(sig[i + 1] & 0x80)` -/
def paddedAt (len i : Nat) : Option Bool :=
  if len > 1 then do
    let first ← sig[i]?
    if first = 0x00 then
      let second ← sig[i + 1]?
      pure (decide (second &&& 0x80 = 0))
    else pure false
  else some false

/-- `IsValidSignatureEncoding`, `none` where a byte outside of `sig` is read. -/
def isValidSignatureEncodingAt : Option Bool :=
  if sig.length < 9 then some false
  else if sig.length > 73 then some false
  else do
    let compound ← sig[0]?
    if compound ≠ 0x30 then return false
    let total ← sig[1]?
    if total.toNat ≠ sig.length - 3 then return false
    let lenR ← sig[3]?
    if 5 + lenR.toNat ≥ sig.length then return false
    let lenS ← sig[5 + lenR.toNat]?
    if lenR.toNat + lenS.toNat + 7 ≠ sig.length then return false
    let typeR ← sig[2]?
    if typeR ≠ 0x02 then return false
    if lenR.toNat = 0 then return false
    let firstR ← sig[4]?
    if firstR &&& 0x80 ≠ 0 then return false
    let paddedR ← paddedAt sig lenR.toNat 4
    if paddedR then return false
    let typeS ← sig[lenR.toNat + 4]?
    if typeS ≠ 0x02 then return false
    if lenS.toNat = 0 then return false
    let firstS ← sig[lenR.toNat + 6]?
    if firstS &&& 0x80 ≠ 0 then return false
    let paddedS ← paddedAt sig lenS.toNat (lenR.toNat + 6)
    if paddedS then return false
    return true

theorem byteAt {sig : Valtype} {i : Nat} (h : i < sig.length) : sig[i]? = some (sig.getD i 0) := by
  rw [List.getD_eq_getElem?_getD, List.getElem?_eq_getElem h, Option.getD_some]

theorem paddedAt_eq {sig : Valtype} {len i : Nat} (h : i + len < sig.length) :
    paddedAt sig len i = some (decide
      (len > 1 ∧ sig.getD i 0 = 0x00 ∧ sig.getD (i + 1) 0 &&& 0x80 = 0)) := by
  rw [paddedAt]
  by_cases hlen : len > 1
  · rw [if_pos hlen, byteAt (by omega), byteAt (by omega)]
    generalize sig.getD i 0 = first
    by_cases hzero : first = 0x00
    · simp [hlen, hzero]
    · simp [hlen, hzero]
  · simp [hlen]

theorem reject_or {c : Prop} [Decidable c] {x : Option Bool} {y : Bool} (h : ¬ c → x = some y) :
    (if c then some false else x) = some (if c then false else y) := by
  split
  · rfl
  · exact h ‹_›

/-- Each test comes after those that make its accesses safe. -/
theorem isValidSignatureEncodingAt_eq :
    isValidSignatureEncodingAt sig = some (isValidSignatureEncoding sig) := by
  rw [isValidSignatureEncodingAt, isValidSignatureEncoding]
  by_cases hshort : sig.length < 9
  · rw [if_pos hshort, if_pos hshort]
  rw [if_neg hshort, if_neg hshort]
  by_cases hlong : sig.length > 73
  · rw [if_pos hlong, if_pos hlong]
  rw [if_neg hlong, if_neg hlong, byteAt (show 0 < _ by omega), byteAt (show 1 < _ by omega),
    byteAt (show 3 < _ by omega), byteAt (show 2 < _ by omega), byteAt (show 4 < _ by omega)]
  dsimp only [Option.bind_eq_bind, Option.bind_some, Option.pure_def]
  refine reject_or fun _ => reject_or fun _ => reject_or fun hR => ?_
  rw [byteAt (by omega), Option.bind_some]
  refine reject_or fun hsum => reject_or fun _ => reject_or fun _ => reject_or fun _ => ?_
  rw [paddedAt_eq (by omega), Option.bind_some]
  simp only [decide_eq_true_eq]
  refine reject_or fun _ => ?_
  rw [byteAt (by omega), Option.bind_some]
  refine reject_or fun _ => reject_or fun _ => ?_
  rw [byteAt (by omega), Option.bind_some]
  refine reject_or fun _ => ?_
  rw [paddedAt_eq (by omega), Option.bind_some]
  simp only [decide_eq_true_eq]
  exact reject_or fun _ => rfl

/-! ## The code and the grammar -/

theorem not_rejected {c : Prop} [Decidable c] {y : Bool} :
    (if c then false else y) = true ↔ ¬ c ∧ y = true := by
  split
  · simp [*]
  · simp [*]

/-- The tests of `R` and of `S`, where the bytes of the integer stand from `i` on. -/
theorem derInteger_tests (i : Nat) (hv : ∀ j < v.length, sig.getD (i + j) 0 = v.getD j 0) :
    DerInteger v ↔ v.length ≠ 0 ∧ ¬ sig.getD i 0 &&& 0x80 ≠ 0 ∧
      ¬ (v.length > 1 ∧ sig.getD i 0 = 0x00 ∧ sig.getD (i + 1) 0 &&& 0x80 = 0) := by
  rw [derInteger_iff, List.ne_nil_iff_length_pos, Nat.pos_iff_ne_zero]
  refine and_congr_right fun hne => ?_
  have hfirst := hv 0 (by omega)
  rw [Nat.add_zero] at hfirst
  rw [hfirst, (byte_bits _).1, Nat.not_le]
  refine and_congr_right fun _ => ?_
  by_cases hlen : v.length > 1
  · rw [hv 1 hlen, ← (byte_bits (v.getD 1 0)).1]
    simp [hlen]
  · simp [hlen]

/-- The tests on a signature that is cut at the lengths it gives. -/
theorem isValidSignatureEncoding_parts {compound total typeR lenR typeS lenS sighash : UInt8}
    {R S : Valtype} (hR : lenR.toNat = R.length) (hS : lenS.toNat = S.length) :
    isValidSignatureEncoding
        (compound :: total :: typeR :: lenR :: (R ++ typeS :: lenS :: (S ++ [sighash]))) = true ↔
      9 ≤ R.length + S.length + 7 ∧ R.length + S.length + 7 ≤ 73 ∧ compound = 0x30 ∧
        total.toNat = R.length + S.length + 4 ∧ typeR = 0x02 ∧ typeS = 0x02 ∧
        DerInteger R ∧ DerInteger S := by
  obtain ⟨sig, hsig⟩ : ∃ sig, sig =
    compound :: total :: typeR :: lenR :: (R ++ typeS :: lenS :: (S ++ [sighash])) := ⟨_, rfl⟩
  have hlen : sig.length = R.length + S.length + 7 := by
    rw [hsig]
    simp only [List.length_cons, List.length_append, List.length_nil]
    omega
  have htail (j : Nat) : sig.getD (R.length + j + 4) 0 =
      (typeS :: lenS :: (S ++ [sighash])).getD j 0 := by
    rw [hsig]
    simp only [List.getD_cons_succ]
    rw [List.getD_append_right _ _ _ _ (Nat.le_add_right _ _), Nat.add_sub_cancel_left]
  have hintR := derInteger_tests sig R 4 fun j hj => by
    rw [hsig, Nat.add_comm]
    exact List.getD_append _ _ _ _ hj
  have hintS := derInteger_tests sig S (R.length + 6) fun j hj => by
    rw [show R.length + 6 + j = R.length + (j + 2) + 4 by omega, htail]
    exact List.getD_append _ _ _ _ hj
  have h0 : sig.getD 0 0 = compound := by rw [hsig]; rfl
  have h1 : sig.getD 1 0 = total := by rw [hsig]; rfl
  have h2 : sig.getD 2 0 = typeR := by rw [hsig]; rfl
  have h3 : sig.getD 3 0 = lenR := by rw [hsig]; rfl
  have h5 : sig.getD (5 + R.length) 0 = lenS := by rw [Nat.add_comm 5, htail 1]; rfl
  have h4 : sig.getD (R.length + 4) 0 = typeS := htail 0
  rw [← hsig, hintR, hintS]
  simp only [isValidSignatureEncoding, not_rejected, hlen, h0, h1, h2, h3, h4, h5, hR, hS]
  have htotal : R.length + S.length + 7 - 3 = R.length + S.length + 4 := by omega
  have hinside : S.length ≠ 0 → ¬ 5 + R.length ≥ R.length + S.length + 7 := by omega
  constructor
  · rintro ⟨hmin, hmax, hc, ht, -, -, htR, hneR, hposR, hpadR, htS, hneS, hposS, hpadS, -⟩
    exact ⟨not_lt.mp hmin, not_lt.mp hmax, not_not.mp hc, not_not.mp ht, not_not.mp htR,
      not_not.mp htS, ⟨hneR, hposR, hpadR⟩, hneS, hposS, hpadS⟩
  · rintro ⟨hmin, hmax, hc, ht, htR, htS, ⟨hneR, hposR, hpadR⟩, hneS, hposS, hpadS⟩
    exact ⟨not_lt.mpr hmin, not_lt.mpr hmax, not_not.mpr hc, not_not.mpr ht, hinside hneS,
      not_not.mpr rfl, not_not.mpr htR, hneR, hposR, hpadR, not_not.mpr htS, hneS, hposS, hpadS,
      trivial⟩

/-- A signature that passes is cut at the lengths it gives. -/
theorem exists_parts {sig : Valtype} (h : isValidSignatureEncoding sig = true) :
    ∃ (compound total typeR lenR typeS lenS sighash : UInt8) (R S : Valtype),
      sig = compound :: total :: typeR :: lenR :: (R ++ typeS :: lenS :: (S ++ [sighash])) ∧
        lenR.toNat = R.length ∧ lenS.toNat = S.length := by
  simp only [isValidSignatureEncoding, not_rejected] at h
  obtain ⟨hshort, -, -, -, -, hsum, -⟩ := h
  match sig with
  | [] | [_] | [_, _] | [_, _, _] => simp at hshort
  | compound :: total :: typeR :: lenR :: rest =>
    have hlen : rest.length = lenR.toNat + (rest.getD (1 + lenR.toNat) 0).toNat + 3 := by
      rw [show 5 + (List.getD (compound :: total :: typeR :: lenR :: rest) 3 0).toNat =
        (1 + lenR.toNat) + 4 by simp; omega] at hsum
      simp only [List.getD_cons_succ, List.getD_cons_zero, List.length_cons] at hsum
      omega
    have hget : rest.getD (1 + lenR.toNat) 0 = (rest.drop lenR.toNat).getD 1 0 := by
      rw [List.getD_eq_getElem?_getD, List.getD_eq_getElem?_getD, List.getElem?_drop, Nat.add_comm]
    have hdrop : (rest.drop lenR.toNat).length = (rest.getD (1 + lenR.toNat) 0).toNat + 3 := by
      rw [List.length_drop]
      omega
    rw [hget] at hlen hdrop
    match hparts : rest.drop lenR.toNat with
    | [] | [_] => simp [hparts] at hdrop
    | typeS :: lenS :: last =>
      rw [hparts] at hlen hdrop
      simp only [List.getD_cons_succ, List.getD_cons_zero, List.length_cons] at hlen hdrop
      rcases last.eq_nil_or_concat' with rfl | ⟨S, sighash, rfl⟩
      · simp at hdrop
      refine ⟨compound, total, typeR, lenR, typeS, lenS, sighash, rest.take lenR.toNat, S, ?_, ?_,
        ?_⟩
      · rw [← hparts, List.take_append_drop]
      · rw [List.length_take]
        omega
      · rw [List.length_append, List.length_singleton] at hdrop
        omega

/-- `IsValidSignatureEncoding` reads no byte outside of the vector, and takes
exactly the signatures by the grammar. -/
theorem valid_signature_encoding_iff (sig : Valtype) :
    isValidSignatureEncodingAt sig = some (isValidSignatureEncoding sig) ∧
      (isValidSignatureEncoding sig = true ↔ IsDerSignature sig) := by
  refine ⟨isValidSignatureEncodingAt_eq sig, fun h => ?_, ?_⟩
  · obtain ⟨compound, total, typeR, lenR, typeS, lenS, sighash, R, S, rfl, hR, hS⟩ := exists_parts h
    obtain ⟨hmin, hmax, rfl, htotal, rfl, rfl, hintR, hintS⟩ :=
      (isValidSignatureEncoding_parts hR hS).mp h
    refine ⟨?_, ?_, R, S, sighash, hintR, hintS, ?_⟩
    · simp only [List.length_cons, List.length_append, List.length_nil]
      omega
    · simp only [List.length_cons, List.length_append, List.length_nil]
      omega
    · rw [derSignature, ← htotal, ← hR, ← hS, UInt8.ofNat_toNat, UInt8.ofNat_toNat,
        UInt8.ofNat_toNat]
  · rintro ⟨hmin, hmax, R, S, sighash, hintR, hintS, rfl⟩
    simp only [derSignature, List.length_cons, List.length_append, List.length_nil] at hmin hmax
    have hbyte (n : Nat) (hn : n < 256) : (UInt8.ofNat n).toNat = n := by
      exact Nat.mod_eq_of_lt hn
    refine (isValidSignatureEncoding_parts (hbyte _ (by omega)) (hbyte _ (by omega))).mpr ?_
    exact ⟨by omega, by omega, rfl, hbyte _ (by omega), rfl, rfl, hintR, hintS⟩

end junkcoin
