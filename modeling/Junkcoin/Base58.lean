-- Base58 and Base58Check (`base58.cpp`): the two conversions between bytes and
-- text, and that each undoes the other.
import Junkcoin.Primitives
import Junkcoin.Lib.Positional

namespace junkcoin

open Positional

/-! ## The alphabet -/

/-- All letters and digits except for 0, I, O and l. -/
def pszBase58 : List UInt8 := ([
  '1', '2', '3', '4', '5', '6', '7', '8', '9', 'A', 'B', 'C', 'D', 'E', 'F', 'G', 'H', 'J',
  'K', 'L', 'M', 'N', 'P', 'Q', 'R', 'S', 'T', 'U', 'V', 'W', 'X', 'Y', 'Z', 'a', 'b', 'c',
  'd', 'e', 'f', 'g', 'h', 'i', 'j', 'k', 'm', 'n', 'o', 'p', 'q', 'r', 's', 't', 'u', 'v',
  'w', 'x', 'y', 'z'] : List Char).map fun c => UInt8.ofNat c.toNat

/-- `isspace` of the C locale. -/
def isSpace (c : UInt8) : Bool := c == 0x20 || (0x09 ≤ c && c ≤ 0x0d)

/-- The character of a digit. -/
def base58Char (d : Nat) : UInt8 := pszBase58.getD d 0

theorem alphabet_facts : ∀ d : Fin 58, pszBase58.idxOf? (base58Char d) = some d.val ∧
    isSpace (base58Char d) = false ∧ base58Char d ≠ 0 ∧
    ((base58Char d == 0x31) = true ↔ d.val = 0) := by
  decide +kernel

theorem alphabet_idxOf {c : UInt8} {d : Nat} (h : pszBase58.idxOf? c = some d) :
    d < 58 ∧ base58Char d = c := by
  obtain ⟨hlt, heq, -⟩ := List.findIdx?_eq_some_iff_getElem.mp h
  refine ⟨hlt, ?_⟩
  unfold base58Char
  rw [List.getD_eq_getElem?_getD, List.getElem?_eq_getElem hlt]
  exact eq_of_beq heq

/-! ## Decoding -/

/-- `std::vector<unsigned char>(size)`, which throws for a negative size. -/
def newBuffer (size : Int) : Check Buffer := do
  assert (0 ≤ size) "std::length_error"
  .ok (Buffer.empty size.toNat)

/-- The characters up to a space or the end, each as `b256 = b256 * 58 + ch`.
None where a character is not in the alphabet. -/
def decodeChars : Buffer → List UInt8 → Check (Option (Buffer × List UInt8))
  | b256, [] => .ok (some (b256, []))
  | b256, c :: psz =>
    if isSpace c then .ok (some (b256, c :: psz))
    else
      match pszBase58.idxOf? c with
      | none => .ok none
      | some ch => do
        assert ((b256.feed 256 58 ch).2 == 0) "carry == 0"
        decodeChars (b256.feed 256 58 ch).1 psz

/-- `int size`. The product is one of `size_t`. -/
def decodeSize (strlen : Nat) : Int :=
  (BitVec.ofNat 32 (strlen * 733 % 2 ^ 64 / 1000 + 1)).toInt

/-- `DecodeBase58` of the characters before the terminating zero. None where
the C++ function returns false. -/
def decodeBase58 (psz : List UInt8) : Check (Option (List UInt8)) := do
  let psz := psz.dropWhile isSpace
  let zeroes := (psz.takeWhile (· == 0x31)).length
  -- `int zeroes` overflows
  assert (zeroes < 2 ^ 31) "zeroes++"
  let psz := psz.dropWhile (· == 0x31)
  let b256 ← newBuffer (decodeSize psz.length)
  let chars ← decodeChars b256 psz
  match chars with
  | none => .ok none
  | some (b256, psz) =>
    if !(psz.dropWhile isSpace).isEmpty then .ok none
    else .ok (some (List.replicate zeroes 0 ++ b256.read.map UInt8.ofNat))

/-- `std::string::c_str`, as a function that looks for the terminating zero
reads it. -/
def cStr (str : List UInt8) : List UInt8 := str.takeWhile (· != 0)

/-- `DecodeBase58` of a string. -/
def decodeBase58Str (str : List UInt8) : Check (Option (List UInt8)) := decodeBase58 (cStr str)

/-! ## Encoding -/

/-- The bytes, each as `b58 = b58 * 256 + ch`. -/
def encodeBytes : Buffer → List UInt8 → Check Buffer
  | b58, [] => .ok b58
  | b58, c :: bytes => do
    assert ((b58.feed 58 256 c.toNat).2 == 0) "carry == 0"
    encodeBytes (b58.feed 58 256 c.toNat).1 bytes

/-- `int size`. No memory holds so much that the product overflows its
`ptrdiff_t`. -/
def encodeSize (length : Nat) : Int := (BitVec.ofNat 32 (length * 138 / 100 + 1)).toInt

def encodeBase58 (vch : List UInt8) : Check (List UInt8) := do
  let zeroes := (vch.takeWhile (· == 0)).length
  assert (zeroes < 2 ^ 31) "zeroes++"
  let vch := vch.dropWhile (· == 0)
  let b58 ← newBuffer (encodeSize vch.length)
  let b58 ← encodeBytes b58 vch
  .ok (List.replicate zeroes 0x31 ++ b58.read.map base58Char)

/-! ## With a checksum -/

variable (H : Hashes) (vch psz : List UInt8) (zeroes : Nat)

/-- The first four bytes of the hash. -/
def checksum : List UInt8 := (H.sha256d vch).bytes.take 4

def encodeBase58Check (vchIn : List UInt8) : Check (List UInt8) :=
  encodeBase58 (vchIn ++ checksum H vchIn)

def decodeBase58Check : Check (Option (List UInt8)) := do
  let decoded ← decodeBase58 psz
  match decoded with
  | none => .ok none
  | some vch =>
    if vch.length < 4 then .ok none
    else if checksum H (vch.take (vch.length - 4)) != vch.drop (vch.length - 4) then .ok none
    else .ok (some (vch.take (vch.length - 4)))

def decodeBase58CheckStr (str : List UInt8) : Check (Option (List UInt8)) :=
  decodeBase58Check H (cStr str)

/-! ## What a text and a byte string stand for -/

/-- The bytes of a number, after some zero bytes. -/
def bytesOf (n : Nat) : List UInt8 :=
  List.replicate zeroes 0 ++ (Nat.digits 256 n).reverse.map UInt8.ofNat

/-- The text of a number, after some ones. -/
def textOf (n : Nat) : List UInt8 :=
  List.replicate zeroes 0x31 ++ (Nat.digits 58 n).reverse.map base58Char

/-- The element at which `dropWhile` stops. -/
theorem head?_dropWhile {α : Type} {p : α → Bool} {l : List α} {c : α}
    (h : (l.dropWhile p).head? = some c) : p c = false := by
  have := List.head?_dropWhile_not p l
  rw [h] at this
  exact this

/-- What `takeWhile` takes of one character. -/
theorem takeWhile_beq (c : UInt8) (l : List UInt8) :
    l.takeWhile (· == c) = List.replicate (l.takeWhile (· == c)).length c := by
  refine List.eq_replicate_iff.mpr ⟨rfl, fun x hx => ?_⟩
  simpa using List.mem_takeWhile_imp hx

/-- The number of a byte string. -/
def numberOf : Nat :=
  ofDigitsBE 256 ((vch.dropWhile (· == 0)).map UInt8.toNat)

theorem digits_numberOf :
    (Nat.digits 256 (numberOf vch)).reverse.map UInt8.ofNat = vch.dropWhile (· == 0) := by
  unfold numberOf
  rw [digits_ofDigitsBE (by decide)]
  · rw [List.map_map]
    exact List.map_id'' (fun c => UInt8.ofNat_toNat) _
  · intro d hd
    obtain ⟨c, -, rfl⟩ := List.mem_map.mp hd
    exact c.toNat_lt
  · intro hhead
    rw [List.head?_map, Option.map_eq_some_iff] at hhead
    obtain ⟨c, hc, h0⟩ := hhead
    have hc0 : c = 0 := UInt8.toNat_inj.mp h0
    simpa [hc0] using head?_dropWhile hc

/-- Every byte string is that of one number. -/
theorem eq_bytesOf : vch = bytesOf (vch.takeWhile (· == 0)).length (numberOf vch) := by
  unfold bytesOf
  rw [← takeWhile_beq, digits_numberOf, List.takeWhile_append_dropWhile]

theorem mem_digits58 {n d : Nat} (h : d ∈ (Nat.digits 58 n).reverse) : d < 58 :=
  Nat.digits_lt_base (by decide) (List.mem_reverse.mp h)

/-- A text holds no space and no zero. -/
theorem mem_textOf {zeroes n : Nat} {c : UInt8} (h : c ∈ textOf zeroes n) :
    isSpace c = false ∧ c ≠ 0 := by
  rcases List.mem_append.mp h with h | h
  · rw [List.eq_of_mem_replicate h]
    decide
  · obtain ⟨d, hd, rfl⟩ := List.mem_map.mp h
    have := alphabet_facts ⟨d, mem_digits58 hd⟩
    exact ⟨this.2.1, this.2.2.1⟩

/-! ## Encoding gives the text -/

/-- A buffer that can be made has fewer than `2 ^ 31` digits. -/
theorem toInt_ofNat_nonneg {n : Nat} (h : 0 ≤ (BitVec.ofNat 32 n).toInt) :
    (BitVec.ofNat 32 n).toInt.toNat = n % 2 ^ 32 ∧ n % 2 ^ 32 < 2 ^ 31 := by
  rw [BitVec.toInt_eq_toNat_cond, BitVec.toNat_ofNat] at h ⊢
  split at h <;> omega

theorem newBuffer_ok {size : Int} {b : Buffer} :
    newBuffer size = .ok b ↔ 0 ≤ size ∧ Buffer.empty size.toNat = b := by
  unfold newBuffer
  simp only [bind_ok_iff, assert_ok, decide_eq_true_iff, exists_const, Except.ok.injEq]

/-- The buffers are large enough: the rates 138/100 and 733/1000 are above
the quotients of the logarithms. -/
theorem encode_room (n : Nat) : 256 ^ n ≤ 58 ^ (n * 138 / 100 + 1) :=
  pow_le_of_rate (by decide) (by decide) (by decide +kernel) n

theorem decode_room (n : Nat) : 58 ^ n ≤ 256 ^ (n * 733 / 1000 + 1) :=
  pow_le_of_rate (by decide) (by decide) (by decide +kernel) n

theorem encodeBytes_ok {b58 b : Buffer} {bytes : List UInt8} : encodeBytes b58 bytes = .ok b ↔
    b58.feedAll 58 256 (bytes.map UInt8.toNat) = some b := by
  induction bytes generalizing b58 with
  | nil =>
    unfold encodeBytes Buffer.feedAll
    simp
  | cons c bytes ih =>
    unfold encodeBytes
    rw [List.map_cons, Buffer.feedAll]
    simp only [bind_ok_iff, assert_ok, beq_iff_eq, exists_const, ih]
    split <;> simp [*]

/-- The counter of the zero bytes and the size of the buffer fit in an `int`. -/
structure EncodeFits (vch : List UInt8) : Prop where
  zeroes : (vch.takeWhile (· == 0)).length < 2 ^ 31
  size : (vch.dropWhile (· == 0)).length * 138 / 100 + 1 < 2 ^ 31

/-- A number with room in the buffer has as few bytes as the buffer has digits,
so that a size that was cut is too small. -/
theorem encode_room_iff :
    (0 ≤ encodeSize (vch.dropWhile (· == 0)).length ∧
      numberOf vch < 58 ^ (encodeSize (vch.dropWhile (· == 0)).length).toNat) ↔
      (vch.dropWhile (· == 0)).length * 138 / 100 + 1 < 2 ^ 31 := by
  have hlen := congrArg List.length (digits_numberOf vch)
  rw [List.length_map, List.length_reverse] at hlen
  generalize (vch.dropWhile (· == 0)).length = length at hlen ⊢
  unfold encodeSize
  constructor
  · rintro ⟨hsize, hroom⟩
    obtain ⟨hcut, hsmall⟩ := toInt_ofNat_nonneg hsize
    have hle : length ≤ (length * 138 / 100 + 1) % 2 ^ 32 := by
      rw [← hcut]
      refine hlen.symm.le.trans ((Nat.digits_length_le_iff (by decide) _).mpr ?_)
      exact lt_of_lt_of_le hroom (Nat.pow_le_pow_left (by decide : 58 ≤ 256) _)
    have hwhole : length * 138 / 100 + 1 < 2 ^ 32 := by omega
    rwa [Nat.mod_eq_of_lt hwhole] at hsmall
  · intro hfits
    rw [toInt_ofNat_small hfits]
    refine ⟨Int.natCast_nonneg _, lt_of_lt_of_le ?_ (encode_room length)⟩
    exact (Nat.digits_length_le_iff (by decide) _).mp hlen.le

/-- The encoding returns exactly when its numbers fit, and then the text. -/
theorem encodeBase58_ok {vch str : List UInt8} : encodeBase58 vch = .ok str ↔
    EncodeFits vch ∧ textOf (vch.takeWhile (· == 0)).length (numberOf vch) = str := by
  have hroom := encode_room_iff vch
  have hread := fun size => @Buffer.feedAll_empty_iff 58 256 size
    ((vch.dropWhile (· == 0)).map UInt8.toNat) _ (by decide) (by decide)
    (fun ds => List.replicate (vch.takeWhile (· == 0)).length 0x31 ++ ds.map base58Char) str
  unfold encodeBase58
  simp only [bind_ok_iff, assert_ok, decide_eq_true_iff, exists_const, newBuffer_ok,
    encodeBytes_ok, Except.ok.injEq]
  constructor
  · rintro ⟨hzeroes, _, ⟨hsize, rfl⟩, hb⟩
    obtain ⟨hlt, htext⟩ := (hread _).mp hb
    exact ⟨⟨hzeroes, hroom.mp ⟨hsize, hlt⟩⟩, htext⟩
  · rintro ⟨hfits, htext⟩
    obtain ⟨hsize, hlt⟩ := hroom.mpr hfits.size
    exact ⟨hfits.zeroes, _, ⟨hsize, rfl⟩, (hread _).mpr ⟨hlt, htext⟩⟩

/-! ## Decoding gives the bytes -/

/-- The digits of the characters of the alphabet that come first, and the
characters behind them. -/
def digitsOf : List UInt8 → List Nat × List UInt8
  | [] => ([], [])
  | c :: psz =>
    match pszBase58.idxOf? c with
    | none => ([], c :: psz)
    | some d => (d :: (digitsOf psz).1, (digitsOf psz).2)

theorem digitsOf_form :
    psz = (digitsOf psz).1.map base58Char ++ (digitsOf psz).2 ∧ ∀ d ∈ (digitsOf psz).1, d < 58 := by
  induction psz with
  | nil => exact ⟨rfl, by simp [digitsOf]⟩
  | cons c psz ih =>
    unfold digitsOf
    split
    · exact ⟨rfl, by simp⟩
    · rename_i d hidx
      obtain ⟨hd, hc⟩ := alphabet_idxOf hidx
      refine ⟨?_, List.forall_mem_cons.mpr ⟨hd, ih.2⟩⟩
      rw [List.map_cons, List.cons_append, ← ih.1, hc]

theorem digitsOf_text {ds : List Nat} (hds : ∀ d ∈ ds, d < 58) :
    digitsOf (ds.map base58Char) = (ds, []) := by
  induction ds with
  | nil => rfl
  | cons d ds ih =>
    obtain ⟨hd, hds⟩ := List.forall_mem_cons.mp hds
    rw [List.map_cons, digitsOf, (alphabet_facts ⟨d, hd⟩).1, ih hds]

/-- The characters are read up to the first one that is not in the alphabet,
which has to be a space. -/
theorem decodeChars_ok {b256 : Buffer} {psz : List UInt8} {r : Option (Buffer × List UInt8)} :
    decodeChars b256 psz = .ok r ↔ ∃ b, b256.feedAll 256 58 (digitsOf psz).1 = some b ∧
      (if (digitsOf psz).2.head?.all isSpace then some (b, (digitsOf psz).2) else none) = r := by
  induction psz generalizing b256 with
  | nil => simp [decodeChars, digitsOf, Buffer.feedAll]
  | cons c psz ih =>
    unfold decodeChars digitsOf
    rcases hidx : pszBase58.idxOf? c with _ | d
    · simp only [Buffer.feedAll, List.head?_cons, Option.all_some, Option.some.injEq,
        exists_eq_left', ← apply_ite Except.ok, Except.ok.injEq]
      exact Iff.rfl
    · obtain ⟨hd, rfl⟩ := alphabet_idxOf hidx
      rw [if_neg (by simp [(alphabet_facts ⟨d, hd⟩).2.1])]
      simp only [bind_ok_iff, assert_ok, beq_iff_eq, exists_const, ih, Buffer.feedAll]
      by_cases hcarry : (b256.feed 256 58 d).2 = 0
      · simp only [hcarry, if_true, true_and]
      · simp only [hcarry, if_false, false_and, reduceCtorEq, exists_false]

/-- The characters behind the spaces and ones that come first, and the number
of these ones. -/
def afterOnes : List UInt8 := (psz.dropWhile isSpace).dropWhile (· == 0x31)

def leadingOnes : Nat := ((psz.dropWhile isSpace).takeWhile (· == 0x31)).length

/-- The counter of the ones and the size of the buffer fit in an `int`, and the
number has room in the buffer. -/
structure DecodeFits (psz : List UInt8) : Prop where
  zeroes : leadingOnes psz < 2 ^ 31
  size : 0 ≤ decodeSize (afterOnes psz).length
  room : ofDigitsBE 58 (digitsOf (afterOnes psz)).1 <
    256 ^ (decodeSize (afterOnes psz).length).toNat

/-- There is always room where the size was not cut. -/
theorem decodeFits_of_length {psz : List UInt8} (hzeroes : leadingOnes psz < 2 ^ 31)
    (hlen : (afterOnes psz).length * 733 / 1000 + 1 < 2 ^ 31) : DecodeFits psz := by
  have hsize : decodeSize (afterOnes psz).length =
      ((afterOnes psz).length * 733 / 1000 + 1 : Nat) := by
    unfold decodeSize
    rw [Nat.mod_eq_of_lt (by omega), toInt_ofNat_small hlen]
  obtain ⟨hform, hdigits⟩ := digitsOf_form (afterOnes psz)
  refine ⟨hzeroes, hsize ▸ Int.natCast_nonneg _, ?_⟩
  rw [hsize, Int.toNat_natCast]
  calc _ < 58 ^ (digitsOf (afterOnes psz)).1.length := ofDigitsBE_lt (by decide) hdigits
    _ ≤ 58 ^ (afterOnes psz).length := by
      refine Nat.pow_le_pow_right (by decide) ?_
      conv_rhs => rw [hform]
      simp
    _ ≤ _ := decode_room _

/-- Only spaces may stand behind the characters of the alphabet. -/
theorem trailing_spaces {b : Buffer} {rest : List UInt8} {f : Buffer → List UInt8} :
    (match (if rest.head?.all isSpace then some (b, rest) else none) with
      | none => .ok none
      | some (b256, psz) =>
        if !(psz.dropWhile isSpace).isEmpty then .ok none else .ok (some (f b256)) :
        Check (Option (List UInt8))) =
      .ok (if rest.all isSpace then some (f b) else none) := by
  have hall : rest.all isSpace = (rest.dropWhile isSpace).isEmpty := by
    rw [Bool.eq_iff_iff, List.isEmpty_iff, List.dropWhile_eq_nil_iff, List.all_eq_true]
  rw [hall]
  by_cases hhead : rest.head?.all isSpace = true
  · rw [if_pos hhead]
    dsimp only
    cases (rest.dropWhile isSpace).isEmpty <;> rfl
  · rw [if_neg hhead]
    cases rest with
    | nil => exact absurd rfl hhead
    | cons c rest =>
      have hc : ¬ isSpace c = true := hhead
      rw [List.dropWhile_cons_of_neg hc]
      rfl

/-- The decoding returns exactly when its numbers fit. It takes the characters
where only spaces stand behind those of the alphabet. -/
theorem decodeBase58_ok {psz : List UInt8} {r : Option (List UInt8)} :
    decodeBase58 psz = .ok r ↔ DecodeFits psz ∧
      (if (digitsOf (afterOnes psz)).2.all isSpace then
        some (bytesOf (leadingOnes psz) (ofDigitsBE 58 (digitsOf (afterOnes psz)).1))
      else none) = r := by
  have hread := @Buffer.feedAll_empty_iff 256 58 (decodeSize (afterOnes psz).length).toNat
    (digitsOf (afterOnes psz)).1 _ (by decide) (by decide)
    (fun ds => if (digitsOf (afterOnes psz)).2.all isSpace then
      some (List.replicate (leadingOnes psz) 0 ++ ds.map UInt8.ofNat) else none) r
  unfold decodeBase58
  simp only [bind_ok_iff, assert_ok, decide_eq_true_iff, exists_const, newBuffer_ok,
    decodeChars_ok]
  constructor
  · rintro ⟨hzeroes, _, ⟨hsize, rfl⟩, _, ⟨b, hb, rfl⟩, h⟩
    obtain ⟨hroom, hr⟩ := hread.mp ⟨b, hb, Except.ok.inj (trailing_spaces.symm.trans h)⟩
    exact ⟨⟨hzeroes, hsize, hroom⟩, hr⟩
  · rintro ⟨⟨hzeroes, hsize, hroom⟩, hr⟩
    obtain ⟨b, hb, h⟩ := hread.mpr ⟨hroom, hr⟩
    exact ⟨hzeroes, _, ⟨hsize, rfl⟩, _, ⟨b, hb, rfl⟩, trailing_spaces.trans (congrArg _ h)⟩

/-- The characters hold the text of a number between spaces. -/
def IsText (n : Nat) : Prop :=
  ∃ ws ws', psz = ws ++ textOf zeroes n ++ ws' ∧ (∀ c ∈ ws, isSpace c = true) ∧
    ∀ c ∈ ws', isSpace c = true

/-- What the decoding accepts is the text of a number between spaces. -/
theorem isText_of_decodeBase58 {psz vch : List UInt8} (h : decodeBase58 psz = .ok (some vch)) :
    ∃ zeroes n, IsText psz zeroes n ∧ vch = bytesOf zeroes n := by
  obtain ⟨-, h⟩ := decodeBase58_ok.mp h
  split at h
  · rename_i hspaces
    obtain ⟨hform, hdigits⟩ := digitsOf_form (afterOnes psz)
    have hhead : (digitsOf (afterOnes psz)).1.head? ≠ some 0 := by
      intro h0
      have hone : (afterOnes psz).head? = some 0x31 := by
        rw [hform, List.head?_append, List.head?_map, h0]
        rfl
      exact absurd (head?_dropWhile hone) (by decide)
    refine ⟨_, _, ⟨psz.takeWhile isSpace, (digitsOf (afterOnes psz)).2, ?_,
      fun c hc => List.mem_takeWhile_imp hc, List.all_eq_true.mp hspaces⟩, (Option.some.inj h).symm⟩
    unfold textOf
    rw [digits_ofDigitsBE (by decide) hdigits hhead, List.append_assoc, List.append_assoc, ← hform]
    unfold leadingOnes afterOnes
    rw [← takeWhile_beq, List.takeWhile_append_dropWhile, List.takeWhile_append_dropWhile]
  · cases h

theorem takeWhile_of_head {α : Type} {p : α → Bool} {l : List α}
    (h : ∀ c, l.head? = some c → p c = false) : l.takeWhile p = [] ∧ l.dropWhile p = l := by
  cases l with
  | nil => exact ⟨rfl, rfl⟩
  | cons c l =>
    have hc := h c rfl
    exact ⟨List.takeWhile_cons_of_neg (by simp [hc]), List.dropWhile_cons_of_neg (by simp [hc])⟩

/-- After the leading ones comes a digit that is not zero. -/
theorem textOf_parts (n : Nat) : leadingOnes (textOf zeroes n) = zeroes ∧
    afterOnes (textOf zeroes n) = (Nat.digits 58 n).reverse.map base58Char := by
  have hones : ∀ c ∈ List.replicate zeroes (0x31 : UInt8), (c == 0x31) = true := fun c hc => by
    rw [List.eq_of_mem_replicate hc]
    rfl
  have hbody : ∀ c, ((Nat.digits 58 n).reverse.map base58Char).head? = some c →
      (c == 0x31) = false := by
    intro c hc
    rw [List.head?_map, Option.map_eq_some_iff] at hc
    obtain ⟨d, hd, rfl⟩ := hc
    have hone := (alphabet_facts ⟨d, mem_digits58 (List.mem_of_mem_head? hd)⟩).2.2.2
    refine Bool.eq_false_iff.mpr fun ht => ?_
    have h0 : d = 0 := hone.mp ht
    exact head_digits (h0 ▸ hd)
  have hspace : (textOf zeroes n).dropWhile isSpace = textOf zeroes n :=
    (takeWhile_of_head fun c hc => (mem_textOf (List.mem_of_mem_head? hc)).1).2
  unfold leadingOnes afterOnes
  rw [hspace]
  unfold textOf
  rw [List.takeWhile_append_of_pos hones, List.dropWhile_append_of_pos hones,
    (takeWhile_of_head hbody).1, (takeWhile_of_head hbody).2, List.append_nil,
    List.length_replicate]
  exact ⟨rfl, rfl⟩

/-- A text decodes to its bytes. -/
theorem decodeBase58_textOf {zeroes n : Nat} (hzeroes : zeroes < 2 ^ 31)
    (hlen : (Nat.digits 58 n).length * 733 / 1000 + 1 < 2 ^ 31) :
    decodeBase58 (textOf zeroes n) = .ok (some (bytesOf zeroes n)) := by
  obtain ⟨hones, hafter⟩ := textOf_parts zeroes n
  refine decodeBase58_ok.mpr ⟨decodeFits_of_length (lt_of_eq_of_lt hones hzeroes) ?_, ?_⟩
  · rwa [hafter, List.length_map, List.length_reverse]
  · rw [hones, hafter, digitsOf_text fun d hd => mem_digits58 hd, ofDigitsBE_digits]
    rfl

/-- Behind the leading spaces stand the text and spaces. With an empty text the
spaces behind it are skipped as leading ones. -/
theorem IsText.dropWhile {psz : List UInt8} {zeroes n : Nat} (h : IsText psz zeroes n) :
    ∃ rest : List UInt8, psz.dropWhile isSpace = textOf zeroes n ++ rest ∧
      ∀ c ∈ rest, isSpace c = true := by
  obtain ⟨ws, ws', rfl, hws, hws'⟩ := h
  rw [List.append_assoc, List.dropWhile_append_of_pos hws]
  rcases htext : textOf zeroes n with _ | ⟨c, text⟩
  · refine ⟨[], ?_, by simp⟩
    rw [List.nil_append, List.nil_append, List.dropWhile_eq_nil_iff]
    exact hws'
  · refine ⟨ws', ?_, hws'⟩
    have hc : isSpace c = false := (mem_textOf (htext ▸ List.mem_cons_self)).1
    rw [List.cons_append, List.dropWhile_cons_of_neg (by simp [hc])]

/-! ## The round trips -/

/-- The string without the spaces around it. -/
def trim (str : List UInt8) : List UInt8 := (str.dropWhile isSpace).rdropWhile isSpace

/-- Only spaces are taken away. -/
theorem mem_trim {str : List UInt8} {c : UInt8} (h : c ∈ str) (hc : isSpace c = false) :
    c ∈ trim str := by
  have hdrop : ∀ l : List UInt8, c ∈ l → c ∈ l.dropWhile isSpace := by
    intro l hl
    rw [← List.takeWhile_append_dropWhile (p := isSpace) (l := l)] at hl
    rcases List.mem_append.mp hl with hl | hl
    · rw [List.mem_takeWhile_imp hl] at hc
      cases hc
    · exact hl
  exact List.mem_reverse.mpr (hdrop _ (List.mem_reverse.mpr (hdrop _ h)))

theorem trim_text {psz : List UInt8} {zeroes n : Nat} (h : IsText psz zeroes n) :
    trim psz = textOf zeroes n := by
  obtain ⟨rest, hdrop, hrest⟩ := h.dropWhile
  unfold trim List.rdropWhile
  rw [hdrop, List.reverse_append,
    List.dropWhile_append_of_pos fun c hc => hrest c (List.mem_reverse.mp hc),
    (takeWhile_of_head fun c hc => (mem_textOf (List.mem_reverse.mp
      (List.mem_of_mem_head? hc))).1).2, List.reverse_reverse]

/-- The number and the zero bytes of the bytes of a number. -/
theorem bytesOf_parts (n : Nat) : ((bytesOf zeroes n).takeWhile (· == 0)).length = zeroes ∧
    numberOf (bytesOf zeroes n) = n := by
  have hlt : ∀ d ∈ (Nat.digits 256 n).reverse, d < 256 := fun d hd =>
    Nat.digits_lt_base (by decide) (List.mem_reverse.mp hd)
  have hzeros : ∀ c ∈ List.replicate zeroes (0 : UInt8), (c == 0) = true := fun c hc => by
    rw [List.eq_of_mem_replicate hc]
    rfl
  have hhead : ∀ c, ((Nat.digits 256 n).reverse.map UInt8.ofNat).head? = some c →
      (c == 0) = false := by
    intro c hc
    rw [List.head?_map, Option.map_eq_some_iff] at hc
    obtain ⟨d, hd, rfl⟩ := hc
    rw [beq_eq_false_iff_ne]
    intro h0
    have hd0 := congrArg UInt8.toNat h0
    rw [UInt8.toNat_ofNat', Nat.mod_eq_of_lt (hlt d (List.mem_of_mem_head? hd))] at hd0
    exact head_digits (hd0 ▸ hd)
  have hmap : ((Nat.digits 256 n).reverse.map UInt8.ofNat).map UInt8.toNat =
      (Nat.digits 256 n).reverse := by
    rw [List.map_map]
    conv_rhs => rw [← List.map_id (Nat.digits 256 n).reverse]
    refine List.map_congr_left fun d hd => ?_
    rw [Function.comp_apply, UInt8.toNat_ofNat', Nat.mod_eq_of_lt (hlt d hd), id]
  unfold numberOf bytesOf
  rw [List.takeWhile_append_of_pos hzeros, List.dropWhile_append_of_pos hzeros,
    (takeWhile_of_head hhead).1, (takeWhile_of_head hhead).2, List.append_nil,
    List.length_replicate, hmap, ofDigitsBE_digits]
  exact ⟨rfl, rfl⟩

theorem cStr_of_no_zero {str : List UInt8} (h : 0 ∉ str) : cStr str = str := by
  unfold cStr
  rw [List.takeWhile_eq_self_iff]
  intro c hc
  rw [bne_iff_ne]
  rintro rfl
  exact h hc

/-- What is encoded is decoded again, where the encoding returns. -/
theorem decodeBase58Str_encode_iff {vch : List UInt8} :
    (∃ str, encodeBase58 vch = .ok str ∧ decodeBase58Str str = .ok (some vch)) ↔
      EncodeFits vch := by
  constructor
  · rintro ⟨str, henc, -⟩
    exact (encodeBase58_ok.mp henc).1
  · intro hfits
    refine ⟨_, encodeBase58_ok.mpr ⟨hfits, rfl⟩, ?_⟩
    -- the text has no more characters than the buffer has digits
    have hlen : (Nat.digits 58 (numberOf vch)).length ≤
        (vch.dropWhile (· == 0)).length * 138 / 100 + 1 := by
      rw [Nat.digits_length_le_iff (by decide)]
      have hroom := ((encode_room_iff vch).mpr hfits.size).2
      rwa [encodeSize, toInt_ofNat_small hfits.size] at hroom
    have hsize := hfits.size
    unfold decodeBase58Str
    rw [cStr_of_no_zero fun h => (mem_textOf h).2 rfl,
      decodeBase58_textOf hfits.zeroes (by omega), ← eq_bytesOf]

/-- The checksum of what was encoded is the one that is found. -/
theorem decodeBase58CheckStr_encode_iff {vch : List UInt8} :
    (∃ str, encodeBase58Check H vch = .ok str ∧ decodeBase58CheckStr H str = .ok (some vch)) ↔
      EncodeFits (vch ++ checksum H vch) := by
  rw [← decodeBase58Str_encode_iff]
  unfold encodeBase58Check decodeBase58CheckStr decodeBase58Check decodeBase58Str
  have hlen : (checksum H vch).length = 4 := by
    unfold checksum Uint256.bytes
    rfl
  constructor
  · rintro ⟨str, henc, -⟩
    exact decodeBase58Str_encode_iff.mpr (encodeBase58_ok.mp henc).1
  · rintro ⟨str, henc, hdec⟩
    refine ⟨str, henc, ?_⟩
    rw [hdec]
    change (if _ then _ else _) = _
    rw [if_neg (by rw [List.length_append]; omega), List.length_append, hlen,
      Nat.add_sub_cancel, List.take_left, List.drop_left, if_neg (by simp)]

/-- What is decoded from a string encodes to the string without the spaces
around it, unless the string goes on behind a zero or the encoding cannot
return. -/
theorem encode_decodeBase58Str_iff {str vch : List UInt8}
    (h : decodeBase58Str str = .ok (some vch)) :
    encodeBase58 vch = .ok (trim str) ↔ 0 ∉ str ∧ EncodeFits vch := by
  obtain ⟨zeroes, n, htext, rfl⟩ := isText_of_decodeBase58 h
  obtain ⟨hzeroes, hnumber⟩ := bytesOf_parts zeroes n
  rw [encodeBase58_ok, hzeroes, hnumber, and_comm]
  refine and_congr_left fun _ => ⟨fun heq hmem => ?_, fun hno => ?_⟩
  · have htrim : 0 ∈ trim str := mem_trim hmem (by decide)
    exact (mem_textOf (heq ▸ htrim)).2 rfl
  · rw [cStr_of_no_zero hno] at htext
    exact (trim_text htext).symm

/-- The round trips of Base58 and Base58Check: what was encoded is decoded again
exactly when the numbers of the encoding fit in an `int`; what was decoded
encodes to the string without the spaces around it exactly when the string
holds no zero byte and that encoding fits; and no carry is left, and nothing
else fails, exactly when the numbers fit, which the decoding has for all but
very long strings. -/
theorem base58_round_trips_iff :
    (∀ vch, (∃ str, encodeBase58 vch = .ok str ∧ decodeBase58Str str = .ok (some vch)) ↔
      EncodeFits vch) ∧
    (∀ vch, (∃ str, encodeBase58Check H vch = .ok str ∧
      decodeBase58CheckStr H str = .ok (some vch)) ↔ EncodeFits (vch ++ checksum H vch)) ∧
    (∀ str vch, decodeBase58Str str = .ok (some vch) →
      (encodeBase58 vch = .ok (trim str) ↔ 0 ∉ str ∧ EncodeFits vch)) ∧
    (∀ vch, (∃ str, encodeBase58 vch = .ok str) ↔ EncodeFits vch) ∧
    (∀ str, (∃ r, decodeBase58Str str = .ok r) ↔ DecodeFits (cStr str)) ∧
    ∀ psz, leadingOnes psz < 2 ^ 31 → (afterOnes psz).length * 733 / 1000 + 1 < 2 ^ 31 →
      DecodeFits psz := by
  refine ⟨fun _ => decodeBase58Str_encode_iff, fun _ => decodeBase58CheckStr_encode_iff H,
    fun _ _ => encode_decodeBase58Str_iff, fun vch => ?_, fun str => ?_,
    fun _ => decodeFits_of_length⟩
  · simp only [encodeBase58_ok, exists_and_left, exists_eq', and_true]
  · simp only [decodeBase58Str, decodeBase58_ok, exists_and_left, exists_eq', and_true]

/-- A string with a zero byte is accepted although what follows is no Base58,
and does not come back. -/
theorem base58_ignores_rest :
    decodeBase58Str [0x31, 0, 0x30, 0x49] = .ok (some [0]) ∧ encodeBase58 [0] = .ok [0x31] ∧
      trim [0x31, 0, 0x30, 0x49] = [0x31, 0, 0x30, 0x49] := by
  decide +kernel

end junkcoin
