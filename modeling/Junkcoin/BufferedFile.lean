-- `CBufferedFile` reads a file through a ring buffer that it fills ahead of the
-- reader, and `LoadExternalBlockFile` goes back in it after a record that it
-- could not read.
import Junkcoin.Lib.Bytes
import Mathlib.Algebra.Order.Group.Nat
import Mathlib.Data.List.GetD

namespace junkcoin

/-! ## The buffer -/

/-- Sum and difference of two `uint64_t`. -/
def add64 (a b : Nat) : Nat := (a + b) % 2 ^ 64

def sub64 (a b : Nat) : Nat := (((a : Int) - b) % 2 ^ 64).toNat

/-- A file, how far it has been read, how far this has been read, and the buffer
`vchBuf` with its size. -/
structure CBufferedFile where
  src : List UInt8
  feof : Bool
  nSrcPos : Nat
  nReadPos : Nat
  nReadLimit : Nat
  nRewind : Nat
  size : Nat
  vchBuf : Nat → UInt8

/-- How a call ends. -/
inductive ReadEnd
  | returned
  | thrown (what : String)
  | never
  deriving DecidableEq

/-- What a call leaves: the object, and the bytes it gave out with the positions
they were read at. -/
structure Outcome where
  file : CBufferedFile
  ended : ReadEnd
  delivered : List (Nat × UInt8)

namespace CBufferedFile

def ofFile (src : List UInt8) (nBufSize nRewindIn : Nat) : CBufferedFile :=
  ⟨src, false, 0, 0, 2 ^ 64 - 1, nRewindIn, nBufSize, fun _ => 0⟩

variable (b : CBufferedFile)

/-- `eof`. -/
def eof : Bool := b.nReadPos == b.nSrcPos && b.feof

/-- How much `Fill` asks for. Its variables are of 32 bits. -/
def readNow : Nat :=
  let pos := b.nSrcPos % b.size % 2 ^ 32
  let nAvail := (((b.size : Int) - ((b.nSrcPos : Int) - b.nReadPos) - b.nRewind) % 2 ^ 32).toNat
  min ((b.size - pos) % 2 ^ 32) nAvail

/-- `Fill`, with what it throws. -/
def fill : CBufferedFile × Option String :=
  if b.readNow = 0 then (b, none)
  else
    let pos := b.nSrcPos % b.size % 2 ^ 32
    let chunk := (b.src.drop b.nSrcPos).take b.readNow
    let feof := b.feof || decide (chunk.length < b.readNow)
    if chunk.length = 0 then ({ b with feof }, some "CBufferedFile::Fill: end of file")
    else
      ({ b with
          feof
          nSrcPos := b.nSrcPos + chunk.length
          vchBuf := fun i => if pos ≤ i then chunk.getD (i - pos) (b.vchBuf i) else b.vchBuf i },
        none)

/-- Fill the buffer if all of it has been read. -/
def fillIfRead : CBufferedFile × Option String :=
  if b.nReadPos = b.nSrcPos then b.fill else (b, none)

/-- How much of the buffer one turn of `read` copies. -/
def copyNow (nSize : Nat) : Nat :=
  let pos := b.nReadPos % b.size % 2 ^ 32
  let nNow := if add64 nSize pos > b.size then sub64 b.size pos else nSize
  if add64 nNow b.nReadPos > b.nSrcPos then sub64 b.nSrcPos b.nReadPos else nNow

/-- The bytes that `memcpy` copies. -/
def copied (nNow : Nat) : List (Nat × UInt8) :=
  (List.range nNow).map fun i => (b.nReadPos + i, b.vchBuf (b.nReadPos % b.size % 2 ^ 32 + i))

/-- The loop of `read`. -/
def readLoop : (fuel nSize : Nat) → CBufferedFile → (delivered : List (Nat × UInt8)) → Outcome
  | _, 0, b, delivered => ⟨b, .returned, delivered⟩
  | 0, _ + 1, b, delivered => ⟨b, .never, delivered⟩
  | fuel + 1, nSize + 1, b, delivered =>
    match b.fillIfRead with
    | (b, some what) => ⟨b, .thrown what, delivered⟩
    | (b, none) =>
      let nNow := b.copyNow (nSize + 1)
      readLoop fuel (nSize + 1 - nNow) { b with nReadPos := add64 b.nReadPos nNow }
        (delivered ++ b.copied nNow)

/-- `read`. -/
def read (nSize : Nat) : Outcome :=
  if add64 nSize b.nReadPos > b.nReadLimit then
    ⟨b, .thrown "Read attempted past buffer limit", []⟩
  else if add64 nSize b.nRewind > b.size then ⟨b, .thrown "Read larger than buffer size", []⟩
  else readLoop nSize nSize b []

/-- `SetPos`. -/
def setPos (nPos : Nat) : Bool × CBufferedFile :=
  if add64 nPos b.nRewind < b.nSrcPos then
    (false, { b with nReadPos := sub64 b.nSrcPos b.nRewind })
  else if nPos > b.nSrcPos then (false, { b with nReadPos := b.nSrcPos })
  else (true, { b with nReadPos := nPos })

/-- `SetLimit`. -/
def setLimit (nPos : Nat) : Bool × CBufferedFile :=
  if nPos < b.nReadPos then (false, b) else (true, { b with nReadLimit := nPos })

/-- The loop of `FindByte`, which gives out every byte it looks at. -/
def findByteLoop (ch : UInt8) :
    (fuel : Nat) → CBufferedFile → (delivered : List (Nat × UInt8)) → Outcome
  | 0, b, delivered => ⟨b, .never, delivered⟩
  | fuel + 1, b, delivered =>
    match b.fillIfRead with
    | (b, some what) => ⟨b, .thrown what, delivered⟩
    | (b, none) =>
      let byte := b.vchBuf (b.nReadPos % b.size)
      let delivered := delivered ++ [(b.nReadPos, byte)]
      if byte = ch then ⟨b, .returned, delivered⟩
      else findByteLoop ch fuel { b with nReadPos := add64 b.nReadPos 1 } delivered

/-- `FindByte`. -/
def findByte (ch : UInt8) : Outcome := findByteLoop ch (b.src.length + 1) b []

/-- The calls. -/
inductive Call
  | read (nSize : Nat)
  | setPos (nPos : Nat)
  | setLimit (nPos : Nat)
  | findByte (ch : UInt8)

def call : Call → Outcome
  | .read nSize => b.read nSize
  | .setPos nPos => ⟨(b.setPos nPos).2, .returned, []⟩
  | .setLimit nPos => ⟨(b.setLimit nPos).2, .returned, []⟩
  | .findByte ch => b.findByte ch

/-- Call after call, also after one that threw. -/
def run : List Call → CBufferedFile → CBufferedFile × List (Nat × UInt8)
  | [], b => (b, [])
  | c :: calls, b =>
    let (b', delivered) := run calls (b.call c).file
    (b', (b.call c).delivered ++ delivered)

/-- No sum with a number of the call overflows. -/
def Call.Small : Call → Prop
  | .read nSize => nSize < 2 ^ 62
  | .setPos nPos => nPos < 2 ^ 62
  | _ => True

end CBufferedFile

/-! ## The block file -/

def MAX_BLOCK_SERIALIZED_SIZE : Nat := 4000000

/-- The locals of `LoadExternalBlockFile`. -/
structure Loader where
  blkdat : CBufferedFile
  nRewind : Nat

namespace Loader

/-- What the first part of a turn finds. -/
inductive Located
  | nothing
  | noRecord
  | record (nSize : Nat)

/-- Where a turn begins to look: behind the start of the last record, without the
former limit. -/
def lookFrom (l : Loader) : CBufferedFile :=
  (((l.blkdat.setPos l.nRewind).2).setLimit (2 ^ 64 - 1)).2

/-- Locate a header. -/
def locate (messageStart : List UInt8) (l : Loader) : Located × Loader :=
  let found := l.lookFrom.findByte (messageStart.getD 0 0)
  if found.ended ≠ .returned then (.nothing, ⟨found.file, l.nRewind + 1⟩)
  else
    let nRewind := found.file.nReadPos + 1
    let buf := found.file.read 4
    if buf.ended ≠ .returned then (.nothing, ⟨buf.file, nRewind⟩)
    else if buf.delivered.map (·.2) ≠ messageStart then (.noRecord, ⟨buf.file, nRewind⟩)
    else
      let size := buf.file.read 4
      let nSize := Bytes.ofLe (size.delivered.map (·.2))
      if size.ended ≠ .returned then (.nothing, ⟨size.file, nRewind⟩)
      else if nSize < 80 ∨ nSize > MAX_BLOCK_SERIALIZED_SIZE then (.noRecord, ⟨size.file, nRewind⟩)
      else (.record nSize, ⟨size.file, nRewind⟩)

/-- The reads of `blkdat >> block`, up to one that throws. -/
def readAll : List Nat → CBufferedFile → CBufferedFile × Bool
  | [], b => (b, true)
  | nSize :: reads, b =>
    if (b.read nSize).ended = .returned then readAll reads (b.read nSize).file
    else ((b.read nSize).file, false)

/-- Read a block. -/
def readBlock (b : CBufferedFile) (nSize : Nat) (reads : List Nat) : CBufferedFile × Bool :=
  readAll reads (((b.setLimit (add64 b.nReadPos nSize)).2).setPos b.nReadPos).2

/-- How a turn of the loop ends: the loop is over, goes on, or goes on after a
record that could not be read, which started at `start`. -/
inductive Turn
  | over
  | next (l : Loader)
  | failed (start : Nat) (l : Loader)

/-- A turn of the loop. What the block asks for and whether it can be read and is
processed depends on its bytes. -/
def turn (messageStart : List UInt8) (l : Loader) (reads : List Nat) (accepted : Bool) : Turn :=
  if l.blkdat.eof then .over
  else
    match l.locate messageStart with
    | (.nothing, _) => .over
    | (.noRecord, l) => .next l
    | (.record nSize, l) =>
      let (b, complete) := readBlock l.blkdat nSize reads
      if complete && accepted then .next ⟨b, b.nReadPos⟩ else .failed (l.nRewind - 1) ⟨b, l.nRewind⟩

/-- The turns of `LoadExternalBlockFile`. -/
inductive Run (messageStart src : List UInt8) : Loader → Prop
  | start : Run messageStart src ⟨.ofFile src (2 * MAX_BLOCK_SERIALIZED_SIZE)
      (MAX_BLOCK_SERIALIZED_SIZE + 8), 0⟩
  | next {l l' : Loader} {reads : List Nat} {accepted : Bool} : Run messageStart src l →
      (∀ n ∈ reads, n < 2 ^ 62) → l.turn messageStart reads accepted = .next l' →
      Run messageStart src l'
  | failed {l l' : Loader} {reads : List Nat} {accepted : Bool} {start : Nat} :
      Run messageStart src l → (∀ n ∈ reads, n < 2 ^ 62) →
      l.turn messageStart reads accepted = .failed start l' → Run messageStart src l'

end Loader

/-! ## What the buffer holds -/

namespace CBufferedFile

/-- The buffer has the last bytes that were read from the file, and the reader is
among them. -/
structure Good (src : List UInt8) (nBufSize nRewind : Nat) (b : CBufferedFile) : Prop where
  source : b.src = src
  bufSize : b.size = nBufSize
  rewind : b.nRewind = nRewind
  order : b.nReadPos ≤ b.nSrcPos
  within : b.nSrcPos ≤ src.length
  back : b.nSrcPos ≤ b.nReadPos + nBufSize
  holds : ∀ p < b.nSrcPos, b.nSrcPos ≤ p + nBufSize → src[p]? = some (b.vchBuf (p % nBufSize))

/-- The bytes are those of the file at their positions. -/
def Right (src : List UInt8) (delivered : List (Nat × UInt8)) : Prop :=
  ∀ x ∈ delivered, src[x.1]? = some x.2

theorem Right.append {src : List UInt8} {d e : List (Nat × UInt8)} (hd : Right src d)
    (he : Right src e) : Right src (d ++ e) :=
  fun x hx => (List.mem_append.mp hx).elim (hd x) (he x)

theorem right_nil {src : List UInt8} : Right src [] := fun _ hx => absurd hx List.not_mem_nil

theorem add64_eq {a b : Nat} (h : a + b < 2 ^ 64) : add64 a b = a + b := Nat.mod_eq_of_lt h

theorem sub64_eq {a b : Nat} (hle : b ≤ a) (h : a < 2 ^ 64) : sub64 a b = a - b := by
  rw [sub64, Int.emod_eq_of_lt (by omega) (by omega)]
  omega

section Calls

variable {src : List UInt8} {nBufSize nRewind : Nat} {b : CBufferedFile}

theorem ofFile_good : Good src nBufSize nRewind (ofFile src nBufSize nRewind) :=
  ⟨rfl, rfl, rfl, le_refl _, Nat.zero_le _, Nat.zero_le _,
    fun _ hp => absurd hp (Nat.not_lt_zero _)⟩

/-- Moving the reader inside the window. -/
theorem Good.move (hb : Good src nBufSize nRewind b) {nReadPos : Nat} (h1 : nReadPos ≤ b.nSrcPos)
    (h2 : b.nSrcPos ≤ nReadPos + nBufSize) : Good src nBufSize nRewind { b with nReadPos } :=
  ⟨hb.source, hb.bufSize, hb.rewind, h1, hb.within, h2, hb.holds⟩

variable (hrewind : nRewind < nBufSize) (hbuf : nBufSize < 2 ^ 32) (hsrc : src.length < 2 ^ 62)

include hrewind hbuf

/-- `Fill` asks for what fits behind the source position and leaves the window. -/
theorem readNow_eq (hb : Good src nBufSize nRewind b) (hread : b.nReadPos = b.nSrcPos) :
    b.readNow = min (nBufSize - b.nSrcPos % nBufSize) (nBufSize - nRewind) := by
  have hpos := Nat.mod_lt b.nSrcPos (show 0 < nBufSize by omega)
  have havail : (((nBufSize : Int) - ((b.nSrcPos : Int) - b.nSrcPos) - nRewind) % 2 ^ 32).toNat =
      nBufSize - nRewind := by
    omega
  rw [readNow, hb.bufSize, hb.rewind, hread, havail,
    Nat.mod_eq_of_lt (show b.nSrcPos % nBufSize < 2 ^ 32 by omega),
    Nat.mod_eq_of_lt (show nBufSize - b.nSrcPos % nBufSize < 2 ^ 32 by omega)]

/-- The bytes that come new into the buffer replace those that leave the window. -/
theorem Good.filled (hb : Good src nBufSize nRewind b) (hread : b.nReadPos = b.nSrcPos)
    {chunk : List UInt8} {feof : Bool} {k : Nat}
    (hchunk : chunk = (src.drop b.nSrcPos).take k) (hk : k ≤ nBufSize - b.nSrcPos % nBufSize) :
    Good src nBufSize nRewind { b with
      feof
      nSrcPos := b.nSrcPos + chunk.length
      vchBuf := fun i => if b.nSrcPos % nBufSize ≤ i then
        chunk.getD (i - b.nSrcPos % nBufSize) (b.vchBuf i) else b.vchBuf i } := by
  have hwithin := hb.within
  have hlen : chunk.length = min k (src.length - b.nSrcPos) := by
    rw [hchunk, List.length_take, List.length_drop]
  refine ⟨hb.source, hb.bufSize, hb.rewind, ?_, ?_, ?_, fun p hp hwindow => ?_⟩
  · exact hb.order.trans (Nat.le_add_right _ _)
  · show b.nSrcPos + chunk.length ≤ src.length
    omega
  · show b.nSrcPos + chunk.length ≤ b.nReadPos + nBufSize
    omega
  · change p < b.nSrcPos + chunk.length at hp
    change b.nSrcPos + chunk.length ≤ p + nBufSize at hwindow
    show src[p]? = some (if b.nSrcPos % nBufSize ≤ p % nBufSize then
        chunk.getD (p % nBufSize - b.nSrcPos % nBufSize) (b.vchBuf (p % nBufSize))
      else b.vchBuf (p % nBufSize))
    by_cases hnew : b.nSrcPos ≤ p
    · obtain ⟨i, rfl⟩ := Nat.exists_eq_add_of_le hnew
      have hmod : (b.nSrcPos + i) % nBufSize = b.nSrcPos % nBufSize + i := by
        rw [Nat.add_mod, Nat.mod_eq_of_lt (show i < nBufSize by omega), Nat.mod_eq_of_lt (by omega)]
      have hget : chunk[i]? = src[b.nSrcPos + i]? := by
        rw [hchunk, List.getElem?_take_of_lt (by omega), List.getElem?_drop]
      have hsome := List.getElem?_eq_getElem (show b.nSrcPos + i < src.length by omega)
      rw [hmod, if_pos (Nat.le_add_right _ _), Nat.add_sub_cancel_left, List.getD_eq_getElem?_getD,
        hget, hsome, Option.getD_some]
    · have hold := hb.holds p (by omega) (by omega)
      rw [hold]
      split
      · -- the place of an old byte is not written to
        rename_i hle
        rw [List.getD_eq_default]
        by_contra hin
        obtain ⟨i, hi⟩ := Nat.exists_eq_add_of_le hle
        have hdvd : nBufSize ∣ b.nSrcPos + i - p := by
          refine Nat.dvd_of_mod_eq_zero (Nat.sub_mod_eq_zero_of_mod_eq ?_)
          rw [Nat.add_mod, Nat.mod_eq_of_lt (show i < nBufSize by omega), ← hi, Nat.mod_mod]
        have := Nat.le_of_dvd (by omega) hdvd
        omega
      · rfl

/-- `Fill` brings new bytes or finds the end of the file. -/
theorem fillIfRead_spec (hb : Good src nBufSize nRewind b) :
    ∃ b' thrown, b.fillIfRead = (b', thrown) ∧ Good src nBufSize nRewind b' ∧
      b'.nReadPos = b.nReadPos ∧ b.nSrcPos ≤ b'.nSrcPos ∧
      (thrown = none → b'.nReadPos < b'.nSrcPos) ∧ (thrown ≠ none → b.nReadPos = src.length) := by
  obtain rfl := hb.source
  obtain rfl := hb.bufSize
  rw [fillIfRead]
  by_cases hread : b.nReadPos = b.nSrcPos
  · have hpos := Nat.mod_lt b.nSrcPos (show 0 < b.size by omega)
    have hwithin := hb.within
    have hnow := readNow_eq hrewind hbuf hb hread
    have hlen : ((b.src.drop b.nSrcPos).take b.readNow).length =
        min b.readNow (b.src.length - b.nSrcPos) := by
      rw [List.length_take, List.length_drop]
    rw [if_pos hread, fill, if_neg (by omega)]
    simp only [Nat.mod_eq_of_lt (show b.nSrcPos % b.size < 2 ^ 32 by omega)]
    split
    · rename_i hend
      refine ⟨_, _, rfl, ⟨hb.source, hb.bufSize, hb.rewind, hb.order, hb.within, hb.back, hb.holds⟩,
        rfl, le_refl _, fun h => (by cases h), fun _ => ?_⟩
      omega
    · rename_i hsome
      refine ⟨_, _, rfl, hb.filled hrewind hbuf hread rfl (by omega), rfl, Nat.le_add_right _ _,
        fun _ => ?_, fun h => absurd rfl h⟩
      show b.nReadPos < b.nSrcPos + _
      omega
  · have horder := hb.order
    rw [if_neg hread]
    exact ⟨b, none, rfl, hb, rfl, le_refl _, fun _ => by omega, fun h => absurd rfl h⟩

include hsrc

omit hrewind in
/-- One turn of `read` copies a byte at least, and the right ones. -/
theorem copyNow_spec (hb : Good src nBufSize nRewind b) (hmore : b.nReadPos < b.nSrcPos)
    {nSize : Nat} (hpos : 0 < nSize) (hsmall : nSize < 2 ^ 62) :
    0 < b.copyNow nSize ∧ b.copyNow nSize ≤ nSize ∧
      b.nReadPos + b.copyNow nSize ≤ b.nSrcPos ∧ Right src (b.copied (b.copyNow nSize)) := by
  have hwithin := hb.within
  have hback := hb.back
  have hmod := Nat.mod_lt b.nReadPos (show 0 < nBufSize by omega)
  have hcopy : b.copyNow nSize = min (min nSize (nBufSize - b.nReadPos % nBufSize))
      (b.nSrcPos - b.nReadPos) := by
    have hnow : (if add64 nSize (b.nReadPos % nBufSize) > nBufSize then
        sub64 nBufSize (b.nReadPos % nBufSize) else nSize) =
          min nSize (nBufSize - b.nReadPos % nBufSize) := by
      rw [add64_eq (by omega), sub64_eq hmod.le (by omega)]
      split
      · omega
      · omega
    rw [copyNow, hb.bufSize, Nat.mod_eq_of_lt (show b.nReadPos % nBufSize < 2 ^ 32 by omega), hnow,
      add64_eq (by omega), sub64_eq hmore.le (by omega)]
    split
    · omega
    · omega
  refine ⟨by omega, by omega, by omega, fun x hx => ?_⟩
  obtain ⟨i, hi, rfl⟩ := List.mem_map.mp hx
  rw [List.mem_range] at hi
  rw [hb.holds (b.nReadPos + i) (by omega) (by omega), hb.bufSize,
    Nat.mod_eq_of_lt (show b.nReadPos % nBufSize < 2 ^ 32 by omega), Nat.add_mod,
    Nat.mod_eq_of_lt (show i < nBufSize by omega), Nat.mod_eq_of_lt (by omega)]

/-- What every call keeps. -/
structure Keeps (src : List UInt8) (nBufSize nRewind : Nat) (b : CBufferedFile) (o : Outcome) :
    Prop where
  good : Good src nBufSize nRewind o.file
  ends : o.ended ≠ .never
  right : Right src o.delivered
  forward : b.nSrcPos ≤ o.file.nSrcPos

theorem readLoop_keeps (fuel : Nat) {nSize : Nat} (hb : Good src nBufSize nRewind b)
    (hfuel : nSize ≤ fuel) (hsmall : nSize < 2 ^ 62) {delivered : List (Nat × UInt8)}
    (hright : Right src delivered) :
    Keeps src nBufSize nRewind b (readLoop fuel nSize b delivered) := by
  induction fuel generalizing nSize b delivered with
  | zero =>
    obtain rfl : nSize = 0 := by omega
    exact ⟨hb, by simp [readLoop], hright, le_refl _⟩
  | succ fuel ih =>
    cases nSize with
    | zero => exact ⟨hb, by simp [readLoop], hright, le_refl _⟩
    | succ nSize =>
      obtain ⟨b', thrown, hfill, hb', -, hforward, hmore, -⟩ := fillIfRead_spec hrewind hbuf hb
      rw [readLoop, hfill]
      cases thrown with
      | some what => exact ⟨hb', by simp, hright, hforward⟩
      | none =>
        obtain ⟨hpos, hle, hin, hcopied⟩ := copyNow_spec hbuf hsrc hb' (hmore rfl)
          (show 0 < nSize + 1 by omega) hsmall
        have hwithin := hb'.within
        have hback := hb'.back
        dsimp only
        rw [add64_eq (by omega)]
        have h := ih (hb'.move hin (by omega))
          (show nSize + 1 - b'.copyNow (nSize + 1) ≤ fuel by omega) (by omega)
          (hright.append hcopied)
        exact ⟨h.good, h.ends, h.right, hforward.trans h.forward⟩

theorem read_keeps {nSize : Nat} (hb : Good src nBufSize nRewind b) (hsmall : nSize < 2 ^ 62) :
    Keeps src nBufSize nRewind b (b.read nSize) := by
  unfold read
  split
  · exact ⟨hb, by simp, right_nil, le_refl _⟩
  · split
    · exact ⟨hb, by simp, right_nil, le_refl _⟩
    · exact readLoop_keeps hrewind hbuf hsrc nSize hb (le_refl _) hsmall right_nil

/-- `SetPos` goes where the rewind size reaches from the source position. -/
theorem setPos_spec (hb : Good src nBufSize nRewind b) {nPos : Nat} (hsmall : nPos < 2 ^ 62) :
    Good src nBufSize nRewind (b.setPos nPos).2 ∧ (b.setPos nPos).2.nSrcPos = b.nSrcPos ∧
      (b.setPos nPos).2.feof = b.feof ∧
      ((b.setPos nPos).1 = true ↔ nPos ≤ b.nSrcPos ∧ b.nSrcPos ≤ nPos + nRewind) ∧
      ((b.setPos nPos).1 = true → (b.setPos nPos).2 = { b with nReadPos := nPos }) ∧
      ((b.setPos nPos).1 = false → nPos ≤ b.nSrcPos → nPos < (b.setPos nPos).2.nReadPos) := by
  obtain rfl := hb.rewind
  have hwithin := hb.within
  rw [setPos, add64_eq (by omega)]
  by_cases hfar : nPos + b.nRewind < b.nSrcPos
  · rw [if_pos hfar, sub64_eq (by omega) (by omega)]
    refine ⟨hb.move (Nat.sub_le _ _) (by omega), rfl, rfl, ?_, fun h => (by cases h),
      fun _ _ => ?_⟩
    · exact iff_of_false (by simp) (by omega)
    · show nPos < b.nSrcPos - b.nRewind
      omega
  · rw [if_neg hfar]
    by_cases hahead : nPos > b.nSrcPos
    · rw [if_pos hahead]
      exact ⟨hb.move (le_refl _) (by omega), rfl, rfl, iff_of_false (by simp) (by omega),
        fun h => (by cases h), fun _ h => (by omega)⟩
    · rw [if_neg hahead]
      exact ⟨hb.move (Nat.le_of_not_lt hahead) (by omega), rfl, rfl,
        iff_of_true rfl ⟨by omega, by omega⟩, fun _ => rfl, fun h => (by cases h)⟩

omit hrewind hbuf hsrc in
theorem setLimit_good (hb : Good src nBufSize nRewind b) (nPos : Nat) :
    Good src nBufSize nRewind (b.setLimit nPos).2 ∧
      (b.setLimit nPos).2.nSrcPos = b.nSrcPos ∧ (b.setLimit nPos).2.nReadPos = b.nReadPos := by
  unfold setLimit
  split
  · exact ⟨hb, rfl, rfl⟩
  · exact ⟨⟨hb.source, hb.bufSize, hb.rewind, hb.order, hb.within, hb.back, hb.holds⟩, rfl, rfl⟩

/-- `FindByte` stops at the first place of the byte, or at the end of the file. -/
theorem findByteLoop_spec (ch : UInt8) (fuel : Nat) (hb : Good src nBufSize nRewind b)
    (hfuel : src.length + 1 ≤ fuel + b.nReadPos) {delivered : List (Nat × UInt8)}
    (hright : Right src delivered) :
    Keeps src nBufSize nRewind b (findByteLoop ch fuel b delivered) ∧
      (∀ q, b.nReadPos ≤ q → q < (findByteLoop ch fuel b delivered).file.nReadPos →
        src[q]? ≠ some ch) ∧
      ((findByteLoop ch fuel b delivered).ended = .returned →
        (findByteLoop ch fuel b delivered).file.nReadPos <
          (findByteLoop ch fuel b delivered).file.nSrcPos) ∧
      ((findByteLoop ch fuel b delivered).ended ≠ .returned →
        src.length ≤ (findByteLoop ch fuel b delivered).file.nReadPos) := by
  induction fuel generalizing b delivered with
  | zero =>
    have := hb.order
    have := hb.within
    omega
  | succ fuel ih =>
    obtain ⟨b', thrown, hfill, hb', hread, hforward, hmore, hend⟩ := fillIfRead_spec hrewind hbuf hb
    rw [findByteLoop, hfill]
    cases thrown with
    | some what =>
      refine ⟨⟨hb', by simp, hright, hforward⟩, fun q h1 h2 => ?_, fun h => (by cases h),
        fun _ => ?_⟩
      · change q < b'.nReadPos at h2
        omega
      · show src.length ≤ b'.nReadPos
        rw [hread, hend (by simp)]
    | none =>
      have hlt := hmore rfl
      have hwithin := hb'.within
      have hback := hb'.back
      have hbyte := hb'.holds b'.nReadPos hlt hback
      have hright' :
          Right src (delivered ++ [(b'.nReadPos, b'.vchBuf (b'.nReadPos % b'.size))]) := by
        refine hright.append fun x hx => ?_
        rw [List.mem_singleton.mp hx, hb'.bufSize]
        exact hbyte
      rw [← hb'.bufSize] at hbyte
      dsimp only
      by_cases hfound : b'.vchBuf (b'.nReadPos % b'.size) = ch
      · rw [if_pos hfound]
        refine ⟨⟨hb', by simp, hright', hforward⟩, fun q h1 h2 => ?_, fun _ => hlt,
          fun h => absurd rfl h⟩
        change q < b'.nReadPos at h2
        omega
      · rw [if_neg hfound, add64_eq (by omega)]
        have hnext := hb'.move (show b'.nReadPos + 1 ≤ b'.nSrcPos from hlt) (by omega)
        obtain ⟨hkeeps, hskip, hreturned, hthrown⟩ := ih hnext
          (show src.length + 1 ≤ fuel + (b'.nReadPos + 1) by omega) hright'
        refine ⟨⟨hkeeps.good, hkeeps.ends, hkeeps.right, hforward.trans hkeeps.forward⟩,
          fun q h1 h2 => ?_, hreturned, hthrown⟩
        rcases Nat.eq_or_lt_of_le h1 with rfl | hq
        · rw [← hread, hbyte]
          exact fun h => hfound (Option.some.inj h)
        · exact hskip q (by show b'.nReadPos + 1 ≤ q; omega) h2

theorem findByte_spec (ch : UInt8) (hb : Good src nBufSize nRewind b) :
    Keeps src nBufSize nRewind b (b.findByte ch) ∧
      (∀ q, b.nReadPos ≤ q → q < (b.findByte ch).file.nReadPos → src[q]? ≠ some ch) ∧
      ((b.findByte ch).ended = .returned →
        (b.findByte ch).file.nReadPos < (b.findByte ch).file.nSrcPos) ∧
      ((b.findByte ch).ended ≠ .returned → src.length ≤ (b.findByte ch).file.nReadPos) := by
  have h := findByteLoop_spec hrewind hbuf hsrc ch (src.length + 1) hb (by omega) right_nil
  rwa [findByte, hb.source]

/-- Every call keeps what the buffer holds, ends, and gives out the right bytes. -/
theorem call_keeps (hb : Good src nBufSize nRewind b) {c : Call} (hc : c.Small) :
    Keeps src nBufSize nRewind b (b.call c) := by
  cases c with
  | read nSize => exact read_keeps hrewind hbuf hsrc hb hc
  | setPos nPos =>
    obtain ⟨hgood, hpos, -⟩ := setPos_spec hrewind hbuf hsrc hb hc
    exact ⟨hgood, by simp [call], right_nil, hpos.ge⟩
  | setLimit nPos =>
    obtain ⟨hgood, hpos, -⟩ := setLimit_good hb nPos
    exact ⟨hgood, by simp [call], right_nil, hpos.ge⟩
  | findByte ch => exact (findByte_spec hrewind hbuf hsrc ch hb).1

theorem run_keeps (calls : List Call) (hcalls : ∀ c ∈ calls, c.Small)
    (hb : Good src nBufSize nRewind b) :
    Good src nBufSize nRewind (run calls b).1 ∧ Right src (run calls b).2 := by
  induction calls generalizing b with
  | nil => exact ⟨hb, right_nil⟩
  | cons c calls ih =>
    have hkeeps := call_keeps hrewind hbuf hsrc hb (hcalls c List.mem_cons_self)
    obtain ⟨hgood, hright⟩ := ih (fun c hc => hcalls c (List.mem_cons_of_mem _ hc)) hkeeps.good
    exact ⟨hgood, hkeeps.right.append hright⟩

/-- The rewind size reaches back from the reader where nothing was read ahead. -/
theorem rewinds_iff (hb : Good src nBufSize nRewind b) :
    (∀ nPos, b.nReadPos - nRewind ≤ nPos → nPos ≤ b.nReadPos →
      b.setPos nPos = (true, { b with nReadPos := nPos })) ↔
      b.nSrcPos ≤ max nRewind b.nReadPos := by
  have horder := hb.order
  have hwithin := hb.within
  constructor
  · intro h
    obtain ⟨-, -, -, hiff, -⟩ := setPos_spec hrewind hbuf hsrc hb
      (show b.nReadPos - nRewind < 2 ^ 62 by omega)
    have := (hiff.mp (by rw [h _ (le_refl _) (Nat.sub_le _ _)])).2
    omega
  · intro h nPos h1 h2
    obtain ⟨-, -, -, hiff, htrue, -⟩ := setPos_spec hrewind hbuf hsrc hb
      (show nPos < 2 ^ 62 by omega)
    have hok := hiff.mpr ⟨by omega, by omega⟩
    exact Prod.ext hok (htrue hok)

end Calls

end CBufferedFile

/-! ## After a record that could not be read -/

namespace Loader

open CBufferedFile

variable {messageStart src : List UInt8} (hsrc : src.length < 2 ^ 62) {b : CBufferedFile}
  {l : Loader}

/-- The buffer of `LoadExternalBlockFile`. -/
abbrev FileGood (src : List UInt8) : CBufferedFile → Prop :=
  Good src (2 * MAX_BLOCK_SERIALIZED_SIZE) (MAX_BLOCK_SERIALIZED_SIZE + 8)

theorem rewind_lt : MAX_BLOCK_SERIALIZED_SIZE + 8 < 2 * MAX_BLOCK_SERIALIZED_SIZE := by decide

theorem buf_lt : 2 * MAX_BLOCK_SERIALIZED_SIZE < 2 ^ 32 := by decide

/-- The loader looks on from a place in the file. -/
structure Looks (src : List UInt8) (l : Loader) : Prop where
  good : FileGood src l.blkdat
  rewind : l.nRewind ≤ l.blkdat.nSrcPos

include hsrc

theorem readAll_good (hb : FileGood src b) (reads : List Nat) (hreads : ∀ n ∈ reads, n < 2 ^ 62) :
    FileGood src (readAll reads b).1 ∧ b.nSrcPos ≤ (readAll reads b).1.nSrcPos := by
  induction reads generalizing b with
  | nil => exact ⟨hb, le_refl _⟩
  | cons nSize reads ih =>
    have hkeeps := read_keeps rewind_lt buf_lt hsrc hb (hreads nSize List.mem_cons_self)
    unfold readAll
    split
    · obtain ⟨hgood, hforward⟩ := ih hkeeps.good fun n hn => hreads n (List.mem_cons_of_mem _ hn)
      exact ⟨hgood, hkeeps.forward.trans hforward⟩
    · exact ⟨hkeeps.good, hkeeps.forward⟩

theorem readBlock_good (hb : FileGood src b) (nSize : Nat) (reads : List Nat)
    (hreads : ∀ n ∈ reads, n < 2 ^ 62) :
    FileGood src (readBlock b nSize reads).1 ∧ b.nSrcPos ≤ (readBlock b nSize reads).1.nSrcPos := by
  have horder := hb.order
  have hwithin := hb.within
  obtain ⟨hlimit, hsame, -⟩ := setLimit_good hb (add64 b.nReadPos nSize)
  obtain ⟨hset, hsame', -⟩ := setPos_spec rewind_lt buf_lt hsrc hlimit
    (show b.nReadPos < 2 ^ 62 by omega)
  obtain ⟨hgood, hforward⟩ := readAll_good hsrc hset reads hreads
  exact ⟨hgood, by rw [hsame', hsame] at hforward; exact hforward⟩

theorem lookFrom_good (hl : Looks src l) :
    FileGood src l.lookFrom ∧ l.lookFrom.nSrcPos = l.blkdat.nSrcPos := by
  have hrewind := hl.rewind
  have hwithin := hl.good.within
  obtain ⟨hset, hsame, -⟩ := setPos_spec rewind_lt buf_lt hsrc hl.good
    (show l.nRewind < 2 ^ 62 by omega)
  obtain ⟨hlimit, hsame', -⟩ := setLimit_good hset (2 ^ 64 - 1)
  exact ⟨hlimit, hsame'.trans hsame⟩

/-- Where a header is located, the next turn looks behind its first byte. -/
theorem locate_looks {l' : Loader} {r : Located} (hl : Looks src l)
    (h : l.locate messageStart = (r, l')) (hr : r ≠ .nothing) : Looks src l' ∧ 0 < l'.nRewind := by
  obtain ⟨hlook, -⟩ := lookFrom_good hsrc hl
  obtain ⟨hfound, -, hreturned, -⟩ := findByte_spec rewind_lt buf_lt hsrc (messageStart.getD 0 0)
    hlook
  unfold locate at h
  generalize l.lookFrom.findByte (messageStart.getD 0 0) = found at h hfound hreturned
  dsimp only at h
  by_cases hend : found.ended ≠ .returned
  · rw [if_pos hend] at h
    exact absurd (congrArg Prod.fst h).symm hr
  · have hlt := hreturned (not_not.mp hend)
    have hbuf := read_keeps rewind_lt buf_lt hsrc hfound.good (show 4 < 2 ^ 62 by decide)
    have hlook {b : CBufferedFile} (hb : FileGood src b) (hle : found.file.nSrcPos ≤ b.nSrcPos) :
        Looks src ⟨b, found.file.nReadPos + 1⟩ ∧ 0 < found.file.nReadPos + 1 :=
      ⟨⟨hb, hlt.trans_le hle⟩, Nat.succ_pos _⟩
    generalize found.file.read 4 = buf at h hbuf
    have hsize := read_keeps rewind_lt buf_lt hsrc hbuf.good (show 4 < 2 ^ 62 by decide)
    generalize buf.file.read 4 = size at h hsize
    split_ifs at h
    all_goals cases h
    · exact absurd rfl hr
    · exact hlook hbuf.good hbuf.forward
    · exact absurd rfl hr
    · exact hlook hsize.good (hbuf.forward.trans hsize.forward)
    · exact hlook hsize.good (hbuf.forward.trans hsize.forward)

/-- A turn looks on from a place in the file; after a record that could not be
read from the byte behind its start. -/
theorem turn_looks {reads : List Nat} {accepted : Bool} (hl : Looks src l)
    (hreads : ∀ n ∈ reads, n < 2 ^ 62) :
    (∀ l', l.turn messageStart reads accepted = .next l' → Looks src l') ∧
      ∀ start l', l.turn messageStart reads accepted = .failed start l' →
        Looks src l' ∧ l'.nRewind = start + 1 := by
  unfold turn
  split
  · exact ⟨fun l' h => (by cases h), fun start l' h => (by cases h)⟩
  · split
    · exact ⟨fun l' h => (by cases h), fun start l' h => (by cases h)⟩
    · rename_i l₁ hlocate
      refine ⟨fun l' h => ?_, fun start l' h => (by cases h)⟩
      cases h
      exact (locate_looks hsrc hl hlocate (by simp)).1
    · rename_i nSize l₁ hlocate
      obtain ⟨hlook, hpos⟩ := locate_looks hsrc hl hlocate (by simp)
      obtain ⟨hgood, hforward⟩ := readBlock_good hsrc hlook.good nSize reads hreads
      generalize readBlock l₁.blkdat nSize reads = r at hgood hforward
      dsimp only
      split
      · refine ⟨fun l' h => ?_, fun start l' h => (by cases h)⟩
        cases h
        exact ⟨hgood, hgood.order⟩
      · refine ⟨fun l' h => (by cases h), fun start l' h => ?_⟩
        cases h
        exact ⟨⟨hgood, hlook.rewind.trans hforward⟩, (Nat.sub_add_cancel hpos).symm⟩

theorem run_looks (hrun : Run messageStart src l) : Looks src l := by
  induction hrun with
  | start => exact ⟨ofFile_good, Nat.zero_le _⟩
  | next _ hreads hturn ih => exact (turn_looks hsrc ih hreads).1 _ hturn
  | failed _ hreads hturn ih => exact ((turn_looks hsrc ih hreads).2 _ _ hturn).1

/-- The next turn looks from the byte behind the start where the rewind size
reaches back to it. -/
theorem lookFrom_iff (hl : Looks src l) :
    l.lookFrom.nReadPos = l.nRewind ↔
      l.blkdat.nSrcPos ≤ l.nRewind + (MAX_BLOCK_SERIALIZED_SIZE + 8) := by
  have hrewind := hl.rewind
  have hwithin := hl.good.within
  obtain ⟨hset, -, -, hiff, htrue, hfalse⟩ := setPos_spec rewind_lt buf_lt hsrc hl.good
    (show l.nRewind < 2 ^ 62 by omega)
  rw [lookFrom, (setLimit_good hset _).2.2]
  cases hok : (l.blkdat.setPos l.nRewind).1 with
  | true =>
    rw [htrue hok]
    exact iff_of_true rfl (hiff.mp hok).2
  | false =>
    have hpast := hfalse hok hrewind
    refine iff_of_false (by omega) fun h => ?_
    rw [hiff.mpr ⟨hrewind, h⟩] at hok
    cases hok

/-- From there on it passes over no place where a record may start. -/
theorem findByte_first (hl : Looks src l) (ch : UInt8) {q : Nat} (hq : l.lookFrom.nReadPos ≤ q)
    (hch : src[q]? = some ch) :
    (l.lookFrom.findByte ch).ended = .returned ∧ (l.lookFrom.findByte ch).file.nReadPos ≤ q := by
  obtain ⟨-, hskip, -, hend⟩ := findByte_spec rewind_lt buf_lt hsrc ch (lookFrom_good hsrc hl).1
  have hle : (l.lookFrom.findByte ch).file.nReadPos ≤ q := by
    by_contra h
    exact hskip q hq (by omega) hch
  refine ⟨?_, hle⟩
  by_contra h
  have hlt := (List.getElem?_eq_some_iff.mp hch).1
  have := hend h
  omega

end Loader

/-- With a multiple of `2 ^ 32` bytes `Fill` finds no room in the buffer, and the
first byte that is given out is the one the buffer was made with. -/
theorem CBufferedFile.large_buffer_stays_empty (src : List UInt8) {size : Nat} (nRewind : Nat)
    (hsize : 2 ^ 32 ∣ size) :
    ((CBufferedFile.ofFile src size nRewind).findByte 0).delivered = [(0, 0)] := by
  have hroom : (ofFile src size nRewind).readNow = 0 := by
    have hzero : (size - 0 % size % 2 ^ 32) % 2 ^ 32 = 0 := by
      exact Nat.mod_eq_zero_of_dvd hsize
    exact Nat.min_eq_zero_iff.mpr (.inl hzero)
  have hfill : (ofFile src size nRewind).fillIfRead = (ofFile src size nRewind, none) := by
    unfold fillIfRead fill
    rw [if_pos hroom, ite_self]
  unfold findByte findByteLoop
  rw [hfill]
  rfl

/-- The bytes that are given out are always those of the file, as long as the
buffer has fewer than `2 ^ 32` bytes; with a multiple of `2 ^ 32` they need not be.
The rewind size reaches back from the reader where nothing was read ahead of it,
and `LoadExternalBlockFile` looks on from the byte behind the start of a record
that it could not read where that is so and the end of the file was not met. -/
theorem buffered_file_rewinds_iff (src : List UInt8) (hsrc : src.length < 2 ^ 62) :
    (∀ nBufSize nRewind, nRewind < nBufSize → nBufSize < 2 ^ 32 →
      ∀ calls : List CBufferedFile.Call, (∀ c ∈ calls, c.Small) → ∀ b delivered,
      CBufferedFile.run calls (.ofFile src nBufSize nRewind) = (b, delivered) →
      (((∀ x ∈ delivered, src[x.1]? = some x.2) ∧
        ∀ nPos, b.nReadPos - nRewind ≤ nPos → nPos ≤ b.nReadPos →
          b.setPos nPos = (true, { b with nReadPos := nPos })) ↔
        b.nSrcPos ≤ max nRewind b.nReadPos)) ∧
    (∀ nBufSize nRewind, nRewind < nBufSize → 2 ^ 32 ∣ nBufSize →
      ((CBufferedFile.ofFile src nBufSize nRewind).findByte 0).delivered = [(0, 0)]) ∧
    ∀ messageStart l reads accepted start l', Loader.Run messageStart src l →
      (∀ n ∈ reads, n < 2 ^ 62) → l.turn messageStart reads accepted = .failed start l' →
      ((l'.blkdat.eof = false ∧ l'.lookFrom.nReadPos = start + 1 ∧
        ∀ q, start < q → src[q]? = some (messageStart.getD 0 0) →
          (l'.lookFrom.findByte (messageStart.getD 0 0)).ended = .returned ∧
          (l'.lookFrom.findByte (messageStart.getD 0 0)).file.nReadPos ≤ q) ↔
        l'.blkdat.eof = false ∧
          l'.blkdat.nSrcPos ≤ start + 1 + (MAX_BLOCK_SERIALIZED_SIZE + 8)) := by
  refine ⟨fun nBufSize nRewind hrewind hbuf calls hcalls b delivered hrun => ?_,
    fun _ _ _ => CBufferedFile.large_buffer_stays_empty src _,
    fun messageStart l reads accepted start l' hrun hreads hturn => ?_⟩
  · obtain ⟨hgood, hright⟩ := CBufferedFile.run_keeps hrewind hbuf hsrc calls hcalls
      CBufferedFile.ofFile_good
    rw [hrun] at hgood hright
    rw [← CBufferedFile.rewinds_iff hrewind hbuf hsrc hgood]
    exact and_iff_right hright
  · obtain ⟨hlooks, hrewind⟩ := (Loader.turn_looks hsrc (Loader.run_looks hsrc hrun) hreads).2 _ _
      hturn
    rw [← hrewind, ← Loader.lookFrom_iff hsrc hlooks]
    refine and_congr_right fun _ => ⟨fun h => h.1, fun h => ⟨h, fun q hq hch => ?_⟩⟩
    exact Loader.findByte_first hsrc hlooks _ (by omega) hch

def sampleStart : List UInt8 := [0xfb, 0xc0, 0xb6, 0xdb]

/-- A record that is no block, and the start of another one inside of it. -/
def sampleBlockFile : List UInt8 := sampleStart ++ [80, 0, 0, 0] ++ sampleStart ++ .replicate 76 1

/-- Five bytes of six are read, and the sixth is in the buffer. After the record
that is no block the search goes on behind its first byte. -/
theorem buffered_file_reads_ahead : (∃ b delivered,
    CBufferedFile.run [.read 5] (.ofFile [1, 2, 3, 4, 5, 6] 10 4) = (b, delivered) ∧
      (((∀ x ∈ delivered, [1, 2, 3, 4, 5, 6][x.1]? = some x.2) ∧
        ∀ nPos, b.nReadPos - 4 ≤ nPos → nPos ≤ b.nReadPos →
          b.setPos nPos = (true, { b with nReadPos := nPos })) ↔
        b.nSrcPos ≤ max 4 b.nReadPos)) ∧
    ∃ l : Loader, (⟨.ofFile sampleBlockFile (2 * MAX_BLOCK_SERIALIZED_SIZE)
        (MAX_BLOCK_SERIALIZED_SIZE + 8), 0⟩ : Loader).turn sampleStart [40] false = .failed 0 l ∧
      l.lookFrom.nReadPos = 1 ∧ (l.lookFrom.findByte 0xfb).ended = .returned ∧
      (l.lookFrom.findByte 0xfb).file.nReadPos ≤ 8 := by
  refine ⟨⟨_, _, rfl, (buffered_file_rewinds_iff [1, 2, 3, 4, 5, 6] (by decide)).1 10 4 (by decide)
    (by decide) [.read 5] (by simp [CBufferedFile.Call.Small]) _ _ rfl⟩, ?_⟩
  have hread : (match (⟨.ofFile sampleBlockFile (2 * MAX_BLOCK_SERIALIZED_SIZE)
      (MAX_BLOCK_SERIALIZED_SIZE + 8), 0⟩ : Loader).turn sampleStart [40] false with
      | .failed start l => start == 0 && !l.blkdat.eof && decide (l.blkdat.nSrcPos ≤ 88)
      | _ => false) = true := by
    decide +kernel
  split at hread
  · rename_i start l hturn
    simp only [Bool.and_eq_true, beq_iff_eq, Bool.not_eq_true', decide_eq_true_iff] at hread
    obtain ⟨⟨rfl, heof⟩, hpos⟩ := hread
    obtain ⟨-, hlook, hfind⟩ := ((buffered_file_rewinds_iff sampleBlockFile (by decide)).2.2
      sampleStart _ [40] false 0 l .start (by decide) hturn).mpr ⟨heof, hpos.trans (by decide)⟩
    obtain ⟨hended, hle⟩ := hfind 8 (by decide) rfl
    exact ⟨l, hturn, hlook, hended, hle⟩
  · cases hread

/-- A position four bytes back is refused although four is the rewind size. -/
theorem setPos_refuses :
    let b := (CBufferedFile.run [.read 5] (.ofFile [1, 2, 3, 4, 5, 6] 10 4)).1
    b.nReadPos = 5 ∧ b.nSrcPos = 6 ∧ (b.setPos 1).1 = false ∧ (b.setPos 1).2.nReadPos = 2 := by
  decide

end junkcoin
