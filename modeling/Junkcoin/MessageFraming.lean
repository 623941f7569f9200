-- The bytes of a socket are cut into messages by `CNode::ReceiveMsgBytes`,
-- which is called with whatever one read of the socket returned. A machine
-- that takes one byte at a time says what the cutting is for, and the code
-- follows it on every chunk.
import Junkcoin.BlockEncodings

namespace junkcoin

variable {vRecvMsg : List CNetMessage}

/-! ## Messages -/

/-- `CMessageHeader`. -/
structure CMessageHeader where
  pchMessageStart : List UInt8
  pchCommand : List UInt8
  nMessageSize : Nat
  pchChecksum : List UInt8
  deriving DecidableEq, Repr

/-- `CMessageHeader::HEADER_SIZE`. -/
def HEADER_SIZE : Nat := 24

/-- The `SerializationOp` of a header, reading. -/
def CMessageHeader.unserialize (b : List UInt8) : CMessageHeader where
  pchMessageStart := b.take 4
  pchCommand := (b.drop 4).take 12
  nMessageSize := Bytes.ofLe ((b.drop 16).take 4)
  pchChecksum := (b.drop 20).take 4

/-- `memcpy(&buf[pos], data, data.size())`. -/
def memcpy (buf : List UInt8) (pos : Nat) (data : List UInt8) : List UInt8 :=
  buf.take pos ++ data ++ buf.drop (pos + data.length)

/-- `CDataStream::resize`: new bytes are zero. -/
def resize (buf : List UInt8) (n : Nat) : List UInt8 :=
  buf.take n ++ List.replicate (n - buf.length) 0

/-- `CNetMessage`. The hasher is the bytes written to it. -/
structure CNetMessage where
  in_data : Bool := false
  hdrbuf : List UInt8 := List.replicate HEADER_SIZE 0
  hdr : CMessageHeader := ⟨[], [], 0xffffffff, []⟩
  nHdrPos : Nat := 0
  vRecv : List UInt8 := []
  nDataPos : Nat := 0
  hasher : List UInt8 := []

namespace CNetMessage

def complete (msg : CNetMessage) : Bool := msg.in_data && msg.hdr.nMessageSize == msg.nDataPos

/-- `CNetMessage::readHeader`: the number of bytes taken, and whether the
header is refused (the C++ code then returns -1). -/
def readHeader (msg : CNetMessage) (pch : List UInt8) : Nat × Bool × CNetMessage :=
  let nCopy := min (HEADER_SIZE - msg.nHdrPos) pch.length
  let hdrbuf := memcpy msg.hdrbuf msg.nHdrPos (pch.take nCopy)
  let nHdrPos := msg.nHdrPos + nCopy
  if nHdrPos < HEADER_SIZE then (nCopy, false, { msg with hdrbuf, nHdrPos })
  else
    let hdr := CMessageHeader.unserialize hdrbuf
    if hdr.nMessageSize > MAX_SIZE then (nCopy, true, { msg with hdrbuf, nHdrPos, hdr })
    else (nCopy, false, { msg with hdrbuf, nHdrPos, hdr, in_data := true })

/-- `CNetMessage::readData`. -/
def readData (msg : CNetMessage) (pch : List UInt8) : Nat × CNetMessage :=
  let nCopy := min (msg.hdr.nMessageSize - msg.nDataPos) pch.length
  let vRecv :=
    if msg.vRecv.length < msg.nDataPos + nCopy then
      resize msg.vRecv (min msg.hdr.nMessageSize (msg.nDataPos + nCopy + 256 * 1024))
    else msg.vRecv
  (nCopy, { msg with
    vRecv := memcpy vRecv msg.nDataPos (pch.take nCopy)
    hasher := msg.hasher ++ pch.take nCopy
    nDataPos := msg.nDataPos + nCopy })

/-- `CNetMessage::GetMessageHash`. -/
def getMessageHash (H : Hashes) (msg : CNetMessage) : Uint256 := H.sha256d msg.hasher

end CNetMessage

/-! ## `CNode::ReceiveMsgBytes` -/

/-- The message that the next byte belongs to, and the ones before it. -/
def currentMessage (vRecvMsg : List CNetMessage) : List CNetMessage × CNetMessage :=
  match vRecvMsg.getLast? with
  | none => (vRecvMsg, {})
  | some msg => if msg.complete then (vRecvMsg, {}) else (vRecvMsg.dropLast, msg)

/-- One message takes what it can of the bytes: how many it took, whether
the peer is dropped, and the message after it. -/
def CNetMessage.absorb (msg : CNetMessage) (pch : List UInt8) : Nat × Bool × CNetMessage :=
  let (handled, refused, msg) :=
    if !msg.in_data then msg.readHeader pch
    else ((msg.readData pch).1, false, (msg.readData pch).2)
  (handled,
    refused || (msg.in_data && decide (msg.hdr.nMessageSize > MAX_PROTOCOL_MESSAGE_LENGTH)), msg)

/-- The loop of `ReceiveMsgBytes`. Where the C++ code returns false, the
result says after how many bytes of the call. -/
def receiveLoop : (fuel : Nat) → List CNetMessage → List UInt8 → List CNetMessage × Option Nat
  | 0, vRecvMsg, _ => (vRecvMsg, none)
  | fuel + 1, vRecvMsg, pch =>
    if pch.isEmpty then (vRecvMsg, none)
    else
      let (before, msg) := currentMessage vRecvMsg
      match msg.absorb pch with
      | (handled, true, msg) => (before ++ [msg], some handled)
      | (handled, false, msg) =>
        let rest := receiveLoop fuel (before ++ [msg]) (pch.drop handled)
        (rest.1, rest.2.map (handled + ·))

/-- `CNode::ReceiveMsgBytes`. Each round takes at least one byte. -/
def receiveMsgBytes (vRecvMsg : List CNetMessage) (pch : List UInt8) :
    List CNetMessage × Option Nat :=
  receiveLoop pch.length vRecvMsg pch

/-- The chunks are fed one after another until one is refused. -/
def receiveChunks : List CNetMessage → List (List UInt8) → List CNetMessage × Option Nat
  | vRecvMsg, [] => (vRecvMsg, none)
  | vRecvMsg, chunk :: chunks =>
    match receiveMsgBytes vRecvMsg chunk with
    | (vRecvMsg, some pos) => (vRecvMsg, some pos)
    | (vRecvMsg, none) =>
      let rest := receiveChunks vRecvMsg chunks
      (rest.1, rest.2.map (chunk.length + ·))

/-- What is known of a completed message: its header, its payload and the
hash of its payload. -/
structure Message where
  hdr : CMessageHeader
  payload : List UInt8
  hash : Uint256
  deriving DecidableEq

def completedMessages (H : Hashes) (vRecvMsg : List CNetMessage) : List Message :=
  (vRecvMsg.filter CNetMessage.complete).map fun msg => ⟨msg.hdr, msg.vRecv, msg.getMessageHash H⟩

/-! ## One byte at a time -/

/-- The message that is being read. -/
inductive Reading
  | header (read : List UInt8)
  | payload (hdr : CMessageHeader) (read : List UInt8)

/-- What the bytes so far amount to. -/
structure Framed where
  completed : List (CMessageHeader × List UInt8)
  reading : Reading

namespace Framed

variable {c : List (CMessageHeader × List UInt8)} {bs read : List UInt8}

/-- A payload is complete as soon as it has all its bytes. -/
def settle (completed : List (CMessageHeader × List UInt8)) (hdr : CMessageHeader)
    (read : List UInt8) : Framed :=
  if read.length = hdr.nMessageSize then ⟨completed ++ [(hdr, read)], .header []⟩
  else ⟨completed, .payload hdr read⟩

/-- A header is refused if its message is too long. -/
def openPayload (completed : List (CMessageHeader × List UInt8)) (read : List UInt8) :
    Option Framed :=
  let hdr := CMessageHeader.unserialize read
  if hdr.nMessageSize > MAX_SIZE ∨ hdr.nMessageSize > MAX_PROTOCOL_MESSAGE_LENGTH then none
  else some (settle completed hdr [])

def byte (s : Framed) (b : UInt8) : Option Framed :=
  match s.reading with
  | .header read =>
    if (read ++ [b]).length < HEADER_SIZE then some ⟨s.completed, .header (read ++ [b])⟩
    else openPayload s.completed (read ++ [b])
  | .payload hdr read => some (settle s.completed hdr (read ++ [b]))

def feed : Framed → List UInt8 → Framed × Option Nat
  | s, [] => (s, none)
  | s, b :: bs =>
    match s.byte b with
    | none => (s, some 1)
    | some t => ((t.feed bs).1, (t.feed bs).2.map (1 + ·))

/-- Bytes after bytes that were not refused. -/
theorem feed_append {s t : Framed} {a : List UInt8} (h : s.feed a = (t, none))
    (b : List UInt8) : s.feed (a ++ b) = ((t.feed b).1, (t.feed b).2.map (a.length + ·)) := by
  induction a generalizing s with
  | nil =>
    cases h
    simp [Option.map_id']
  | cons x a ih =>
    rw [feed] at h
    rw [List.cons_append, feed]
    cases hx : s.byte x with
    | none => simp [hx] at h
    | some u =>
      simp only [hx, Prod.mk.injEq, Option.map_eq_none_iff] at h
      have hu : u.feed a = (t, none) := Prod.ext h.1 h.2
      simp only [ih hu, Option.map_map, List.length_cons, Prod.mk.injEq, true_and]
      congr 1
      funext n
      simp only [Function.comp_apply]
      omega

/-- Once refused, the rest of the bytes does not matter. -/
theorem feed_append_refused {s t : Framed} {a : List UInt8} {n : Nat}
    (h : s.feed a = (t, some n)) (b : List UInt8) : s.feed (a ++ b) = (t, some n) := by
  induction a generalizing s n with
  | nil => cases h
  | cons x a ih =>
    rw [feed] at h
    rw [List.cons_append, feed]
    cases hx : s.byte x with
    | none => simpa [hx] using h
    | some u =>
      simp only [hx, Prod.mk.injEq, Option.map_eq_some_iff] at h
      obtain ⟨hfst, k, hk, rfl⟩ := h
      simp only [ih (Prod.ext hfst hk), Option.map_some]

theorem feed_header (h : read.length + bs.length < HEADER_SIZE) :
    feed ⟨c, .header read⟩ bs = (⟨c, .header (read ++ bs)⟩, none) := by
  induction bs generalizing read with
  | nil => simp [feed]
  | cons b bs ih =>
    rw [List.length_cons] at h
    have hb : (read ++ [b]).length < HEADER_SIZE := by simp; omega
    rw [feed, byte]
    simp only [if_pos hb]
    rw [ih (by rw [List.length_append, List.length_singleton]; omega)]
    simp

/-- The last byte of a header. -/
theorem feed_header_full (c : List (CMessageHeader × List UInt8)) (hbs : bs ≠ [])
    (h : read.length + bs.length = HEADER_SIZE) :
    feed ⟨c, .header read⟩ bs =
      match openPayload c (read ++ bs) with
      | none => (⟨c, .header (read ++ bs.dropLast)⟩, some bs.length)
      | some t => (t, none) := by
  obtain ⟨init, last, rfl⟩ := List.eq_nil_or_concat bs |>.resolve_left hbs
  rw [List.concat_eq_append] at *
  simp only [List.length_append, List.length_singleton] at h
  have hlast : ¬ (read ++ init ++ [last]).length < HEADER_SIZE := by simp; omega
  have hbyte : byte ⟨c, .header (read ++ init)⟩ last = openPayload c (read ++ (init ++ [last])) :=
    (if_neg hlast).trans (by rw [List.append_assoc])
  rw [feed_append (feed_header (by omega)) [last], feed, hbyte]
  cases openPayload c (read ++ (init ++ [last])) with
  | none => simp
  | some t => simp [feed]

theorem feed_payload {hdr : CMessageHeader} (hbs : bs ≠ [])
    (h : read.length + bs.length ≤ hdr.nMessageSize) :
    feed ⟨c, .payload hdr read⟩ bs = (settle c hdr (read ++ bs), none) := by
  induction bs generalizing read with
  | nil => exact absurd rfl hbs
  | cons b bs ih =>
    rw [List.length_cons] at h
    rw [feed, byte]
    by_cases hnil : bs = []
    · subst hnil
      simp [feed]
    · have hlen : 0 < bs.length := List.length_pos_of_ne_nil hnil
      have hshort : settle c hdr (read ++ [b]) = ⟨c, .payload hdr (read ++ [b])⟩ :=
        if_neg (by simp; omega)
      simp only [hshort]
      rw [ih hnil (by simp; omega)]
      simp

end Framed

/-! ## The code follows it -/

namespace CNetMessage

def reading (msg : CNetMessage) : Reading :=
  if msg.in_data then .payload msg.hdr (msg.vRecv.take msg.nDataPos)
  else .header (msg.hdrbuf.take msg.nHdrPos)

/-- What holds of a message that was not refused. -/
structure Good (msg : CNetMessage) : Prop where
  hdrbuf_len : msg.hdrbuf.length = HEADER_SIZE
  header : msg.in_data = false →
    msg.nHdrPos < HEADER_SIZE ∧ msg.vRecv = [] ∧ msg.nDataPos = 0 ∧ msg.hasher = []
  payload : msg.in_data = true → msg.hasher = msg.vRecv.take msg.nDataPos ∧
    msg.nDataPos ≤ msg.vRecv.length ∧ msg.vRecv.length ≤ msg.hdr.nMessageSize ∧
    msg.hdr.nMessageSize ≤ MAX_PROTOCOL_MESSAGE_LENGTH

theorem good_new : Good {} where
  hdrbuf_len := rfl
  header _ := ⟨by decide, rfl, rfl, rfl⟩
  payload h := by cases h

theorem Good.hasher_eq {msg : CNetMessage} (h : msg.Good) (hc : msg.complete = true) :
    msg.hasher = msg.vRecv := by
  simp only [complete, Bool.and_eq_true, beq_iff_eq] at hc
  obtain ⟨hash, hpos, hlen, _⟩ := h.payload hc.1
  rw [hash, List.take_of_length_le (by omega)]

theorem length_memcpy (buf data : List UInt8) {pos : Nat} (h : pos + data.length ≤ buf.length) :
    (memcpy buf pos data).length = buf.length := by
  simp [memcpy]
  omega

/-- The first bytes of a buffer after `n` bytes of `pch` were copied to `pos`. -/
theorem take_memcpy (buf pch : List UInt8) {pos n : Nat} (h : pos ≤ buf.length)
    (hn : n ≤ pch.length) :
    (memcpy buf pos (pch.take n)).take (pos + n) = buf.take pos ++ pch.take n := by
  have hlen : (buf.take pos ++ pch.take n).length = pos + n := by simp; omega
  rw [memcpy, ← hlen, List.take_left]

theorem length_resize (buf : List UInt8) {n : Nat} (h : buf.length ≤ n) :
    (resize buf n).length = n := by
  simp [resize]
  omega

theorem take_resize (buf : List UInt8) {k n : Nat} (hk : k ≤ buf.length) (hn : buf.length ≤ n) :
    (resize buf n).take k = buf.take k := by
  rw [resize, List.take_of_length_le hn, List.take_append_of_le_length hk]

end CNetMessage

/-- The state after a message has taken its bytes. -/
def Framed.after (c : List (CMessageHeader × List UInt8)) (msg : CNetMessage) : Framed :=
  if msg.complete then ⟨c ++ [(msg.hdr, msg.vRecv)], .header []⟩ else ⟨c, msg.reading⟩

namespace CNetMessage

variable {msg msg' : CNetMessage} {pch : List UInt8} {k : Nat} {refused : Bool}

/-- What `absorb` does on some bytes: it takes at least one of them, and on
those it took the machine agrees. -/
structure Absorbs (msg : CNetMessage) (pch : List UInt8) (n : Nat) (refused : Bool)
    (msg' : CNetMessage) : Prop where
  pos : 0 < n
  le : n ≤ pch.length
  refuses : refused = true → msg'.complete = false ∧
    ∀ c, ∃ r, Framed.feed ⟨c, msg.reading⟩ (pch.take n) = (⟨c, r⟩, some n)
  keeps : refused = false → msg'.Good ∧
    ∀ c, Framed.feed ⟨c, msg.reading⟩ (pch.take n) = (Framed.after c msg', none)

theorem absorbs_header (h : msg.Good) (hin : msg.in_data = false) (hpch : pch ≠ [])
    (hres : msg.absorb pch = (k, refused, msg')) : Absorbs msg pch k refused msg' := by
  obtain ⟨hpos, hrecv, hdata, hhash⟩ := h.header hin
  have hlen : 0 < pch.length := List.length_pos_of_ne_nil hpch
  have hbuf := h.hdrbuf_len
  obtain ⟨n, hn⟩ : ∃ n, n = min (HEADER_SIZE - msg.nHdrPos) pch.length := ⟨_, rfl⟩
  have htake : (pch.take n).length = n := by simp; omega
  have hread : msg.reading = .header (msg.hdrbuf.take msg.nHdrPos) := by simp [reading, hin]
  have hreadLen : (msg.hdrbuf.take msg.nHdrPos).length = msg.nHdrPos := by simp; omega
  obtain ⟨buf, hbufEq⟩ : ∃ buf, buf = memcpy msg.hdrbuf msg.nHdrPos (pch.take n) := ⟨_, rfl⟩
  have hbufLen : buf.length = HEADER_SIZE := by
    rw [hbufEq, length_memcpy _ _ (by omega), hbuf]
  have hbufTake : buf.take (msg.nHdrPos + n) = msg.hdrbuf.take msg.nHdrPos ++ pch.take n := by
    rw [hbufEq, take_memcpy _ _ (by omega) (by omega)]
  rw [absorb, hin] at hres
  simp only [Bool.not_false, if_true, readHeader, ← hn, ← hbufEq] at hres
  by_cases hshort : msg.nHdrPos + n < HEADER_SIZE
  · -- the header stays incomplete
    rw [if_pos hshort] at hres
    simp only [hin, Bool.false_and, Bool.or_false, Prod.mk.injEq] at hres
    obtain ⟨rfl, rfl, rfl⟩ := hres
    refine ⟨by omega, by omega, by simp, fun _ => ⟨⟨hbufLen, ?_, by simp⟩, fun c => ?_⟩⟩
    · exact fun _ => ⟨hshort, hrecv, hdata, hhash⟩
    · rw [hread, Framed.feed_header (by omega)]
      simp [Framed.after, complete, reading, hbufTake]
  · have hfull : msg.nHdrPos + n = HEADER_SIZE := by omega
    rw [if_neg hshort] at hres
    rw [hfull, ← hbufLen, List.take_length] at hbufTake
    have hne : pch.take n ≠ [] := List.ne_nil_of_length_pos (by omega)
    have hfeed (c) : Framed.feed ⟨c, msg.reading⟩ (pch.take n) = _ :=
      hread ▸ Framed.feed_header_full c hne (by omega)
    simp only [← hbufTake, Framed.openPayload] at hfeed
    by_cases hmax : (CMessageHeader.unserialize buf).nMessageSize > MAX_SIZE
    · -- refused by `readHeader`
      rw [if_pos hmax] at hres
      obtain ⟨rfl, rfl, rfl⟩ := hres
      refine ⟨by omega, by omega, fun _ => ⟨by simp [complete, hin], fun c => ?_⟩, by simp⟩
      exact ⟨_, by rw [hfeed c, if_pos (Or.inl hmax), htake]⟩
    · rw [if_neg hmax] at hres
      simp only [Bool.true_and, Bool.false_or, Prod.mk.injEq] at hres
      obtain ⟨rfl, rfl, rfl⟩ := hres
      refine ⟨by omega, by omega, fun hbig => ⟨?_, fun c => ?_⟩, fun hfits => ⟨⟨hbufLen, by simp,
        fun _ => ?_⟩, fun c => ?_⟩⟩
      · -- an oversized message has a payload to come
        simp only [decide_eq_true_eq] at hbig
        simp only [complete, hdata, Bool.true_and, beq_eq_false_iff_ne]
        omega
      · exact ⟨_, by rw [hfeed c, if_pos (Or.inr (by simpa using hbig)), htake]⟩
      · simpa [hhash, hrecv, hdata] using hfits
      · rw [hfeed c, if_neg (by simp only [decide_eq_false_iff_not] at hfits; tauto)]
        simp only [Framed.after, Framed.settle, complete, reading, hdata, hrecv, Bool.true_and,
          beq_iff_eq, List.length_nil, if_true, List.take_nil, @eq_comm Nat 0]

theorem absorbs_payload (h : msg.Good) (hin : msg.in_data = true) (hc : msg.complete = false)
    (hpch : pch ≠ []) (hres : msg.absorb pch = (k, refused, msg')) :
    Absorbs msg pch k refused msg' := by
  obtain ⟨hhash, hpos, hmax, hfits⟩ := h.payload hin
  have hlen : 0 < pch.length := List.length_pos_of_ne_nil hpch
  have hsize : msg.nDataPos < msg.hdr.nMessageSize := by
    simp only [complete, hin, Bool.true_and, beq_eq_false_iff_ne] at hc
    omega
  obtain ⟨n, hn⟩ : ∃ n, n = min (msg.hdr.nMessageSize - msg.nDataPos) pch.length := ⟨_, rfl⟩
  have htake : (pch.take n).length = n := by simp; omega
  obtain ⟨buf, hbuf⟩ : ∃ buf, buf = if msg.vRecv.length < msg.nDataPos + n then
      resize msg.vRecv (min msg.hdr.nMessageSize (msg.nDataPos + n + 256 * 1024))
    else msg.vRecv := ⟨_, rfl⟩
  -- the buffer has room for the new bytes, and its first ones are the old ones
  have hroom : msg.nDataPos + n ≤ buf.length ∧ buf.length ≤ msg.hdr.nMessageSize ∧
      buf.take msg.nDataPos = msg.vRecv.take msg.nDataPos := by
    rw [hbuf]
    split
    · rw [length_resize _ (by omega), take_resize _ hpos (by omega)]
      exact ⟨by omega, by omega, rfl⟩
    · exact ⟨by omega, hmax, rfl⟩
  obtain ⟨hge, hle, hold⟩ := hroom
  have hnewLen : (memcpy buf msg.nDataPos (pch.take n)).length = buf.length :=
    length_memcpy _ _ (by omega)
  have hnewTake : (memcpy buf msg.nDataPos (pch.take n)).take (msg.nDataPos + n) =
      msg.vRecv.take msg.nDataPos ++ pch.take n := by
    rw [take_memcpy _ _ (by omega) (by omega), hold]
  rw [absorb, hin] at hres
  simp only [Bool.not_true, Bool.false_eq_true, if_false, readData, ← hn, ← hbuf, hin,
    Bool.true_and, Bool.false_or, Prod.mk.injEq] at hres
  obtain ⟨rfl, rfl, rfl⟩ := hres
  refine ⟨by omega, by omega, fun hbig => absurd (of_decide_eq_true hbig) (by omega), fun _ =>
    ⟨⟨h.hdrbuf_len, by simp, fun _ => ?_⟩, fun c => ?_⟩⟩
  · rw [hnewLen, hnewTake, hhash]
    exact ⟨rfl, hge, hle, hfits⟩
  · have hread : msg.reading = .payload msg.hdr (msg.vRecv.take msg.nDataPos) := by
      simp [reading, hin]
    have hreadLen : (msg.vRecv.take msg.nDataPos).length = msg.nDataPos := by simp; omega
    rw [hread, Framed.feed_payload (List.ne_nil_of_length_pos (by omega)) (by omega)]
    simp only [Framed.after, Framed.settle, complete, reading, if_true, Bool.true_and,
      beq_iff_eq, List.length_append, hreadLen, htake, hnewTake]
    split
    · -- all bytes are there: the buffer holds nothing else
      rename_i hfull
      rw [if_pos hfull.symm, ← hnewTake, List.take_of_length_le (by omega)]
    · rename_i hmore
      rw [if_neg (Ne.symm hmore)]

theorem absorbs (h : msg.Good) (hc : msg.complete = false) (hpch : pch ≠ [])
    (hres : msg.absorb pch = (k, refused, msg')) : Absorbs msg pch k refused msg' := by
  cases hin : msg.in_data with
  | false => exact absorbs_header h hin hpch hres
  | true => exact absorbs_payload h hin hc hpch hres

end CNetMessage

/-! ## Whole calls -/

def payloads (vRecvMsg : List CNetMessage) : List (CMessageHeader × List UInt8) :=
  (vRecvMsg.filter CNetMessage.complete).map fun msg => (msg.hdr, msg.vRecv)

/-- The state of the machine that the messages stand for. -/
def framed (vRecvMsg : List CNetMessage) : Framed :=
  ⟨payloads vRecvMsg, (currentMessage vRecvMsg).2.reading⟩

theorem framed_append (before : List CNetMessage) (msg : CNetMessage) :
    framed (before ++ [msg]) = Framed.after (payloads before) msg := by
  cases hc : msg.complete <;>
    simp [framed, payloads, currentMessage, Framed.after, hc, CNetMessage.reading]

theorem currentMessage_spec {before : List CNetMessage} {msg : CNetMessage}
    (h : ∀ m ∈ vRecvMsg, m.Good) (hcur : currentMessage vRecvMsg = (before, msg)) :
    (∀ m ∈ before, m.Good) ∧ msg.Good ∧ msg.complete = false ∧
      framed vRecvMsg = ⟨payloads before, msg.reading⟩ := by
  rw [framed, hcur]
  rw [currentMessage] at hcur
  split at hcur
  · cases hcur
    exact ⟨h, CNetMessage.good_new, rfl, rfl⟩
  · rename_i last hlast
    split at hcur
    · cases hcur
      exact ⟨h, CNetMessage.good_new, rfl, rfl⟩
    · rename_i hopen
      cases hcur
      have hsplit := List.dropLast_append_getLast? msg hlast
      refine ⟨fun m hm => h m (List.mem_of_mem_dropLast hm), h _ (List.mem_of_getLast? hlast),
        by simpa using hopen, ?_⟩
      congr 1
      conv_lhs => rw [← hsplit]
      simp [payloads, hopen]

/-- What a call does, against the machine on the same bytes. -/
structure Follows (r : List CNetMessage × Option Nat) (f : Framed × Option Nat) : Prop where
  position : r.2 = f.2
  completed : payloads r.1 = f.1.completed
  hashed : ∀ m ∈ r.1, m.complete = true → m.hasher = m.vRecv
  goes_on : r.2 = none → (∀ m ∈ r.1, m.Good) ∧ framed r.1 = f.1

theorem follows_receiveLoop {fuel : Nat} {pch : List UInt8} (h : ∀ m ∈ vRecvMsg, m.Good)
    (hfuel : pch.length ≤ fuel) :
    Follows (receiveLoop fuel vRecvMsg pch) ((framed vRecvMsg).feed pch) := by
  induction fuel generalizing vRecvMsg pch with
  | zero =>
    obtain rfl := List.eq_nil_of_length_eq_zero (Nat.le_zero.mp hfuel)
    exact ⟨rfl, rfl, fun m hm => (h m hm).hasher_eq, fun _ => ⟨h, rfl⟩⟩
  | succ fuel ih =>
    rw [receiveLoop]
    split
    · rename_i hnil
      obtain rfl := List.isEmpty_iff.mp hnil
      exact ⟨rfl, rfl, fun m hm => (h m hm).hasher_eq, fun _ => ⟨h, rfl⟩⟩
    · rename_i hne
      rcases hcur : currentMessage vRecvMsg with ⟨before, msg⟩
      obtain ⟨hbefore, hmsg, hopen, hframed⟩ := currentMessage_spec h hcur
      rcases hres : msg.absorb pch with ⟨n, refused, msg'⟩
      have habs := CNetMessage.absorbs hmsg hopen (by simpa using hne) hres
      have hsplit : pch = pch.take n ++ pch.drop n := (List.take_append_drop n pch).symm
      have hn := habs.pos
      have hle := habs.le
      simp only [hres]
      cases refused with
      | true =>
        obtain ⟨hnot, hfeed⟩ := habs.refuses rfl
        obtain ⟨r, hr⟩ := hfeed (payloads before)
        rw [hframed]
        conv => rhs; rw [hsplit]
        rw [Framed.feed_append_refused hr]
        refine ⟨rfl, by simp [payloads, hnot], fun m hm hc => ?_, by simp⟩
        rcases List.mem_append.mp hm with hm | hm
        · exact (hbefore m hm).hasher_eq hc
        · rw [List.mem_singleton.mp hm, hnot] at hc
          cases hc
      | false =>
        obtain ⟨hgood, hfeed⟩ := habs.keeps rfl
        have hall : ∀ m ∈ before ++ [msg'], m.Good := by
          simpa [or_imp, forall_and] using ⟨hbefore, hgood⟩
        obtain ⟨h1, h2, h3, h4⟩ := @ih (before ++ [msg']) (pch.drop n) hall (by simp; omega)
        rw [hframed]
        conv => rhs; rw [hsplit]
        rw [Framed.feed_append (hfeed _), ← framed_append]
        refine ⟨?_, h2, h3, fun hnone => h4 (by simpa using hnone)⟩
        simp only [h1, List.length_take, Nat.min_eq_left hle]

theorem follows_receiveChunks (h : ∀ m ∈ vRecvMsg, m.Good) (chunks : List (List UInt8)) :
    Follows (receiveChunks vRecvMsg chunks) ((framed vRecvMsg).feed chunks.flatten) := by
  induction chunks generalizing vRecvMsg with
  | nil => exact ⟨rfl, rfl, fun m hm => (h m hm).hasher_eq, fun _ => ⟨h, rfl⟩⟩
  | cons chunk chunks ih =>
    have hcall := follows_receiveLoop h (le_refl chunk.length)
    rw [receiveChunks, receiveMsgBytes, List.flatten_cons]
    rcases hr : receiveLoop chunk.length vRecvMsg chunk with ⟨msgs, pos⟩
    rcases hf : (framed vRecvMsg).feed chunk with ⟨t, pos'⟩
    rw [hr, hf] at hcall
    obtain ⟨rfl, hcompleted, hhashed, hgoes⟩ := hcall
    cases pos with
    | some k =>
      rw [Framed.feed_append_refused hf]
      exact ⟨rfl, hcompleted, hhashed, by simp⟩
    | none =>
      obtain ⟨hall, rfl⟩ := hgoes rfl
      obtain ⟨h1, h2, h3, h4⟩ := ih hall
      rw [Framed.feed_append hf]
      exact ⟨by simp only [h1], h2, h3, fun hnone => h4 (by simpa using hnone)⟩

theorem completedMessages_eq {H : Hashes} {r : List CNetMessage × Option Nat}
    {f : Framed × Option Nat} (h : Follows r f) :
    completedMessages H r.1 = f.1.completed.map fun p => ⟨p.1, p.2, H.sha256d p.2⟩ := by
  rw [← h.completed, payloads, List.map_map, completedMessages]
  refine List.map_congr_left fun m hm => ?_
  obtain ⟨hmem, hc⟩ := List.mem_filter.mp hm
  simp [CNetMessage.getMessageHash, h.hashed m hmem hc]

/-- However the bytes of a connection are cut into chunks, the node completes
the same messages and gives up after the same byte, or never. -/
theorem framing_of_chunks (H : Hashes) (chunks : List (List UInt8)) :
    completedMessages H (receiveChunks [] chunks).1 =
        completedMessages H (receiveMsgBytes [] chunks.flatten).1 ∧
      (receiveChunks [] chunks).2 = (receiveMsgBytes [] chunks.flatten).2 := by
  have hnil : ∀ m ∈ ([] : List CNetMessage), m.Good := by simp
  have hcut := follows_receiveChunks hnil chunks
  have hwhole := follows_receiveLoop hnil (le_refl chunks.flatten.length)
  refine ⟨?_, hcut.position.trans hwhole.position.symm⟩
  rw [completedMessages_eq hcut, receiveMsgBytes, completedMessages_eq hwhole]

end junkcoin
