-- The send queue of a node (`CConnman::PushMessage` and
-- `CConnman::SocketSendData`): headers and payloads leave in the order in
-- which they were pushed, whatever the socket takes at a time, and
-- `nSendSize` counts what is queued.
import Junkcoin.Lib.Loop
import Junkcoin.MessageFraming

namespace junkcoin

/-! ## Pushed messages -/

/-- A command, as the code passes it to `CMessageHeader`: the constructor
asserts that it fits. -/
structure Command where
  pszCommand : List UInt8
  no_zero : ∀ b ∈ pszCommand, b ≠ 0
  fits : pszCommand.length ≤ 12

/-- `CSerializedNetMsg`. -/
structure CSerializedNetMsg where
  command : Command
  data : List UInt8

/-- The `SerializationOp` of a header, writing. -/
def CMessageHeader.serialize (hdr : CMessageHeader) : List UInt8 :=
  hdr.pchMessageStart ++ hdr.pchCommand ++ Bytes.le 4 hdr.nMessageSize ++ hdr.pchChecksum

/-- The header that `PushMessage` puts before a payload. -/
def CSerializedNetMsg.header (H : Hashes) (messageStart : BitVec 32) (msg : CSerializedNetMsg) :
    List UInt8 :=
  CMessageHeader.serialize
    { pchMessageStart := Bytes.le 4 messageStart.toNat
      pchCommand := msg.command.pszCommand ++
        List.replicate (12 - msg.command.pszCommand.length) 0
      nMessageSize := msg.data.length % 2 ^ 32
      pchChecksum := (H.sha256d msg.data).bytes.take 4 }

theorem CSerializedNetMsg.length_header (H : Hashes) (messageStart : BitVec 32)
    (msg : CSerializedNetMsg) : (msg.header H messageStart).length = HEADER_SIZE := by
  have := msg.command.fits
  simp [header, CMessageHeader.serialize, HEADER_SIZE, Uint256.bytes]
  omega

/-- The bytes of a message on the wire. -/
def CSerializedNetMsg.wire (H : Hashes) (messageStart : BitVec 32) (msg : CSerializedNetMsg) :
    List UInt8 :=
  msg.header H messageStart ++ msg.data

/-! ## The queue -/

/-- What one call of `send` does: it takes some of the bytes offered to it,
or reports an error that passes, or one that closes the socket. -/
inductive SendResult
  | wrote (n : Nat)
  | wouldBlock
  | failed

/-- The part of `CNode` that sending uses, and the bytes that its socket has
taken. `hSocket` is false for `INVALID_SOCKET`. -/
structure CNode where
  hSocket : Bool := true
  vSendMsg : List (List UInt8) := []
  nSendOffset : Nat := 0
  nSendSize : Nat := 0
  nSendBytes : Nat := 0
  fPauseSend : Bool := false
  emitted : List UInt8 := []

variable (nSendBufferMaxSize : Nat) (H : Hashes) (messageStart : BitVec 32)
  (msg : CSerializedNetMsg)

/-- The loop of `SocketSendData` over the buffers from `it` on; the result
has the buffers from where it stopped. -/
def sendLoop : List (List UInt8) → List SendResult → CNode → Check (List (List UInt8) × CNode)
  | [], _, node => pure ([], node)
  | data :: rest, results, node => do
    assert (data.length > node.nSendOffset) "data.size() > pnode->nSendOffset"
    if !node.hSocket then pure (data :: rest, node)
    else
      match results with
      | .wrote n :: results =>
        let nBytes := min n (data.length - node.nSendOffset)
        if nBytes > 0 then
          let node := { node with
            emitted := node.emitted ++ (data.drop node.nSendOffset).take nBytes
            nSendBytes := (node.nSendBytes + nBytes) % 2 ^ 64
            nSendOffset := node.nSendOffset + nBytes }
          if node.nSendOffset = data.length then
            let nSendSize := node.nSendSize - data.length
            sendLoop rest results { node with
              nSendOffset := 0
              nSendSize
              fPauseSend := nSendSize > nSendBufferMaxSize }
          -- could not send the full buffer
          else pure (data :: rest, node)
        else pure (data :: rest, node)
      | .failed :: _ => pure (data :: rest, { node with hSocket := false })
      | .wouldBlock :: _ => pure (data :: rest, node)
      | [] => pure (data :: rest, node)

/-- `CConnman::SocketSendData`. -/
def socketSendData (results : List SendResult) (node : CNode) : Check CNode := do
  let (rest, node) ← sendLoop nSendBufferMaxSize node.vSendMsg results node
  if rest.isEmpty then do
    assert (node.nSendOffset == 0) "pnode->nSendOffset == 0"
    assert (node.nSendSize == 0) "pnode->nSendSize == 0"
  pure { node with vSendMsg := rest }

/-- `CConnman::PushMessage`. -/
def pushMessage (results : List SendResult) (node : CNode) : Check CNode :=
  let optimisticSend := node.vSendMsg.isEmpty
  let nSendSize := node.nSendSize + (msg.data.length + HEADER_SIZE)
  let node := { node with
    nSendSize
    fPauseSend := if nSendSize > nSendBufferMaxSize then true else node.fPauseSend
    vSendMsg := node.vSendMsg ++ [msg.header H messageStart] ++
      if msg.data.length ≠ 0 then [msg.data] else [] }
  if optimisticSend then socketSendData nSendBufferMaxSize results node else pure node

/-- The calls on one node. The socket may also be closed by another part of
the node between them. -/
inductive SendCall
  | pushMessage (msg : CSerializedNetMsg) (results : List SendResult)
  | socketSendData (results : List SendResult)
  | closeSocketDisconnect

def SendCall.run (node : CNode) : SendCall → Check CNode
  | .pushMessage msg results =>
    junkcoin.pushMessage nSendBufferMaxSize H messageStart msg results node
  | .socketSendData results => junkcoin.socketSendData nSendBufferMaxSize results node
  | .closeSocketDisconnect => pure { node with hSocket := false }

/-- The bytes that a call adds to the queue. -/
def SendCall.pushed : SendCall → List UInt8
  | .pushMessage msg _ => msg.wire H messageStart
  | .socketSendData _ => []
  | .closeSocketDisconnect => []

/-! ## What the queue keeps -/

/-- The queue `rest` of a node that has to emit `pushed` in all. -/
structure Queued (pushed : List UInt8) (rest : List (List UInt8)) (node : CNode) : Prop where
  order : node.emitted ++ rest.flatten.drop node.nSendOffset = pushed
  size : node.nSendSize = rest.flatten.length
  nonempty : ∀ data ∈ rest, data ≠ []
  /-- `nSendOffset` is inside the first buffer. -/
  offset : ∀ data ∈ rest.head?, node.nSendOffset < data.length
  offset_nil : rest = [] → node.nSendOffset = 0

theorem Queued.offset_le {pushed : List UInt8} {rest : List (List UInt8)} {node : CNode}
    (h : Queued pushed rest node) : node.nSendOffset ≤ rest.flatten.length := by
  cases rest with
  | nil => simp [h.offset_nil rfl]
  | cons data rest =>
    have := h.offset data (by simp)
    simp
    omega

theorem Queued.emit {pushed data : List UInt8} {rest : List (List UInt8)} {node : CNode}
    (h : Queued pushed (data :: rest) node) {n : Nat} (hn : n ≤ data.length - node.nSendOffset) :
    node.emitted ++ (data.drop node.nSendOffset).take n ++
      (data :: rest).flatten.drop (node.nSendOffset + n) = pushed := by
  have hoff := h.offset data (by simp)
  rw [← h.order, List.append_assoc, ← List.drop_drop]
  congr 1
  conv_rhs => rw [← List.take_append_drop n ((data :: rest).flatten.drop node.nSendOffset)]
  rw [List.flatten_cons, List.drop_append_of_le_length (by omega),
    List.take_append_of_le_length (by simp; omega)]

theorem queued_sendLoop {pushed : List UInt8} {rest : List (List UInt8)} {node : CNode}
    (h : Queued pushed rest node) (results : List SendResult) :
    ∃ rest' node', sendLoop nSendBufferMaxSize rest results node = .ok (rest', node') ∧
      Queued pushed rest' node' := by
  induction rest generalizing node results with
  | nil => exact ⟨[], node, rfl, h⟩
  | cons data rest ih =>
    have hoff : node.nSendOffset < data.length := h.offset data (by simp)
    have hassert : decide (data.length > node.nSendOffset) = true := by simpa using hoff
    rcases results with _ | ⟨n | _ | _, results⟩ <;> rw [sendLoop, assert_bind hassert]
    case cons.wrote =>
      split
      · exact ⟨_, _, rfl, h⟩
      obtain ⟨k, hk⟩ : ∃ k, k = min n (data.length - node.nSendOffset) := ⟨_, rfl⟩
      have horder := h.emit (show k ≤ data.length - node.nSendOffset by omega)
      simp only [← hk]
      split
      · split
        · -- the whole buffer is sent
          rename_i hfull
          refine ih ⟨?_, ?_, ?_, ?_, fun _ => rfl⟩ results
          · rw [hfull] at horder
            simpa using horder
          · simp [h.size]
          · exact fun d hd => h.nonempty d (List.mem_cons_of_mem _ hd)
          · exact fun d hd => List.length_pos_of_ne_nil
              (h.nonempty d (List.mem_cons_of_mem _ (List.mem_of_mem_head? hd)))
        · refine ⟨_, _, rfl, horder, h.size, h.nonempty, ?_, by simp⟩
          simp only [List.head?_cons, Option.mem_some_iff, forall_eq']
          omega
      · exact ⟨_, _, rfl, h⟩
    case cons.failed =>
      split
      · exact ⟨_, _, rfl, h⟩
      · exact ⟨_, _, rfl, h.order, h.size, h.nonempty, h.offset, h.offset_nil⟩
    all_goals
      split
      · exact ⟨_, _, rfl, h⟩
      · exact ⟨_, _, rfl, h⟩

/-- The assertions on an empty queue hold. -/
theorem queued_socketSendData {pushed : List UInt8} {node : CNode}
    (h : Queued pushed node.vSendMsg node) (results : List SendResult) :
    ∃ node', socketSendData nSendBufferMaxSize results node = .ok node' ∧
      Queued pushed node'.vSendMsg node' := by
  obtain ⟨rest, node', hloop, hq⟩ := queued_sendLoop nSendBufferMaxSize h results
  have hq' : Queued pushed rest { node' with vSendMsg := rest } :=
    ⟨hq.order, hq.size, hq.nonempty, hq.offset, hq.offset_nil⟩
  refine ⟨{ node' with vSendMsg := rest }, ?_, hq'⟩
  rw [socketSendData, hloop, ok_bind]
  cases rest with
  | nil =>
    have hsize : node'.nSendSize = 0 := hq.size
    have hoff : node'.nSendOffset = 0 := hq.offset_nil rfl
    simp [hsize, hoff, assert]
    rfl
  | cons data rest => rfl

theorem flatten_pushed :
    ([msg.header H messageStart] ++ if msg.data.length ≠ 0 then [msg.data] else []).flatten =
      msg.wire H messageStart := by
  by_cases hdata : msg.data = []
  · simp [hdata, CSerializedNetMsg.wire]
  · simp [hdata, CSerializedNetMsg.wire]

theorem pushed_nonempty :
    ∀ data ∈ [msg.header H messageStart] ++ if msg.data.length ≠ 0 then [msg.data] else [],
      data ≠ [] := by
  intro data hdata
  rw [List.mem_append, List.mem_singleton] at hdata
  rcases hdata with rfl | hdata
  · exact List.ne_nil_of_length_pos (by rw [msg.length_header H messageStart]; decide)
  · split at hdata
    · rename_i hlen
      rw [List.mem_singleton.mp hdata]
      exact fun h => hlen (by simp [h])
    · cases hdata

/-- New buffers at the end of the queue. -/
theorem Queued.append {pushed : List UInt8} {rest new : List (List UInt8)} {node node' : CNode}
    (h : Queued pushed rest node) (hnew : ∀ data ∈ new, data ≠ [])
    (hemitted : node'.emitted = node.emitted) (hoffset : node'.nSendOffset = node.nSendOffset)
    (hsize : node'.nSendSize = node.nSendSize + new.flatten.length) :
    Queued (pushed ++ new.flatten) (rest ++ new) node' where
  order := by
    rw [hemitted, hoffset, List.flatten_append, List.drop_append_of_le_length h.offset_le,
      ← List.append_assoc, h.order]
  size := by rw [hsize, h.size, List.flatten_append, List.length_append]
  nonempty data hdata := (List.mem_append.mp hdata).elim (h.nonempty data) (hnew data)
  offset data hdata := by
    rw [hoffset]
    cases rest with
    | nil =>
      rw [h.offset_nil rfl]
      exact List.length_pos_of_ne_nil (hnew data (List.mem_of_mem_head? hdata))
    | cons first rest => exact h.offset data hdata
  offset_nil hnil := hoffset.trans (h.offset_nil (List.append_eq_nil_iff.mp hnil).1)

theorem queued_pushMessage {pushed : List UInt8} {node : CNode}
    (h : Queued pushed node.vSendMsg node) (msg : CSerializedNetMsg) (results : List SendResult) :
    ∃ node', pushMessage nSendBufferMaxSize H messageStart msg results node = .ok node' ∧
      Queued (pushed ++ msg.wire H messageStart) node'.vSendMsg node' := by
  obtain ⟨new, hnew⟩ : ∃ new, new = [msg.header H messageStart] ++
    if msg.data.length ≠ 0 then [msg.data] else [] := ⟨_, rfl⟩
  have hflat : new.flatten = msg.wire H messageStart := hnew ▸ flatten_pushed H messageStart msg
  have hlen : msg.data.length + HEADER_SIZE = new.flatten.length := by
    rw [hflat, CSerializedNetMsg.wire, List.length_append, msg.length_header, Nat.add_comm]
  have hq (fPauseSend : Bool) : Queued (pushed ++ msg.wire H messageStart)
      (node.vSendMsg ++ new) { node with
        nSendSize := node.nSendSize + (msg.data.length + HEADER_SIZE), fPauseSend,
        vSendMsg := node.vSendMsg ++ new } :=
    hflat ▸ h.append (hnew ▸ pushed_nonempty H messageStart msg) rfl rfl (by rw [hlen])
  rw [pushMessage, List.append_assoc, ← hnew]
  split
  · exact queued_socketSendData nSendBufferMaxSize (hq _) results
  · exact ⟨_, rfl, hq _⟩

/-! ## Whole runs -/

theorem queued_run {pushed : List UInt8} {node : CNode} (h : Queued pushed node.vSendMsg node)
    (call : SendCall) :
    ∃ node', call.run nSendBufferMaxSize H messageStart node = .ok node' ∧
      Queued (pushed ++ call.pushed H messageStart) node'.vSendMsg node' := by
  cases call with
  | pushMessage msg results => exact queued_pushMessage _ H messageStart h msg results
  | socketSendData results =>
    rw [SendCall.pushed, List.append_nil]
    exact queued_socketSendData _ h results
  | closeSocketDisconnect =>
    rw [SendCall.pushed, List.append_nil]
    exact ⟨_, rfl, h.order, h.size, h.nonempty, h.offset, h.offset_nil⟩

/-- For every sequence of pushes, sends and results of the socket no
assertion fails, the bytes emitted are the first of the bytes pushed, the
queue holds the others from `nSendOffset` on, and `nSendSize` counts the
bytes of the queue: those pushed whose buffer has not been removed. -/
theorem emits_in_order (H : Hashes) (messageStart : BitVec 32) (calls : List SendCall) :
    ∃ node, calls.foldlM (SendCall.run nSendBufferMaxSize H messageStart) {} = .ok node ∧
      node.emitted <+: calls.flatMap (SendCall.pushed H messageStart) ∧
      node.emitted ++ node.vSendMsg.flatten.drop node.nSendOffset =
        calls.flatMap (SendCall.pushed H messageStart) ∧
      node.nSendSize = node.vSendMsg.flatten.length ∧
      node.emitted.length + node.nSendSize =
        (calls.flatMap (SendCall.pushed H messageStart)).length + node.nSendOffset ∧
      (node.vSendMsg = [] → node.nSendOffset = 0 ∧ node.nSendSize = 0) := by
  obtain ⟨node, hrun, hq⟩ := Loop.foldlM_ok
    (f := SendCall.run nSendBufferMaxSize H messageStart) (l := calls) (s := {})
    (fun done node => Queued (done.flatMap (SendCall.pushed H messageStart)) node.vSendMsg node)
    ⟨rfl, rfl, by simp, by simp, fun _ => rfl⟩
    (fun done call rest node _ h => by
      simpa using queued_run nSendBufferMaxSize H messageStart h call)
  have hlen := congrArg List.length hq.order
  rw [List.length_append, List.length_drop, ← hq.size] at hlen
  have hoff : node.nSendOffset ≤ node.nSendSize := by
    rw [hq.size]
    exact hq.offset_le
  refine ⟨node, hrun, ⟨_, hq.order⟩, hq.order, hq.size, by omega, fun hnil => ?_⟩
  have hsize := hq.size
  rw [hnil] at hsize
  exact ⟨hq.offset_nil hnil, hsize⟩

end junkcoin
