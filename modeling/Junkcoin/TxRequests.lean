-- The transactions that a peer has announced and that the node still wants
-- (`TxDownloadState` in `net_processing.cpp`): a queue by time, the requests
-- in flight, and the set of announcements that are not to be queued again.
import Junkcoin.Primitives
import Mathlib.Data.List.Sort

namespace junkcoin

variable (asked : Timed) (txid : Uint256)

/-! ## The state -/

def MAX_INV_SZ : Nat := 50000

def MAX_PEER_TX_IN_FLIGHT : Nat := 100

def MAX_PEER_TX_ANNOUNCEMENTS : Nat := 2 * MAX_INV_SZ

/-- Times are in microseconds. -/
def INBOUND_PEER_TX_DELAY : Int := 2 * 1000000

def GETDATA_TX_INTERVAL : Int := 30 * 1000000

def MAX_GETDATA_RANDOM_DELAY : Nat := 2 * 1000000

def TX_EXPIRY_INTERVAL : Int := 10 * GETDATA_TX_INTERVAL

def MAX_BLOCKS_IN_TRANSIT_PER_PEER : Nat := 16

/-- Entries by time, those of one time in the order of their insertion. -/
abbrev Timed := List (Int × Uint256)

/-- `emplace` of a `std::multimap`. -/
def Timed.emplace (l : Timed) (time : Int) (txid : Uint256) : Timed :=
  l.orderedInsert (fun a b => a.1 < b.1) (time, txid)

/-- `CNodeState::TxDownloadState`. The set and the map are lists without
duplicates. -/
structure TxDownloadState where
  m_tx_process_time : Timed := []
  m_tx_announced : List Uint256 := []
  m_tx_in_flight : List (Uint256 × Int) := []
  m_check_expiry_timer : Int := 0

/-- The state for one peer, and `g_already_asked_for`, which all peers share:
a map that keeps the entries with the latest times. -/
structure TxRequests where
  m_tx_download : TxDownloadState := {}
  g_already_asked_for : Timed := []

/-- What a handler reads besides: the clock, the peer and random numbers. -/
structure TxEnv where
  current_time : Int
  fPreferredDownload : Bool
  rand : Nat → Nat
  /-- `AlreadyHave`, for a transaction. -/
  alreadyHave : Uint256 → Bool

/-! ## The times of requests -/

/-- `EraseTxRequest`. -/
def eraseTxRequest : Timed := asked.filter (·.2 ≠ txid)

/-- `GetTxRequestTime`. -/
def getTxRequestTime : Int :=
  match asked.find? (·.2 = txid) with
  | some entry => entry.1
  | none => 0

/-- `UpdateTxRequestTime`. A new entry takes the place of the oldest one if
there are too many. -/
def updateTxRequestTime (request_time : Int) : Timed :=
  match asked.find? (·.2 = txid) with
  | none => Timed.emplace (if asked.length + 1 > MAX_INV_SZ then asked.tail else asked)
      request_time txid
  | some _ => (eraseTxRequest asked txid).emplace request_time txid

/-- `CalculateTxGetDataTime`, with the random number that it draws. -/
def calculateTxGetDataTime (current_time : Int) (use_inbound_delay : Bool) (r : Nat) : Int :=
  let last_request_time := getTxRequestTime asked txid
  let process_time :=
    if last_request_time = 0 then current_time
    else last_request_time + GETDATA_TX_INTERVAL + (r % MAX_GETDATA_RANDOM_DELAY : Nat)
  if use_inbound_delay then process_time + INBOUND_PEER_TX_DELAY else process_time

/-! ## The handlers -/

namespace TxDownloadState

variable (s : TxDownloadState)

/-- The transaction is neither announced nor in flight any more. -/
def forget (txid : Uint256) : TxDownloadState :=
  { s with
    m_tx_announced := s.m_tx_announced.filter (· ≠ txid)
    m_tx_in_flight := s.m_tx_in_flight.filter (·.1 ≠ txid) }

/-- `m_tx_in_flight.emplace(txid, time)`. -/
def fly (txid : Uint256) (time : Int) : TxDownloadState :=
  if txid ∈ s.m_tx_in_flight.map (·.1) then s
  else { s with m_tx_in_flight := s.m_tx_in_flight ++ [(txid, time)] }

/-- The requests that have been in flight for too long are forgotten. -/
def expire (env : TxEnv) : TxDownloadState :=
  if s.m_check_expiry_timer ≤ env.current_time then
    let expired := s.m_tx_in_flight.filter (·.2 ≤ env.current_time - TX_EXPIRY_INTERVAL)
    { expired.foldl (fun s entry => s.forget entry.1) s with
      m_check_expiry_timer := env.current_time + TX_EXPIRY_INTERVAL / 5 +
        (env.rand 0 % (TX_EXPIRY_INTERVAL / 5).toNat : Nat) }
  else s

end TxDownloadState

namespace TxRequests

variable (env : TxEnv) (s : TxRequests)

/-- `RequestTx`, with the random number that it draws. -/
def requestTx (r : Nat) (txid : Uint256) : TxRequests :=
  let d := s.m_tx_download
  if d.m_tx_announced.length ≥ MAX_PEER_TX_ANNOUNCEMENTS ∨
      d.m_tx_process_time.length ≥ MAX_PEER_TX_ANNOUNCEMENTS ∨ txid ∈ d.m_tx_announced then s
  else
    let process_time := calculateTxGetDataTime s.g_already_asked_for txid env.current_time
      (!env.fPreferredDownload) r
    { s with m_tx_download := { d with
        m_tx_announced := d.m_tx_announced ++ [txid]
        m_tx_process_time := d.m_tx_process_time.emplace process_time txid } }

def requestTxs : List Uint256 → TxRequests → TxRequests
  | [], s => s
  | txid :: txids, s => requestTxs txids (s.requestTx env (env.rand txids.length) txid)

/-- The INV handler. Each entry comes with whether it is no block and
`AlreadyHave` is false; `fRequests` is false in blocks only mode, while blocks
are imported and in the initial download. -/
def processInv (fRequests : Bool) (vInv : List (Uint256 × Bool)) : TxRequests :=
  if vInv.length > MAX_INV_SZ ∨ !fRequests then s
  else requestTxs env ((vInv.filter (·.2)).map (·.1)) s

/-- The TX handler: the transaction is forgotten, and the parents of an orphan
are requested. -/
def processTx (hash : Uint256) (parents : List Uint256) : TxRequests :=
  requestTxs env (parents.filter (!env.alreadyHave ·))
    { m_tx_download := s.m_tx_download.forget hash
      g_already_asked_for := eraseTxRequest s.g_already_asked_for hash }

/-- The NOTFOUND handler, for its entries of type `MSG_TX` and
`MSG_WITNESS_TX` among `size` in all. -/
def processNotFound (size : Nat) (vInv : List Uint256) : TxRequests :=
  if size ≤ MAX_PEER_TX_IN_FLIGHT + MAX_BLOCKS_IN_TRANSIT_PER_PEER then
    { s with m_tx_download := vInv.foldl (fun d hash =>
        if hash ∈ d.m_tx_in_flight.map (·.1) then d.forget hash else d) s.m_tx_download }
  else s

/-- The condition of the loop of `SendMessages`. -/
def due : Option (Uint256 × Timed) :=
  match s.m_tx_download.m_tx_process_time with
  | [] => none
  | (time, txid) :: rest =>
    if time ≤ env.current_time ∧ s.m_tx_download.m_tx_in_flight.length < MAX_PEER_TX_IN_FLIGHT then
      some (txid, rest)
    else none

/-- One turn of the loop of `SendMessages`. -/
def sendTurn (r : Nat) (txid : Uint256) (rest : Timed) : TxRequests :=
  let d := { s.m_tx_download with m_tx_process_time := rest }
  if env.alreadyHave txid then { s with m_tx_download := d.forget txid }
  else if getTxRequestTime s.g_already_asked_for txid ≤
      env.current_time - GETDATA_TX_INTERVAL then
    { m_tx_download := d.fly txid env.current_time
      g_already_asked_for := updateTxRequestTime s.g_already_asked_for txid env.current_time }
  else
    let next_process_time := calculateTxGetDataTime s.g_already_asked_for txid env.current_time
      (!env.fPreferredDownload) r
    { s with m_tx_download := { d with
        m_tx_process_time := rest.emplace next_process_time txid } }

/-- At most `turns` turns of the loop of `SendMessages`. -/
def sendLoop : (turns : Nat) → TxRequests → TxRequests
  | 0, s => s
  | turns + 1, s =>
    match s.due env with
    | none => s
    | some (txid, rest) => sendLoop turns (s.sendTurn env (env.rand (turns + 1)) txid rest)

/-- The part of `SendMessages` for transactions, up to a number of turns of
its loop. -/
def sendMessages (turns : Nat) : TxRequests :=
  sendLoop env turns { s with m_tx_download := s.m_tx_download.expire env }

end TxRequests

/-! ## Events -/

/-- What happens to the state of a peer. Other peers change
`g_already_asked_for`. -/
inductive TxEvent
  | inv (env : TxEnv) (fRequests : Bool) (vInv : List (Uint256 × Bool))
  | tx (env : TxEnv) (hash : Uint256) (parents : List Uint256)
  | notFound (size : Nat) (vInv : List Uint256)
  | sendMessages (env : TxEnv) (turns : Nat)
  | otherPeers (current_time : Int) (asked : Timed)

def TxEvent.run (s : TxRequests) : TxEvent → TxRequests
  | .inv env fRequests vInv => s.processInv env fRequests vInv
  | .tx env hash parents => s.processTx env hash parents
  | .notFound size vInv => s.processNotFound size vInv
  | .sendMessages env turns => s.sendMessages env turns
  | .otherPeers _ asked => { s with g_already_asked_for := asked }

/-! ## What the state keeps -/

theorem Timed.emplace_perm (l : Timed) (time : Int) (txid : Uint256) :
    (l.emplace time txid).Perm ((time, txid) :: l) :=
  List.perm_orderedInsert _ _ _

theorem Timed.length_emplace (l : Timed) (time : Int) (txid : Uint256) :
    (l.emplace time txid).length = l.length + 1 :=
  (l.emplace_perm time txid).length_eq

theorem Timed.mem_map_emplace {l : Timed} {time : Int} {txid x : Uint256} :
    x ∈ (l.emplace time txid).map (·.2) ↔ x = txid ∨ x ∈ l.map (·.2) := by
  rw [((l.emplace_perm time txid).map _).mem_iff, List.map_cons, List.mem_cons]

namespace TxDownloadState

variable {s : TxDownloadState}

/-- The three containers are bounded, and an announcement stands for a
transaction that is queued or in flight. -/
structure Bounded (s : TxDownloadState) : Prop where
  process_time : s.m_tx_process_time.length ≤ MAX_PEER_TX_ANNOUNCEMENTS
  announced : s.m_tx_announced.length ≤ MAX_PEER_TX_ANNOUNCEMENTS
  in_flight : s.m_tx_in_flight.length ≤ MAX_PEER_TX_IN_FLIGHT
  tracked : ∀ txid ∈ s.m_tx_announced,
    txid ∈ s.m_tx_process_time.map (·.2) ∨ txid ∈ s.m_tx_in_flight.map (·.1)

theorem mem_forget_in_flight {x txid : Uint256} :
    x ∈ (s.forget txid).m_tx_in_flight.map (·.1) ↔
      x ∈ s.m_tx_in_flight.map (·.1) ∧ x ≠ txid := by
  simp only [forget, List.mem_map, List.mem_filter, decide_eq_true_eq]
  constructor
  · rintro ⟨e, ⟨he, hne⟩, rfl⟩
    exact ⟨⟨e, he, rfl⟩, hne⟩
  · rintro ⟨⟨e, he, rfl⟩, hne⟩
    exact ⟨e, ⟨he, hne⟩, rfl⟩

/-- A transaction is forgotten. It need not have been tracked. -/
theorem bounded_forget {txid : Uint256}
    (hprocess : s.m_tx_process_time.length ≤ MAX_PEER_TX_ANNOUNCEMENTS)
    (hannounced : s.m_tx_announced.length ≤ MAX_PEER_TX_ANNOUNCEMENTS)
    (hflight : s.m_tx_in_flight.length ≤ MAX_PEER_TX_IN_FLIGHT)
    (htracked : ∀ x ∈ s.m_tx_announced, x ≠ txid →
      x ∈ s.m_tx_process_time.map (·.2) ∨ x ∈ s.m_tx_in_flight.map (·.1)) :
    (s.forget txid).Bounded where
  process_time := hprocess
  announced := le_trans (List.length_filter_le _ _) hannounced
  in_flight := le_trans (List.length_filter_le _ _) hflight
  tracked := by
    intro x hx
    obtain ⟨hx, hne⟩ := List.mem_filter.mp hx
    have hne := of_decide_eq_true hne
    exact (htracked x hx hne).imp_right fun hin => mem_forget_in_flight.mpr ⟨hin, hne⟩

theorem Bounded.forget (h : s.Bounded) (txid : Uint256) : (s.forget txid).Bounded :=
  bounded_forget h.process_time h.announced h.in_flight fun x hx _ => h.tracked x hx

theorem Bounded.foldl_forget (h : s.Bounded) (l : List (Uint256 × Int)) :
    (l.foldl (fun s entry => s.forget entry.1) s).Bounded := by
  induction l generalizing s with
  | nil => exact h
  | cons entry l ih => exact ih (h.forget entry.1)

theorem Bounded.expire (h : s.Bounded) (env : TxEnv) : (s.expire env).Bounded := by
  rw [TxDownloadState.expire]
  split
  · obtain ⟨h1, h2, h3, h4⟩ := h.foldl_forget
      (s.m_tx_in_flight.filter (·.2 ≤ env.current_time - TX_EXPIRY_INTERVAL))
    exact ⟨h1, h2, h3, h4⟩
  · exact h

end TxDownloadState

namespace TxRequests

variable {env : TxEnv} {s : TxRequests} {txid : Uint256} {rest : Timed} {clock : Int}
  {entry : Int × Uint256}

theorem bounded_requestTx (h : s.m_tx_download.Bounded) (r : Nat) (txid : Uint256) :
    (s.requestTx env r txid).m_tx_download.Bounded := by
  rw [requestTx]
  split
  · exact h
  · rename_i hnew
    push Not at hnew
    refine ⟨?_, ?_, h.in_flight, fun x hx => ?_⟩
    · rw [Timed.length_emplace]
      exact hnew.2.1
    · rw [List.length_append]
      exact hnew.1
    · rw [Timed.mem_map_emplace]
      rcases List.mem_append.mp hx with hx | hx
      · exact (h.tracked x hx).imp_left Or.inr
      · exact Or.inl (Or.inl (List.mem_singleton.mp hx))

theorem bounded_requestTxs (h : s.m_tx_download.Bounded) (txids : List Uint256) :
    (requestTxs env txids s).m_tx_download.Bounded := by
  induction txids generalizing s with
  | nil => exact h
  | cons txid txids ih => exact ih (bounded_requestTx h _ txid)

theorem of_due (h : s.due env = some (txid, rest)) :
    ∃ time, s.m_tx_download.m_tx_process_time = (time, txid) :: rest ∧ time ≤ env.current_time ∧
      s.m_tx_download.m_tx_in_flight.length < MAX_PEER_TX_IN_FLIGHT := by
  rw [due] at h
  split at h
  · cases h
  · rename_i time _ _ hqueue
    split at h
    · rename_i hcond
      cases h
      exact ⟨time, hqueue, hcond⟩
    · cases h

theorem bounded_sendTurn (h : s.m_tx_download.Bounded) (hdue : s.due env = some (txid, rest))
    (r : Nat) : (s.sendTurn env r txid rest).m_tx_download.Bounded := by
  obtain ⟨time, hqueue, -, hroom⟩ := of_due hdue
  have hlen := h.process_time
  rw [hqueue, List.length_cons] at hlen
  have htracked : ∀ x ∈ s.m_tx_download.m_tx_announced, x ≠ txid →
      x ∈ rest.map (·.2) ∨ x ∈ s.m_tx_download.m_tx_in_flight.map (·.1) := by
    intro x hx hne
    refine (h.tracked x hx).imp_left fun hin => ?_
    rw [hqueue, List.map_cons, List.mem_cons] at hin
    exact hin.resolve_left hne
  rw [sendTurn]
  split
  · exact TxDownloadState.bounded_forget (by dsimp only; omega) h.announced h.in_flight htracked
  split
  · -- requested: the transaction is in flight now
    rw [TxDownloadState.fly]
    split
    · rename_i hin
      refine ⟨by dsimp only; omega, h.announced, h.in_flight, fun x hx => ?_⟩
      by_cases hne : x = txid
      · exact Or.inr (hne ▸ hin)
      · exact htracked x hx hne
    · refine ⟨by dsimp only; omega, h.announced, ?_, fun x hx => ?_⟩
      · rw [List.length_append]
        exact hroom
      · simp only [List.map_append, List.mem_append]
        by_cases hne : x = txid
        · exact Or.inr (Or.inr (by simp [hne]))
        · exact (htracked x hx hne).imp_right Or.inl
  · refine ⟨?_, h.announced, h.in_flight, fun x hx => ?_⟩
    · rw [Timed.length_emplace]
      exact hlen
    · rw [Timed.mem_map_emplace]
      by_cases hne : x = txid
      · exact Or.inl (Or.inl hne)
      · exact (htracked x hx hne).imp_left Or.inr

/-- What each turn keeps holds after any number of turns. -/
theorem sendLoop_keeps {P : TxRequests → Prop}
    (hturn : ∀ s txid rest r, P s → s.due env = some (txid, rest) → P (s.sendTurn env r txid rest))
    (h : P s) (turns : Nat) : P (sendLoop env turns s) := by
  induction turns generalizing s with
  | zero => exact h
  | succ turns ih =>
    rw [sendLoop]
    split
    · exact h
    · rename_i txid rest hdue
      exact ih (hturn s txid rest _ h hdue)

theorem bounded_sendMessages (h : s.m_tx_download.Bounded) (turns : Nat) :
    (s.sendMessages env turns).m_tx_download.Bounded :=
  sendLoop_keeps (P := fun s => s.m_tx_download.Bounded)
    (fun _ _ _ r h hdue => bounded_sendTurn h hdue r) (h.expire env) turns

theorem bounded_run (h : s.m_tx_download.Bounded) (event : TxEvent) :
    (event.run s).m_tx_download.Bounded := by
  cases event with
  | inv env fRequests vInv =>
    rw [TxEvent.run, processInv]
    split
    · exact h
    · exact bounded_requestTxs h _
  | tx env hash parents => exact bounded_requestTxs (h.forget hash) _
  | notFound size vInv =>
    rw [TxEvent.run, processNotFound]
    split
    · generalize s.m_tx_download = d at h
      induction vInv generalizing d with
      | nil => exact h
      | cons hash vInv ih =>
        rw [List.foldl_cons]
        refine ih _ ?_
        split
        · exact h.forget hash
        · exact h
    · exact h
  | sendMessages env turns => exact bounded_sendMessages h turns
  | otherPeers _ asked => exact h

/-! ## Nothing is blocked forever -/

/-- The times in the state lie at most a little after the clock. -/
structure Timely (clock : Int) (s : TxRequests) : Prop where
  nonneg : 0 ≤ clock
  in_flight : ∀ entry ∈ s.m_tx_download.m_tx_in_flight, entry.2 ≤ clock
  asked : ∀ entry ∈ s.g_already_asked_for, entry.1 ≤ clock
  queue : ∀ entry ∈ s.m_tx_download.m_tx_process_time,
    entry.1 ≤ clock + GETDATA_TX_INTERVAL + MAX_GETDATA_RANDOM_DELAY + INBOUND_PEER_TX_DELAY
  timer : s.m_tx_download.m_check_expiry_timer ≤ clock + TX_EXPIRY_INTERVAL

theorem Timely.mono {clock' : Int} (h : s.Timely clock) (hle : clock ≤ clock') :
    s.Timely clock' where
  nonneg := h.nonneg.trans hle
  in_flight entry he := (h.in_flight entry he).trans hle
  asked entry he := (h.asked entry he).trans hle
  queue entry he := (h.queue entry he).trans (by omega)
  timer := h.timer.trans (by omega)

theorem Timely.getTxRequestTime_le (h : s.Timely clock) (txid : Uint256) :
    getTxRequestTime s.g_already_asked_for txid ≤ clock := by
  rw [getTxRequestTime]
  split
  · rename_i entry hfind
    exact h.asked entry (List.mem_of_find?_eq_some hfind)
  · exact h.nonneg

theorem Timely.calculate_le (h : s.Timely clock) (txid : Uint256) (delay : Bool) (r : Nat) :
    calculateTxGetDataTime s.g_already_asked_for txid clock delay r ≤
      clock + GETDATA_TX_INTERVAL + MAX_GETDATA_RANDOM_DELAY + INBOUND_PEER_TX_DELAY := by
  have hlast := h.getTxRequestTime_le txid
  have hr : r % MAX_GETDATA_RANDOM_DELAY < MAX_GETDATA_RANDOM_DELAY := Nat.mod_lt _ (by decide)
  have h1 : (0 : Int) ≤ GETDATA_TX_INTERVAL := by decide
  have h2 : (0 : Int) ≤ INBOUND_PEER_TX_DELAY := by decide
  rw [calculateTxGetDataTime]
  split <;> split <;> omega

theorem mem_emplace {l : Timed} {time : Int} :
    entry ∈ l.emplace time txid ↔ entry = (time, txid) ∨ entry ∈ l := by
  rw [(l.emplace_perm time txid).mem_iff, List.mem_cons]

theorem mem_updateTxRequestTime {asked : Timed} {time : Int}
    (h : entry ∈ updateTxRequestTime asked txid time) : entry = (time, txid) ∨ entry ∈ asked := by
  rw [updateTxRequestTime] at h
  split at h
  · rcases mem_emplace.mp h with h | h
    · exact Or.inl h
    · split at h
      · exact Or.inr (List.mem_of_mem_tail h)
      · exact Or.inr h
  · exact (mem_emplace.mp h).imp_right fun h => (List.mem_filter.mp h).1

/-- A state with the same times or fewer, but for the clock and the timer. -/
theorem Timely.of_subset {t : TxRequests} (h : s.Timely clock)
    (hflight : ∀ e ∈ t.m_tx_download.m_tx_in_flight, e ∈ s.m_tx_download.m_tx_in_flight)
    (hasked : ∀ e ∈ t.g_already_asked_for, e ∈ s.g_already_asked_for)
    (hqueue : ∀ e ∈ t.m_tx_download.m_tx_process_time, e ∈ s.m_tx_download.m_tx_process_time)
    (htimer : t.m_tx_download.m_check_expiry_timer = s.m_tx_download.m_check_expiry_timer) :
    t.Timely clock :=
  ⟨h.nonneg, fun e he => h.in_flight e (hflight e he), fun e he => h.asked e (hasked e he),
    fun e he => h.queue e (hqueue e he), htimer ▸ h.timer⟩

theorem timely_requestTx (h : s.Timely env.current_time) (r : Nat) (txid : Uint256) :
    (s.requestTx env r txid).Timely env.current_time := by
  rw [requestTx]
  split
  · exact h
  · refine ⟨h.nonneg, h.in_flight, h.asked, fun e he => ?_, h.timer⟩
    rcases mem_emplace.mp he with rfl | he
    · exact h.calculate_le txid _ r
    · exact h.queue e he

theorem timely_requestTxs (h : s.Timely env.current_time) (txids : List Uint256) :
    (requestTxs env txids s).Timely env.current_time := by
  induction txids generalizing s with
  | nil => exact h
  | cons txid txids ih => exact ih (timely_requestTx h _ txid)

theorem timely_forget (h : s.Timely clock) (txid : Uint256) :
    ({ s with m_tx_download := s.m_tx_download.forget txid } : TxRequests).Timely clock :=
  h.of_subset (fun _ he => (List.mem_filter.mp he).1) (fun _ he => he) (fun _ he => he) rfl

theorem timely_sendTurn (h : s.Timely env.current_time) (hdue : s.due env = some (txid, rest))
    (r : Nat) : (s.sendTurn env r txid rest).Timely env.current_time := by
  obtain ⟨time, hqueue, -, -⟩ := of_due hdue
  have hrest : ∀ e ∈ rest, e ∈ s.m_tx_download.m_tx_process_time := fun e he =>
    hqueue ▸ List.mem_cons_of_mem _ he
  rw [sendTurn]
  split
  · exact h.of_subset (fun _ he => (List.mem_filter.mp he).1) (fun _ he => he) hrest rfl
  split
  · refine ⟨h.nonneg, fun e he => ?_, fun e he => ?_, fun e he => ?_, ?_⟩
    · rw [TxDownloadState.fly] at he
      split at he
      · exact h.in_flight e he
      · rcases List.mem_append.mp he with he | he
        · exact h.in_flight e he
        · rw [List.mem_singleton.mp he]
    · rcases mem_updateTxRequestTime he with rfl | he
      · exact le_rfl
      · exact h.asked e he
    · rw [TxDownloadState.fly] at he
      split at he <;> exact h.queue e (hrest e he)
    · rw [TxDownloadState.fly]
      split <;> exact h.timer
  · refine ⟨h.nonneg, h.in_flight, h.asked, fun e he => ?_, h.timer⟩
    rcases mem_emplace.mp he with rfl | he
    · exact h.calculate_le txid _ r
    · exact h.queue e (hrest e he)

theorem foldl_forget_spec (l : List (Uint256 × Int)) (d : TxDownloadState) :
    (∀ e ∈ (l.foldl (fun d entry => d.forget entry.1) d).m_tx_in_flight,
      e ∈ d.m_tx_in_flight ∧ e.1 ∉ l.map (·.1)) ∧
    (∀ x ∈ (l.foldl (fun d entry => d.forget entry.1) d).m_tx_announced, x ∈ d.m_tx_announced) ∧
    (l.foldl (fun d entry => d.forget entry.1) d).m_tx_process_time = d.m_tx_process_time := by
  induction l generalizing d with
  | nil => exact ⟨fun e he => ⟨he, by simp⟩, fun x hx => hx, rfl⟩
  | cons entry l ih =>
    obtain ⟨h1, h2, h3⟩ := ih (d.forget entry.1)
    refine ⟨fun e he => ?_, fun x hx => (List.mem_filter.mp (h2 x hx)).1, h3⟩
    obtain ⟨hin, hnot⟩ := h1 e he
    obtain ⟨hin, hne⟩ := List.mem_filter.mp hin
    refine ⟨hin, ?_⟩
    rw [List.map_cons, List.mem_cons, not_or]
    exact ⟨of_decide_eq_true hne, hnot⟩

theorem timely_expire (h : s.Timely env.current_time) :
    ({ s with m_tx_download := s.m_tx_download.expire env } : TxRequests).Timely
      env.current_time := by
  rw [TxDownloadState.expire]
  split
  · obtain ⟨h1, -, h3⟩ := foldl_forget_spec
      (s.m_tx_download.m_tx_in_flight.filter (·.2 ≤ env.current_time - TX_EXPIRY_INTERVAL))
      s.m_tx_download
    refine ⟨h.nonneg, fun e he => h.in_flight e (h1 e he).1, h.asked, fun e he => h.queue e ?_, ?_⟩
    · rwa [h3] at he
    · have hr : env.rand 0 % (TX_EXPIRY_INTERVAL / 5).toNat < (TX_EXPIRY_INTERVAL / 5).toNat :=
        Nat.mod_lt _ (by decide)
      dsimp only
      omega
  · exact h

theorem timely_sendMessages (h : s.Timely env.current_time) (turns : Nat) :
    (s.sendMessages env turns).Timely env.current_time :=
  sendLoop_keeps (P := fun s => s.Timely env.current_time)
    (fun _ _ _ r h hdue => timely_sendTurn h hdue r) (timely_expire h) turns

/-- `SendMessages` announces nothing. -/
theorem announced_sendMessages (turns : Nat) :
    ∀ x ∈ (s.sendMessages env turns).m_tx_download.m_tx_announced,
      x ∈ s.m_tx_download.m_tx_announced := by
  refine sendLoop_keeps (P := fun t => ∀ x ∈ t.m_tx_download.m_tx_announced,
    x ∈ s.m_tx_download.m_tx_announced) (fun t txid rest r h _ x hx => h x ?_) ?_ turns
  · rw [sendTurn] at hx
    split at hx
    · exact (List.mem_filter.mp hx).1
    split at hx
    · rw [TxDownloadState.fly] at hx
      split at hx <;> exact hx
    · exact hx
  · rw [TxDownloadState.expire]
    split
    · exact (foldl_forget_spec _ _).2.1
    · exact fun x hx => hx

theorem queue_sendLoop (turns : Nat) :
    (sendLoop env turns s).m_tx_download.m_tx_process_time.length ≤
      s.m_tx_download.m_tx_process_time.length := by
  refine sendLoop_keeps (P := fun t => t.m_tx_download.m_tx_process_time.length ≤
    s.m_tx_download.m_tx_process_time.length)
    (fun t txid rest r h hdue => le_trans ?_ h) le_rfl turns
  obtain ⟨time, hqueue, -, -⟩ := of_due hdue
  rw [hqueue, List.length_cons, sendTurn]
  split
  · exact Nat.le_succ _
  split
  · rw [TxDownloadState.fly]
    split <;> exact Nat.le_succ _
  · exact (Timed.length_emplace ..).le

/-- Long after the last event nothing stays in flight; the queue is left. -/
theorem Timely.expire_quiet (h : s.Timely clock)
    (hquiet : clock + 2 * TX_EXPIRY_INTERVAL ≤ env.current_time) :
    (s.m_tx_download.expire env).m_tx_in_flight = [] ∧
      (s.m_tx_download.expire env).m_tx_process_time = s.m_tx_download.m_tx_process_time := by
  have hT : TX_EXPIRY_INTERVAL = 300000000 := by decide
  have htimer := h.timer
  rw [TxDownloadState.expire, if_pos (by omega)]
  obtain ⟨hleft, -, hqueue⟩ := foldl_forget_spec
    (s.m_tx_download.m_tx_in_flight.filter (·.2 ≤ env.current_time - TX_EXPIRY_INTERVAL))
    s.m_tx_download
  refine ⟨List.eq_nil_iff_forall_not_mem.mpr fun e he => ?_, hqueue⟩
  obtain ⟨hin, hnot⟩ := hleft e he
  refine hnot (List.mem_map.mpr ⟨e, List.mem_filter.mpr ⟨hin, decide_eq_true ?_⟩, rfl⟩)
  have := h.in_flight e hin
  omega

/-- A call of `SendMessages` long after the last event: nothing stays in
flight from before, and the first of the queue is dealt with for good. -/
theorem quiet_sendMessages (hb : s.m_tx_download.Bounded) (h : s.Timely clock)
    (hquiet : clock + 2 * TX_EXPIRY_INTERVAL ≤ env.current_time) {turns : Nat}
    (hturns : 0 < turns) :
    (s.sendMessages env turns).m_tx_download.m_tx_announced = [] ∨
      (s.sendMessages env turns).m_tx_download.m_tx_process_time.length <
        s.m_tx_download.m_tx_process_time.length := by
  have hT : TX_EXPIRY_INTERVAL = 300000000 := by decide
  have hG : GETDATA_TX_INTERVAL = 30000000 := by decide
  have hR : (MAX_GETDATA_RANDOM_DELAY : Int) = 2000000 := by decide
  have hI : INBOUND_PEER_TX_DELAY = 2000000 := by decide
  obtain ⟨hflight, hqueue⟩ := h.expire_quiet hquiet
  have hbd := hb.expire env
  obtain ⟨k, rfl⟩ := Nat.exists_eq_add_one.mpr hturns
  rw [sendMessages]
  generalize s.m_tx_download.expire env = d at hflight hqueue hbd ⊢
  rw [sendLoop, due, hqueue, hflight, ← hqueue]
  cases hq : d.m_tx_process_time with
  | nil =>
    refine Or.inl (List.eq_nil_iff_forall_not_mem.mpr fun x hx => ?_)
    rcases hbd.tracked x hx with hin | hin
    · simp [hq] at hin
    · simp [hflight] at hin
  | cons first rest =>
    obtain ⟨time, txid⟩ := first
    have htime := h.queue (time, txid) (by rw [← hqueue, hq]; exact List.mem_cons_self ..)
    have hlast := h.getTxRequestTime_le txid
    have hcond : time ≤ env.current_time ∧
        ([] : List (Uint256 × Int)).length < MAX_PEER_TX_IN_FLIGHT := ⟨by omega, by decide⟩
    refine Or.inr (Nat.lt_of_le_of_lt ?_ (Nat.lt_succ_self rest.length))
    simp only [if_pos hcond]
    refine le_trans (queue_sendLoop k) ?_
    rw [sendTurn]
    dsimp only
    split
    · exact le_rfl
    · rw [if_pos (by omega), TxDownloadState.fly]
      split <;> exact le_rfl

end TxRequests

/-! ## Whole runs -/

namespace TxEvent

/-- The clock after an event. -/
def clock (now : Int) : TxEvent → Int
  | .inv env _ _ => env.current_time
  | .tx env _ _ => env.current_time
  | .notFound _ _ => now
  | .sendMessages env _ => env.current_time
  | .otherPeers current_time _ => current_time

/-- The clock does not go back, and other peers record no time to come. -/
def Clocked : (now : Int) → List TxEvent → Prop
  | _, [] => True
  | now, event :: events => now ≤ event.clock now ∧
    (∀ time asked, event = .otherPeers time asked → ∀ entry ∈ asked, entry.1 ≤ time) ∧
    Clocked (event.clock now) events

end TxEvent

/-- Calls of `SendMessages` with nothing in between, each long after the
last. -/
def QuietCalls : (now : Int) → List (TxEnv × Nat) → Prop
  | _, [] => True
  | now, (env, turns) :: calls =>
    now + 2 * TX_EXPIRY_INTERVAL ≤ env.current_time ∧ 0 < turns ∧ QuietCalls env.current_time calls

namespace TxRequests

variable {s : TxRequests}

theorem timely_run {now : Int} (h : s.Timely now) {event : TxEvent} (hle : now ≤ event.clock now)
    (hasked : ∀ time asked, event = .otherPeers time asked → ∀ entry ∈ asked, entry.1 ≤ time) :
    (event.run s).Timely (event.clock now) := by
  have h' := h.mono hle
  cases event with
  | inv env fRequests vInv =>
    rw [TxEvent.run, processInv]
    split
    · exact h'
    · exact timely_requestTxs h' _
  | tx env hash parents =>
    refine timely_requestTxs ?_ _
    exact (timely_forget h' hash).of_subset (fun _ he => he)
      (fun _ he => (List.mem_filter.mp he).1) (fun _ he => he) rfl
  | notFound size vInv =>
    rw [TxEvent.run, processNotFound]
    split
    · refine List.foldlRecOn (motive := fun d => ({ s with m_tx_download := d } :
        TxRequests).Timely _) vInv _ h' fun d hd hash _ => ?_
      split
      · exact timely_forget hd hash
      · exact hd
    · exact h'
  | sendMessages env turns => exact timely_sendMessages h' turns
  | otherPeers time asked =>
    exact ⟨h'.nonneg, h'.in_flight, hasked time asked rfl, h'.queue, h'.timer⟩

theorem kept_of_events {now : Int} (hb : s.m_tx_download.Bounded) (h : s.Timely now)
    {events : List TxEvent} (hclock : TxEvent.Clocked now events) :
    (events.foldl TxEvent.run s).m_tx_download.Bounded ∧
      (events.foldl TxEvent.run s).Timely (events.foldl TxEvent.clock now) := by
  induction events generalizing s now with
  | nil => exact ⟨hb, h⟩
  | cons event events ih =>
    obtain ⟨hle, hasked, hrest⟩ := hclock
    exact ih (bounded_run hb event) (timely_run h hle hasked) hrest

theorem announced_quiet {now : Int} (hb : s.m_tx_download.Bounded) (h : s.Timely now)
    {calls : List (TxEnv × Nat)} (hquiet : QuietCalls now calls)
    (hcalls : s.m_tx_download.m_tx_process_time.length < calls.length) :
    (calls.foldl (fun s call => s.sendMessages call.1 call.2) s).m_tx_download.m_tx_announced =
      [] := by
  induction calls generalizing s now with
  | nil => cases hcalls
  | cons call calls ih =>
    obtain ⟨env, turns⟩ := call
    obtain ⟨hlater, hturns, hrest⟩ := hquiet
    have h' : s.Timely env.current_time := h.mono (by
      have : (0 : Int) ≤ 2 * TX_EXPIRY_INTERVAL := by decide
      omega)
    rcases quiet_sendMessages hb h hlater hturns with hnone | hless
    · -- an empty set stays empty
      refine List.foldlRecOn (motive := fun s : TxRequests => s.m_tx_download.m_tx_announced = [])
        calls _ hnone fun s hs call _ => ?_
      rw [List.eq_nil_iff_forall_not_mem] at hs ⊢
      exact fun x hx => hs x (announced_sendMessages _ x hx)
    · exact ih (bounded_sendMessages hb turns) (timely_sendMessages h' turns) hrest
        (Nat.lt_of_lt_of_le hless (Nat.le_of_lt_succ hcalls))

/-- After any events with a clock that does not go back, the containers of a
peer are bounded and every announcement is queued or in flight. None of them
stands forever: enough calls of `SendMessages` after them leave none. -/
theorem tx_download_bounded (events : List TxEvent) (hclock : TxEvent.Clocked 0 events) :
    (events.foldl TxEvent.run {}).m_tx_download.m_tx_process_time.length ≤
        MAX_PEER_TX_ANNOUNCEMENTS ∧
      (events.foldl TxEvent.run {}).m_tx_download.m_tx_announced.length ≤
        MAX_PEER_TX_ANNOUNCEMENTS ∧
      (events.foldl TxEvent.run {}).m_tx_download.m_tx_in_flight.length ≤ MAX_PEER_TX_IN_FLIGHT ∧
      (∀ txid ∈ (events.foldl TxEvent.run {}).m_tx_download.m_tx_announced,
        txid ∈ (events.foldl TxEvent.run {}).m_tx_download.m_tx_process_time.map (·.2) ∨
          txid ∈ (events.foldl TxEvent.run {}).m_tx_download.m_tx_in_flight.map (·.1)) ∧
      ∀ calls, QuietCalls (events.foldl TxEvent.clock 0) calls →
        (events.foldl TxEvent.run {}).m_tx_download.m_tx_process_time.length < calls.length →
        (calls.foldl (fun s call => s.sendMessages call.1 call.2)
          (events.foldl TxEvent.run {})).m_tx_download.m_tx_announced = [] := by
  have hempty : TxDownloadState.Bounded {} := ⟨by simp, by simp, by simp, by simp⟩
  have hstart : Timely 0 {} := ⟨le_rfl, by simp, by simp, by simp, by decide⟩
  obtain ⟨hb, ht⟩ := kept_of_events hempty hstart hclock
  exact ⟨hb.process_time, hb.announced, hb.in_flight, hb.tracked, fun calls hquiet hcalls =>
    announced_quiet hb ht hquiet hcalls⟩

/-- A handler at a second of the clock. -/
def atSecond (second : Int) : TxEnv := ⟨second * 1000000, true, fun _ => 0, fun _ => false⟩

/-- Three transactions are announced and requested; one is not found, one
comes as an orphan, and another one is announced. -/
def sampleTxEvents : List TxEvent :=
  [.inv (atSecond 40) true [(7, true), (8, true), (9, true)], .sendMessages (atSecond 50) 5,
    .notFound 1 [7], .tx (atSecond 51) 8 [11], .inv (atSecond 60) true [(10, true)]]

def sampleTxRun : TxDownloadState := (sampleTxEvents.foldl TxEvent.run {}).m_tx_download

/-- One request is in flight and two transactions are queued, until three
calls of `SendMessages` have cleared them. -/
theorem tx_download_bounded_sample :
    sampleTxRun.m_tx_announced = [9, 11, 10] ∧ sampleTxRun.m_tx_in_flight.map (·.1) = [9] ∧
      (∀ txid ∈ sampleTxRun.m_tx_announced, txid ∈ sampleTxRun.m_tx_process_time.map (·.2) ∨
        txid ∈ sampleTxRun.m_tx_in_flight.map (·.1)) ∧
      ([(atSecond 1000, 3), (atSecond 2000, 3), (atSecond 3000, 3)].foldl
        (fun s call => s.sendMessages call.1 call.2)
        (sampleTxEvents.foldl TxEvent.run {})).m_tx_download.m_tx_announced = [] := by
  have hclock : TxEvent.Clocked 0 sampleTxEvents := by
    simp [sampleTxEvents, TxEvent.Clocked, TxEvent.clock, atSecond]
  obtain ⟨-, -, -, htracked, hquiet⟩ := tx_download_bounded sampleTxEvents hclock
  refine ⟨by decide +kernel, by decide +kernel, htracked, hquiet _ ?_ (by decide +kernel)⟩
  exact ⟨by decide, by decide, by decide, by decide, by decide, by decide, trivial⟩

end TxRequests

end junkcoin
