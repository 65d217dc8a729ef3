import CServer.Foundation.Runs
import CServer.P2p.Session

/-!
# What the server and a client index

The slots of the tables, the lookups, and the bytes that are written into buffers of
`KING_BUFFER_LENGTH` bytes. The buffer that datagrams are received in keeps what a shorter one does
not overwrite. A turn of a loop is one step.
-/
namespace CServer.P2p.Bounds

open Session

def kingBufferLength : ℕ := 512

/-- A slot of `table` or of `p2p_clients`, a lookup with the id in the slot that it returns, and a
byte that is written. -/
inductive Access where
  | table (i : ℕ)
  | p2pClients (i : ℤ)
  | index (asked : ClientId) (found : Option ClientId)
  | byte (i : ℕ)

def Access.Safe : Access → Prop
  | .table i => i < kingClientMax
  | .p2pClients i => 0 ≤ i ∧ i < kingClientMax
  | .index asked found => found = some asked
  | .byte i => i < kingBufferLength

/-- The first bytes of a buffer. -/
def bytes (n : ℕ) : List Access := (List.range n).map .byte

/-! ## Receiving -/

/-- What `recvfrom` takes of a datagram. -/
def taken (datagram : Bytes) : Bytes := datagram.take kingBufferLength

/-- The buffer with a datagram and the zero that is put behind it. -/
def received (buffer datagram : Bytes) : Bytes :=
  (taken datagram ++ buffer.drop (taken datagram).length).set (taken datagram).length 0

def receivedAccesses (datagram : Bytes) : List Access := bytes ((taken datagram).length + 1)

/-! ## The server -/

/-- What `main` of p2p_server.c keeps from turn to turn. -/
structure ServerLoop where
  server : Server
  buffer : Bytes

def ServerLoop.start : ServerLoop := ⟨Server.start, List.replicate kingBufferLength 0⟩

/-- The slots that `get_index_by_clientid` reads, what it returns, and the slot that its caller takes
for it. -/
def lookupAccesses (s : Server) (clientId : ClientId) : List Access :=
  match getIndexByClientid s clientId with
  | .ok i =>
    (List.range (i + 1)).map .table ++ [.index clientId (some (s.table i).clientId), .table i]
  | .error _ => (List.range s.clientCount).map .table ++ [.index clientId none]

/-- `king_buffer_parser`. -/
def parserAccesses (s : Server) (buffer : Bytes) : List Access :=
  if statusOf buffer = kingProtoLoginReq then [.table (s.clientCount + 1)]
  else if statusOf buffer = kingProtoHeartbeatReq then
    lookupAccesses s (bytesAt 4 buffer selfidIdx)
  else if statusOf buffer = kingProtoConnectReq then
    lookupAccesses s (bytesAt 4 buffer selfidIdx) ++ bytes (notifyAddrIdx + 6) ++
      lookupAccesses s (bytesAt 4 buffer otheridIdx)
  else []

namespace ServerLoop

/-- A turn on a datagram. Nothing is made of an empty one. -/
def turn (l : ServerLoop) (r : Received) : ServerLoop :=
  if r.buffer = [] then l
  else
    match kingBufferParser l.server (received l.buffer r.buffer) r.addr r.now with
    | .ok out => ⟨out.1, acknowledged (received l.buffer r.buffer)⟩
    | .error _ => ⟨l.server, received l.buffer r.buffer⟩

/-- The last byte that is written is the status of the acknowledgement. -/
def accesses (l : ServerLoop) (r : Received) : List Access :=
  if r.buffer = [] then []
  else receivedAccesses r.buffer ++ parserAccesses l.server (received l.buffer r.buffer) ++ [.byte 1]

def Bounded (l : ServerLoop) (r : Received) : Prop := ∀ access ∈ l.accesses r, access.Safe

end ServerLoop

/-- A slot that a lookup comes to has the id. -/
def Knows (s : Server) (id : ClientId) : Prop := ∃ i < s.clientCount, (s.table i).clientId = id

/-- The datagram leaves room for the zero, and what it asks for is there. -/
structure ServerLoop.Fits (l : ServerLoop) (r : Received) : Prop where
  short : r.buffer.length < kingBufferLength
  login : r.buffer ≠ [] → statusOf (received l.buffer r.buffer) = kingProtoLoginReq →
    l.server.clientCount + 1 < kingClientMax
  heartbeat : r.buffer ≠ [] → statusOf (received l.buffer r.buffer) = kingProtoHeartbeatReq →
    Knows l.server (bytesAt 4 (received l.buffer r.buffer) selfidIdx)
  connect : r.buffer ≠ [] → statusOf (received l.buffer r.buffer) = kingProtoConnectReq →
    Knows l.server (bytesAt 4 (received l.buffer r.buffer) selfidIdx) ∧
      Knows l.server (bytesAt 4 (received l.buffer r.buffer) otheridIdx)

/-! ## The client -/

/-- The two threads: the receiving one keeps a buffer, and ends with the first empty datagram. -/
structure ClientLoop where
  client : Client
  buffer : Bytes
  receiving : Bool

inductive ClientEvent where
  | login
  | datagram (r : Received)
  | word (typed : Bytes)

def ClientLoop.start (selfId : ClientId) : ClientLoop :=
  ⟨⟨.login, selfId, []⟩, List.replicate kingBufferLength 0, true⟩

/-- The two statuses for which an entry of `p2p_clients` is filled. -/
abbrev Connects (buffer : Bytes) : Prop :=
  statusOf buffer = ntyProtoP2pConnectReq ∨ statusOf buffer = ntyProtoP2pConnectAck

/-- `king_client_buffer_parser`: the entry that it fills, and what it sends. -/
def clientParserAccesses (c : Client) (buffer : Bytes) (r : Received) : List Access :=
  (if Connects buffer then [.p2pClients c.p2pClients.length] else []) ++
    (kingClientBufferParser c buffer r.addr r.now).2.flatMap fun sent => bytes sent.datagram.length

/-- `KING_RPORO_MESSAGE_CONTENT_IDX`. -/
def contentIdx : ℕ := 12

def strlen (buffer : Bytes) : ℕ := (buffer.takeWhile fun c => c ≠ 0).length

/-- `king_send_callback` on a word, which `scanf` ends with a zero; 0x43 is the letter C. -/
def wordAccesses (c : Client) (typed : Bytes) : List Access :=
  bytes (typed.length + 1) ++
    if c.statusMachine = .message then
      if typed.getD 0 0 = 0x43 then bytes (otheridIdx + 4) else bytes (contentIdx + strlen typed)
    else if c.statusMachine = .p2pMessage then
      .p2pClients (c.p2pClients.length - 1) :: bytes (contentIdx + strlen typed)
    else []

namespace ClientLoop

def turn (l : ClientLoop) : ClientEvent → ClientLoop
  | .login => l
  | .datagram r =>
    if l.receiving then
      if r.buffer = [] then { l with receiving := false }
      else
        let buffer := received l.buffer r.buffer
        ⟨(kingClientBufferParser l.client buffer r.addr r.now).1, buffer, true⟩
    else l
  | .word _ => l

def accesses (l : ClientLoop) : ClientEvent → List Access
  | .login => bytes (loginDatagram l.client.clientSelfid).length
  | .datagram r =>
    if l.receiving = true ∧ r.buffer ≠ [] then
      receivedAccesses r.buffer ++ clientParserAccesses l.client (received l.buffer r.buffer) r
    else []
  | .word typed => wordAccesses l.client typed

def Bounded (l : ClientLoop) (e : ClientEvent) : Prop := ∀ access ∈ l.accesses e, access.Safe

end ClientLoop

/-- The word goes into a message. -/
def SendsMessage (c : Client) (typed : Bytes) : Prop :=
  (c.statusMachine = .message ∧ typed.getD 0 0 ≠ 0x43) ∨ c.statusMachine = .p2pMessage

/-- A datagram leaves room for the zero, and a connection has an entry. A word leaves room for its
zero, and a message for its head. -/
def ClientLoop.Fits (l : ClientLoop) : ClientEvent → Prop
  | .login => True
  | .datagram r => l.receiving = true → r.buffer.length < kingBufferLength ∧
      (r.buffer ≠ [] → Connects (received l.buffer r.buffer) →
        l.client.p2pClients.length < kingClientMax)
  | .word typed => typed.length < kingBufferLength ∧
      (SendsMessage l.client typed → contentIdx + strlen typed ≤ kingBufferLength)

/-! ## Bytes and slots -/

variable {n : ℕ} {id : ClientId} {s : Server} {datagram buffer typed : Bytes} {r : Received}

theorem bytes_safe_iff : (∀ access ∈ bytes n, access.Safe) ↔ n ≤ kingBufferLength := by
  rw [bytes, List.forall_mem_map]
  constructor
  · intro h
    cases n with
    | zero => exact Nat.zero_le _
    | succ n => exact h n (List.mem_range.mpr (Nat.lt_succ_self n))
  · intro h i hi
    exact lt_of_lt_of_le (List.mem_range.mp hi) h

/-- Only a datagram of the size of the buffer, or a longer one, has its zero behind it. -/
theorem receivedAccesses_safe_iff :
    (∀ access ∈ receivedAccesses datagram, access.Safe) ↔ datagram.length < kingBufferLength := by
  rw [receivedAccesses, bytes_safe_iff, taken, List.length_take]
  omega

theorem forall_table_iff {k : ℕ} (hk : k ≤ kingClientMax) :
    ∀ access ∈ (List.range k).map Access.table, access.Safe := by
  rw [List.forall_mem_map]
  intro i hi
  exact lt_of_lt_of_le (List.mem_range.mp hi) hk

theorem Knows.exists_index (h : Knows s id) : ∃ i, getIndexByClientid s id = .ok i := by
  obtain ⟨i, hi, hid⟩ := h
  have hsome : ((List.range s.clientCount).find? fun i => (s.table i).clientId = id).isSome := by
    rw [List.find?_isSome]
    exact ⟨i, List.mem_range.mpr hi, by simpa using hid⟩
  obtain ⟨j, hj⟩ := Option.isSome_iff_exists.mp hsome
  exact ⟨j, by rw [getIndexByClientid, hj]⟩

/-- A lookup is safe exactly when it finds its id. -/
theorem lookupAccesses_safe_iff (hs : s.clientCount < kingClientMax) :
    (∀ access ∈ lookupAccesses s id, access.Safe) ↔ Knows s id := by
  rw [lookupAccesses]
  cases hlookup : getIndexByClientid s id with
  | ok i =>
    obtain ⟨hlt, hid, -⟩ := getIndexByClientid_eq_ok.mp hlookup
    have hslots := forall_table_iff (show i + 1 ≤ kingClientMax by omega)
    refine iff_of_true ?_ ⟨i, hlt, hid⟩
    rw [List.forall_mem_append, List.forall_mem_cons, List.forall_mem_singleton]
    exact ⟨hslots, congrArg some hid, lt_trans hlt hs⟩
  | error fault =>
    refine iff_of_false (fun h => ?_) (fun hknows => ?_)
    · have hindex := h (.index id none) (List.mem_append_right _ List.mem_cons_self)
      simp [Access.Safe] at hindex
    · obtain ⟨i, hi⟩ := hknows.exists_index
      rw [hlookup] at hi
      exact absurd hi (by simp)

/-! ## The server -/

theorem parserAccesses_safe_iff (hs : s.clientCount < kingClientMax) :
    (∀ access ∈ parserAccesses s buffer, access.Safe) ↔
      (statusOf buffer = kingProtoLoginReq → s.clientCount + 1 < kingClientMax) ∧
      (statusOf buffer = kingProtoHeartbeatReq → Knows s (bytesAt 4 buffer selfidIdx)) ∧
      (statusOf buffer = kingProtoConnectReq →
        Knows s (bytesAt 4 buffer selfidIdx) ∧ Knows s (bytesAt 4 buffer otheridIdx)) := by
  rw [parserAccesses]
  by_cases hlogin : statusOf buffer = kingProtoLoginReq
  · rw [if_pos hlogin, hlogin, List.forall_mem_singleton]
    simp [kingProtoLoginReq, kingProtoHeartbeatReq, kingProtoConnectReq, Access.Safe]
  · rw [if_neg hlogin]
    by_cases hheartbeat : statusOf buffer = kingProtoHeartbeatReq
    · rw [if_pos hheartbeat, hheartbeat, lookupAccesses_safe_iff hs]
      simp [kingProtoLoginReq, kingProtoHeartbeatReq, kingProtoConnectReq]
    · rw [if_neg hheartbeat]
      by_cases hconnect : statusOf buffer = kingProtoConnectReq
      · have hnotify : notifyAddrIdx + 6 ≤ kingBufferLength := by decide
        rw [if_pos hconnect, List.forall_mem_append, List.forall_mem_append,
          lookupAccesses_safe_iff hs, lookupAccesses_safe_iff hs, bytes_safe_iff, hconnect]
        simp [kingProtoLoginReq, kingProtoHeartbeatReq, kingProtoConnectReq, hnotify]
      · rw [if_neg hconnect]
        simp [hlogin, hheartbeat, hconnect]

/-- What is read inside a datagram that leaves room for the zero is read as in the datagram. -/
theorem getD_received {i : ℕ} (hshort : datagram.length < kingBufferLength)
    (hi : i < datagram.length) (buffer : Bytes) :
    (received buffer datagram).getD i 0 = datagram.getD i 0 := by
  have htaken : taken datagram = datagram := List.take_of_length_le hshort.le
  rw [List.getD_eq_getElem?_getD, List.getD_eq_getElem?_getD, received, htaken,
    List.getElem?_set_ne hi.ne', List.getElem?_append_left hi]

theorem bytesAt_received {idx : ℕ} (hshort : datagram.length < kingBufferLength)
    (hidx : idx + n ≤ datagram.length) (buffer : Bytes) :
    bytesAt n (received buffer datagram) idx = bytesAt n datagram idx := by
  funext i
  exact getD_received hshort (by omega) buffer

theorem kingBufferParser_received (request : Request) (s : Server) (buffer : Bytes)
    (addr : SockaddrIn) (now : ℤ) :
    kingBufferParser s (received buffer request.datagram) addr now =
      kingBufferParser s request.datagram addr now := by
  have hlength : 8 ≤ request.datagram.length ∧ request.datagram.length < kingBufferLength := by
    cases request <;>
      simp [Request.datagram, loginDatagram, heartbeatDatagram, connectDatagram, idDatagram, header,
        kingBufferLength]
  obtain ⟨hlong, hshort⟩ := hlength
  have hstatus : statusOf (received buffer request.datagram) = statusOf request.datagram :=
    getD_received hshort (by omega) buffer
  have hself : bytesAt 4 (received buffer request.datagram) selfidIdx =
      bytesAt 4 request.datagram selfidIdx := bytesAt_received hshort hlong buffer
  rw [kingBufferParser, kingBufferParser, hstatus, hself]
  cases request with
  | login selfId => rfl
  | heartbeat selfId => rfl
  | connect selfId otherId =>
    have hother : bytesAt 4 (received buffer (Request.connect selfId otherId).datagram) otheridIdx =
        bytesAt 4 (Request.connect selfId otherId).datagram otheridIdx :=
      bytesAt_received hshort (by simp [Request.datagram, connectDatagram, header, otheridIdx]) buffer
    rw [hother]

/-- On a request the loop does what `serve` does. -/
theorem ServerLoop.turn_request (l : ServerLoop) (e : P2p.Event) {out : Server × List Sent}
    (h : serve l.server e.received = .ok out) : (l.turn e.received).server = out.1 := by
  obtain ⟨served, hserved, hout⟩ := bind_eq_ok h
  have hnonempty : e.received.buffer ≠ [] := by
    cases hrequest : e.request <;>
      simp [Event.received, hrequest, Request.datagram, loginDatagram, heartbeatDatagram,
        connectDatagram, idDatagram, header]
  have hparsed : kingBufferParser l.server (received l.buffer e.received.buffer) e.received.addr
      e.received.now = .ok served := (kingBufferParser_received e.request _ _ _ _).trans hserved
  rw [turn, if_neg hnonempty, hparsed, ← Except.ok.inj hout]

/-- A turn of the server is safe exactly when its datagram fits. -/
theorem ServerLoop.bounded_iff {l : ServerLoop} (hl : l.server.clientCount < kingClientMax)
    (r : Received) : l.Bounded r ↔ l.Fits r := by
  have hack : (Access.byte 1).Safe := show 1 < kingBufferLength by decide
  rw [Bounded, accesses]
  by_cases hempty : r.buffer = []
  · rw [if_pos hempty]
    refine iff_of_true (by simp) ⟨?_, fun h => absurd hempty h, fun h => absurd hempty h,
      fun h => absurd hempty h⟩
    rw [hempty]
    decide
  · rw [if_neg hempty, List.forall_mem_append, List.forall_mem_append, List.forall_mem_singleton,
      receivedAccesses_safe_iff, parserAccesses_safe_iff hl, and_iff_left hack]
    constructor
    · rintro ⟨hshort, hlogin, hheartbeat, hconnect⟩
      exact ⟨hshort, fun _ => hlogin, fun _ => hheartbeat, fun _ => hconnect⟩
    · intro h
      exact ⟨h.short, h.login hempty, h.heartbeat hempty, h.connect hempty⟩

theorem kingBufferParser_clientCount {out : Server × List Sent} {addr : SockaddrIn} {now : ℤ}
    (h : kingBufferParser s buffer addr now = .ok out) (hs : s.clientCount < kingClientMax) :
    out.1.clientCount < kingClientMax := by
  rw [kingBufferParser] at h
  split at h
  · dsimp only at h
    split at h
    · rename_i hnew
      rw [← Except.ok.inj h]
      exact hnew
    · simp at h
  · split at h
    · obtain ⟨i, -, hout⟩ := bind_eq_ok h
      rw [← Except.ok.inj hout]
      exact hs
    · split at h
      · obtain ⟨sent, -, hout⟩ := bind_eq_ok h
        rw [← Except.ok.inj hout]
        exact hs
      · rw [← Except.ok.inj h]
        exact hs

theorem ServerLoop.turn_clientCount {l : ServerLoop} (hl : l.server.clientCount < kingClientMax)
    (r : Received) : (l.turn r).server.clientCount < kingClientMax := by
  rw [turn]
  split
  · exact hl
  · split
    · rename_i hparsed
      exact kingBufferParser_clientCount hparsed hl
    · exact hl

theorem ServerLoop.along_iff (history : List Received) :
    Runs.Along turn Bounded start history ↔ Runs.Along turn Fits start history := by
  have hiff : ∀ (l : ServerLoop) (r : Received), l.server.clientCount < kingClientMax →
      (l.Bounded r ↔ l.Fits r) := fun _ r hl => bounded_iff hl r
  have hkeep : ∀ (l : ServerLoop) (r : Received), l.server.clientCount < kingClientMax →
      l.Fits r → (l.turn r).server.clientCount < kingClientMax :=
    fun _ r hl _ => turn_clientCount hl r
  exact Runs.along_iff_along hiff hkeep (by decide)

/-! ## The client -/

/-- A client that sends to its peer has an entry for one. -/
structure ClientLoop.Connected (l : ClientLoop) : Prop where
  entry : l.client.statusMachine = .p2pMessage → l.client.p2pClients ≠ []
  count : l.client.p2pClients.length ≤ kingClientMax

variable {c : Client} {addr : SockaddrIn} {now : ℤ}

/-- Every answer of a client is a datagram with its id. -/
theorem parser_replies : ∀ sent ∈ (kingClientBufferParser c buffer addr now).2,
    ∃ status, sent.datagram = idDatagram status c.clientSelfid := by
  intro sent hsent
  rw [kingClientBufferParser] at hsent
  split at hsent
  · exact ⟨_, congrArg Sent.datagram (List.mem_singleton.mp hsent)⟩
  · split at hsent
    · exact ⟨_, congrArg Sent.datagram (List.mem_singleton.mp hsent)⟩
    · split at hsent
      · exact absurd hsent List.not_mem_nil
      · split at hsent
        · exact ⟨_, congrArg Sent.datagram (List.mem_singleton.mp hsent)⟩
        · split at hsent
          · exact absurd hsent List.not_mem_nil
          · exact absurd hsent List.not_mem_nil

theorem parser_connects (h : Connects buffer) :
    (kingClientBufferParser c buffer addr now).1 =
      ⟨.p2pMessage, c.clientSelfid, c.p2pClients ++ [peerEntry buffer addr now]⟩ := by
  rcases h with h | h
  · rw [kingClientBufferParser, h, if_neg (by decide), if_pos rfl]
  · rw [kingClientBufferParser, h, if_neg (by decide), if_neg (by decide), if_pos rfl]

/-- Without an entry the status is the old one, or that of a client which has logged in. -/
theorem parser_keeps (c : Client) (addr : SockaddrIn) (now : ℤ) (h : ¬Connects buffer) :
    (kingClientBufferParser c buffer addr now).1.p2pClients = c.p2pClients ∧
      ((kingClientBufferParser c buffer addr now).1.statusMachine = .p2pMessage →
        c.statusMachine = .p2pMessage) := by
  obtain ⟨hreq, hack⟩ := not_or.mp h
  rw [kingClientBufferParser, if_neg hreq, if_neg hack]
  split
  · exact ⟨rfl, id⟩
  · split
    · exact ⟨rfl, id⟩
    · split
      · exact ⟨rfl, fun hstatus => absurd hstatus (by simp)⟩
      · exact ⟨rfl, id⟩

theorem clientParserAccesses_safe_iff :
    (∀ access ∈ clientParserAccesses c buffer r, access.Safe) ↔
      (Connects buffer → c.p2pClients.length < kingClientMax) := by
  have hreplies : ∀ access ∈ (kingClientBufferParser c buffer r.addr r.now).2.flatMap
      fun sent => bytes sent.datagram.length, access.Safe := by
    rw [List.forall_mem_flatMap]
    intro sent hsent
    obtain ⟨status, hdatagram⟩ := parser_replies sent hsent
    rw [bytes_safe_iff, hdatagram, idDatagram, List.length_append, List.length_ofFn]
    exact (by decide : 4 + 4 ≤ kingBufferLength)
  rw [clientParserAccesses, List.forall_mem_append, and_iff_left hreplies]
  split
  · rename_i hconnects
    rw [List.forall_mem_singleton]
    simp [hconnects, Access.Safe]
  · rename_i hconnects
    simp [hconnects]

theorem ClientLoop.Connected.wordAccesses_safe_iff {l : ClientLoop} (hl : l.Connected) :
    (∀ access ∈ wordAccesses l.client typed, access.Safe) ↔
      typed.length < kingBufferLength ∧
        (SendsMessage l.client typed → contentIdx + strlen typed ≤ kingBufferLength) := by
  rw [wordAccesses, List.forall_mem_append, bytes_safe_iff, Nat.succ_le_iff]
  refine and_congr_right fun _ => ?_
  by_cases hmessage : l.client.statusMachine = .message
  · rw [if_pos hmessage]
    by_cases hconnect : typed.getD 0 0 = 0x43
    · have hno : ¬SendsMessage l.client typed := by
        rintro (⟨-, hother⟩ | hp2p)
        · exact hother hconnect
        · exact absurd (hmessage.symm.trans hp2p) (by decide)
      rw [if_pos hconnect, bytes_safe_iff]
      exact iff_of_true (by decide) fun h => absurd h hno
    · have hyes : SendsMessage l.client typed := .inl ⟨hmessage, hconnect⟩
      rw [if_neg hconnect, bytes_safe_iff]
      exact ⟨fun h _ => h, fun h => h hyes⟩
  · rw [if_neg hmessage]
    by_cases hp2p : l.client.statusMachine = .p2pMessage
    · have hyes : SendsMessage l.client typed := .inr hp2p
      have hpos := List.length_pos_of_ne_nil (hl.entry hp2p)
      have hcount := hl.count
      have hentry : (Access.p2pClients (l.client.p2pClients.length - 1)).Safe := by
        constructor
        · omega
        · omega
      rw [if_pos hp2p, List.forall_mem_cons, bytes_safe_iff, and_iff_right hentry]
      exact ⟨fun h _ => h, fun h => h hyes⟩
    · rw [if_neg hp2p]
      refine iff_of_true (by simp) ?_
      rintro (⟨hstatus, -⟩ | hstatus)
      · exact absurd hstatus hmessage
      · exact absurd hstatus hp2p

/-- A step of the client is safe exactly when it fits. -/
theorem ClientLoop.Connected.bounded_iff {l : ClientLoop} (hl : l.Connected) (e : ClientEvent) :
    l.Bounded e ↔ l.Fits e := by
  rw [Bounded]
  cases e with
  | login =>
    refine iff_of_true ?_ trivial
    rw [accesses, bytes_safe_iff, loginDatagram, idDatagram, List.length_append, List.length_ofFn]
    exact (by decide : 4 + 4 ≤ kingBufferLength)
  | word typed => exact hl.wordAccesses_safe_iff
  | datagram r =>
    rw [accesses, Fits]
    by_cases hreceiving : l.receiving = true
    · by_cases hempty : r.buffer = []
      · rw [if_neg (fun h => h.2 hempty), hempty]
        exact iff_of_true (by simp) fun _ => ⟨by decide, fun h => absurd rfl h⟩
      · rw [if_pos ⟨hreceiving, hempty⟩, List.forall_mem_append, receivedAccesses_safe_iff,
          clientParserAccesses_safe_iff]
        exact ⟨fun h _ => ⟨h.1, fun _ => h.2⟩, fun h => ⟨(h hreceiving).1, (h hreceiving).2 hempty⟩⟩
    · rw [if_neg (fun h => hreceiving h.1)]
      exact iff_of_true (by simp) fun h => absurd h hreceiving

theorem ClientLoop.Connected.turn {l : ClientLoop} (hl : l.Connected) {e : ClientEvent}
    (hfits : l.Fits e) : (l.turn e).Connected := by
  cases e with
  | login => exact hl
  | word typed => exact hl
  | datagram r =>
    rw [ClientLoop.turn]
    split
    · rename_i hreceiving
      split
      · exact ⟨hl.entry, hl.count⟩
      · rename_i hempty
        dsimp only
        by_cases hconnects : Connects (received l.buffer r.buffer)
        · have hcount := (hfits hreceiving).2 hempty hconnects
          constructor
          · intro _
            rw [parser_connects hconnects]
            exact List.append_ne_nil_of_right_ne_nil _ (List.cons_ne_nil _ _)
          · rw [parser_connects hconnects, List.length_append, List.length_singleton]
            exact hcount
        · obtain ⟨hsame, hstatus⟩ := parser_keeps l.client r.addr r.now hconnects
          constructor
          · intro hp2p
            rw [hsame]
            exact hl.entry (hstatus hp2p)
          · rw [hsame]
            exact hl.count
    · exact hl

theorem ClientLoop.along_iff (selfId : ClientId) (events : List ClientEvent) :
    Runs.Along ClientLoop.turn Bounded (start selfId) events ↔
      Runs.Along ClientLoop.turn Fits (start selfId) events := by
  have hiff : ∀ (l : ClientLoop) (e : ClientEvent), l.Connected → (l.Bounded e ↔ l.Fits e) :=
    fun _ e hl => hl.bounded_iff e
  have hkeep : ∀ (l : ClientLoop) (e : ClientEvent), l.Connected → l.Fits e →
      (l.turn e).Connected := fun _ _ hl hfits => hl.turn hfits
  exact Runs.along_iff_along hiff hkeep ⟨by simp [start], by simp [start]⟩

/-! ## The bounds -/

/-- The runs of the server and of a client that stay inside their bounds are those whose steps
fit. -/
theorem p2p_bounds_iff (history : List Received) (selfId : ClientId) (events : List ClientEvent) :
    (Runs.Along ServerLoop.turn ServerLoop.Bounded .start history ↔
      Runs.Along ServerLoop.turn ServerLoop.Fits .start history) ∧
    (Runs.Along ClientLoop.turn ClientLoop.Bounded (.start selfId) events ↔
      Runs.Along ClientLoop.turn ClientLoop.Fits (.start selfId) events) :=
  ⟨ServerLoop.along_iff history, ClientLoop.along_iff selfId events⟩

/-- The zero behind a datagram of 512 bytes is written behind the buffer, and a HEARTBEAT of a
client that has not logged in finds no slot. -/
theorem first_datagram_overruns :
    (¬Runs.Along ServerLoop.turn ServerLoop.Bounded .start
      [⟨List.replicate 512 0, ⟨fun _ => 0, fun _ => 0⟩, 0⟩]) ∧
    ¬Runs.Along ServerLoop.turn ServerLoop.Bounded .start
      [⟨heartbeatDatagram fun _ => 1, ⟨fun _ => 0, fun _ => 0⟩, 0⟩] := by
  rw [Runs.along_cons, Runs.along_cons, ServerLoop.bounded_iff (by decide),
    ServerLoop.bounded_iff (by decide)]
  constructor
  · rintro ⟨hfits, -⟩
    have hshort := hfits.short
    rw [List.length_replicate] at hshort
    exact absurd hshort (by decide)
  · rintro ⟨hfits, -⟩
    obtain ⟨i, hi, -⟩ := hfits.heartbeat (by simp [heartbeatDatagram, idDatagram, header]) rfl
    exact absurd hi (Nat.not_lt_zero i)

end CServer.P2p.Bounds
