import CServer.P2p.Server
import Mathlib.Data.Multiset.AddSub
import Mathlib.Data.Multiset.ZeroCons
import Mathlib.Tactic.Abel

/-!
# Two clients of p2p_client.c

A client is what its receiving thread and its sending thread share. The network holds the
datagrams in flight and delivers any of them next, each once. The server is taken to relay
notifications to the right address.
-/
namespace CServer.P2p.Session

inductive KingStatus where
  | null
  | login
  | heartbeat
  | connect
  | message
  | notify
  | p2pConnect
  | p2pMessage
  deriving DecidableEq

/-- `status_machine`, `client_selfid`, and the first `p2p_count` entries of `p2p_clients`. -/
structure Client where
  statusMachine : KingStatus
  clientSelfid : ClientId
  p2pClients : List ClientTable

/-- An entry for the sender of a datagram. -/
def peerEntry (buffer : Bytes) (addr : SockaddrIn) (now : ℤ) : ClientTable :=
  ⟨addrToArray addr, bytesAt 4 buffer selfidIdx, now⟩

/-- `king_client_buffer_parser`, called at the time `now`. -/
def kingClientBufferParser (c : Client) (buffer : Bytes) (addr : SockaddrIn) (now : ℤ) :
    Client × List Sent :=
  if statusOf buffer = ntyProtoNotifyReq then
    (c, [⟨p2pConnectDatagram c.clientSelfid, arrayToAddr (bytesAt 6 buffer notifyAddrIdx)⟩])
  else if statusOf buffer = ntyProtoP2pConnectReq then
    ({ c with statusMachine := .p2pMessage, p2pClients := c.p2pClients ++ [peerEntry buffer addr now] },
      [⟨p2pConnectAckDatagram c.clientSelfid, addr⟩])
  else if statusOf buffer = ntyProtoP2pConnectAck then
    ({ c with statusMachine := .p2pMessage, p2pClients := c.p2pClients ++ [peerEntry buffer addr now] },
      [])
  else if statusOf buffer = ntyRporoMessageReq then
    (c, [⟨idDatagram ntyRporoMessageAck c.clientSelfid, addr⟩])
  else if statusOf buffer = kingProtoLoginAck then ({ c with statusMachine := .message }, [])
  else (c, [])

/-- An `int` as an id. -/
def idOfInt (n : ℤ) : ClientId := fun i => UInt8.ofNat (n / 256 ^ i.val % 256).toNat

/-- What `king_client_send_message` sends. -/
def messageDatagram (selfId otherId : ClientId) (msg : Bytes) : Bytes :=
  [0, ntyRporoMessageReq, UInt8.ofNat (12 + msg.length), UInt8.ofNat ((12 + msg.length) / 256)] ++
    (List.ofFn selfId ++ (List.ofFn otherId ++ msg))

/-- A turn of `king_send_callback` on a word that has been typed; 0x43 is the letter C. A client in
the status `p2pMessage` has an entry. -/
def kingSendCallback (c : Client) (serverAddr : SockaddrIn) (buffer : Bytes) : List Sent :=
  if c.statusMachine = .message then
    let otherId := idOfInt ((buffer.getD 1 0).toInt8.toInt - 0x30)
    if buffer.getD 0 0 = 0x43 then [⟨connectDatagram c.clientSelfid otherId, serverAddr⟩]
    else [⟨messageDatagram c.clientSelfid otherId buffer, serverAddr⟩]
  else if c.statusMachine = .p2pMessage then
    match c.p2pClients.getLast? with
    | some last => [⟨messageDatagram c.clientSelfid (idOfInt 0) buffer, arrayToAddr last.addr⟩]
    | none => []
  else []

/-! ## The network -/

/-- The two clients, the server, and the addresses that the server knows the clients by. -/
structure Net where
  idA : ClientId
  idB : ClientId
  addrA : SockaddrIn
  addrB : SockaddrIn
  server : SockaddrIn
  addressOf : ClientId → SockaddrIn
  addressOf_idA : addressOf idA = addrA
  addressOf_idB : addressOf idB = addrB
  addrA_ne_addrB : addrA ≠ addrB
  addrA_ne_server : addrA ≠ server
  addrB_ne_server : addrB ≠ server

/-- A datagram in flight. -/
@[ext]
structure Flight where
  datagram : Bytes
  src : SockaddrIn
  dest : SockaddrIn

instance : DecidableEq Flight := fun _ _ => decidable_of_iff _ Flight.ext_iff.symm

/-- What is sent, from the address of the sender. -/
def flights (src : SockaddrIn) (sent : List Sent) : Multiset Flight :=
  Multiset.ofList (sent.map fun d => ⟨d.datagram, src, d.dest⟩)

/-- What the server sends for a datagram: a notification for a CONNECT, and the
acknowledgement. -/
def Net.relayed (net : Net) (buffer : Bytes) (addr : SockaddrIn) : List Sent :=
  if statusOf buffer = kingProtoConnectReq then
    [⟨notifyDatagram (bytesAt 4 buffer selfidIdx)
        (addrToArray (net.addressOf (bytesAt 4 buffer selfidIdx))),
      net.addressOf (bytesAt 4 buffer otheridIdx)⟩, ⟨acknowledged buffer, addr⟩]
  else [⟨acknowledged buffer, addr⟩]

structure State where
  a : Client
  b : Client
  inFlight : Multiset Flight

/-- Both clients have sent their LOGIN. -/
def Net.start (net : Net) : State where
  a := ⟨.login, net.idA, []⟩
  b := ⟨.login, net.idB, []⟩
  inFlight := {⟨loginDatagram net.idA, net.addrA, net.server⟩,
    ⟨loginDatagram net.idB, net.addrB, net.server⟩}

/-- A datagram in flight is received at the time `now`. -/
def Net.deliver (net : Net) (s : State) (f : Flight) (now : ℤ) : State :=
  let rest := s.inFlight.erase f
  if f.dest = net.server then
    { s with inFlight := flights net.server (net.relayed f.datagram f.src) + rest }
  else if f.dest = net.addrA then
    let out := kingClientBufferParser s.a f.datagram f.src now
    { s with a := out.1, inFlight := flights net.addrA out.2 + rest }
  else if f.dest = net.addrB then
    let out := kingClientBufferParser s.b f.datagram f.src now
    { s with b := out.1, inFlight := flights net.addrB out.2 + rest }
  else { s with inFlight := rest }

inductive Event where
  | connect
  | deliver (f : Flight)

instance : DecidableEq Event
  | .connect, .connect => isTrue rfl
  | .connect, .deliver _ => isFalse nofun
  | .deliver _, .connect => isFalse nofun
  | .deliver f, .deliver g => decidable_of_iff (f = g) (Event.deliver.injEq f g).to_iff.symm

/-- What has happened so far, and the state. Once the user of `a` types a word that makes it a
CONNECT to `b`. -/
inductive Run (net : Net) : List Event → State → Prop
  | start : Run net [] net.start
  | connect {events : List Event} {s : State} (word : Bytes) (before : Run net events s)
      (once : .connect ∉ events)
      (sends : kingSendCallback s.a net.server word =
        [⟨connectDatagram net.idA net.idB, net.server⟩]) :
      Run net (events ++ [.connect]) { s with
        inFlight := flights net.addrA (kingSendCallback s.a net.server word) + s.inFlight }
  | deliver {events : List Event} {s : State} (f : Flight) (now : ℤ) (before : Run net events s)
      (inFlight : f ∈ s.inFlight) :
      Run net (events ++ [.deliver f]) (net.deliver s f now)

/-- The client is in the status for messages to a peer, and its last entry, to which the next one
goes, is that of the peer. -/
def Client.Established (c : Client) (id : ClientId) (addr : SockaddrIn) : Prop :=
  c.statusMachine = .p2pMessage ∧ ∃ last, c.p2pClients.getLast? = some last ∧ last.clientId = id ∧
    last.addr = addrToArray addr

/-- The acknowledgement of the LOGIN of `b`. -/
def Net.loginAckB (net : Net) : Flight :=
  ⟨acknowledged (loginDatagram net.idB), net.server, net.addrB⟩

/-- The acknowledgement of `a` for the P2P_CONNECT of `b`. -/
def Net.p2pAck (net : Net) : Flight := ⟨p2pConnectAckDatagram net.idA, net.addrA, net.addrB⟩

/-- The client `b` has received the acknowledgement of its LOGIN before that of its P2P_CONNECT. -/
def LoginAckFirst (net : Net) (events : List Event) : Prop :=
  ∃ before after, events = before ++ .deliver net.p2pAck :: after ∧
    .deliver net.loginAckB ∈ before

/-! ## Where the datagrams are -/

/-- A LOGIN: on its way, its acknowledgement on its way, or done. -/
inductive LoginPhase where
  | request
  | ack
  | done
  deriving DecidableEq

/-- The CONNECT and what follows from it. -/
inductive ConnectPhase where
  | unsent
  | connect
  | notify
  | p2pConnect
  | p2pAck
  | done
  deriving DecidableEq

def LoginPhase.flights (id : ClientId) (addr server : SockaddrIn) : LoginPhase → Multiset Flight
  | .request => {⟨loginDatagram id, addr, server⟩}
  | .ack => {⟨acknowledged (loginDatagram id), server, addr⟩}
  | .done => 0

def ConnectPhase.flights (net : Net) : ConnectPhase → Multiset Flight
  | .unsent => 0
  | .connect => {⟨connectDatagram net.idA net.idB, net.addrA, net.server⟩}
  | .notify => {⟨notifyDatagram net.idA (addrToArray net.addrA), net.server, net.addrB⟩}
  | .p2pConnect => {⟨p2pConnectDatagram net.idB, net.addrB, net.addrA⟩}
  | .p2pAck => {net.p2pAck}
  | .done => 0

/-- `connectAck` says whether the acknowledgement of the CONNECT is on its way, `overwritten` that
the acknowledgement of the LOGIN of `b` came after that of its P2P_CONNECT. -/
structure Phases where
  loginA : LoginPhase
  loginB : LoginPhase
  connect : ConnectPhase
  connectAck : Bool
  overwritten : Bool

def Net.connectAckFlight (net : Net) : Flight :=
  ⟨acknowledged (connectDatagram net.idA net.idB), net.server, net.addrA⟩

def Phases.flights (net : Net) (p : Phases) : Multiset Flight :=
  p.loginA.flights net.idA net.addrA net.server + p.loginB.flights net.idB net.addrB net.server +
    p.connect.flights net + if p.connectAck then {net.connectAckFlight} else 0

def Phases.statusA (p : Phases) : KingStatus :=
  match p.connect, p.loginA with
  | .p2pAck, _ => .p2pMessage
  | .done, _ => .p2pMessage
  | _, .done => .message
  | _, _ => .login

def Phases.statusB (p : Phases) : KingStatus :=
  match p.connect, p.overwritten, p.loginB with
  | .done, false, _ => .p2pMessage
  | .done, true, _ => .message
  | _, _, .done => .message
  | _, _, _ => .login

/-- Each entry is that of the peer. -/
def Entries (entries : List ClientTable) (known : Bool) (id : ClientId) (addr : SockaddrIn) : Prop :=
  entries.map (fun e => (e.clientId, e.addr)) = if known then [(id, addrToArray addr)] else []

/-- The state belongs to the phases. -/
structure Placed (net : Net) (s : State) (p : Phases) : Prop where
  inFlight : s.inFlight = p.flights net
  selfidA : s.a.clientSelfid = net.idA
  selfidB : s.b.clientSelfid = net.idB
  statusA : s.a.statusMachine = p.statusA
  statusB : s.b.statusMachine = p.statusB
  entriesA : Entries s.a.p2pClients (p.connect = .p2pAck ∨ p.connect = .done) net.idB net.addrB
  entriesB : Entries s.b.p2pClients (p.connect = .done) net.idA net.addrA
  loggedIn : p.connect ≠ .unsent → p.loginA = .done
  overwrites : p.overwritten = true → p.loginB = .done ∧ p.connect = .done
  acks : p.connectAck = true → p.connect ≠ .unsent ∧ p.connect ≠ .connect

/-- What has happened belongs to the phases. -/
structure Recorded (net : Net) (events : List Event) (p : Phases) : Prop where
  sent : .connect ∈ events ↔ p.connect ≠ .unsent
  ackB : .deliver net.loginAckB ∈ events ↔ p.loginB = .done
  first : LoginAckFirst net events ↔
    p.loginB = .done ∧ p.connect = .done ∧ p.overwritten = false

variable {net : Net} {events : List Event} {s : State} {p p' : Phases} {f : Flight} {c : Client}
variable {id id' : ClientId} {addr : SockaddrIn} {now : ℤ} {rest : Multiset Flight}

/-! ## Receiving -/

theorem parser_loginAck : kingClientBufferParser c (acknowledged (loginDatagram id)) addr now =
    ({ c with statusMachine := .message }, []) := rfl

theorem parser_connectAck : kingClientBufferParser c (acknowledged (connectDatagram id id')) addr
    now = (c, []) := rfl

theorem parser_notify {array : AddrArray} :
    kingClientBufferParser c (notifyDatagram id array) addr now =
      (c, [⟨p2pConnectDatagram c.clientSelfid, arrayToAddr array⟩]) := by
  rw [kingClientBufferParser, if_pos statusOf_notifyDatagram, addr_notifyDatagram]

theorem parser_p2pConnect : kingClientBufferParser c (p2pConnectDatagram id) addr now =
    ({ c with statusMachine := .p2pMessage,
              p2pClients := c.p2pClients ++ [⟨addrToArray addr, id, now⟩] },
      [⟨p2pConnectAckDatagram c.clientSelfid, addr⟩]) := by
  have hstatus : statusOf (p2pConnectDatagram id) = ntyProtoP2pConnectReq := rfl
  rw [kingClientBufferParser, hstatus, if_neg (by decide), if_pos rfl, peerEntry, p2pConnectDatagram,
    selfid_idDatagram]

theorem parser_p2pConnectAck : kingClientBufferParser c (p2pConnectAckDatagram id) addr now =
    ({ c with statusMachine := .p2pMessage,
              p2pClients := c.p2pClients ++ [⟨addrToArray addr, id, now⟩] }, []) := by
  have hstatus : statusOf (p2pConnectAckDatagram id) = ntyProtoP2pConnectAck := rfl
  rw [kingClientBufferParser, hstatus, if_neg (by decide), if_neg (by decide), if_pos rfl, peerEntry,
    p2pConnectAckDatagram, selfid_idDatagram]

theorem relayed_login : net.relayed (loginDatagram id) addr =
    [⟨acknowledged (loginDatagram id), addr⟩] := rfl

theorem relayed_connect : net.relayed (connectDatagram net.idA net.idB) addr =
    [⟨notifyDatagram net.idA (addrToArray net.addrA), net.addrB⟩,
      ⟨acknowledged (connectDatagram net.idA net.idB), addr⟩] := by
  rw [Net.relayed, if_pos statusOf_connectDatagram, selfid_connectDatagram, otherid_connectDatagram,
    net.addressOf_idA, net.addressOf_idB]

/-- A client that sends a CONNECT is in the status for messages to the server. -/
theorem message_of_connect {serverAddr : SockaddrIn} {word : Bytes}
    (h : kingSendCallback c serverAddr word = [⟨connectDatagram id id', addr⟩]) :
    c.statusMachine = .message := by
  rw [kingSendCallback] at h
  split at h
  · rename_i hstatus
    exact hstatus
  · split at h
    · split at h
      · have hdatagram := congrArg statusOf (Sent.mk.inj (List.cons.inj h).1).1
        exact absurd hdatagram (by rw [statusOf_connectDatagram]; simp [messageDatagram, statusOf,
          ntyRporoMessageReq, kingProtoConnectReq])
      · exact absurd h (by simp)
    · exact absurd h (by simp)

theorem deliver_server (hdest : f.dest = net.server) (hflight : s.inFlight = f ::ₘ rest) :
    net.deliver s f now =
      { s with inFlight := flights net.server (net.relayed f.datagram f.src) + rest } := by
  rw [Net.deliver, hflight, Multiset.erase_cons_head]
  exact if_pos hdest

theorem deliver_a (hdest : f.dest = net.addrA) (hflight : s.inFlight = f ::ₘ rest) :
    net.deliver s f now = { s with
      a := (kingClientBufferParser s.a f.datagram f.src now).1
      inFlight := flights net.addrA (kingClientBufferParser s.a f.datagram f.src now).2 + rest } := by
  rw [Net.deliver, hflight, Multiset.erase_cons_head, hdest]
  exact (if_neg net.addrA_ne_server).trans (if_pos rfl)

theorem deliver_b (hdest : f.dest = net.addrB) (hflight : s.inFlight = f ::ₘ rest) :
    net.deliver s f now = { s with
      b := (kingClientBufferParser s.b f.datagram f.src now).1
      inFlight := flights net.addrB (kingClientBufferParser s.b f.datagram f.src now).2 + rest } := by
  rw [Net.deliver, hflight, Multiset.erase_cons_head, hdest]
  exact (if_neg net.addrB_ne_server).trans ((if_neg net.addrA_ne_addrB.symm).trans (if_pos rfl))

/-! ## What has happened -/

theorem loginAckFirst_append (e : Event) : LoginAckFirst net (events ++ [e]) ↔
    LoginAckFirst net events ∨ e = .deliver net.p2pAck ∧ .deliver net.loginAckB ∈ events := by
  constructor
  · rintro ⟨before, after, heq, hmem⟩
    obtain rfl | ⟨after, last, rfl⟩ := List.eq_nil_or_concat after
    · obtain ⟨rfl, hlast⟩ := List.append_inj' heq rfl
      exact .inr ⟨(List.cons.inj hlast).1, hmem⟩
    · rw [List.concat_eq_append, ← List.cons_append, ← List.append_assoc] at heq
      exact .inl ⟨before, after, (List.append_inj' heq rfl).1, hmem⟩
  · rintro (⟨before, after, rfl, hmem⟩ | ⟨rfl, hmem⟩)
    · exact ⟨before, after ++ [e], by simp, hmem⟩
    · exact ⟨events, [], rfl, hmem⟩

/-- Another datagram has been received. -/
theorem Recorded.other (h : Recorded net events p) (hack : f ≠ net.loginAckB)
    (hp2p : f ≠ net.p2pAck) (hsent : p'.connect ≠ .unsent ↔ p.connect ≠ .unsent)
    (hlogin : p'.loginB = .done ↔ p.loginB = .done)
    (hdone : p'.connect = .done ↔ p.connect = .done) (hover : p'.overwritten = p.overwritten) :
    Recorded net (events ++ [.deliver f]) p' where
  sent := by simp [h.sent, hsent]
  ackB := by simp [h.ackB, hlogin, hack.symm]
  first := by
    rw [loginAckFirst_append, h.first, hlogin, hdone, hover]
    simp [hp2p]

theorem ne_of_status {g : Flight} (u v : UInt8) (hf : statusOf f.datagram = u)
    (hg : statusOf g.datagram = v) (huv : u ≠ v) : f ≠ g := by
  rintro rfl
  exact huv (hf.symm.trans hg)

/-! ## Steps -/

theorem flights_loginA (p : Phases) : p.flights net =
    p.loginA.flights net.idA net.addrA net.server + { p with loginA := .done }.flights net := by
  simp only [Phases.flights, LoginPhase.flights]
  abel

theorem flights_loginB (p : Phases) : p.flights net =
    p.loginB.flights net.idB net.addrB net.server + { p with loginB := .done }.flights net := by
  simp only [Phases.flights, LoginPhase.flights]
  abel

theorem flights_connect (p : Phases) : p.flights net =
    p.connect.flights net + { p with connect := .unsent }.flights net := by
  simp only [Phases.flights, ConnectPhase.flights]
  abel

theorem flights_connectAck (p : Phases) : p.flights net =
    (if p.connectAck then {net.connectAckFlight} else 0) +
      { p with connectAck := false }.flights net := by
  simp only [Phases.flights, Bool.false_eq_true, if_false]
  abel

/-- The LOGIN of `a` or its acknowledgement is received. -/
theorem step_loginA (hp : Placed net s p) (hr : Recorded net events p)
    (hf : f ∈ p.loginA.flights net.idA net.addrA net.server) :
    ∃ p', Placed net (net.deliver s f now) p' ∧ Recorded net (events ++ [.deliver f]) p' := by
  have hflight := hp.inFlight
  rw [flights_loginA] at hflight
  have hunsent : p.loginA ≠ .done → p.connect = .unsent := by
    intro hA
    by_contra hconnect
    exact hA (hp.loggedIn hconnect)
  cases hA : p.loginA with
  | request =>
    rw [hA] at hf hflight
    obtain rfl := Multiset.mem_singleton.mp hf
    have hconnect := hunsent (by simp [hA])
    refine ⟨{ p with loginA := .ack }, ?_, ?_⟩
    · rw [deliver_server rfl hflight, relayed_login]
      refine ⟨?_, hp.selfidA, hp.selfidB, ?_, hp.statusB, hp.entriesA, hp.entriesB, ?_,
        hp.overwrites, hp.acks⟩
      · rw [flights_loginA { p with loginA := .ack }]
        rfl
      · rw [hp.statusA, Phases.statusA, Phases.statusA, hconnect, hA]
      · exact fun habsurd => absurd hconnect habsurd
    · refine hr.other ?_ ?_ Iff.rfl Iff.rfl Iff.rfl rfl
      · exact ne_of_status kingProtoLoginReq kingProtoLoginAck rfl rfl (by decide)
      · exact ne_of_status kingProtoLoginReq ntyProtoP2pConnectAck rfl rfl (by decide)
  | ack =>
    rw [hA] at hf hflight
    obtain rfl := Multiset.mem_singleton.mp hf
    have hconnect := hunsent (by simp [hA])
    refine ⟨{ p with loginA := .done }, ?_, ?_⟩
    · rw [deliver_a rfl hflight, parser_loginAck]
      refine ⟨Multiset.zero_add _, hp.selfidA, hp.selfidB, ?_, hp.statusB, hp.entriesA,
        hp.entriesB, fun _ => rfl, hp.overwrites, hp.acks⟩
      rw [Phases.statusA, hconnect]
    · refine hr.other ?_ ?_ Iff.rfl Iff.rfl Iff.rfl rfl
      · exact fun heq => net.addrA_ne_addrB (Flight.mk.inj heq).2.2
      · exact ne_of_status kingProtoLoginAck ntyProtoP2pConnectAck rfl rfl (by decide)
  | done =>
    rw [hA] at hf
    exact absurd hf (Multiset.notMem_zero f)

/-- The LOGIN of `b` or its acknowledgement is received. The acknowledgement overwrites the status
that the session has given to `b`. -/
theorem step_loginB (hp : Placed net s p) (hr : Recorded net events p)
    (hf : f ∈ p.loginB.flights net.idB net.addrB net.server) :
    ∃ p', Placed net (net.deliver s f now) p' ∧ Recorded net (events ++ [.deliver f]) p' := by
  have hflight := hp.inFlight
  rw [flights_loginB] at hflight
  have hnot : p.loginB ≠ .done → p.overwritten = false := by
    intro hB
    by_contra hover
    exact hB (hp.overwrites (by simpa using hover)).1
  cases hB : p.loginB with
  | request =>
    rw [hB] at hf hflight
    obtain rfl := Multiset.mem_singleton.mp hf
    have hover := hnot (by simp [hB])
    refine ⟨{ p with loginB := .ack }, ?_, ?_⟩
    · rw [deliver_server rfl hflight, relayed_login]
      refine ⟨?_, hp.selfidA, hp.selfidB, hp.statusA, ?_, hp.entriesA, hp.entriesB, hp.loggedIn, ?_,
        hp.acks⟩
      · rw [flights_loginB { p with loginB := .ack }]
        rfl
      · rw [hp.statusB, Phases.statusB, Phases.statusB, hover, hB]
        cases p.connect <;> rfl
      · simp [hover]
    · refine hr.other ?_ ?_ Iff.rfl (by simp [hB]) Iff.rfl rfl
      · exact ne_of_status kingProtoLoginReq kingProtoLoginAck rfl rfl (by decide)
      · exact ne_of_status kingProtoLoginReq ntyProtoP2pConnectAck rfl rfl (by decide)
  | ack =>
    rw [hB] at hf hflight
    obtain rfl := Multiset.mem_singleton.mp hf
    have hover := hnot (by simp [hB])
    refine ⟨{ p with loginB := .done, overwritten := p.connect = .done }, ?_, ?_⟩
    · rw [deliver_b rfl hflight, parser_loginAck]
      refine ⟨Multiset.zero_add _, hp.selfidA, hp.selfidB, hp.statusA, ?_, hp.entriesA,
        hp.entriesB, hp.loggedIn, ?_, hp.acks⟩
      · rw [Phases.statusB]
        cases p.connect <;> rfl
      · intro hdone
        exact ⟨rfl, of_decide_eq_true hdone⟩
    · have hne : (⟨acknowledged (loginDatagram net.idB), net.server, net.addrB⟩ : Flight) ≠
          net.p2pAck := ne_of_status kingProtoLoginAck ntyProtoP2pConnectAck rfl rfl (by decide)
      refine ⟨by simp [hr.sent], by simp [Net.loginAckB], ?_⟩
      rw [loginAckFirst_append, hr.first, hB]
      simp [hne]
  | done =>
    rw [hB] at hf
    exact absurd hf (Multiset.notMem_zero f)

/-- The acknowledgement of the CONNECT is received, and nothing changes. -/
theorem step_connectAck (hp : Placed net s p) (hr : Recorded net events p)
    (hf : f ∈ if p.connectAck then ({net.connectAckFlight} : Multiset Flight) else 0) :
    ∃ p', Placed net (net.deliver s f now) p' ∧ Recorded net (events ++ [.deliver f]) p' := by
  have hflight := hp.inFlight
  rw [flights_connectAck] at hflight
  split at hf
  · rename_i hack
    rw [if_pos hack] at hflight
    obtain rfl := Multiset.mem_singleton.mp hf
    refine ⟨{ p with connectAck := false }, ?_, ?_⟩
    · rw [deliver_a rfl hflight, Net.connectAckFlight, parser_connectAck]
      exact ⟨Multiset.zero_add _, hp.selfidA, hp.selfidB, hp.statusA, hp.statusB, hp.entriesA,
        hp.entriesB, hp.loggedIn, hp.overwrites, fun habsurd => absurd habsurd (by simp)⟩
    · refine hr.other ?_ ?_ Iff.rfl Iff.rfl Iff.rfl rfl
      · exact ne_of_status kingProtoConnectAck kingProtoLoginAck rfl rfl (by decide)
      · exact ne_of_status kingProtoConnectAck ntyProtoP2pConnectAck rfl rfl (by decide)
  · exact absurd hf (Multiset.notMem_zero f)

theorem entries_append {entries : List ClientTable} {known : Bool}
    (h : Entries entries false id addr) (hknown : known = true) :
    Entries (entries ++ [⟨addrToArray addr, id, now⟩]) known id addr := by
  rw [Entries, if_neg (by simp)] at h
  rw [Entries, List.map_append, h, if_pos hknown]
  rfl

theorem Placed.not_overwritten (hp : Placed net s p) (h : p.connect ≠ .done) :
    p.overwritten = false := by
  by_contra hover
  exact h (hp.overwrites (by simpa using hover)).2

/-- The CONNECT is received. -/
theorem connectReceived (hp : Placed net s p) (hr : Recorded net events p) (hC : p.connect = .connect)
    (hf : f ∈ p.connect.flights net) :
    ∃ p', Placed net (net.deliver s f now) p' ∧ Recorded net (events ++ [.deliver f]) p' := by
  have hflight := hp.inFlight
  rw [flights_connect] at hflight
  rw [hC] at hf hflight
  obtain rfl := Multiset.mem_singleton.mp hf
  have hover := hp.not_overwritten (by simp [hC])
  have hack : p.connectAck = false := by
    by_contra hack
    exact (hp.acks (by simpa using hack)).2 hC
  refine ⟨{ p with connect := .notify, connectAck := true }, ?_, ?_⟩
  · rw [deliver_server rfl hflight, relayed_connect]
    refine ⟨?_, hp.selfidA, hp.selfidB, ?_, ?_, ?_, ?_, fun _ => hp.loggedIn (by simp [hC]), ?_,
      fun _ => by simp⟩
    · rw [flights_connect { p with connect := .notify, connectAck := true }, flights_connectAck,
        flights_connectAck { p with connect := .unsent, connectAck := true }, hack, if_neg (by simp),
        if_pos rfl]
      simp only [flights, ConnectPhase.flights, List.map_cons, List.map_nil, ← Multiset.cons_coe,
        Multiset.coe_nil, Multiset.cons_add, Multiset.singleton_add, zero_add]
      rfl
    · rw [hp.statusA, Phases.statusA, Phases.statusA, hC]
      cases p.loginA <;> rfl
    · rw [hp.statusB, Phases.statusB, Phases.statusB, hC]
      cases p.loginB <;> rfl
    · have hentries := hp.entriesA
      simpa [hC] using hentries
    · have hentries := hp.entriesB
      simpa [hC] using hentries
    · simp [hover]
  · refine hr.other ?_ ?_ (by simp [hC]) Iff.rfl (by simp [hC]) rfl
    · exact ne_of_status kingProtoConnectReq kingProtoLoginAck rfl rfl (by decide)
    · exact ne_of_status kingProtoConnectReq ntyProtoP2pConnectAck rfl rfl (by decide)

/-- The notification is received. -/
theorem notifyReceived (hp : Placed net s p) (hr : Recorded net events p) (hC : p.connect = .notify)
    (hf : f ∈ p.connect.flights net) :
    ∃ p', Placed net (net.deliver s f now) p' ∧ Recorded net (events ++ [.deliver f]) p' := by
  have hflight := hp.inFlight
  rw [flights_connect] at hflight
  rw [hC] at hf hflight
  obtain rfl := Multiset.mem_singleton.mp hf
  have hover := hp.not_overwritten (by simp [hC])
  refine ⟨{ p with connect := .p2pConnect }, ?_, ?_⟩
  · rw [deliver_b rfl hflight, parser_notify, hp.selfidB, arrayToAddr_addrToArray]
    refine ⟨?_, hp.selfidA, hp.selfidB, ?_, ?_, ?_, ?_, fun _ => hp.loggedIn (by simp [hC]), ?_,
      fun _ => by simp⟩
    · rw [flights_connect { p with connect := .p2pConnect }]
      rfl
    · rw [hp.statusA, Phases.statusA, Phases.statusA, hC]
      cases p.loginA <;> rfl
    · rw [hp.statusB, Phases.statusB, Phases.statusB, hC]
      cases p.loginB <;> rfl
    · have hentries := hp.entriesA
      simpa [hC] using hentries
    · have hentries := hp.entriesB
      simpa [hC] using hentries
    · simp [hover]
  · refine hr.other ?_ ?_ (by simp [hC]) Iff.rfl (by simp [hC]) rfl
    · exact ne_of_status ntyProtoNotifyReq kingProtoLoginAck rfl rfl (by decide)
    · exact ne_of_status ntyProtoNotifyReq ntyProtoP2pConnectAck rfl rfl (by decide)

/-- The P2P_CONNECT is received. -/
theorem p2pConnectReceived (hp : Placed net s p) (hr : Recorded net events p)
    (hC : p.connect = .p2pConnect) (hf : f ∈ p.connect.flights net) :
    ∃ p', Placed net (net.deliver s f now) p' ∧ Recorded net (events ++ [.deliver f]) p' := by
  have hflight := hp.inFlight
  rw [flights_connect] at hflight
  rw [hC] at hf hflight
  obtain rfl := Multiset.mem_singleton.mp hf
  have hover := hp.not_overwritten (by simp [hC])
  refine ⟨{ p with connect := .p2pAck }, ?_, ?_⟩
  · rw [deliver_a rfl hflight, parser_p2pConnect, hp.selfidA]
    refine ⟨?_, rfl, hp.selfidB, ?_, ?_, ?_, ?_, fun _ => hp.loggedIn (by simp [hC]), ?_,
      fun _ => by simp⟩
    · rw [flights_connect { p with connect := .p2pAck }]
      rfl
    · rfl
    · rw [hp.statusB, Phases.statusB, Phases.statusB, hC]
      cases p.loginB <;> rfl
    · have hentries := hp.entriesA
      exact entries_append (by simpa [hC] using hentries) (by simp)
    · have hentries := hp.entriesB
      simpa [hC] using hentries
    · simp [hover]
  · refine hr.other ?_ ?_ (by simp [hC]) Iff.rfl (by simp [hC]) rfl
    · exact ne_of_status ntyProtoP2pConnectReq kingProtoLoginAck rfl rfl (by decide)
    · exact ne_of_status ntyProtoP2pConnectReq ntyProtoP2pConnectAck rfl rfl (by decide)

/-- The acknowledgement of the P2P_CONNECT is received. -/
theorem p2pAckReceived (hp : Placed net s p) (hr : Recorded net events p) (hC : p.connect = .p2pAck)
    (hf : f ∈ p.connect.flights net) :
    ∃ p', Placed net (net.deliver s f now) p' ∧ Recorded net (events ++ [.deliver f]) p' := by
  have hflight := hp.inFlight
  rw [flights_connect] at hflight
  rw [hC] at hf hflight
  obtain rfl := Multiset.mem_singleton.mp hf
  have hover := hp.not_overwritten (by simp [hC])
  refine ⟨{ p with connect := .done }, ?_, ?_⟩
  · rw [deliver_b rfl hflight, Net.p2pAck, parser_p2pConnectAck]
    refine ⟨?_, hp.selfidA, hp.selfidB, ?_, ?_, ?_, ?_, fun _ => hp.loggedIn (by simp [hC]), ?_,
      fun _ => by simp⟩
    · rw [flights_connect { p with connect := .done }]
      rfl
    · rw [hp.statusA, Phases.statusA, Phases.statusA, hC]
    · rw [Phases.statusB, hover]
    · have hentries := hp.entriesA
      simpa [hC] using hentries
    · have hentries := hp.entriesB
      exact entries_append (by simpa [hC] using hentries) (by simp)
    · simp [hover]
  · have hne : net.loginAckB ≠ net.p2pAck :=
      ne_of_status kingProtoLoginAck ntyProtoP2pConnectAck rfl rfl (by decide)
    refine ⟨by simp [hr.sent, hC], by simp [hr.ackB, hne], ?_⟩
    rw [loginAckFirst_append, hr.first, hr.ackB]
    simp [hC, hover]

/-- The CONNECT, the notification, the P2P_CONNECT or its acknowledgement is received. -/
theorem step_connect (hp : Placed net s p) (hr : Recorded net events p)
    (hf : f ∈ p.connect.flights net) :
    ∃ p', Placed net (net.deliver s f now) p' ∧ Recorded net (events ++ [.deliver f]) p' := by
  cases hC : p.connect with
  | unsent =>
    rw [hC] at hf
    exact absurd hf (Multiset.notMem_zero f)
  | connect => exact connectReceived hp hr hC hf
  | notify => exact notifyReceived hp hr hC hf
  | p2pConnect => exact p2pConnectReceived hp hr hC hf
  | p2pAck => exact p2pAckReceived hp hr hC hf
  | done =>
    rw [hC] at hf
    exact absurd hf (Multiset.notMem_zero f)

/-- The CONNECT is sent. -/
theorem step_send {word : Bytes} (hp : Placed net s p) (hr : Recorded net events p)
    (honce : .connect ∉ events) (hsends : kingSendCallback s.a net.server word =
      [⟨connectDatagram net.idA net.idB, net.server⟩]) :
    ∃ p', Placed net { s with
        inFlight := flights net.addrA (kingSendCallback s.a net.server word) + s.inFlight } p' ∧
      Recorded net (events ++ [.connect]) p' := by
  have hconnect : p.connect = .unsent := by
    by_contra hconnect
    exact honce (hr.sent.mpr hconnect)
  have hA : p.loginA = .done := by
    have hmessage := message_of_connect hsends
    rw [hp.statusA, Phases.statusA, hconnect] at hmessage
    cases hA : p.loginA <;> simp [hA] at hmessage ⊢
  have hover : p.overwritten = false := by
    by_contra hover
    have hdone := (hp.overwrites (by simpa using hover)).2
    rw [hconnect] at hdone
    exact absurd hdone (by simp)
  have hack : p.connectAck = false := by
    by_contra hack
    exact (hp.acks (by simpa using hack)).1 hconnect
  refine ⟨{ p with connect := .connect }, ?_, ?_⟩
  · refine ⟨?_, hp.selfidA, hp.selfidB, ?_, ?_, ?_, ?_, fun _ => hA, by simp [hover],
      by simp [hack]⟩
    · rw [hsends, hp.inFlight, flights_connect, flights_connect { p with connect := .connect },
        hconnect]
      exact congrArg (_ + ·) (Multiset.zero_add _)
    · rw [hp.statusA, Phases.statusA, Phases.statusA, hconnect]
      rw [hA]
    · rw [hp.statusB, Phases.statusB, Phases.statusB, hconnect]
      cases p.loginB <;> rfl
    · have hentries := hp.entriesA
      simpa [hconnect] using hentries
    · have hentries := hp.entriesB
      simpa [hconnect] using hentries
  · refine ⟨by simp, by simp [hr.ackB], ?_⟩
    rw [loginAckFirst_append, hr.first, hconnect]
    simp

theorem Run.placed (h : Run net events s) : ∃ p, Placed net s p ∧ Recorded net events p := by
  induction h with
  | start =>
    refine ⟨⟨.request, .request, .unsent, false, false⟩, ?_, ?_⟩
    · refine ⟨?_, rfl, rfl, rfl, rfl, rfl, rfl, by simp, by simp, by simp⟩
      simp [Net.start, Phases.flights, LoginPhase.flights, ConnectPhase.flights]
    · refine ⟨by simp, by simp, ?_⟩
      refine iff_of_false ?_ (by simp)
      rintro ⟨before, after, heq, -⟩
      exact absurd heq (by simp)
  | connect word _ once sends ih =>
    obtain ⟨p, hp, hr⟩ := ih
    exact step_send hp hr once sends
  | deliver f now _ hf ih =>
    obtain ⟨p, hp, hr⟩ := ih
    rw [hp.inFlight, Phases.flights, Multiset.mem_add, Multiset.mem_add, Multiset.mem_add] at hf
    obtain ((hf | hf) | hf) | hf := hf
    · exact step_loginA hp hr hf
    · exact step_loginB hp hr hf
    · exact step_connect hp hr hf
    · exact step_connectAck hp hr hf

/-- With nothing in flight everything has come to its end. -/
theorem Phases.done_of_flights {p : Phases} (h : p.flights net = 0) :
    p.loginA = .done ∧ p.loginB = .done ∧ (p.connect = .unsent ∨ p.connect = .done) := by
  have hcard := congrArg Multiset.card h
  simp only [Phases.flights, Multiset.card_add, Multiset.card_zero] at hcard
  have hA : p.loginA.flights net.idA net.addrA net.server = 0 := Multiset.card_eq_zero.mp (by omega)
  have hB : p.loginB.flights net.idB net.addrB net.server = 0 := Multiset.card_eq_zero.mp (by omega)
  have hC : p.connect.flights net = 0 := Multiset.card_eq_zero.mp (by omega)
  refine ⟨?_, ?_, ?_⟩
  · cases hp : p.loginA <;> simp [hp, LoginPhase.flights] at hA ⊢
  · cases hp : p.loginB <;> simp [hp, LoginPhase.flights] at hB ⊢
  · cases hp : p.connect <;> simp [hp, ConnectPhase.flights] at hC ⊢

theorem entries_last {entries : List ClientTable} {known : Bool} (h : Entries entries known id addr)
    (hknown : known = true) : ∃ last, entries.getLast? = some last ∧ last.clientId = id ∧
      last.addr = addrToArray addr := by
  rw [Entries, if_pos hknown] at h
  obtain ⟨e, rfl, he⟩ := List.map_eq_singleton_iff.mp h
  obtain ⟨hid, haddr⟩ := Prod.mk.inj he
  exact ⟨e, rfl, hid, haddr⟩

/-- When the CONNECT has been sent and nothing is in flight any more, both clients are in the
session exactly if `b` has received the acknowledgement of its LOGIN before that of its
P2P_CONNECT. -/
theorem established_iff (h : Run net events s) (hsent : .connect ∈ events)
    (hfinal : s.inFlight = 0) :
    s.a.Established net.idB net.addrB ∧ s.b.Established net.idA net.addrA ↔
      LoginAckFirst net events := by
  obtain ⟨p, hp, hr⟩ := h.placed
  rw [hp.inFlight] at hfinal
  obtain ⟨hA, hB, hconnect⟩ := Phases.done_of_flights hfinal
  have hdone := hconnect.resolve_left (hr.sent.mp hsent)
  have hestablishedA : s.a.Established net.idB net.addrB := by
    refine ⟨?_, entries_last hp.entriesA (by simp [hdone])⟩
    rw [hp.statusA, Phases.statusA, hdone]
  rw [and_iff_right hestablishedA, hr.first, hB, hdone]
  constructor
  · rintro ⟨hstatus, -⟩
    rw [hp.statusB, Phases.statusB, hdone] at hstatus
    refine ⟨rfl, rfl, ?_⟩
    cases hover : p.overwritten with
    | false => rfl
    | true =>
      rw [hover] at hstatus
      exact absurd hstatus (by simp)
  · rintro ⟨-, -, hover⟩
    refine ⟨?_, entries_last hp.entriesB (by simp [hdone])⟩
    rw [hp.statusB, Phases.statusB, hdone, hover]

/-! ## Two runs -/

/-- The clients 1 and 2 and a server. -/
def exampleNet : Net where
  idA := idOf 1
  idB := idOf 2
  addrA := host 1
  addrB := host 2
  server := host 9
  addressOf id := if id = idOf 1 then host 1 else host 2
  addressOf_idA := by decide
  addressOf_idB := by decide
  addrA_ne_addrB := by decide
  addrA_ne_server := by decide
  addrB_ne_server := by decide

/-- The word C2. -/
def connectWord : Bytes := [0x43, 0x32]

/-- The state after some more events, each at the time 0. -/
def exampleState (s : State) : List Event → State
  | [] => s
  | .connect :: events =>
    exampleState { s with
      inFlight := flights (host 1) (kingSendCallback s.a (host 9) connectWord) + s.inFlight } events
  | .deliver f :: events => exampleState (exampleNet.deliver s f 0) events

/-- Each event of a list may happen where it stands. -/
def exampleAllowed (done : List Event) (s : State) : List Event → Bool
  | [] => true
  | .connect :: events =>
    .connect ∉ done && kingSendCallback s.a (host 9) connectWord =
      [⟨connectDatagram (idOf 1) (idOf 2), host 9⟩] &&
    exampleAllowed (done ++ [.connect]) { s with
      inFlight := flights (host 1) (kingSendCallback s.a (host 9) connectWord) + s.inFlight } events
  | .deliver f :: events => f ∈ s.inFlight &&
    exampleAllowed (done ++ [.deliver f]) (exampleNet.deliver s f 0) events

theorem exampleRun {done : List Event} {s : State} (h : Run exampleNet done s) (events : List Event)
    (hallowed : exampleAllowed done s events) :
    Run exampleNet (done ++ events) (exampleState s events) := by
  induction events generalizing done s with
  | nil =>
    rw [List.append_nil]
    exact h
  | cons e events ih =>
    rw [← List.singleton_append, ← List.append_assoc]
    cases e with
    | connect =>
      simp only [exampleAllowed, Bool.and_eq_true, decide_eq_true_eq] at hallowed
      obtain ⟨⟨honce, hsends⟩, hlater⟩ := hallowed
      exact ih (.connect connectWord h honce hsends) hlater
    | deliver f =>
      simp only [exampleAllowed, Bool.and_eq_true, decide_eq_true_eq] at hallowed
      exact ih (.deliver f 0 h hallowed.1) hallowed.2

/-- The datagrams up to the P2P_CONNECT and its acknowledgement, without those of the LOGIN
of `b`. -/
def sessionEvents : List Event :=
  [.deliver ⟨loginDatagram (idOf 1), host 1, host 9⟩,
    .deliver ⟨acknowledged (loginDatagram (idOf 1)), host 9, host 1⟩, .connect,
    .deliver ⟨connectDatagram (idOf 1) (idOf 2), host 1, host 9⟩,
    .deliver exampleNet.connectAckFlight,
    .deliver ⟨notifyDatagram (idOf 1) (addrToArray (host 1)), host 9, host 2⟩,
    .deliver ⟨p2pConnectDatagram (idOf 2), host 2, host 1⟩, .deliver exampleNet.p2pAck]

/-- The datagrams of the LOGIN of `b`. -/
def loginEvents : List Event :=
  [.deliver ⟨loginDatagram (idOf 2), host 2, host 9⟩, .deliver exampleNet.loginAckB]

theorem established_login_first : ∃ events s, Run exampleNet events s ∧
    s.a.Established (idOf 2) (host 2) ∧ s.b.Established (idOf 1) (host 1) := by
  have hrun := exampleRun .start (loginEvents ++ sessionEvents) (by decide +kernel)
  refine ⟨_, _, hrun, (established_iff hrun (by decide +kernel) (by decide +kernel)).mpr ?_⟩
  exact ⟨loginEvents ++ sessionEvents.dropLast, [], by decide +kernel, by decide +kernel⟩

/-- The acknowledgement of the LOGIN comes to `b` last: `b` sends its messages to the server. -/
theorem late_login_ack : ∃ events s, Run exampleNet events s ∧ .connect ∈ events ∧
    s.inFlight = 0 ∧ s.b.statusMachine = .message ∧
    ¬(s.a.Established (idOf 2) (host 2) ∧ s.b.Established (idOf 1) (host 1)) := by
  have hrun := exampleRun .start (sessionEvents ++ loginEvents) (by decide +kernel)
  have hstatus : (exampleState exampleNet.start (sessionEvents ++ loginEvents)).b.statusMachine =
      .message := by decide +kernel
  refine ⟨_, _, hrun, by decide +kernel, by decide +kernel, hstatus, ?_⟩
  rintro ⟨-, hstatusB, -⟩
  exact absurd (hstatus.symm.trans hstatusB) (by decide)

end CServer.P2p.Session
