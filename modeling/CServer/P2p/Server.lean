import CServer.Foundation.Fallible
import CServer.P2p.Protocol
import Mathlib.Algebra.Ring.Int.Defs

/-!
# The rendezvous server of p2p_server.c

One thread serves the datagrams one after another, so its compare-and-swaps succeed. A lookup
that finds nothing ends without a value, which its callers use as an index: that is a `Fault`.
`recvfrom` and `sendto` succeed.
-/
namespace CServer.P2p

inductive Fault where
  | noReturnValue
  | outsideTable
  deriving DecidableEq, Repr

structure ClientTable where
  addr : AddrArray
  clientId : ClientId
  stamp : ℤ

def kingClientMax : ℕ := 1024

/-- `table` and `client_count`. -/
structure Server where
  table : ℕ → ClientTable
  clientCount : ℕ

def Server.start : Server := ⟨fun _ => ⟨fun _ => 0, fun _ => 0, 0⟩, 0⟩

/-- `get_index_by_clientid`. -/
def getIndexByClientid (s : Server) (clientId : ClientId) : Except Fault ℕ :=
  match (List.range s.clientCount).find? (fun i => (s.table i).clientId = clientId) with
  | some i => .ok i
  | none => .error .noReturnValue

/-- `king_send_notify`. -/
def kingSendNotify (s : Server) (clientId selfId : ClientId) : Except Fault Sent := do
  let index ← getIndexByClientid s selfId
  let buffer := notifyDatagram selfId (s.table index).addr
  let index ← getIndexByClientid s clientId
  .ok ⟨buffer, arrayToAddr (s.table index).addr⟩

/-- `king_buffer_parser`, called at the time `now`. -/
def kingBufferParser (s : Server) (buffer : Bytes) (addr : SockaddrIn) (now : ℤ) :
    Except Fault (Server × List Sent) :=
  if statusOf buffer = kingProtoLoginReq then
    let new := s.clientCount + 1
    if new < kingClientMax then
      .ok (⟨Function.update s.table new
        { s.table new with clientId := bytesAt 4 buffer selfidIdx, addr := addrToArray addr }, new⟩,
        [])
    else .error .outsideTable
  else if statusOf buffer = kingProtoHeartbeatReq then do
    let index ← getIndexByClientid s (bytesAt 4 buffer selfidIdx)
    .ok ({ s with table := Function.update s.table index { s.table index with stamp := now } }, [])
  else if statusOf buffer = kingProtoConnectReq then do
    let sent ← kingSendNotify s (bytesAt 4 buffer otheridIdx) (bytesAt 4 buffer selfidIdx)
    .ok (s, [sent])
  else .ok (s, [])

/-- A datagram with its sender and the time when it is served. -/
structure Received where
  buffer : Bytes
  addr : SockaddrIn
  now : ℤ

/-- A turn of the loop of `main`: the datagram goes back to its sender as an acknowledgement. -/
def serve (s : Server) (r : Received) : Except Fault (Server × List Sent) := do
  let out ← kingBufferParser s r.buffer r.addr r.now
  .ok (out.1, out.2 ++ [⟨acknowledged r.buffer, r.addr⟩])

/-- The server after some turns. -/
def serveAll (s : Server) : List Received → Except Fault Server
  | [] => .ok s
  | r :: history => do
    let out ← serve s r
    serveAll out.1 history

/-! ## Well-formed datagrams -/

inductive Request where
  | login (selfId : ClientId)
  | heartbeat (selfId : ClientId)
  | connect (selfId otherId : ClientId)
  deriving DecidableEq

def Request.datagram : Request → Bytes
  | .login selfId => loginDatagram selfId
  | .heartbeat selfId => heartbeatDatagram selfId
  | .connect selfId otherId => connectDatagram selfId otherId

/-- A request with its sender and the time when it is served. -/
structure Event where
  request : Request
  addr : SockaddrIn
  now : ℤ

def Event.received (e : Event) : Received := ⟨e.request.datagram, e.addr, e.now⟩

/-- The client that an event logs in, and its address. -/
def Event.login (e : Event) : Option (ClientId × SockaddrIn) :=
  match e.request with
  | .login selfId => some (selfId, e.addr)
  | _ => none

/-- The logins of a history, the first one first. -/
abbrev Logins := List (ClientId × SockaddrIn)

def loginsOf (history : List Event) : Logins := history.filterMap Event.login

/-- The address of the latest login of a client. -/
def Logins.latest (logins : Logins) (id : ClientId) : Option SockaddrIn :=
  (logins.reverse.find? (fun l => l.1 = id)).map Prod.snd

/-- The first login of the client came from `addr`, and another login, of this client or
of another one, came after it. -/
def Logins.FollowedFrom (logins : Logins) (id : ClientId) (addr : SockaddrIn) : Prop :=
  ∃ before after, logins = before ++ (id, addr) :: after ∧ (∀ l ∈ before, l.1 ≠ id) ∧ after ≠ []

/-- The client is found with the address of its latest login: it does not have the id 0, its
first login came from this address and was not the last login of all. The id 0 is found in the
slot before the first, which has the address 0. -/
def Logins.Listed (logins : Logins) (id : ClientId) (addr : SockaddrIn) : Prop :=
  id ≠ (fun _ => 0) ∧ logins.FollowedFrom id addr ∨
    id = (fun _ => 0) ∧ addr = ⟨fun _ => 0, fun _ => 0⟩

/-! ## The table and the logins -/

/-- The table has the logins from slot 1 on. -/
structure Shows (s : Server) (logins : Logins) : Prop where
  count : s.clientCount = logins.length
  first : (s.table 0).clientId = (fun _ => 0) ∧ (s.table 0).addr = fun _ => 0
  slot : ∀ i id addr, logins[i]? = some (id, addr) →
    (s.table (i + 1)).clientId = id ∧ (s.table (i + 1)).addr = addrToArray addr

theorem Shows.start : Shows .start [] where
  count := rfl
  first := ⟨rfl, rfl⟩
  slot i id addr h := absurd h (by simp)

variable {s s' : Server} {logins : Logins} {id id' : ClientId} {addr addr' : SockaddrIn} {now : ℤ}
variable {sent : List Sent} {i : ℕ}

theorem Shows.login (h : Shows s logins) (v : ClientTable) (hid : v.clientId = id)
    (haddr : v.addr = addrToArray addr) :
    Shows ⟨Function.update s.table (s.clientCount + 1) v, s.clientCount + 1⟩
      (logins ++ [(id, addr)]) where
  count := by rw [List.length_append, h.count, List.length_singleton]
  first := by
    dsimp only
    rw [Function.update_of_ne (by omega)]
    exact h.first
  slot j id' addr' hj := by
    dsimp only
    rw [h.count]
    by_cases hlast : j < logins.length
    · rw [List.getElem?_append_left hlast] at hj
      rw [Function.update_of_ne (by omega)]
      exact h.slot j id' addr' hj
    · rw [List.getElem?_append_right (by omega), List.getElem?_singleton] at hj
      split at hj
      · rename_i hzero
        obtain ⟨rfl, rfl⟩ := Prod.mk.inj (Option.some.inj hj)
        have hj : j = logins.length := by omega
        rw [hj, Function.update_self]
        exact ⟨hid, haddr⟩
      · exact absurd hj (by simp)

theorem Shows.stamp (h : Shows s logins) (i : ℕ) (now : ℤ) :
    Shows { s with table := Function.update s.table i { s.table i with stamp := now } } logins := by
  have hsame : ∀ j, (Function.update s.table i { s.table i with stamp := now } j).clientId =
      (s.table j).clientId ∧
        (Function.update s.table i { s.table i with stamp := now } j).addr = (s.table j).addr := by
    intro j
    by_cases hj : j = i
    · rw [hj, Function.update_self]
      exact ⟨rfl, rfl⟩
    · rw [Function.update_of_ne hj]
      exact ⟨rfl, rfl⟩
  refine ⟨h.count, ?_, ?_⟩
  · dsimp only
    rw [(hsame 0).1, (hsame 0).2]
    exact h.first
  · intro j id addr hj
    dsimp only
    rw [(hsame (j + 1)).1, (hsame (j + 1)).2]
    exact h.slot j id addr hj

/-! ## A lookup -/

theorem getIndexByClientid_eq_ok : getIndexByClientid s id = .ok i ↔
    i < s.clientCount ∧ (s.table i).clientId = id ∧ ∀ j < i, (s.table j).clientId ≠ id := by
  have hfind : getIndexByClientid s id = .ok i ↔
      (List.range s.clientCount).find? (fun i => (s.table i).clientId = id) = some i := by
    rw [getIndexByClientid]
    cases (List.range s.clientCount).find? (fun i => (s.table i).clientId = id) <;> simp
  rw [hfind, List.find?_range_eq_some]
  simp only [decide_eq_true_eq, List.mem_range, Bool.not_eq_true', decide_eq_false_iff_not]
  tauto

theorem getIndexByClientid_eq_error (h : ∀ j < s.clientCount, (s.table j).clientId ≠ id) :
    getIndexByClientid s id = .error .noReturnValue := by
  have hnone : (List.range s.clientCount).find? (fun i => (s.table i).clientId = id) = none := by
    rw [List.find?_eq_none]
    intro j hj
    rw [decide_eq_true_eq]
    exact h j (List.mem_range.mp hj)
  rw [getIndexByClientid, hnone]

/-- Before the first login of a client no slot has its id. -/
theorem Shows.before_first {before after : Logins} (h : Shows s (before ++ (id, addr) :: after))
    (hid : id ≠ fun _ => 0) (hbefore : ∀ l ∈ before, l.1 ≠ id) :
    ∀ j < before.length + 1, (s.table j).clientId ≠ id := by
  intro j hj
  cases j with
  | zero =>
    rw [h.first.1]
    exact hid.symm
  | succ j =>
    have hlt : j < before.length := by omega
    have hget : (before ++ (id, addr) :: after)[j]? = some (before[j].1, before[j].2) := by
      rw [List.getElem?_append_left hlt, List.getElem?_eq_getElem hlt]
    rw [(h.slot j _ _ hget).1]
    exact hbefore _ (List.getElem_mem hlt)

/-- A client is found in the slot of its first login, unless that was the last login of all. -/
theorem Shows.lookup {before after : Logins} (h : Shows s (before ++ (id, addr) :: after))
    (hid : id ≠ fun _ => 0) (hbefore : ∀ l ∈ before, l.1 ≠ id) :
    (after ≠ [] → getIndexByClientid s id = .ok (before.length + 1)) ∧
      (after = [] → getIndexByClientid s id = .error .noReturnValue) ∧
      (s.table (before.length + 1)).clientId = id ∧
      (s.table (before.length + 1)).addr = addrToArray addr := by
  have hslot := h.slot before.length id addr (by simp)
  have hcount := h.count
  rw [List.length_append, List.length_cons] at hcount
  refine ⟨?_, ?_, hslot⟩
  · intro hafter
    have hpos := List.length_pos_of_ne_nil hafter
    rw [getIndexByClientid_eq_ok]
    exact ⟨by omega, hslot.1, h.before_first hid hbefore⟩
  · rintro rfl
    apply getIndexByClientid_eq_error
    rw [hcount]
    exact h.before_first hid hbefore

/-- The id 0 is found in the slot before the first. -/
theorem Shows.lookup_zero (h : Shows s logins) (hne : logins ≠ []) :
    getIndexByClientid s (fun _ => 0) = .ok 0 := by
  have hpos := List.length_pos_of_ne_nil hne
  rw [getIndexByClientid_eq_ok, h.count]
  exact ⟨hpos, h.first.1, fun j hj => absurd hj (Nat.not_lt_zero j)⟩

/-- The logins of a client that has logged in, around its first one. -/
theorem Logins.exists_first (h : ∃ addr, (id, addr) ∈ logins) :
    ∃ before addr after, logins = before ++ (id, addr) :: after ∧ ∀ l ∈ before, l.1 ≠ id := by
  obtain ⟨addr, hmem⟩ := h
  have hsome : (logins.find? (fun l => l.1 = id)).isSome := by
    rw [List.find?_isSome]
    exact ⟨_, hmem, by simp⟩
  obtain ⟨⟨id', addr'⟩, hfind⟩ := Option.isSome_iff_exists.mp hsome
  obtain ⟨hid, before, after, rfl, hbefore⟩ := List.find?_eq_some_iff_append.mp hfind
  obtain rfl : id' = id := of_decide_eq_true hid
  refine ⟨before, addr', after, rfl, ?_⟩
  intro l hl
  have hl := hbefore l hl
  simpa using hl

theorem Logins.mem_of_latest (h : logins.latest id = some addr) : (id, addr) ∈ logins := by
  obtain ⟨l, hfind, rfl⟩ := Option.map_eq_some_iff.mp h
  have hid : l.1 = id := by simpa using List.find?_some hfind
  have hmem := List.mem_reverse.mp (List.mem_of_find?_eq_some hfind)
  rw [← hid]
  exact hmem

/-- The first login of a client is in one place. -/
theorem Logins.first_unique {before after before' after' : Logins}
    (hbefore : ∀ l ∈ before, l.1 ≠ id) (hbefore' : ∀ l ∈ before', l.1 ≠ id)
    (heq : before ++ (id, addr) :: after = before' ++ (id, addr') :: after') :
    before = before' ∧ addr = addr' ∧ after = after' := by
  have htake : ∀ (b : Logins) (a : SockaddrIn) (rest : Logins), (∀ l ∈ b, l.1 ≠ id) →
      (b ++ (id, a) :: rest).takeWhile (fun l => decide (l.1 ≠ id)) = b := by
    intro b a rest hb
    rw [List.takeWhile_append_of_pos (fun l hl => decide_eq_true (hb l hl)),
      List.takeWhile_cons_of_neg (by simp), List.append_nil]
  have hsame := htake before addr after hbefore
  rw [heq, htake before' addr' after' hbefore'] at hsame
  subst hsame
  obtain ⟨hlogin, hafter⟩ := List.cons.inj (List.append_cancel_left heq)
  exact ⟨rfl, (Prod.mk.inj hlogin).2, hafter⟩

theorem Logins.followedFrom_iff {before after : Logins} (hbefore : ∀ l ∈ before, l.1 ≠ id) :
    Logins.FollowedFrom (before ++ (id, addr) :: after) id addr' ↔ addr' = addr ∧ after ≠ [] := by
  constructor
  · rintro ⟨before', after', heq, hbefore', hafter'⟩
    obtain ⟨-, rfl, rfl⟩ := Logins.first_unique hbefore hbefore' heq
    exact ⟨rfl, hafter'⟩
  · rintro ⟨rfl, hafter⟩
    exact ⟨before, after, rfl, hbefore, hafter⟩

theorem addrToArray_eq_zero_iff : addrToArray addr = (fun _ => 0) ↔
    addr = ⟨fun _ => 0, fun _ => 0⟩ := by
  have hzero : addrToArray ⟨fun _ => 0, fun _ => 0⟩ = fun _ => 0 := by
    funext j
    simp [addrToArray]
  rw [← hzero, addrToArray_injective.eq_iff]

/-- A lookup gives a slot with the address of the latest login exactly if the client is listed with
it. -/
theorem Shows.lookup_iff (h : Shows s logins) (hlatest : logins.latest id = some addr) :
    (∃ i, getIndexByClientid s id = .ok i ∧ (s.table i).addr = addrToArray addr) ↔
      logins.Listed id addr := by
  have hmem := Logins.mem_of_latest hlatest
  by_cases hid : id = fun _ => 0
  · subst hid
    have hzero := h.lookup_zero (List.ne_nil_of_mem hmem)
    rw [Logins.Listed, hzero]
    constructor
    · rintro ⟨i, hok, haddr⟩
      obtain rfl := Except.ok.inj hok
      rw [h.first.2] at haddr
      exact .inr ⟨rfl, addrToArray_eq_zero_iff.mp haddr.symm⟩
    · rintro (⟨habsurd, -⟩ | ⟨-, rfl⟩)
      · exact absurd rfl habsurd
      · exact ⟨0, rfl, h.first.2.trans (addrToArray_eq_zero_iff.mpr rfl).symm⟩
  · obtain ⟨before, addr', after, rfl, hbefore⟩ := Logins.exists_first ⟨addr, hmem⟩
    obtain ⟨hfound, hlost, -, haddr'⟩ := h.lookup hid hbefore
    rw [Logins.Listed, Logins.followedFrom_iff hbefore]
    constructor
    · rintro ⟨i, hok, haddr⟩
      have hafter : after ≠ [] := by
        intro hafter
        rw [hlost hafter] at hok
        exact absurd hok (by simp)
      rw [hfound hafter] at hok
      obtain rfl := Except.ok.inj hok
      exact .inl ⟨hid, addrToArray_injective (haddr.symm.trans haddr'), hafter⟩
    · rintro (⟨-, rfl, hafter⟩ | ⟨hzero, -⟩)
      · exact ⟨_, hfound hafter, haddr'⟩
      · exact absurd hzero hid

/-! ## Turns on well-formed datagrams -/

theorem kingBufferParser_login : kingBufferParser s (loginDatagram id) addr now =
    if s.clientCount + 1 < kingClientMax then
      .ok (⟨Function.update s.table (s.clientCount + 1) { s.table (s.clientCount + 1) with
        clientId := id, addr := addrToArray addr }, s.clientCount + 1⟩, [])
    else .error .outsideTable := by
  have hstatus : statusOf (loginDatagram id) = kingProtoLoginReq := statusOf_idDatagram
  rw [kingBufferParser, if_pos hstatus, loginDatagram, selfid_idDatagram]

theorem kingBufferParser_heartbeat : kingBufferParser s (heartbeatDatagram id) addr now =
    getIndexByClientid s id >>= fun index => .ok ({ s with
      table := Function.update s.table index { s.table index with stamp := now } }, []) := by
  have hstatus : statusOf (heartbeatDatagram id) = kingProtoHeartbeatReq := statusOf_idDatagram
  rw [kingBufferParser, hstatus, if_neg (by decide), if_pos rfl, heartbeatDatagram,
    selfid_idDatagram]

theorem kingBufferParser_connect : kingBufferParser s (connectDatagram id id') addr now =
    kingSendNotify s id' id >>= fun sent => .ok (s, [sent]) := by
  rw [kingBufferParser, statusOf_connectDatagram, if_neg (by decide), if_neg (by decide),
    if_pos rfl, selfid_connectDatagram, otherid_connectDatagram]

theorem serve_heartbeat (hok : getIndexByClientid s id = .ok i) :
    serve s (Event.received ⟨.heartbeat id, addr, now⟩) = .ok
      ({ s with table := Function.update s.table i { s.table i with stamp := now } },
        [⟨acknowledged (heartbeatDatagram id), addr⟩]) := by
  rw [serve, Event.received, Request.datagram, kingBufferParser_heartbeat, hok, ok_bind, ok_bind]
  rfl

theorem serve_heartbeat_error {fault : Fault} (herror : getIndexByClientid s id = .error fault) :
    serve s (Event.received ⟨.heartbeat id, addr, now⟩) = .error fault := by
  rw [serve, Event.received, Request.datagram, kingBufferParser_heartbeat, herror, error_bind,
    error_bind]

theorem serve_connect (hserve : serve s (Event.received ⟨.connect id id', addr, now⟩) =
    .ok (s', sent)) :
    s' = s ∧ ∃ i j, getIndexByClientid s id = .ok i ∧ getIndexByClientid s id' = .ok j ∧
      sent = [⟨notifyDatagram id (s.table i).addr, arrayToAddr (s.table j).addr⟩,
        ⟨acknowledged (connectDatagram id id'), addr⟩] := by
  rw [serve, Event.received, Request.datagram, kingBufferParser_connect] at hserve
  obtain ⟨out, hparser, hout⟩ := bind_eq_ok hserve
  obtain ⟨notify, hnotify, hpair⟩ := bind_eq_ok hparser
  rw [kingSendNotify] at hnotify
  obtain ⟨i, hi, hnotify⟩ := bind_eq_ok hnotify
  obtain ⟨j, hj, hnotify⟩ := bind_eq_ok hnotify
  obtain rfl := Except.ok.inj hnotify
  obtain rfl := Except.ok.inj hpair
  obtain ⟨rfl, rfl⟩ := Prod.mk.inj (Except.ok.inj hout)
  exact ⟨rfl, i, j, hi, hj, rfl⟩

theorem serve_connect_ok {j : ℕ} (hi : getIndexByClientid s id = .ok i)
    (hj : getIndexByClientid s id' = .ok j) :
    serve s (Event.received ⟨.connect id id', addr, now⟩) = .ok (s,
      [⟨notifyDatagram id (s.table i).addr, arrayToAddr (s.table j).addr⟩,
        ⟨acknowledged (connectDatagram id id'), addr⟩]) := by
  rw [serve, Event.received, Request.datagram, kingBufferParser_connect, kingSendNotify, hi, ok_bind,
    hj, ok_bind]
  rfl

/-- A turn keeps the table and the logins together. -/
theorem Shows.serve {e : Event} (h : Shows s logins)
    (hserve : serve s e.received = .ok (s', sent)) :
    Shows s' (logins ++ e.login.toList) := by
  obtain ⟨request, addr, now⟩ := e
  cases request with
  | login id =>
    rw [P2p.serve, Event.received, Request.datagram, kingBufferParser_login] at hserve
    split at hserve
    · rw [ok_bind] at hserve
      rw [← (Prod.mk.inj (Except.ok.inj hserve)).1]
      exact h.login _ rfl rfl
    · rw [error_bind] at hserve
      exact absurd hserve (by simp)
  | heartbeat id =>
    have hnone : Event.login ⟨.heartbeat id, addr, now⟩ = none := rfl
    rw [hnone, Option.toList_none, List.append_nil]
    cases hindex : getIndexByClientid s id with
    | ok i =>
      rw [serve_heartbeat hindex] at hserve
      rw [← (Prod.mk.inj (Except.ok.inj hserve)).1]
      exact h.stamp i now
    | error fault =>
      rw [serve_heartbeat_error hindex] at hserve
      exact absurd hserve (by simp)
  | connect id id' =>
    have hnone : Event.login ⟨.connect id id', addr, now⟩ = none := rfl
    rw [hnone, Option.toList_none, List.append_nil, (serve_connect hserve).1]
    exact h

/-! ## Runs -/

theorem Shows.serveAll {history : List Event} (h : Shows s logins)
    (hserve : serveAll s (history.map Event.received) = .ok s') :
    Shows s' (logins ++ loginsOf history) := by
  induction history generalizing s logins with
  | nil =>
    obtain rfl := Except.ok.inj hserve
    rw [loginsOf, List.filterMap_nil, List.append_nil]
    exact h
  | cons e history ih =>
    obtain ⟨out, hfirst, hrest⟩ := bind_eq_ok hserve
    have hlater := ih (h.serve hfirst) hrest
    rw [List.append_assoc] at hlater
    have hlogins : loginsOf (e :: history) = e.login.toList ++ loginsOf history := by
      rw [loginsOf, List.filterMap_cons]
      cases e.login <;> rfl
    rw [hlogins]
    exact hlater

/-- The notifications among some datagrams. -/
def notifies (sent : List Sent) : List Sent :=
  sent.filter (fun d => statusOf d.datagram = ntyProtoNotifyReq)

theorem notifies_connect {d : Sent} (hd : statusOf d.datagram = ntyProtoNotifyReq) :
    notifies [d, ⟨acknowledged (connectDatagram id id'), addr⟩] = [d] := by
  have hack : statusOf (acknowledged (connectDatagram id id')) = kingProtoConnectAck := by
    rw [statusOf_acknowledged (by simp [connectDatagram, header]), statusOf_connectDatagram]
    rfl
  have hne : ¬ kingProtoConnectAck = ntyProtoNotifyReq := by decide
  simp [notifies, hd, hack, hne]

/-- A CONNECT is served with the one notification, to the latest address of the client that it
names and with the latest address of the client that it comes from. -/
def Introduces (s : Server) (a b : ClientId) (addrA addrB addr : SockaddrIn) (now : ℤ) : Prop :=
  ∃ s' sent, serve s (Event.received ⟨.connect a b, addr, now⟩) = .ok (s', sent) ∧
    notifies sent = [⟨notifyDatagram a (addrToArray addrA), addrB⟩]

theorem Shows.introduces_iff (h : Shows s logins) {a b : ClientId} {addrA addrB : SockaddrIn}
    (ha : logins.latest a = some addrA) (hb : logins.latest b = some addrB) :
    Introduces s a b addrA addrB addr now ↔ logins.Listed a addrA ∧ logins.Listed b addrB := by
  rw [← h.lookup_iff ha, ← h.lookup_iff hb]
  constructor
  · rintro ⟨s', sent, hserve, hnotify⟩
    obtain ⟨-, i, j, hi, hj, rfl⟩ := serve_connect hserve
    rw [notifies_connect statusOf_notifyDatagram] at hnotify
    obtain ⟨hdatagram, hdest⟩ := Sent.mk.inj (List.cons.inj hnotify).1
    refine ⟨⟨i, hi, notifyDatagram_inj.mp hdatagram⟩, j, hj, ?_⟩
    rw [← hdest, addrToArray_arrayToAddr]
  · rintro ⟨⟨i, hi, haddrA⟩, j, hj, haddrB⟩
    refine ⟨s, _, serve_connect_ok hi hj, ?_⟩
    rw [notifies_connect statusOf_notifyDatagram, haddrA, haddrB, arrayToAddr_addrToArray]

/-- A HEARTBEAT, whenever it comes, stamps one slot that meets a condition, and changes nothing
else. -/
def Stamps (s : Server) (id : ClientId) (addr : SockaddrIn) (P : ℕ → Prop) : Prop :=
  ∀ now, ∃ i sent, P i ∧ serve s (Event.received ⟨.heartbeat id, addr, now⟩) = .ok
    ({ s with table := Function.update s.table i { s.table i with stamp := now } }, sent)

theorem stamps_iff {P : ℕ → Prop} (hok : getIndexByClientid s id = .ok i) :
    Stamps s id addr P ↔ P i := by
  constructor
  · intro hstamps
    -- at a time that is not the stamp of the slot
    obtain ⟨j, sent, hj, hserve⟩ := hstamps ((s.table i).stamp + 1)
    rw [serve_heartbeat hok] at hserve
    have htable := congrArg Server.table (Prod.mk.inj (Except.ok.inj hserve)).1
    have hstamp := congrArg ClientTable.stamp (congrFun htable i)
    simp only [Function.update_self] at hstamp
    by_cases hij : i = j
    · rw [hij]
      exact hj
    · rw [Function.update_of_ne hij] at hstamp
      omega
  · intro hi now
    exact ⟨i, _, hi, serve_heartbeat hok⟩

theorem not_stamps {P : ℕ → Prop} {fault : Fault} (herror : getIndexByClientid s id = .error fault) :
    ¬ Stamps s id addr P := by
  intro hstamps
  obtain ⟨j, sent, -, hserve⟩ := hstamps 0
  rw [serve_heartbeat_error herror] at hserve
  exact absurd hserve (by simp)

/-- The slot of a login of the client. -/
def Server.SlotOf (s : Server) (id : ClientId) (i : ℕ) : Prop :=
  1 ≤ i ∧ i ≤ s.clientCount ∧ (s.table i).clientId = id

/-- The slot of the latest login of the client. -/
def Logins.LatestSlot (logins : Logins) (id : ClientId) (i : ℕ) : Prop :=
  ∃ before addr after, logins = before ++ (id, addr) :: after ∧ (∀ l ∈ after, l.1 ≠ id) ∧
    i = before.length + 1

/-- The client has logged in once, and a login of another client came after it. -/
def Logins.OnceFollowed (logins : Logins) (id : ClientId) : Prop :=
  ∃ before addr after, logins = before ++ (id, addr) :: after ∧ (∀ l ∈ before, l.1 ≠ id) ∧
    (∀ l ∈ after, l.1 ≠ id) ∧ after ≠ []

theorem Shows.stamps_own_iff (h : Shows s logins) (hmem : ∃ latest, (id, latest) ∈ logins) :
    Stamps s id addr (s.SlotOf id) ↔
      id ≠ (fun _ => 0) ∧ ∃ first, logins.FollowedFrom id first := by
  by_cases hid : id = fun _ => 0
  · subst hid
    obtain ⟨latest, hmem⟩ := hmem
    rw [stamps_iff (h.lookup_zero (List.ne_nil_of_mem hmem))]
    exact iff_of_false (fun hslot => absurd hslot.1 (by omega)) (fun habsurd => habsurd.1 rfl)
  · obtain ⟨before, first, after, rfl, hbefore⟩ := Logins.exists_first hmem
    obtain ⟨hfound, hlost, hslot, -⟩ := h.lookup hid hbefore
    have hcount := h.count
    rw [List.length_append, List.length_cons] at hcount
    by_cases hafter : after = []
    · refine iff_of_false (not_stamps (hlost hafter)) ?_
      rintro ⟨-, first', hfollowed⟩
      exact ((Logins.followedFrom_iff hbefore).mp hfollowed).2 hafter
    · rw [stamps_iff (hfound hafter)]
      refine iff_of_true ⟨by omega, by omega, hslot⟩ ⟨hid, first, ?_⟩
      exact (Logins.followedFrom_iff hbefore).mpr ⟨rfl, hafter⟩

theorem Shows.stamps_latest_iff (h : Shows s logins) (hmem : ∃ latest, (id, latest) ∈ logins) :
    Stamps s id addr (logins.LatestSlot id) ↔ id ≠ (fun _ => 0) ∧ logins.OnceFollowed id := by
  by_cases hid : id = fun _ => 0
  · subst hid
    obtain ⟨latest, hmem⟩ := hmem
    rw [stamps_iff (h.lookup_zero (List.ne_nil_of_mem hmem))]
    refine iff_of_false ?_ (fun habsurd => habsurd.1 rfl)
    rintro ⟨before, addr, after, -, -, hzero⟩
    omega
  · obtain ⟨before, first, after, rfl, hbefore⟩ := Logins.exists_first hmem
    obtain ⟨hfound, hlost, -⟩ := h.lookup hid hbefore
    by_cases hafter : after = []
    · refine iff_of_false (not_stamps (hlost hafter)) ?_
      rintro ⟨-, before', first', after', heq, hbefore', -, hafter'⟩
      exact hafter' ((Logins.first_unique hbefore hbefore' heq).2.2 ▸ hafter)
    · rw [stamps_iff (hfound hafter)]
      constructor
      · rintro ⟨before', first', after', heq, hlast, hlength⟩
        obtain ⟨rfl, hcons⟩ := List.append_inj heq (by omega)
        obtain ⟨-, rfl⟩ := List.cons.inj hcons
        exact ⟨hid, before, first, after, rfl, hbefore, hlast, hafter⟩
      · rintro ⟨-, before', first', after', heq, hbefore', hlast, -⟩
        obtain ⟨rfl, rfl, rfl⟩ := Logins.first_unique hbefore hbefore' heq
        exact ⟨before, first, after, rfl, hlast, rfl⟩

/-- After any history of well-formed datagrams that the server has served, a CONNECT between two
clients that have logged in introduces them exactly if both are listed with their latest address.
A HEARTBEAT of a client that has logged in refreshes a slot of this client exactly if its id is
not 0 and its first login was not the last login of all, and it is the slot of its latest login
exactly if, moreover, it has logged in once. -/
theorem served_right_iff (history : List Event)
    (hserve : serveAll .start (history.map Event.received) = .ok s) :
    (∀ a b addrA addrB addr now, (loginsOf history).latest a = some addrA →
      (loginsOf history).latest b = some addrB →
        (Introduces s a b addrA addrB addr now ↔
          (loginsOf history).Listed a addrA ∧ (loginsOf history).Listed b addrB)) ∧
      ∀ id latest addr, (loginsOf history).latest id = some latest →
        (Stamps s id addr (s.SlotOf id) ↔
          id ≠ (fun _ => 0) ∧ ∃ first, (loginsOf history).FollowedFrom id first) ∧
        (Stamps s id addr ((loginsOf history).LatestSlot id) ↔
          id ≠ (fun _ => 0) ∧ (loginsOf history).OnceFollowed id) := by
  have h : Shows s (loginsOf history) := Shows.start.serveAll hserve
  refine ⟨?_, ?_⟩
  · intro a b addrA addrB addr now ha hb
    exact h.introduces_iff ha hb
  · intro id latest addr hlatest
    have hmem : ∃ latest, (id, latest) ∈ loginsOf history := ⟨latest, Logins.mem_of_latest hlatest⟩
    exact ⟨h.stamps_own_iff hmem, h.stamps_latest_iff hmem⟩

/-! ## Two histories -/

/-- The id `n`. -/
def idOf (n : UInt8) : ClientId := fun i => if i.val = 0 then n else 0

def host (n : UInt8) : SockaddrIn := ⟨fun _ => n, fun _ => n⟩

/-- Three clients log in. -/
def threeLogins : List Event :=
  [⟨.login (idOf 1), host 1, 0⟩, ⟨.login (idOf 2), host 2, 0⟩, ⟨.login (idOf 3), host 3, 0⟩]

theorem served_right_three :
    ∃ s, serveAll .start (threeLogins.map Event.received) = .ok s ∧
      Introduces s (idOf 1) (idOf 2) (host 1) (host 2) (host 1) 0 := by
  refine ⟨_, rfl, ?_⟩
  refine ((served_right_iff threeLogins rfl).1 _ _ _ _ _ _ (by decide) (by decide)).mpr ⟨?_, ?_⟩
  · exact .inl ⟨by decide, [], [(idOf 2, host 2), (idOf 3, host 3)], rfl, by simp, by simp⟩
  · exact .inl ⟨by decide, [(idOf 1, host 1)], [(idOf 3, host 3)], rfl, by decide, by simp⟩

/-- The client 1 logs in again from another address before the others do. -/
def loginAgain : List Event :=
  [⟨.login (idOf 1), host 1, 0⟩, ⟨.login (idOf 1), host 4, 0⟩, ⟨.login (idOf 2), host 2, 0⟩,
    ⟨.login (idOf 3), host 3, 0⟩]

/-- The server after these logins. -/
def loggedInAgain : Server :=
  match serveAll .start (loginAgain.map Event.received) with
  | .ok s => s
  | .error _ => .start

/-- The notification carries the address of the first login of the client 1. -/
theorem stale_login_introduced :
    serveAll .start (loginAgain.map Event.received) = .ok loggedInAgain ∧
      (loginsOf loginAgain).latest (idOf 1) = some (host 4) ∧
      (loginsOf loginAgain).latest (idOf 2) = some (host 2) ∧
      ¬ Introduces loggedInAgain (idOf 1) (idOf 2) (host 4) (host 2) (host 4) 0 := by
  refine ⟨rfl, by decide, by decide, ?_⟩
  rintro ⟨s', sent, hserve, hnotify⟩
  have hfirst : getIndexByClientid loggedInAgain (idOf 1) = .ok 1 := by decide
  have hsecond : getIndexByClientid loggedInAgain (idOf 2) = .ok 3 := by decide
  rw [serve_connect_ok hfirst hsecond] at hserve
  obtain ⟨-, rfl⟩ := Prod.mk.inj (Except.ok.inj hserve)
  rw [notifies_connect statusOf_notifyDatagram] at hnotify
  exact absurd (Sent.mk.inj (List.cons.inj hnotify).1).1 (by decide)

end CServer.P2p
