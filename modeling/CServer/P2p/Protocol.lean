import Mathlib.Data.Fintype.Pi
import Mathlib.Data.List.OfFn

/-!
# The datagrams of p2p.h

An id and an address are the bytes that they have in memory. A datagram is read as far as a
well-formed one of its kind reaches; a byte behind its end is taken for zero.
-/
namespace CServer.P2p

abbrev Bytes := List UInt8

/-- The four bytes of an id. -/
abbrev ClientId := Fin 4 → UInt8

/-- The address and the port of a `struct sockaddr_in`, whose family is always `AF_INET`. -/
@[ext]
structure SockaddrIn where
  sAddr : Fin 4 → UInt8
  sinPort : Fin 2 → UInt8

-- The derived instance casts along an equality of functions, and does not compute.
instance : DecidableEq SockaddrIn := fun _ _ => decidable_of_iff _ SockaddrIn.ext_iff.symm

/-- The address as an entry of a table has it. -/
abbrev AddrArray := Fin 6 → UInt8

def addrToArray (p : SockaddrIn) : AddrArray := fun i =>
  if h : i.val < 4 then p.sAddr ⟨i.val, h⟩ else p.sinPort ⟨i.val - 4, by omega⟩

def arrayToAddr (array : AddrArray) : SockaddrIn :=
  ⟨fun i => array ⟨i.val, by omega⟩, fun i => array ⟨4 + i.val, by omega⟩⟩

@[simp] theorem arrayToAddr_addrToArray (p : SockaddrIn) : arrayToAddr (addrToArray p) = p := by
  cases p with
  | mk sAddr sinPort =>
    simp only [arrayToAddr, addrToArray, SockaddrIn.mk.injEq]
    constructor
    · funext i
      rw [dif_pos i.isLt]
    · funext i
      rw [dif_neg (by omega)]
      congr 1
      exact Fin.ext (Nat.add_sub_cancel_left 4 i.val)

@[simp] theorem addrToArray_arrayToAddr (array : AddrArray) :
    addrToArray (arrayToAddr array) = array := by
  funext i
  simp only [arrayToAddr, addrToArray]
  split
  · rfl
  · congr 1
    apply Fin.ext
    simp only
    omega

theorem addrToArray_injective : Function.Injective addrToArray :=
  Function.LeftInverse.injective arrayToAddr_addrToArray

/-! ## Kinds of datagrams -/

def kingProtoLoginReq : UInt8 := 0x01
def kingProtoLoginAck : UInt8 := 0x81
def kingProtoHeartbeatReq : UInt8 := 0x02
def kingProtoConnectReq : UInt8 := 0x11
def kingProtoConnectAck : UInt8 := 0x91
def ntyProtoNotifyReq : UInt8 := 0x12
def ntyProtoP2pConnectReq : UInt8 := 0x13
def ntyProtoP2pConnectAck : UInt8 := 0x93
def ntyRporoMessageReq : UInt8 := 0x21
def ntyRporoMessageAck : UInt8 := 0xA1

/-- `buffer[KING_PROTO_BUFFER_STATUS_IDX]`. -/
def statusOf (buffer : Bytes) : UInt8 := buffer.getD 1 0

/-- The bytes of a buffer from an index on. -/
def bytesAt (n : ℕ) (buffer : Bytes) (idx : ℕ) : Fin n → UInt8 := fun i => buffer.getD (idx + i) 0

/-- `KING_PROTO_BUFFER_SELFID_IDX`. -/
def selfidIdx : ℕ := 4

/-- `KING_PROTO_CONNECT_OTHERID_IDX`. -/
def otheridIdx : ℕ := 8

/-- `KING_PROTO_NOTIFY_ADDR_IDX`. -/
def notifyAddrIdx : ℕ := 8

/-- The first bytes of a datagram: the version, the status and the length, which only a message
sets. -/
def header (status : UInt8) : Bytes := [0, status, 0, 0]

/-- A datagram with one id in it, as `king_send_login`, `king_send_heartbeat`,
`king_send_p2pconnect` and `king_send_p2pconnectack` send it. -/
def idDatagram (status : UInt8) (selfId : ClientId) : Bytes := header status ++ List.ofFn selfId

def loginDatagram (selfId : ClientId) : Bytes := idDatagram kingProtoLoginReq selfId

def heartbeatDatagram (selfId : ClientId) : Bytes := idDatagram kingProtoHeartbeatReq selfId

def p2pConnectDatagram (selfId : ClientId) : Bytes := idDatagram ntyProtoP2pConnectReq selfId

def p2pConnectAckDatagram (selfId : ClientId) : Bytes := idDatagram ntyProtoP2pConnectAck selfId

/-- What `king_send_connect` sends. -/
def connectDatagram (selfId otherId : ClientId) : Bytes :=
  header kingProtoConnectReq ++ (List.ofFn selfId ++ List.ofFn otherId)

/-- What `king_send_notify` sends. -/
def notifyDatagram (selfId : ClientId) (addr : AddrArray) : Bytes :=
  header ntyProtoNotifyReq ++ (List.ofFn selfId ++ List.ofFn addr)

/-- The acknowledgement of the server: the datagram with 0x80 added to its status. -/
def acknowledged (buffer : Bytes) : Bytes := buffer.set 1 (statusOf buffer + 0x80)

/-- A datagram and the address it is sent to. -/
@[ext]
structure Sent where
  datagram : Bytes
  dest : SockaddrIn

instance : DecidableEq Sent := fun _ _ => decidable_of_iff _ Sent.ext_iff.symm

/-! ## Reading what was written -/

variable {status : UInt8} {x y : ClientId} {addr addr' : AddrArray}

theorem bytesAt_append {n : ℕ} (front : Bytes) (f : Fin n → UInt8) (back : Bytes) :
    bytesAt n (front ++ (List.ofFn f ++ back)) front.length = f := by
  funext i
  have hi : i.val < (List.ofFn f).length := by
    rw [List.length_ofFn]
    exact i.isLt
  rw [bytesAt, List.getD_eq_getElem?_getD, List.getElem?_append_right (Nat.le_add_right _ _),
    Nat.add_sub_cancel_left, List.getElem?_append_left hi, List.getElem?_eq_getElem hi,
    Option.getD_some, List.getElem_ofFn]

@[simp] theorem statusOf_idDatagram : statusOf (idDatagram status x) = status := rfl

@[simp] theorem statusOf_connectDatagram :
    statusOf (connectDatagram x y) = kingProtoConnectReq := rfl

@[simp] theorem statusOf_notifyDatagram :
    statusOf (notifyDatagram x addr) = ntyProtoNotifyReq := rfl

@[simp] theorem selfid_idDatagram : bytesAt 4 (idDatagram status x) selfidIdx = x := by
  have hread := bytesAt_append (header status) x []
  rwa [List.append_nil] at hread

@[simp] theorem selfid_connectDatagram : bytesAt 4 (connectDatagram x y) selfidIdx = x :=
  bytesAt_append (header kingProtoConnectReq) x (List.ofFn y)

@[simp] theorem otherid_connectDatagram : bytesAt 4 (connectDatagram x y) otheridIdx = y := by
  have hread := bytesAt_append (header kingProtoConnectReq ++ List.ofFn x) y []
  rw [List.append_nil, List.append_assoc, List.length_append, List.length_ofFn] at hread
  exact hread

@[simp] theorem addr_notifyDatagram : bytesAt 6 (notifyDatagram x addr) notifyAddrIdx = addr := by
  have hread := bytesAt_append (header ntyProtoNotifyReq ++ List.ofFn x) addr []
  rw [List.append_nil, List.append_assoc, List.length_append, List.length_ofFn] at hread
  exact hread

theorem notifyDatagram_inj : notifyDatagram x addr = notifyDatagram x addr' ↔ addr = addr' := by
  constructor
  · intro h
    have hread := congrArg (fun buffer => bytesAt 6 buffer notifyAddrIdx) h
    simpa only [addr_notifyDatagram] using hread
  · exact congrArg _

@[simp] theorem statusOf_acknowledged {buffer : Bytes} (h : 1 < buffer.length) :
    statusOf (acknowledged buffer) = statusOf buffer + 0x80 := by
  rw [statusOf, acknowledged, List.getD_eq_getElem?_getD, List.getElem?_set_self h,
    Option.getD_some]

end CServer.P2p
