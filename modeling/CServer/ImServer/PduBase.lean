import CServer.Foundation.Extents
import CServer.Foundation.Fallible
import CServer.Foundation.Framing
import Mathlib.Algebra.Group.Nat.Defs
import Mathlib.Algebra.Ring.Int.Defs

/-!
# The receiving thread of the IM server

`recv_msg` of server.cc over the buffer of UtilPdu.cc and the PDUs of ImPduBase.cc. A block is the
list of its bytes, and the null pointer is the empty block. `realloc` and `new` are taken to
succeed. The log says what the handlers are called with; what they print is left out.
-/
namespace CServer.ImServer
open CServer.Extents

abbrev Bytes := List UInt8

/-- A copy that leaves a block, the exception of `IsPduAvailable`, and a loop that has not ended
after as many turns as the model grants it. -/
inductive Failure where
  | outside
  | pduException (errorCode : ℕ) (errorMsg : String)
  | stillRunning
  deriving DecidableEq, Repr

/-- What a `realloc` leaves behind the bytes that it keeps: any bytes, that may depend on the old
block and on the size. -/
abbrev Behind := Bytes → ℕ → ℕ → UInt8

def realloc (behind : Behind) (block : Bytes) (n : ℕ) : Bytes :=
  block.take n ++ (List.range (n - block.length)).map (behind block n)

def memcpy (block : Bytes) (offset : ℕ) (source : Bytes) (n : ℕ) : Except Failure Bytes :=
  if n ≤ source.length ∧ offset + n ≤ block.length then .ok (put block offset (source.take n))
  else .error .outside

/-- The difference of two values of the type `uint32_t`. -/
def subUint32 (a b : ℕ) : ℕ := (a + 2 ^ 32 - b) % 2 ^ 32

/-- The value as an `int`. -/
def toInt (n : ℕ) : ℤ := Int.bmod n (2 ^ 32)

/-! ## CSimpleBuffer -/

/-- `m_buffer`, which has `m_alloc_size` bytes, and `m_write_offset`. -/
structure CSimpleBuffer where
  mBuffer : Bytes
  mWriteOffset : ℕ

namespace CSimpleBuffer

def empty : CSimpleBuffer := ⟨[], 0⟩

def getAllocSize (b : CSimpleBuffer) : ℕ := b.mBuffer.length

/-- The bytes in front of the write offset. -/
def content (b : CSimpleBuffer) : Bytes := b.mBuffer.take b.mWriteOffset

def extend (behind : Behind) (b : CSimpleBuffer) (len : ℕ) : CSimpleBuffer :=
  let allocSize := (b.mWriteOffset + len) % 2 ^ 32
  let allocSize := (allocSize + allocSize >>> 2) % 2 ^ 32
  { b with mBuffer := realloc behind b.mBuffer allocSize }

def incWriteOffset (b : CSimpleBuffer) (len : ℕ) : CSimpleBuffer :=
  { b with mWriteOffset := (b.mWriteOffset + len) % 2 ^ 32 }

def write (behind : Behind) (b : CSimpleBuffer) (buf : Bytes) (len : ℕ) :
    Except Failure CSimpleBuffer := do
  let b := if (b.mWriteOffset + len) % 2 ^ 32 > b.getAllocSize then b.extend behind len else b
  let mBuffer ← memcpy b.mBuffer b.mWriteOffset buf len
  .ok ({ b with mBuffer := mBuffer }.incWriteOffset len)

/-- `Read` with the null pointer for `buf`. -/
def read (b : CSimpleBuffer) (len : ℕ) : Except Failure CSimpleBuffer :=
  if len = 0 then .ok b
  else do
    let len := if len > b.mWriteOffset then b.mWriteOffset else len
    let mWriteOffset := b.mWriteOffset - len
    let mBuffer ← memcpy b.mBuffer 0 (b.mBuffer.drop len) mWriteOffset
    .ok ⟨mBuffer, mWriteOffset⟩

end CSimpleBuffer

/-! ## CImPdu -/

def imPduHeaderLen : ℕ := 16

/-- `buf[i]`. -/
def byteAt (buf : Bytes) (i : ℕ) : ℕ := (buf.getD i 0).toNat

def readUint16 (buf : Bytes) (pos : ℕ) : ℕ :=
  byteAt buf pos <<< 8 ||| byteAt buf (pos + 1)

def readUint32 (buf : Bytes) (pos : ℕ) : ℕ :=
  byteAt buf pos <<< 24 ||| byteAt buf (pos + 1) <<< 16 ||| byteAt buf (pos + 2) <<< 8 |||
    byteAt buf (pos + 3)

/-- `PduHeader_t`. -/
structure PduHeader where
  length : ℕ
  version : ℕ
  flag : ℕ
  serviceId : ℕ
  commandId : ℕ
  seqNum : ℕ
  reversed : ℕ

/-- `ReadPduHeader` of a buffer with a whole header. -/
def readPduHeader (buf : Bytes) : PduHeader where
  length := readUint32 buf 0
  version := readUint16 buf 4
  flag := readUint16 buf 6
  serviceId := readUint16 buf 8
  commandId := readUint16 buf 10
  seqNum := readUint16 buf 12
  reversed := readUint16 buf 14

structure CImPdu where
  mBuf : CSimpleBuffer
  mPduHeader : PduHeader

namespace CImPdu

def getLength (pdu : CImPdu) : ℕ := pdu.mBuf.mWriteOffset

def getCommandId (pdu : CImPdu) : ℕ := pdu.mPduHeader.commandId

def getBodyLength (pdu : CImPdu) : ℕ := subUint32 pdu.mBuf.mWriteOffset imPduHeaderLen

end CImPdu

/-- The length of the PDU, if it is there. -/
def isPduAvailable (buf : Bytes) (len : ℕ) : Except Failure (Option ℕ) :=
  if len < imPduHeaderLen then .ok none
  else
    let pduLen := readUint32 buf 0
    if pduLen > len then .ok none
    else if pduLen = 0 then .error (.pduException 1 "pdu_len is 0")
    else .ok (some pduLen)

def readPdu (behind : Behind) (buf : Bytes) (len : ℕ) : Except Failure (Option CImPdu) := do
  match ← isPduAvailable buf len with
  | none => .ok none
  | some pduLen =>
    let mBuf ← CSimpleBuffer.empty.write behind buf pduLen
    .ok (some ⟨mBuf, readPduHeader buf⟩)

/-! ## recv_msg -/

inductive Handler where
  | handleLoginRequest
  | handleClientMsgData
  | cannotHandle
  deriving DecidableEq, Repr

def cidLoginReqUserlogin : ℕ := 0x0103
def cidMsgData : ℕ := 0x0301

/-- The `switch` over the command id. -/
def handlerOf (commandId : ℕ) : Handler :=
  if commandId = cidLoginReqUserlogin then .handleLoginRequest
  else if commandId = cidMsgData then .handleClientMsgData
  else .cannotHandle

/-- A turn of the inner loop: the handler, the bytes of the PDU, the size of the body as the
handler hands it to `ParseFromArray`, and by how much the turn has shortened what is buffered. -/
structure Turn where
  handler : Handler
  pdu : Bytes
  bodySize : ℤ
  removed : ℤ

/-- The bytes that the handler lets parse, which start at `GetBodyData`. -/
def Turn.body (t : Turn) : Bytes := (t.pdu.drop imPduHeaderLen).take t.bodySize.toNat

def readBufSize : ℕ := 2048

/-- The inner loop, as long as it makes fewer turns than `turns`. -/
def handlePdus (behind : Behind) : ℕ → CSimpleBuffer → Except Failure (CSimpleBuffer × List Turn)
  | 0, _ => .error .stillRunning
  | turns + 1, mInBuf => do
    match ← readPdu behind mInBuf.mBuffer mInBuf.mWriteOffset with
    | none => .ok (mInBuf, [])
    | some pdu =>
      let shorter ← mInBuf.read pdu.getLength
      let out ← handlePdus behind turns shorter
      .ok (out.1, ⟨handlerOf pdu.getCommandId, pdu.mBuf.content, toInt pdu.getBodyLength,
        mInBuf.mWriteOffset - shorter.mWriteOffset⟩ :: out.2)

/-- What the outer loop does for the result of a `recv`, which asks for `READ_BUF_SIZE` bytes. -/
def receive (behind : Behind) (turns : ℕ) (mInBuf : CSimpleBuffer) (received : Bytes) :
    Except Failure (CSimpleBuffer × List Turn) := do
  let freeBufLen := subUint32 mInBuf.getAllocSize mInBuf.mWriteOffset
  let mInBuf := if freeBufLen < readBufSize then mInBuf.extend behind readBufSize else mInBuf
  let mBuffer ← memcpy mInBuf.mBuffer mInBuf.mWriteOffset received received.length
  handlePdus behind turns ({ mInBuf with mBuffer := mBuffer }.incWriteOffset received.length)

/-- `recv_msg`, up to the `recv` behind the given results. -/
def recvMsg (behind : Behind) (turns : ℕ) :
    CSimpleBuffer → List Bytes → Except Failure (CSimpleBuffer × List Turn)
  | mInBuf, [] => .ok (mInBuf, [])
  | mInBuf, received :: results => do
    let out ← receive behind turns mInBuf received
    let later ← recvMsg behind turns out.1 results
    .ok (later.1, out.2 ++ later.2)

end CServer.ImServer
