import CServer.ImServer.Dispatch

/-!
# From the client to the handlers of the server

The client fills a PDU with `SetPBMsg`, which leaves room for the header in front of the message,
and then with the setters of ImPduBase.cc. What the server's handlers get is compared with what the
client was asked to send.
-/
namespace CServer.ImServer
open CServer.Extents

/-! ## CByteStream -/

/-- What `WriteUint16` puts into a buffer. -/
def bytesUint16 (data : ℕ) : Bytes := [UInt8.ofNat (data >>> 8), UInt8.ofNat (data &&& 0xFF)]

/-- What `WriteInt32` puts into a buffer. -/
def bytesUint32 (data : ℕ) : Bytes :=
  [UInt8.ofNat (data >>> 24), UInt8.ofNat (data >>> 16 &&& 0xFF), UInt8.ofNat (data >>> 8 &&& 0xFF),
    UInt8.ofNat (data &&& 0xFF)]

/-! ## The PDU on the way out -/

/-- `Write` with the null pointer for `buf`: the bytes are whatever is there. -/
def CSimpleBuffer.skip (behind : Behind) (b : CSimpleBuffer) (len : ℕ) : CSimpleBuffer :=
  let b := if (b.mWriteOffset + len) % 2 ^ 32 > b.getAllocSize then b.extend behind len else b
  b.incWriteOffset len

namespace CImPdu

def imPduVersion : ℕ := 1

def sidOther : ℕ := 0x0007

/-- `CImPdu`, which leaves the length as it finds it. -/
def new (length : ℕ) : CImPdu where
  mBuf := .empty
  mPduHeader := ⟨length, imPduVersion, 0, sidOther, 0, 0, 0⟩

/-- The bytes are written over those at `pos`. -/
def put (pdu : CImPdu) (pos : ℕ) (bytes : Bytes) : Except Failure CImPdu := do
  let mBuffer ← memcpy pdu.mBuf.mBuffer pos bytes bytes.length
  .ok { pdu with mBuf := { pdu.mBuf with mBuffer := mBuffer } }

def writeHeader (pdu : CImPdu) : Except Failure CImPdu := do
  let header := pdu.mPduHeader
  let pdu ← pdu.put 0 (bytesUint32 pdu.getLength)
  let pdu ← pdu.put 4 (bytesUint16 header.version)
  let pdu ← pdu.put 6 (bytesUint16 header.flag)
  let pdu ← pdu.put 8 (bytesUint16 header.serviceId)
  let pdu ← pdu.put 10 (bytesUint16 header.commandId)
  let pdu ← pdu.put 12 (bytesUint16 header.seqNum)
  pdu.put 14 (bytesUint16 header.reversed)

def setServiceId (pdu : CImPdu) (serviceId : ℕ) : Except Failure CImPdu :=
  pdu.put 8 (bytesUint16 serviceId)

def setCommandId (pdu : CImPdu) (commandId : ℕ) : Except Failure CImPdu :=
  pdu.put 10 (bytesUint16 commandId)

def setSeqNum (pdu : CImPdu) (seqNum : ℕ) : Except Failure CImPdu :=
  pdu.put 12 (bytesUint16 seqNum)

/-- `SetPBMsg` for a message that is serialised to `msg`. -/
def setPBMsg (behind : Behind) (pdu : CImPdu) (msg : Bytes) : Except Failure CImPdu := do
  let mBuf ← pdu.mBuf.read pdu.mBuf.mWriteOffset
  let mBuf := mBuf.skip behind imPduHeaderLen
  let mBuf ← mBuf.write behind msg msg.length
  writeHeader { pdu with mBuf := mBuf }

end CImPdu

/-- What a turn of the client's loop sends: the service, the command and the message. -/
structure Request where
  serviceId : UInt16
  commandId : UInt16
  msg : Bytes

/-- A turn of `start` in client.cc: the PDU that is sent. -/
def clientTurn (behind : Behind) (length seqNo : ℕ) (request : Request) : Except Failure Bytes := do
  let cPdu ← (CImPdu.new length).setPBMsg behind request.msg
  let cPdu ← cPdu.setServiceId request.serviceId.toNat
  let cPdu ← cPdu.setCommandId request.commandId.toNat
  let cPdu ← cPdu.setSeqNum (seqNo % 2 ^ 16)
  .ok cPdu.mBuf.content

/-- The turns in order. `s_seq_no` counts them. -/
def clientTurns (behind : Behind) (length : ℕ) : ℕ → List Request → Except Failure (List Bytes)
  | _, [] => .ok []
  | seqNo, request :: requests => do
    let sent ← clientTurn behind length seqNo request
    let later ← clientTurns behind length (seqNo + 1) requests
    .ok (sent :: later)

/-! ## Writing into a buffer -/

variable {b : CSimpleBuffer} {bytes source front old back msg : Bytes} {size n length : ℕ}
variable {pdu : CImPdu} (behind : Behind)

/-- The buffer grows if it has to. -/
theorem Holds.grow (h : Holds b bytes size) (hgrown : grown bytes.length n < 2 ^ 32) :
    ∃ size', bytes.length + n ≤ size' ∧ Holds (if (b.mWriteOffset + n) % 2 ^ 32 > b.getAllocSize
      then b.extend behind n else b) bytes size' := by
  have hsum : (b.mWriteOffset + n) % 2 ^ 32 = bytes.length + n := by
    rw [h.offset, Nat.mod_eq_of_lt]
    rw [grown] at hgrown
    omega
  rw [hsum, h.alloc]
  split
  · exact ⟨_, by rw [grown]; omega, h.extend behind hgrown⟩
  · exact ⟨size, by omega, h⟩

theorem Holds.write (h : Holds b bytes size) (hsource : n ≤ source.length)
    (hgrown : grown bytes.length n < 2 ^ 32) : ∃ b' size',
      b.write behind source n = .ok b' ∧ Holds b' (bytes ++ source.take n) size' := by
  obtain ⟨size', hroom, hholds⟩ := h.grow behind hgrown
  refine ⟨_, size', ?_, hholds.append hsource hroom⟩
  rw [CSimpleBuffer.write, memcpy_of_le hsource, ok_bind]
  rw [hholds.offset, ← CSimpleBuffer.getAllocSize, hholds.alloc]
  exact hroom

/-- The write offset goes on over bytes that nobody has written. -/
theorem Holds.skip (h : Holds b bytes size) (hgrown : grown bytes.length n < 2 ^ 32) :
    ∃ stale size', stale.length = n ∧ Holds (b.skip behind n) (bytes ++ stale) size' := by
  obtain ⟨size', hroom, hholds⟩ := h.grow behind hgrown
  obtain ⟨slack, hslack⟩ := hholds.buffer
  have halloc := hholds.alloc
  rw [CSimpleBuffer.getAllocSize, hslack, List.length_append] at halloc
  have hlength : (slack.take n).length = n := List.length_take_of_le (by omega)
  refine ⟨slack.take n, size', hlength, ⟨slack.drop n, ?_⟩, ?_, hholds.alloc, hholds.small⟩
  · rw [List.append_assoc, List.take_append_drop]
    exact hslack
  · have hsmall := hholds.small
    show ((if _ then _ else b).mWriteOffset + n) % 2 ^ 32 = _
    rw [hholds.offset, List.length_append, hlength]
    exact Nat.mod_eq_of_lt (by omega)

/-- A part of the bytes is replaced. -/
theorem CImPdu.put_of_holds (pdu : CImPdu) (source : Bytes)
    (h : Holds pdu.mBuf (front ++ (old ++ back)) size) (hlength : old.length = source.length) :
    ∃ mBuf, pdu.put front.length source =
      .ok { pdu with mBuf := mBuf } ∧ Holds mBuf (front ++ (source ++ back)) size := by
  obtain ⟨slack, hslack⟩ := h.buffer
  have hput : Extents.put pdu.mBuf.mBuffer front.length source =
      front ++ (source ++ back) ++ slack := by
    rw [hslack, List.append_assoc, List.append_assoc, put_append hlength, List.append_assoc,
      List.append_assoc]
  have hroom : front.length + source.length ≤ pdu.mBuf.mBuffer.length := by
    rw [hslack]
    simp only [List.length_append]
    omega
  refine ⟨{ pdu.mBuf with mBuffer := Extents.put pdu.mBuf.mBuffer front.length source }, ?_,
    ⟨slack, hput⟩, ?_, ?_, h.small⟩
  · rw [CImPdu.put, memcpy_of_le (Nat.le_refl _) hroom, List.take_length]
    rfl
  · rw [h.offset]
    simp only [List.length_append, hlength]
  · rw [CSimpleBuffer.getAllocSize, length_put hroom]
    exact h.alloc

/-- Parts that are written one behind the other. -/
def CImPdu.putAll (pdu : CImPdu) (pos : ℕ) : List Bytes → Except Failure CImPdu
  | [] => .ok pdu
  | part :: parts => do
    let pdu ← pdu.put pos part
    pdu.putAll (pos + part.length) parts

theorem CImPdu.putAll_of_holds (parts : List Bytes) : ∀ (pdu : CImPdu) (front stale : Bytes),
    Holds pdu.mBuf (front ++ (stale ++ back)) size → stale.length = parts.flatten.length →
    ∃ mBuf, pdu.putAll front.length parts = .ok { pdu with mBuf := mBuf } ∧
      Holds mBuf (front ++ (parts.flatten ++ back)) size := by
  induction parts with
  | nil =>
    intro pdu front stale h hstale
    obtain rfl := List.length_eq_zero_iff.mp hstale
    exact ⟨pdu.mBuf, rfl, h⟩
  | cons part parts ih =>
    intro pdu front stale h hstale
    rw [List.flatten_cons, List.length_append] at hstale
    have hpart : (stale.take part.length).length = part.length := List.length_take_of_le (by omega)
    have hrest : (stale.drop part.length).length = parts.flatten.length := by
      rw [List.length_drop]
      omega
    rw [← List.take_append_drop part.length stale, List.append_assoc] at h
    obtain ⟨mBuf, hput, hholds⟩ := CImPdu.put_of_holds pdu part h hpart
    rw [← List.append_assoc] at hholds
    obtain ⟨mBuf', hall, hholds'⟩ := ih { pdu with mBuf := mBuf } (front ++ part) _ hholds hrest
    refine ⟨mBuf', ?_, ?_⟩
    · rw [List.length_append] at hall
      rw [CImPdu.putAll, hput, ok_bind, hall]
    · rwa [List.append_assoc, ← List.append_assoc part] at hholds'

/-- The bytes of a header. -/
def bytesHeader (header : PduHeader) : List Bytes :=
  [bytesUint32 header.length, bytesUint16 header.version, bytesUint16 header.flag,
    bytesUint16 header.serviceId, bytesUint16 header.commandId, bytesUint16 header.seqNum,
    bytesUint16 header.reversed]

theorem bind_ok {α : Type} (x : Except Failure α) : (x >>= fun a => .ok a) = x := by
  cases x <;> rfl

theorem CImPdu.writeHeader_eq (pdu : CImPdu) : pdu.writeHeader =
    pdu.putAll 0 (bytesHeader { pdu.mPduHeader with length := pdu.getLength }) := by
  simp only [CImPdu.putAll, bytesHeader, bind_ok]
  rfl

theorem Holds.read_all (h : Holds b bytes size) :
    ∃ b', b.read b.mWriteOffset = .ok b' ∧ Holds b' [] size := by
  rw [h.offset]
  obtain hempty | hpos := Nat.eq_zero_or_pos bytes.length
  · obtain rfl := List.length_eq_zero_iff.mp hempty
    exact ⟨b, by rw [CSimpleBuffer.read, if_pos hempty], h⟩
  · exact Holds.read (h := by rwa [List.append_nil]) hpos

/-- `SetPBMsg` makes a PDU of any PDU: nothing is left of what the buffer held before. -/
theorem CImPdu.setPBMsg_of_holds (h : Holds pdu.mBuf bytes size) (hmsg : msg.length < 2 ^ 31) :
    ∃ mBuf size', pdu.setPBMsg behind msg = .ok { pdu with mBuf := mBuf } ∧
      Holds mBuf ((bytesHeader { pdu.mPduHeader with
        length := imPduHeaderLen + msg.length }).flatten ++ msg) size' := by
  obtain ⟨cleared, hread, hcleared⟩ := h.read_all
  obtain ⟨stale, size1, hstale, hskipped⟩ :=
    hcleared.skip behind (show grown ([] : Bytes).length imPduHeaderLen < 2 ^ 32 by decide)
  rw [List.nil_append] at hskipped
  have hgrown : grown stale.length msg.length < 2 ^ 32 := by
    rw [hstale, grown, imPduHeaderLen]
    omega
  obtain ⟨written, size2, hwrite, hwritten⟩ := hskipped.write behind (Nat.le_refl msg.length) hgrown
  rw [List.take_length] at hwritten
  have hlength : CImPdu.getLength { pdu with mBuf := written } = imPduHeaderLen + msg.length := by
    rw [CImPdu.getLength, hwritten.offset, List.length_append, hstale]
  obtain ⟨mBuf, hall, hholds⟩ := CImPdu.putAll_of_holds
    (bytesHeader { pdu.mPduHeader with length := imPduHeaderLen + msg.length })
    { pdu with mBuf := written } [] stale hwritten (hstale.trans rfl)
  refine ⟨mBuf, size2, ?_, hholds⟩
  rw [CImPdu.setPBMsg, hread]
  simp only [ok_bind, hwrite, CImPdu.writeHeader_eq, hlength]
  exact hall

/-- What a turn sends: the header with the fields that were set, and the message. -/
def Request.sent (request : Request) (seqNo : ℕ) : Bytes :=
  (bytesHeader ⟨imPduHeaderLen + request.msg.length, CImPdu.imPduVersion, 0,
    request.serviceId.toNat, request.commandId.toNat, seqNo % 2 ^ 16, 0⟩).flatten ++ request.msg

theorem clientTurn_eq {request : Request} (seqNo : ℕ) (hmsg : request.msg.length < 2 ^ 31) :
    clientTurn behind length seqNo request = .ok (request.sent seqNo) := by
  obtain ⟨made, size0, hset, hmade⟩ := CImPdu.setPBMsg_of_holds behind
    (show Holds (CImPdu.new length).mBuf [] 0 from Holds.empty) hmsg
  let header := (CImPdu.new length).mPduHeader
  let start := bytesUint32 (imPduHeaderLen + request.msg.length) ++
    bytesUint16 CImPdu.imPduVersion ++ bytesUint16 0
  let service := bytesUint16 request.serviceId.toNat
  let command := bytesUint16 request.commandId.toNat
  let seqNum := bytesUint16 (seqNo % 2 ^ 16)
  obtain ⟨served, hservice, hserved⟩ := CImPdu.put_of_holds ⟨made, header⟩ service
    (show Holds made (start ++ (bytesUint16 CImPdu.sidOther ++
      (bytesUint16 0 ++ bytesUint16 0 ++ bytesUint16 0 ++ request.msg))) size0 from hmade) rfl
  obtain ⟨commanded, hcommand, hcommanded⟩ := CImPdu.put_of_holds ⟨served, header⟩ command
    (show Holds served (start ++ service ++ (bytesUint16 0 ++
      (bytesUint16 0 ++ bytesUint16 0 ++ request.msg))) size0 from hserved) rfl
  obtain ⟨counted, hseq, hcounted⟩ := CImPdu.put_of_holds ⟨commanded, header⟩ seqNum
    (show Holds commanded (start ++ service ++ command ++ (bytesUint16 0 ++
      (bytesUint16 0 ++ request.msg))) size0 from hcommanded) rfl
  have hsent : counted.content = request.sent seqNo := hcounted.content
  have hservice' : CImPdu.setServiceId ⟨made, header⟩ request.serviceId.toNat = .ok ⟨served, header⟩ :=
    hservice
  have hcommand' : CImPdu.setCommandId ⟨served, header⟩ request.commandId.toNat =
    .ok ⟨commanded, header⟩ := hcommand
  have hseq' : CImPdu.setSeqNum ⟨commanded, header⟩ (seqNo % 2 ^ 16) = .ok ⟨counted, header⟩ := hseq
  rw [clientTurn, hset]
  simp only [ok_bind]
  show CImPdu.setServiceId ⟨made, header⟩ _ >>= _ = _
  rw [hservice', ok_bind, hcommand', ok_bind, hseq', ok_bind, hsent]

/-! ## Reading what was written -/

theorem readUint16_bytes (data : ℕ) (h : data < 2 ^ 16) :
    (UInt8.ofNat (data >>> 8)).toNat <<< 8 ||| (UInt8.ofNat (data &&& 0xFF)).toNat = data := by
  have hlow : data &&& 0xFF = data % 2 ^ 8 := Nat.and_two_pow_sub_one_eq_mod data 8
  rw [hlow, UInt8.toNat_ofNat', UInt8.toNat_ofNat', Nat.mod_mod, Nat.shiftRight_eq_div_pow,
    Nat.mod_eq_of_lt (by omega : data / 2 ^ 8 < 2 ^ 8), ← Nat.shiftLeft_add_eq_or_of_lt (by omega),
    Nat.shiftLeft_eq]
  omega

theorem readUint32_bytes (data : ℕ) (h : data < 2 ^ 32) :
    (UInt8.ofNat (data >>> 24)).toNat <<< 24 ||| (UInt8.ofNat (data >>> 16 &&& 0xFF)).toNat <<< 16 |||
      (UInt8.ofNat (data >>> 8 &&& 0xFF)).toNat <<< 8 ||| (UInt8.ofNat (data &&& 0xFF)).toNat =
      data := by
  have hbyte : ∀ n : ℕ, (UInt8.ofNat (n &&& 0xFF)).toNat = n % 2 ^ 8 := by
    intro n
    rw [UInt8.toNat_ofNat', Nat.mod_eq_of_lt]
    · exact Nat.and_two_pow_sub_one_eq_mod n 8
    · exact Nat.lt_of_le_of_lt Nat.and_le_right (by decide)
  have hhigh : (UInt8.ofNat (data >>> 24)).toNat = data >>> 24 := by
    rw [UInt8.toNat_ofNat', Nat.mod_eq_of_lt]
    rw [Nat.shiftRight_eq_div_pow]
    omega
  rw [hbyte, hbyte, hbyte, hhigh]
  have hlow : data % 2 ^ 8 < 2 ^ 8 := Nat.mod_lt _ (by decide)
  have hmiddle : ((data >>> 8) % 2 ^ 8) <<< 8 + data % 2 ^ 8 < 2 ^ 16 := by
    rw [Nat.shiftLeft_eq]
    omega
  have hupper : ((data >>> 16) % 2 ^ 8) <<< 16 + (((data >>> 8) % 2 ^ 8) <<< 8 + data % 2 ^ 8) <
      2 ^ 24 := by
    rw [Nat.shiftLeft_eq]
    omega
  rw [Nat.or_assoc, Nat.or_assoc, ← Nat.shiftLeft_add_eq_or_of_lt hlow,
    ← Nat.shiftLeft_add_eq_or_of_lt hmiddle, ← Nat.shiftLeft_add_eq_or_of_lt hupper]
  simp only [Nat.shiftLeft_eq, Nat.shiftRight_eq_div_pow]
  omega

variable {request : Request} {seqNo : ℕ}

/-- The header of what is sent, as the server reads it. -/
theorem readPduHeader_sent (hmsg : request.msg.length < 2 ^ 31) :
    readPduHeader (request.sent seqNo) = ⟨imPduHeaderLen + request.msg.length, CImPdu.imPduVersion, 0,
      request.serviceId.toNat, request.commandId.toNat, seqNo % 2 ^ 16, 0⟩ := by
  have hlength := readUint32_bytes (imPduHeaderLen + request.msg.length) (by
    rw [imPduHeaderLen]
    omega)
  have hversion := readUint16_bytes CImPdu.imPduVersion (by decide)
  have hzero := readUint16_bytes 0 (by decide)
  have hservice := readUint16_bytes request.serviceId.toNat request.serviceId.toNat_lt
  have hcommand := readUint16_bytes request.commandId.toNat request.commandId.toNat_lt
  have hseqNum := readUint16_bytes (seqNo % 2 ^ 16) (Nat.mod_lt _ (by decide))
  exact congr (congr (congr (congr (congr (congr (congrArg PduHeader.mk hlength) hversion) hzero)
    hservice) hcommand) hseqNum) hzero

theorem length_sent : (request.sent seqNo).length = imPduHeaderLen + request.msg.length := by
  rw [Request.sent, List.length_append]
  rfl

theorem wellFormed_sent (hmsg : request.msg.length < 2 ^ 31) : WellFormed (request.sent seqNo) := by
  refine ⟨?_, ?_⟩
  · rw [length_sent]
    exact congrArg PduHeader.length (readPduHeader_sent hmsg)
  · rw [length_sent]
    exact Nat.le_add_right _ _

/-! ## The whole way -/

theorem clientTurns_eq (requests : List Request) : ∀ seqNo,
    (∀ request ∈ requests, request.msg.length < 2 ^ 31) →
    clientTurns behind length seqNo requests =
      .ok ((requests.zipIdx seqNo).map fun (request, seqNo) => request.sent seqNo) := by
  induction requests with
  | nil => intro seqNo _; rfl
  | cons request requests ih =>
    intro seqNo hmsg
    rw [clientTurns, clientTurn_eq behind seqNo (hmsg request List.mem_cons_self), ok_bind,
      ih (seqNo + 1) fun other hother => hmsg other (List.mem_cons_of_mem _ hother), ok_bind]
    rfl

/-- A login and a text, received in pieces of three bytes. -/
def twoRequests : List Request := [⟨1, 0x0103, [10, 3]⟩, ⟨3, 0x0301, [42, 1, 65]⟩]

end CServer.ImServer
