import CServer.ImServer.Buffer
import Mathlib.Data.List.GetD

/-!
# Streams of PDUs

The framing of the stream as the length fields give it, and a run of `recv_msg` over the results
of its `recv` calls: its log is the frames of the stream received so far, and its buffer holds
what is left of it.
-/
namespace CServer.ImServer

/-- What the inner loop logs for a PDU that is whole. -/
def turnOf (pdu : Bytes) (commandId : ℕ) : Turn where
  handler := handlerOf commandId
  pdu := pdu
  bodySize := toInt (subUint32 pdu.length imPduHeaderLen)
  removed := pdu.length

theorem turnOf_bodySize (pdu : Bytes) (commandId : ℕ) :
    (turnOf pdu commandId).bodySize = toInt (subUint32 pdu.length imPduHeaderLen) := by
  rw [turnOf]

/-- The first PDU of a stream, with its length. -/
def nextPdu (stream : Bytes) : Option (Turn × ℕ) :=
  if imPduHeaderLen ≤ stream.length ∧ 0 < readUint32 stream 0 ∧
      readUint32 stream 0 ≤ stream.length then
    some (turnOf (stream.take (readUint32 stream 0)) (readUint16 stream 10), readUint32 stream 0)
  else none

variable {stream more bytes received : Bytes} {results done : List Bytes} {t : Turn}
variable {n i size pending : ℕ} {b b' : CSimpleBuffer} {behind : Behind} {turns : ℕ} {log : List Turn}

theorem byteAt_append (h : i < stream.length) : byteAt (stream ++ more) i = byteAt stream i := by
  rw [byteAt, byteAt, List.getD_append _ _ _ _ h]

theorem readUint32_append (h : imPduHeaderLen ≤ stream.length) :
    readUint32 (stream ++ more) 0 = readUint32 stream 0 := by
  rw [imPduHeaderLen] at h
  simp only [readUint32]
  rw [byteAt_append (by omega), byteAt_append (by omega), byteAt_append (by omega),
    byteAt_append (by omega)]

theorem readUint16_append (h : imPduHeaderLen ≤ stream.length) :
    readUint16 (stream ++ more) 10 = readUint16 stream 10 := by
  rw [imPduHeaderLen] at h
  simp only [readUint16]
  rw [byteAt_append (by omega), byteAt_append (by omega)]

theorem nextPdu_eq_some (h : nextPdu stream = some (t, n)) :
    imPduHeaderLen ≤ stream.length ∧ 0 < n ∧ n ≤ stream.length ∧ readUint32 stream 0 = n ∧
      t = turnOf (stream.take n) (readUint16 stream 10) := by
  rw [nextPdu] at h
  split at h
  · rename_i hwhole
    obtain ⟨rfl, rfl⟩ := Prod.mk.inj (Option.some.inj h)
    exact ⟨hwhole.1, hwhole.2.1, hwhole.2.2, rfl, rfl⟩
  · exact absurd h (by simp)

def pdus : Framing UInt8 Turn where
  next := nextPdu
  pos h := (nextPdu_eq_some h).2.1
  le h := (nextPdu_eq_some h).2.2.1
  append more h := by
    obtain ⟨hheader, hpos, hle, hn, rfl⟩ := nextPdu_eq_some h
    rw [nextPdu, readUint32_append hheader, readUint16_append hheader, hn,
      List.take_append_of_le_length hle, List.length_append, if_pos (by omega)]

/-- A stream that begins with a whole header whose length is 0. -/
def ZeroLength (stream : Bytes) : Prop :=
  imPduHeaderLen ≤ stream.length ∧ readUint32 stream 0 = 0

instance : Decidable (ZeroLength stream) := inferInstanceAs (Decidable (_ ∧ _))

/-- The size of the copy of a PDU does not wrap. -/
def Turn.Copied (t : Turn) : Prop := grown 0 t.pdu.length < 2 ^ 32

theorem ZeroLength.next (h : ZeroLength stream) : pdus.next stream = none :=
  if_neg fun hwhole => absurd hwhole.2.1 (by rw [h.2]; decide)

theorem ZeroLength.append (h : ZeroLength stream) : ZeroLength (stream ++ more) := by
  refine ⟨?_, (readUint32_append h.1).trans h.2⟩
  rw [List.length_append]
  exact Nat.le_add_right_of_le h.1

/-! ## The inner loop -/

theorem byteAt_lt (buf : Bytes) (i : ℕ) : byteAt buf i < 2 ^ 8 := UInt8.toNat_lt _

theorem readUint32_lt (buf : Bytes) : readUint32 buf 0 < 2 ^ 32 := by
  have h0 := byteAt_lt buf 0
  have h1 := byteAt_lt buf 1
  have h2 := byteAt_lt buf 2
  have h3 := byteAt_lt buf 3
  rw [readUint32]
  refine Nat.or_lt_two_pow (Nat.or_lt_two_pow (Nat.or_lt_two_pow ?_ ?_) ?_) ?_ <;>
    simp only [Nat.shiftLeft_eq, Nat.zero_add] <;> omega

/-- The buffer is read as the bytes that it holds. -/
theorem Holds.isPduAvailable (h : Holds b bytes size) :
    isPduAvailable b.mBuffer b.mWriteOffset = isPduAvailable bytes bytes.length := by
  obtain ⟨slack, hslack⟩ := h.buffer
  rw [ImServer.isPduAvailable, ImServer.isPduAvailable, h.offset, hslack]
  by_cases hheader : imPduHeaderLen ≤ bytes.length
  · rw [readUint32_append hheader]
  · rw [if_pos (Nat.lt_of_not_le hheader), if_pos (Nat.lt_of_not_le hheader)]

theorem isPduAvailable_of_some (h : pdus.next stream = some (t, n)) :
    isPduAvailable stream stream.length = .ok (some n) := by
  obtain ⟨hheader, hpos, hle, hn, -⟩ := nextPdu_eq_some h
  rw [isPduAvailable, if_neg (Nat.not_lt_of_le hheader), hn]
  exact (if_neg (Nat.not_lt_of_le hle)).trans (if_neg (Nat.pos_iff_ne_zero.mp hpos))

theorem isPduAvailable_of_zeroLength (h : ZeroLength stream) :
    isPduAvailable stream stream.length = .error (.pduException 1 "pdu_len is 0") := by
  rw [isPduAvailable, if_neg (Nat.not_lt_of_le h.1), h.2]
  exact (if_neg (Nat.not_lt_zero _)).trans (if_pos rfl)

theorem isPduAvailable_of_none (h : pdus.next stream = none) (hzero : ¬ZeroLength stream) :
    isPduAvailable stream stream.length = .ok none := by
  rw [isPduAvailable]
  by_cases hheader : stream.length < imPduHeaderLen
  · exact if_pos hheader
  · have hwhole : imPduHeaderLen ≤ stream.length := Nat.le_of_not_lt hheader
    have hpos : 0 < readUint32 stream 0 := Nat.pos_of_ne_zero fun h0 => hzero ⟨hwhole, h0⟩
    have hlong : readUint32 stream 0 > stream.length := by
      refine Nat.lt_of_not_le fun hle => ?_
      exact absurd ((if_pos ⟨hwhole, hpos, hle⟩).symm.trans h) (by simp)
    rw [if_neg hheader]
    exact if_pos hlong

/-- The inner loop ends at a PDU that is not whole. -/
theorem handlePdus_of_none (h : Holds b bytes size) (hnext : pdus.next bytes = none)
    (hzero : ¬ZeroLength bytes) : handlePdus behind (turns + 1) b = .ok (b, []) := by
  rw [handlePdus, readPdu, h.isPduAvailable, isPduAvailable_of_none hnext hzero]
  rfl

theorem handlePdus_of_zeroLength (h : Holds b bytes size) (hzero : ZeroLength bytes) :
    handlePdus behind (turns + 1) b = .error (.pduException 1 "pdu_len is 0") := by
  rw [handlePdus, readPdu, h.isPduAvailable, isPduAvailable_of_zeroLength hzero]
  rfl

variable (behind) in
/-- A turn of the inner loop for a PDU that is whole. -/
theorem handlePdus_of_some (h : Holds b bytes size) (hnext : pdus.next bytes = some (t, n))
    (hcopied : t.Copied) : ∃ b', Holds b' (bytes.drop n) size ∧
      ∀ turns, handlePdus behind (turns + 1) b =
        handlePdus behind turns b' >>= fun out => .ok (out.1, t :: out.2) := by
  obtain ⟨hheader, hpos, hle, hn, rfl⟩ := nextPdu_eq_some hnext
  obtain ⟨slack, hslack⟩ := h.buffer
  have htake : b.mBuffer.take n = bytes.take n := by
    rw [hslack, List.take_append_of_le_length hle]
  have hlength : (bytes.take n).length = n := List.length_take_of_le hle
  have hsource : n ≤ b.mBuffer.length := by
    rw [hslack, List.length_append]
    omega
  rw [Turn.Copied, turnOf, hlength] at hcopied
  obtain ⟨pduBuf, hwrite, hpdu⟩ := write_empty behind hpos hsource hcopied
  rw [htake] at hpdu
  have hparts : Holds b (bytes.take n ++ bytes.drop n) size := by
    rwa [List.take_append_drop]
  obtain ⟨b', hread, hb'⟩ := hparts.read (by rwa [hlength])
  rw [hlength] at hread
  have hgetLength : pduBuf.mWriteOffset = n := hpdu.offset.trans hlength
  have hremoved : (b.mWriteOffset : ℤ) - b'.mWriteOffset = n := by
    rw [h.offset, hb'.offset, List.length_drop]
    omega
  have hcommand : readUint16 b.mBuffer 10 = readUint16 bytes 10 := by
    rw [hslack, readUint16_append hheader]
  refine ⟨b', hb', fun turns => ?_⟩
  rw [handlePdus, readPdu, h.isPduAvailable, isPduAvailable_of_some hnext]
  simp only [ok_bind, hwrite, CImPdu.getLength, hgetLength, hread]
  rw [CImPdu.getCommandId, readPduHeader, hcommand, hpdu.content, CImPdu.getBodyLength, hgetLength,
    hremoved, turnOf, hlength]

theorem handlePdus_of_wraps (h : Holds b bytes size) (hnext : pdus.next bytes = some (t, n))
    (hcopied : ¬t.Copied) : handlePdus behind (turns + 1) b = .error .outside := by
  obtain ⟨-, -, hle, hn, rfl⟩ := nextPdu_eq_some hnext
  have hlength : (bytes.take n).length = n := List.length_take_of_le hle
  rw [Turn.Copied, turnOf, hlength] at hcopied
  rw [handlePdus, readPdu, h.isPduAvailable, isPduAvailable_of_some hnext]
  simp only [ok_bind, write_empty_wraps behind (hn ▸ readUint32_lt bytes) (Nat.le_of_not_lt hcopied)]
  rfl

variable (behind) in
/-- A buffer whose PDUs can all be copied and end without a length of 0: the inner loop handles
exactly its PDUs. -/
theorem handlePdus_returns (h : Holds b bytes size) (hcopied : ∀ t ∈ pdus.frames bytes, t.Copied)
    (hzero : ¬ZeroLength (pdus.rest bytes)) : ∃ b', Holds b' (pdus.rest bytes) size ∧
      Returns (handlePdus behind · b) (b', pdus.frames bytes) := by
  induction bytes using Framing.rec_frames (F := pdus) generalizing b with
  | none bytes hnext =>
    rw [Framing.rest_of_none hnext] at hzero ⊢
    rw [Framing.frames_of_none hnext]
    exact ⟨b, h, .of_succ fun turns => handlePdus_of_none h hnext hzero⟩
  | some bytes t n hnext ih =>
    rw [Framing.rest_of_some hnext] at hzero ⊢
    rw [Framing.frames_of_some hnext] at hcopied ⊢
    obtain ⟨b', hb', hturn⟩ := handlePdus_of_some behind h hnext
      (hcopied t List.mem_cons_self)
    obtain ⟨b'', hb'', hreturns⟩ := ih hb' (fun t ht => hcopied t (List.mem_cons_of_mem _ ht)) hzero
    have hlater := hreturns.bind (k := fun _ out => .ok (out.1, t :: out.2)) (.of_eq fun _ => rfl)
    exact ⟨b'', hb'', hlater.succ hturn⟩

/-- An inner loop that ends has handled exactly the PDUs of the buffer. -/
theorem handlePdus_eq_ok (h : Holds b bytes size) (hok : handlePdus behind turns b = .ok (b', log)) :
    (∀ t ∈ pdus.frames bytes, t.Copied) ∧ ¬ZeroLength (pdus.rest bytes) ∧
      log = pdus.frames bytes ∧ Holds b' (pdus.rest bytes) size := by
  induction bytes using Framing.rec_frames (F := pdus) generalizing b turns log with
  | none bytes hnext =>
    rw [Framing.rest_of_none hnext, Framing.frames_of_none hnext]
    cases turns with
    | zero => exact absurd hok (by simp [handlePdus])
    | succ turns =>
      by_cases hzero : ZeroLength bytes
      · rw [handlePdus_of_zeroLength h hzero] at hok
        exact absurd hok (by simp)
      · rw [handlePdus_of_none h hnext hzero] at hok
        obtain ⟨rfl, rfl⟩ := Prod.mk.inj (Except.ok.inj hok)
        exact ⟨by simp, hzero, rfl, h⟩
  | some bytes t n hnext ih =>
    rw [Framing.rest_of_some hnext, Framing.frames_of_some hnext]
    cases turns with
    | zero => exact absurd hok (by simp [handlePdus])
    | succ turns =>
      by_cases hcopied : t.Copied
      · obtain ⟨before, hbefore, hturn⟩ := handlePdus_of_some behind h hnext hcopied
        rw [hturn] at hok
        obtain ⟨⟨last, later⟩, hlater, hout⟩ := bind_eq_ok hok
        obtain ⟨rfl, rfl⟩ := Prod.mk.inj (Except.ok.inj hout)
        obtain ⟨hall, hzero, rfl, hlast⟩ := ih hbefore hlater
        exact ⟨List.forall_mem_cons.mpr ⟨hcopied, hall⟩, hzero, rfl, hlast⟩
      · rw [handlePdus_of_wraps h hnext hcopied] at hok
        exact absurd hok (by simp)

/-! ## The outer loop -/

/-- The size of the buffer behind the first lines of the outer loop. -/
def room (size used : ℕ) : ℕ := if size - used < readBufSize then grown used readBufSize else size

theorem Holds.freeBufLen (h : Holds b bytes size) :
    subUint32 b.getAllocSize b.mWriteOffset = size - bytes.length := by
  have hle := h.le
  have hsmall := h.small
  rw [subUint32, h.alloc, h.offset]
  omega

variable (behind) in
/-- A result of `recv` has its place, and the inner loop follows. -/
theorem receive_of_room (h : Holds b bytes size) (hreceived : received.length ≤ readBufSize)
    (hroom : room size bytes.length < 2 ^ 32) :
    ∃ b', Holds b' (bytes ++ received) (room size bytes.length) ∧
      ∀ turns, receive behind turns b received = handlePdus behind turns b' := by
  have hmade : ∃ b', (if size - bytes.length < readBufSize then b.extend behind readBufSize else b) =
      b' ∧ Holds b' bytes (room size bytes.length) ∧
        bytes.length + received.length ≤ room size bytes.length := by
    refine ⟨_, rfl, ?_⟩
    rw [room] at hroom ⊢
    by_cases hfree : size - bytes.length < readBufSize
    · rw [if_pos hfree] at hroom ⊢
      rw [if_pos hfree]
      refine ⟨h.extend behind hroom, ?_⟩
      rw [grown]
      omega
    · rw [if_neg hfree, if_neg hfree]
      have hle := h.le
      exact ⟨h, by omega⟩
  obtain ⟨made, hmade, hholds, hle⟩ := hmade
  have hstored := hholds.append (Nat.le_refl received.length) hle
  rw [List.take_length] at hstored
  refine ⟨_, hstored, fun turns => ?_⟩
  have hcopy : memcpy made.mBuffer made.mWriteOffset received received.length =
      .ok (Extents.put made.mBuffer made.mWriteOffset received) := by
    rw [memcpy_of_le (Nat.le_refl _), List.take_length]
    rw [← CSimpleBuffer.getAllocSize, hholds.alloc, hholds.offset]
    exact hle
  rw [receive, h.freeBufLen]
  simp only [hmade, hcopy, ok_bind]

/-- Where the size wraps, `recv` writes behind the buffer. -/
theorem receive_of_wraps (h : Holds b bytes size) (hpos : 0 < received.length)
    (hroom : ¬room size bytes.length < 2 ^ 32) :
    receive behind turns b received = .error .outside := by
  have hsmall := h.small
  have hfree : size - bytes.length < readBufSize := by
    refine Classical.byContradiction fun hlarge => hroom ?_
    rwa [room, if_neg hlarge]
  rw [room, if_pos hfree] at hroom
  have hshort := h.extend_wraps behind (Nat.le_of_not_lt hroom)
  have hoffset : (b.extend behind readBufSize).mWriteOffset = bytes.length := h.offset
  have hcopy : memcpy (b.extend behind readBufSize).mBuffer (b.extend behind readBufSize).mWriteOffset
      received received.length = .error .outside := by
    refine memcpy_of_lt ?_
    rw [hoffset]
    exact Nat.lt_of_le_of_lt hshort (by omega)
  rw [receive, h.freeBufLen]
  simp only [if_pos hfree, hcopy, error_bind]

/-- The sizes of the buffer do not wrap in a run that starts with the bytes `pending` in a buffer of
`size` bytes. -/
def Roomy : ℕ → Bytes → List Bytes → Prop
  | _, _, [] => True
  | size, pending, received :: results =>
    room size pending.length < 2 ^ 32 ∧
      Roomy (room size pending.length) (pdus.rest (pending ++ received)) results

theorem ZeroLength.rest_append (h : ZeroLength (pdus.rest stream)) :
    ZeroLength (pdus.rest (stream ++ more)) := by
  rw [Framing.rest_append, Framing.rest_of_none h.append.next]
  exact h.append

variable {pending : Bytes}

variable (behind) in
theorem recvMsg_returns (h : Holds b pending size) (hpending : pdus.next pending = none)
    (hresults : ∀ received ∈ results, received.length ≤ readBufSize)
    (hroomy : Roomy size pending results)
    (hcopied : ∀ t ∈ pdus.frames (pending ++ results.flatten), t.Copied)
    (hzero : ¬ZeroLength (pdus.rest (pending ++ results.flatten))) :
    ∃ b' size', Holds b' (pdus.rest (pending ++ results.flatten)) size' ∧
      Returns (recvMsg behind · b results) (b', pdus.frames (pending ++ results.flatten)) := by
  induction results generalizing b pending size with
  | nil =>
    rw [List.flatten_nil, List.append_nil, Framing.rest_of_none hpending,
      Framing.frames_of_none hpending]
    exact ⟨b, size, h, .of_eq fun _ => rfl⟩
  | cons received results ih =>
    obtain ⟨hroom, hroomy⟩ := hroomy
    rw [List.flatten_cons, ← List.append_assoc] at hcopied hzero ⊢
    have hzeroFirst : ¬ZeroLength (pdus.rest (pending ++ received)) :=
      fun hfirst => hzero hfirst.rest_append
    rw [Framing.rest_append] at hzero ⊢
    rw [Framing.frames_append] at hcopied ⊢
    obtain ⟨before, hbefore, hreceive⟩ := receive_of_room behind h
      (hresults received List.mem_cons_self) hroom
    obtain ⟨middle, hmiddle, hfirst⟩ := handlePdus_returns behind hbefore
      (fun t ht => hcopied t (List.mem_append_left _ ht)) hzeroFirst
    obtain ⟨b', size', hb', hlater⟩ := ih hmiddle (Framing.next_rest _)
      (fun r hr => hresults r (List.mem_cons_of_mem _ hr)) hroomy
      (fun t ht => hcopied t (List.mem_append_right _ ht)) hzero
    refine ⟨b', size', hb', ?_⟩
    have hreturns : Returns (receive behind · b received) (middle, pdus.frames (pending ++ received)) :=
      hfirst.congr hreceive
    exact hreturns.bind (hlater.bind (.of_eq fun _ => rfl))

theorem recvMsg_eq_ok (h : Holds b pending size) (hpending : pdus.next pending = none)
    (hzero : ¬ZeroLength pending)
    (hresults : ∀ received ∈ results, 0 < received.length ∧ received.length ≤ readBufSize)
    (hok : recvMsg behind turns b results = .ok (b', log)) :
    Roomy size pending results ∧ (∀ t ∈ pdus.frames (pending ++ results.flatten), t.Copied) ∧
      ¬ZeroLength (pdus.rest (pending ++ results.flatten)) ∧
      log = pdus.frames (pending ++ results.flatten) := by
  induction results generalizing b pending size log with
  | nil =>
    rw [List.flatten_nil, List.append_nil, Framing.rest_of_none hpending,
      Framing.frames_of_none hpending]
    exact ⟨trivial, by simp, hzero, (Prod.mk.inj (Except.ok.inj hok)).2.symm⟩
  | cons received results ih =>
    obtain ⟨hpos, hle⟩ := hresults received List.mem_cons_self
    obtain ⟨⟨middle, first⟩, hfirst, hok⟩ := bind_eq_ok hok
    obtain ⟨⟨last, later⟩, hlater, hout⟩ := bind_eq_ok hok
    obtain ⟨rfl, rfl⟩ := Prod.mk.inj (Except.ok.inj hout)
    by_cases hroom : room size pending.length < 2 ^ 32
    · obtain ⟨before, hbefore, hreceive⟩ := receive_of_room behind h hle hroom
      rw [hreceive] at hfirst
      obtain ⟨hcopied, hzeroFirst, rfl, hmiddle⟩ := handlePdus_eq_ok hbefore hfirst
      obtain ⟨hroomy, hcopiedLater, hzeroLater, rfl⟩ := ih hmiddle (Framing.next_rest _) hzeroFirst
        (fun r hr => hresults r (List.mem_cons_of_mem _ hr)) hlater
      rw [List.flatten_cons, ← List.append_assoc, Framing.rest_append, Framing.frames_append]
      exact ⟨⟨hroom, hroomy⟩, List.forall_mem_append.mpr ⟨hcopied, hcopiedLater⟩, hzeroLater, rfl⟩
    · rw [receive_of_wraps h hpos hroom] at hfirst
      exact absurd hfirst (by simp)

end CServer.ImServer
