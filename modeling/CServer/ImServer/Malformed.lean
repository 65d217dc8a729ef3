import CServer.ImServer.Dispatch

/-!
# Any stream

What a client sends is arbitrary, and so are the pieces in which it arrives.
-/
namespace CServer.ImServer

variable {t : Turn} {results : List Bytes} {stream : Bytes}

/-- The turn has taken something off the buffer, and a body that is parsed is the PDU without its
header. -/
def Turn.Safe (t : Turn) : Prop :=
  0 < t.removed ∧
    (t.handler ≠ .cannotHandle → 0 ≤ t.bodySize ∧ t.bodySize + imPduHeaderLen = t.pdu.length)

/-- The thread serves the results of its `recv` calls without an exception and without a copy
outside a block, and every turn of its inner loop is safe. -/
def ServedSafely (behind : Behind) (results : List Bytes) : Prop :=
  ∃ b log, Returns (recvMsg behind · .empty results) (b, log) ∧ ∀ t ∈ log, t.Safe

/-- The size of a PDU that a handler parses has room for a header and leaves an `int` for the
body, and the block for the copy of a PDU does not wrap. -/
def Turn.Acceptable (t : Turn) : Prop :=
  (t.handler ≠ .cannotHandle → imPduHeaderLen ≤ t.pdu.length ∧ t.pdu.length < 2 ^ 31 + 16) ∧
    t.Copied

/-- No PDU of the stream has an unacceptable size or the length 0. -/
def Harmless (stream : Bytes) : Prop :=
  (∀ t ∈ pdus.frames stream, t.Acceptable) ∧ ¬ZeroLength (pdus.rest stream)

theorem mem_frames (h : t ∈ pdus.frames stream) : ∃ pdu commandId, t = turnOf pdu commandId ∧
    0 < pdu.length ∧ pdu.length < 2 ^ 32 := by
  induction stream using Framing.rec_frames (F := pdus) with
  | none stream hnext =>
    rw [Framing.frames_of_none hnext] at h
    exact absurd h (by simp)
  | some stream first n hnext ih =>
    rw [Framing.frames_of_some hnext, List.mem_cons] at h
    rcases h with rfl | h
    · obtain ⟨-, hpos, hle, hn, rfl⟩ := nextPdu_eq_some hnext
      have hlt := readUint32_lt stream
      refine ⟨_, _, rfl, ?_⟩
      rw [List.length_take_of_le hle]
      exact ⟨hpos, hn ▸ hlt⟩
    · exact ih h

theorem safe_iff_size (h : t ∈ pdus.frames stream) : t.Safe ↔ (t.handler ≠ .cannotHandle →
    imPduHeaderLen ≤ t.pdu.length ∧ t.pdu.length < 2 ^ 31 + 16) := by
  obtain ⟨pdu, commandId, rfl, hpos, hlt⟩ := mem_frames h
  have hremoved : 0 < (turnOf pdu commandId).removed := Int.natCast_pos.mpr hpos
  have hpdu : (turnOf pdu commandId).pdu = pdu := rfl
  have hsize := bodySize_eq_iff hlt
  rw [Turn.Safe, and_iff_right hremoved, hpdu, turnOf_bodySize, imPduHeaderLen]
  refine imp_congr_right fun _ => ?_
  rw [imPduHeaderLen] at hsize
  generalize toInt (subUint32 pdu.length 16) = size at hsize ⊢
  omega

/-- The thread serves a client safely exactly if the client's stream is harmless and the size of
the buffer never wraps. -/
theorem servedSafely_iff (behind : Behind)
    (hresults : ∀ received ∈ results, 0 < received.length ∧ received.length ≤ readBufSize) :
    ServedSafely behind results ↔ Harmless results.flatten ∧ Roomy 0 [] results := by
  constructor
  · rintro ⟨b, log, ⟨enough, hreturns⟩, hsafe⟩
    obtain ⟨hroomy, hcopied, hzero, rfl⟩ := recvMsg_eq_ok Holds.empty rfl
      not_zeroLength_nil hresults (hreturns enough (Nat.le_refl _))
    rw [List.nil_append] at hcopied hzero hsafe
    exact ⟨⟨fun t ht => ⟨(safe_iff_size ht).mp (hsafe t ht), hcopied t ht⟩, hzero⟩, hroomy⟩
  · rintro ⟨⟨hacceptable, hzero⟩, hroomy⟩
    obtain ⟨b, -, -, hreturns⟩ := recvMsg_returns behind Holds.empty rfl
      (fun received hr => (hresults received hr).2) hroomy (fun t ht => (hacceptable t ht).2) hzero
    exact ⟨b, _, hreturns, fun t ht => (safe_iff_size ht).mpr (hacceptable t ht).1⟩

/-- A login without a body, in two pieces. -/
theorem servedSafely_login : ServedSafely (fun _ _ _ => 0) [emptyLogin.take 3, emptyLogin.drop 3] ↔
    Harmless [emptyLogin.take 3, emptyLogin.drop 3].flatten ∧
      Roomy 0 [] [emptyLogin.take 3, emptyLogin.drop 3] :=
  servedSafely_iff (fun _ _ _ => 0) (by decide)

/-- Sixteen zero bytes are a PDU of the length 0, for which `IsPduAvailable` throws. -/
theorem zero_length_thrown : ¬ServedSafely (fun _ _ _ => 0) [List.replicate 16 0] := by
  rintro ⟨b, log, ⟨enough, hreturns⟩, -⟩
  have hzero : ZeroLength (List.replicate 16 0) := by decide
  obtain ⟨-, -, hnot, -⟩ := recvMsg_eq_ok Holds.empty rfl not_zeroLength_nil
    (by decide) (hreturns enough (Nat.le_refl _))
  refine hnot ?_
  show ZeroLength (pdus.rest (List.replicate 16 0))
  rwa [Framing.rest_of_none hzero.next]

end CServer.ImServer
