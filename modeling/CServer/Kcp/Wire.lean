import CServer.Kcp.Model
import Mathlib.Data.List.Basic

/-!
# Segments in datagrams

What `ikcp_encode_seg` writes, `ikcp_input` reads back, so that a datagram of whole segments is the
same as its segments one after another.
-/
namespace CServer.Kcp

variable {seg : Seg} {rest : Bytes}

/-! ## The numbers -/

theorem decode8u_encode8u (c : UInt8) (rest : Bytes) : decode8u (encode8u c ++ rest) = (c, rest) := by
  simp [decode8u, encode8u, byteAt]

theorem decode16u_encode16u (w : UInt16) (rest : Bytes) :
    decode16u (encode16u w ++ rest) = (w, rest) := by
  have hw := w.toNat_lt
  refine Prod.ext (UInt16.toNat_inj.mp ?_) rfl
  simp only [decode16u, encode16u, byteAt, List.cons_append, List.getD_cons_zero,
    List.getD_cons_succ, UInt8.toNat_ofNat', UInt16.toNat_ofNat']
  omega

theorem decode32u_encode32u (l : UInt32) (rest : Bytes) :
    decode32u (encode32u l ++ rest) = (l, rest) := by
  have hl := l.toNat_lt
  refine Prod.ext (UInt32.toNat_inj.mp ?_) rfl
  simp only [decode32u, encode32u, byteAt, List.cons_append, List.getD_cons_zero,
    List.getD_cons_succ, UInt8.toNat_ofNat', UInt32.toNat_ofNat']
  omega

theorem length_encodeSeg (seg : Seg) : (encodeSeg seg).length = 24 + seg.data.length := by
  simp [encodeSeg, encode8u, encode16u, encode32u]
  omega

/-! ## One segment -/

theorem ofCode_code (cmd : Cmd) : Cmd.ofCode cmd.code = some cmd := by
  cases cmd <;> rfl

/-- What of a segment is in a datagram. -/
def Seg.wire (seg : Seg) : Seg where
  conv := seg.conv
  cmd := seg.cmd
  frg := seg.frg.toUInt8.toUInt32
  wnd := seg.wnd.toUInt16.toUInt32
  ts := seg.ts
  sn := seg.sn
  una := seg.una
  data := seg.data

theorem toInt_toInt32 {a : UInt32} (ha : a.toNat < 2 ^ 31) : a.toInt32.toInt = a.toNat := by
  show a.toBitVec.toInt = _
  rw [BitVec.toInt_eq_toNat_of_lt (by simpa using (by omega : 2 * a.toNat < 2 ^ 32))]
  rfl

theorem decodeSeg_encodeSeg (hlength : seg.data.length < 2 ^ 31) (rest : Bytes) :
    decodeSeg seg.conv (encodeSeg seg ++ rest) = .ok (seg.wire, rest) := by
  have hlen : (UInt32.ofNat seg.data.length).toNat = seg.data.length := by
    rw [UInt32.toNat_ofNat']
    omega
  have hint : (UInt32.ofNat seg.data.length).toInt32.toInt = seg.data.length := by
    rw [toInt_toInt32 (by omega), hlen]
  have hheader : decodeHeader (encodeSeg seg ++ rest) = (⟨seg.conv, seg.cmd.code, seg.frg.toUInt8,
      seg.wnd.toUInt16, seg.ts, seg.sn, seg.una, UInt32.ofNat seg.data.length⟩, seg.data ++ rest) := by
    simp only [decodeHeader, encodeSeg, List.append_assoc, decode32u_encode32u, decode8u_encode8u,
      decode16u_encode16u]
  unfold decodeSeg
  rw [hheader]
  simp only [ne_eq, not_true_eq_false, if_false, hlen, List.length_append, ofCode_code]
  rw [if_neg (by omega), List.take_left, List.drop_left]
  rfl

/-! ## A datagram -/

/-- The segments of a datagram one after another. -/
def inputAll (kcp : Kcpcb) (maxack : Option UInt32) : List Seg → Kcpcb × Option UInt32
  | [] => (kcp, maxack)
  | seg :: segs =>
    inputAll (inputSeg kcp maxack seg.wire).1 (inputSeg kcp maxack seg.wire).2 segs

/-- The datagram consists of such segments of the session. -/
def Carries (conv : UInt32) (p : Seg → Prop) (datagram : Bytes) : Prop :=
  ∃ segs : List Seg, segs ≠ [] ∧ datagram = segs.flatMap encodeSeg ∧
    ∀ seg ∈ segs, seg.conv = conv ∧ seg.data.length < 2 ^ 31 ∧ p seg

theorem Carries.imp {conv : UInt32} {p q : Seg → Prop} {datagram : Bytes}
    (h : Carries conv p datagram) (hpq : ∀ seg, p seg → q seg) : Carries conv q datagram := by
  obtain ⟨segs, hne, heq, hsegs⟩ := h
  refine ⟨segs, hne, heq, fun seg hseg => ?_⟩
  obtain ⟨hconv, hlength, hp⟩ := hsegs seg hseg
  exact ⟨hconv, hlength, hpq seg hp⟩

theorem moveAvailable_nil (kcp : Kcpcb) : moveAvailable kcp [] = { kcp with rcvBuf := [] } :=
  rfl

theorem moveAvailable_cons (kcp : Kcpcb) (seg : Seg) (buf : List Seg) :
    moveAvailable kcp (seg :: buf) =
      if seg.sn = kcp.rcvNxt ∧ kcp.nrcvQue < kcp.rcvWnd then
        moveAvailable { kcp with rcvQueue := kcp.rcvQueue ++ [seg], rcvNxt := kcp.rcvNxt + 1 } buf
      else { kcp with rcvBuf := seg :: buf } :=
  rfl

@[simp] theorem moveAvailable_conv (kcp : Kcpcb) (buf : List Seg) :
    (moveAvailable kcp buf).conv = kcp.conv := by
  induction buf generalizing kcp with
  | nil => rfl
  | cons seg buf ih =>
    rw [moveAvailable_cons]
    split
    · exact ih _
    · rfl

@[simp] theorem parseData_conv (kcp : Kcpcb) (seg : Seg) : (parseData kcp seg).conv = kcp.conv := by
  unfold parseData
  split
  · rfl
  · split <;> exact moveAvailable_conv _ _

@[simp] theorem parseAck_conv (kcp : Kcpcb) (sn : UInt32) : (parseAck kcp sn).conv = kcp.conv := by
  unfold parseAck
  split <;> rfl

@[simp] theorem takeRtt_conv (kcp : Kcpcb) (ts : UInt32) : (takeRtt kcp ts).conv = kcp.conv := by
  unfold takeRtt
  split <;> rfl

@[simp] theorem inputPush_conv (kcp : Kcpcb) (seg : Seg) : (inputPush kcp seg).conv = kcp.conv := by
  unfold inputPush
  split
  · simp only
    split
    · exact parseData_conv _ _
    · rfl
  · rfl

theorem inputSeg_conv (kcp : Kcpcb) (maxack : Option UInt32) (seg : Seg) :
    (inputSeg kcp maxack seg).1.conv = kcp.conv := by
  unfold inputSeg
  cases seg.cmd with
  | ack => exact (parseAck_conv _ _).trans (takeRtt_conv _ _)
  | push => exact inputPush_conv _ _
  | wask | wins => rfl

theorem inputSegs_flatMap (kcp : Kcpcb) (maxack : Option UInt32) {segs : List Seg}
    (h : ∀ seg ∈ segs, seg.conv = kcp.conv ∧ seg.data.length < 2 ^ 31) :
    inputSegs kcp maxack (segs.flatMap encodeSeg) =
      ((inputAll kcp maxack segs).1, .ok (inputAll kcp maxack segs).2) := by
  induction segs generalizing kcp maxack with
  | nil =>
    rw [inputSegs]
    rfl
  | cons seg segs ih =>
    obtain ⟨hconv, hlength⟩ := h seg List.mem_cons_self
    rw [List.flatMap_cons, inputSegs, if_neg (by
      rw [List.length_append, length_encodeSeg]
      omega)]
    have hdecode := decodeSeg_encodeSeg hlength (segs.flatMap encodeSeg)
    rw [hconv] at hdecode
    split
    · rename_i herror
      cases hdecode.symm.trans herror
    · rename_i seg' rest' hok
      obtain ⟨rfl, rfl⟩ := Prod.mk.inj (Except.ok.inj (hdecode.symm.trans hok))
      refine ih _ _ fun seg' hseg' => ?_
      obtain ⟨hconv', hlength'⟩ := h seg' (List.mem_cons_of_mem seg hseg')
      exact ⟨hconv'.trans (inputSeg_conv kcp maxack _).symm, hlength'⟩

end CServer.Kcp
