import CServer.Netmap.Frames

/-!
# Echoed datagrams

`echo_udp_pkt` only exchanges words, so every checksum of the frame stays right. The zero that `main`
writes lies behind the payload.
-/
namespace CServer.Netmap

open OnesComplement

variable {slot : Slot} {frame out : List UInt8} {place n k : ℕ}

/-- The reply as a slot. -/
def udpReply (slot : Slot) : Slot := fun i => (echoUdpPkt (udpPkt slot)).bytes.getD i 0

theorem length_udpReply : (echoUdpPkt (udpPkt slot)).bytes.length = 170 := by
  simp [UdpPkt.bytes, echoUdpPkt, udpPkt, EthHdr.bytes, IpHdr.bytes, UdpHdr.bytes, ethHdr,
    Short.bytes, Long.bytes, ETH_ALEN]

theorem udpReply_eq (slot : Slot) : (echoUdpPkt (udpPkt slot)).bytes =
    bytesAt slot 6 6 ++ (bytesAt slot 0 6 ++ (bytesAt slot 12 14 ++ (bytesAt slot 30 4 ++
      (bytesAt slot 26 4 ++ (bytesAt slot 36 2 ++ (bytesAt slot 34 2 ++ (bytesAt slot 38 4 ++
        (bytesAt slot 42 128 ++ [])))))))) := by
  rw [List.append_nil, UdpPkt.bytes, List.append_assoc, List.append_assoc]
  rfl

/-- The place that a byte of the reply comes from. -/
def udpSource (i : ℕ) : ℕ :=
  if i < 34 then exchanged i else if i < 36 then i + 2 else if i < 38 then i - 2 else i

theorem udpReply_apply (slot : Slot) {i : ℕ} (h : i < 170) :
    udpReply slot i = slot (udpSource i) := by
  rw [udpReply, udpReply_eq, udpSource]
  by_cases hheader : i < 34
  · rw [if_pos hheader, getD_exchanged _ hheader]
  · obtain ⟨k, rfl⟩ := Nat.exists_eq_add_of_le (Nat.le_of_not_lt hheader)
    rw [if_neg hheader, getD_exchanged_of_le _ (Nat.le_add_right 34 k), Nat.add_sub_cancel_left]
    simp only [getD_bytesAt_append]
    split_ifs <;> first | omega | exact congrArg slot (by omega)

theorem bytesAt_udpReply {source : ℕ} (slot : Slot) (hplace : place + n ≤ 170)
    (h : ∀ i < n, udpSource (place + i) = source + i) :
    bytesAt (udpReply slot) place n = bytesAt slot source n := by
  refine List.map_congr_left fun i hi => ?_
  have hlt := List.mem_range.mp hi
  rw [udpReply_apply slot (by omega), h i hlt]

theorem udpReply_body (h : n ≤ 128) : bytesAt (udpReply slot) 42 n = bytesAt slot 42 n := by
  refine bytesAt_udpReply slot (by omega) fun i _ => ?_
  rw [udpSource, if_neg (by omega), if_neg (by omega), if_neg (by omega)]

/-- The zero behind the payload is not read. -/
theorem bytesAt_terminated (h : place + n ≤ 34 + k) :
    bytesAt (Function.update slot (34 + k) 0) place n = bytesAt slot place n :=
  bytesAt_congr fun i _ hi => Function.update_of_ne (by omega) _ _

/-- The reply goes back with what came. -/
structure Returned (frame reply : List UInt8) : Prop where
  dstMac : dstMac reply = srcMac frame
  srcMac : srcMac reply = Netmap.dstMac frame
  dstIp : dstIp reply = srcIp frame
  srcIp : srcIp reply = Netmap.dstIp frame
  dstPort : dstPort reply = srcPort frame
  srcPort : srcPort reply = Netmap.dstPort frame
  payload : payload reply = Netmap.payload frame

/-- The slot as `main` has it when it calls `echo_udp_pkt`. -/
def terminated (slot : Slot) (frame : List UInt8) : Slot :=
  Function.update slot (34 + udpLength frame) 0

/-- What goes out of the reply. -/
def udpEcho (slot : Slot) (frame : List UInt8) : List UInt8 :=
  (echoUdpPkt (udpPkt (terminated slot frame))).bytes.take (14 + totalLength frame)

theorem received_udpEcho : Received (udpReply (terminated slot frame)) (udpEcho slot frame) :=
  received_take _ _

theorem ValidUdp.length_udpEcho (h : ValidUdp frame) (slot : Slot)
    (hpayload : udpLength frame ≤ 136) :
    34 + udpLength frame ≤ (udpEcho slot frame).length := by
  have hinside := h.inside
  rw [udpEcho, List.length_take, length_udpReply]
  omega

/-- A field of the headers in the reply that is some field of the frame. -/
theorem ValidUdp.field_udpEcho (h : ValidUdp frame) (hreceived : Received slot frame)
    (hpayload : udpLength frame ≤ 136) {source : ℕ} (hplace : place + n ≤ 42)
    (hsource : source + n ≤ 42) (hfrom : ∀ i < n, udpSource (place + i) = source + i) :
    field (udpEcho slot frame) place n = field frame source n := by
  have hleast := h.least
  have hwhole := h.whole
  have hlength := h.length_udpEcho slot hpayload
  rw [received_udpEcho.field (by omega), hreceived.field (by omega),
    bytesAt_udpReply _ (by omega) hfrom, terminated, bytesAt_terminated (by omega)]

theorem ValidUdp.udpLength_udpEcho (h : ValidUdp frame) (hreceived : Received slot frame)
    (hpayload : udpLength frame ≤ 136) : udpLength (udpEcho slot frame) = udpLength frame :=
  number_congr (h.field_udpEcho hreceived hpayload (by omega) (by omega) (by decide))

theorem ValidUdp.totalLength_udpEcho (h : ValidUdp frame) (hreceived : Received slot frame)
    (hpayload : udpLength frame ≤ 136) : totalLength (udpEcho slot frame) = totalLength frame :=
  number_congr (h.field_udpEcho hreceived hpayload (by omega) (by omega) (by decide))

theorem ValidUdp.payload_udpEcho (h : ValidUdp frame) (hreceived : Received slot frame)
    (hpayload : udpLength frame ≤ 136) : payload (udpEcho slot frame) = payload frame := by
  have hwhole := h.whole
  have hleast := h.least
  have hlength := h.length_udpEcho slot hpayload
  rw [payload, payload, h.udpLength_udpEcho hreceived hpayload, received_udpEcho.field (by omega),
    hreceived.field (by omega), udpReply_body (by omega), terminated, bytesAt_terminated (by omega)]

/-- The datagram is its header and the payload. -/
theorem field_datagram (h : 8 ≤ udpLength frame) :
    field frame 34 (udpLength frame) = field frame 34 8 ++ payload frame := by
  obtain ⟨m, hm⟩ := Nat.exists_eq_add_of_le h
  rw [payload, hm, Nat.add_sub_cancel_left, field, List.take_add, List.drop_drop]
  rfl

theorem ValidUdp.returned (h : ValidUdp frame) (hreceived : Received slot frame)
    (hpayload : udpLength frame ≤ 136) : Returned frame (udpEcho slot frame) where
  dstMac := h.field_udpEcho hreceived hpayload (by omega) (by omega) (by decide)
  srcMac := h.field_udpEcho hreceived hpayload (by omega) (by omega) (by decide)
  dstIp := h.field_udpEcho hreceived hpayload (by omega) (by omega) (by decide)
  srcIp := h.field_udpEcho hreceived hpayload (by omega) (by omega) (by decide)
  dstPort := h.field_udpEcho hreceived hpayload (by omega) (by omega) (by decide)
  srcPort := h.field_udpEcho hreceived hpayload (by omega) (by omega) (by decide)
  payload := h.payload_udpEcho hreceived hpayload

/-- What the checksum of a datagram is taken of, with its ports apart. -/
theorem sum_udpSummed (h : 42 ≤ frame.length) (hleast : 8 ≤ udpLength frame) :
    (words .big (udpSummed frame)).sum = (words .big (srcIp frame)).sum +
      (words .big (dstIp frame)).sum + (words .big [0, PROTO_UDP]).sum +
      (words .big (field frame 38 2)).sum + (words .big (srcPort frame)).sum +
      (words .big (dstPort frame)).sum + (words .big (field frame 38 4)).sum +
      (words .big (payload frame)).sum := by
  have hsource : (words .big (field frame 34 8)).sum =
      (words .big (srcPort frame)).sum + (words .big (field frame 36 6)).sum :=
    sum_field_add 34 2 6 (by omega) rfl
  have hdest : (words .big (field frame 36 6)).sum =
      (words .big (dstPort frame)).sum + (words .big (field frame 38 4)).sum :=
    sum_field_add 36 2 4 (by omega) rfl
  have hlengths : (field frame 26 8).length = 8 ∧ (field frame 38 2).length = 2 ∧
      (field frame 34 8).length = 8 :=
    ⟨length_field (by omega), length_field (by omega), length_field (by omega)⟩
  obtain ⟨h8, h2, hudp⟩ := hlengths
  rw [udpSummed, field_datagram hleast, sum_words_append_even, sum_words_append_even,
    sum_words_append_even, sum_words_append_even, sum_addresses (by omega), hsource, hdest]
  · omega
  all_goals simp [h8, h2, hudp]

theorem ValidUdp.ip_udpEcho (h : ValidUdp frame) (hreceived : Received slot frame)
    (hpayload : udpLength frame ≤ 136) : ValidIp PROTO_UDP (udpEcho slot frame) := by
  have hback := h.returned hreceived hpayload
  have hwhole := h.whole
  have hleast := h.least
  have hlength := h.length_udpEcho slot hpayload
  refine h.ip.exchanged (by omega) (by omega) ?_ ?_ ?_ ?_ hback.srcIp hback.dstIp
  · exact h.field_udpEcho hreceived hpayload (by omega) (by omega) (by decide)
  · exact h.field_udpEcho hreceived hpayload (by omega) (by omega) (by decide)
  · exact h.field_udpEcho hreceived hpayload (by omega) (by omega) (by decide)
  · exact h.field_udpEcho hreceived hpayload (by omega) (by omega) (by decide)

theorem ValidUdp.udpEcho (h : ValidUdp frame) (hreceived : Received slot frame)
    (hpayload : udpLength frame ≤ 136) : ValidUdp (udpEcho slot frame) := by
  have hback := h.returned hreceived hpayload
  have hwhole := h.whole
  have hleast := h.least
  have hlength := h.length_udpEcho slot hpayload
  have hudp := h.udpLength_udpEcho hreceived hpayload
  have htotal := h.totalLength_udpEcho hreceived hpayload
  have hlen : field (Netmap.udpEcho slot frame) 38 2 = field frame 38 2 :=
    h.field_udpEcho hreceived hpayload (by omega) (by omega) (by decide)
  have hcheck : field (Netmap.udpEcho slot frame) 40 2 = field frame 40 2 :=
    h.field_udpEcho hreceived hpayload (by omega) (by omega) (by decide)
  have hrest : field (Netmap.udpEcho slot frame) 38 4 = field frame 38 4 :=
    h.field_udpEcho hreceived hpayload (by omega) (by omega) (by decide)
  refine ⟨h.ip_udpEcho hreceived hpayload, ?_, ?_, ?_, ?_, h.sum.congr ?_⟩
  · rw [hudp]
    exact hlength
  · rw [hudp, htotal]
    exact h.inside
  · rw [hudp]
    exact hleast
  · rw [hcheck]
    exact h.given
  · rw [sum_udpSummed (by omega) (hudp ▸ hleast), sum_udpSummed (by omega) hleast, hback.srcIp,
      hback.dstIp, hback.srcPort, hback.dstPort, hback.payload, hlen, hrest]
    omega

theorem mainIp_udp (order : ByteOrder) (h : ValidUdp frame) (hreceived : Received slot frame) :
    mainIp order slot = some (echoUdpPkt (udpPkt (terminated slot frame))).bytes := by
  have hwhole := h.whole
  have hleast := h.least
  obtain ⟨hproto, hprotocol⟩ := h.ip.kind hreceived (by omega)
  have hlen : (udpPkt slot).udp.len.ntohs = udpLength frame := (hreceived.number (by omega)).symm
  rw [mainIp, if_pos hproto]
  simp only [hlen]
  exact if_pos hprotocol

/-- What is injected for a valid datagram with at most 128 bytes, cut at its total length, is a valid
datagram the other way with the same payload. -/
theorem udp_echo_valid (order : ByteOrder) (slot : Slot) (frame : List UInt8)
    (hreceived : Received slot frame) (hvalid : ValidUdp frame)
    (hpayload : (payload frame).length ≤ 128) :
    ∃ injected, mainIp order slot = some injected ∧
      ValidUdp (injected.take (14 + totalLength frame)) ∧
      Returned frame (injected.take (14 + totalLength frame)) := by
  have hwhole := hvalid.whole
  have hleast := hvalid.least
  have hlength : (payload frame).length = udpLength frame - 8 := length_field (by omega)
  exact ⟨_, mainIp_udp order hvalid hreceived, hvalid.udpEcho hreceived (by omega),
    hvalid.returned hreceived (by omega)⟩

/-- A datagram `hi` from 10.0.0.1:5000 to 10.0.0.2:7. -/
def hiFrame : List UInt8 :=
  [2, 0, 0, 0, 0, 2, 2, 0, 0, 0, 0, 1, 8, 0, 69, 0, 0, 30, 0, 0, 0, 0, 64, 17, 102, 205, 10, 0, 0, 1,
    10, 0, 0, 2, 19, 136, 0, 7, 0, 10, 111, 223, 104, 105]

theorem udp_echo_valid_hi : ∃ injected,
    mainIp .little (fun i => hiFrame.getD i 0) = some injected ∧
      ValidUdp (injected.take 44) ∧ Returned hiFrame (injected.take 44) := by
  have hreceived : Received (fun i => hiFrame.getD i 0) hiFrame := received_take hiFrame 44
  have hip : ValidIp PROTO_UDP hiFrame := ⟨rfl, rfl, rfl, by decide⟩
  have hvalid : ValidUdp hiFrame :=
    ⟨hip, by decide, by decide, by decide, by decide, by decide⟩
  exact udp_echo_valid .little _ hiFrame hreceived hvalid (by decide)

end CServer.Netmap
