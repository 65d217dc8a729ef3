import CServer.Netmap.Frames

/-!
# Echo replies

`echo_icmp_pkt` copies and sums up 40 bytes from the ICMP header on, whatever the length of the
message. Behind 32 bytes of data the reply ends; behind fewer, what lies in the slot goes into the
checksum.
-/
namespace CServer.Netmap

open OnesComplement

def identifier (frame : List UInt8) : List UInt8 := field frame 38 2
def seq (frame : List UInt8) : List UInt8 := field frame 40 2
def echoData (frame : List UInt8) : List UInt8 := field frame 42 (totalLength frame - 28)

/-- The ICMP message of a packet. -/
def message (frame : List UInt8) : List UInt8 := field frame 34 (totalLength frame - 20)

/-- An echo request or an echo reply. -/
structure ValidEcho (type : UInt8) (frame : List UInt8) : Prop where
  ip : ValidIp PROTO_ICMP frame
  whole : 14 + totalLength frame ≤ frame.length
  least : 28 ≤ totalLength frame
  type : field frame 34 2 = [type, 0]
  sum : Verifies .big (message frame)

/-- A valid echo reply to a request. -/
structure Answers (frame reply : List UInt8) : Prop where
  valid : ValidEcho 0 reply
  identifier : identifier reply = Netmap.identifier frame
  seq : seq reply = Netmap.seq frame
  data : echoData reply = echoData frame
  dstIp : dstIp reply = srcIp frame
  srcIp : srcIp reply = Netmap.dstIp frame
  dstMac : dstMac reply = srcMac frame
  srcMac : srcMac reply = Netmap.dstMac frame

/-- The bytes between the data and the end of `data[32]`, as they lie in words. -/
def trailing (slot : Slot) (frame : List UInt8) : List UInt8 :=
  let n := totalLength frame - 28
  let rest := bytesAt slot (42 + n) (32 - n)
  if n % 2 = 0 then rest else 0 :: rest

/-- At most 32 bytes of data, and what follows them up to there counts nothing: its words sum up to
a multiple of 65535, and they are zero or the request has a byte behind its checksum that is not. -/
def Clean (slot : Slot) (frame : List UInt8) : Prop :=
  totalLength frame ≤ 28 + 32 ∧ allOnes ∣ (words .big (trailing slot frame)).sum ∧
    ((∀ b ∈ trailing slot frame, b = 0) ∨ ∃ b ∈ field frame 38 (totalLength frame - 24), b ≠ 0)

variable {slot : Slot} {frame : List UInt8} {order : ByteOrder} {place n : ℕ} {check : UInt16}

/-- What `main` injects with a checksum. -/
def icmpReply (order : ByteOrder) (slot : Slot) (check : UInt16) : List UInt8 :=
  bytesAt slot 6 6 ++ bytesAt slot 0 6 ++ bytesAt slot 12 14 ++ bytesAt slot 30 4 ++
    bytesAt slot 26 4 ++ [0, 0] ++ (Short.store order check).bytes ++ bytesAt slot 38 36

/-- The bytes that `echo_icmp_pkt` sums up. -/
def icmpSummed (slot : Slot) : List UInt8 := [0, 0] ++ 0 :: 0 :: bytesAt slot 38 36

theorem mainIp_icmp (order : ByteOrder) (h : ValidEcho 8 frame) (hreceived : Received slot frame) :
    ∃ check, mainIp order slot = some (icmpReply order slot check) ∧
      check.toNat = allOnes - onesWord allOnes (words order (icmpSummed slot)).sum := by
  have hwhole := h.whole
  have hleast := h.least
  obtain ⟨hproto, hprotocol⟩ := h.ip.kind hreceived (by omega)
  have htype := h.type
  rw [hreceived.field (by omega)] at htype
  have htype : slot 34 = 8 := by
    have hbytes : slot 34 = 8 ∧ slot 35 = 0 := by simpa [bytesAt, List.range_succ] using htype
    exact hbytes.1
  obtain ⟨check, hcheck, hvalue⟩ := inCksum_eq order
    (show (icmpSummed slot).length ≤ 65535 by simp [icmpSummed])
  refine ⟨check, ?_, hvalue⟩
  have hnotUdp : ¬(udpPkt slot).ip.protocol = PROTO_UDP := by
    show ¬slot 23 = PROTO_UDP
    rw [hprotocol]
    decide
  have hecho : echoIcmpPkt order (icmpPkt slot) = (inCksum order (icmpSummed slot)).map _ := rfl
  rw [mainIp, if_pos hproto]
  simp only [if_neg hnotUdp]
  rw [if_pos (show (udpPkt slot).ip.protocol = PROTO_ICMP from hprotocol),
    if_pos (show (icmpPkt slot).icmp.type = 8 from htype), hecho, hcheck, Option.map_some,
    Option.map_some, IcmpPkt.bytes, icmpReply]
  simp only [List.append_assoc]
  rfl

/-- What goes out of the reply. -/
def icmpEcho (order : ByteOrder) (slot : Slot) (check : UInt16) (frame : List UInt8) :
    List UInt8 :=
  (icmpReply order slot check).take (14 + totalLength frame)

theorem length_icmpReply : (icmpReply order slot check).length = 74 := by
  simp [icmpReply, Short.bytes]

theorem length_icmpEcho (order : ByteOrder) (slot : Slot) (check : UInt16) (frame : List UInt8) :
    (icmpEcho order slot check frame).length = min (14 + totalLength frame) 74 := by
  rw [icmpEcho, List.length_take, length_icmpReply]

theorem received_icmpEcho :
    Received (fun i => (icmpReply order slot check).getD i 0) (icmpEcho order slot check frame) :=
  received_take _ _

/-- A field of the headers in the reply that is some field of the frame. -/
theorem ValidEcho.field_icmpEcho (h : ValidEcho 8 frame) (hreceived : Received slot frame)
    {source : ℕ} (hplace : place + n ≤ 34) (hsource : source + n ≤ 34)
    (hfrom : ∀ i < n, exchanged (place + i) = source + i) :
    field (icmpEcho order slot check frame) place n = field frame source n := by
  have hwhole := h.whole
  have hleast := h.least
  have hlength := length_icmpEcho order slot check frame
  rw [received_icmpEcho.field (by omega), hreceived.field (by omega)]
  refine List.map_congr_left fun i hi => ?_
  have hlt := List.mem_range.mp hi
  simp only [icmpReply, List.append_assoc]
  rw [getD_exchanged _ (by omega), hfrom i hlt]

theorem ValidEcho.totalLength_icmpEcho (h : ValidEcho 8 frame) (order : ByteOrder) (check : UInt16)
    (hreceived : Received slot frame) :
    totalLength (icmpEcho order slot check frame) = totalLength frame :=
  number_congr (h.field_icmpEcho hreceived (by omega) (by omega) (by decide))

/-- The reply has what the slot has behind the checksum. -/
theorem ValidEcho.rest_icmpEcho (h : ValidEcho 8 frame) (hlong : totalLength frame ≤ 60)
    (hfirst : 38 ≤ place) (hlast : place + n ≤ 14 + totalLength frame) :
    field (icmpEcho order slot check frame) place n = bytesAt slot place n := by
  have hleast := h.least
  have hlength := length_icmpEcho order slot check frame
  have hheader : (bytesAt slot 6 6 ++ bytesAt slot 0 6 ++ bytesAt slot 12 14 ++ bytesAt slot 30 4 ++
    bytesAt slot 26 4 ++ [0, 0] ++ (Short.store order check).bytes).length = 38 := rfl
  rw [received_icmpEcho.field (by omega)]
  refine bytesAt_congr fun i hi hin => ?_
  exact getD_append_bytesAt hheader (by omega) (by omega)

theorem ValidEcho.ip_icmpEcho (h : ValidEcho 8 frame) (hreceived : Received slot frame) :
    ValidIp PROTO_ICMP (icmpEcho order slot check frame) := by
  have hwhole := h.whole
  have hleast := h.least
  have hlength := length_icmpEcho order slot check frame
  refine h.ip.exchanged (by omega) (by omega) ?_ ?_ ?_ ?_ ?_ ?_
  · exact h.field_icmpEcho hreceived (by omega) (by omega) (by decide)
  · exact h.field_icmpEcho hreceived (by omega) (by omega) (by decide)
  · exact h.field_icmpEcho hreceived (by omega) (by omega) (by decide)
  · exact h.field_icmpEcho hreceived (by omega) (by omega) (by decide)
  · exact h.field_icmpEcho hreceived (by omega) (by omega) (by decide)
  · exact h.field_icmpEcho hreceived (by omega) (by omega) (by decide)

/-- The message of the reply. -/
theorem ValidEcho.message_icmpEcho (h : ValidEcho 8 frame) (hreceived : Received slot frame)
    (hlong : totalLength frame ≤ 60) : message (icmpEcho order slot check frame) =
      [0, 0] ++ (order.bytes check).1 :: (order.bytes check).2 ::
        bytesAt slot 38 (totalLength frame - 24) := by
  have hleast := h.least
  have hlength := length_icmpEcho order slot check frame
  have hsplit : totalLength frame - 20 = 4 + (totalLength frame - 24) := by omega
  have hfirst : field (icmpEcho order slot check frame) 34 4 =
      [0, 0, (order.bytes check).1, (order.bytes check).2] := by
    rw [received_icmpEcho.field (by omega), bytesAt]
    simp only [icmpReply, List.append_assoc, getD_exchanged_of_le _ (Nat.le_add_right 34 _),
      Nat.add_sub_cancel_left]
    rfl
  rw [message, h.totalLength_icmpEcho order check hreceived, hsplit, field_add, hfirst,
    h.rest_icmpEcho hlong (by omega) (by omega)]
  rfl

/-- The sum that is taken is the one of the message and of what follows it. -/
theorem sum_icmpSummed (hleast : 28 ≤ totalLength frame) (hlong : totalLength frame ≤ 60) :
    (words order (icmpSummed slot)).sum =
      (words order (bytesAt slot 38 (totalLength frame - 24))).sum +
        (words order (trailing slot frame)).sum := by
  obtain ⟨n, hn⟩ := Nat.exists_eq_add_of_le hleast
  have hsplit : bytesAt slot 38 36 = bytesAt slot 38 (4 + n) ++ bytesAt slot (42 + n) (32 - n) := by
    have hadd := bytesAt_add slot 38 (4 + n) (32 - n)
    rwa [show 4 + n + (32 - n) = 36 by omega, show 38 + (4 + n) = 42 + n by omega] at hadd
  have hzero : order.word 0 0 = 0 := (order.word_eq_zero_iff 0 0).mpr ⟨rfl, rfl⟩
  have hparity : (4 + n) % 2 = n % 2 := by omega
  have hsum : (words order (icmpSummed slot)).sum = (words order (bytesAt slot 38 36)).sum := by
    simp [icmpSummed, words, hzero]
  rw [hsum, hsplit, sum_words_append, length_bytesAt, hparity, trailing, hn,
    show 28 + n - 24 = 4 + n by omega, Nat.add_sub_cancel_left]

theorem ValidEcho.verifies_iff (h : ValidEcho 8 frame) (hreceived : Received slot frame)
    (hlong : totalLength frame ≤ 60)
    (hcheck : check.toNat = allOnes - onesWord allOnes (words order (icmpSummed slot)).sum) :
    Verifies .big (message (icmpEcho order slot check frame)) ↔
      allOnes ∣ (words .big (trailing slot frame)).sum ∧ ((∀ b ∈ trailing slot frame, b = 0) ∨
        ∃ b ∈ field frame 38 (totalLength frame - 24), b ≠ 0) := by
  have hwhole := h.whole
  have hleast := h.least
  have hzero : order.word 0 0 = 0 := (order.word_eq_zero_iff 0 0).mpr ⟨rfl, rfl⟩
  have hplain : (words order ([0, 0] ++ 0 :: 0 :: bytesAt slot 38 (totalLength frame - 24))).sum =
      (words order (bytesAt slot 38 (totalLength frame - 24))).sum := by
    simp [words, hzero]
  rw [h.message_icmpEcho hreceived hlong, verifies_order .big order,
    OnesComplement.verifies_iff, ← onesWord_eq_top_iff (by decide), sum_words_set rfl, hplain, hcheck,
    sum_icmpSummed hleast hlong, onesWord_add_complement_iff (by decide), dvd_sum_words_iff,
    sum_words_eq_zero_iff, ne_eq, sum_words_eq_zero_iff, hreceived.field (by omega)]
  simp

theorem ValidEcho.data_icmpEcho (h : ValidEcho 8 frame) (hreceived : Received slot frame)
    (hlong : totalLength frame ≤ 60) :
    echoData (icmpEcho order slot check frame) = echoData frame := by
  have hwhole := h.whole
  have hleast := h.least
  rw [echoData, echoData, h.totalLength_icmpEcho order check hreceived,
    h.rest_icmpEcho hlong (by omega) (by omega), hreceived.field (by omega)]

/-- The reply is right when its checksum is. -/
theorem ValidEcho.answers (h : ValidEcho 8 frame) (hreceived : Received slot frame)
    (hlong : totalLength frame ≤ 60)
    (hsum : Verifies .big (message (icmpEcho order slot check frame))) :
    Answers frame (icmpEcho order slot check frame) := by
  have hleast := h.least
  have htotal := h.totalLength_icmpEcho order check hreceived
  have hlength := length_icmpEcho order slot check frame
  have hkept : ∀ place, 38 ≤ place → place + 2 ≤ 42 →
      field (icmpEcho order slot check frame) place 2 = field frame place 2 := by
    intro place hfirst hlast
    have hwhole := h.whole
    rw [h.rest_icmpEcho hlong hfirst (by omega), hreceived.field (by omega)]
  refine ⟨⟨h.ip_icmpEcho hreceived, ?_, ?_, ?_, hsum⟩, hkept 38 (by omega) (by omega),
    hkept 40 (by omega) (by omega), h.data_icmpEcho hreceived hlong,
    h.field_icmpEcho hreceived (by omega) (by omega) (by decide),
    h.field_icmpEcho hreceived (by omega) (by omega) (by decide),
    h.field_icmpEcho hreceived (by omega) (by omega) (by decide),
    h.field_icmpEcho hreceived (by omega) (by omega) (by decide)⟩
  · omega
  · omega
  · rw [received_icmpEcho.field (by omega)]
    rfl

/-- More than 32 bytes of data do not come back. -/
theorem ValidEcho.not_answers (h : ValidEcho 8 frame) (hreceived : Received slot frame)
    (hlong : 60 < totalLength frame) : ¬Answers frame (icmpEcho order slot check frame) := by
  intro hanswers
  have hwhole := hanswers.valid.whole
  rw [h.totalLength_icmpEcho order check hreceived, length_icmpEcho] at hwhole
  omega

/-- What is injected for a valid echo request, cut at its total length, is a valid reply exactly
when the slot is clean behind at most 32 bytes of data. -/
theorem icmp_echo_answers_iff (order : ByteOrder) (slot : Slot) (frame : List UInt8)
    (hreceived : Received slot frame) (hvalid : ValidEcho 8 frame) :
    (∃ injected, mainIp order slot = some injected ∧
      Answers frame (injected.take (14 + totalLength frame))) ↔ Clean slot frame := by
  obtain ⟨check, hmain, hcheck⟩ := mainIp_icmp order hvalid hreceived
  simp only [hmain, Option.some.injEq, exists_eq_left']
  change Answers frame (icmpEcho order slot check frame) ↔ _
  by_cases hlong : totalLength frame ≤ 60
  · have hverifies := hvalid.verifies_iff hreceived hlong hcheck
    constructor
    · intro hanswers
      exact ⟨hlong, hverifies.mp hanswers.valid.sum⟩
    · rintro ⟨-, hclean⟩
      exact hvalid.answers hreceived hlong (hverifies.mpr hclean)
  · exact iff_of_false (hvalid.not_answers hreceived (Nat.lt_of_not_le hlong))
      fun hclean => hlong hclean.1

/-- An echo request from 10.0.0.1 to 10.0.0.2 up to its data. -/
def requestHeader (length ipCheck check : UInt8 × UInt8) : List UInt8 :=
  [2, 0, 0, 0, 0, 2, 2, 0, 0, 0, 0, 1, 8, 0, 69, 0, length.1, length.2, 0, 0, 0, 0, 64, 1, ipCheck.1,
    ipCheck.2, 10, 0, 0, 1, 10, 0, 0, 2, 8, 0, check.1, check.2, 0, 1, 0, 2]

/-- With 32 bytes of data. -/
def shortRequest : List UInt8 :=
  requestHeader (0, 60) (102, 191) (225, 230) ++ List.replicate 32 97

/-- With 56 bytes of data. -/
def longRequest : List UInt8 :=
  requestHeader (0, 84) (102, 167) (81, 86) ++ List.replicate 56 97

theorem icmp_echo_answers_short : ∃ injected,
    mainIp .little (fun i => shortRequest.getD i 0) = some injected ∧
      Answers shortRequest (injected.take 74) := by
  have hreceived : Received (fun i => shortRequest.getD i 0) shortRequest :=
    received_take shortRequest 74
  have hip : ValidIp PROTO_ICMP shortRequest := ⟨rfl, rfl, rfl, by decide⟩
  have hvalid : ValidEcho 8 shortRequest := ⟨hip, by decide, by decide, rfl, by decide⟩
  have hnone : trailing (fun i => shortRequest.getD i 0) shortRequest = [] := rfl
  have hclean : Clean (fun i => shortRequest.getD i 0) shortRequest :=
    ⟨by decide, by decide, Or.inl (hnone ▸ List.forall_mem_nil _)⟩
  exact (icmp_echo_answers_iff .little _ shortRequest hreceived hvalid).mpr hclean

/-- The reply to a request with 56 bytes of data ends behind the first 32. -/
theorem long_request_unanswered :
    Received (fun i => longRequest.getD i 0) longRequest ∧ ValidEcho 8 longRequest ∧
      ¬∃ injected, mainIp .little (fun i => longRequest.getD i 0) = some injected ∧
        Answers longRequest (injected.take (14 + totalLength longRequest)) := by
  have hreceived : Received (fun i => longRequest.getD i 0) longRequest :=
    received_take longRequest 98
  have hip : ValidIp PROTO_ICMP longRequest := ⟨rfl, rfl, rfl, by decide⟩
  have hvalid : ValidEcho 8 longRequest := ⟨hip, by decide, by decide, rfl, by decide +kernel⟩
  refine ⟨hreceived, hvalid, ?_⟩
  rintro ⟨injected, hmain, hanswers⟩
  obtain ⟨check, hmain', -⟩ := mainIp_icmp .little hvalid hreceived
  obtain rfl := Option.some.inj (hmain'.symm.trans hmain)
  exact hvalid.not_answers hreceived (by decide) hanswers

end CServer.Netmap
