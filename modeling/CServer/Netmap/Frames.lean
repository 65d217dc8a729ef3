import CServer.Netmap.Checksum

/-!
# The packets of icmp_arp_udp_success.c

The packed structures as they lie over a receive slot, and what `main` injects for an IP packet. The
branch for ARP is left out. The fields keep their bytes in the order of the memory. Beside them stand
the fields of a frame by their places, and what makes a frame valid.
-/
namespace CServer.Netmap

open OnesComplement

/-- The bytes of a receive slot. -/
abbrev Slot := ℕ → UInt8

/-- An `unsigned short`. -/
structure Short where
  first : UInt8
  second : UInt8
  deriving DecidableEq

/-- An `unsigned int`. -/
structure Long where
  high : Short
  low : Short

def Short.bytes (s : Short) : List UInt8 := [s.first, s.second]

def Long.bytes (l : Long) : List UInt8 := l.high.bytes ++ l.low.bytes

def Short.ntohs (s : Short) : ℕ := ByteOrder.big.word s.first s.second

/-- An `unsigned short` that the program has computed. -/
def Short.store (order : ByteOrder) (w : UInt16) : Short :=
  ⟨(order.bytes w).1, (order.bytes w).2⟩

def bytesAt (slot : Slot) (place n : ℕ) : List UInt8 :=
  (List.range n).map fun i => slot (place + i)

def shortAt (slot : Slot) (place : ℕ) : Short := ⟨slot place, slot (place + 1)⟩

def longAt (slot : Slot) (place : ℕ) : Long := ⟨shortAt slot place, shortAt slot (place + 2)⟩

def ETH_ALEN : ℕ := 6
def PROTO_IP : ℕ := 0x0800
def PROTO_UDP : UInt8 := 17
def PROTO_ICMP : UInt8 := 1

structure EthHdr where
  hDest : List UInt8
  hSource : List UInt8
  hProto : Short

structure IpHdr where
  version : UInt8
  tos : UInt8
  totLen : Short
  id : Short
  flagOff : Short
  ttl : UInt8
  protocol : UInt8
  check : Short
  saddr : Long
  daddr : Long

structure UdpHdr where
  source : Short
  dest : Short
  len : Short
  check : Short

structure UdpPkt where
  eh : EthHdr
  ip : IpHdr
  udp : UdpHdr
  body : List UInt8

structure IcmpHdr where
  type : UInt8
  code : UInt8
  check : Short
  identifier : Short
  seq : Short
  data : List UInt8

structure IcmpPkt where
  eh : EthHdr
  ip : IpHdr
  icmp : IcmpHdr

/-! ## Over a slot -/

def ethHdr (slot : Slot) : EthHdr :=
  ⟨bytesAt slot 0 ETH_ALEN, bytesAt slot 6 ETH_ALEN, shortAt slot 12⟩

def ipHdr (slot : Slot) : IpHdr where
  version := slot 14
  tos := slot 15
  totLen := shortAt slot 16
  id := shortAt slot 18
  flagOff := shortAt slot 20
  ttl := slot 22
  protocol := slot 23
  check := shortAt slot 24
  saddr := longAt slot 26
  daddr := longAt slot 30

def udpPkt (slot : Slot) : UdpPkt where
  eh := ethHdr slot
  ip := ipHdr slot
  udp := ⟨shortAt slot 34, shortAt slot 36, shortAt slot 38, shortAt slot 40⟩
  body := bytesAt slot 42 128

def icmpPkt (slot : Slot) : IcmpPkt where
  eh := ethHdr slot
  ip := ipHdr slot
  icmp := ⟨slot 34, slot 35, shortAt slot 36, shortAt slot 38, shortAt slot 40, bytesAt slot 42 32⟩

/-! ## In the memory -/

def EthHdr.bytes (h : EthHdr) : List UInt8 := h.hDest ++ h.hSource ++ h.hProto.bytes

def IpHdr.bytes (h : IpHdr) : List UInt8 :=
  [h.version, h.tos] ++ h.totLen.bytes ++ h.id.bytes ++ h.flagOff.bytes ++ [h.ttl, h.protocol] ++
    h.check.bytes ++ h.saddr.bytes ++ h.daddr.bytes

def UdpHdr.bytes (h : UdpHdr) : List UInt8 :=
  h.source.bytes ++ h.dest.bytes ++ h.len.bytes ++ h.check.bytes

def UdpPkt.bytes (p : UdpPkt) : List UInt8 := p.eh.bytes ++ p.ip.bytes ++ p.udp.bytes ++ p.body

def IcmpHdr.bytes (h : IcmpHdr) : List UInt8 :=
  [h.type, h.code] ++ h.check.bytes ++ h.identifier.bytes ++ h.seq.bytes ++ h.data

def IcmpPkt.bytes (p : IcmpPkt) : List UInt8 := p.eh.bytes ++ p.ip.bytes ++ p.icmp.bytes

/-! ## The replies -/

def echoUdpPkt (udp : UdpPkt) : UdpPkt where
  eh := { udp.eh with hDest := udp.eh.hSource, hSource := udp.eh.hDest }
  ip := { udp.ip with saddr := udp.ip.daddr, daddr := udp.ip.saddr }
  udp := { udp.udp with source := udp.udp.dest, dest := udp.udp.source }
  body := udp.body

def echoIcmpPkt (order : ByteOrder) (icmp : IcmpPkt) : Option IcmpPkt :=
  let icmpHdr := { icmp.icmp with type := 0, code := 0, check := ⟨0, 0⟩ }
  let ip := { icmp.ip with saddr := icmp.ip.daddr, daddr := icmp.ip.saddr }
  let eh := { icmp.eh with hDest := icmp.eh.hSource, hSource := icmp.eh.hDest }
  (inCksum order icmpHdr.bytes).map fun check =>
    ⟨eh, ip, { icmpHdr with check := Short.store order check }⟩

/-- What `main` injects for a packet in a slot, if it is an IP packet. -/
def mainIp (order : ByteOrder) (slot : Slot) : Option (List UInt8) :=
  if (ethHdr slot).hProto.ntohs = PROTO_IP then
    let udp := udpPkt slot
    if udp.ip.protocol = PROTO_UDP then
      let udpLength := udp.udp.len.ntohs
      -- `body[udp_length - 8]`, where the body starts at 42
      let slot := Function.update slot (34 + udpLength) 0
      some (echoUdpPkt (udpPkt slot)).bytes
    else if udp.ip.protocol = PROTO_ICMP then
      let icmp := icmpPkt slot
      if icmp.icmp.type = 0x08 then (echoIcmpPkt order icmp).map IcmpPkt.bytes else none
    else none
  else none

/-! ## Frames -/

def field (frame : List UInt8) (place n : ℕ) : List UInt8 := (frame.drop place).take n

/-- Two bytes in network order. -/
def number (frame : List UInt8) (place : ℕ) : ℕ :=
  ByteOrder.big.word (frame.getD place 0) (frame.getD (place + 1) 0)

def dstMac (frame : List UInt8) : List UInt8 := field frame 0 6
def srcMac (frame : List UInt8) : List UInt8 := field frame 6 6
def totalLength (frame : List UInt8) : ℕ := number frame 16
def srcIp (frame : List UInt8) : List UInt8 := field frame 26 4
def dstIp (frame : List UInt8) : List UInt8 := field frame 30 4
def srcPort (frame : List UInt8) : List UInt8 := field frame 34 2
def dstPort (frame : List UInt8) : List UInt8 := field frame 36 2
def udpLength (frame : List UInt8) : ℕ := number frame 38
def payload (frame : List UInt8) : List UInt8 := field frame 42 (udpLength frame - 8)

/-- The pseudo-header and the datagram. -/
def udpSummed (frame : List UInt8) : List UInt8 :=
  field frame 26 8 ++ [0, PROTO_UDP] ++ field frame 38 2 ++ field frame 34 (udpLength frame)

/-- IPv4 with a header of 20 bytes, over Ethernet. -/
structure ValidIp (protocol : UInt8) (frame : List UInt8) : Prop where
  proto : field frame 12 2 = [0x08, 0x00]
  version : field frame 14 1 = [0x45]
  protocol : field frame 23 1 = [protocol]
  header : Verifies .big (field frame 14 20)

structure ValidUdp (frame : List UInt8) : Prop where
  ip : ValidIp PROTO_UDP frame
  whole : 34 + udpLength frame ≤ frame.length
  inside : 20 + udpLength frame ≤ totalLength frame
  least : 8 ≤ udpLength frame
  given : field frame 40 2 ≠ [0, 0]
  sum : Verifies .big (udpSummed frame)

/-- The slot begins with the frame. -/
def Received (slot : Slot) (frame : List UInt8) : Prop := bytesAt slot 0 frame.length = frame

variable {slot : Slot} {frame : List UInt8} {place n k : ℕ}

@[simp] theorem length_bytesAt : (bytesAt slot place n).length = n := by
  simp [bytesAt]

theorem field_bytesAt (h : place + n ≤ k) :
    field (bytesAt slot 0 k) place n = bytesAt slot place n := by
  apply List.ext_getElem?
  intro i
  by_cases hi : i < n
  · have hlt : place + i < k := by omega
    simp [field, bytesAt, hi, hlt]
  · simp [field, bytesAt, hi]

theorem Received.field (h : Received slot frame) (hlength : place + n ≤ frame.length) :
    field frame place n = bytesAt slot place n := by
  rw [← field_bytesAt hlength]
  exact congrArg (fun f => Netmap.field f place n) h.symm

theorem number_eq (frame : List UInt8) (place : ℕ) : number frame place =
    ByteOrder.big.word ((field frame place 2).getD 0 0) ((field frame place 2).getD 1 0) := by
  simp [number, field, List.getD_eq_getElem?_getD]

theorem number_congr {frame' : List UInt8} {place' : ℕ}
    (h : field frame place 2 = field frame' place' 2) :
    number frame place = number frame' place' := by
  rw [number_eq, number_eq, h]

theorem Received.number (h : Received slot frame) (hlength : place + 2 ≤ frame.length) :
    number frame place = (shortAt slot place).ntohs := by
  rw [number_eq, h.field hlength]
  rfl

theorem length_field (h : place + n ≤ frame.length) : (field frame place n).length = n := by
  rw [field, List.length_take, List.length_drop]
  omega

theorem field_add (frame : List UInt8) (place n m : ℕ) :
    field frame place (n + m) = field frame place n ++ field frame (place + n) m := by
  rw [field, List.take_add, List.drop_drop]
  rfl

/-- The sum of a field is that of its parts. -/
theorem sum_field_add (place n m : ℕ) (h : place + n ≤ frame.length) (heven : n % 2 = 0) :
    (words .big (field frame place (n + m))).sum =
      (words .big (field frame place n)).sum + (words .big (field frame (place + n) m)).sum := by
  rw [field_add, sum_words_append_even (by rw [length_field h, heven])]

theorem sum_addresses (h : 34 ≤ frame.length) : (words .big (field frame 26 8)).sum =
    (words .big (srcIp frame)).sum + (words .big (dstIp frame)).sum :=
  sum_field_add 26 4 4 (by omega) rfl

/-- The header without its addresses, and the addresses. -/
theorem sum_header (h : 34 ≤ frame.length) : (words .big (field frame 14 20)).sum =
    (words .big (field frame 14 12)).sum + (words .big (srcIp frame)).sum +
      (words .big (dstIp frame)).sum := by
  have hfirst : (words .big (field frame 14 20)).sum =
      (words .big (field frame 14 12)).sum + (words .big (field frame 26 8)).sum :=
    sum_field_add 14 12 8 (by omega) rfl
  rw [hfirst, sum_addresses h, Nat.add_assoc]

/-- The addresses of the header change places, which leaves its sum as it is. -/
theorem ValidIp.exchanged {protocol : UInt8} {reply : List UInt8} (h : ValidIp protocol frame)
    (hframe : 34 ≤ frame.length) (hreply : 34 ≤ reply.length)
    (hproto : field reply 12 2 = field frame 12 2) (hversion : field reply 14 1 = field frame 14 1)
    (hprotocol : field reply 23 1 = field frame 23 1)
    (hfirst : field reply 14 12 = field frame 14 12) (hsource : srcIp reply = dstIp frame)
    (hdest : dstIp reply = srcIp frame) : ValidIp protocol reply where
  proto := hproto.trans h.proto
  version := hversion.trans h.version
  protocol := hprotocol.trans h.protocol
  header := by
    refine h.header.congr ?_
    rw [sum_header hframe, sum_header hreply, hfirst, hsource, hdest]
    exact Nat.add_right_comm _ _ _

theorem bytesAt_add (slot : Slot) (place n m : ℕ) : bytesAt slot place (n + m) =
    bytesAt slot place n ++ bytesAt slot (place + n) m := by
  simp only [bytesAt, List.range_add, List.map_append, List.map_map, Function.comp_def,
    Nat.add_assoc]

theorem bytesAt_congr {slot' : Slot} (h : ∀ i, place ≤ i → i < place + n → slot' i = slot i) :
    bytesAt slot' place n = bytesAt slot place n := by
  refine List.map_congr_left fun i hi => ?_
  rw [List.mem_range] at hi
  exact h (place + i) (by omega) (by omega)

/-- A frame lies in the slot that it is read as. -/
theorem received_take (out : List UInt8) (k : ℕ) :
    Received (fun i => out.getD i 0) (out.take k) := by
  apply List.ext_getElem?
  intro i
  by_cases hi : i < (out.take k).length
  · have hboth : i < k ∧ i < out.length := by simpa using hi
    simp [bytesAt, hboth]
  · have hnone : (out.take k)[i]? = none := List.getElem?_eq_none (Nat.le_of_not_lt hi)
    rw [hnone, List.getElem?_eq_none]
    rw [length_bytesAt]
    exact Nat.le_of_not_lt hi

/-- Bytes that a packet has where the slot has them. -/
theorem getD_append_bytesAt {header : List UInt8} (hheader : header.length = place) {i : ℕ}
    (hfirst : place ≤ i) (hlast : i < place + n) :
    (header ++ bytesAt slot place n).getD i 0 = slot i := by
  subst hheader
  obtain ⟨j, rfl⟩ := Nat.exists_eq_add_of_le hfirst
  have hj : j < n := by omega
  simp [List.getD_eq_getElem?_getD, bytesAt, hj]

theorem getD_bytesAt_append (slot : Slot) (place n : ℕ) (rest : List UInt8) (i : ℕ) :
    (bytesAt slot place n ++ rest).getD i 0 =
      if i < n then slot (place + i) else rest.getD (i - n) 0 := by
  rw [List.getD_eq_getElem?_getD]
  split
  · rename_i hi
    have hlt : i < (bytesAt slot place n).length := by rwa [length_bytesAt]
    rw [List.getElem?_append_left hlt]
    simp [bytesAt, hi]
  · rename_i hi
    have hle : (bytesAt slot place n).length ≤ i := by
      rw [length_bytesAt]
      exact Nat.le_of_not_lt hi
    rw [List.getElem?_append_right hle, length_bytesAt, ← List.getD_eq_getElem?_getD]

/-- The place that a byte of the Ethernet header or the IP header of a reply comes from. -/
def exchanged (i : ℕ) : ℕ :=
  if i < 6 then i + 6 else if i < 12 then i - 6 else if i < 26 then i
  else if i < 30 then i + 4 else i - 4

/-- Both replies begin with the addresses exchanged. -/
theorem getD_exchanged (rest : List UInt8) {i : ℕ} (h : i < 34) :
    (bytesAt slot 6 6 ++ (bytesAt slot 0 6 ++ (bytesAt slot 12 14 ++ (bytesAt slot 30 4 ++
      (bytesAt slot 26 4 ++ rest))))).getD i 0 = slot (exchanged i) := by
  simp only [getD_bytesAt_append, exchanged]
  split_ifs <;> first | omega | exact congrArg slot (by omega)

theorem getD_exchanged_of_le (rest : List UInt8) {i : ℕ} (h : 34 ≤ i) :
    (bytesAt slot 6 6 ++ (bytesAt slot 0 6 ++ (bytesAt slot 12 14 ++ (bytesAt slot 30 4 ++
      (bytesAt slot 26 4 ++ rest))))).getD i 0 = rest.getD (i - 34) 0 := by
  rw [getD_bytesAt_append, if_neg (by omega), getD_bytesAt_append, if_neg (by omega),
    getD_bytesAt_append, if_neg (by omega), getD_bytesAt_append, if_neg (by omega),
    getD_bytesAt_append, if_neg (by omega)]
  exact congrArg (fun k => rest.getD k 0) (by omega)

/-- The bytes of a frame that `main` looks at. -/
theorem ValidIp.kind {protocol : UInt8} (h : ValidIp protocol frame)
    (hreceived : Received slot frame) (hlength : 34 ≤ frame.length) :
    (ethHdr slot).hProto.ntohs = PROTO_IP ∧ slot 23 = protocol := by
  have hproto := h.proto
  have hprotocol := h.protocol
  rw [hreceived.field (by omega)] at hproto hprotocol
  have hbytes : slot 12 = 0x08 ∧ slot 13 = 0x00 := by
    simpa [bytesAt, List.range_succ] using hproto
  obtain ⟨hfirst, hsecond⟩ := hbytes
  refine ⟨?_, by simpa [bytesAt] using hprotocol⟩
  rw [ethHdr, shortAt, Short.ntohs, hfirst, hsecond]
  rfl

end CServer.Netmap
