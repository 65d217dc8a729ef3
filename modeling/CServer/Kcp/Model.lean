import Mathlib.Algebra.Group.Nat.Defs
import Mathlib.Data.UInt

/-!
# The protocol of ikcp.c

`ikcp_send` cuts what the user sends into segments, `ikcp_flush` numbers them and puts them into
datagrams as often as it takes, `ikcp_input` reads the datagrams of the other side, and `ikcp_recv`
hands out what is there in order. The queues are lists, so that the counters `nsnd_que` and the like
are their lengths. The allocator, the log and the calls of `ikcp_qprint` are left out. A slash that
stands alone behind `if (lost) {` is read as the comment that it was.
-/
namespace CServer.Kcp

abbrev Bytes := List UInt8

/-! ## The numbers in a datagram -/

def encode8u (c : UInt8) : Bytes := [c]

def encode16u (w : UInt16) : Bytes := [UInt8.ofNat w.toNat, UInt8.ofNat (w.toNat / 2 ^ 8)]

def encode32u (l : UInt32) : Bytes :=
  [UInt8.ofNat l.toNat, UInt8.ofNat (l.toNat / 2 ^ 8), UInt8.ofNat (l.toNat / 2 ^ 16),
    UInt8.ofNat (l.toNat / 2 ^ 24)]

/-- The byte at `p`. -/
def byteAt (p : Bytes) (i : ℕ) : ℕ := (p.getD i 0).toNat

def decode8u (p : Bytes) : UInt8 × Bytes := (UInt8.ofNat (byteAt p 0), p.drop 1)

def decode16u (p : Bytes) : UInt16 × Bytes :=
  (UInt16.ofNat (byteAt p 0 + 2 ^ 8 * byteAt p 1), p.drop 2)

def decode32u (p : Bytes) : UInt32 × Bytes :=
  (UInt32.ofNat (byteAt p 0 + 2 ^ 8 * byteAt p 1 + 2 ^ 16 * byteAt p 2 + 2 ^ 24 * byteAt p 3),
    p.drop 4)

/-- `_itimediff`. -/
def itimediff (later earlier : UInt32) : ℤ := (later - earlier).toInt32.toInt

/-! ## Segments and the control block -/

inductive Cmd where
  | push
  | ack
  | wask
  | wins
  deriving DecidableEq, Repr

/-- `IKCP_CMD_PUSH` and the others. -/
def Cmd.code : Cmd → UInt8
  | .push => 81
  | .ack => 82
  | .wask => 83
  | .wins => 84

def Cmd.ofCode (c : UInt8) : Option Cmd :=
  if c = 81 then some .push
  else if c = 82 then some .ack
  else if c = 83 then some .wask
  else if c = 84 then some .wins
  else none

/-- `IKCPSEG`. Its `len` is the length of the data. -/
structure Seg where
  conv : UInt32 := 0
  cmd : Cmd := .push
  frg : UInt32 := 0
  wnd : UInt32 := 0
  ts : UInt32 := 0
  sn : UInt32 := 0
  una : UInt32 := 0
  resendts : UInt32 := 0
  rto : UInt32 := 0
  fastack : UInt32 := 0
  xmit : UInt32 := 0
  data : Bytes := []
  deriving DecidableEq, Repr

/-- `IKCPCB`. -/
structure Kcpcb where
  conv : UInt32
  mtu : UInt32 := 1400
  mss : UInt32 := 1400 - 24
  state : UInt32 := 0
  sndUna : UInt32 := 0
  sndNxt : UInt32 := 0
  rcvNxt : UInt32 := 0
  ssthresh : UInt32 := 2
  rxRttval : ℤ := 0
  rxSrtt : ℤ := 0
  rxRto : UInt32 := 200
  rxMinrto : UInt32 := 100
  sndWnd : UInt32 := 32
  rcvWnd : UInt32 := 128
  rmtWnd : UInt32 := 128
  cwnd : UInt32 := 0
  probe : UInt32 := 0
  current : UInt32 := 0
  interval : UInt32 := 100
  tsFlush : UInt32 := 100
  xmit : UInt32 := 0
  nodelay : UInt32 := 0
  updated : Bool := false
  tsProbe : UInt32 := 0
  probeWait : UInt32 := 0
  deadLink : UInt32 := 20
  incr : UInt32 := 0
  sndQueue : List Seg := []
  rcvQueue : List Seg := []
  sndBuf : List Seg := []
  rcvBuf : List Seg := []
  acklist : List (UInt32 × UInt32) := []
  fastresend : ℤ := 0
  fastlimit : ℤ := 5
  nocwnd : Bool := false
  stream : Bool := false

/-- `ikcp_create`. -/
def create (conv : UInt32) : Kcpcb := { conv := conv }

/-- `nrcv_que`. -/
def Kcpcb.nrcvQue (kcp : Kcpcb) : UInt32 := UInt32.ofNat kcp.rcvQueue.length

/-- `ikcp_setmtu`. -/
def setmtu (kcp : Kcpcb) (mtu : ℤ) : Kcpcb :=
  if mtu < 50 then kcp else { kcp with mtu := UInt32.ofInt mtu, mss := UInt32.ofInt mtu - 24 }

/-- `ikcp_wndsize`. -/
def wndsize (kcp : Kcpcb) (sndwnd rcvwnd : ℤ) : Kcpcb :=
  { kcp with
    sndWnd := if 0 < sndwnd then UInt32.ofInt sndwnd else kcp.sndWnd
    rcvWnd := if 0 < rcvwnd then max (UInt32.ofInt rcvwnd) 128 else kcp.rcvWnd }

/-- What `ikcp_nodelay` makes of an interval. -/
def bounded (interval : ℤ) : UInt32 := UInt32.ofInt (max 10 (min interval 5000))

/-- `ikcp_nodelay`. -/
def setNodelay (kcp : Kcpcb) (nodelay interval resend nc : ℤ) : Kcpcb :=
  { kcp with
    nodelay := if 0 ≤ nodelay then UInt32.ofInt nodelay else kcp.nodelay
    rxMinrto := if 0 ≤ nodelay then (if nodelay = 0 then 100 else 30) else kcp.rxMinrto
    interval := if 0 ≤ interval then bounded interval else kcp.interval
    fastresend := if 0 ≤ resend then resend else kcp.fastresend
    nocwnd := if 0 ≤ nc then decide (nc ≠ 0) else kcp.nocwnd }

/-! ## What the user calls -/

/-- The length of the message at the front of the queue, up to the fragment with the number 0. -/
def messageLength : List Seg → ℕ
  | [] => 0
  | seg :: rest => if seg.frg = 0 then seg.data.length else seg.data.length + messageLength rest

/-- `ikcp_peeksize`. -/
def peeksize (kcp : Kcpcb) : ℤ :=
  match kcp.rcvQueue with
  | [] => -1
  | seg :: _ =>
    if seg.frg = 0 then seg.data.length
    else if kcp.nrcvQue < seg.frg + 1 then -1
    else messageLength kcp.rcvQueue

/-- The fragments that `ikcp_recv` merges, and the queue without them. -/
def mergeFragments : List Seg → Bytes × List Seg
  | [] => ([], [])
  | seg :: rest =>
    if seg.frg = 0 then (seg.data, rest)
    else (seg.data ++ (mergeFragments rest).1, (mergeFragments rest).2)

/-- The loop that moves what is next from `rcv_buf` to `rcv_queue`. -/
def moveAvailable (kcp : Kcpcb) : List Seg → Kcpcb
  | [] => { kcp with rcvBuf := [] }
  | seg :: buf =>
    if seg.sn = kcp.rcvNxt ∧ kcp.nrcvQue < kcp.rcvWnd then
      moveAvailable { kcp with rcvQueue := kcp.rcvQueue ++ [seg], rcvNxt := kcp.rcvNxt + 1 } buf
    else { kcp with rcvBuf := seg :: buf }

/-- The peer is told when there is room again. -/
def fastRecover (kcp : Kcpcb) (recover : Bool) : Kcpcb :=
  if kcp.nrcvQue < kcp.rcvWnd ∧ recover then { kcp with probe := kcp.probe ||| 2 } else kcp

/-- `ikcp_recv`, with the bytes that it copies. A negative length asks for a peek. -/
def recv (kcp : Kcpcb) (len : ℤ) : Kcpcb × ℤ × Bytes :=
  if kcp.rcvQueue = [] then (kcp, -1, [])
  else if peeksize kcp < 0 then (kcp, -2, [])
  else if |len| < peeksize kcp then (kcp, -3, [])
  else
    let recover := decide (kcp.rcvWnd ≤ kcp.nrcvQue)
    let (buffer, rest) := mergeFragments kcp.rcvQueue
    let kcp := { kcp with rcvQueue := if len < 0 then kcp.rcvQueue else rest }
    (fastRecover (moveAvailable kcp kcp.rcvBuf) recover, buffer.length, buffer)

/-- The segments of a message. In a stream all their numbers are 0. -/
def fragments (stream : Bool) (mss : ℕ) : ℕ → Bytes → List Seg
  | 0, _ => []
  | count + 1, buffer =>
    { frg := if stream then 0 else UInt32.ofNat count, data := buffer.take mss } ::
      fragments stream mss count (buffer.drop mss)

/-- How much of the buffer is put into the last segment that waits. -/
def Kcpcb.extend (kcp : Kcpcb) (buffer : Bytes) : ℕ :=
  match kcp.sndQueue.getLast? with
  | some old =>
    if kcp.stream ∧ old.data.length < kcp.mss.toNat then
      min buffer.length (kcp.mss.toNat - old.data.length)
    else 0
  | none => 0

/-- In a stream the last segment that waits is filled first. -/
def extendLast (kcp : Kcpcb) (buffer : Bytes) : Kcpcb :=
  match kcp.sndQueue.getLast? with
  | some old =>
    if kcp.stream ∧ old.data.length < kcp.mss.toNat then
      { kcp with
        sndQueue := kcp.sndQueue.dropLast ++
          [{ data := old.data ++ buffer.take (kcp.extend buffer) }] }
    else kcp
  | none => kcp

/-- `count` in `ikcp_send`. -/
def fragmentCount (length mss : ℕ) : ℕ := if length ≤ mss then 1 else (length + mss - 1) / mss

/-- `ikcp_send`. -/
def send (kcp : Kcpcb) (buffer : Bytes) : Kcpcb × ℤ :=
  let kcp' := extendLast kcp buffer
  let buffer := buffer.drop (kcp.extend buffer)
  if kcp.stream ∧ buffer = [] then (kcp', 0)
  else
    let count := fragmentCount buffer.length kcp.mss.toNat
    if 128 ≤ count then (kcp', -2)
    else ({ kcp' with
      sndQueue := kcp'.sndQueue ++ fragments kcp.stream kcp.mss.toNat count buffer }, 0)

/-! ## What comes in -/

/-- `ikcp_update_ack`. -/
def updateAck (kcp : Kcpcb) (rtt : ℤ) : Kcpcb :=
  let rxRttval := if kcp.rxSrtt = 0 then rtt / 2 else (3 * kcp.rxRttval + |rtt - kcp.rxSrtt|) / 4
  let rxSrtt := if kcp.rxSrtt = 0 then rtt else max 1 ((7 * kcp.rxSrtt + rtt) / 8)
  let rto := UInt32.ofInt (rxSrtt + max (kcp.interval.toNat : ℤ) (4 * rxRttval))
  { kcp with
    rxRttval := rxRttval
    rxSrtt := rxSrtt
    rxRto := min (max kcp.rxMinrto rto) 60000 }

/-- `ikcp_shrink_buf`. -/
def shrinkBuf (kcp : Kcpcb) : Kcpcb :=
  { kcp with sndUna := match kcp.sndBuf with
    | [] => kcp.sndNxt
    | seg :: _ => seg.sn }

def removeSn (sn : UInt32) : List Seg → List Seg
  | [] => []
  | seg :: rest =>
    if sn = seg.sn then rest
    else if itimediff sn seg.sn < 0 then seg :: rest
    else seg :: removeSn sn rest

/-- The sequence number is one of those that are under way. -/
def Kcpcb.Sent (kcp : Kcpcb) (sn : UInt32) : Prop :=
  ¬ (itimediff sn kcp.sndUna < 0 ∨ 0 ≤ itimediff sn kcp.sndNxt)

instance (kcp : Kcpcb) (sn : UInt32) : Decidable (kcp.Sent sn) := inferInstanceAs (Decidable (¬ _))

/-- `ikcp_parse_ack`. -/
def parseAck (kcp : Kcpcb) (sn : UInt32) : Kcpcb :=
  if kcp.Sent sn then { kcp with sndBuf := removeSn sn kcp.sndBuf } else kcp

/-- `ikcp_parse_una`. -/
def parseUna (kcp : Kcpcb) (una : UInt32) : Kcpcb :=
  { kcp with sndBuf := kcp.sndBuf.dropWhile fun seg => decide (0 < itimediff una seg.sn) }

def countSkips (sn : UInt32) : List Seg → List Seg
  | [] => []
  | seg :: rest =>
    if itimediff sn seg.sn < 0 then seg :: rest
    else if sn ≠ seg.sn then { seg with fastack := seg.fastack + 1 } :: countSkips sn rest
    else seg :: countSkips sn rest

/-- `ikcp_parse_fastack`. -/
def parseFastack (kcp : Kcpcb) (sn : UInt32) : Kcpcb :=
  if kcp.Sent sn then { kcp with sndBuf := countSkips sn kcp.sndBuf } else kcp

/-- `ikcp_ack_push`. -/
def ackPush (kcp : Kcpcb) (sn ts : UInt32) : Kcpcb := { kcp with acklist := kcp.acklist ++ [(sn, ts)] }

/-- The search for the place of a segment, from the end of `rcv_buf`; nothing when it is there. -/
def insertFromEnd (newseg : Seg) : List Seg → Option (List Seg)
  | [] => some [newseg]
  | seg :: front =>
    if seg.sn = newseg.sn then none
    else if 0 < itimediff newseg.sn seg.sn then some (newseg :: seg :: front)
    else (insertFromEnd newseg front).map (seg :: ·)

/-- `ikcp_parse_data`. -/
def parseData (kcp : Kcpcb) (newseg : Seg) : Kcpcb :=
  if 0 ≤ itimediff newseg.sn (kcp.rcvNxt + kcp.rcvWnd) ∨ itimediff newseg.sn kcp.rcvNxt < 0 then kcp
  else
    match insertFromEnd newseg kcp.rcvBuf.reverse with
    | some buf => moveAvailable kcp buf.reverse
    | none => moveAvailable kcp kcp.rcvBuf

/-- What `ikcp_input` remembers of the acknowledgements of a datagram: `flag`, `maxack`. -/
def latest (maxack : Option UInt32) (sn : UInt32) : Option UInt32 :=
  match maxack with
  | none => some sn
  | some latest => if 0 < itimediff sn latest then some sn else some latest

/-- The round trip of a segment that is acknowledged counts when its time is not in the future. -/
def takeRtt (kcp : Kcpcb) (ts : UInt32) : Kcpcb :=
  if 0 ≤ itimediff kcp.current ts then updateAck kcp (itimediff kcp.current ts) else kcp

/-- What `ikcp_input` does with data: within the window it is acknowledged, new or not. -/
def inputPush (kcp : Kcpcb) (seg : Seg) : Kcpcb :=
  if itimediff seg.sn (kcp.rcvNxt + kcp.rcvWnd) < 0 then
    let kcp := ackPush kcp seg.sn seg.ts
    if 0 ≤ itimediff seg.sn kcp.rcvNxt then parseData kcp seg else kcp
  else kcp

/-- One segment of a datagram: `ikcp_input` behind the checks. -/
def inputSeg (kcp : Kcpcb) (maxack : Option UInt32) (seg : Seg) : Kcpcb × Option UInt32 :=
  let kcp := shrinkBuf (parseUna { kcp with rmtWnd := seg.wnd } seg.una)
  match seg.cmd with
  | .ack => (shrinkBuf (parseAck (takeRtt kcp seg.ts) seg.sn), latest maxack seg.sn)
  | .push => (inputPush kcp seg, maxack)
  | .wask => ({ kcp with probe := kcp.probe ||| 2 }, maxack)
  | .wins => (kcp, maxack)

/-- What is in front of the data of a segment. -/
structure Header where
  conv : UInt32
  cmd : UInt8
  frg : UInt8
  wnd : UInt16
  ts : UInt32
  sn : UInt32
  una : UInt32
  len : UInt32

def decodeHeader (data : Bytes) : Header × Bytes :=
  let (conv, data) := decode32u data
  let (cmd, data) := decode8u data
  let (frg, data) := decode8u data
  let (wnd, data) := decode16u data
  let (ts, data) := decode32u data
  let (sn, data) := decode32u data
  let (una, data) := decode32u data
  let (len, data) := decode32u data
  (⟨conv, cmd, frg, wnd, ts, sn, una, len⟩, data)

/-- The next segment and what is behind it, or the error that `ikcp_input` returns. -/
def decodeSeg (conv : UInt32) (data : Bytes) : Except ℤ (Seg × Bytes) :=
  let (head, data) := decodeHeader data
  if head.conv ≠ conv then .error (-1)
  else if data.length < head.len.toNat ∨ head.len.toInt32.toInt < 0 then .error (-2)
  else
    match Cmd.ofCode head.cmd with
    | none => .error (-3)
    | some cmd => .ok ({
        conv := conv
        cmd := cmd
        frg := head.frg.toUInt32
        wnd := head.wnd.toUInt32
        ts := head.ts
        sn := head.sn
        una := head.una
        data := data.take head.len.toNat }, data.drop head.len.toNat)

theorem decodeHeader_rest (data : Bytes) : (decodeHeader data).2 = data.drop 24 := by
  simp [decodeHeader, decode8u, decode16u, decode32u]

theorem decodeSeg_length {conv : UInt32} {data rest : Bytes} {seg : Seg}
    (h : decodeSeg conv data = .ok (seg, rest)) : rest.length ≤ data.length - 24 := by
  have hrest := decodeHeader_rest data
  unfold decodeSeg at h
  split at h
  rename_i head data' hheader
  rw [hheader] at hrest
  split at h
  · cases h
  · split at h
    · cases h
    · split at h
      · cases h
      · obtain ⟨-, rfl⟩ := Prod.mk.inj (Except.ok.inj h)
        rw [show data' = _ from hrest, List.length_drop, List.length_drop]
        omega

/-- The loop of `ikcp_input`. -/
def inputSegs (kcp : Kcpcb) (maxack : Option UInt32) (data : Bytes) :
    Kcpcb × Except ℤ (Option UInt32) :=
  if data.length < 24 then (kcp, .ok maxack)
  else
    match _h : decodeSeg kcp.conv data with
    | .error code => (kcp, .error code)
    | .ok (seg, rest) =>
      let (kcp, maxack) := inputSeg kcp maxack seg
      inputSegs kcp maxack rest
termination_by data.length
decreasing_by
  have hrest := decodeSeg_length ‹_›
  omega

/-- How `cwnd` grows: by a segment below `ssthresh`, above it by the part that `incr` counts. -/
def growWindow (kcp : Kcpcb) : Kcpcb :=
  if kcp.cwnd < kcp.ssthresh then { kcp with cwnd := kcp.cwnd + 1, incr := kcp.incr + kcp.mss }
  else
    let incr := if kcp.incr < kcp.mss then kcp.mss else kcp.incr
    let incr := incr + (kcp.mss * kcp.mss / incr + kcp.mss / 16)
    { kcp with
      incr := incr
      cwnd := if (kcp.cwnd + 1) * kcp.mss ≤ incr then
          (incr + kcp.mss - 1) / (if 0 < kcp.mss then kcp.mss else 1)
        else kcp.cwnd }

/-- What `ikcp_input` does to `cwnd` when the first segment was acknowledged. -/
def openWindow (kcp : Kcpcb) : Kcpcb :=
  if kcp.cwnd < kcp.rmtWnd then
    let kcp := growWindow kcp
    if kcp.rmtWnd < kcp.cwnd then { kcp with cwnd := kcp.rmtWnd, incr := kcp.rmtWnd * kcp.mss } else kcp
  else kcp

/-- `ikcp_input`. -/
def input (kcp : Kcpcb) (data : Bytes) : Kcpcb × ℤ :=
  if data.length < 24 then (kcp, -1)
  else
    match inputSegs kcp none data with
    | (kcp', .error code) => (kcp', code)
    | (kcp', .ok maxack) =>
      let kcp' := match maxack with
        | some sn => parseFastack kcp' sn
        | none => kcp'
      (if 0 < itimediff kcp'.sndUna kcp.sndUna then openWindow kcp' else kcp', 0)

/-! ## What goes out -/

/-- `ikcp_encode_seg`, with the data behind it. -/
def encodeSeg (seg : Seg) : Bytes :=
  encode32u seg.conv ++ encode8u seg.cmd.code ++ encode8u seg.frg.toUInt8 ++
    encode16u seg.wnd.toUInt16 ++ encode32u seg.ts ++ encode32u seg.sn ++ encode32u seg.una ++
    encode32u (UInt32.ofNat seg.data.length) ++ seg.data

/-- The buffer up to `ptr`, and what was given to `output`. -/
structure Output where
  buffer : Bytes := []
  datagrams : List Bytes := []

/-- `ikcp_output`, when there is something in the buffer. -/
def Output.flush (o : Output) : Output :=
  if o.buffer = [] then o else { buffer := [], datagrams := o.datagrams ++ [o.buffer] }

/-- A segment is put into the buffer; a datagram is at most `mtu` long. -/
def Output.put (o : Output) (mtu : UInt32) (seg : Seg) : Output :=
  let o := if mtu.toNat < o.buffer.length + (24 + seg.data.length) then o.flush else o
  { o with buffer := o.buffer ++ encodeSeg seg }

/-- `ikcp_wnd_unused`. -/
def wndUnused (kcp : Kcpcb) : UInt32 :=
  if kcp.nrcvQue < kcp.rcvWnd then kcp.rcvWnd - kcp.nrcvQue else 0

/-- The segment on the stack of `ikcp_flush`. -/
def control (kcp : Kcpcb) : Seg :=
  { conv := kcp.conv, cmd := .ack, wnd := wndUnused kcp, una := kcp.rcvNxt }

/-- When a remote window of 0 is to be asked about. -/
def probeWindow (kcp : Kcpcb) : Kcpcb :=
  if kcp.rmtWnd = 0 then
    if kcp.probeWait = 0 then { kcp with probeWait := 7000, tsProbe := kcp.current + 7000 }
    else if 0 ≤ itimediff kcp.current kcp.tsProbe then
      let probeWait := max kcp.probeWait 7000
      let probeWait := min (probeWait + probeWait / 2) 120000
      { kcp with
        probeWait := probeWait
        tsProbe := kcp.current + probeWait
        probe := kcp.probe ||| 1 }
    else kcp
  else { kcp with tsProbe := 0, probeWait := 0 }

/-- The loop that moves segments from `snd_queue` to `snd_buf`, where they get their numbers. -/
def moveToBuf (kcp : Kcpcb) (cwnd wnd : UInt32) : List Seg → Kcpcb
  | [] => { kcp with sndQueue := [] }
  | newseg :: queue =>
    if itimediff kcp.sndNxt (kcp.sndUna + cwnd) < 0 then
      moveToBuf { kcp with
        sndNxt := kcp.sndNxt + 1
        sndBuf := kcp.sndBuf ++ [{ newseg with
          conv := kcp.conv
          cmd := .push
          wnd := wnd
          ts := kcp.current
          sn := kcp.sndNxt
          una := kcp.rcvNxt
          resendts := kcp.current
          rto := kcp.rxRto
          fastack := 0
          xmit := 0 }] } cwnd wnd queue
    else { kcp with sndQueue := newseg :: queue }

/-- Why a segment is put into a datagram. -/
inductive Reason where
  | first
  | lost
  | skipped
  | none
  deriving DecidableEq

def resent (kcp : Kcpcb) : UInt32 :=
  if 0 < kcp.fastresend then UInt32.ofInt kcp.fastresend else 0xffffffff

def reason (kcp : Kcpcb) (segment : Seg) : Reason :=
  if segment.xmit = 0 then .first
  else if 0 ≤ itimediff kcp.current segment.resendts then .lost
  else if resent kcp ≤ segment.fastack ∧
      (segment.xmit.toInt32.toInt ≤ kcp.fastlimit ∨ kcp.fastlimit ≤ 0) then .skipped
  else .none

/-- The timer of a segment that is sent. -/
def restart (kcp : Kcpcb) (segment : Seg) : Reason → Seg
  | .first =>
    let rtomin := if kcp.nodelay = 0 then kcp.rxRto >>> 3 else 0
    { segment with
      xmit := segment.xmit + 1
      rto := kcp.rxRto
      resendts := kcp.current + kcp.rxRto + rtomin }
  | .lost =>
    let rto := if kcp.nodelay = 0 then segment.rto + max segment.rto kcp.rxRto
      else segment.rto + ((if kcp.nodelay < 2 then segment.rto else kcp.rxRto).toInt32 / 2).toUInt32
    { segment with xmit := segment.xmit + 1, rto := rto, resendts := kcp.current + rto }
  | .skipped =>
    { segment with
      xmit := segment.xmit + 1
      fastack := 0
      resendts := kcp.current + segment.rto }
  | .none => segment

/-- `xmit`, `state`, `change` and `lost` of the loop over `snd_buf`. -/
structure Losses where
  xmit : UInt32
  state : UInt32
  change : Bool := false
  lost : Bool := false

/-- The loop over `snd_buf`. -/
def sendBuf (kcp : Kcpcb) (wnd : UInt32) : List Seg → Output → Losses → List Seg × Output × Losses
  | [], o, losses => ([], o, losses)
  | segment :: rest, o, losses =>
    let why := reason kcp segment
    if why = .none then
      let (rest, o, losses) := sendBuf kcp wnd rest o losses
      (segment :: rest, o, losses)
    else
      let segment := { restart kcp segment why with ts := kcp.current, wnd := wnd, una := kcp.rcvNxt }
      let losses := { losses with
        xmit := if why = .lost then losses.xmit + 1 else losses.xmit
        lost := losses.lost || why = .lost
        change := losses.change || why = .skipped
        state := if kcp.deadLink ≤ segment.xmit then 0xffffffff else losses.state }
      let (rest, o, losses) := sendBuf kcp wnd rest (o.put kcp.mtu segment) losses
      (segment :: rest, o, losses)

/-- `cwnd` and `ssthresh` after a flush. -/
def closeWindow (kcp : Kcpcb) (cwnd : UInt32) (losses : Losses) : Kcpcb :=
  let kcp :=
    if losses.change then
      let ssthresh := max ((kcp.sndNxt - kcp.sndUna) / 2) 2
      { kcp with
        ssthresh := ssthresh
        cwnd := ssthresh + resent kcp
        incr := (ssthresh + resent kcp) * kcp.mss }
    else kcp
  let kcp :=
    if losses.lost then { kcp with ssthresh := max (cwnd / 2) 2, cwnd := 1, incr := kcp.mss } else kcp
  if kcp.cwnd < 1 then { kcp with cwnd := 1, incr := kcp.mss } else kcp

/-- The segment on the stack behind the acknowledgements. -/
def afterAcks (kcp : Kcpcb) : Seg :=
  match kcp.acklist.getLast? with
  | some ack => { control kcp with sn := ack.1, ts := ack.2 }
  | none => control kcp

def putAcks (kcp : Kcpcb) (acklist : List (UInt32 × UInt32)) (o : Output) : Output :=
  acklist.foldl (fun o ack => o.put kcp.mtu { control kcp with sn := ack.1, ts := ack.2 }) o

/-- The acknowledgements and the questions about windows. -/
def putControl (kcp : Kcpcb) (o : Output) : Output :=
  let o := putAcks kcp kcp.acklist o
  let seg := afterAcks kcp
  let probe := (probeWindow kcp).probe
  let o := if probe &&& 1 ≠ 0 then o.put kcp.mtu { seg with cmd := .wask } else o
  if probe &&& 2 ≠ 0 then o.put kcp.mtu { seg with cmd := .wins } else o

/-- How much may be under way: `cwnd` in `ikcp_flush`. -/
def sendWindow (kcp : Kcpcb) : UInt32 :=
  let cwnd := min kcp.sndWnd kcp.rmtWnd
  if kcp.nocwnd then cwnd else min kcp.cwnd cwnd

/-- What acknowledgements and questions leave behind. -/
def afterControl (kcp : Kcpcb) : Kcpcb := { probeWindow kcp with acklist := [], probe := 0 }

/-- `ikcp_flush`, with the datagrams that it gives to `output`. -/
def flush (kcp : Kcpcb) : Kcpcb × List Bytes :=
  if ¬ kcp.updated then (kcp, [])
  else
    let wnd := wndUnused kcp
    let cwnd := sendWindow kcp
    let o := putControl kcp {}
    let kcp := afterControl kcp
    let kcp := moveToBuf kcp cwnd wnd kcp.sndQueue
    let (sndBuf, o, losses) := sendBuf kcp wnd kcp.sndBuf o { xmit := kcp.xmit, state := kcp.state }
    let kcp := { kcp with sndBuf := sndBuf, xmit := losses.xmit, state := losses.state }
    (closeWindow kcp cwnd losses, o.flush.datagrams)

/-- `ikcp_update`. -/
def update (kcp : Kcpcb) (current : UInt32) : Kcpcb × List Bytes :=
  let kcp := { kcp with
    current := current
    updated := true
    tsFlush := if kcp.updated then kcp.tsFlush else current }
  let slap := itimediff kcp.current kcp.tsFlush
  let far := 10000 ≤ slap ∨ slap < -10000
  let tsFlush := if far then kcp.current else kcp.tsFlush
  if far ∨ 0 ≤ slap then
    let tsFlush := tsFlush + kcp.interval
    let tsFlush := if 0 ≤ itimediff kcp.current tsFlush then kcp.current + kcp.interval else tsFlush
    flush { kcp with tsFlush := tsFlush }
  else ({ kcp with tsFlush := tsFlush }, [])

end CServer.Kcp
