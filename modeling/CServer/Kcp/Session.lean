import CServer.Kcp.Output
import CServer.Kcp.Messages

/-!
# Two peers and the network between them

The network may lose, repeat and reorder datagrams: whatever a peer has sent may come at the other
side at any time, or never. The user still gets what the other user has sent, in order and once.
-/
namespace CServer.Kcp

open Delivery

/-- `net b` is what `b` has given to `output`. -/
structure System where
  peer : Bool → Kcpcb
  net : Bool → List Bytes
  sent : Bool → List Bytes
  received : Bool → List Bytes

/-- What `b` does. -/
def System.act (s : System) (b : Bool) (x : Kcpcb) (datagrams sent received : List Bytes) :
    System where
  peer := Function.update s.peer b x
  net := Function.update s.net b (s.net b ++ datagrams)
  sent := Function.update s.sent b (s.sent b ++ sent)
  received := Function.update s.received b (s.received b ++ received)

/-- The sequence numbers of a session do not come round again. -/
inductive Action : System → System → Prop where
  | send (s : System) (b : Bool) (buffer : Bytes)
    (hroom : (s.peer b).sndNxt.toNat + (s.peer b).sndQueue.length + 128 ≤ 2 ^ 31) :
    Action s (s.act b (send (s.peer b) buffer).1 [] (accepted (s.peer b) buffer) [])
  | recv (s : System) (b : Bool) (len : ℤ) :
    Action s (s.act b (recv (s.peer b) len).1 [] [] (delivered (s.peer b) len))
  | update (s : System) (b : Bool) (current : UInt32) :
    Action s (s.act b (update (s.peer b) current).1 (update (s.peer b) current).2 [] [])
  | flush (s : System) (b : Bool) :
    Action s (s.act b (flush (s.peer b)).1 (flush (s.peer b)).2 [] [])
  | input (s : System) (b : Bool) (datagram : Bytes) (hnet : datagram ∈ s.net !b) :
    Action s (s.act b (input (s.peer b) datagram).1 [] [] [])
  | wndsize (s : System) (b : Bool) (sndwnd rcvwnd : ℤ) :
    Action s (s.act b (wndsize (s.peer b) sndwnd rcvwnd) [] [] [])
  | nodelay (s : System) (b : Bool) (nodelay interval resend nc : ℤ) :
    Action s (s.act b (setNodelay (s.peer b) nodelay interval resend nc) [] [] [])

/-- A new peer. The user chooses the mode and the `mtu` before anything is sent. -/
def start (conv : UInt32) (stream : Bool) (mtu : ℤ) : Kcpcb :=
  setmtu { create conv with stream := stream } mtu

def System.start (conv : UInt32) (stream : Bool → Bool) (mtu : Bool → ℤ) : System where
  peer := fun b => Kcp.start conv (stream b) (mtu b)
  net := fun _ => []
  sent := fun _ => []
  received := fun _ => []

/-- An `int` holds the `mtu`. -/
def Reachable (conv : UInt32) (s : System) : Prop :=
  ∃ stream : Bool → Bool, ∃ mtu : Bool → ℤ, (∀ b, mtu b < 2 ^ 31) ∧
    Relation.ReflTransGen Action (System.start conv stream mtu) s

section

variable {s : System} {b : Bool} {x : Kcpcb} {datagrams sent received : List Bytes}

@[simp] theorem act_peer : (s.act b x datagrams sent received).peer b = x :=
  Function.update_self ..

@[simp] theorem act_peer_not : (s.act b x datagrams sent received).peer (!b) = s.peer !b :=
  Function.update_of_ne (Bool.not_ne_self b) ..

@[simp] theorem act_net : (s.act b x datagrams sent received).net b = s.net b ++ datagrams :=
  Function.update_self ..

@[simp] theorem act_net_not : (s.act b x datagrams sent received).net (!b) = s.net !b :=
  Function.update_of_ne (Bool.not_ne_self b) ..

@[simp] theorem act_sent : (s.act b x datagrams sent received).sent b = s.sent b ++ sent :=
  Function.update_self ..

@[simp] theorem act_sent_not : (s.act b x datagrams sent received).sent (!b) = s.sent !b :=
  Function.update_of_ne (Bool.not_ne_self b) ..

@[simp] theorem act_received :
    (s.act b x datagrams sent received).received b = s.received b ++ received :=
  Function.update_self ..

@[simp] theorem act_received_not :
    (s.act b x datagrams sent received).received (!b) = s.received !b :=
  Function.update_of_ne (Bool.not_ne_self b) ..

end

/-! ## The invariant -/

/-- The direction in which `b` sends. -/
structure Link (conv : UInt32) (s : System) (b : Bool) (own other : Direction) : Prop where
  sending : own.sending = (s.peer b).sending
  receiving : own.receiving = (s.peer !b).receiving
  conv : own.setup.conv = conv
  ok : own.Ok
  sent : Sent own.setup.stream (own.log ++ own.sending.sndQueue) (s.sent b)
  got : Got own.consumed (s.received !b)
  net : ∀ datagram ∈ s.net b, Fit own.setup.conv own.setup.mtu (Told own.line other.line) datagram

def Inv (conv : UInt32) (s : System) (d : Bool → Direction) : Prop :=
  ∀ b, Link conv s b (d b) (d !b)

variable {conv : UInt32} {s s' : System} {d : Bool → Direction} {b : Bool} {x : Kcpcb}
  {datagrams sent received : List Bytes} {own other own' other' : Direction}

theorem exists_of_both {p : Bool → Direction → Direction → Prop} (b : Bool)
    (own other : Direction) (hb : p b own other)
    (hnot : p (!b) other own) : ∃ d : Bool → Direction, ∀ b, p b (d b) (d !b) := by
  refine ⟨fun c => if c = b then own else other, fun c => ?_⟩
  cases b <;> cases c <;> assumption

/-- The peer that acts sees its own direction and the other one. -/
theorem Inv.act (h : Inv conv s d) (more part : List Piece)
    (hown : own = { d b with sending := x.sending, log := (d b).log ++ more })
    (hother : other = { d !b with receiving := x.receiving, consumed := (d !b).consumed ++ part })
    (hfrom : Goes (d b) own) (hto : Goes (d !b) other)
    (hsent : Sent own.setup.stream (own.log ++ own.sending.sndQueue) (s.sent b ++ sent))
    (hgot : Got other.consumed (s.received b ++ received))
    (hnet : ∀ datagram ∈ datagrams,
      Fit own.setup.conv own.setup.mtu (Told own.line other.line) datagram) :
    ∃ d', Inv conv (s.act b x datagrams sent received) d' := by
  have hb := h b
  have hnot := h !b
  rw [Bool.not_not] at hnot
  refine exists_of_both b own other ?_ ?_
  · exact {
      sending := by rw [hown, act_peer]
      receiving := by
        rw [hown, act_peer_not]
        exact hb.receiving
      conv := by
        rw [hown]
        exact hb.conv
      ok := hfrom.1
      sent := by
        rw [act_sent]
        exact hsent
      got := by
        rw [hown, act_received_not]
        exact hb.got
      net := by
        rw [act_net]
        intro datagram hdatagram
        rcases List.mem_append.mp hdatagram with hold | hnew
        · have hfit := (hb.net datagram hold).imp fun seg hseg => hseg.steps hfrom.2 hto.2
          rw [hown] at hfit ⊢
          exact hfit
        · exact hnet datagram hnew }
  · exact {
      sending := by
        rw [hother, act_peer_not]
        exact hnot.sending
      receiving := by rw [hother, Bool.not_not, act_peer]
      conv := by
        rw [hother]
        exact hnot.conv
      ok := hto.1
      sent := by
        rw [hother, act_sent_not]
        exact hnot.sent
      got := by
        rw [Bool.not_not, act_received]
        exact hgot
      net := by
        rw [act_net_not]
        intro datagram hdatagram
        have hfit := (hnot.net datagram hdatagram).imp fun seg hseg => hseg.steps hto.2 hfrom.2
        rw [hother] at hfit ⊢
        exact hfit }

/-! ## One action -/

/-- The direction in which `b` receives. -/
theorem Inv.incoming (h : Inv conv s d) (b : Bool) : (d !b).Ok ∧
    (d !b).receiving = (s.peer b).receiving ∧ Got (d !b).consumed (s.received b) ∧
    ∀ datagram ∈ s.net !b, Carries conv (Told (d !b).line (d b).line) datagram := by
  have hnot := h !b
  rw [Bool.not_not] at hnot
  refine ⟨hnot.ok, ?_, ?_, fun datagram hdatagram => ?_⟩
  · have hreceiving := hnot.receiving
    rw [Bool.not_not] at hreceiving
    exact hreceiving
  · have hgot := hnot.got
    rw [Bool.not_not] at hgot
    exact hgot
  · rw [← hnot.conv]
    exact (hnot.net datagram hdatagram).1

/-- An action that hands nothing out. -/
theorem Inv.quiet (h : Inv conv s d) (more : List Piece)
    (hown : own = { d b with sending := x.sending, log := (d b).log ++ more })
    (hother : other = { d !b with receiving := x.receiving }) (hfrom : Goes (d b) own)
    (hto : Goes (d !b) other)
    (hsent : Sent own.setup.stream (own.log ++ own.sending.sndQueue) (s.sent b ++ sent))
    (hnet : ∀ datagram ∈ datagrams,
      Fit own.setup.conv own.setup.mtu (Told own.line other.line) datagram) :
    ∃ d', Inv conv (s.act b x datagrams sent []) d' := by
  obtain ⟨-, -, hgot, -⟩ := h.incoming b
  refine h.act more [] hown ?_ hfrom hto hsent ?_ hnet
  · rw [hother, List.append_nil]
  · rw [hother, List.append_nil]
    exact hgot

/-- A peer that only changes what it keeps for itself. -/
theorem Inv.idle (h : Inv conv s d) (hs : x.sending = (s.peer b).sending)
    (hr : x.receiving = (s.peer b).receiving) : ∃ d', Inv conv (s.act b x [] [] []) d' := by
  obtain ⟨hto, hreceiving, -, -⟩ := h.incoming b
  have hown : d b = { d b with sending := x.sending, log := (d b).log ++ [] } := by
    rw [hs, ← (h b).sending, List.append_nil]
  have hother : d (!b) = { d !b with receiving := x.receiving } := by
    rw [hr, ← hreceiving]
  refine h.quiet [] hown hother (h b).ok.goes hto.goes ?_ (by simp)
  rw [List.append_nil]
  exact (h b).sent

/-- Another window changes nothing of what has arrived. -/
theorem Inv.window (h : Inv conv s d) (hs : x.sending = (s.peer b).sending)
    (hr : x.receiving = { (s.peer b).receiving with rcvWnd := x.rcvWnd }) :
    ∃ d', Inv conv (s.act b x [] [] []) d' := by
  obtain ⟨hto, hreceiving, -, -⟩ := h.incoming b
  have hown : d b = { d b with sending := x.sending, log := (d b).log ++ [] } := by
    rw [hs, ← (h b).sending, List.append_nil]
  refine h.quiet [] hown rfl (h b).ok.goes ?_ ?_ (by simp)
  · rw [hr, ← hreceiving]
    exact hto.stay rfl rfl hto.acks
  · rw [List.append_nil]
    exact (h b).sent

theorem Inv.send (h : Inv conv s d) (buffer : Bytes)
    (hroom : (s.peer b).sndNxt.toNat + (s.peer b).sndQueue.length + 128 ≤ 2 ^ 31) :
    ∃ d', Inv conv (s.act b (send (s.peer b) buffer).1 [] (accepted (s.peer b) buffer) []) d' := by
  obtain ⟨hto, hreceiving, -, -⟩ := h.incoming b
  have hsetup := (h b).ok.setup_eq (h b).sending
  have hlog := (h b).ok.sndNxt_eq (h b).sending
  have hsent := (h b).sent
  rw [hsetup] at hsent
  obtain ⟨hgoes, hsent'⟩ := send_goes buffer (h b).ok (h b).sending
    (by rw [← hlog, Kcpcb.sending, List.length_map]; exact hroom) hsent
  refine h.quiet [] (by rw [List.append_nil]) rfl hgoes ?_ ?_ (by simp)
  · rw [send_receiving, ← hreceiving]
    exact hto.goes
  · exact hsetup ▸ hsent'

theorem Inv.recv (h : Inv conv s d) (len : ℤ) :
    ∃ d', Inv conv (s.act b (recv (s.peer b) len).1 [] [] (delivered (s.peer b) len)) d' := by
  obtain ⟨hto, hreceiving, hgot, -⟩ := h.incoming b
  have hcounted : Counted (d !b).log := List.IsChain.infix (h !b).sent.counted
    ((List.prefix_append _ _).isInfix.map _)
  obtain ⟨part, hgoes, hgot'⟩ := recv_goes (s.peer b) len hto hreceiving hcounted hgot
  refine h.act [] part ?_ rfl (h b).ok.goes hgoes ?_ hgot' (by simp)
  · rw [recv_sending, ← (h b).sending, List.append_nil]
  · rw [List.append_nil]
    exact (h b).sent

theorem Inv.input (h : Inv conv s d) {datagram : Bytes} (hnet : datagram ∈ s.net !b) :
    ∃ d', Inv conv (s.act b (input (s.peer b) datagram).1 [] [] []) d' := by
  obtain ⟨hto, hreceiving, -, hcarries⟩ := h.incoming b
  have hconv : (s.peer b).conv = conv := by
    rw [← (h b).conv, (h b).ok.setup_eq (h b).sending]
    rfl
  have hdatagram := hcarries datagram hnet
  rw [← hconv] at hdatagram
  obtain ⟨hto', hfrom', hqueue, -⟩ := input_goes hto (h b).ok hreceiving (h b).sending hdatagram
  refine h.quiet [] (by rw [List.append_nil]) rfl hfrom' hto' ?_ (by simp)
  rw [List.append_nil, hqueue, ← (h b).sending]
  exact (h b).sent

/-- A flush of the peer, perhaps with another time. -/
theorem Inv.flush (h : Inv conv s d) (hs : x.sending = (s.peer b).sending)
    (hr : x.receiving = (s.peer b).receiving) :
    ∃ d', Inv conv (s.act b (flush x).1 (flush x).2 [] []) d' := by
  obtain ⟨hto, hreceiving, -, -⟩ := h.incoming b
  have hs' : (d b).sending = x.sending := (h b).sending.trans hs.symm
  obtain ⟨more, other, own, hother, hown, hqueue, hto', hfrom', hnet⟩ :=
    flush_goes hto (h b).ok (hreceiving.trans hr.symm) hs'
  refine h.quiet more hown hother hfrom' hto' ?_ ?_
  · have hsent := (h b).sent
    rw [hqueue, ← List.append_assoc] at hsent
    rw [hown, List.append_nil]
    exact hsent
  · have hsetup : own.setup = x.setup := by
      rw [hown]
      exact (h b).ok.setup_eq hs'
    rw [hsetup]
    exact hnet

theorem update_cases (x : Kcpcb) (current : UInt32) :
    ∃ x', x'.sending = x.sending ∧ x'.receiving = x.receiving ∧
      (update x current = flush x' ∨ update x current = (x', [])) := by
  have hcases : ∀ (due : Prop) [Decidable due] (y z : Kcpcb), y.sending = x.sending →
      y.receiving = x.receiving → z.sending = x.sending → z.receiving = x.receiving →
      ∃ x', x'.sending = x.sending ∧ x'.receiving = x.receiving ∧
        ((if due then flush y else (z, [])) = flush x' ∨
          (if due then flush y else (z, [])) = (x', [])) := by
    intro due _ y z hy hy' hz hz'
    split
    · exact ⟨y, hy, hy', .inl rfl⟩
    · exact ⟨z, hz, hz', .inr rfl⟩
  exact hcases _ _ _ rfl rfl rfl rfl

theorem Inv.step (h : Inv conv s d) (hact : Action s s') : ∃ d', Inv conv s' d' := by
  cases hact with
  | send b buffer hroom => exact h.send buffer hroom
  | recv b len => exact h.recv len
  | update b current =>
    obtain ⟨x, hs, hr, heq | heq⟩ := update_cases (s.peer b) current
    · rw [heq]
      exact h.flush hs hr
    · rw [heq]
      exact h.idle hs hr
  | flush b => exact h.flush rfl rfl
  | input b datagram hnet => exact h.input hnet
  | wndsize b sndwnd rcvwnd => exact h.window rfl rfl
  | nodelay b nodelay interval resend nc => exact h.idle rfl rfl

/-! ## Every run -/

theorem start_setup (conv : UInt32) (stream : Bool) {mtu : ℤ} (hmtu : mtu < 2 ^ 31) :
    (start conv stream mtu).mtu.toNat = 24 + (start conv stream mtu).mss.toNat ∧
      (start conv stream mtu).mtu.toNat < 2 ^ 31 ∧ 0 < (start conv stream mtu).mss.toNat := by
  unfold start setmtu
  split
  · show (1400 : UInt32).toNat = 24 + (1400 - 24 : UInt32).toNat ∧ (1400 : UInt32).toNat < 2 ^ 31 ∧
      0 < (1400 - 24 : UInt32).toNat
    decide
  · rename_i hlong
    obtain ⟨n, rfl⟩ := Int.eq_ofNat_of_zero_le (show 0 ≤ mtu by omega)
    have hn : (UInt32.ofInt (n : ℤ)).toNat = n := by
      rw [UInt32.ofInt, UInt32.toNat_ofNat']
      omega
    have hsub : (UInt32.ofInt (n : ℤ) - 24).toNat = n - 24 := by
      rw [UInt32.toNat_sub_of_le _ _ (UInt32.le_iff_toNat_le.mpr (by rw [hn]; simp; omega)), hn]
      rfl
    simp only [hn, hsub]
    omega

theorem start_sending (conv : UInt32) (stream : Bool) (mtu : ℤ) :
    (start conv stream mtu).sending = ⟨(start conv stream mtu).setup, 0, [], []⟩ := by
  unfold start setmtu
  split <;> rfl

theorem start_receiving (conv : UInt32) (stream : Bool) (mtu : ℤ) :
    (start conv stream mtu).receiving = ⟨128, 0, [], [], []⟩ := by
  unfold start setmtu
  split <;> rfl

theorem start_conv (conv : UInt32) (stream : Bool) (mtu : ℤ) :
    (start conv stream mtu).setup.conv = conv := by
  unfold start setmtu
  split <;> rfl

theorem Inv.start (conv : UInt32) (stream : Bool → Bool) {mtu : Bool → ℤ} (hmtu : ∀ b, mtu b < 2 ^ 31) :
    ∃ d, Inv conv (System.start conv stream mtu) d := by
  let setup := fun b => (Kcp.start conv (stream b) (mtu b)).setup
  refine ⟨fun b => ⟨setup b, ⟨setup b, 0, [], []⟩, ⟨128, 0, [], [], []⟩, [], []⟩, fun b => ?_⟩
  have hsetup := start_setup conv (stream b) (hmtu b)
  exact {
    sending := (start_sending conv (stream b) (mtu b)).symm
    receiving := (start_receiving conv (stream !b) (mtu !b)).symm
    conv := start_conv conv (stream b) (mtu b)
    ok := {
      setup := rfl
      mtu := ⟨hsetup.1, hsetup.2.1⟩
      mss := hsetup.2.2
      sound := {
        held := by simp [Direction.line]
        early := by simp [Direction.line]
        sorted := List.Pairwise.nil
        arrived := List.prefix_rfl
        kept := fun i hi => absurd hi (Nat.not_lt_zero i) }
      sndNxt := rfl
      rcvNxt := rfl
      room := by simp
      label := by simp
      small := by simp
      acks := by simp }
    sent := {
      counted := List.IsChain.nil
      closed := by simp [Closed]
      bytes := rfl
      messages := fun _ => rfl }
    got := {
      closed := by simp [Closed]
      messages := rfl }
    net := by simp [System.start] }

theorem Reachable.inv (h : Reachable conv s) : ∃ d, Inv conv s d := by
  obtain ⟨stream, mtu, hmtu, hrun⟩ := h
  induction hrun with
  | refl => exact Inv.start conv stream hmtu
  | tail _ hact ih =>
    obtain ⟨d, hd⟩ := ih
    exact hd.step hact

/-! ## What arrives, in order -/

/-- The bytes arrive in order, and where messages are kept apart the messages do. -/
theorem received_in_order (h : Reachable conv s) (b : Bool) :
    (s.received !b).flatten <+: (s.sent b).flatten ∧
      ((s.peer b).stream = false → s.received (!b) <+: s.sent b) := by
  obtain ⟨d, hd⟩ := h.inv
  have hlink := hd b
  have hprefix : (d b).consumed <+: (d b).log ++ (d b).sending.sndQueue :=
    (List.prefix_append _ _).trans (hlink.ok.sound.arrived.trans (List.prefix_append _ _))
  refine ⟨?_, fun hstream => ?_⟩
  · obtain ⟨rest, hrest⟩ := hprefix
    have hbytes := hlink.sent.bytes
    rw [← hrest, bytes_append, ← messages_flatten hlink.got.closed, hlink.got.messages] at hbytes
    exact ⟨_, hbytes⟩
  · have hmode : (d b).setup.stream = false := by
      rw [hlink.ok.setup_eq hlink.sending]
      exact hstream
    rw [← hlink.got.messages, ← hlink.sent.messages hmode]
    exact messages_prefix hprefix

/-- One peer wants to say something. -/
def greeting : System :=
  let s := System.start 7 (fun _ => false) fun _ => 1400
  let s := s.act true (setNodelay (s.peer true) 1 10 2 1) [] [] []
  s.act true (send (s.peer true) [104, 105]).1 [] (accepted (s.peer true) [104, 105]) []

/-- It has sent a datagram. -/
def greetingSent : System :=
  greeting.act true (update (greeting.peer true) 0).1 (update (greeting.peer true) 0).2 [] []

def greetingDatagram : Bytes :=
  [7, 0, 0, 0, 81, 0, 128, 0, 0, 0, 0, 0, 0, 0, 0, 0, 0, 0, 0, 0, 2, 0, 0, 0, 104, 105]

/-- The datagram has come, and the user has read it. -/
def greetingRead : System :=
  let s := greetingSent
  let s := s.act false (input (s.peer false) greetingDatagram).1 [] [] []
  s.act false (recv (s.peer false) 10).1 [] [] (delivered (s.peer false) 10)

theorem greetingSent_reachable : Reachable 7 greetingSent := by
  refine ⟨fun _ => false, fun _ => 1400, fun _ => show (1400 : ℤ) < 2 ^ 31 by decide, ?_⟩
  refine (((Relation.ReflTransGen.refl.tail (.nodelay _ true 1 10 2 1)).tail
    (.send _ true [104, 105] ?_)).tail (.update _ true 0))
  decide

/-- The datagram is under way, and it is all that there is to read. -/
theorem greeting_read : greetingDatagram ∈ greetingSent.net true ∧
    greetingRead.received false = [[104, 105]] ∧ (greetingRead.peer true).stream = false := by
  decide +kernel

theorem greetingRead_reachable : Reachable 7 greetingRead := by
  obtain ⟨stream, mtu, hmtu, hrun⟩ := greetingSent_reachable
  exact ⟨stream, mtu, hmtu, (hrun.tail (.input _ false greetingDatagram greeting_read.1)).tail
    (.recv _ false 10)⟩

theorem received_in_order_greeting : greetingRead.received false = [[104, 105]] ∧
    greetingRead.received false <+: greetingRead.sent true :=
  ⟨greeting_read.2.1, (received_in_order greetingRead_reachable true).2 greeting_read.2.2⟩

/-! ## Nothing is lost -/

theorem piece_bytes (queue : List Seg) : bytes (queue.map Seg.piece) = queue.flatMap Seg.data := by
  rw [bytes, List.flatMap_map]
  rfl

/-- When the sender keeps nothing any more the other side has all that was sent. -/
theorem nothing_lost (h : Reachable conv s) (hqueue : (s.peer b).sndQueue = [])
    (hbuf : (s.peer b).sndBuf = []) :
    (s.received !b).flatten ++ ((s.peer !b).rcvQueue ++ (s.peer !b).rcvBuf).flatMap Seg.data =
      (s.sent b).flatten := by
  obtain ⟨d, hd⟩ := h.inv
  have hlink := hd b
  have hnothing : (d b).sending.sndQueue = [] := by
    rw [hlink.sending, Kcpcb.sending, hqueue]
    rfl
  have hheld : (d b).line.held = [] := by
    rw [Direction.line, hlink.sending, Kcpcb.sending, hbuf]
    rfl
  have hall := hlink.ok.sound.complete hheld
  have hearly := Direction.early_eq _ (congrArg Receiving.rcvBuf hlink.receiving)
  have hplaces : (s.peer !b).rcvBuf.map (Prod.snd ∘ Seg.place) = (s.peer !b).rcvBuf.map Seg.piece := rfl
  rw [hearly, List.map_map, hplaces] at hall
  have harrived : (d b).line.arrived = (d b).consumed ++ (s.peer !b).rcvQueue.map Seg.piece := by
    rw [Direction.line, hlink.receiving]
    rfl
  rw [harrived] at hall
  have hlog : (d b).line.log = (d b).log := rfl
  have hbytes := hlink.sent.bytes
  rw [hnothing, List.append_nil, ← hlog, ← hall, bytes_append, bytes_append, piece_bytes, piece_bytes,
    ← messages_flatten hlink.got.closed, hlink.got.messages] at hbytes
  rw [List.flatMap_append, ← List.append_assoc]
  exact hbytes

/-- The other peer has answered with an acknowledgement. -/
def greetingAnswered : System :=
  greetingRead.act false (update (greetingRead.peer false) 0).1
    (update (greetingRead.peer false) 0).2 [] []

def greetingAnswer : Bytes :=
  [7, 0, 0, 0, 82, 0, 128, 0, 0, 0, 0, 0, 0, 0, 0, 0, 1, 0, 0, 0, 0, 0, 0, 0]

def greetingDone : System :=
  greetingAnswered.act true (input (greetingAnswered.peer true) greetingAnswer).1 [] [] []

theorem greeting_done : greetingAnswer ∈ greetingAnswered.net false ∧
    (greetingDone.peer true).sndQueue = [] ∧ (greetingDone.peer true).sndBuf = [] := by
  decide +kernel

theorem greetingDone_reachable : Reachable 7 greetingDone := by
  obtain ⟨stream, mtu, hmtu, hrun⟩ := greetingRead_reachable
  exact ⟨stream, mtu, hmtu, (hrun.tail (.update _ false 0)).tail
    (.input _ true greetingAnswer greeting_done.1)⟩

theorem nothing_lost_greeting : (greetingDone.received false).flatten ++
    ((greetingDone.peer false).rcvQueue ++ (greetingDone.peer false).rcvBuf).flatMap Seg.data =
      (greetingDone.sent true).flatten :=
  nothing_lost greetingDone_reachable (b := true) greeting_done.2.1 greeting_done.2.2

/-! ## The datagrams -/

/-- No datagram is longer than the `mtu`, and the other side takes each of them without an error. -/
theorem datagram_accepted (h : Reachable conv s) {datagram : Bytes} (hnet : datagram ∈ s.net b) :
    datagram.length ≤ (s.peer b).mtu.toNat ∧ (input (s.peer !b) datagram).2 = 0 := by
  obtain ⟨d, hd⟩ := h.inv
  have hlink := hd b
  have hsetup := hlink.ok.setup_eq hlink.sending
  obtain ⟨hcarries, hlength⟩ := hlink.net datagram hnet
  refine ⟨?_, ?_⟩
  · rw [hsetup] at hlength
    exact hlength
  · have hconv : (d b).setup.conv = (s.peer !b).conv := by
      rw [hlink.conv, ← (hd !b).conv, (hd !b).ok.setup_eq (hd !b).sending]
      rfl
    rw [hconv] at hcarries
    exact (input_goes hlink.ok (hd !b).ok hlink.receiving (hd !b).sending hcarries).2.2.2

theorem datagram_accepted_greeting : greetingDatagram.length ≤ (greetingSent.peer true).mtu.toNat ∧
    (input (greetingSent.peer false) greetingDatagram).2 = 0 :=
  datagram_accepted greetingSent_reachable (b := true) greeting_read.1

end CServer.Kcp
