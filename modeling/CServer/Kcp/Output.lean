import CServer.Kcp.Directions

/-!
# What a flush sends

The datagrams of a flush consist of whole segments, none is longer than `mtu`, and all that they say
is true.
-/
namespace CServer.Kcp

open Delivery

/-! ## Segments are collected in datagrams -/

/-- A datagram that the peer can take. -/
def Fit (conv mtu : UInt32) (p : Seg → Prop) (datagram : Bytes) : Prop :=
  Carries conv p datagram ∧ datagram.length ≤ mtu.toNat

structure Output.Ok (conv mtu : UInt32) (p : Seg → Prop) (o : Output) : Prop where
  buffer : o.buffer = [] ∨ Fit conv mtu p o.buffer
  datagrams : ∀ datagram ∈ o.datagrams, Fit conv mtu p datagram

variable {conv mtu : UInt32} {p q : Seg → Prop} {o : Output} {seg : Seg}

theorem Fit.imp {datagram : Bytes} (h : Fit conv mtu p datagram) (hpq : ∀ seg, p seg → q seg) :
    Fit conv mtu q datagram :=
  ⟨h.1.imp hpq, h.2⟩

theorem Output.Ok.imp (h : o.Ok conv mtu p) (hpq : ∀ seg, p seg → q seg) : o.Ok conv mtu q where
  buffer := h.buffer.imp_right fun hfit => hfit.imp hpq
  datagrams := fun datagram hdatagram => (h.datagrams datagram hdatagram).imp hpq

theorem Output.Ok.flush (h : o.Ok conv mtu p) : o.flush.Ok conv mtu p ∧ o.flush.buffer = [] := by
  unfold Output.flush
  split
  · exact ⟨h, ‹_›⟩
  · rename_i hne
    refine ⟨⟨.inl rfl, fun datagram hdatagram => ?_⟩, rfl⟩
    rcases List.mem_append.mp hdatagram with hold | hnew
    · exact h.datagrams datagram hold
    · rw [List.mem_singleton.mp hnew]
      exact h.buffer.resolve_left hne

theorem Output.Ok.append (h : o.Ok conv mtu p) (hconv : seg.conv = conv) (hp : p seg)
    (hlength : seg.data.length < 2 ^ 31)
    (hmtu : o.buffer.length + (24 + seg.data.length) ≤ mtu.toNat) :
    Output.Ok conv mtu p { o with buffer := o.buffer ++ encodeSeg seg } where
  buffer := by
    refine .inr ⟨?_, by simpa [length_encodeSeg] using hmtu⟩
    have hsegs : ∃ segs : List Seg, o.buffer = segs.flatMap encodeSeg ∧
        ∀ seg ∈ segs, seg.conv = conv ∧ seg.data.length < 2 ^ 31 ∧ p seg := by
      rcases h.buffer with hempty | ⟨⟨segs, -, heq, hsegs⟩, -⟩
      · exact ⟨[], hempty, by simp⟩
      · exact ⟨segs, heq, hsegs⟩
    obtain ⟨segs, heq, hsegs⟩ := hsegs
    refine ⟨segs ++ [seg], by simp, by simp [heq], fun seg' hseg' => ?_⟩
    rcases List.mem_append.mp hseg' with hold | hnew
    · exact hsegs seg' hold
    · rw [List.mem_singleton.mp hnew]
      exact ⟨hconv, hlength, hp⟩
  datagrams := h.datagrams

theorem Output.Ok.put (h : o.Ok conv mtu p) (hconv : seg.conv = conv) (hp : p seg)
    (hlength : seg.data.length < 2 ^ 31) (hmtu : 24 + seg.data.length ≤ mtu.toNat) :
    (o.put mtu seg).Ok conv mtu p := by
  unfold Output.put
  simp only
  split
  · obtain ⟨hflush, hempty⟩ := h.flush
    refine hflush.append hconv hp hlength ?_
    rw [hempty, List.length_nil]
    omega
  · exact h.append hconv hp hlength (by omega)

/-! ## Acknowledgements and questions -/

variable {toX fromX : Direction} {x : Kcpcb}

/-- What a control block says of itself in each segment. -/
theorem Direction.Ok.una (h : toX.Ok) (hr : toX.receiving = x.receiving) :
    (Packet.upTo x.rcvNxt.toNat).True toX.line :=
  (h.rcvNxt_eq hr).le

/-- A segment without data. -/
theorem Output.Ok.put_control (h : o.Ok x.conv x.mtu (Told fromX.line toX.line)) (hto : toX.Ok)
    (hr : toX.receiving = x.receiving) (hmtu : 24 ≤ x.mtu.toNat)
    (hsame : seg.conv = x.conv ∧ seg.data = [] ∧ seg.una = x.rcvNxt) (hcmd : seg.cmd ≠ .push)
    (hack : seg.cmd = .ack → toX.line.Has seg.sn.toNat) :
    (o.put x.mtu seg).Ok x.conv x.mtu (Told fromX.line toX.line) := by
  obtain ⟨hconv, hdata, huna⟩ := hsame
  refine h.put hconv ?_ ?_ ?_
  · exact { una := huna ▸ hto.una hr, push := fun heq => absurd heq hcmd, ack := hack }
  · simp [hdata]
  · simpa [hdata] using hmtu

theorem putAcks_ok (hto : toX.Ok) (hr : toX.receiving = x.receiving) (hmtu : 24 ≤ x.mtu.toNat)
    {acklist : List (UInt32 × UInt32)} (hacks : ∀ ack ∈ acklist, toX.line.Has ack.1.toNat)
    (h : o.Ok x.conv x.mtu (Told fromX.line toX.line)) :
    (putAcks x acklist o).Ok x.conv x.mtu (Told fromX.line toX.line) := by
  induction acklist generalizing o with
  | nil => exact h
  | cons ack acklist ih =>
    refine ih (fun ack' hack' => hacks ack' (List.mem_cons_of_mem ack hack')) ?_
    refine h.put_control hto hr hmtu ⟨rfl, rfl, rfl⟩ Cmd.noConfusion fun _ => ?_
    exact hacks ack List.mem_cons_self

theorem afterAcks_control (kcp : Kcpcb) : (afterAcks kcp).conv = kcp.conv ∧
    (afterAcks kcp).data = [] ∧ (afterAcks kcp).una = kcp.rcvNxt := by
  unfold afterAcks
  split <;> exact ⟨rfl, rfl, rfl⟩

/-- A question or its answer, behind the acknowledgements. -/
theorem Output.Ok.put_probe (h : o.Ok x.conv x.mtu (Told fromX.line toX.line)) (hto : toX.Ok)
    (hr : toX.receiving = x.receiving) (hmtu : 24 ≤ x.mtu.toNat) {cmd : Cmd} (hpush : cmd ≠ .push)
    (hack : cmd ≠ .ack) :
    (o.put x.mtu { afterAcks x with cmd := cmd }).Ok x.conv x.mtu (Told fromX.line toX.line) :=
  h.put_control hto hr hmtu (afterAcks_control x) hpush fun heq => absurd heq hack

theorem putControl_ok (hto : toX.Ok) (hr : toX.receiving = x.receiving) (hmtu : 24 ≤ x.mtu.toNat)
    (h : o.Ok x.conv x.mtu (Told fromX.line toX.line)) :
    (putControl x o).Ok x.conv x.mtu (Told fromX.line toX.line) := by
  have hacks : ∀ ack ∈ x.acklist, toX.line.Has ack.1.toNat := by
    intro ack hack
    refine hto.acks ack.1 ?_
    rw [hr]
    exact List.mem_map_of_mem hack
  have hfirst := putAcks_ok hto hr hmtu hacks h
  have hask : ((putAcks x x.acklist o).put x.mtu { afterAcks x with cmd := .wask }).Ok x.conv x.mtu
      (Told fromX.line toX.line) := hfirst.put_probe hto hr hmtu Cmd.noConfusion Cmd.noConfusion
  unfold putControl
  simp only
  split
  · split
    · exact hask.put_probe hto hr hmtu Cmd.noConfusion Cmd.noConfusion
    · exact hfirst.put_probe hto hr hmtu Cmd.noConfusion Cmd.noConfusion
  · split
    · exact hask
    · exact hfirst

/-! ## Segments get their numbers -/

theorem moveToBuf_goes (x : Kcpcb) (cwnd wnd : UInt32) (queue : List Seg)
    (h : fromX.Ok) (hs : fromX.sending = { x with sndQueue := queue }.sending) :
    ∃ more, fromX.sending.sndQueue = more ++ (moveToBuf x cwnd wnd queue).sending.sndQueue ∧
      Goes fromX { fromX with
        sending := (moveToBuf x cwnd wnd queue).sending
        log := fromX.log ++ more } := by
  induction queue generalizing x fromX with
  | nil =>
    refine ⟨[], by rw [hs]; rfl, ?_⟩
    rw [moveToBuf, ← hs, List.append_nil]
    exact h.goes
  | cons newseg queue ih =>
    rw [moveToBuf]
    split
    · let numbered : Seg := { newseg with
        conv := x.conv
        cmd := .push
        wnd := wnd
        ts := x.current
        sn := x.sndNxt
        una := x.rcvNxt
        resendts := x.current
        rto := x.rxRto
        fastack := 0
        xmit := 0 }
      let x' : Kcpcb := { x with sndNxt := x.sndNxt + 1, sndBuf := x.sndBuf ++ [numbered] }
      let d : Direction := { fromX with
        sending := { x' with sndQueue := queue }.sending
        log := fromX.log ++ [newseg.piece] }
      have hnxt : x.sndNxt.toNat = fromX.log.length := (h.sndNxt_eq hs :)
      have hqueue : fromX.sending.sndQueue = newseg.piece :: queue.map Seg.piece := by
        rw [hs]
        rfl
      have hroom := h.room
      rw [hqueue, List.length_cons] at hroom
      have hstep : Step fromX.line d.line := by
        have hline : d.line = { fromX.line with
            log := fromX.log ++ [newseg.piece]
            held := fromX.line.held ++ [(fromX.log.length, newseg.piece)] } := by
          simp [d, x', numbered, Direction.line, hs, Kcpcb.sending, Seg.label, Seg.piece, ← hnxt]
        rw [hline]
        exact .number fromX.line newseg.piece
      have hok : d.Ok := {
        setup := (h.setup_eq hs).symm
        mtu := h.mtu
        mss := h.mss
        sound := h.sound.step hstep
        sndNxt := by
          show (x.sndNxt + 1).toNat = (fromX.log ++ [newseg.piece]).length
          rw [UInt32.toNat_add, hnxt, List.length_append, List.length_singleton]
          exact Nat.mod_eq_of_lt (by simp; omega)
        rcvNxt := h.rcvNxt
        room := by
          show (fromX.log ++ [newseg.piece]).length + (queue.map Seg.piece).length < 2 ^ 31
          rw [List.length_append, List.length_singleton]
          omega
        label := by
          intro l hl
          have hl' : l ∈ fromX.sending.sndBuf ++ [numbered.label] := by
            rw [hs]
            simpa [d, x', Kcpcb.sending] using hl
          rcases List.mem_append.mp hl' with hold | hnew
          · exact h.label l hold
          · rw [List.mem_singleton.mp hnew]
            exact ⟨(congrArg Setup.conv (h.setup_eq hs)).symm, rfl⟩
        small := by
          intro p hp
          have hp' : p ∈ fromX.log ++ fromX.sending.sndQueue := by
            rw [hqueue]
            simpa [d, Kcpcb.sending] using hp
          exact h.small p hp'
        acks := fun sn hsn => hstep.has (h.acks sn hsn) }
      obtain ⟨more, hmore, hgoes⟩ := ih x' hok rfl
      refine ⟨newseg.piece :: more, ?_, ?_⟩
      · rw [hqueue]
        exact congrArg (newseg.piece :: ·) hmore
      · rw [List.append_cons fromX.log]
        exact Goes.trans ⟨hok, .single hstep⟩ hgoes
    · refine ⟨[], by rw [hs]; rfl, ?_⟩
      rw [← hs, List.append_nil]
      exact h.goes

/-! ## The segments that are under way -/

theorem restart_label (kcp : Kcpcb) (seg : Seg) (why : Reason) :
    (restart kcp seg why).label = seg.label := by
  cases why <;> rfl

theorem sendBuf_label (kcp : Kcpcb) (wnd : UInt32) (buf : List Seg) (o : Output) (losses : Losses) :
    (sendBuf kcp wnd buf o losses).1.map Seg.label = buf.map Seg.label := by
  induction buf generalizing o losses with
  | nil => rfl
  | cons seg buf ih =>
    rw [sendBuf]
    simp only
    split
    · rw [List.map_cons, ih, List.map_cons]
    · rw [List.map_cons, ih, List.map_cons]
      exact congrArg (· :: _) (restart_label kcp seg _)

/-- A segment of `snd_buf` is sent with what is true now. -/
theorem Output.Ok.put_held (h : o.Ok x.conv x.mtu (Told fromX.line toX.line)) (hto : toX.Ok)
    (hfrom : fromX.Ok) (hr : toX.receiving = x.receiving) (hs : fromX.sending = x.sending)
    (hheld : seg.label ∈ fromX.sending.sndBuf) (huna : seg.una = x.rcvNxt) :
    (o.put x.mtu seg).Ok x.conv x.mtu (Told fromX.line toX.line) := by
  have hlog : fromX.log[seg.sn.toNat]? = some seg.piece := hfrom.sound.held _ (List.mem_map_of_mem hheld)
  obtain ⟨hfrg, hlength⟩ := hfrom.small seg.piece
    (List.mem_append_left _ (List.mem_of_getElem? hlog))
  obtain ⟨hconv, hcmd⟩ := hfrom.label _ hheld
  have hmtu := hfrom.mtu
  rw [hfrom.setup_eq hs] at hmtu hlength
  have hmtu' : x.mtu.toNat = 24 + x.mss.toNat ∧ x.mtu.toNat < 2 ^ 31 := hmtu
  have hlength' : seg.data.length ≤ x.mss.toNat := hlength
  refine h.put ?_ ?_ (by omega) (by omega)
  · rw [hfrom.setup_eq hs] at hconv
    exact hconv
  · exact {
      una := huna ▸ hto.una hr
      push := fun _ => ⟨hlog, hfrg⟩
      ack := fun heq => Cmd.noConfusion (heq.symm.trans hcmd) }

theorem sendBuf_ok (wnd : UInt32) {buf : List Seg} (losses : Losses) (hto : toX.Ok)
    (hfrom : fromX.Ok) (hr : toX.receiving = x.receiving) (hs : fromX.sending = x.sending)
    (hbuf : ∀ seg ∈ buf, seg.label ∈ fromX.sending.sndBuf)
    (h : o.Ok x.conv x.mtu (Told fromX.line toX.line)) :
    (sendBuf x wnd buf o losses).2.1.Ok x.conv x.mtu (Told fromX.line toX.line) := by
  induction buf generalizing o losses with
  | nil => exact h
  | cons seg buf ih =>
    rw [List.forall_mem_cons] at hbuf
    rw [sendBuf]
    simp only
    split
    · exact ih _ hbuf.2 h
    · refine ih _ hbuf.2 (h.put_held hto hfrom hr hs ?_ rfl)
      rw [← restart_label x seg (reason x seg)] at hbuf
      exact hbuf.1

/-! ## A flush -/

@[simp] theorem probeWindow_sending (kcp : Kcpcb) : (probeWindow kcp).sending = kcp.sending := by
  unfold probeWindow Kcpcb.sending Kcpcb.setup
  split
  · split
    · rfl
    · split <;> rfl
  · rfl

@[simp] theorem probeWindow_receiving (kcp : Kcpcb) : (probeWindow kcp).receiving = kcp.receiving := by
  unfold probeWindow Kcpcb.receiving
  split
  · split
    · rfl
    · split <;> rfl
  · rfl

@[simp] theorem moveToBuf_receiving (kcp : Kcpcb) (cwnd wnd : UInt32) (queue : List Seg) :
    (moveToBuf kcp cwnd wnd queue).receiving = kcp.receiving := by
  induction queue generalizing kcp with
  | nil => rfl
  | cons seg queue ih =>
    rw [moveToBuf]
    split
    · exact ih _
    · rfl

@[simp] theorem closeWindow_sending (kcp : Kcpcb) (cwnd : UInt32) (losses : Losses) :
    (closeWindow kcp cwnd losses).sending = kcp.sending := by
  unfold closeWindow Kcpcb.sending Kcpcb.setup
  simp only
  split <;> split <;> split <;> rfl

@[simp] theorem closeWindow_receiving (kcp : Kcpcb) (cwnd : UInt32) (losses : Losses) :
    (closeWindow kcp cwnd losses).receiving = kcp.receiving := by
  unfold closeWindow Kcpcb.receiving
  simp only
  split <;> split <;> split <;> rfl

@[simp] theorem moveToBuf_setup (kcp : Kcpcb) (cwnd wnd : UInt32) (queue : List Seg) :
    (moveToBuf kcp cwnd wnd queue).setup = kcp.setup := by
  induction queue generalizing kcp with
  | nil => rfl
  | cons seg queue ih =>
    rw [moveToBuf]
    split
    · exact ih _
    · rfl

/-- An acknowledgement that is not sent is no harm. -/
theorem Direction.Ok.forget (h : toX.Ok) (hr : toX.receiving = x.receiving) :
    Goes toX { toX with receiving := { x.receiving with acks := [] } } := by
  rw [← hr]
  exact h.stay rfl rfl fun _ hsn => absurd hsn List.not_mem_nil

/-- A flush numbers segments of `snd_queue`, and all that it sends is true. -/
theorem flush_goes (hto : toX.Ok) (hfrom : fromX.Ok) (hr : toX.receiving = x.receiving)
    (hs : fromX.sending = x.sending) :
    ∃ more toX' fromX' : _, toX' = { toX with receiving := (flush x).1.receiving } ∧
      fromX' = { fromX with sending := (flush x).1.sending, log := fromX.log ++ more } ∧
      fromX.sending.sndQueue = more ++ (flush x).1.sending.sndQueue ∧
      Goes toX toX' ∧ Goes fromX fromX' ∧
      ∀ datagram ∈ (flush x).2, Fit x.conv x.mtu (Told fromX'.line toX'.line) datagram := by
  unfold flush
  split
  · refine ⟨[], _, _, rfl, rfl, by rw [hs]; rfl, ?_, ?_, by simp⟩
    · rw [← hr]
      exact hto.goes
    · rw [← hs, List.append_nil]
      exact hfrom.goes
  · have hs' : fromX.sending = (afterControl x).sending := hs.trans (probeWindow_sending x).symm
    have hr' : { x.receiving with acks := [] } = (afterControl x).receiving := by
      rw [← probeWindow_receiving x]
      rfl
    have hto' := hto.forget hr
    rw [hr'] at hto'
    obtain ⟨more, hmore, hfrom'⟩ := moveToBuf_goes (afterControl x)
      (sendWindow x) (wndUnused x) (afterControl x).sndQueue hfrom hs'
    have hmtu := hfrom.mtu
    rw [hfrom.setup_eq hs] at hmtu
    have hcontrol : (putControl x {}).Ok x.conv x.mtu (Told fromX.line toX.line) :=
      putControl_ok hto hr (hmtu.1 ▸ Nat.le_add_right 24 _) ⟨.inl rfl, by simp⟩
    have htold := hcontrol.imp fun seg hseg => hseg.steps hfrom'.2 hto'.2
    simp only
    generalize hx' : moveToBuf (afterControl x) (sendWindow x) (wndUnused x)
      (afterControl x).sndQueue = x' at *
    have hreceiving : x'.receiving = (afterControl x).receiving := by
      rw [← hx', moveToBuf_receiving]
    have hsetup : x'.setup = x.setup := by
      rw [← hx', moveToBuf_setup]
      exact congrArg Sending.setup (probeWindow_sending x)
    have hconv : x'.conv = x.conv := congrArg Setup.conv hsetup
    have hmtu' : x'.mtu = x.mtu := congrArg Setup.mtu hsetup
    have hsent := sendBuf_ok (wndUnused x) { xmit := x'.xmit, state := x'.state } hto'.1 hfrom'.1
      hreceiving.symm rfl
      (fun seg hseg => List.mem_map_of_mem hseg) (hconv.symm ▸ hmtu'.symm ▸ htold)
    have hlabel := sendBuf_label x' (wndUnused x) x'.sndBuf (putControl x {})
      { xmit := x'.xmit, state := x'.state }
    have hsending : ∀ xmit state, Kcpcb.sending { x' with
        sndBuf := (sendBuf x' (wndUnused x) x'.sndBuf (putControl x {})
          { xmit := x'.xmit, state := x'.state }).1
        xmit := xmit
        state := state } = x'.sending := by
      intro xmit state
      rw [Kcpcb.sending, Kcpcb.sending]
      exact congrArg _ hlabel
    rw [closeWindow_sending, closeWindow_receiving, hsending]
    refine ⟨more, _, _, rfl, rfl, hmore, ?_, hfrom', ?_⟩
    · rw [← hreceiving] at hto'
      exact hto'
    · rw [hconv, hmtu'] at hsent
      rw [← hreceiving] at hsent
      exact hsent.flush.1.datagrams

end CServer.Kcp
