import CServer.Reactor.Model
import Mathlib.Tactic.Tauto

/-!
# The echo on a connection

A connection waits for input when everything that it has received was sent, or it has the rest in its
buffer and waits to send it. This is so as long as each `send` takes the whole buffer; what a `send`
leaves is lost, since the slot goes back to `recv_cb`.
-/
namespace CServer.Reactor

variable {c : Conn} {e : Events} {f : Callback}

/-- What can happen to a connection: an event with the results of the calls, or the sweep. -/
inductive ConnAction where
  | event (events : Events → Bool) (io : Io)
  | sweep (now : ℤ)

def Conn.step (c : Conn) : ConnAction → Conn
  | .event events io => dispatch (·.ev.events) (·.call io) (c.reported events) c
  | .sweep now => if c.expired now then ntyEventDel c.close else c

/-- A connection that was just accepted, in a slot with some content. -/
def connect (memory : NtyEvent) (fd : ℕ) (now : ℤ) : Conn :=
  Conn.added ⟨memory, true, none, [], [], none⟩ fd .recv now

/-- The connection is open and waits for input. -/
def Conn.Idle (c : Conn) : Prop :=
  c.isOpen = true ∧ c.interest = some .epollIn ∧ c.ev.callback = .recv

/-- What was sent is a prefix of what was received, and all of it when the connection is idle. -/
structure Conn.Echoes (c : Conn) : Prop where
  prefixed : c.sent <+: c.received
  all : c.Idle → c.sent = c.received

/-- If the connection sends, then everything in the buffer, or nothing. -/
def Complete (c : Conn) : ConnAction → Prop
  | .event events io => c.reported events .epollOut = true → io.send ≥ c.ev.length ∨ io.send = 0
  | .sweep _ => True

/-- What holds of a connection between the events. -/
inductive Conn.Stage (c : Conn) : Prop where
  | idle (registered : c.Registered .epollIn .recv) (all : c.sent = c.received)
  | full (registered : c.Registered .epollOut .send) (some : 0 < c.ev.length)
      (length : c.ev.length ≤ c.ev.buffer.length)
      (rest : c.received = c.sent ++ c.ev.buffer.take c.ev.length)
  | quiet (interest : c.interest = none) (prefixed : c.sent <+: c.received)

theorem Conn.Stage.echoes (h : c.Stage) : c.Echoes := by
  cases h with
  | idle registered all =>
    exact ⟨all ▸ List.prefix_rfl, fun _ => all⟩
  | full registered some length rest =>
    refine ⟨⟨_, rest.symm⟩, ?_⟩
    rintro ⟨-, hinterest, -⟩
    rw [registered.interest] at hinterest
    exact absurd hinterest (by simp)
  | quiet interest prefixed =>
    refine ⟨prefixed, ?_⟩
    rintro ⟨-, hinterest, -⟩
    rw [interest] at hinterest
    exact absurd hinterest (by simp)

/-- A slot that is removed, set and added is registered again. -/
theorem registered_add_del (hopen : c.isOpen = true) (hstatus : c.ev.status = 1) {ev : NtyEvent}
    (hev : ev.status = 0) (e : Events) :
    (ntyEventAdd ((ntyEventDel c).setEv ev) e).Registered e ev.callback ∧
      (ntyEventAdd ((ntyEventDel c).setEv ev) e).ev.buffer = ev.buffer ∧
      (ntyEventAdd ((ntyEventDel c).setEv ev) e).ev.length = ev.length ∧
      (ntyEventAdd ((ntyEventDel c).setEv ev) e).received = c.received ∧
      (ntyEventAdd ((ntyEventDel c).setEv ev) e).sent = c.sent := by
  rw [add_del_eq hopen hstatus hev]
  exact ⟨⟨rfl, rfl, rfl, rfl, hopen⟩, rfl, rfl, rfl, rfl⟩

theorem del_status (hstatus : c.ev.status = 1) : (ntyEventDel c).ev.status = 0 := by
  rw [del_eq hstatus]

/-- The buffer up to the length is what was put there. -/
theorem terminated_take (ev : NtyEvent) {bytes rest : List UInt8} (hbuffer : ev.buffer = bytes ++ rest)
    (hle : bytes.length ≤ bufferLength) :
    (terminated ev bytes.length).length = bytes.length ∧
      (terminated ev bytes.length).buffer.take bytes.length = bytes := by
  by_cases hlt : bytes.length < bufferLength
  · rw [terminated, if_pos hlt]
    refine ⟨rfl, ?_⟩
    rw [hbuffer, List.take_left]
    exact List.take_left
  · have hfull : bytes.length = 4096 := by
      have hmax : bufferLength = 4096 := rfl
      omega
    rw [terminated, if_neg hlt]
    refine ⟨?_, ?_⟩
    · show bytes.length - bytes.length % 256 = bytes.length
      rw [hfull]
    · show ev.buffer.take bytes.length = bytes
      rw [hbuffer, List.take_left]

/-- After a `recv` the connection has the bytes in its buffer, or it is closed. -/
theorem stage_recvCb (h : c.Registered .epollIn .recv) (hall : c.sent = c.received)
    (result : Option (List UInt8)) (now : ℤ) : (recvCb c result now).Stage := by
  have hle : ((result.getD []).take bufferLength).length ≤ bufferLength := by
    rw [List.length_take]
    exact Nat.min_le_left _ _
  rw [recvCb]
  generalize (result.getD []).take bufferLength = bytes at hle
  let c' : Conn := { c with
    ev := { c.ev with buffer := bytes ++ c.ev.buffer.drop bytes.length }
    received := c.received ++ bytes }
  have hdel := del_eq (c := c') h.status
  have hbuffer : (ntyEventDel c').ev.buffer = bytes ++ c.ev.buffer.drop bytes.length := by
    rw [hdel]
  obtain ⟨hlength, htake⟩ := terminated_take _ hbuffer hle
  have hzero : (ntyEventSet (terminated (ntyEventDel c').ev bytes.length) (ntyEventDel c').ev.fd .send
      now).status = 0 := by
    show (terminated _ _).status = 0
    rw [terminated_status, hdel]
  obtain ⟨hregistered, hbuffer', hlength', hreceived, hsent⟩ :=
    registered_add_del (c := c') h.isOpen h.status hzero .epollOut
  have hlength'' := hlength'.trans hlength
  have hbuffer'' : _ = (terminated (ntyEventDel c').ev bytes.length).buffer := hbuffer'
  dsimp only
  split
  · rename_i hsome
    refine .full hregistered ?_ ?_ ?_
    · rw [hlength'']
      exact hsome
    · rw [hlength'', hbuffer'']
      have hcount := congrArg List.length htake
      rw [List.length_take] at hcount
      omega
    · rw [hlength'', hbuffer'', htake, hreceived, hsent, ← show c.sent = c'.sent from rfl, hall]
  · refine .quiet rfl ?_
    show (ntyEventDel c').sent <+: (ntyEventDel c').received
    rw [hdel]
    show c.sent <+: c.received ++ bytes
    rw [hall]
    exact List.prefix_append _ _

/-- A `send` of `n` bytes, more than none, leaves the connection idle. -/
theorem registered_sendCb (h : c.Registered .epollOut .send) {n : ℕ} (hsome : min n c.ev.length > 0)
    (now : ℤ) : (sendCb c n now).Registered .epollIn .recv ∧
      (sendCb c n now).received = c.received ∧
      (sendCb c n now).sent = c.sent ++ c.ev.buffer.take (min n c.ev.length) := by
  let c' : Conn := { c with sent := c.sent ++ c.ev.buffer.take (min n c.ev.length) }
  have hzero : (ntyEventSet (ntyEventDel c').ev (ntyEventDel c').ev.fd .recv now).status = 0 :=
    del_status h.status
  obtain ⟨hregistered, -, -, hreceived, hsent⟩ :=
    registered_add_del (c := c') h.isOpen h.status hzero .epollIn
  rw [sendCb]
  dsimp only
  rw [if_pos hsome]
  exact ⟨hregistered, hreceived, hsent⟩

/-- After a `send` of the whole buffer the connection is idle, after an error it is closed. -/
theorem stage_sendCb (h : c.Registered .epollOut .send) (hrest : c.received = c.sent ++
    c.ev.buffer.take c.ev.length) (n : ℕ) (hn : n ≥ c.ev.length ∨ n = 0) (now : ℤ) :
    (sendCb c n now).Stage := by
  by_cases hsome : min n c.ev.length > 0
  · obtain ⟨hregistered, hreceived, hsent⟩ := registered_sendCb h hsome now
    refine .idle hregistered ?_
    rw [hreceived, hsent, hrest, show min n c.ev.length = c.ev.length by omega]
  · have hdel : (ntyEventDel c.close).interest = none ∧ (ntyEventDel c.close).sent = c.sent ∧
        (ntyEventDel c.close).received = c.received := by
      rw [ntyEventDel]
      split <;> exact ⟨rfl, rfl, rfl⟩
    rw [sendCb]
    dsimp only
    rw [if_neg hsome]
    refine .quiet hdel.1 ?_
    rw [hdel.2.1, hdel.2.2, hrest]
    exact List.prefix_append _ _

/-- After a `send` of a part of the buffer the rest is lost. -/
theorem not_echoes_sendCb (h : c.Registered .epollOut .send) (hlength : c.ev.length ≤ c.ev.buffer.length)
    (hrest : c.received = c.sent ++ c.ev.buffer.take c.ev.length) (n : ℕ)
    (hn : ¬(n ≥ c.ev.length ∨ n = 0)) (now : ℤ) : ¬(sendCb c n now).Echoes := by
  obtain ⟨hregistered, hreceived, hsent⟩ := registered_sendCb h (n := n) (by omega) now
  intro hechoes
  have hall := hechoes.all ⟨hregistered.isOpen, hregistered.interest, hregistered.callback⟩
  rw [hreceived, hsent, hrest] at hall
  have hcount := congrArg List.length hall
  rw [List.length_append, List.length_append, List.length_take, List.length_take] at hcount
  omega

/-! ## The steps -/

theorem Conn.Registered.reported (h : c.Registered e f) (events : Events → Bool) (e' : Events) :
    c.reported events e' = true ↔ events e' = true ∧ e' = e := by
  rw [Conn.reported, h.interest, Bool.and_eq_true, decide_eq_true_eq, Option.some.injEq, eq_comm (a := e)]

/-- epoll reports a descriptor for the events that it is registered for. -/
theorem reported_once (c : Conn) (events : Events → Bool) (h : c.reported events .epollIn = true) :
    c.reported events .epollOut = false := by
  rw [Conn.reported, Bool.and_eq_true, decide_eq_true_eq] at h
  simp [Conn.reported, h.2]

theorem event_eq (c : Conn) (events : Events → Bool) (io : Io) : c.step (.event events io) =
    if c.reported events .epollIn ∧ c.ev.events = .epollIn ∨
      c.reported events .epollOut ∧ c.ev.events = .epollOut then c.call io else c :=
  dispatch_eq (fun c : Conn => c.ev.events) (fun c : Conn => c.call io) (reported_once c events) c

theorem quiet_step (hinterest : c.interest = none) (events : Events → Bool) (io : Io) :
    c.step (.event events io) = c := by
  rw [event_eq]
  simp [Conn.reported, hinterest]

theorem Conn.Registered.call (h : c.Registered e f) (io : Io) :
    Conn.Registered { c with handled := some io.now } e f :=
  ⟨h.events, h.callback, h.status, h.interest, h.isOpen⟩

/-- The sweep closes the connection or leaves it as it is. -/
theorem Conn.Stage.sweep (h : c.Stage) (now : ℤ) : (c.step (.sweep now)).Stage := by
  have hprefixed := h.echoes.prefixed
  rw [Conn.step]
  split
  · have hdel : (ntyEventDel c.close).interest = none ∧ (ntyEventDel c.close).sent = c.sent ∧
        (ntyEventDel c.close).received = c.received := by
      rw [ntyEventDel]
      split <;> exact ⟨rfl, rfl, rfl⟩
    refine .quiet hdel.1 ?_
    rw [hdel.2.1, hdel.2.2]
    exact hprefixed
  · exact h

/-- An event for a connection that waits for input. -/
theorem dispatch_idle (h : c.Registered .epollIn .recv) (events : Events → Bool) (io : Io) :
    c.step (.event events io) = c ∨
      c.step (.event events io) = recvCb { c with handled := some io.now } io.recv io.now := by
  rw [event_eq]
  split
  · refine .inr ?_
    rw [Conn.call]
    simp only [h.callback]
  · exact .inl rfl

/-- An event for a connection that has something to send. -/
theorem dispatch_full (h : c.Registered .epollOut .send) (events : Events → Bool) (io : Io) :
    c.step (.event events io) = if c.reported events .epollOut = true then
      sendCb { c with handled := some io.now } io.send io.now else c := by
  have hin : ¬c.reported events .epollIn = true := by simp [h.reported]
  have hcall : c.call io = sendCb { c with handled := some io.now } io.send io.now := by
    rw [Conn.call]
    simp only [h.callback]
  rw [event_eq, hcall]
  simp [hin, h.events]

theorem Conn.Stage.step (h : c.Stage) (a : ConnAction) (hcomplete : Complete c a) :
    (c.step a).Stage := by
  cases a with
  | sweep now => exact h.sweep now
  | event events io =>
    cases h with
    | idle registered all =>
      obtain heq | heq := dispatch_idle registered events io
      · rw [heq]
        exact .idle registered all
      · rw [heq]
        exact stage_recvCb (registered.call io) all io.recv io.now
    | full registered some length rest =>
      rw [dispatch_full registered]
      split
      · rename_i hout
        exact stage_sendCb (registered.call io) rest io.send (hcomplete hout) io.now
      · exact .full registered some length rest
    | quiet interest prefixed =>
      rw [quiet_step interest]
      exact .quiet interest prefixed

/-- A `send` of a part of the buffer breaks the echo. -/
theorem Conn.Stage.step_incomplete (h : c.Stage) (a : ConnAction) (hnot : ¬Complete c a) :
    ¬(c.step a).Echoes := by
  cases a with
  | sweep now => exact absurd trivial hnot
  | event events io =>
    obtain ⟨hout, hpart⟩ : c.reported events .epollOut = true ∧
        ¬(io.send ≥ c.ev.length ∨ io.send = 0) := by
      rw [Complete] at hnot
      tauto
    cases h with
    | idle registered all =>
      rw [registered.reported] at hout
      exact absurd hout.2 (by simp)
    | full registered some length rest =>
      rw [dispatch_full registered, if_pos hout]
      exact not_echoes_sendCb (registered.call io) length rest io.send hpart io.now
    | quiet interest prefixed =>
      simp [Conn.reported, interest] at hout

theorem stage_connect (memory : NtyEvent) (fd : ℕ) (now : ℤ) : (connect memory fd now).Stage := by
  by_cases hstatus : memory.status = 1
  · refine .quiet (added_interest hstatus rfl fd .recv now) ?_
    simp [connect, Conn.added, ntyEventAdd, Conn.setEv, ntyEventSet, hstatus]
  · rw [connect, added_eq hstatus rfl rfl]
    exact .idle ⟨rfl, rfl, rfl, rfl, rfl⟩ rfl

/-- In a run of a connection everything that was received is sent, in order, and the connection does
not wait for more before, exactly if no `send` takes a part of the buffer only. -/
theorem echoes_iff_complete (memory : NtyEvent) (fd : ℕ) (now : ℤ) (actions : List ConnAction) :
    Runs.Throughout Conn.step Conn.Echoes (connect memory fd now) actions ↔
      Runs.Along Conn.step Complete (connect memory fd now) actions := by
  refine Runs.throughout_iff_along (A := fun _ _ => True) (fun c h => Conn.Stage.echoes h) ?_ ?_
    (stage_connect memory fd now) (Runs.along_of_forall fun _ _ => trivial)
  · exact fun c a h _ hcomplete => h.step a hcomplete
  · exact fun c a h _ hnot => h.step_incomplete a hnot

/-- Of four bytes received two are sent; the connection is idle then, and the others are lost. -/
theorem partial_send_loses : ¬Runs.Throughout Conn.step Conn.Echoes
    (connect ⟨0, .none, .accept, 0, [], 0, 0⟩ 5 0)
    [.event (fun _ => true) ⟨some [1, 2, 3, 4], 0, 1⟩, .event (fun _ => true) ⟨none, 2, 2⟩] := by
  intro hall
  have hlast := (Runs.throughout_iff_initial _ _).mp hall _ [] (List.append_nil _).symm
  exact absurd (hlast.all ⟨by decide, by decide, by decide⟩) (by decide)

end CServer.Reactor
