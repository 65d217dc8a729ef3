import CServer.Foundation.Runs
import Mathlib.Data.Int.Notation
import Mathlib.Logic.Function.Basic
import Mathlib.Order.Basic

/-!
# The reactor of chap5.1

The functions of reactor.c on the slot of a descriptor, with what the kernel knows of it: whether it
is open, and the events that epoll reports for it. The results of `recv`, `send` and `accept` and the
values of the clock come from outside. A `recv` or `send` result that is longer than asked for stands
for one of the length asked for.
-/
namespace CServer.Reactor

def bufferLength : ℕ := 4096

def maxEpollEvents : ℕ := 1024

inductive Events where
  | none
  | epollIn
  | epollOut
  deriving DecidableEq

inductive Callback where
  | accept
  | recv
  | send
  deriving DecidableEq

/-- `struct ntyevent`. -/
structure NtyEvent where
  fd : ℕ
  events : Events
  callback : Callback
  status : ℤ
  buffer : List UInt8
  length : ℕ
  lastActive : ℤ

/-- A slot and its descriptor, with the bytes received and sent on it and the time of the last call
of a callback for it. -/
structure Conn where
  ev : NtyEvent
  isOpen : Bool
  interest : Option Events
  received : List UInt8
  sent : List UInt8
  handled : Option ℤ

def Conn.setEv (c : Conn) (ev : NtyEvent) : Conn := { c with ev := ev }

/-- `close`, which also removes the descriptor from epoll. -/
def Conn.close (c : Conn) : Conn := { c with isOpen := false, interest := none }

/-- `nty_event_set`. -/
def ntyEventSet (ev : NtyEvent) (fd : ℕ) (callback : Callback) (now : ℤ) : NtyEvent :=
  { ev with fd := fd, callback := callback, events := .none, lastActive := now }

/-- `nty_event_add`; a call of `epoll_ctl` that the kernel refuses changes nothing there. -/
def ntyEventAdd (c : Conn) (events : Events) : Conn :=
  let registered := c.interest ≠ none
  if c.ev.status = 1 then
    { c with
      ev := { c.ev with events := events }
      interest := if c.isOpen ∧ registered then some events else c.interest }
  else
    { c with
      ev := { c.ev with events := events, status := 1 }
      interest := if c.isOpen ∧ ¬registered then some events else c.interest }

/-- `nty_event_del`. -/
def ntyEventDel (c : Conn) : Conn :=
  if c.ev.status ≠ 1 then c
  else { c with ev := { c.ev with status := 0 }, interest := none }

/-- `ev->length = len; ev->buffer[len] = 0`. Behind a full buffer the zero goes into the lowest byte
of the length. -/
def terminated (ev : NtyEvent) (len : ℕ) : NtyEvent :=
  if len < bufferLength then
    { ev with length := len, buffer := ev.buffer.take len ++ 0 :: ev.buffer.drop (len + 1) }
  else { ev with length := len - len % 256 }

/-- `recv_cb`. An empty result is the end of the stream. -/
def recvCb (c : Conn) (result : Option (List UInt8)) (now : ℤ) : Conn :=
  let bytes := (result.getD []).take bufferLength
  let c := { c with
    ev := { c.ev with buffer := bytes ++ c.ev.buffer.drop bytes.length }
    received := c.received ++ bytes }
  let c := ntyEventDel c
  if bytes.length > 0 then
    let ev := terminated c.ev bytes.length
    ntyEventAdd (c.setEv (ntyEventSet ev c.ev.fd .send now)) .epollOut
  else c.close

/-- `send_cb`; `n` bytes could be sent, none if there was an error. -/
def sendCb (c : Conn) (n : ℕ) (now : ℤ) : Conn :=
  let len := min n c.ev.length
  if len > 0 then
    let c := { c with sent := c.sent ++ c.ev.buffer.take len }
    let c := ntyEventDel c
    ntyEventAdd (c.setEv (ntyEventSet c.ev c.ev.fd .recv now)) .epollIn
  else ntyEventDel c.close

/-- The results of the system calls in a callback, and the time. -/
structure Io where
  recv : Option (List UInt8)
  send : ℕ
  now : ℤ

/-- The callback of a connection. -/
def Conn.call (c : Conn) (io : Io) : Conn :=
  let c := { c with handled := some io.now }
  match c.ev.callback with
  | .recv => recvCb c io.recv io.now
  | .send => sendCb c io.send io.now
  | .accept => c

/-- What epoll reports of the events that have happened. -/
def Conn.reported (c : Conn) (events : Events → Bool) (e : Events) : Bool :=
  events e && c.interest = some e

/-- The two tests of `ntyreactor_run` for an event, in a state that has the slot of the event. -/
def dispatch {σ : Type*} (events : σ → Events) (callback : σ → σ) (reported : Events → Bool) (s : σ) : σ :=
  let s := if reported .epollIn ∧ events s = .epollIn then callback s else s
  if reported .epollOut ∧ events s = .epollOut then callback s else s

/-- The sweep has come to the slot. -/
def Conn.expired (c : Conn) (now : ℤ) : Prop := c.ev.status = 1 ∧ now - c.ev.lastActive ≥ 60

instance decidableExpired (c : Conn) (now : ℤ) : Decidable (c.expired now) :=
  inferInstanceAs (Decidable (_ ∧ _))

/-- The slot is set for a descriptor and added for input. -/
def Conn.added (c : Conn) (fd : ℕ) (callback : Callback) (now : ℤ) : Conn :=
  ntyEventAdd (c.setEv (ntyEventSet c.ev fd callback now)) .epollIn

/-- The slot is registered for the events with the callback. -/
structure Conn.Registered (c : Conn) (e : Events) (f : Callback) : Prop where
  events : c.ev.events = e
  callback : c.ev.callback = f
  status : c.ev.status = 1
  interest : c.interest = some e
  isOpen : c.isOpen = true

/-! ## A slot that is removed, set and added again -/

variable {c : Conn}

theorem del_eq (hstatus : c.ev.status = 1) :
    ntyEventDel c = { c with ev := { c.ev with status := 0 }, interest := none } := by
  rw [ntyEventDel, if_neg (by simp [hstatus])]

theorem add_del_eq (hopen : c.isOpen = true) (hstatus : c.ev.status = 1) {ev : NtyEvent}
    (hev : ev.status = 0) (e : Events) :
    ntyEventAdd ((ntyEventDel c).setEv ev) e =
      ⟨{ ev with events := e, status := 1 }, c.isOpen, some e, c.received, c.sent, c.handled⟩ := by
  rw [del_eq hstatus]
  simp [ntyEventAdd, Conn.setEv, hev, hopen]

theorem terminated_status (ev : NtyEvent) (len : ℕ) : (terminated ev len).status = ev.status := by
  rw [terminated]
  split <;> rfl

/-- The tests of an event that is reported once call the callback at most once. -/
theorem dispatch_eq {σ : Type*} (events : σ → Events) (callback : σ → σ) {reported : Events → Bool}
    (honce : reported .epollIn = true → reported .epollOut = false) (s : σ) :
    dispatch events callback reported s =
      if reported .epollIn ∧ events s = .epollIn ∨ reported .epollOut ∧ events s = .epollOut then
        callback s else s := by
  by_cases hin : reported .epollIn = true ∧ events s = .epollIn
  · simp [dispatch, hin, honce hin.1]
  · simp [dispatch, hin]

theorem added_eq (hstatus : c.ev.status ≠ 1) (hopen : c.isOpen = true) (hinterest : c.interest = none)
    (fd : ℕ) (f : Callback) (now : ℤ) : c.added fd f now =
      ⟨{ ntyEventSet c.ev fd f now with events := .epollIn, status := 1 }, true, some .epollIn,
        c.received, c.sent, c.handled⟩ := by
  simp [Conn.added, ntyEventAdd, Conn.setEv, ntyEventSet, hstatus, hopen, hinterest]

/-- A slot that is active, but that epoll does not know, is not added. -/
theorem added_interest (hstatus : c.ev.status = 1) (hinterest : c.interest = none) (fd : ℕ) (f : Callback)
    (now : ℤ) : (c.added fd f now).interest = none := by
  simp [Conn.added, ntyEventAdd, Conn.setEv, ntyEventSet, hstatus, hinterest]

end CServer.Reactor
