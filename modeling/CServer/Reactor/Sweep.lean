import CServer.Reactor.Model
import Mathlib.Data.Finset.Range
import Mathlib.Logic.Function.Basic

/-!
# The loop of the reactor

A round of `ntyreactor_run` sweeps a hundred slots, waits for events and calls the callbacks. The
clock, the events and the results of the system calls come from outside. The state records for each
connection that the sweep closes when its last event was handled, and whether the program has left
the array of the slots.
-/
namespace CServer.Reactor

/-- `struct ntyreactor`, with the local variables of `ntyreactor_run`: the descriptors with their
slots, the position of the sweep, whether `epoll_wait` is next, and the events that it has reported and
that are not handled. -/
structure NtyReactor where
  slots : ℕ → Conn
  checkpos : ℕ
  waiting : Bool
  pending : List (ℕ × (Events → Bool))
  swept : List (ℤ × Option ℤ)
  overrun : Bool

namespace NtyReactor

def setSlot (s : NtyReactor) (k : ℕ) (c : Conn) : NtyReactor :=
  { s with slots := Function.update s.slots k c }

/-- `ntyreactor_init` and `ntyreactor_addlistener`. `malloc` leaves some content in the slots. -/
def start (memory : ℕ → NtyEvent) (sockfd : ℕ) (now : ℤ) : NtyReactor where
  slots k :=
    if k = sockfd then Conn.added ⟨memory k, true, none, [], [], none⟩ k .accept now
    else ⟨memory k, false, none, [], [], none⟩
  checkpos := 0
  waiting := false
  pending := []
  swept := []
  overrun := sockfd ≥ maxEpollEvents

/-- The slot that the sweep looks at next. -/
def position (s : NtyReactor) : ℕ := if s.checkpos = maxEpollEvents then 0 else s.checkpos

/-- The sweep closes the descriptor in slot `k`. epoll does not know it any more, so `nty_event_del`
resets the status only. -/
def closeExpired (s : NtyReactor) (k : ℕ) (now : ℤ) : NtyReactor :=
  let fd := (s.slots k).ev.fd
  let c := s.slots fd
  let s := { s with swept := if c.isOpen then (now, c.handled) :: s.swept else s.swept }
  let s := s.setSlot fd c.close
  s.setSlot k ((s.slots k).setEv { (s.slots k).ev with status := 0 })

/-- The body of the loop of the sweep. -/
def visit (s : NtyReactor) (now : ℤ) : NtyReactor :=
  let k := s.position
  let s := { s with checkpos := k + 1 }
  if (s.slots k).expired now then s.closeExpired k now else s

def sweep (s : NtyReactor) (now : ℤ) : NtyReactor :=
  Runs.finalState visit s (List.replicate 100 now)

/-- A slot is free. -/
def hasFree (s : NtyReactor) : Prop := ∃ i < maxEpollEvents, (s.slots i).ev.status = 0

instance decidableHasFree (s : NtyReactor) : Decidable s.hasFree :=
  inferInstanceAs (Decidable (∃ i < maxEpollEvents, _))

/-- `accept_cb`. The kernel gives a descriptor that is not open. Without a free slot the message reads
behind the array. -/
def acceptCb (s : NtyReactor) (clientfd : Option ℕ) (nonblocking : Bool) (now : ℤ) : NtyReactor :=
  match clientfd with
  | none => s
  | some fd =>
    if (s.slots fd).isOpen then s
    else
      let client : Conn := ⟨(s.slots fd).ev, true, none, [], [], none⟩
      let s := s.setSlot fd client
      if ¬s.hasFree then { s with overrun := true }
      else if ¬nonblocking then s
      else if fd ≥ maxEpollEvents then { s with overrun := true }
      else s.setSlot fd (client.added fd .recv now)

/-- The results of the calls in a callback. -/
structure Calls where
  io : Io
  clientfd : Option ℕ
  nonblocking : Bool

/-- The callback of slot `k`. -/
def callback (s : NtyReactor) (k : ℕ) (calls : Calls) : NtyReactor :=
  match (s.slots k).ev.callback with
  | .accept => s.acceptCb calls.clientfd calls.nonblocking calls.io.now
  | _ =>
    let fd := (s.slots k).ev.fd
    s.setSlot fd ((s.slots fd).call calls.io)

inductive Action where
  | sweep (now : ℤ)
  | wait (events : List (ℕ × (Events → Bool)))
  | event (calls : Calls)

/-- epoll reports a descriptor once, and only one that it knows. -/
def Reportable (s : NtyReactor) (events : List (ℕ × (Events → Bool))) : Prop :=
  (events.map Prod.fst).Nodup ∧ ∀ p ∈ events, (s.slots p.1).interest ≠ none

instance decidableReportable (s : NtyReactor) (events : List (ℕ × (Events → Bool))) :
    Decidable (s.Reportable events) :=
  inferInstanceAs (Decidable (_ ∧ _))

/-- The next thing that `ntyreactor_run` does; an action out of turn is none of the program. -/
def step (s : NtyReactor) : Action → NtyReactor
  | .sweep now =>
    if s.waiting = false ∧ s.pending = [] then { s.sweep now with waiting := true } else s
  | .wait events =>
    if s.waiting = true ∧ s.Reportable events then
      { s with
        waiting := false
        pending := events.map fun p => (p.1, (s.slots p.1).reported p.2) }
    else s
  | .event calls =>
    match s.pending with
    | [] => s
    | (k, reported) :: pending =>
      dispatch (fun s => (s.slots k).ev.events) (fun s => s.callback k calls) reported
        { s with pending := pending }

end NtyReactor

end CServer.Reactor
