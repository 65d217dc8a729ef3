import Mathlib.Data.List.Basic
import Mathlib.Data.Nat.Notation
import Mathlib.Logic.Function.Basic

/-!
# The channels of chap33/example.c

The threads that `ll_start` makes and their calls of `send` and `receive`, interleaved. What a thread
does between taking `kernel_access` and releasing it or waiting is one step. A thread that waits may
wake at any time, by a signal or by itself. A loop makes at most so many turns; a step that needs more
of them, and one that follows a null pointer, is not made. Next to the state a record is kept of what
the threads have called, who met whom and what was returned.
-/
namespace CServer.LuaChannels

abbrev Bytes := List UInt8

/-- What the functions of C read of a string of Lua. -/
def cString (s : Bytes) : Bytes := s.takeWhile (· ≠ 0)

/-- A thread goes by the address of its `Proc`. -/
abbrev Thread := ℕ

structure Proc where
  channel : Option Bytes
  previous : Option Thread
  next : Option Thread

inductive Operation where
  | send
  | receive
  deriving DecidableEq

def Operation.other : Operation → Operation
  | .send => .receive
  | .receive => .send

/-- Where a thread is: not started or at its end, outside of the functions, or in `waitonlist`. -/
inductive Place where
  | absent
  | running
  | waiting (operation : Operation)
  deriving DecidableEq

/-- The control blocks, the Lua stacks, the two lists and where the threads are. The list
`wait .send` is `waitsend`, and `wait .receive` is `waitreceive`. -/
structure State where
  procs : Thread → Proc
  stack : Thread → List Bytes
  wait : Operation → Option Thread
  place : Thread → Place

/-- `movevalues`. -/
def movevalues (σ : State) (send rec : Thread) : State :=
  { σ with
    stack := Function.update σ.stack rec (σ.stack rec ++ (σ.stack send).tail.map cString) }

/-- The loop of `searchmatch`, up to a match. -/
def searchLoop (procs : Thread → Proc) (channel : Bytes) : ℕ → Option Thread → Option (Option Thread)
  | _, none => some none
  | 0, some _ => none
  | turns + 1, some node =>
    match (procs node).channel with
    | none => none
    | some name =>
      if cString channel = cString name then some (some node)
      else searchLoop procs channel turns (procs node).next

def setNext (procs : Thread → Proc) (node : Thread) (next : Option Thread) : Thread → Proc :=
  Function.update procs node { procs node with next := next }

def setPrevious (procs : Thread → Proc) (node : Thread) (previous : Option Thread) : Thread → Proc :=
  Function.update procs node { procs node with previous := previous }

/-- What `searchmatch` does with a match. -/
def unlink (σ : State) (list : Operation) (node : Thread) : Option State :=
  let head :=
    if σ.wait list = some node then
      if (σ.procs node).next = some node then none else (σ.procs node).next
    else σ.wait list
  match (σ.procs node).previous with
  | none => none
  | some before =>
    let procs := setNext σ.procs before (σ.procs node).next
    match (procs node).next with
    | none => none
    | some behind =>
      some { σ with
        procs := setPrevious procs behind (procs node).previous
        wait := Function.update σ.wait list head }

/-- `searchmatch`. -/
def searchmatch (σ : State) (channel : Bytes) (list : Operation) (turns : ℕ) :
    Option (State × Option Thread) :=
  match searchLoop σ.procs channel turns (σ.wait list) with
  | none => none
  | some none => some (σ, none)
  | some (some node) => (unlink σ list node).map (fun σ => (σ, some node))

/-- The links that `waitonlist` sets; the list is not empty. -/
def linkLast (procs : Thread → Proc) (p first : Thread) : Option (Thread → Proc) :=
  let procs := setPrevious procs p (procs first).previous
  let procs := setNext procs p (some first)
  let procs := setPrevious procs first (some p)
  match (procs p).previous with
  | none => none
  | some last => some (setNext procs last (some p))

def setChannel (procs : Thread → Proc) (p : Thread) (channel : Option Bytes) : Thread → Proc :=
  Function.update procs p { procs p with channel := channel }

/-- `waitonlist`, up to the wait. -/
def waitonlist (σ : State) (p : Thread) (channel : Bytes) (list : Operation) : Option State :=
  let linked :=
    match σ.wait list with
    | none => some (setNext (setPrevious σ.procs p (some p)) p (some p))
    | some first => linkLast σ.procs p first
  linked.map fun procs =>
    { σ with
      procs := setChannel procs p (some channel)
      wait := Function.update σ.wait list (some ((σ.wait list).getD p))
      place := Function.update σ.place p (.waiting list) }

/-- The values go from the sender to the receiver. -/
def moveBetween (σ : State) (operation : Operation) (self other : Thread) : State :=
  match operation with
  | .send => movevalues σ self other
  | .receive => movevalues σ other self

/-- What `ll_send` and `ll_receive` have in common. The thread that was met is returned; without one,
the caller waits. -/
def exchange (σ : State) (operation : Operation) (self : Thread) (channel : Bytes) (turns : ℕ) :
    Option (State × Option Thread) :=
  match searchmatch σ channel operation.other turns with
  | none => none
  | some (σ, some p) =>
    let σ := moveBetween σ operation self p
    some ({ σ with procs := setChannel σ.procs p none }, some p)
  | some (σ, none) => (waitonlist σ self channel operation).map (fun σ => (σ, none))

/-- `ll_send`. -/
def llSend (σ : State) (self : Thread) (channel : Bytes) (values : List Bytes) (turns : ℕ) :
    Option (State × Option Thread) :=
  exchange { σ with stack := Function.update σ.stack self (channel :: values) } .send self
    channel turns

/-- `ll_receive`. -/
def llReceive (σ : State) (self : Thread) (channel : Bytes) (values : List Bytes) (turns : ℕ) :
    Option (State × Option Thread) :=
  exchange { σ with stack := Function.update σ.stack self ((channel :: values).take 1) } .receive self
    channel turns

/-- The results of the call that a thread is in, at its end. -/
def State.results (σ : State) (operation : Operation) (t : Thread) : List Bytes :=
  match operation with
  | .send => []
  | .receive => (σ.stack t).tail

/-- `ll_thread`, up to the call of the chunk. -/
def llThread (σ : State) (t : Thread) : State :=
  { σ with
    procs := setChannel σ.procs t none
    stack := Function.update σ.stack t []
    place := Function.update σ.place t .running }

/-- A call of `send` or of `receive` with its arguments. -/
structure Call where
  thread : Thread
  operation : Operation
  channel : Bytes
  values : List Bytes

def Call.exec (call : Call) (σ : State) (turns : ℕ) : Option (State × Option Thread) :=
  match call.operation with
  | .send => llSend σ call.thread call.channel call.values turns
  | .receive => llReceive σ call.thread call.channel call.values turns

/-- The calls go by their numbers, in the order in which they took `kernel_access`. `current` is the
last call of a thread, `pairs` are the sends and the receives that met, in this order, and `returned`
the calls that have ended, with their results. -/
structure Record where
  calls : List Call
  current : Thread → ℕ
  pairs : List (ℕ × ℕ)
  returned : List (ℕ × List Bytes)

def Record.arrive (ρ : Record) (call : Call) : Record :=
  { ρ with
    calls := ρ.calls ++ [call]
    current := Function.update ρ.current call.thread ρ.calls.length }

def Record.meet (ρ : Record) (operation : Operation) (self other : Thread) : Record :=
  match operation with
  | .send => { ρ with pairs := ρ.pairs ++ [(ρ.current self, ρ.current other)] }
  | .receive => { ρ with pairs := ρ.pairs ++ [(ρ.current other, ρ.current self)] }

def Record.finish (ρ : Record) (t : Thread) (results : List Bytes) : Record :=
  { ρ with returned := ρ.returned ++ [(ρ.current t, results)] }

inductive Event where
  | start (t : Thread)
  | call (call : Call)
  | wake (t : Thread)
  | finish (t : Thread)

/-- A step of the threads. -/
def step (turns : ℕ) (s : State × Record) : Event → Option (State × Record)
  | .start t => if s.1.place t = .absent then some (llThread s.1 t, s.2) else none
  | .call call =>
    if s.1.place call.thread = .running then
      match call.exec s.1 turns with
      | none => none
      | some (σ, none) => some (σ, s.2.arrive call)
      | some (σ, some p) =>
        some (σ, ((s.2.arrive call).meet call.operation call.thread p).finish call.thread
          (σ.results call.operation call.thread))
    else none
  | .wake t =>
    match s.1.place t with
    | .absent => none
    | .running => none
    | .waiting operation =>
      -- the loop around the wait
      if (s.1.procs t).channel.isSome then some s
      else
        some ({ s.1 with place := Function.update s.1.place t .running },
          s.2.finish t (s.1.results operation t))
  | .finish t =>
    if s.1.place t = .running then
      some ({ s.1 with place := Function.update s.1.place t .absent }, s.2)
    else none

/-- No thread has been started; the memory of the control blocks holds anything. -/
def start (memory : Thread → Proc) : State × Record :=
  ({ procs := memory, stack := fun _ => [], wait := fun _ => none, place := fun _ => .absent },
    { calls := [], current := fun _ => 0, pairs := [], returned := [] })

/-- The state after some steps, from the start. -/
def run (turns : ℕ) (memory : Thread → Proc) (events : List Event) : Option (State × Record) :=
  events.foldlM (step turns) (start memory)

end CServer.LuaChannels
