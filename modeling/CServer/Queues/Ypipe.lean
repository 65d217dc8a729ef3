import Mathlib.Data.List.Infix
import Mathlib.Logic.Function.Basic

/-!
# The pipe between one writer and one reader

`ypipe_t` of ypipe.hpp over the chunk queue `yqueue_t` of yqueue.hpp, for one thread that writes and
one that reads. Each access to a chunk, to `c` or to `spare_chunk` is a step of its own, and so are
`malloc` and `free`; what only one thread uses changes together with the step before it. An access
to a chunk that is not allocated has no result.
-/
namespace CServer.Queues.Ypipe

structure Chunk (E : Type) where
  values : ℕ → E
  prev : Option ℕ
  next : Option ℕ

/-- The address of an element: its chunk and its place in `values`. -/
abbrev Slot := ℕ × ℕ

abbrev Heap (E : Type) := ℕ → Option (Chunk E)

/-- Where the writer is, named by what it does next; `incomplete` is the argument of `write`. -/
inductive Writer (E : Type) where
  | idle
  | store (value : E) (incomplete : Bool)
  | takeSpare (incomplete : Bool)
  | malloc (incomplete : Bool)
  | setNext (sc : ℕ) (incomplete : Bool)
  | setPrev (sc : ℕ) (incomplete : Bool)
  | setNextNew (sc : ℕ) (incomplete : Bool)
  | setPrevNew (incomplete : Bool)
  | moveEnd (incomplete : Bool)
  | backPrev
  | endPrev
  | free
  | clearNext
  | fetch
  | cas
  | set
  | done (result : Bool) (value : Option E)

/-- Where the reader is, named by what it does next; `reading` tells `read` from `check_read`. -/
inductive Reader (E : Type) where
  | idle
  | cas (reading : Bool)
  | fetch
  | moveBegin (value : E)
  | clearPrev (value : E) (o : ℕ)
  | giveSpare (value : E) (o : ℕ)
  | free (value : E) (cs : Option ℕ)
  | done (result : Bool) (value : Option E)

/-- The pipe and its two threads, and what they have done: the elements written and not taken back,
how many of them are complete, how many were flushed, the elements read, and whether the reader
found nothing and was not told of any flush since. -/
structure System (E : Type) where
  heap : Heap E
  beginChunk : ℕ
  beginPos : ℕ
  backChunk : ℕ
  backPos : ℕ
  endChunk : ℕ
  endPos : ℕ
  spareChunk : Option ℕ
  w : Slot
  r : Option Slot
  f : Slot
  c : Option Slot
  writer : Writer E
  reader : Reader E
  written : List E
  complete : ℕ
  flushed : ℕ
  taken : List E
  asleep : Bool

variable {E : Type}

def Chunk.store (chunk : Chunk E) (pos : ℕ) (value : E) : Chunk E :=
  { chunk with values := Function.update chunk.values pos value }

/-- `&queue.front()`. -/
def System.front (s : System E) : Slot := (s.beginChunk, s.beginPos)

/-- `&queue.back()`. -/
def System.back (s : System E) : Slot := (s.backChunk, s.backPos)

def System.setChunk (s : System E) (p : ℕ) (chunk : Option (Chunk E)) : System E :=
  { s with heap := Function.update s.heap p chunk }

/-- The end of `write`, behind `queue.push()`. -/
def finishWrite (s : System E) (incomplete : Bool) : System E :=
  if incomplete then { s with writer := .done true none }
  else { s with f := s.back, complete := s.written.length, writer := .done true none }

/-- The second half of `unpush`, up to the first chunk it looks at. -/
def unpushEnd (s : System E) : System E :=
  if s.endPos ≠ 0 then { s with endPos := s.endPos - 1, writer := .fetch }
  else { s with writer := .endPrev }

def callUnwrite (s : System E) : System E :=
  if s.f = s.back then { s with writer := .done false none }
  else if s.backPos ≠ 0 then unpushEnd { s with backPos := s.backPos - 1 }
  else { s with writer := .backPrev }

def callFlush (s : System E) : System E :=
  if s.w = s.f then { s with writer := .done true none } else { s with writer := .cas }

/-- `check_read`, up to its CAS. -/
def callRead (s : System E) (reading : Bool) : System E :=
  if some s.front ≠ s.r ∧ s.r ≠ none then
    { s with reader := if reading then .fetch else .done true none }
  else { s with reader := .cas reading }

/-- A step of the writer, other than the calls and `malloc`; `N` elements fit in a chunk. -/
def write (N : ℕ) (s : System E) : Writer E → Option (System E)
  | .idle => some s
  | .store value incomplete => do
    let chunk ← s.heap s.backChunk
    let s := { s.setChunk s.backChunk (some (chunk.store s.backPos value)) with
      written := s.written ++ [value]
      backChunk := s.endChunk
      backPos := s.endPos
      endPos := s.endPos + 1 }
    if s.endPos ≠ N then return finishWrite s incomplete
    else return { s with writer := .takeSpare incomplete }
  | .takeSpare incomplete =>
    match s.spareChunk with
    | some sc => some { s with spareChunk := none, writer := .setNext sc incomplete }
    | none => some { s with spareChunk := none, writer := .malloc incomplete }
  | .malloc _ => some s
  | .setNext sc incomplete => do
    let chunk ← s.heap s.endChunk
    return { s.setChunk s.endChunk (some { chunk with next := some sc }) with
      writer := .setPrev sc incomplete }
  | .setPrev sc incomplete => do
    let chunk ← s.heap sc
    return { s.setChunk sc (some { chunk with prev := some s.endChunk }) with
      writer := .moveEnd incomplete }
  | .setNextNew sc incomplete => do
    let chunk ← s.heap s.endChunk
    return { s.setChunk s.endChunk (some { chunk with next := some sc }) with
      writer := .setPrevNew incomplete }
  | .setPrevNew incomplete => do
    let last ← s.heap s.endChunk
    let sc ← last.next
    let chunk ← s.heap sc
    return { s.setChunk sc (some { chunk with prev := some s.endChunk }) with
      writer := .moveEnd incomplete }
  | .moveEnd incomplete => do
    let chunk ← s.heap s.endChunk
    let next ← chunk.next
    return finishWrite { s with endChunk := next, endPos := 0 } incomplete
  | .backPrev => do
    let chunk ← s.heap s.backChunk
    let prev ← chunk.prev
    return unpushEnd { s with backPos := N - 1, backChunk := prev }
  | .endPrev => do
    let chunk ← s.heap s.endChunk
    let prev ← chunk.prev
    return { s with endPos := N - 1, endChunk := prev, writer := .free }
  | .free => do
    let chunk ← s.heap s.endChunk
    let next ← chunk.next
    let _ ← s.heap next
    return { s.setChunk next none with writer := .clearNext }
  | .clearNext => do
    let chunk ← s.heap s.endChunk
    return { s.setChunk s.endChunk (some { chunk with next := none }) with writer := .fetch }
  | .fetch => do
    let chunk ← s.heap s.backChunk
    return { s with
      written := s.written.dropLast
      writer := .done true (some (chunk.values s.backPos)) }
  | .cas =>
    if s.c = some s.w then
      some { s with c := some s.f, w := s.f, flushed := s.complete, writer := .done true none }
    else some { s with writer := .set }
  | .set => some { s with
      c := some s.f
      w := s.f
      flushed := s.complete
      asleep := false
      writer := .done false none }
  | .done _ _ => some { s with writer := .idle }

/-- A step of the reader, other than the calls. -/
def read (N : ℕ) (s : System E) : Reader E → Option (System E)
  | .idle => some s
  | .cas reading =>
    let r := s.c
    let s := { s with c := if s.c = some s.front then none else s.c, r := r }
    if some s.front = r ∨ r = none then
      some { s with asleep := true, reader := .done false none }
    else some { s with reader := if reading then .fetch else .done true none }
  | .fetch => do
    let chunk ← s.heap s.beginChunk
    let value := chunk.values s.beginPos
    let s := { s with taken := s.taken ++ [value], beginPos := s.beginPos + 1 }
    if s.beginPos = N then return { s with reader := .moveBegin value }
    else return { s with reader := .done true (some value) }
  | .moveBegin value => do
    let chunk ← s.heap s.beginChunk
    let next ← chunk.next
    return { s with beginChunk := next, reader := .clearPrev value s.beginChunk }
  | .clearPrev value o => do
    let chunk ← s.heap s.beginChunk
    return { s.setChunk s.beginChunk (some { chunk with prev := none }) with
      beginPos := 0
      reader := .giveSpare value o }
  | .giveSpare value o => some { s with spareChunk := some o, reader := .free value s.spareChunk }
  | .free value none => some { s with reader := .done true (some value) }
  | .free value (some cs) => do
    let _ ← s.heap cs
    return { s.setChunk cs none with reader := .done true (some value) }
  | .done _ _ => some { s with reader := .idle }

/-- A thread calls a function of the pipe or makes a step in it; `malloc` gives a chunk that is not
allocated, with any content. -/
inductive Action (E : Type) where
  | callWrite (value : E) (incomplete : Bool)
  | callUnwrite
  | callFlush
  | callRead (reading : Bool)
  | malloc (p : ℕ) (chunk : Chunk E)
  | writer
  | reader

def Action.Enabled (s : System E) : Action E → Prop
  | .callWrite _ _ | .callUnwrite | .callFlush => s.writer = .idle
  | .callRead _ => s.reader = .idle
  | .malloc p _ => (∃ incomplete, s.writer = .malloc incomplete) ∧ s.heap p = none
  | .writer => s.writer ≠ .idle ∧ ∀ incomplete, s.writer ≠ .malloc incomplete
  | .reader => s.reader ≠ .idle

def perform (N : ℕ) (s : System E) : Action E → Option (System E)
  | .callWrite value incomplete => some { s with writer := .store value incomplete }
  | .callUnwrite => some (callUnwrite s)
  | .callFlush => some (callFlush s)
  | .callRead reading => some (callRead s reading)
  | .malloc p chunk =>
    match s.writer with
    | .malloc incomplete => some { s.setChunk p (some chunk) with writer := .setNextNew p incomplete }
    | _ => some s
  | .writer => write N s s.writer
  | .reader => read N s s.reader

/-- The pipe of the constructor: one terminator in the first chunk, `first`; when it is the only
element that fits, its `push` has made the chunk `second`. -/
def initial (N first second : ℕ) (chunk chunk' : Chunk E) : System E where
  heap :=
    if N = 1 then
      Function.update (Function.update (fun _ => none) first (some { chunk with next := some second }))
        second (some { chunk' with prev := some first })
    else Function.update (fun _ => none) first (some chunk)
  beginChunk := first
  beginPos := 0
  backChunk := first
  backPos := 0
  endChunk := if N = 1 then second else first
  endPos := if N = 1 then 0 else 1
  spareChunk := none
  w := (first, 0)
  r := some (first, 0)
  f := (first, 0)
  c := some (first, 0)
  writer := .idle
  reader := .idle
  written := []
  complete := 0
  flushed := 0
  taken := []
  asleep := false

/-- The states of all runs. -/
inductive Reached (N : ℕ) : System E → Prop
  | start (first second : ℕ) (chunk chunk' : Chunk E) (hne : first ≠ second) :
      Reached N (initial N first second chunk chunk')
  | step {s s' : System E} (a : Action E) (before : Reached N s) (enabled : a.Enabled s)
      (result : perform N s a = some s') : Reached N s'

end CServer.Queues.Ypipe
