import Mathlib.Algebra.Group.Nat.Defs
import Mathlib.Data.List.Basic
import Mathlib.Logic.Function.Basic

/-!
# The linked lock free queue that recycles its nodes

`enqueue` and `try_dequeue` of SimpleLockFreeQueue.h, with any number of producers and one consumer.
Each load, store, CAS and `fetch_add` of a variable that several threads can reach is a step of its
own. An index names a node by its slot and carries a version, which grows when the node is taken from
the free list; the lowest bit of the head says that its element is consumed. A weak CAS may fail for
no reason. The directory of the blocks is left out: a slot is where its node is.
-/
namespace CServer.Queues.SimpleQueue

/-- `idx_t` without the flag, other than 0. -/
structure Idx where
  slot : ℕ
  version : ℕ
  deriving DecidableEq, Repr

/-- Where `enqueue` is, named by what it does next. -/
inductive Producer (E : Type) where
  | idle
  | loadFree (item : E)
  | loadFreeNext (item : E) (head : Option Idx)
  | casFree (item : E) (head : Idx) (next : Option Idx)
  | newNode (item : E)
  | clearNext (item : E) (nodeIdx : Idx)
  | construct (item : E) (nodeIdx : Idx)
  | loadTail (item : E) (nodeIdx : Idx)
  | casTail (item : E) (nodeIdx : Idx) (tail : Idx)
  | link (tail : Idx) (nodeIdx : Idx)

/-- Where `try_dequeue` is, named by what it does next. -/
inductive Consumer (E : Type) where
  | loadHead
  | loadNext (head : Idx) (consumed : Bool)
  | casFlag (head : Idx)
  | takeLast (head : Idx)
  | casHead (head : Idx) (consumed : Bool) (next : Idx)
  | take (head : Idx)
  | loadFree (head : Idx) (taken : Option E)
  | setNext (head : Idx) (taken : Option E) (free : Option Idx)
  | casFree (head : Idx) (taken : Option E) (free : Option Idx)
  | done (item : Option E)

/-- The nodes, by their slots, the members of the queue and its threads. Of the elements there are
those whose nodes were put behind the tail and those that `try_dequeue` has moved out, in order. -/
structure System (T E : Type) where
  next : ℕ → Option Idx
  item : ℕ → Option E
  nextNodeIdx : ℕ
  head : Idx
  consumed : Bool
  tail : Idx
  freeListHead : Option Idx
  producers : T → Producer E
  consumer : Consumer E
  enqueued : List E
  dequeued : List E

variable {T E : Type} [DecidableEq T]

/-- The constructor. What a slot that was never used holds does not matter. -/
def initial (next : ℕ → Option Idx) : System T E where
  next := Function.update next 1 none
  item _ := none
  nextNodeIdx := 2
  head := ⟨1, 0⟩
  consumed := true
  tail := ⟨1, 0⟩
  freeListHead := none
  producers _ := .idle
  consumer := .done none
  enqueued := []
  dequeued := []

/-- `get_node_at` finds a node. -/
def System.Made (s : System T E) (i : Idx) : Prop := 0 < i.slot ∧ i.slot < s.nextNodeIdx

instance (s : System T E) (i : Idx) : Decidable (s.Made i) := inferInstanceAs (Decidable (_ ∧ _))

def System.go (s : System T E) (t : T) (p : Producer E) : System T E :=
  { s with producers := Function.update s.producers t p }

/-- `VERSION_INCR`. -/
def Idx.again (i : Idx) : Idx := ⟨i.slot, (i.version + 1) % 2 ^ 24⟩

/-- A step of `enqueue`; no result means an access without a node, or an element constructed over
another one. -/
def enqueue (s : System T E) (t : T) (lucky : Bool) : Producer E → Option (System T E)
  | .idle => some s
  | .loadFree item => some (s.go t (.loadFreeNext item s.freeListHead))
  | .loadFreeNext item none => some (s.go t (.newNode item))
  | .loadFreeNext item (some head) =>
    if s.Made head then some (s.go t (.casFree item head (s.next head.slot))) else none
  | .casFree item head next =>
    if s.freeListHead = some head ∧ lucky then
      some { s.go t (.clearNext item head.again) with freeListHead := next }
    else some (s.go t (.loadFreeNext item s.freeListHead))
  | .newNode item =>
    -- nobody else reaches the node that is constructed in the new slot
    some { s.go t (.loadTail item ⟨s.nextNodeIdx, 0⟩) with
      nextNodeIdx := s.nextNodeIdx + 1
      next := Function.update s.next s.nextNodeIdx none
      item := Function.update s.item s.nextNodeIdx (some item) }
  | .clearNext item nodeIdx =>
    if s.Made nodeIdx then
      some { s.go t (.construct item nodeIdx) with next := Function.update s.next nodeIdx.slot none }
    else none
  | .construct item nodeIdx =>
    if s.Made nodeIdx ∧ (s.item nodeIdx.slot).isNone then
      some { s.go t (.loadTail item nodeIdx) with
        item := Function.update s.item nodeIdx.slot (some item) }
    else none
  | .loadTail item nodeIdx => some (s.go t (.casTail item nodeIdx s.tail))
  | .casTail item nodeIdx tail =>
    if s.tail = tail ∧ lucky then
      some { s.go t (.link tail nodeIdx) with tail := nodeIdx, enqueued := s.enqueued ++ [item] }
    else some (s.go t (.casTail item nodeIdx s.tail))
  | .link tail nodeIdx =>
    if s.Made tail then
      some { s.go t .idle with next := Function.update s.next tail.slot (some nodeIdx) }
    else none

/-- The element of a node is moved out and destroyed. -/
def System.moveOut (s : System T E) (head : Idx) (consumer : E → Consumer E) : Option (System T E) :=
  if s.Made head then
    match s.item head.slot with
    | none => none
    | some item => some { s with
        item := Function.update s.item head.slot none
        dequeued := s.dequeued ++ [item]
        consumer := consumer item }
  else none

/-- A step of `try_dequeue`; no result means an access without a node or without an element. -/
def tryDequeue (s : System T E) (lucky : Bool) : Consumer E → Option (System T E)
  | .loadHead => some { s with consumer := .loadNext s.head s.consumed }
  | .loadNext head consumed =>
    if s.Made head then
      match s.next head.slot, consumed with
      | none, true => some { s with consumer := .done none }
      | none, false => some { s with consumer := .casFlag head }
      | some next, _ => some { s with consumer := .casHead head consumed next }
    else none
  | .casFlag head =>
    if s.head = head ∧ s.consumed = false then
      some { s with consumed := true, consumer := .takeLast head }
    else some { s with consumer := .loadHead }
  | .takeLast head => s.moveOut head fun item => .done (some item)
  | .casHead head consumed next =>
    if (s.head = head ∧ s.consumed = consumed) ∧ lucky then
      some { s with
        head := next
        consumed := false
        consumer := if consumed then .loadFree head none else .take head }
    else some { s with consumer := .loadHead }
  | .take head => s.moveOut head fun item => .loadFree head (some item)
  | .loadFree head taken => some { s with consumer := .setNext head taken s.freeListHead }
  | .setNext head taken free =>
    if s.Made head then
      some { s with
        next := Function.update s.next head.slot free
        consumer := .casFree head taken free }
    else none
  | .casFree head taken free =>
    if s.freeListHead = free ∧ lucky then
      some { s with
        freeListHead := some head
        consumer := match taken with
          | some item => .done (some item)
          | none => .loadHead }
    else some { s with consumer := .setNext head taken s.freeListHead }
  | .done item => some { s with consumer := .done item }

/-! ## The destructor -/

/-- The nodes from an index on, each of which holds an element: what is destroyed, in order. No result
means that there is no node or no element, or that the turns do not suffice. -/
def System.destroyFull (s : System T E) : ℕ → Option Idx → Option (List ℕ × List E)
  | 0, _ => none
  | _ + 1, none => some ([], [])
  | turns + 1, some idx =>
    if s.Made idx then do
      let item ← s.item idx.slot
      let (nodes, items) ← s.destroyFull turns (s.next idx.slot)
      return (idx.slot :: nodes, item :: items)
    else none

def System.destroyFree (s : System T E) : ℕ → Option Idx → Option (List ℕ)
  | 0, _ => none
  | _ + 1, none => some []
  | turns + 1, some idx =>
    if s.Made idx then do
      let nodes ← s.destroyFree turns (s.next idx.slot)
      return idx.slot :: nodes
    else none

/-- The loops of the destructor that start from the head: a head that is consumed has no element. -/
def System.destroyQueue (s : System T E) (turns : ℕ) : Option (List ℕ × List E) :=
  if s.consumed then
    if s.Made s.head then
      (s.destroyFull turns (s.next s.head.slot)).map fun (nodes, items) =>
        (s.head.slot :: nodes, items)
    else none
  else s.destroyFull turns (some s.head)

/-- `~SimpleLockFreeQueue`, with the slots of the nodes that it destroys and the elements. -/
def System.destructor (s : System T E) (turns : ℕ) : Option (List ℕ × List E) := do
  let (nodes, items) ← s.destroyQueue turns
  let free ← s.destroyFree turns s.freeListHead
  return (nodes ++ free, items)

/-! ## Runs -/

inductive Action (T E : Type) where
  | callEnqueue (t : T) (item : E)
  | producer (t : T) (lucky : Bool)
  | callTryDequeue
  | consumer (lucky : Bool)

/-- A thread calls when it is not in a call. The slots and the versions of a slot must not run out. -/
def Action.Enabled (s : System T E) : Action T E → Prop
  | .callEnqueue t _ => s.producers t = .idle
  | .producer t _ =>
    match s.producers t with
    | .idle => False
    | .casFree _ head _ => head.version + 1 < 2 ^ 24
    | .newNode _ => s.nextNodeIdx < 2 ^ 39
    | _ => True
  | .callTryDequeue => ∃ item, s.consumer = .done item
  | .consumer _ => ∀ item, s.consumer ≠ .done item

def perform (s : System T E) : Action T E → Option (System T E)
  | .callEnqueue t item => some (s.go t (.loadFree item))
  | .producer t lucky => enqueue s t lucky (s.producers t)
  | .callTryDequeue => some { s with consumer := .loadHead }
  | .consumer lucky => tryDequeue s lucky s.consumer

inductive Reached : System T E → Prop where
  | start (next : ℕ → Option Idx) : Reached (initial next)
  | step {s s' : System T E} (a : Action T E) (h : Reached s) (enabled : a.Enabled s)
    (result : perform s a = some s') : Reached s'

end CServer.Queues.SimpleQueue
