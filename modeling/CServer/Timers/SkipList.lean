import CServer.Foundation.Linked
import Mathlib.Data.Multiset.Basic
import Mathlib.Logic.Function.Basic

/-!
# The skip list of the timers

skiplist.c. A node lives at an address of a heap and has as many `level` entries as it was
allocated with. A read or write at an address that is not allocated, beyond the entries of a
node, or of an unset entry of `update` is a `Fault`, and so is a `while` loop that would pass
more nodes than the list has. `malloc` gives any address that is not allocated, and the
random levels are those `zslRandomLevel` can return. Scores are compared and never computed
with, so that they are natural numbers; `length` is unbounded.
-/
namespace CServer.Timers

abbrev Addr := ℕ

variable {H : Type}

def maxLevel : ℕ := 32

/-- `zskiplistNode`. -/
structure ZskiplistNode (H : Type) where
  score : ℕ
  handler : H
  level : List (Option Addr)

abbrev Heap (H : Type) := Addr → Option (ZskiplistNode H)

/-- `zskiplist`, with the memory its nodes live in. -/
structure Zskiplist (H : Type) where
  header : Addr
  length : ℤ
  level : ℕ
  heap : Heap H

inductive Fault where
  | notAllocated
  | outsideLevels
  | uninitialised
  | endless
  deriving DecidableEq, Repr

/-- The node at an address. -/
def Heap.node (heap : Heap H) (x : Addr) : Except Fault (ZskiplistNode H) :=
  match heap x with
  | some n => .ok n
  | none => .error .notAllocated

/-- `x->level[i].forward`. -/
def Heap.forward (heap : Heap H) (x : Addr) (i : ℕ) : Except Fault (Option Addr) := do
  let n ← heap.node x
  match n.level[i]? with
  | some f => .ok f
  | none => .error .outsideLevels

/-- `x->level[i].forward = f`. -/
def Heap.setForward (heap : Heap H) (x : Addr) (i : ℕ) (f : Option Addr) :
    Except Fault (Heap H) := do
  let n ← heap.node x
  if i < n.level.length then
    .ok (Function.update heap x (some { n with level := n.level.set i f }))
  else .error .outsideLevels

/-- `zslCreateNode` at the address `malloc` returns. Every entry of `level` is written before
it is read. -/
def zslCreateNode (heap : Heap H) (x : Addr) (level : ℕ) (score : ℕ) (func : H) : Heap H :=
  Function.update heap x (some ⟨score, func, List.replicate level none⟩)

/-- `zslCreate`, with its header at the given address. -/
def zslCreate (header : Addr) (defaultHandler : H) : Zskiplist H :=
  ⟨header, 0, 1, zslCreateNode (fun _ => none) header maxLevel 0 defaultHandler⟩

/-- What `zslRandomLevel` returns. -/
structure RandomLevel where
  val : ℕ
  pos : 1 ≤ val
  le : val ≤ maxLevel

/-- The loop of `zslRandomLevel` on the numbers `arc4random` gives. It needs one that does
not count. -/
def zslRandomLevelLoop (level : ℕ) : List ℕ → Option ℕ
  | [] => none
  | r :: arc4random =>
    if 4 * (r % 65536) < 65535 then zslRandomLevelLoop (level + 1) arc4random else some level

theorem zslRandomLevelLoop_ge {draws : List ℕ} {level result : ℕ}
    (h : zslRandomLevelLoop level draws = some result) : level ≤ result := by
  induction draws generalizing level with
  | nil => simp [zslRandomLevelLoop] at h
  | cons r draws ih =>
    unfold zslRandomLevelLoop at h
    split at h
    · have := ih h
      omega
    · exact le_of_eq (Option.some.inj h)

/-- `zslRandomLevel`. -/
def zslRandomLevel (arc4random : List ℕ) : Option RandomLevel :=
  match h : zslRandomLevelLoop 1 arc4random with
  | some level =>
    some ⟨if level < maxLevel then level else maxLevel, by
      have := zslRandomLevelLoop_ge h
      split <;> simp only [maxLevel] at * <;> omega, by split <;> omega⟩
  | none => none

/-- The most steps a `while` loop along a level can make. -/
def Zskiplist.steps (zsl : Zskiplist H) : ℕ := zsl.length.toNat + 1

/-- The `while` loop of the searches: along level `i` to the last node before `score`. -/
def zslWalk (heap : Heap H) (score i : ℕ) : ℕ → Addr → Except Fault Addr
  | 0, _ => .error .endless
  | steps + 1, x => do
    match ← heap.forward x i with
    | none => .ok x
    | some y =>
      let n ← heap.node y
      if n.score < score then zslWalk heap score i steps y else .ok x

/-- The `for` loop of the searches from level `i - 1` down: the entries of `update` for the
levels it passes, and the node it ends at. -/
def zslSearch (heap : Heap H) (score steps : ℕ) : ℕ → Addr → Except Fault (List Addr × Addr)
  | 0, x => .ok ([], x)
  | i + 1, x => do
    let x ← zslWalk heap score i steps x
    let below ← zslSearch heap score steps i x
    .ok (below.1 ++ [x], below.2)

/-- `update[i]`. -/
def updateAt (update : List Addr) (i : ℕ) : Except Fault Addr :=
  match update[i]? with
  | some u => .ok u
  | none => .error .uninitialised

/-- The last loop of `zslInsert` over the given levels. -/
def zslLink (x : Addr) (update : List Addr) : List ℕ → Heap H → Except Fault (Heap H)
  | [], heap => .ok heap
  | i :: is, heap => do
    let u ← updateAt update i
    let f ← heap.forward u i
    let heap ← heap.setForward x i f
    let heap ← heap.setForward u i (some x)
    zslLink x update is heap

/-- `zslInsert`, where `zslRandomLevel` returns `level` and `malloc` returns `x`. -/
def zslInsert (zsl : Zskiplist H) (score : ℕ) (func : H) (level : RandomLevel) (x : Addr) :
    Except Fault (Zskiplist H) := do
  let found ← zslSearch zsl.heap score zsl.steps zsl.level zsl.header
  let update := found.1 ++ List.replicate (level.val - zsl.level) zsl.header
  let heap := zslCreateNode zsl.heap x level.val score func
  let heap ← zslLink x update (List.range level.val) heap
  .ok { zsl with
    heap := heap
    level := if level.val > zsl.level then level.val else zsl.level
    length := zsl.length + 1 }

/-- `zslMin`. -/
def zslMin (zsl : Zskiplist H) : Except Fault (Option Addr) := zsl.heap.forward zsl.header 0

/-- The unlinking loops of `zslDeleteHead` and `zslDeleteNode` over the given levels: where
the node `before` names at a level points to `x`, it is led past it. -/
def zslUnlink (x : Addr) (before : ℕ → Except Fault Addr) :
    List ℕ → Heap H → Except Fault (Heap H)
  | [], heap => .ok heap
  | i :: is, heap => do
    let u ← before i
    let f ← heap.forward u i
    if f = some x then do
      let g ← heap.forward x i
      let heap ← heap.setForward u i g
      zslUnlink x before is heap
    else zslUnlink x before is heap

/-- The loop that takes `zsl->level` down past the empty levels. -/
def zslShrink (heap : Heap H) (header : Addr) : ℕ → Except Fault ℕ
  | 0 => .ok 0
  | 1 => .ok 1
  | level + 2 => do
    let f ← heap.forward header (level + 1)
    if f = none then zslShrink heap header (level + 1) else .ok (level + 2)

/-- `zslDeleteHead`. The node it takes out stays allocated. -/
def zslDeleteHead (zsl : Zskiplist H) : Except Fault (Zskiplist H) := do
  match ← zslMin zsl with
  | none => .ok zsl
  | some x =>
    let heap ← zslUnlink x (fun _ => .ok zsl.header) (List.range zsl.level).reverse zsl.heap
    let level ← zslShrink heap zsl.header zsl.level
    .ok { zsl with heap := heap, level := level, length := zsl.length - 1 }

/-- `zslDeleteNode`. -/
def zslDeleteNode (zsl : Zskiplist H) (x : Addr) (update : List Addr) :
    Except Fault (Zskiplist H) := do
  let heap ← zslUnlink x (updateAt update) (List.range zsl.level) zsl.heap
  let level ← zslShrink heap zsl.header zsl.level
  .ok { zsl with heap := heap, level := level, length := zsl.length - 1 }

/-- `zslDelete`: the node it takes out and frees is the first one with the score of `zn`. -/
def zslDelete (zsl : Zskiplist H) (zn : Addr) : Except Fault (Zskiplist H) := do
  let n ← zsl.heap.node zn
  let found ← zslSearch zsl.heap n.score zsl.steps zsl.level zsl.header
  match ← zsl.heap.forward found.2 0 with
  | none => .ok zsl
  | some x =>
    let m ← zsl.heap.node x
    if n.score = m.score then do
      let zsl ← zslDeleteNode zsl x found.1
      .ok { zsl with heap := Function.update zsl.heap x none }
    else .ok zsl

end CServer.Timers
