import CServer.Foundation.Completion
import CServer.Memory.MmPool
import Mathlib.Logic.Function.Basic

/-!
# The memory pool with its pointers

mmpool.c again, with the nodes of the blocks in memory and their `next` pointers. A loop over the
blocks follows these pointers, and `mp_alloc` and `mp_alloc_large` call each other, so all of them
have a number of turns. Fresh memory has any content. What the allocators give in a call, zero for
NULL, comes with the call.
-/
namespace CServer.MmPool.Pointers

/-- An address without a node is read, a piece that leaves its block is written, or the turns do not
suffice. -/
inductive Fault where
  | read
  | write
  | turns
  deriving DecidableEq

/-- `mp_node_s`. -/
structure Node where
  last : ℕ
  limit : ℕ
  next : ℕ
  failed : ℕ

/-- `mp_pool_s`, with the nodes in memory. The addresses of those that the pool has obtained are
listed in `blocks`. -/
structure Pool where
  max : ℕ
  head : ℕ
  current : ℕ
  large : List Large
  nodes : ℕ → Option Node
  blocks : List ℕ

/-- What `posix_memalign` gives for a block: its address, and what stands where the node will be. -/
structure Memory where
  address : ℕ
  content : Node

/-- A pointer that `mp_alloc` returns, and whether the bytes behind it are those of its block. -/
structure Piece where
  pointer : ℕ
  inside : Bool

def Pool.read (pool : Pool) (p : ℕ) : Except Fault Node :=
  match pool.nodes p with
  | some node => .ok node
  | none => .error .read

def Pool.write (pool : Pool) (p : ℕ) (node : Node) : Pool :=
  { pool with nodes := Function.update pool.nodes p (some node) }

/-- `mp_create_pool`. The size of its block is computed in 64 bits; `next` is not set. -/
def mpCreatePool (size : ℕ) (memory : Option Memory) : Except Fault (Option Pool) :=
  match memory with
  | none => return none
  | some m =>
    if (size + sizeofPool + sizeofNode) % 2 ^ 64 < sizeofPool + sizeofNode then .error .write
    else
      let head := m.address + sizeofPool
      let node := { m.content with
        last := head + sizeofNode
        limit := head + sizeofNode + size
        failed := 0 }
      return some {
        max := if size < MP_MAX_ALLOC_FROM_POOL then size else MP_MAX_ALLOC_FROM_POOL
        head := head
        current := head
        large := []
        nodes := Function.update (fun _ => none) head (some node)
        blocks := [head] }

/-- `for (h = pool->head; h; h = h->next)`, with the nodes it comes to. -/
def traverse (pool : Pool) : ℕ → ℕ → Except Fault (List ℕ)
  | 0, _ => .error .turns
  | turns + 1, h =>
    if h = 0 then return []
    else do
      let node ← pool.read h
      let rest ← traverse pool turns node.next
      return h :: rest

/-- The loop of `mp_alloc` and `mp_nalloc`. -/
def search (align : ℕ → ℕ) (size : ℕ) : ℕ → Pool → ℕ → Except Fault (Pool × Option Piece)
  | 0, _, _ => .error .turns
  | turns + 1, pool, p => do
    let node ← pool.read p
    let m := align node.last
    if size ≤ difference node.limit m then
      return (pool.write p { node with last := m + size }, some ⟨m, m + size ≤ node.limit⟩)
    else if node.next = 0 then return (pool, none)
    else search align size turns pool node.next

/-- The loop of `mp_alloc_block`: the last node, and what is current behind it. -/
def countFailed : ℕ → Pool → ℕ → ℕ → Except Fault (Pool × ℕ × ℕ)
  | 0, _, _, _ => .error .turns
  | turns + 1, pool, p, current => do
    let node ← pool.read p
    if node.next = 0 then return (pool, p, current)
    else
      let pool := pool.write p { node with failed := (node.failed + 1) % 2 ^ 64 }
      countFailed turns pool node.next (if 4 < node.failed then node.next else current)

/-- `mp_alloc_block`. -/
def mpAllocBlock (turns : ℕ) (pool : Pool) (size : ℕ) (memory : Option Memory) :
    Except Fault (Pool × Option Piece) := do
  let h ← pool.read pool.head
  let psize := difference h.limit pool.head
  match memory with
  | none => return (pool, none)
  | some memory =>
    let m := memory.address
    let p := mpAlignPtr (m + sizeofNode)
    let newNode := { memory.content with
      limit := m + psize
      next := 0
      failed := 0
      last := p + size }
    let pool := { pool.write m newNode with blocks := pool.blocks ++ [m] }
    let (pool, last, current) ← countFailed turns pool pool.current pool.current
    let node ← pool.read last
    let pool := pool.write last { node with next := m }
    return ({ pool with current := if current ≠ 0 then current else m },
      some ⟨p, p + size ≤ m + psize⟩)

/-- The search is over: without a piece a new block is needed. -/
def orBlock (turns size : ℕ) (memory : Option Memory) :
    Pool × Option Piece → Except Fault (Pool × Option Piece)
  | (pool, some piece) => return (pool, some piece)
  | (pool, none) => mpAllocBlock turns pool size memory

/-- The part of `mp_alloc` and `mp_nalloc` for pieces of at most `max` bytes. -/
def allocSmall (align : ℕ → ℕ) (turns : ℕ) (pool : Pool) (size : ℕ) (memory : Option Memory) :
    Except Fault (Pool × Option Piece) := do
  let out ← search align size turns pool pool.current
  orBlock turns size memory out

/-- The end of `mp_alloc_large` and `mp_memalign`: the node is written and put into the list. -/
def attach (p : ℕ) : Pool × Option Piece → Except Fault (Pool × Option Piece)
  | (pool, none) => return (pool, none)
  | (pool, some node) =>
    if node.inside then
      return ({ pool with large := ⟨node.pointer, p⟩ :: pool.large }, some ⟨p, true⟩)
    else .error .write

mutual

/-- `mp_alloc`, after the first `calls` calls of `malloc`. -/
def mpAlloc (malloc : ℕ → ℕ) (memory : Option Memory) :
    ℕ → Pool → ℕ → ℕ → Except Fault (Pool × Option Piece)
  | 0, _, _, _ => .error .turns
  | turns + 1, pool, size, calls =>
    if size ≤ pool.max then allocSmall mpAlignPtr turns pool size memory
    else mpAllocLarge malloc memory turns pool calls

/-- `mp_alloc_large`. -/
def mpAllocLarge (malloc : ℕ → ℕ) (memory : Option Memory) :
    ℕ → Pool → ℕ → Except Fault (Pool × Option Piece)
  | 0, _, _ => .error .turns
  | turns + 1, pool, calls =>
    let p := malloc calls
    if p = 0 then return (pool, none)
    else match reuse p 0 pool.large with
    | some large => return ({ pool with large := large }, some ⟨p, true⟩)
    | none => do
      let out ← mpAlloc malloc memory turns pool sizeofLarge (calls + 1)
      attach p out

end

def mpNalloc (malloc : ℕ → ℕ) (memory : Option Memory) (turns : ℕ) (pool : Pool) (size : ℕ) :
    Except Fault (Pool × Option Piece) :=
  if size ≤ pool.max then allocSmall id turns pool size memory
  else mpAllocLarge malloc memory turns pool 0

/-- `mp_calloc`, which writes the piece. -/
def mpCalloc (malloc : ℕ → ℕ) (memory : Option Memory) (turns : ℕ) (pool : Pool) (size : ℕ) :
    Except Fault (Pool × Option Piece) := do
  let out ← mpAlloc malloc memory turns pool size 0
  match out.2 with
  | none => return out
  | some piece => if size = 0 ∨ piece.inside then return out else .error .write

/-- `mp_memalign`; its own allocation is at `p`. -/
def mpMemalign (p : ℕ) (malloc : ℕ → ℕ) (memory : Option Memory) (turns : ℕ) (pool : Pool) :
    Except Fault (Pool × Option Piece) :=
  if p = 0 then return (pool, none)
  else do
    let out ← mpAlloc malloc memory turns pool sizeofLarge 0
    attach p out

/-- The loop of `mp_reset_pool` over the blocks. -/
def resetBlocks : ℕ → Pool → ℕ → Except Fault Pool
  | 0, _, _ => .error .turns
  | turns + 1, pool, h =>
    if h = 0 then return pool
    else do
      let node ← pool.read h
      resetBlocks turns (pool.write h { node with last := h + sizeofNode }) node.next

/-- `mp_reset_pool`. -/
def mpResetPool (turns : ℕ) (pool : Pool) : Except Fault Pool :=
  resetBlocks turns { pool with large := [] } pool.head

/-- A call, with what the allocators give in it. -/
inductive Call where
  | alloc (source : Function) (size : ℕ) (malloc : ℕ → ℕ) (memory : Option Memory)
  | memalign (p : ℕ) (malloc : ℕ → ℕ) (memory : Option Memory)
  | free (p : ℕ)
  | reset

def perform (turns : ℕ) (pool : Pool) : Call → Except Fault Pool
  | .alloc .mpAlloc size malloc memory => do
    let out ← mpAlloc malloc memory turns pool size 0
    return out.1
  | .alloc .mpNalloc size malloc memory => do
    let out ← mpNalloc malloc memory turns pool size
    return out.1
  | .alloc .mpCalloc size malloc memory => do
    let out ← mpCalloc malloc memory turns pool size
    return out.1
  | .memalign p malloc memory => do
    let out ← mpMemalign p malloc memory turns pool
    return out.1
  | .free p => return { pool with large := (mpFree p pool.large).getD pool.large }
  | .reset => mpResetPool turns pool

/-! ## What is promised and what is meant -/

/-- `posix_memalign` gives an aligned address that is not in use. -/
def Memory.Fresh (pool : Pool) (memory : Option Memory) : Prop :=
  ∀ m, memory = some m → m.address ≠ 0 ∧ MP_ALIGNMENT ∣ m.address ∧ m.address ∉ pool.blocks

def Call.Enabled (pool : Pool) : Call → Prop
  | .alloc _ _ _ memory => Memory.Fresh pool memory
  | .memalign _ _ memory => Memory.Fresh pool memory
  | .free _ => True
  | .reset => True

/-- The traversal of the blocks ends, after the blocks that the pool has obtained. -/
def Traversed (pool : Pool) : Prop :=
  Returns (fun turns => traverse pool turns pool.head) pool.blocks

/-- The nodes from the current one on, in which a piece is searched. -/
def Pool.tried (pool : Pool) : List ℕ := pool.blocks.dropWhile (· ≠ pool.current)

/-- The first of these nodes that takes a piece. -/
def Pool.taker (pool : Pool) (align : ℕ → ℕ) (size : ℕ) (tried : List ℕ) : Option (ℕ × Node) :=
  tried.findSome? fun p => match pool.nodes p with
    | some node => if size ≤ difference node.limit (align node.last) then some (p, node) else none
    | none => none

/-- The node that takes a piece, if there is one, has the bytes for it. -/
def Pool.Inside (pool : Pool) (align : ℕ → ℕ) (size : ℕ) : Prop :=
  ∀ p node, pool.taker align size pool.tried = some (p, node) → align node.last + size ≤ node.limit

/-- `mp_alloc` ends when it is called for a node of the list of large allocations: such a node is
not larger than `max` and finds its bytes, or a call of `malloc` fails. -/
def Pool.Attachable (pool : Pool) (malloc : ℕ → ℕ) (calls : ℕ) : Prop :=
  if sizeofLarge ≤ pool.max then pool.Inside mpAlignPtr sizeofLarge
  else ∃ i, malloc (calls + i) = 0

def Call.Allowed (pool : Pool) : Call → Prop
  | .alloc f size malloc _ =>
    if size ≤ pool.max then f = .mpCalloc → size = 0 ∨ pool.Inside mpAlignPtr size
    else malloc 0 ≠ 0 → reuse (malloc 0) 0 pool.large = none → pool.Attachable malloc 1
  | .memalign p malloc _ => p ≠ 0 → pool.Attachable malloc 0
  | .free _ => True
  | .reset => True

end CServer.MmPool.Pointers
