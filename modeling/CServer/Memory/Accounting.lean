import CServer.Foundation.Ledger
import CServer.Foundation.Runs
import CServer.Memory.MmPool

/-!
# What the memory pool obtains and releases

The functions of mmpool.c with the results of `malloc` and `posix_memalign`, which may fail, and a ledger
of the blocks obtained. An address zero is a failure. A call of `malloc` in `mp_alloc_large` may lead to
further ones, when not even a node of the list fits the pool, so a call has a list of results; behind it
`malloc` fails.
-/
namespace CServer.MmPool

structure Account where
  pool : Pool
  ledger : Ledger ℕ
  reset : Bool

/-- The addresses of the blocks, that of the pool first. -/
def Pool.starts (pool : Pool) : List ℕ := pool.blocks.map Node.start

/-- The allocations in a list of nodes. -/
def allocations (large : List Large) : List ℕ := (large.map Large.alloc).filter (· ≠ 0)

/-! ## The functions -/

/-- `mp_create_pool`, in the block at `p`. -/
def createAccount (size p : ℕ) : Account := ⟨mpCreatePool size p, ⟨[p], false⟩, false⟩

/-- The part of `mp_alloc` and `mp_nalloc` for pieces of at most `max` bytes; `posix_memalign` gives `m`
for a new block. -/
def Account.small (align : ℕ → ℕ) (s : Account) (size m : ℕ) : Account × Option ℕ :=
  if findRoom align size (s.pool.blocks.drop s.pool.current) = none then
    if m = 0 then (s, none)
    else
      let out := mpAllocBlock s.pool m size
      ({ s with pool := out.1, ledger := s.ledger.acquire m }, some out.2)
  else
    let out := allocSmall align s.pool size m
    ({ s with pool := out.1 }, some out.2)

/-- The end of `mp_alloc_large` and `mp_memalign`: the node takes the allocation, and without a node the
allocation is released. -/
def attach (p : ℕ) (out : Account × Option ℕ) : Account × Option ℕ :=
  match out.2 with
  | none => ({ out.1 with ledger := out.1.ledger.release p }, none)
  | some node => ({ out.1 with pool := { out.1.pool with large := ⟨node, p⟩ :: out.1.pool.large } }, some p)

def Account.acquire (s : Account) (p : ℕ) : Account := { s with ledger := s.ledger.acquire p }

/-- `mp_alloc_large`. It takes the node from `mp_alloc`, which for a small pool comes back here. -/
def Account.allocLarge (m : ℕ) : List ℕ → Account → Account × Option ℕ
  | [], s => (s, none)
  | p :: mallocs, s =>
    if p = 0 then (s, none)
    else match reuse p 0 s.pool.large with
    | some large => ({ s.acquire p with pool := { s.pool with large := large } }, some p)
    | none =>
      attach p (if sizeofLarge ≤ s.pool.max then (s.acquire p).small mpAlignPtr sizeofLarge m
        else allocLarge m mallocs (s.acquire p))

/-- `mp_alloc`, `mp_nalloc` and `mp_calloc`. -/
def Account.alloc (align : ℕ → ℕ) (s : Account) (size m : ℕ) (mallocs : List ℕ) : Account × Option ℕ :=
  if size ≤ s.pool.max then s.small align size m else s.allocLarge m mallocs

/-- `mp_memalign`; `posix_memalign` gives `p`. -/
def Account.memalign (s : Account) (p m : ℕ) (mallocs : List ℕ) : Account :=
  if p = 0 then s
  else (attach p ((s.acquire p).alloc mpAlignPtr sizeofLarge m mallocs)).1

/-- `mp_free`. -/
def Account.free (s : Account) (p : ℕ) : Account :=
  match mpFree p s.pool.large with
  | none => s
  | some large =>
    { s with
      pool := { s.pool with large := large }
      ledger := if p = 0 then s.ledger else s.ledger.release p }

/-- `mp_reset_pool`. -/
def Account.resetPool (s : Account) : Account where
  pool := { s.pool with
    blocks := s.pool.blocks.map fun node => { node with last := node.address + sizeofNode }
    large := [] }
  ledger := s.ledger.releaseAll (allocations s.pool.large)
  reset := true

/-- `mp_destory_pool`. The block with the pool is released last. -/
def Account.destroyPool (s : Account) : Ledger ℕ :=
  (s.ledger.releaseAll (allocations s.pool.large)).releaseAll (s.pool.starts.tail ++ s.pool.starts.take 1)

/-! ## Runs -/

/-- A call, with the results of the allocators. -/
inductive Call where
  | alloc (source : Function) (size m : ℕ) (mallocs : List ℕ)
  | memalign (p m : ℕ) (mallocs : List ℕ)
  | free (p : ℕ)
  | reset

def Account.step (s : Account) : Call → Account
  | .alloc f size m mallocs => { (s.alloc f.align size m mallocs).1 with reset := false }
  | .memalign p m mallocs => { s.memalign p m mallocs with reset := false }
  | .free p => { s.free p with reset := false }
  | .reset => s.resetPool

/-- `posix_memalign` gives aligned blocks. -/
def Call.Aligned : Call → Prop
  | .alloc _ _ m _ => MP_ALIGNMENT ∣ m
  | .memalign _ m _ => MP_ALIGNMENT ∣ m
  | .free _ => True
  | .reset => True

/-- The later calls look at each block, and find its usable area empty. -/
def Pool.Offered (pool : Pool) : Prop :=
  ∀ i, ∀ node, pool.blocks[i]? = some node → pool.current ≤ i ∧ node.last = node.address + sizeofNode

/-- If the pool is destroyed now then each block obtained was released once; no block is filled beyond its
end; and after a reset all of them are offered again. -/
structure Accounted (s : Account) : Prop where
  released : s.destroyPool = ⟨[], false⟩
  filled : ∀ node ∈ s.pool.blocks, node.last ≤ node.limit
  offered : s.reset = true → s.pool.Offered

/-- The search for a piece does not overshoot a block. -/
def Pool.Fits (pool : Pool) (align : ℕ → ℕ) (size : ℕ) : Prop :=
  size ≤ pool.max → NoOvershoot align size (pool.blocks.drop pool.current)

/-- A node for a large allocation is taken from a block without an overshoot. -/
def NodeFits (s : Account) (p : ℕ) : Prop := p ≠ 0 → s.pool.Fits mpAlignPtr sizeofLarge

/-- No search overshoots, and a reset comes before the first block is passed over. -/
def Kept (s : Account) : Call → Prop
  | .alloc f size _ mallocs =>
    if size ≤ s.pool.max then s.pool.Fits f.align size
    else ∀ p, mallocs.head? = some p → reuse p 0 s.pool.large = none → NodeFits s p
  | .memalign p _ _ => NodeFits s p
  | .free _ => True
  | .reset => s.pool.current = 0

end CServer.MmPool
