import CServer.Foundation.Arena
import Mathlib.Algebra.Ring.Nat
import Mathlib.Data.Nat.Basic

/-!
# The memory pool

mmpool.c: blocks that are filled from the front, and a list of large allocations whose nodes are
pieces of the blocks. Addresses are numbers, NULL is zero. The addresses that `malloc` and
`posix_memalign` give are inputs of the calls, and fresh blocks are zero-filled. What the calls release
is the matter of the accounting, with `mp_memalign`, `mp_reset_pool` and `mp_destory_pool`.
-/
namespace CServer.MmPool

open CServer.Arena

def MP_ALIGNMENT : ℕ := 32

def MP_MAX_ALLOC_FROM_POOL : ℕ := 4095

/-- The sizes of `mp_large_s`, `mp_node_s` and `mp_pool_s`. -/
def sizeofLarge : ℕ := 16
def sizeofNode : ℕ := 32
def sizeofPool : ℕ := 24

/-- `mp_align_ptr`. -/
def mpAlignPtr (p : ℕ) : ℕ := (p + (MP_ALIGNMENT - 1)) / MP_ALIGNMENT * MP_ALIGNMENT

/-- The difference of two pointers as a `size_t`. -/
def difference (p q : ℕ) : ℕ := if q ≤ p then p - q else 2 ^ 64 + p - q

/-- `mp_node_s`, with its address and that of the block in which it stands. -/
structure Node where
  start : ℕ
  address : ℕ
  last : ℕ
  limit : ℕ
  failed : ℕ

/-- `mp_large_s`, with its address. -/
structure Large where
  address : ℕ
  alloc : ℕ

/-- `mp_pool_s`. The nodes are in the order of their `next` pointers, the first one is `head`, and
`current` is the place of the node to which the pointer of this name points. -/
structure Pool where
  max : ℕ
  blocks : List Node
  current : ℕ
  large : List Large

/-- `mp_create_pool`, in the block at `p`. -/
def mpCreatePool (size p : ℕ) : Pool where
  max := if size < MP_MAX_ALLOC_FROM_POOL then size else MP_MAX_ALLOC_FROM_POOL
  blocks := [{
    start := p
    address := p + sizeofPool
    last := p + sizeofPool + sizeofNode
    limit := p + sizeofPool + sizeofNode + size
    failed := 0 }]
  current := 0
  large := []

/-- `psize`: all blocks behind the first one are as large as that one without the pool. -/
def Pool.psize (pool : Pool) : ℕ :=
  match pool.blocks with
  | [] => 0
  | h :: _ => difference h.limit h.address

/-- The loop at the end of `mp_alloc_block`, from the node at the place `i` on. -/
def countFailures : ℕ → List Node → ℕ → List Node × ℕ
  | _, [], current => ([], current)
  | _, [p], current => ([p], current)
  | i, p :: q :: rest, current =>
    let next := countFailures (i + 1) (q :: rest) (if 4 < p.failed then i + 1 else current)
    ({ p with failed := (p.failed + 1) % 2 ^ 64 } :: next.1, next.2)

/-- `mp_alloc_block`, with a new block at `m`. -/
def mpAllocBlock (pool : Pool) (m size : ℕ) : Pool × ℕ :=
  let p := mpAlignPtr (m + sizeofNode)
  let node : Node := ⟨m, m, p + size, m + pool.psize, 0⟩
  let counted := countFailures pool.current (pool.blocks.drop pool.current) pool.current
  ({ pool with
      blocks := pool.blocks.take pool.current ++ counted.1 ++ [node]
      current := counted.2 }, p)

/-- The loop of `mp_alloc` and `mp_nalloc`: the first node that takes the piece, and the piece. -/
def findRoom (align : ℕ → ℕ) (size : ℕ) : List Node → Option (List Node × ℕ)
  | [] => none
  | p :: rest =>
    let m := align p.last
    if size ≤ difference p.limit m then some ({ p with last := m + size } :: rest, m)
    else (findRoom align size rest).map fun found => (p :: found.1, found.2)

/-- The part of `mp_alloc` and `mp_nalloc` for pieces of at most `max` bytes; a new block, if it is
needed, is at `m`. -/
def allocSmall (align : ℕ → ℕ) (pool : Pool) (size m : ℕ) : Pool × ℕ :=
  match findRoom align size (pool.blocks.drop pool.current) with
  | some (rest, p) => ({ pool with blocks := pool.blocks.take pool.current ++ rest }, p)
  | none => mpAllocBlock pool m size

/-- The loop of `mp_alloc_large`: one of the first nodes without an allocation takes it. -/
def reuse (p : ℕ) : ℕ → List Large → Option (List Large)
  | _, [] => none
  | n, l :: rest =>
    if l.alloc = 0 then some ({ l with alloc := p } :: rest)
    else if 3 < n then none
    else (reuse p (n + 1) rest).map (l :: ·)

/-- `mp_alloc_large`, with the allocation at `p`. The node is smaller than `max`, so that `mp_alloc`
takes it from a block. -/
def mpAllocLarge (pool : Pool) (p m : ℕ) : Pool :=
  match reuse p 0 pool.large with
  | some large => { pool with large := large }
  | none =>
    let out := allocSmall mpAlignPtr pool sizeofLarge m
    { out.1 with large := ⟨out.2, p⟩ :: out.1.large }

/-- `mp_alloc` and `mp_nalloc`, which differ in the alignment of small pieces. -/
def allocWith (align : ℕ → ℕ) (pool : Pool) (size p m : ℕ) : Pool × ℕ :=
  if size ≤ pool.max then allocSmall align pool size m
  else (mpAllocLarge pool p m, p)

def mpAlloc (pool : Pool) (size p m : ℕ) : Pool × ℕ := allocWith mpAlignPtr pool size p m

def mpNalloc (pool : Pool) (size p m : ℕ) : Pool × ℕ := allocWith id pool size p m

def mpCalloc (pool : Pool) (size p m : ℕ) : Pool × ℕ := mpAlloc pool size p m

/-- The loop of `mp_free`: the first node with this allocation loses it. -/
def mpFree (p : ℕ) : List Large → Option (List Large)
  | [] => none
  | l :: rest =>
    if p = l.alloc then some ({ l with alloc := 0 } :: rest)
    else (mpFree p rest).map (l :: ·)

/-! ## Runs -/

inductive Function where
  | mpAlloc
  | mpNalloc
  | mpCalloc
  deriving DecidableEq

/-- A pointer that was returned. -/
structure Given where
  pointer : ℕ
  size : ℕ
  source : Function

def Given.range (g : Given) : Range := ⟨g.pointer, g.size⟩

/-- The pool, the pointers into blocks and the pointers to large allocations that were returned and
not freed. -/
structure System where
  pool : Pool
  small : List Given
  big : List Given

/-- A call, with the addresses that `malloc` and `posix_memalign` give in it. -/
inductive Action where
  | alloc (source : Function) (size p m : ℕ)
  | free (p : ℕ)

/-- The alignment that a function asks for. -/
def Function.align : Function → ℕ → ℕ
  | .mpAlloc => mpAlignPtr
  | .mpNalloc => id
  | .mpCalloc => mpAlignPtr

def Function.run : Function → Pool → ℕ → ℕ → ℕ → Pool × ℕ
  | .mpAlloc => MmPool.mpAlloc
  | .mpNalloc => MmPool.mpNalloc
  | .mpCalloc => MmPool.mpCalloc

theorem Function.run_eq (f : Function) : f.run = allocWith f.align := by
  cases f <;> rfl

def perform (s : System) : Action → System
  | .alloc f size p m =>
    let out := f.run s.pool size p m
    if size ≤ s.pool.max then { s with pool := out.1, small := ⟨out.2, size, f⟩ :: s.small }
    else { s with pool := out.1, big := ⟨out.2, size, f⟩ :: s.big }
  | .free p => match mpFree p s.pool.large with
    | some large => { s with
        pool := { s.pool with large := large }
        big := s.big.filter fun g => g.pointer ≠ p }
    | none => s

def Node.area (node : Node) : Area := ⟨node.start, node.address + sizeofNode, node.last, node.limit⟩

/-- The bytes of a block before its usable part: its node, and the pool in the first block. -/
def Node.header (node : Node) : Range := ⟨node.start, node.address + sizeofNode - node.start⟩

def Large.range (l : Large) : Range := ⟨l.address, sizeofLarge⟩

def Pool.areas (pool : Pool) : List Area := pool.blocks.map Node.area

/-- The memory that the pool holds. -/
def System.held (s : System) : List Range :=
  s.pool.areas.map Area.region ++ s.big.map Given.range

/-- A range that an allocator can give: it meets no range that is held. -/
def Fresh (held : List Range) (r : Range) : Prop :=
  0 < r.start ∧ r.start + r.size < 2 ^ 64 ∧ ∀ q ∈ held, r.Apart q

/-- A new block at `m`. -/
def FreshBlock (pool : Pool) (held : List Range) (m : ℕ) : Prop :=
  MP_ALIGNMENT ∣ m ∧ Fresh held ⟨m, pool.psize⟩

/-- What the allocators promise for the addresses that are used. -/
def Action.Enabled (s : System) : Action → Prop
  | .alloc f size p m => 1 ≤ size ∧
      if size ≤ s.pool.max then
        findRoom f.align size (s.pool.blocks.drop s.pool.current) = none →
          FreshBlock s.pool s.held m
      else Fresh s.held ⟨p, size⟩ ∧
        (reuse p 0 s.pool.large = none →
          findRoom mpAlignPtr sizeofLarge (s.pool.blocks.drop s.pool.current) = none →
          FreshBlock s.pool (⟨p, size⟩ :: s.held) m)
  | .free _ => True

/-- Where `mp_create_pool` puts a pool: its block is aligned and fits the addresses, and `max` is at
least the size of a node of the list of large allocations. -/
structure Placed (size p : ℕ) : Prop where
  large : sizeofLarge ≤ size
  aligned : MP_ALIGNMENT ∣ p
  bound : p + sizeofPool + sizeofNode + size < 2 ^ 64

def create (size p : ℕ) : System := ⟨mpCreatePool size p, [], []⟩

/-- The states that are reached by calls that are allowed. -/
inductive Reached (Allowed : System → Action → Prop) : System → Prop
  | create {size p : ℕ} (placed : Placed size p) : Reached Allowed (create size p)
  | step {s : System} {a : Action} (before : Reached Allowed s) (enabled : a.Enabled s)
      (allowed : Allowed s a) : Reached Allowed (perform s a)

/-- The pointers returned lie in the usable part of a block, or are allocations of their own; those
of `mp_alloc` are aligned; and they meet neither each other nor a header nor a node of the list of
large allocations. -/
structure Sound (s : System) : Prop where
  inside : ∀ g ∈ s.small, ∃ node ∈ s.pool.blocks,
    node.address + sizeofNode ≤ g.pointer ∧ g.pointer + g.size ≤ node.limit
  aligned : ∀ g ∈ s.small ++ s.big, g.source = .mpAlloc → MP_ALIGNMENT ∣ g.pointer
  apart : ((s.small ++ s.big).map Given.range ++
    s.pool.blocks.map Node.header ++
    s.pool.large.map Large.range).Pairwise Range.Apart

/-- No block that is tried for a piece has its next aligned address behind its end. -/
def NoOvershoot (align : ℕ → ℕ) (size : ℕ) : List Node → Prop
  | [] => True
  | p :: rest => align p.last ≤ p.limit ∧
      (p.limit - align p.last < size → NoOvershoot align size rest)

/-- A call of `mp_alloc` or `mp_calloc` for a small piece, or one that needs a node for a large
allocation, does not overshoot; `malloc` aligns the large allocations of `mp_alloc`. -/
def Regular (s : System) : Action → Prop
  | .alloc f size p _ =>
    if size ≤ s.pool.max then
      f = .mpNalloc ∨ NoOvershoot mpAlignPtr size (s.pool.blocks.drop s.pool.current)
    else (f = .mpAlloc → MP_ALIGNMENT ∣ p) ∧
      (reuse p 0 s.pool.large = none →
        NoOvershoot mpAlignPtr sizeofLarge (s.pool.blocks.drop s.pool.current))
  | .free _ => True

/-! ## Alignment -/

theorem le_mpAlignPtr (p : ℕ) : p ≤ mpAlignPtr p := by
  unfold mpAlignPtr MP_ALIGNMENT
  omega

theorem dvd_mpAlignPtr (p : ℕ) : MP_ALIGNMENT ∣ mpAlignPtr p := Nat.dvd_mul_left MP_ALIGNMENT _

theorem mpAlignPtr_of_dvd {p : ℕ} (h : MP_ALIGNMENT ∣ p) : mpAlignPtr p = p := by
  unfold mpAlignPtr MP_ALIGNMENT at *
  omega

theorem Function.le_align (f : Function) (p : ℕ) : p ≤ f.align p := by
  cases f with
  | mpAlloc => exact le_mpAlignPtr p
  | mpNalloc => exact le_rfl
  | mpCalloc => exact le_mpAlignPtr p

/-! ## The blocks -/

variable {align : ℕ → ℕ} {size m p c : ℕ} {pool : Pool} {blocks : List Node}
  {own pieces : List Range} {s : System}

/-- The count of failures does not change the blocks. -/
theorem countFailures_area (i current : ℕ) :
    (countFailures i blocks current).1.map Node.area = blocks.map Node.area := by
  induction blocks generalizing i current with
  | nil => rfl
  | cons p rest ih =>
    cases rest with
    | nil => rfl
    | cons q rest =>
      simp only [countFailures, List.map_cons]
      rw [ih, List.map_cons]
      rfl

/-- The block that takes a piece, when none overshoots. -/
theorem findRoom_some {rest : List Node} (h : findRoom align size blocks = some (rest, p))
    (hregular : NoOvershoot align size blocks) :
    ∃ before node after, blocks = before ++ node :: after ∧
      rest = before ++ { node with last := p + size } :: after ∧ p = align node.last ∧
      p + size ≤ node.limit := by
  induction blocks generalizing rest with
  | nil => exact absurd h (by simp [findRoom])
  | cons node nodes ih =>
    obtain ⟨hle, hnext⟩ := hregular
    have hdifference : difference node.limit (align node.last) = node.limit - align node.last :=
      if_pos hle
    simp only [findRoom, hdifference] at h
    split at h
    · rename_i hroom
      obtain ⟨rfl, rfl⟩ := Prod.mk.inj (Option.some.inj h)
      exact ⟨[], node, nodes, rfl, rfl, rfl, by omega⟩
    · rename_i hroom
      obtain ⟨⟨found, q⟩, hfound, hmap⟩ := Option.map_eq_some_iff.mp h
      obtain ⟨rfl, rfl⟩ := Prod.mk.inj hmap
      obtain ⟨before, inner, after, hblocks, hrest, hpiece⟩ := ih hfound (hnext (by omega))
      refine ⟨node :: before, inner, after, ?_, ?_, hpiece⟩
      · rw [hblocks, List.cons_append]
      · rw [List.cons_append, ← hrest]

/-- A new block is full up to the piece, the others are as before. -/
theorem allocBlock_areas (pool : Pool) (haligned : MP_ALIGNMENT ∣ m) (size : ℕ) :
    (mpAllocBlock pool m size).1.areas =
      pool.areas ++ [⟨m, m + sizeofNode, m + sizeofNode + size, m + pool.psize⟩] := by
  have hpointer : mpAlignPtr (m + sizeofNode) = m + sizeofNode := by
    apply mpAlignPtr_of_dvd
    unfold MP_ALIGNMENT sizeofNode at *
    omega
  unfold Pool.areas mpAllocBlock
  simp only [List.map_append, countFailures_area, List.map_cons, List.map_nil, hpointer]
  rw [← List.map_append, List.take_append_drop]
  rfl

/-- The areas after a piece was found: one of those in the search is filled up to its end. -/
theorem findRoom_areas {rest : List Node} {p : ℕ}
    (h : findRoom align size (pool.blocks.drop pool.current) = some (rest, p))
    (hregular : NoOvershoot align size (pool.blocks.drop pool.current)) :
    ∃ before node after, pool.areas = before ++ Node.area node :: after ∧
      (pool.blocks.take pool.current ++ rest).map Node.area =
        before ++ { node.area with last := p + size } :: after ∧
      p = align node.last ∧ p + size ≤ node.limit := by
  obtain ⟨before, node, after, hdrop, hrest, hp, hlimit⟩ := findRoom_some h hregular
  have hblocks : pool.blocks = (pool.blocks.take pool.current ++ before) ++ node :: after := by
    rw [List.append_assoc, ← hdrop, List.take_append_drop]
  refine ⟨(pool.blocks.take pool.current ++ before).map Node.area, node, after.map Node.area, ?_, ?_, hp,
    hlimit⟩
  · rw [Pool.areas]
    conv_lhs => rw [hblocks]
    rw [List.map_append, List.map_cons]
  · rw [hrest, ← List.append_assoc, List.map_append, List.map_cons]
    rfl

/-- The state of the pool: its blocks are filled from the front and have room for `c` bytes each,
which is enough for the pieces that are taken from them. -/
structure Pool.Good (pool : Pool) (c : ℕ) (own pieces : List Range) : Prop where
  filled : Filled pool.areas own pieces
  room : pool.max ≤ c
  some : pool.blocks ≠ []
  capacity : ∀ a ∈ pool.areas, a.limit = a.first + c
  large : sizeofLarge ≤ pool.max

theorem Pool.Good.psize (h : pool.Good c own pieces) : pool.psize = sizeofNode + c := by
  have hsome := h.some
  have hcapacity := h.capacity
  unfold Pool.psize Pool.areas at *
  cases hblocks : pool.blocks with
  | nil => exact absurd hblocks hsome
  | cons node rest =>
    rw [hblocks] at hcapacity
    have hnode : node.limit = node.address + sizeofNode + c := hcapacity node.area (by simp)
    simp only [difference]
    rw [if_pos (by omega)]
    omega

/-- A new block takes a piece that fits. -/
theorem Pool.Good.block (h : pool.Good c own pieces) (hsize : size ≤ pool.max)
    (hm : FreshBlock pool (pool.areas.map Area.region ++ own) m) :
    (mpAllocBlock pool m size).1.Good c own (⟨(mpAllocBlock pool m size).2, size⟩ :: pieces) ∧
      MP_ALIGNMENT ∣ (mpAllocBlock pool m size).2 ∧
      (mpAllocBlock pool m size).1.max = pool.max ∧
      (mpAllocBlock pool m size).1.large = pool.large := by
  obtain ⟨haligned, -, -, hapart⟩ := hm
  have hpsize := h.psize
  have hroom := h.room
  have hpointer : (mpAllocBlock pool m size).2 = m + sizeofNode := by
    apply mpAlignPtr_of_dvd
    unfold MP_ALIGNMENT sizeofNode at *
    omega
  have hareas := allocBlock_areas pool haligned size
  have hempty : Filled (pool.areas ++ [⟨m, m + sizeofNode, m + sizeofNode, m + pool.psize⟩])
      own pieces := by
    apply h.filled.extend
    · exact ⟨Nat.le_add_right _ _, le_rfl, by simp only; omega⟩
    · intro q hq
      have hq' := hapart q hq
      unfold Range.Apart Area.region at *
      simp only at *
      omega
  refine ⟨⟨?_, h.room, ?_, ?_, h.large⟩, dvd_mpAlignPtr _, rfl, rfl⟩
  · rw [hareas, hpointer]
    exact hempty.carve (p := ⟨m + sizeofNode, size⟩) le_rfl (by simp only; omega)
  · unfold mpAllocBlock
    simp
  · intro a ha
    rw [hareas, List.mem_append, List.mem_singleton] at ha
    obtain hold | rfl := ha
    · exact h.capacity a hold
    · simp only
      omega

/-- A piece of at most `max` bytes is carved out of a block, which is a new one if none has room. -/
theorem Pool.Good.small (h : pool.Good c own pieces) (hsize : size ≤ pool.max)
    (halign : ∀ p, p ≤ align p)
    (hregular : NoOvershoot align size (pool.blocks.drop pool.current))
    (hm : findRoom align size (pool.blocks.drop pool.current) = none →
      FreshBlock pool (pool.areas.map Area.region ++ own) m) :
    (allocSmall align pool size m).1.Good c own (⟨(allocSmall align pool size m).2, size⟩ :: pieces) ∧
      (MP_ALIGNMENT ∣ (allocSmall align pool size m).2 ∨
        ∃ p, (allocSmall align pool size m).2 = align p) ∧
      (allocSmall align pool size m).1.max = pool.max ∧
      (allocSmall align pool size m).1.large = pool.large := by
  cases hfind : findRoom align size (pool.blocks.drop pool.current) with
  | none =>
    have hsame : allocSmall align pool size m = mpAllocBlock pool m size := by
      rw [allocSmall, hfind]
    rw [hsame]
    obtain ⟨hgood, haligned, hmax, hlarge⟩ := h.block hsize (hm hfind)
    exact ⟨hgood, .inl haligned, hmax, hlarge⟩
  | some found =>
    obtain ⟨rest, p⟩ := found
    have hsame : allocSmall align pool size m =
        ({ pool with blocks := pool.blocks.take pool.current ++ rest }, p) := by
      rw [allocSmall, hfind]
    rw [hsame]
    obtain ⟨before, node, after, hareas, hareas', hp, hlimit⟩ := findRoom_areas hfind hregular
    have hcapacity := h.capacity
    have hfilled := h.filled
    rw [hareas] at hcapacity hfilled
    refine ⟨⟨?_, h.room, ?_, ?_, h.large⟩, .inr ⟨_, hp⟩, rfl, rfl⟩
    · show Filled ((pool.blocks.take pool.current ++ rest).map Node.area) own _
      rw [hareas']
      have hlast : node.last ≤ p := by
        rw [hp]
        exact halign node.last
      exact hfilled.carve (p := ⟨p, size⟩) hlast hlimit
    · intro hnone
      have hnone' : pool.blocks.take pool.current ++ rest = [] := hnone
      rw [hnone'] at hareas'
      exact absurd hareas' (by simp)
    · intro a ha
      have ha' : a ∈ (pool.blocks.take pool.current ++ rest).map Node.area := ha
      rw [hareas', List.mem_append, List.mem_cons] at ha'
      obtain hold | rfl | hold := ha'
      · exact hcapacity a (List.mem_append_left _ hold)
      · exact hcapacity node.area (by simp)
      · exact hcapacity a (by simp [hold])

/-! ## Large allocations -/

theorem reuse_range {n : ℕ} {large large' : List Large} (h : reuse p n large = some large') :
    large'.map Large.range = large.map Large.range := by
  induction large generalizing n large' with
  | nil => exact absurd h (by simp [reuse])
  | cons l rest ih =>
    unfold reuse at h
    split at h
    · obtain rfl := Option.some.inj h
      rfl
    · split at h
      · exact absurd h (by simp)
      · obtain ⟨found, hfound, rfl⟩ := Option.map_eq_some_iff.mp h
        rw [List.map_cons, List.map_cons, ih hfound]

theorem mpFree_range {large large' : List Large} (h : mpFree p large = some large') :
    large'.map Large.range = large.map Large.range := by
  induction large generalizing large' with
  | nil => exact absurd h (by simp [mpFree])
  | cons l rest ih =>
    unfold mpFree at h
    split at h
    · obtain rfl := Option.some.inj h
      rfl
    · obtain ⟨found, hfound, rfl⟩ := Option.map_eq_some_iff.mp h
      rw [List.map_cons, List.map_cons, ih hfound]

theorem Fresh.mono {held held' : List Range} {r : Range} (h : Fresh held r)
    (hmem : ∀ q ∈ held', q ∈ held) : Fresh held' r :=
  ⟨h.1, h.2.1, fun q hq => h.2.2 q (hmem q hq)⟩

theorem Pool.Good.allocate {r : Range} (h : pool.Good c own pieces)
    (hr : Fresh (pool.areas.map Area.region ++ own) r) : pool.Good c (r :: own) pieces :=
  ⟨h.filled.allocate hr.2.2, h.room, h.some, h.capacity, h.large⟩

/-- A large allocation, and a piece for its node if none is free. -/
theorem Pool.Good.allocLarge {given : List Range}
    (h : pool.Good c own (given ++ pool.large.map Large.range))
    (hp : Fresh (pool.areas.map Area.region ++ own) ⟨p, size⟩)
    (hregular : reuse p 0 pool.large = none →
      NoOvershoot mpAlignPtr sizeofLarge (pool.blocks.drop pool.current))
    (hm : reuse p 0 pool.large = none →
      findRoom mpAlignPtr sizeofLarge (pool.blocks.drop pool.current) = none →
      FreshBlock pool (⟨p, size⟩ :: (pool.areas.map Area.region ++ own)) m) :
    (mpAllocLarge pool p m).Good c (⟨p, size⟩ :: own)
      (given ++ (mpAllocLarge pool p m).large.map Large.range) := by
  have hgood := h.allocate hp
  cases hreuse : reuse p 0 pool.large with
  | some large =>
    have hsame : mpAllocLarge pool p m = { pool with large := large } := by
      rw [mpAllocLarge, hreuse]
    rw [hsame]
    show Pool.Good _ c _ (given ++ large.map Large.range)
    rw [reuse_range hreuse]
    exact ⟨hgood.filled, hgood.room, hgood.some, hgood.capacity, hgood.large⟩
  | none =>
    have hblock : findRoom mpAlignPtr sizeofLarge (pool.blocks.drop pool.current) = none →
        FreshBlock pool (pool.areas.map Area.region ++ ⟨p, size⟩ :: own) m := by
      intro hnone
      obtain ⟨haligned, hfresh⟩ := hm hreuse hnone
      refine ⟨haligned, hfresh.mono ?_⟩
      intro q hq
      exact (List.perm_middle.mem_iff).mp hq
    obtain ⟨hnode, -, -, hlarge⟩ :=
      hgood.small hgood.large le_mpAlignPtr (hregular hreuse) hblock
    have hsame : mpAllocLarge pool p m =
        { (allocSmall mpAlignPtr pool sizeofLarge m).1 with
          large := ⟨(allocSmall mpAlignPtr pool sizeofLarge m).2, p⟩ ::
            (allocSmall mpAlignPtr pool sizeofLarge m).1.large } := by
      rw [mpAllocLarge, hreuse]
    rw [hsame]
    refine ⟨hnode.filled.perm (List.Perm.refl _) ?_, hnode.room, hnode.some, hnode.capacity,
      hnode.large⟩
    simp only [List.map_cons, hlarge]
    exact List.perm_middle

/-! ## The invariant -/

structure Inv (s : System) : Prop where
  good : ∃ c, s.pool.Good c (s.big.map Given.range)
    (s.small.map Given.range ++ s.pool.large.map Large.range)
  aligned : ∀ g ∈ s.small ++ s.big, g.source = .mpAlloc → MP_ALIGNMENT ∣ g.pointer

theorem mpCreatePool_max (h : sizeofLarge ≤ size) :
    sizeofLarge ≤ (mpCreatePool size p).max ∧ (mpCreatePool size p).max ≤ size := by
  unfold mpCreatePool sizeofLarge MP_MAX_ALLOC_FROM_POOL at *
  simp only
  split <;> omega

theorem inv_create (h : Placed size p) : Inv (create size p) where
  good := by
    obtain ⟨hlarge, hmax⟩ := mpCreatePool_max (p := p) h.large
    have hareas : (mpCreatePool size p).areas = [⟨p, p + sizeofPool + sizeofNode,
        p + sizeofPool + sizeofNode, p + sizeofPool + sizeofNode + size⟩] := rfl
    have hordered : Area.Ordered ⟨p, p + sizeofPool + sizeofNode, p + sizeofPool + sizeofNode,
        p + sizeofPool + sizeofNode + size⟩ := by
      refine ⟨?_, le_rfl, Nat.le_add_right _ _⟩
      simp only
      omega
    refine ⟨size, ⟨?_, ?_, nofun, List.Pairwise.nil⟩, hmax, by simp [create, mpCreatePool], ?_, hlarge⟩
    · show (List.map Area.region (mpCreatePool size p).areas ++ []).Pairwise Range.Apart
      rw [hareas]
      simp
    · intro a ha
      obtain rfl : a = _ := List.mem_singleton.mp ha
      exact hordered
    · intro a ha
      obtain rfl : a = _ := List.mem_singleton.mp ha
      rfl
  aligned := fun g hg => absurd hg (by simp [create])

/-- Without alignment no block is overshot. -/
theorem Pool.Good.noOvershoot_id (h : pool.Good c own pieces) (size : ℕ) :
    NoOvershoot id size (pool.blocks.drop pool.current) := by
  have hblocks : ∀ node ∈ pool.blocks.drop pool.current, node.last ≤ node.limit := by
    intro node hnode
    exact (h.filled.ordered node.area (List.mem_map_of_mem (List.mem_of_mem_drop hnode))).limit
  generalize pool.blocks.drop pool.current = blocks at hblocks ⊢
  induction blocks with
  | nil => trivial
  | cons node rest ih =>
    refine ⟨hblocks node List.mem_cons_self, fun _ => ih ?_⟩
    exact fun inner hinner => hblocks inner (List.mem_cons_of_mem node hinner)

theorem Pool.Good.noOvershoot (h : pool.Good c own pieces) (f : Function)
    (hregular : f = .mpNalloc ∨ NoOvershoot mpAlignPtr size (pool.blocks.drop pool.current)) :
    NoOvershoot f.align size (pool.blocks.drop pool.current) := by
  cases f with
  | mpAlloc => exact hregular.resolve_left (by decide)
  | mpNalloc => exact h.noOvershoot_id size
  | mpCalloc => exact hregular.resolve_left (by decide)

theorem Inv.alloc (h : Inv s) (f : Function)
    (henabled : (Action.alloc f size p m).Enabled s)
    (hregular : Regular s (.alloc f size p m)) : Inv (perform s (.alloc f size p m)) := by
  obtain ⟨⟨c, hgood⟩, haligned⟩ := h
  obtain ⟨-, henabled⟩ := henabled
  unfold perform
  simp only [Function.run_eq, allocWith]
  unfold Regular at hregular
  by_cases hsize : size ≤ s.pool.max
  · simp only [if_pos hsize] at henabled hregular ⊢
    obtain ⟨hgood', hpointer, -, hlarge⟩ :=
      hgood.small hsize f.le_align (hgood.noOvershoot f hregular) henabled
    refine ⟨⟨c, ?_⟩, ?_⟩
    · simp only [hlarge, List.map_cons, List.cons_append]
      exact hgood'
    · intro g hg hsource
      rw [List.cons_append] at hg
      obtain rfl | hold := List.mem_cons.mp hg
      · obtain hdvd | ⟨q, hq⟩ := hpointer
        · exact hdvd
        · have hf : f = .mpAlloc := hsource
          simp only
          rw [hq, hf]
          exact dvd_mpAlignPtr q
      · exact haligned g hold hsource
  · simp only [if_neg hsize] at henabled hregular ⊢
    obtain ⟨hp, hm⟩ := henabled
    obtain ⟨hdvd, hfits⟩ := hregular
    refine ⟨⟨c, hgood.allocLarge hp hfits hm⟩, ?_⟩
    intro g hg hsource
    obtain hsmall | hbig := List.mem_append.mp hg
    · exact haligned g (List.mem_append_left _ hsmall) hsource
    · obtain rfl | hold := List.mem_cons.mp hbig
      · exact hdvd hsource
      · exact haligned g (List.mem_append_right _ hold) hsource

theorem Inv.free (h : Inv s) (p : ℕ) : Inv (perform s (.free p)) := by
  unfold perform
  cases hfree : mpFree p s.pool.large with
  | none =>
    simp only [hfree]
    exact h
  | some large =>
    simp only [hfree]
    obtain ⟨⟨c, hgood⟩, haligned⟩ := h
    refine ⟨⟨c, ?_⟩, ?_⟩
    · show Pool.Good _ c _ (s.small.map Given.range ++ large.map Large.range)
      rw [mpFree_range hfree]
      exact ⟨hgood.filled.release (List.filter_sublist.map _), hgood.room, hgood.some,
        hgood.capacity, hgood.large⟩
    · intro g hg hsource
      obtain hsmall | hbig := List.mem_append.mp hg
      · exact haligned g (List.mem_append_left _ hsmall) hsource
      · exact haligned g (List.mem_append_right _ (List.mem_of_mem_filter hbig)) hsource

theorem Inv.sound (h : Inv s) : Sound s := by
  obtain ⟨⟨c, hgood⟩, haligned⟩ := h
  have hfilled := hgood.filled
  refine ⟨?_, haligned, ?_⟩
  · intro g hg
    obtain ⟨a, ha, hfirst, hlast⟩ := hfilled.carved g.range
      (List.mem_append_left _ (List.mem_map_of_mem hg))
    have hlimit := (hfilled.ordered a ha).limit
    obtain ⟨node, hnode, rfl⟩ := List.mem_map.mp ha
    exact ⟨node, hnode, hfirst, le_trans hlast hlimit⟩
  · have hall := hfilled.all_apart
    have hheaders : s.pool.areas.map Area.header = s.pool.blocks.map Node.header := by
      rw [Pool.areas, List.map_map]
      rfl
    rw [hheaders] at hall
    refine (List.Perm.pairwise_iff (fun h => Range.Apart.symm h) ?_).mp hall
    rw [List.map_append]
    simp only [List.append_assoc]
    apply List.Perm.append_left
    rw [← List.append_assoc (s.big.map Given.range)]
    exact List.perm_append_comm

theorem Reached.inv {Allowed : System → Action → Prop}
    (hallowed : ∀ s a, Allowed s a → Regular s a) (h : Reached Allowed s) : Inv s := by
  induction h with
  | create placed => exact inv_create placed
  | @step s a before enabled allowed ih =>
    cases a with
    | alloc f size p m => exact ih.alloc f enabled (hallowed _ _ allowed)
    | free p => exact ih.free p

/-- As long as no call tries a block whose next aligned address lies behind its end, and the large
allocations of `mp_alloc` are aligned, the pointers returned are sound. -/
theorem regular_reached_sound (h : Reached Regular s) : Sound s :=
  (h.inv fun _ _ hregular => hregular).sound

instance decidableNoOvershoot (align : ℕ → ℕ) (size : ℕ) :
    (blocks : List Node) → Decidable (NoOvershoot align size blocks)
  | [] => isTrue trivial
  | p :: rest =>
    have := decidableNoOvershoot align size rest
    inferInstanceAs (Decidable (align p.last ≤ p.limit ∧
      (p.limit - align p.last < size → NoOvershoot align size rest)))

/-- A pool of a page from which a small piece and a large allocation are taken. -/
theorem regular_reached_sound_page : Sound (perform (perform (create 4096 4096)
    (.alloc .mpAlloc 512 0 0)) (.alloc .mpAlloc 8192 65536 0)) := by
  have hcreate : Reached Regular (create 4096 4096) :=
    .create ⟨by decide, by decide, by decide⟩
  have hsmall : Reached Regular (perform (create 4096 4096) (.alloc .mpAlloc 512 0 0)) := by
    apply hcreate.step
    · exact ⟨by decide, fun hnone => absurd hnone (Option.isSome_iff_ne_none.mp (by decide))⟩
    · show _ ∨ NoOvershoot mpAlignPtr 512 (create 4096 4096).pool.blocks
      exact .inr (by decide)
  apply regular_reached_sound
  apply hsmall.step
  · exact ⟨by decide, ⟨by decide, by decide, by decide⟩,
      fun _ hnone => absurd hnone (Option.isSome_iff_ne_none.mp (by decide))⟩
  · refine ⟨fun _ => by decide, fun _ => ?_⟩
    show NoOvershoot mpAlignPtr 16 (perform (create 4096 4096)
      (.alloc .mpAlloc 512 0 0)).pool.blocks
    decide

/-! ## A block that is overshot -/

/-- A pool of a page from which 4070 bytes and then 100 bytes are taken: the next aligned address
lies behind the end of the block, and the difference of the two is taken for room. -/
def overshot : System :=
  perform (perform (create 4096 4096) (.alloc .mpAlloc 4070 0 0)) (.alloc .mpAlloc 100 0 0)

theorem overshot_outside : Reached (fun _ _ => True) overshot ∧ ¬Sound overshot := by
  constructor
  · have hcreate : Reached (fun _ _ => True) (create 4096 4096) :=
      .create ⟨by decide, by decide, by decide⟩
    have hsmall : Reached (fun _ _ => True)
        (perform (create 4096 4096) (.alloc .mpAlloc 4070 0 0)) := by
      apply hcreate.step _ trivial
      exact ⟨by decide, fun hnone => absurd hnone (Option.isSome_iff_ne_none.mp (by decide))⟩
    apply hsmall.step _ trivial
    exact ⟨by decide, fun hnone => absurd hnone (Option.isSome_iff_ne_none.mp (by decide))⟩
  · intro hsound
    obtain ⟨node, hnode, -, hlimit⟩ := hsound.inside ⟨8256, 100, .mpAlloc⟩ List.mem_cons_self
    have hnone : ∀ node ∈ overshot.pool.blocks, ¬8256 + 100 ≤ node.limit := by decide
    exact hnone node hnode hlimit

end CServer.MmPool
