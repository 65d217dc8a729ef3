import CServer.Foundation.Linked
import CServer.Memory.Pointers

/-!
# When the calls of the pool end

The `next` pointers make a chain of the blocks, since every new node gets its own and
`mp_alloc_block` hangs it behind the last one; only that of the first node is left as the memory
was. The loops end with this chain. The recursion of `mp_alloc` and `mp_alloc_large` ends where
`mp_alloc` takes a node for the list of large allocations from a block.
-/
namespace CServer.MmPool.Pointers

open CServer.Linked

variable {align : ℕ → ℕ} {malloc : ℕ → ℕ} {memory : Option Memory} {size p calls : ℕ}
  {pool pool' : Pool} {node : Node} {l : List ℕ}

/-! ## The chain of the blocks -/

/-- The node behind a node. -/
def Pool.next (pool : Pool) (p : ℕ) : Option ℕ :=
  match pool.nodes p with
  | some node => if node.next = 0 then none else some node.next
  | none => none

/-- The pool knows the nodes of a list. -/
def Pool.Mapped (pool : Pool) (l : List ℕ) : Prop := ∀ p ∈ l, ∃ node, pool.nodes p = some node

theorem read_of (h : pool.nodes p = some node) : pool.read p = .ok node := by
  rw [Pool.read, h]

theorem next_of (h : pool.nodes p = some node) :
    pool.next p = if node.next = 0 then none else some node.next := by
  rw [Pool.next, h]

/-- At the end of a chain there is no next node. -/
theorem next_eq_zero (h : pool.nodes p = some node) (hend : Chain pool.next p []) :
    node.next = 0 := by
  have hnext : pool.next p = none := hend
  rw [next_of h] at hnext
  by_contra hsome
  rw [if_neg hsome] at hnext
  exact absurd hnext (Option.some_ne_none _)

/-- Within a chain there is one. -/
theorem next_eq_cons {q : ℕ} (h : pool.nodes p = some node) (hchain : Chain pool.next p (q :: l)) :
    node.next = q ∧ node.next ≠ 0 ∧ Chain pool.next q l := by
  obtain ⟨hnext, hrest⟩ := hchain
  rw [next_of h] at hnext
  by_cases hsome : node.next = 0
  · rw [if_pos hsome] at hnext
    exact absurd hnext.symm (Option.some_ne_none _)
  · rw [if_neg hsome] at hnext
    exact ⟨Option.some.inj hnext, hsome, hrest⟩

theorem Pool.Mapped.tail {q : ℕ} (h : pool.Mapped (q :: l)) : pool.Mapped l :=
  fun b hb => h b (List.mem_cons_of_mem q hb)

theorem traverse_null (pool : Pool) : Returns (fun turns => traverse pool turns 0) [] :=
  Returns.of_succ fun _ => rfl

/-- The turn at a node. -/
theorem traverse_node (hnode : pool.nodes p = some node) (hp : p ≠ 0)
    (hrest : Returns (fun turns => traverse pool turns node.next) l) :
    Returns (fun turns => traverse pool turns p) (p :: l) := by
  have hadded : Returns (fun turns => traverse pool turns node.next >>=
      fun rest => Except.ok (p :: rest)) (p :: l) := hrest.bind (Returns.of_eq fun _ => rfl)
  refine hadded.succ fun turns => ?_
  rw [traverse, if_neg hp, read_of hnode, ok_bind]
  rfl

/-- A chain is traversed. -/
theorem traverse_returns (hchain : Chain pool.next p l) (hmapped : pool.Mapped (p :: l))
    (hp : p ≠ 0) : Returns (fun turns => traverse pool turns p) (p :: l) := by
  induction l generalizing p with
  | nil =>
    obtain ⟨node, hnode⟩ := hmapped p List.mem_cons_self
    refine traverse_node hnode hp ?_
    rw [next_eq_zero hnode hchain]
    exact traverse_null pool
  | cons q l ih =>
    obtain ⟨node, hnode⟩ := hmapped p List.mem_cons_self
    obtain ⟨rfl, hsome, hrest⟩ := next_eq_cons hnode hchain
    exact traverse_node hnode hp (ih hrest hmapped.tail hsome)

/-! ## The search -/

theorem taker_cons (hnode : pool.nodes p = some node) :
    pool.taker align size (p :: l) = if size ≤ difference node.limit (align node.last) then
      some (p, node) else pool.taker align size l := by
  rw [Pool.taker, List.findSome?_cons, hnode]
  by_cases hroom : size ≤ difference node.limit (align node.last)
  · simp only [if_pos hroom]
  · simp only [if_neg hroom]
    rfl

/-- The pool and the piece when a node takes it. -/
def Pool.take (pool : Pool) (align : ℕ → ℕ) (size : ℕ) (found : Option (ℕ × Node)) :
    Pool × Option Piece :=
  match found with
  | some (p, node) => (pool.write p { node with last := align node.last + size },
      some ⟨align node.last, align node.last + size ≤ node.limit⟩)
  | none => (pool, none)

theorem search_taken (hnode : pool.nodes p = some node)
    (hroom : size ≤ difference node.limit (align node.last)) :
    Returns (fun turns => search align size turns pool p)
      (pool.take align size (some (p, node))) := by
  refine Returns.of_succ fun turns => ?_
  rw [search, read_of hnode, ok_bind]
  exact if_pos hroom

/-- The search ends with the node that takes the piece, or with the chain. -/
theorem search_returns (align : ℕ → ℕ) (size : ℕ) (hchain : Chain pool.next p l)
    (hmapped : pool.Mapped (p :: l)) :
    Returns (fun turns => search align size turns pool p)
      (pool.take align size (pool.taker align size (p :: l))) := by
  induction l generalizing p with
  | nil =>
    obtain ⟨node, hnode⟩ := hmapped p List.mem_cons_self
    rw [taker_cons hnode]
    by_cases hroom : size ≤ difference node.limit (align node.last)
    · rw [if_pos hroom]
      exact search_taken hnode hroom
    · rw [if_neg hroom]
      refine Returns.of_succ fun turns => ?_
      rw [search, read_of hnode, ok_bind]
      exact (if_neg hroom).trans (if_pos (next_eq_zero hnode hchain))
  | cons q l ih =>
    obtain ⟨node, hnode⟩ := hmapped p List.mem_cons_self
    obtain ⟨rfl, hsome, hrest⟩ := next_eq_cons hnode hchain
    rw [taker_cons hnode]
    by_cases hroom : size ≤ difference node.limit (align node.last)
    · rw [if_pos hroom]
      exact search_taken hnode hroom
    · rw [if_neg hroom]
      refine (ih hrest hmapped.tail).succ fun turns => ?_
      rw [search, read_of hnode, ok_bind]
      exact (if_neg hroom).trans (if_neg hsome)

/-! ## The failures -/

/-- Two pools that differ in the failures of the nodes of a list. -/
structure SameLinks (pool pool' : Pool) : Prop where
  others : pool' = { pool with nodes := pool'.nodes }
  nodes : ∀ b node, pool.nodes b = some node →
    ∃ failed, pool'.nodes b = some { node with failed := failed }
  fresh : ∀ b, pool.nodes b = none → pool'.nodes b = none

theorem SameLinks.refl (pool : Pool) : SameLinks pool pool :=
  ⟨rfl, fun _ node hnode => ⟨node.failed, hnode⟩, fun _ hnone => hnone⟩

theorem SameLinks.next (h : SameLinks pool pool') : pool'.next = pool.next := by
  funext b
  unfold Pool.next
  cases hnode : pool.nodes b with
  | none => rw [h.fresh b hnode]
  | some node =>
    obtain ⟨failed, hnode'⟩ := h.nodes b node hnode
    rw [hnode']

theorem SameLinks.mapped (h : SameLinks pool pool') (hmapped : pool.Mapped l) : pool'.Mapped l := by
  intro b hb
  obtain ⟨node, hnode⟩ := hmapped b hb
  obtain ⟨failed, hnode'⟩ := h.nodes b node hnode
  exact ⟨_, hnode'⟩

theorem SameLinks.trans {after : Pool} (h : SameLinks pool pool') (h' : SameLinks pool' after) :
    SameLinks pool after where
  others := by
    rw [h'.others, h.others]
  nodes b node hnode := by
    obtain ⟨failed, hnode'⟩ := h.nodes b node hnode
    obtain ⟨failed', hafter⟩ := h'.nodes b _ hnode'
    exact ⟨failed', hafter⟩
  fresh b hnone := h'.fresh b (h.fresh b hnone)

theorem SameLinks.write (hnode : pool.nodes p = some node) (failed : ℕ) :
    SameLinks pool (pool.write p { node with failed := failed }) where
  others := rfl
  nodes b other hother := by
    by_cases hb : b = p
    · subst hb
      obtain rfl := Option.some.inj (hnode.symm.trans hother)
      exact ⟨failed, Function.update_self _ _ _⟩
    · exact ⟨other.failed, (Function.update_of_ne hb _ _).trans hother⟩
  fresh b hnone := by
    have hb : b ≠ p := by
      rintro rfl
      exact absurd (hnode.symm.trans hnone) (Option.some_ne_none _)
    exact (Function.update_of_ne hb _ _).trans hnone

/-- The failures are counted up to the end of the chain, and what is current is a node of it. -/
theorem countFailed_returns (hchain : Chain pool.next p l) (hmapped : pool.Mapped (p :: l))
    (current : ℕ) : ∃ pool' current',
      Returns (fun turns => countFailed turns pool p current) (pool', l.getLastD p, current') ∧
      SameLinks pool pool' ∧ (current' = current ∨ current' ∈ l) := by
  induction l generalizing pool p current with
  | nil =>
    obtain ⟨node, hnode⟩ := hmapped p List.mem_cons_self
    refine ⟨pool, current, Returns.of_succ fun turns => ?_, .refl pool, .inl rfl⟩
    rw [countFailed, read_of hnode, ok_bind]
    exact if_pos (next_eq_zero hnode hchain)
  | cons q l ih =>
    obtain ⟨node, hnode⟩ := hmapped p List.mem_cons_self
    obtain ⟨rfl, hsome, hrest⟩ := next_eq_cons hnode hchain
    have hsame := SameLinks.write hnode ((node.failed + 1) % 2 ^ 64)
    obtain ⟨pool', current', hreturns, hlinks, hcurrent⟩ :=
      ih (by rw [hsame.next]; exact hrest) (hsame.mapped hmapped.tail)
        (if 4 < node.failed then node.next else current)
    refine ⟨pool', current', ?_, hsame.trans hlinks, ?_⟩
    · rw [List.getLastD_cons]
      refine hreturns.succ fun turns => ?_
      rw [countFailed, read_of hnode, ok_bind]
      exact if_neg hsome
    · obtain rfl | hmem := hcurrent
      · split
        · exact .inr List.mem_cons_self
        · exact .inl rfl
      · exact .inr (List.mem_cons_of_mem _ hmem)

/-! ## The invariant -/

/-- The blocks of the pool make a chain from its head, one of them is current, and a new block has
room for any piece. A pool that is too small for the nodes of the large allocations has none. -/
structure Good (pool : Pool) : Prop where
  chain : ∃ rest, pool.blocks = pool.head :: rest ∧ Chain pool.next pool.head rest
  mapped : pool.Mapped pool.blocks
  nodup : pool.blocks.Nodup
  nonzero : ∀ p ∈ pool.blocks, p ≠ 0
  current : pool.current ∈ pool.blocks
  unlisted : pool.max < sizeofLarge → pool.large = []
  room : ∃ node size, pool.nodes pool.head = some node ∧
    node.limit = pool.head + sizeofNode + size ∧ pool.max ≤ size

theorem Good.traversed (h : Good pool) : Traversed pool := by
  obtain ⟨rest, hblocks, hchain⟩ := h.chain
  have hmapped := h.mapped
  have hhead := h.nonzero pool.head (hblocks ▸ List.mem_cons_self)
  unfold Traversed
  rw [hblocks] at hmapped ⊢
  exact traverse_returns hchain hmapped hhead

/-- The nodes from one of a chain on. -/
theorem chain_dropWhile {q : ℕ} (hchain : Chain pool.next p l) (hq : q ∈ p :: l) :
    ∃ rest, (p :: l).dropWhile (· ≠ q) = q :: rest ∧ Chain pool.next q rest ∧
      rest.getLastD q = l.getLastD p := by
  induction l generalizing p with
  | nil =>
    obtain rfl := List.mem_singleton.1 hq
    exact ⟨[], List.dropWhile_cons_of_neg (by simp), hchain, rfl⟩
  | cons b l ih =>
    by_cases hp : p = q
    · subst hp
      exact ⟨b :: l, List.dropWhile_cons_of_neg (by simp), hchain, rfl⟩
    · have hrest : q ∈ b :: l := (List.mem_cons.1 hq).resolve_left fun heq => hp heq.symm
      rw [List.dropWhile_cons_of_pos (by simpa using hp), List.getLastD_cons]
      exact ih hchain.2 hrest

/-- The nodes that are tried: the chain from the current one on. -/
theorem Good.tried (h : Good pool) : ∃ rest, pool.tried = pool.current :: rest ∧
    Chain pool.next pool.current rest ∧ (∀ b ∈ pool.current :: rest, b ∈ pool.blocks) ∧
    rest.getLastD pool.current = pool.blocks.tail.getLastD pool.head := by
  obtain ⟨rest, hblocks, hchain⟩ := h.chain
  have hcurrent := h.current
  rw [hblocks] at hcurrent
  obtain ⟨tried, htried, htail, hlast⟩ := chain_dropWhile hchain hcurrent
  have hdrop : pool.tried = pool.current :: tried := by
    rw [Pool.tried, hblocks]
    exact htried
  refine ⟨tried, hdrop, htail, fun b hb => ?_, ?_⟩
  · rw [← hdrop, Pool.tried] at hb
    exact (List.dropWhile_sublist _).mem hb
  · rw [hblocks]
    exact hlast

theorem next_write_self (pool : Pool) (p : ℕ) (node : Node) :
    (pool.write p node).next p = if node.next = 0 then none else some node.next :=
  next_of (Function.update_self _ _ _)

theorem next_write_of_ne {b : ℕ} (hb : b ≠ p) (node : Node) :
    (pool.write p node).next b = pool.next b := by
  have hsame : (pool.write p node).nodes b = pool.nodes b := Function.update_of_ne hb _ _
  rw [Pool.next, hsame]
  rfl

theorem next_write (hnode : pool.nodes p = some node) {node' : Node}
    (hnext : node'.next = node.next) : (pool.write p node').next = pool.next := by
  funext b
  by_cases hb : b = p
  · subst hb
    rw [next_write_self, next_of hnode, hnext]
  · exact next_write_of_ne hb node'

/-- A node is written, but not its link and not its end. -/
theorem Good.write (h : Good pool) (hnode : pool.nodes p = some node) {node' : Node}
    (hnext : node'.next = node.next) (hlimit : node'.limit = node.limit) :
    Good (pool.write p node') := by
  have hnodes : ∀ b other, pool.nodes b = some other →
      ∃ other', (pool.write p node').nodes b = some other' ∧ other'.limit = other.limit := by
    intro b other hother
    by_cases hb : b = p
    · subst hb
      obtain rfl := Option.some.inj (hnode.symm.trans hother)
      exact ⟨node', Function.update_self _ _ _, hlimit⟩
    · exact ⟨other, (Function.update_of_ne hb _ _).trans hother, rfl⟩
  obtain ⟨first, size, hfirst, hend, hsize⟩ := h.room
  obtain ⟨first', hfirst', hend'⟩ := hnodes pool.head first hfirst
  refine ⟨?_, fun b hb => ?_, h.nodup, h.nonzero, h.current, h.unlisted,
    first', size, hfirst', hend'.trans hend, hsize⟩
  · rw [next_write hnode hnext]
    exact h.chain
  · obtain ⟨other, hother⟩ := h.mapped b hb
    obtain ⟨other', hother', -⟩ := hnodes b other hother
    exact ⟨other', hother'⟩

theorem Good.setLarge (h : Good pool) (large : List Large)
    (hlarge : pool.max < sizeofLarge → large = []) : Good { pool with large := large } :=
  ⟨h.chain, h.mapped, h.nodup, h.nonzero, h.current, hlarge, h.room⟩

/-- A block is hung behind the last one. -/
theorem Good.append (h : Good pool) {m : ℕ} (hm : m ≠ 0) (hfresh : m ∉ pool.blocks)
    (hothers : pool'.max = pool.max ∧ pool'.head = pool.head ∧ pool'.large = pool.large)
    (hblocks : pool'.blocks = pool.blocks ++ [m]) (hcurrent : pool'.current ∈ pool'.blocks)
    (hlast : pool'.next (pool.blocks.tail.getLastD pool.head) = some m) (hnew : pool'.next m = none)
    (hsame : ∀ b, b ≠ pool.blocks.tail.getLastD pool.head → b ≠ m → pool'.next b = pool.next b)
    (hnodes : ∀ b node, pool.nodes b = some node → b ≠ m →
      ∃ node', pool'.nodes b = some node' ∧ node'.limit = node.limit)
    (hmapped : ∃ node, pool'.nodes m = some node) : Good pool' := by
  obtain ⟨hmax, hhead, hlarge⟩ := hothers
  obtain ⟨rest, hrest, hchain⟩ := h.chain
  obtain ⟨first, size, hfirst, hend, hsize⟩ := h.room
  have hnodup := h.nodup
  have hne : ∀ b ∈ pool.blocks, b ≠ m := fun b hb heq => hfresh (heq ▸ hb)
  obtain ⟨first', hfirst', hend'⟩ := hnodes pool.head first hfirst
    (hne pool.head (hrest ▸ List.mem_cons_self))
  rw [hrest] at hlast hsame
  have hmem : ∀ b ∈ pool'.blocks, b ∈ pool.blocks ∨ b = m := by
    intro b hb
    rw [hblocks, List.mem_append, List.mem_singleton] at hb
    exact hb
  refine ⟨⟨rest ++ [m], ?_, ?_⟩, fun b hb => ?_, ?_, fun b hb => ?_, hcurrent, ?_,
    first', size, ?_, ?_, ?_⟩
  · rw [hblocks, hrest, hhead, List.cons_append]
  · rw [hhead]
    have hwhole : Chain pool.next pool.head (rest ++ []) := by
      rw [List.append_nil]
      exact hchain
    have hend : pool.next (rest.getLastD pool.head) = none := (chain_append_iff.1 hwhole).2
    rw [hrest, ← List.append_nil rest] at hnodup hfresh
    exact hwhole.insert hnodup hfresh hlast (hnew.trans hend.symm) hsame
  · obtain hb | rfl := hmem b hb
    · obtain ⟨node, hnode⟩ := h.mapped b hb
      obtain ⟨node', hnode', -⟩ := hnodes b node hnode (hne b hb)
      exact ⟨node', hnode'⟩
    · exact hmapped
  · rw [hblocks, List.nodup_append]
    refine ⟨hnodup, List.nodup_singleton m, fun a ha b hb => ?_⟩
    rw [List.mem_singleton.1 hb]
    exact hne a ha
  · obtain hb | rfl := hmem b hb
    · exact h.nonzero b hb
    · exact hm
  · rw [hmax, hlarge]
    exact h.unlisted
  · rw [hhead]
    exact hfirst'
  · rw [hend', hend, hhead]
  · rw [hmax]
    exact hsize

/-! ## A new block -/

/-- The node of a new block is written, but not linked yet. -/
def Pool.withBlock (pool : Pool) (m : Memory) (size psize : ℕ) : Pool :=
  { pool.write m.address { m.content with
      limit := m.address + psize
      next := 0
      failed := 0
      last := mpAlignPtr (m.address + sizeofNode) + size } with
    blocks := pool.blocks ++ [m.address] }

/-- A block is hung behind the last node. -/
def Pool.hang (pool : Pool) (m last : ℕ) (node : Node) (current : ℕ) : Pool :=
  { pool.write last { node with next := m } with current := if current ≠ 0 then current else m }

theorem block_returns {m : Memory} {first : Node} {last current : ℕ}
    (hfirst : pool.nodes pool.head = some first)
    (hcounted : Returns (fun turns => countFailed turns
      (pool.withBlock m size (difference first.limit pool.head)) pool.current pool.current)
      (pool', last, current))
    (hnode : pool'.nodes last = some node) :
    Returns (fun turns => mpAllocBlock turns pool size (some m))
      (pool'.hang m.address last node current, some ⟨mpAlignPtr (m.address + sizeofNode),
        mpAlignPtr (m.address + sizeofNode) + size ≤
          m.address + difference first.limit pool.head⟩) := by
  have hhung : Returns (fun turns =>
      countFailed turns (pool.withBlock m size (difference first.limit pool.head)) pool.current
        pool.current >>= fun out =>
      out.1.read out.2.1 >>= fun node => Except.ok (out.1.hang m.address out.2.1 node out.2.2,
        some (⟨mpAlignPtr (m.address + sizeofNode), mpAlignPtr (m.address + sizeofNode) + size ≤
          m.address + difference first.limit pool.head⟩ : Piece))) _ :=
    hcounted.bind (Returns.of_eq fun turns => by rw [read_of hnode, ok_bind])
  refine hhung.congr fun turns => ?_
  rw [mpAllocBlock, read_of hfirst, ok_bind]
  rfl

section withBlock

variable {m : Memory} {psize : ℕ}

theorem withBlock_nodes_of_ne {b : ℕ} (hb : b ≠ m.address) :
    (pool.withBlock m size psize).nodes b = pool.nodes b := Function.update_of_ne hb _ _

theorem withBlock_next_of_ne {b : ℕ} (hb : b ≠ m.address) :
    (pool.withBlock m size psize).next b = pool.next b := next_write_of_ne hb _

theorem withBlock_next_self : (pool.withBlock m size psize).next m.address = none :=
  (next_write_self pool m.address _).trans (if_pos rfl)

end withBlock

/-- The failures are counted in the blocks that were there. -/
theorem Good.counted (h : Good pool) {m : Memory} (hnew : m.address ∉ pool.blocks)
    (size psize : ℕ) : ∃ pool' current,
      Returns (fun turns =>
          countFailed turns (pool.withBlock m size psize) pool.current pool.current)
        (pool', pool.blocks.tail.getLastD pool.head, current) ∧
      SameLinks (pool.withBlock m size psize) pool' ∧ current ∈ pool.blocks := by
  obtain ⟨rest, -, hchain, hmem, hlast⟩ := h.tried
  have hne : ∀ b ∈ pool.current :: rest, b ≠ m.address :=
    fun b hb heq => hnew (heq ▸ hmem b hb)
  have hchain' : Chain (pool.withBlock m size psize).next pool.current rest :=
    hchain.congr fun b hb => withBlock_next_of_ne (hne b hb)
  have hmapped : (pool.withBlock m size psize).Mapped (pool.current :: rest) := by
    intro b hb
    rw [withBlock_nodes_of_ne (hne b hb)]
    exact h.mapped b (hmem b hb)
  obtain ⟨pool', current, hcounted, hlinks, hcurrent⟩ :=
    countFailed_returns hchain' hmapped pool.current
  rw [hlast] at hcounted
  refine ⟨pool', current, hcounted, hlinks, hmem current ?_⟩
  obtain rfl | hrest := hcurrent
  · exact List.mem_cons_self
  · exact List.mem_cons_of_mem _ hrest

theorem Good.last_mem (h : Good pool) : pool.blocks.tail.getLastD pool.head ∈ pool.blocks := by
  obtain ⟨rest, -, -, hmem, hlast⟩ := h.tried
  rw [← hlast]
  exact hmem _ List.getLastD_mem_cons

/-- With a block behind the last node the pool is as it should be. -/
theorem Good.hang (h : Good pool) {m : Memory} (hm : m.address ≠ 0) (hnew : m.address ∉ pool.blocks)
    {psize current : ℕ} (hlinks : SameLinks (pool.withBlock m size psize) pool')
    (hcurrent : current ∈ pool.blocks)
    (hnode : pool'.nodes (pool.blocks.tail.getLastD pool.head) = some node) :
    Good (pool'.hang m.address (pool.blocks.tail.getLastD pool.head) node current) := by
  obtain ⟨last, hlast⟩ : ∃ last, pool.blocks.tail.getLastD pool.head = last := ⟨_, rfl⟩
  have hlastMem := h.last_mem
  rw [hlast] at hlastMem hnode ⊢
  have hmlast : m.address ≠ last := fun heq => hnew (heq ▸ hlastMem)
  have hnext : ∀ b, b ≠ last → (pool'.hang m.address last node current).next b =
      (pool.withBlock m size psize).next b := by
    intro b hb
    rw [← hlinks.next]
    exact next_write_of_ne hb _
  have hnodes : ∀ b, b ≠ last →
      (pool'.hang m.address last node current).nodes b = pool'.nodes b :=
    fun b hb => Function.update_of_ne hb _ _
  have hothers : pool'.max = pool.max ∧ pool'.head = pool.head ∧ pool'.large = pool.large ∧
      pool'.blocks = pool.blocks ++ [m.address] := by
    rw [hlinks.others]
    exact ⟨rfl, rfl, rfl, rfl⟩
  obtain ⟨hmax, hhead, hlarge, hblocks⟩ := hothers
  refine h.append hm hnew ⟨hmax, hhead, hlarge⟩ hblocks ?_ ?_ ?_ ?_ ?_ ?_
  · have hsome : current ≠ 0 := h.nonzero current hcurrent
    show (if current ≠ 0 then current else m.address) ∈ pool'.blocks
    rw [if_pos hsome, hblocks]
    exact List.mem_append_left _ hcurrent
  · rw [hlast]
    exact (next_write_self pool' last _).trans (if_neg hm)
  · rw [hnext m.address hmlast]
    exact withBlock_next_self
  · intro b hb hbm
    rw [hlast] at hb
    rw [hnext b hb, withBlock_next_of_ne hbm]
  · intro b other hother hbm
    have hother' : (pool.withBlock m size psize).nodes b = some other :=
      (withBlock_nodes_of_ne hbm).trans hother
    obtain ⟨failed, hkept⟩ := hlinks.nodes b other hother'
    by_cases hb : b = last
    · subst hb
      obtain rfl := Option.some.inj (hnode.symm.trans hkept)
      exact ⟨_, Function.update_self _ _ _, rfl⟩
    · rw [hnodes b hb]
      exact ⟨_, hkept, rfl⟩
  · obtain ⟨failed, hfailed⟩ := hlinks.nodes m.address _ (Function.update_self _ _ _)
    rw [hnodes m.address hmlast]
    exact ⟨_, hfailed⟩

/-- A new block takes the piece. -/
theorem Good.block (h : Good pool) {m : Memory} (hfresh : Memory.Fresh pool (some m))
    (hsize : size ≤ pool.max) : ∃ pool' piece,
      Returns (fun turns => mpAllocBlock turns pool size (some m)) (pool', some piece) ∧
      Good pool' ∧ pool'.max = pool.max ∧ pool'.large = pool.large ∧ piece.inside = true := by
  obtain ⟨hm, haligned, hnew⟩ := hfresh m rfl
  obtain ⟨first, capacity, hfirst, hend, hcapacity⟩ := h.room
  have hpsize : difference first.limit pool.head = sizeofNode + capacity := by
    unfold difference
    rw [if_pos (by omega)]
    omega
  have hpointer : mpAlignPtr (m.address + sizeofNode) = m.address + sizeofNode :=
    mpAlignPtr_of_dvd ((Nat.dvd_add_right haligned).2 (by decide))
  obtain ⟨pool', current, hcounted, hlinks, hcurrent⟩ :=
    h.counted hnew size (difference first.limit pool.head)
  have hlast := h.last_mem
  have hmlast : pool.blocks.tail.getLastD pool.head ≠ m.address := fun heq => hnew (heq ▸ hlast)
  obtain ⟨lastNode, hlastNode⟩ := h.mapped _ hlast
  obtain ⟨failed, hnode⟩ := hlinks.nodes _ lastNode ((withBlock_nodes_of_ne hmlast).trans hlastNode)
  have hothers : pool'.max = pool.max ∧ pool'.large = pool.large := by
    rw [hlinks.others]
    exact ⟨rfl, rfl⟩
  refine ⟨_, _, block_returns hfirst hcounted hnode, h.hang hm hnew hlinks hcurrent hnode,
    hothers.1, hothers.2, decide_eq_true ?_⟩
  rw [hpointer, hpsize]
  omega

/-! ## The calls -/

theorem taker_some {b : ℕ} (h : pool.taker align size l = some (b, node)) :
    pool.nodes b = some node := by
  obtain ⟨p, -, hp⟩ := List.exists_of_findSome?_eq_some h
  cases hnode : pool.nodes p with
  | none =>
    rw [hnode] at hp
    exact absurd hp.symm (Option.some_ne_none _)
  | some other =>
    rw [hnode] at hp
    simp only [Option.ite_none_right_eq_some, Option.some.injEq, Prod.mk.injEq] at hp
    obtain ⟨-, rfl, rfl⟩ := hp
    exact hnode

theorem inside_none : ∀ q, (none : Option Piece) = some q → q.inside = true :=
  fun _ hnone => absurd hnone.symm (Option.some_ne_none _)

theorem inside_some {piece : Piece} (h : piece.inside = true) :
    ∀ q, some piece = some q → q.inside = true := by
  intro q hq
  rw [← Option.some.inj hq]
  exact h

/-- A piece that is not inside its block. -/
theorem exists_outside {piece : Option Piece} (h : ¬∀ q, piece = some q → q.inside = true) :
    ∃ q, piece = some q ∧ ¬q.inside = true := by
  simpa only [not_forall, exists_prop] using h

/-- A small piece is taken, from a block that has room or from a new one. -/
theorem Good.small (h : Good pool) (align : ℕ → ℕ) (hfresh : Memory.Fresh pool memory)
    (hsize : size ≤ pool.max) :
    ∃ pool' piece, Returns (fun turns => allocSmall align turns pool size memory) (pool', piece) ∧
      Good pool' ∧ pool'.max = pool.max ∧ pool'.large = pool.large ∧
      ((∀ q, piece = some q → q.inside = true) ↔ pool.Inside align size) := by
  obtain ⟨rest, htried, hchain, hmem, -⟩ := h.tried
  have hmapped : pool.Mapped (pool.current :: rest) := fun b hb => h.mapped b (hmem b hb)
  have hsearch := search_returns align size hchain hmapped
  unfold Pool.Inside
  rw [htried]
  cases htaker : pool.taker align size (pool.current :: rest) with
  | some found =>
    obtain ⟨b, node⟩ := found
    rw [htaker] at hsearch
    have hreturns : Returns (fun turns => allocSmall align turns pool size memory)
        (pool.take align size (some (b, node))) := hsearch.bind (Returns.of_eq fun turns => rfl)
    refine ⟨_, _, hreturns, h.write (taker_some htaker) rfl rfl, rfl, rfl, ?_⟩
    constructor
    · rintro hpiece p other hother
      obtain ⟨rfl, rfl⟩ := Prod.mk.inj (Option.some.inj hother)
      exact of_decide_eq_true (hpiece _ rfl)
    · rintro hinside q hq
      rw [← Option.some.inj hq]
      exact decide_eq_true (hinside b node rfl)
  | none =>
    rw [htaker] at hsearch
    have hinside : ∀ p node, (none : Option (ℕ × Node)) = some (p, node) →
        align node.last + size ≤ node.limit :=
      fun _ _ hnone => absurd hnone.symm (Option.some_ne_none _)
    cases memory with
    | none =>
      obtain ⟨first, -, hfirst, -, -⟩ := h.room
      have hreturns : Returns (fun turns => allocSmall align turns pool size none)
          (pool, none) := by
        refine hsearch.bind (Returns.of_eq fun turns => ?_)
        show mpAllocBlock turns pool size none = _
        rw [mpAllocBlock, read_of hfirst, ok_bind]
        rfl
      exact ⟨pool, none, hreturns, h, rfl, rfl, iff_of_true inside_none hinside⟩
    | some m =>
      obtain ⟨pool', piece, hblock, hgood, hmax, hlarge, hpiece⟩ := h.block hfresh hsize
      have hreturns : Returns (fun turns => allocSmall align turns pool size (some m))
          (pool', some piece) := hsearch.bind hblock
      refine ⟨pool', some piece, hreturns, hgood, hmax, hlarge,
        iff_of_true (inside_some hpiece) hinside⟩

/-! ## The recursion -/

theorem mpAlloc_small (hsize : size ≤ pool.max) (turns : ℕ) :
    mpAlloc malloc memory (turns + 1) pool size calls =
      allocSmall mpAlignPtr turns pool size memory := by
  rw [mpAlloc, if_pos hsize]

theorem mpAlloc_large (hsize : ¬size ≤ pool.max) (turns : ℕ) :
    mpAlloc malloc memory (turns + 1) pool size calls =
      mpAllocLarge malloc memory turns pool calls := by
  rw [mpAlloc, if_neg hsize]

theorem mpAllocLarge_null (hnull : malloc calls = 0) (turns : ℕ) :
    mpAllocLarge malloc memory (turns + 1) pool calls = .ok (pool, none) := by
  rw [mpAllocLarge]
  exact if_pos hnull

theorem mpAllocLarge_reuse (hsome : malloc calls ≠ 0) {large : List Large}
    (hreuse : reuse (malloc calls) 0 pool.large = some large) (turns : ℕ) :
    mpAllocLarge malloc memory (turns + 1) pool calls =
      .ok ({ pool with large := large }, some ⟨malloc calls, true⟩) := by
  rw [mpAllocLarge]
  refine (if_neg hsome).trans ?_
  rw [hreuse]
  rfl

theorem mpAllocLarge_node (hsome : malloc calls ≠ 0)
    (hreuse : reuse (malloc calls) 0 pool.large = none) (turns : ℕ) :
    mpAllocLarge malloc memory (turns + 1) pool calls =
      mpAlloc malloc memory turns pool sizeofLarge (calls + 1) >>= attach (malloc calls) := by
  rw [mpAllocLarge]
  refine (if_neg hsome).trans ?_
  rw [hreuse]

/-- When nodes are larger than `max`, the recursion ends with a call of `malloc` that fails. -/
theorem mpAllocLarge_returns (hmax : pool.max < sizeofLarge) (hlarge : pool.large = []) {i : ℕ}
    (hnull : malloc (calls + i) = 0) :
    Returns (fun turns => mpAllocLarge malloc memory turns pool calls) (pool, none) := by
  induction i generalizing calls with
  | zero => exact Returns.of_succ (mpAllocLarge_null hnull)
  | succ i ih =>
    by_cases hfirst : malloc calls = 0
    · exact Returns.of_succ (mpAllocLarge_null hfirst)
    · have hrest : malloc (calls + 1 + i) = 0 := by
        rw [Nat.add_assoc, Nat.add_comm 1]
        exact hnull
      have hreuse : reuse (malloc calls) 0 pool.large = none := by
        rw [hlarge]
        rfl
      have hnode : Returns (fun turns => mpAlloc malloc memory turns pool sizeofLarge (calls + 1))
          (pool, none) := (ih hrest).succ (mpAlloc_large (by omega))
      have hattached : Returns (fun turns =>
          mpAlloc malloc memory turns pool sizeofLarge (calls + 1) >>= attach (malloc calls))
          (pool, none) := hnode.bind (Returns.of_eq fun turns => rfl)
      exact hattached.succ (mpAllocLarge_node hfirst hreuse)

/-- If none fails then it does not end. -/
theorem mpAllocLarge_ne_ok (hmax : pool.max < sizeofLarge) (hlarge : pool.large = [])
    (hmalloc : ∀ i, malloc (calls + i) ≠ 0) (turns : ℕ) (result : Pool × Option Piece) :
    mpAllocLarge malloc memory turns pool calls ≠ .ok result := by
  induction turns using Nat.strongRecOn generalizing calls result with
  | _ turns ih =>
    intro hreturns
    cases turns with
    | zero => exact absurd hreturns nofun
    | succ turns =>
      have hsome : malloc calls ≠ 0 := hmalloc 0
      have hreuse : reuse (malloc calls) 0 pool.large = none := by
        rw [hlarge]
        rfl
      rw [mpAllocLarge_node hsome hreuse] at hreturns
      obtain ⟨out, hnode, -⟩ := bind_eq_ok hreturns
      cases turns with
      | zero => exact absurd hnode nofun
      | succ turns =>
        rw [mpAlloc_large (by omega)] at hnode
        refine ih turns (by omega) (fun i => ?_) out hnode
        rw [Nat.add_assoc]
        exact hmalloc (1 + i)

/-! ## The node of a large allocation -/

/-- An allocation is put into the list if a node for it can be had. -/
theorem Good.attaches (h : Good pool) (hfresh : Memory.Fresh pool memory)
    (hattachable : pool.Attachable malloc calls) : ∃ pool' piece,
      Returns (fun turns => mpAlloc malloc memory turns pool sizeofLarge calls >>= attach p)
        (pool', piece) ∧ Good pool' ∧ ∀ q, piece = some q → q.inside = true := by
  by_cases hmax : sizeofLarge ≤ pool.max
  · rw [Pool.Attachable, if_pos hmax] at hattachable
    obtain ⟨pool', piece, hsmall, hgood, hmax', -, hinside⟩ := h.small mpAlignPtr hfresh hmax
    have hnode : Returns (fun turns => mpAlloc malloc memory turns pool sizeofLarge calls)
        (pool', piece) := hsmall.succ (mpAlloc_small hmax)
    cases piece with
    | none =>
      exact ⟨pool', none, hnode.bind (Returns.of_eq fun turns => rfl), hgood, inside_none⟩
    | some q =>
      have hq := hinside.2 hattachable q rfl
      have hlisted := hgood.setLarge (⟨q.pointer, p⟩ :: pool'.large) fun hlt =>
        absurd (hmax' ▸ hlt) (not_lt_of_ge hmax)
      exact ⟨_, some ⟨p, true⟩, hnode.bind (Returns.of_eq fun turns => if_pos hq), hlisted,
        inside_some rfl⟩
  · rw [Pool.Attachable, if_neg hmax] at hattachable
    obtain ⟨i, hnull⟩ := hattachable
    have hlt : pool.max < sizeofLarge := Nat.lt_of_not_le hmax
    have hnode : Returns (fun turns => mpAlloc malloc memory turns pool sizeofLarge calls)
        (pool, none) := (mpAllocLarge_returns hlt (h.unlisted hlt) hnull).succ (mpAlloc_large hmax)
    exact ⟨pool, none, hnode.bind (Returns.of_eq fun turns => rfl), h, inside_none⟩

theorem Good.not_attaches (h : Good pool) (hfresh : Memory.Fresh pool memory)
    (hattachable : ¬pool.Attachable malloc calls) :
    ¬Halts fun turns => mpAlloc malloc memory turns pool sizeofLarge calls >>= attach p := by
  intro hhalts
  by_cases hmax : sizeofLarge ≤ pool.max
  · rw [Pool.Attachable, if_pos hmax] at hattachable
    obtain ⟨pool', piece, hsmall, -, -, -, hinside⟩ := h.small mpAlignPtr hfresh hmax
    have hnode : Returns (fun turns => mpAlloc malloc memory turns pool sizeofLarge calls)
        (pool', piece) := hsmall.succ (mpAlloc_small hmax)
    obtain ⟨q, rfl, hq⟩ := exists_outside (mt hinside.1 hattachable)
    exact not_halts_error _ ((hhalts.bind_right hnode).congr fun turns => if_neg hq)
  · rw [Pool.Attachable, if_neg hmax, not_exists] at hattachable
    have hlt : pool.max < sizeofLarge := Nat.lt_of_not_le hmax
    obtain ⟨enough, hall⟩ := hhalts.of_bind.pred (mpAlloc_large hmax)
    obtain ⟨out, hout⟩ := hall enough (le_refl _)
    exact mpAllocLarge_ne_ok hlt (h.unlisted hlt) hattachable enough out hout

/-! ## Each call -/

/-- `mp_alloc_large` for a request ends if it needs no node or finds one. -/
theorem Good.allocLarge (h : Good pool) (hfresh : Memory.Fresh pool memory)
    (hallowed : malloc 0 ≠ 0 → reuse (malloc 0) 0 pool.large = none → pool.Attachable malloc 1) :
    ∃ pool' piece, Returns (fun turns => mpAllocLarge malloc memory turns pool 0) (pool', piece) ∧
      Good pool' ∧ ∀ q, piece = some q → q.inside = true := by
  by_cases hfirst : malloc 0 = 0
  · exact ⟨pool, none, Returns.of_succ (mpAllocLarge_null hfirst), h, inside_none⟩
  · cases hreuse : reuse (malloc 0) 0 pool.large with
    | some large =>
      have hlisted := h.setLarge large fun hlt => by
        rw [h.unlisted hlt] at hreuse
        exact absurd hreuse.symm (Option.some_ne_none _)
      exact ⟨_, _, Returns.of_succ (mpAllocLarge_reuse hfirst hreuse), hlisted, inside_some rfl⟩
    | none =>
      obtain ⟨pool', piece, hattached, hgood, hinside⟩ :=
        h.attaches hfresh (p := malloc 0) (hallowed hfirst hreuse)
      exact ⟨pool', piece, hattached.succ (mpAllocLarge_node hfirst hreuse), hgood, hinside⟩

theorem Good.not_allocLarge (h : Good pool) (hfresh : Memory.Fresh pool memory)
    (hallowed : ¬(malloc 0 ≠ 0 → reuse (malloc 0) 0 pool.large = none → pool.Attachable malloc 1)) :
    ¬Halts fun turns => mpAllocLarge malloc memory turns pool 0 := by
  obtain ⟨hfirst, hreuse, hattachable⟩ : malloc 0 ≠ 0 ∧ reuse (malloc 0) 0 pool.large = none ∧
      ¬pool.Attachable malloc 1 := by
    simpa only [Classical.not_imp] using hallowed
  intro hhalts
  exact h.not_attaches hfresh hattachable (hhalts.pred (mpAllocLarge_node hfirst hreuse))

/-- When `mp_alloc` ends. -/
def Pool.Terminates (pool : Pool) (size : ℕ) (malloc : ℕ → ℕ) : Prop :=
  ¬size ≤ pool.max → malloc 0 ≠ 0 → reuse (malloc 0) 0 pool.large = none → pool.Attachable malloc 1

/-- `mp_alloc`. -/
theorem Good.alloc (h : Good pool) (hfresh : Memory.Fresh pool memory)
    (hterminates : pool.Terminates size malloc) :
    ∃ pool' piece, Returns (fun turns => mpAlloc malloc memory turns pool size 0) (pool', piece) ∧
      Good pool' ∧
      ((∀ q, piece = some q → q.inside = true) ↔
        (size ≤ pool.max → pool.Inside mpAlignPtr size)) := by
  by_cases hsize : size ≤ pool.max
  · obtain ⟨pool', piece, hsmall, hgood, -, -, hinside⟩ := h.small mpAlignPtr hfresh hsize
    refine ⟨pool', piece, hsmall.succ (mpAlloc_small hsize), hgood, hinside.trans ?_⟩
    exact (imp_iff_right hsize).symm
  · obtain ⟨pool', piece, hlarge, hgood, hinside⟩ := h.allocLarge hfresh (hterminates hsize)
    exact ⟨pool', piece, hlarge.succ (mpAlloc_large hsize), hgood,
      iff_of_true hinside fun hle => absurd hle hsize⟩

theorem Good.not_alloc (h : Good pool) (hfresh : Memory.Fresh pool memory)
    (hterminates : ¬pool.Terminates size malloc) :
    ¬Halts fun turns => mpAlloc malloc memory turns pool size 0 := by
  obtain ⟨hsize, hlarge⟩ := Classical.not_imp.1 hterminates
  intro hhalts
  exact h.not_allocLarge hfresh hlarge (hhalts.pred (mpAlloc_large hsize))

/-- `mp_nalloc` differs for small pieces, which end in any case. -/
theorem Good.nalloc (h : Good pool) (hfresh : Memory.Fresh pool memory)
    (hterminates : pool.Terminates size malloc) :
    ∃ pool' piece, Returns (fun turns => mpNalloc malloc memory turns pool size) (pool', piece) ∧
      Good pool' := by
  by_cases hsize : size ≤ pool.max
  · obtain ⟨pool', piece, hsmall, hgood, -⟩ := h.small id hfresh hsize
    exact ⟨pool', piece, hsmall.congr fun turns => if_pos hsize, hgood⟩
  · obtain ⟨pool', piece, hlarge, hgood, -⟩ := h.allocLarge hfresh (hterminates hsize)
    exact ⟨pool', piece, hlarge.congr fun turns => if_neg hsize, hgood⟩

theorem Good.not_nalloc (h : Good pool) (hfresh : Memory.Fresh pool memory)
    (hterminates : ¬pool.Terminates size malloc) :
    ¬Halts fun turns => mpNalloc malloc memory turns pool size := by
  obtain ⟨hsize, hlarge⟩ := Classical.not_imp.1 hterminates
  intro hhalts
  exact h.not_allocLarge hfresh hlarge (hhalts.congr fun turns => if_neg hsize)

/-- `mp_calloc` writes the piece. -/
theorem Good.calloc (h : Good pool) (hfresh : Memory.Fresh pool memory)
    (hterminates : pool.Terminates size malloc)
    (hinside : size ≤ pool.max → size = 0 ∨ pool.Inside mpAlignPtr size) :
    ∃ pool' piece, Returns (fun turns => mpCalloc malloc memory turns pool size) (pool', piece) ∧
      Good pool' := by
  obtain ⟨pool', piece, halloc, hgood, hpiece⟩ := h.alloc hfresh hterminates
  refine ⟨pool', piece, halloc.bind (Returns.of_eq fun turns => ?_), hgood⟩
  cases piece with
  | none => rfl
  | some q =>
    refine if_pos ?_
    by_cases hzero : size = 0
    · exact .inl hzero
    · exact .inr (hpiece.2 (fun hsize => (hinside hsize).resolve_left hzero) q rfl)

theorem Good.not_calloc (h : Good pool) (hfresh : Memory.Fresh pool memory)
    (hnot : ¬(pool.Terminates size malloc ∧
      (size ≤ pool.max → size = 0 ∨ pool.Inside mpAlignPtr size))) :
    ¬Halts fun turns => mpCalloc malloc memory turns pool size := by
  intro hhalts
  by_cases hterminates : pool.Terminates size malloc
  · obtain ⟨hsize, hzero, hinside⟩ : size ≤ pool.max ∧ size ≠ 0 ∧ ¬pool.Inside mpAlignPtr size := by
      simpa only [hterminates, true_and, Classical.not_imp, not_or] using hnot
    obtain ⟨pool', piece, halloc, -, hpiece⟩ := h.alloc hfresh hterminates
    obtain ⟨q, rfl, hq⟩ := exists_outside (mt hpiece.1 fun hall => hinside (hall hsize))
    have hwrite : ¬(size = 0 ∨ q.inside = true) := by
      rintro (h0 | hin)
      · exact hzero h0
      · exact hq hin
    exact not_halts_error _ ((hhalts.bind_right halloc).congr fun turns => if_neg hwrite)
  · exact h.not_alloc hfresh hterminates hhalts.of_bind

theorem resetBlocks_node (hnode : pool.nodes p = some node) (hp : p ≠ 0)
    (hrest : Returns (fun turns =>
      resetBlocks turns (pool.write p { node with last := p + sizeofNode }) node.next) pool') :
    Returns (fun turns => resetBlocks turns pool p) pool' := by
  refine hrest.succ fun turns => ?_
  rw [resetBlocks, if_neg hp, read_of hnode, ok_bind]

/-- The loop of `mp_reset_pool` ends with the chain. -/
theorem Good.resetBlocks (h : Good pool) (hchain : Chain pool.next p l)
    (hmem : ∀ b ∈ p :: l, b ∈ pool.blocks) : ∃ pool',
      Returns (fun turns => resetBlocks turns pool p) pool' ∧ Good pool' := by
  induction l generalizing pool p with
  | nil =>
    have hp := hmem p List.mem_cons_self
    obtain ⟨node, hnode⟩ := h.mapped p hp
    have hwritten : Good (pool.write p { node with last := p + sizeofNode }) :=
      h.write hnode rfl rfl
    refine ⟨_, resetBlocks_node hnode (h.nonzero p hp) (Returns.of_succ fun turns => ?_), hwritten⟩
    rw [next_eq_zero hnode hchain, Pointers.resetBlocks]
    exact if_pos rfl
  | cons q l ih =>
    have hp := hmem p List.mem_cons_self
    obtain ⟨node, hnode⟩ := h.mapped p hp
    obtain ⟨rfl, -, hrest⟩ := next_eq_cons hnode hchain
    have hwritten : Good (pool.write p { node with last := p + sizeofNode }) :=
      h.write hnode rfl rfl
    have hlinks : (pool.write p { node with last := p + sizeofNode }).next = pool.next :=
      next_write hnode rfl
    rw [← hlinks] at hrest
    obtain ⟨pool', hreturns, hgood⟩ := ih hwritten hrest
      fun b hb => hmem b (List.mem_cons_of_mem p hb)
    exact ⟨pool', resetBlocks_node hnode (h.nonzero p hp) hreturns, hgood⟩

theorem Good.reset (h : Good pool) : ∃ pool',
    Returns (fun turns => mpResetPool turns pool) pool' ∧ Good pool' := by
  have hcleared := h.setLarge [] fun _ => rfl
  obtain ⟨rest, hblocks, hchain⟩ := hcleared.chain
  exact hcleared.resetBlocks hchain fun b hb => hblocks ▸ hb

/-! ## The runs -/

theorem allowed_alloc_iff {f : Function} : Call.Allowed pool (.alloc f size malloc memory) ↔
    pool.Terminates size malloc ∧
      (f = .mpCalloc → size ≤ pool.max → size = 0 ∨ pool.Inside mpAlignPtr size) := by
  rw [Call.Allowed, Pool.Terminates]
  by_cases hsize : size ≤ pool.max
  · rw [if_pos hsize, and_iff_right fun hlarge => absurd hsize hlarge]
    exact forall_congr' fun _ => (imp_iff_right hsize).symm
  · rw [if_neg hsize, imp_iff_right hsize, and_iff_left fun _ hle => absurd hle hsize]

/-- A call that is allowed returns in a pool that is as it should be. -/
theorem Good.perform (h : Good pool) {call : Call} (henabled : call.Enabled pool)
    (hallowed : call.Allowed pool) : ∃ pool',
      Returns (fun turns => perform turns pool call) pool' ∧ Good pool' := by
  cases call with
  | alloc f size malloc memory =>
    obtain ⟨hterminates, hinside⟩ := allowed_alloc_iff.1 hallowed
    cases f with
    | mpAlloc =>
      obtain ⟨pool', piece, halloc, hgood, -⟩ := h.alloc henabled hterminates
      exact ⟨pool', halloc.bind (Returns.of_eq fun turns => rfl), hgood⟩
    | mpNalloc =>
      obtain ⟨pool', piece, halloc, hgood⟩ := h.nalloc henabled hterminates
      exact ⟨pool', halloc.bind (Returns.of_eq fun turns => rfl), hgood⟩
    | mpCalloc =>
      obtain ⟨pool', piece, halloc, hgood⟩ := h.calloc henabled hterminates (hinside rfl)
      exact ⟨pool', halloc.bind (Returns.of_eq fun turns => rfl), hgood⟩
  | memalign p malloc memory =>
    by_cases hp : p = 0
    · have hnull : Returns (fun turns => mpMemalign p malloc memory turns pool) (pool, none) :=
        Returns.of_eq fun turns => if_pos hp
      exact ⟨pool, hnull.bind (Returns.of_eq fun turns => rfl), h⟩
    · obtain ⟨pool', piece, hattached, hgood, -⟩ := h.attaches henabled (hallowed hp)
      have hmemalign : Returns (fun turns => mpMemalign p malloc memory turns pool)
          (pool', piece) := hattached.congr fun turns => if_neg hp
      exact ⟨pool', hmemalign.bind (Returns.of_eq fun turns => rfl), hgood⟩
  | free p =>
    refine ⟨_, Returns.of_eq fun turns => rfl, h.setLarge _ fun hlt => ?_⟩
    rw [h.unlisted hlt]
    rfl
  | reset => exact h.reset

theorem Good.not_perform (h : Good pool) {call : Call} (henabled : call.Enabled pool)
    (hallowed : ¬call.Allowed pool) (pool' : Pool) :
    ¬Returns (fun turns => Pointers.perform turns pool call) pool' := by
  intro hreturns
  have hhalts := hreturns.halts
  cases call with
  | alloc f size malloc memory =>
    rw [allowed_alloc_iff] at hallowed
    cases f with
    | mpAlloc =>
      exact h.not_alloc henabled (fun hterminates => hallowed ⟨hterminates, nofun⟩) hhalts.of_bind
    | mpNalloc =>
      exact h.not_nalloc henabled (fun hterminates => hallowed ⟨hterminates, nofun⟩) hhalts.of_bind
    | mpCalloc =>
      exact h.not_calloc henabled (fun hboth => hallowed ⟨hboth.1, fun _ => hboth.2⟩)
        hhalts.of_bind
  | memalign p malloc memory =>
    obtain ⟨hp, hattachable⟩ := Classical.not_imp.1 hallowed
    exact h.not_attaches henabled hattachable (hhalts.of_bind.congr fun turns => if_neg hp)
  | free p => exact hallowed trivial
  | reset => exact hallowed trivial

/-- The pool that `mp_create_pool` makes. -/
def created (size : ℕ) (memory : Memory) : Pool where
  max := if size < MP_MAX_ALLOC_FROM_POOL then size else MP_MAX_ALLOC_FROM_POOL
  head := memory.address + sizeofPool
  current := memory.address + sizeofPool
  large := []
  nodes := Function.update (fun _ => none) (memory.address + sizeofPool) (some { memory.content with
    last := memory.address + sizeofPool + sizeofNode
    limit := memory.address + sizeofPool + sizeofNode + size
    failed := 0 })
  blocks := [memory.address + sizeofPool]

theorem mpCreatePool_eq {m : Memory} (hsize : size < 2 ^ 64) : mpCreatePool size (some m) =
    if size + sizeofPool + sizeofNode < 2 ^ 64 then .ok (some (created size m))
    else .error .write := by
  unfold mpCreatePool
  by_cases hfits : size + sizeofPool + sizeofNode < 2 ^ 64
  · have hkept : ¬(size + sizeofPool + sizeofNode) % 2 ^ 64 < sizeofPool + sizeofNode := by
      rw [Nat.mod_eq_of_lt hfits]
      omega
    rw [if_pos hfits]
    exact if_neg hkept
  · have hwrapped : (size + sizeofPool + sizeofNode) % 2 ^ 64 < sizeofPool + sizeofNode := by
      unfold sizeofPool sizeofNode at *
      omega
    rw [if_neg hfits]
    exact if_pos hwrapped

theorem created_nodes (size : ℕ) (m : Memory) :
    (created size m).nodes (created size m).head = some { m.content with
      last := m.address + sizeofPool + sizeofNode
      limit := m.address + sizeofPool + sizeofNode + size
      failed := 0 } := by
  show Function.update (fun _ => none) (m.address + sizeofPool) _ (m.address + sizeofPool) = _
  rw [Function.update_self]

/-- With a fresh `next` that is NULL the pool is as it should be. -/
theorem Good.created {m : Memory} (hnext : m.content.next = 0) (size : ℕ) :
    Good (created size m) := by
  have hmax : (Pointers.created size m).max ≤ size := by
    show (if size < MP_MAX_ALLOC_FROM_POOL then size else MP_MAX_ALLOC_FROM_POOL) ≤ size
    split
    · exact le_refl _
    · omega
  refine ⟨⟨[], rfl, ?_⟩, fun b hb => ?_, List.nodup_singleton _, fun b hb => ?_,
    List.mem_singleton_self _, fun _ => rfl, _, size, created_nodes size m, rfl, hmax⟩
  · exact (next_of (created_nodes size m)).trans (if_pos hnext)
  · rw [List.mem_singleton.1 hb]
    exact ⟨_, created_nodes size m⟩
  · rw [List.mem_singleton.1 hb]
    exact Nat.succ_ne_zero _

theorem traverse_ne_nil (hp : p ≠ 0) (turns : ℕ) : traverse pool turns p ≠ .ok [] := by
  intro hempty
  cases turns with
  | zero => exact absurd hempty nofun
  | succ turns =>
    rw [traverse, if_neg hp] at hempty
    obtain ⟨node, -, hrest⟩ := bind_eq_ok hempty
    obtain ⟨rest, -, hcons⟩ := bind_eq_ok hrest
    exact absurd (Except.ok.inj hcons) (List.cons_ne_nil _ _)

/-- With any other the traversal does not end behind the first block. -/
theorem not_traversed_created {m : Memory} (hnext : m.content.next ≠ 0) (size : ℕ) :
    ¬Traversed (created size m) := by
  rintro ⟨enough, hall⟩
  have hlong := hall (enough + 1) (by omega)
  have hhead : (created size m).head ≠ 0 := Nat.succ_ne_zero _
  change traverse (created size m) (enough + 1) (created size m).head = .ok _ at hlong
  rw [traverse, if_neg hhead, read_of (created_nodes size m), ok_bind] at hlong
  obtain ⟨rest, hrest, hcons⟩ := bind_eq_ok hlong
  have hempty : rest = [] := (List.cons.inj (Except.ok.inj hcons)).2
  rw [hempty] at hrest
  exact traverse_ne_nil hnext enough hrest

/-- All calls on a new pool return, and the traversal of the blocks ends each time behind those that
the pool has obtained, exactly if the size of the first block does not wrap, the memory of its node
has NULL for `next`, and each call is one that is allowed: whenever a node is needed for the list of
large allocations, the nodes fit into the pool, or `malloc` fails, and no piece that the pool writes
overshoots its block. -/
theorem pool_completes_iff (size : ℕ) (memory : Memory) (calls : List Call) (hsize : size < 2 ^ 64)
    (henabled : ∀ pool, mpCreatePool size (some memory) = .ok (some pool) →
      Arrives perform Call.Enabled pool calls) :
    (∃ pool, mpCreatePool size (some memory) = .ok (some pool) ∧
        Completes perform Traversed pool calls) ↔
      size + sizeofPool + sizeofNode < 2 ^ 64 ∧ memory.content.next = 0 ∧
        ∀ pool, mpCreatePool size (some memory) = .ok (some pool) →
          Arrives perform Call.Allowed pool calls := by
  rw [mpCreatePool_eq hsize] at henabled ⊢
  by_cases hfits : size + sizeofPool + sizeofNode < 2 ^ 64
  · rw [if_pos hfits] at henabled ⊢
    have hcalls := henabled (created size memory) rfl
    by_cases hnext : memory.content.next = 0
    · have hiff := completes_iff_arrives (fun pool => Good.traversed)
        (fun pool call h => h.perform) (fun pool call h => h.not_perform)
        (Good.created hnext size) hcalls
      constructor
      · rintro ⟨pool, heq, hcompletes⟩
        obtain rfl := Option.some.inj (Except.ok.inj heq)
        refine ⟨hfits, hnext, fun pool heq' => ?_⟩
        obtain rfl := Option.some.inj (Except.ok.inj heq')
        exact hiff.1 hcompletes
      · rintro ⟨-, -, hallowed⟩
        exact ⟨created size memory, rfl, hiff.2 (hallowed _ rfl)⟩
    · refine iff_of_false ?_ fun h => hnext h.2.1
      rintro ⟨pool, heq, hcompletes⟩
      obtain rfl := Option.some.inj (Except.ok.inj heq)
      exact not_traversed_created hnext size hcompletes.first
  · rw [if_neg hfits]
    refine iff_of_false ?_ fun h => hfits h.1
    rintro ⟨pool, herror, -⟩
    exact absurd herror nofun

theorem pool_completes_large :
    (∃ pool, mpCreatePool 4096 (some ⟨4096, ⟨7, 7, 0, 7⟩⟩) = .ok (some pool) ∧
        Completes perform Traversed pool [.alloc .mpNalloc 8192 (fun _ => 65536) none]) ↔
      4096 + sizeofPool + sizeofNode < 2 ^ 64 ∧ 0 = 0 ∧
        ∀ pool, mpCreatePool 4096 (some ⟨4096, ⟨7, 7, 0, 7⟩⟩) = .ok (some pool) →
          Arrives perform Call.Allowed pool [.alloc .mpNalloc 8192 (fun _ => 65536) none] :=
  pool_completes_iff 4096 ⟨4096, ⟨7, 7, 0, 7⟩⟩ [.alloc .mpNalloc 8192 (fun _ => 65536) none]
    (by decide) fun _ _ => ⟨nofun, fun _ _ => trivial⟩

/-- Memory that is not zero: the first traversal follows a pointer that was never set. -/
theorem pool_untraversed : ¬∃ pool,
    mpCreatePool 4096 (some ⟨4096, ⟨7, 7, 7, 7⟩⟩) = .ok (some pool) ∧
      Completes perform Traversed pool [] := by
  have hcreated := mpCreatePool_eq (m := ⟨4096, ⟨7, 7, 7, 7⟩⟩) (show 4096 < 2 ^ 64 by decide)
  rw [if_pos (by decide)] at hcreated
  rintro ⟨pool, heq, hcompletes⟩
  obtain rfl := Option.some.inj (Except.ok.inj (hcreated.symm.trans heq))
  exact not_traversed_created (Nat.succ_ne_zero _) 4096 hcompletes

end CServer.MmPool.Pointers
