import CServer.Memory.Termination

/-!
# The lists behind the pointers

The pool of `MmPool` has its blocks in a list, and the pool of `Pointers` has the pointers of the C
code. `Pool.toList` reads the list off the pointers. Each call on the pointers gives the pool and the
pointer that the call on the list gives, and so the runs of both agree.
-/
namespace CServer.MmPool.Pointers

variable {align : ℕ → ℕ} {malloc : ℕ → ℕ} {size p b : ℕ} {pool pool' : Pool} {node : Node}
  {l : List ℕ}

/-- A node with its address and that of its block, as the list has it. -/
def Pool.listed (pool : Pool) (p : ℕ) : MmPool.Node :=
  let start := if p = pool.head then p - sizeofPool else p
  match pool.nodes p with
  | some node => ⟨start, p, node.last, node.limit, node.failed⟩
  | none => ⟨start, p, 0, 0, 0⟩

/-- The pool with its blocks in a list. -/
def Pool.toList (pool : Pool) : MmPool.Pool where
  max := pool.max
  blocks := pool.blocks.map pool.listed
  current := pool.blocks.idxOf pool.current
  large := pool.large

theorem listed_of (h : pool.nodes p = some node) : pool.listed p =
    ⟨if p = pool.head then p - sizeofPool else p, p, node.last, node.limit, node.failed⟩ := by
  rw [Pool.listed, h]

theorem listed_write_self (pool : Pool) (p : ℕ) (node : Node) : (pool.write p node).listed p =
    ⟨if p = pool.head then p - sizeofPool else p, p, node.last, node.limit, node.failed⟩ :=
  listed_of (Function.update_self _ _ _)

theorem listed_write_of_ne (hb : b ≠ p) (node : Node) :
    (pool.write p node).listed b = pool.listed b := by
  have hsame : (pool.write p node).nodes b = pool.nodes b := Function.update_of_ne hb _ _
  rw [Pool.listed, hsame]
  rfl

theorem map_listed_write (hp : p ∉ l) (node : Node) :
    l.map (pool.write p node).listed = l.map pool.listed := by
  refine List.map_congr_left fun b hb => listed_write_of_ne ?_ node
  rintro rfl
  exact hp hb

/-- What is left from an element on starts at its place. -/
theorem dropWhile_eq_drop (l : List ℕ) (a : ℕ) : l.dropWhile (· ≠ a) = l.drop (l.idxOf a) := by
  have hsame : (fun b => !decide (b ≠ a)) = (· == a) := by
    funext b
    by_cases hb : b = a <;> simp [hb]
  rw [List.dropWhile_eq_drop_findIdx_not, hsame]
  rfl

theorem toList_drop (pool : Pool) :
    pool.toList.blocks.drop pool.toList.current = pool.tried.map pool.listed := by
  rw [Pool.tried, dropWhile_eq_drop, List.map_drop]
  rfl

/-! ## The search -/

theorem taker_mem (h : pool.taker align size l = some (b, node)) : b ∈ l := by
  obtain ⟨p, hp, hsome⟩ := List.exists_of_findSome?_eq_some h
  split at hsome
  · rw [Option.ite_none_right_eq_some] at hsome
    obtain ⟨rfl, -⟩ := Prod.mk.inj (Option.some.inj hsome.2)
    exact hp
  · exact absurd hsome.symm (Option.some_ne_none _)

/-- The search in the list finds the node that takes the piece. -/
theorem findRoom_map (hmapped : pool.Mapped l) (hnodup : l.Nodup) :
    findRoom align size (l.map pool.listed) = (pool.taker align size l).map fun found =>
      (l.map (pool.write found.1 { found.2 with last := align found.2.last + size }).listed,
        align found.2.last) := by
  induction l with
  | nil => rfl
  | cons p l ih =>
    obtain ⟨node, hnode⟩ := hmapped p List.mem_cons_self
    obtain ⟨hp, hrest⟩ := List.nodup_cons.1 hnodup
    rw [List.map_cons, taker_cons hnode, findRoom, listed_of hnode]
    by_cases hroom : size ≤ difference node.limit (align node.last)
    · rw [if_pos hroom, if_pos hroom, Option.map_some, List.map_cons, map_listed_write hp,
        listed_write_self]
    · rw [if_neg hroom, if_neg hroom, ih hmapped.tail hrest, Option.map_map]
      cases htaker : pool.taker align size l with
      | none => rfl
      | some found =>
        have hne : p ≠ found.1 := by
          rintro rfl
          exact hp (taker_mem htaker)
        rw [Option.map_some, Option.map_some, List.map_cons, listed_write_of_ne hne,
          listed_of hnode]
        rfl

/-- The blocks before those that are tried. -/
theorem map_listed_take (hnodup : pool.blocks.Nodup) (hb : b ∈ pool.tried) (node : Node) :
    (pool.blocks.take pool.toList.current).map (pool.write b node).listed =
      (pool.blocks.take pool.toList.current).map pool.listed := by
  have hdisjoint := List.disjoint_take_drop hnodup (le_refl pool.toList.current)
  rw [Pool.tried, dropWhile_eq_drop] at hb
  exact map_listed_write (fun htake => hdisjoint htake hb) node

/-- The blocks are those before and those that are tried. -/
theorem take_append_tried (pool : Pool) :
    pool.blocks.take pool.toList.current ++ pool.tried = pool.blocks := by
  rw [Pool.tried, dropWhile_eq_drop]
  exact List.take_append_drop _ _

/-- A block of those that are tried takes the piece. -/
theorem allocSmall_toList_some (h : Good pool) {m : ℕ}
    (htaker : pool.taker align size pool.tried = some (b, node)) :
    MmPool.allocSmall align pool.toList size m =
      ((pool.write b { node with last := align node.last + size }).toList, align node.last) := by
  obtain ⟨rest, htried, -, hmem, -⟩ := h.tried
  have hmapped : pool.Mapped pool.tried := by
    rw [htried]
    exact fun b hb => h.mapped b (hmem b hb)
  have hnodup : pool.tried.Nodup := h.nodup.sublist (List.dropWhile_sublist _)
  obtain ⟨written, hwritten⟩ : ∃ written,
      pool.write b { node with last := align node.last + size } = written := ⟨_, rfl⟩
  have hroom : findRoom align size (pool.tried.map pool.listed) =
      some (pool.tried.map written.listed, align node.last) := by
    rw [findRoom_map hmapped hnodup, htaker, Option.map_some, hwritten]
  have hblocks : pool.blocks.map written.listed =
      pool.toList.blocks.take pool.toList.current ++ pool.tried.map written.listed := by
    have htake := map_listed_take h.nodup (taker_mem htaker)
      { node with last := align node.last + size }
    rw [hwritten] at htake
    conv_lhs => rw [← take_append_tried pool, List.map_append, htake, List.map_take]
    rfl
  rw [MmPool.allocSmall, toList_drop, hroom, hwritten]
  dsimp only
  rw [← hblocks]
  subst hwritten
  rfl

/-! ## The failures -/

/-- The list counts the failures that the pointers count. -/
theorem countFailed_map {blocks : List ℕ} {current i c : ℕ} (hchain : Linked.Chain pool.next p l)
    (hmapped : pool.Mapped (p :: l)) (hnodup : (p :: l).Nodup) (hdrop : blocks.drop i = p :: l)
    (hcurrent : blocks[c]? = some current) :
    ∃ pool' current', Returns (fun turns => countFailed turns pool p current)
        (pool', l.getLastD p, current') ∧ SameLinks pool pool' ∧
      (p :: l).map pool'.listed = (countFailures i ((p :: l).map pool.listed) c).1 ∧
      (∀ b, b ∉ p :: l → pool'.nodes b = pool.nodes b) ∧
      blocks[(countFailures i ((p :: l).map pool.listed) c).2]? = some current' := by
  induction l generalizing pool p current i c with
  | nil =>
    obtain ⟨node, hnode⟩ := hmapped p List.mem_cons_self
    refine ⟨pool, current, Returns.of_succ fun turns => ?_, .refl pool, rfl, fun _ _ => rfl,
      hcurrent⟩
    rw [countFailed, read_of hnode, ok_bind]
    exact if_pos (next_eq_zero hnode hchain)
  | cons q l ih =>
    obtain ⟨node, hnode⟩ := hmapped p List.mem_cons_self
    obtain ⟨rfl, hsome, hrest⟩ := next_eq_cons hnode hchain
    obtain ⟨hp, hnodup'⟩ := List.nodup_cons.1 hnodup
    have hsame := SameLinks.write hnode ((node.failed + 1) % 2 ^ 64)
    obtain ⟨counted, hcounted⟩ : ∃ counted,
        pool.write p { node with failed := (node.failed + 1) % 2 ^ 64 } = counted := ⟨_, rfl⟩
    have hdrop' : blocks.drop (i + 1) = node.next :: l := by
      rw [← List.tail_drop, hdrop]
      rfl
    have hcurrent' : blocks[if 4 < node.failed then i + 1 else c]? =
        some (if 4 < node.failed then node.next else current) := by
      split
      · rw [← List.head?_drop, hdrop']
        rfl
      · exact hcurrent
    rw [hcounted] at hsame
    rw [← hsame.next] at hrest
    obtain ⟨pool', current', hreturns, hlinks, hmap, hothers, hindex⟩ :=
      ih hrest (hsame.mapped hmapped.tail) hnodup' hdrop' hcurrent'
    have htail : (node.next :: l).map counted.listed = (node.next :: l).map pool.listed := by
      rw [← hcounted]
      exact map_listed_write hp _
    have hlisted : pool.listed p = _ := listed_of hnode
    have hhead : pool'.listed p = { pool.listed p with failed := (node.failed + 1) % 2 ^ 64 } := by
      have hwritten : pool'.nodes p = some { node with failed := (node.failed + 1) % 2 ^ 64 } := by
        rw [hothers p hp, ← hcounted]
        exact Function.update_self _ _ _
      rw [listed_of hwritten, hlisted, hlinks.others, ← hcounted]
      rfl
    rw [htail] at hmap hindex
    refine ⟨pool', current', ?_, hsame.trans hlinks, ?_, fun b hb => ?_, ?_⟩
    · rw [List.getLastD_cons]
      refine hreturns.succ fun turns => ?_
      rw [countFailed, read_of hnode, ok_bind, ← hcounted]
      exact if_neg hsome
    · rw [List.map_cons, hhead, hmap]
      simp only [List.map_cons, hlisted, countFailures]
    · have hne : b ≠ p := by
        rintro rfl
        exact hb List.mem_cons_self
      rw [hothers b fun hmem => hb (List.mem_cons_of_mem p hmem), ← hcounted]
      exact Function.update_of_ne hne _ _
    · simp only [List.map_cons, hlisted, countFailures] at hindex ⊢
      exact hindex

/-! ## A new block -/

theorem listed_congr (hhead : pool'.head = pool.head) (hnodes : pool'.nodes p = pool.nodes p) :
    pool'.listed p = pool.listed p := by
  rw [Pool.listed, hhead, hnodes]
  rfl

/-- The link of a node is not in the list. -/
theorem hang_listed {m last current : ℕ} (hnode : pool.nodes last = some node) :
    (pool.hang m last node current).listed = pool.listed := by
  funext b
  by_cases hb : b = last
  · subst hb
    have hlinked : (pool.hang m b node current).nodes b = some { node with next := m } :=
      Function.update_self _ _ _
    rw [listed_of hnode, listed_of hlinked]
    rfl
  · exact listed_congr rfl (Function.update_of_ne hb _ _)

theorem toList_psize (h : Good pool) {first : Node} (hfirst : pool.nodes pool.head = some first) :
    pool.toList.psize = difference first.limit pool.head := by
  obtain ⟨rest, hblocks, -⟩ := h.chain
  rw [MmPool.Pool.psize, Pool.toList, hblocks, List.map_cons, listed_of hfirst]

/-- The failures that the list counts in the nodes that are tried. -/
def Pool.failures (pool : Pool) : List MmPool.Node × ℕ :=
  countFailures pool.toList.current (pool.tried.map pool.listed) pool.toList.current

/-- What the loop over the failures leaves of a pool with a new block. -/
structure Counted (pool : Pool) (m : Memory) (size psize : ℕ) (after : Pool) (current : ℕ) :
    Prop where
  links : SameLinks (pool.withBlock m size psize) after
  tried : pool.tried.map after.listed = pool.failures.1
  others : ∀ b, b ∉ pool.tried → after.nodes b = (pool.withBlock m size psize).nodes b
  current : pool.blocks[pool.failures.2]? = some current

theorem tried_mem (hb : b ∈ pool.tried) : b ∈ pool.blocks := (List.dropWhile_sublist _).mem hb

/-- The failures of the list are those of the pointers. -/
theorem counted_toList (h : Good pool) {m : Memory} (hnew : m.address ∉ pool.blocks)
    (size psize : ℕ) : ∃ after current,
      Returns (fun turns =>
          countFailed turns (pool.withBlock m size psize) pool.current pool.current)
        (after, pool.blocks.tail.getLastD pool.head, current) ∧
      Counted pool m size psize after current := by
  obtain ⟨rest, htried, hchain, hmem, hlast⟩ := h.tried
  have hne : ∀ b ∈ pool.current :: rest, b ≠ m.address := fun b hb heq => hnew (heq ▸ hmem b hb)
  have hdrop : pool.blocks.drop (pool.blocks.idxOf pool.current) = pool.current :: rest := by
    rw [← dropWhile_eq_drop]
    exact htried
  have hindex : pool.blocks[pool.blocks.idxOf pool.current]? = some pool.current := by
    rw [← List.head?_drop, hdrop]
    rfl
  have hchain' : Linked.Chain (pool.withBlock m size psize).next pool.current rest :=
    hchain.congr fun b hb => withBlock_next_of_ne (hne b hb)
  have hmapped : (pool.withBlock m size psize).Mapped (pool.current :: rest) := by
    intro b hb
    rw [withBlock_nodes_of_ne (hne b hb)]
    exact h.mapped b (hmem b hb)
  have hnodup : (pool.current :: rest).Nodup := by
    rw [← htried]
    exact h.nodup.sublist (List.dropWhile_sublist _)
  obtain ⟨after, current, hcounted, hlinks, hmap, hothers, hcurrent⟩ :=
    countFailed_map hchain' hmapped hnodup hdrop hindex
  have hsame : (pool.current :: rest).map (pool.withBlock m size psize).listed =
      (pool.current :: rest).map pool.listed :=
    List.map_congr_left fun b hb => listed_congr rfl (withBlock_nodes_of_ne (hne b hb))
  rw [hsame, ← htried] at hmap hcurrent
  rw [← htried] at hothers
  rw [hlast] at hcounted
  exact ⟨after, current, hcounted, hlinks, hmap, hothers, hcurrent⟩

section Counted

variable {m : Memory} {psize current : ℕ} {after : Pool}

/-- The blocks before those that are tried are as they were. -/
theorem Counted.before (h : Counted pool m size psize after current) (hgood : Good pool)
    (hnew : m.address ∉ pool.blocks) : (pool.blocks.take pool.toList.current).map after.listed =
      pool.toList.blocks.take pool.toList.current := by
  have hdisjoint := List.disjoint_take_drop hgood.nodup (le_refl pool.toList.current)
  have hhead : after.head = pool.head := by
    rw [h.links.others]
    rfl
  rw [Pool.toList, ← List.map_take]
  refine List.map_congr_left fun b hb => listed_congr hhead ?_
  have hne : b ≠ m.address := fun heq => hnew (heq ▸ List.mem_of_mem_take hb)
  have htried : b ∉ pool.tried := by
    rw [Pool.tried, dropWhile_eq_drop]
    exact fun hmem => hdisjoint hb hmem
  rw [h.others b htried, withBlock_nodes_of_ne hne]

/-- The new node. -/
theorem Counted.new (h : Counted pool m size psize after current) (hgood : Good pool)
    (hnew : m.address ∉ pool.blocks) : after.listed m.address =
      ⟨m.address, m.address, mpAlignPtr (m.address + sizeofNode) + size, m.address + psize, 0⟩ := by
  obtain ⟨tail, hblocks, -⟩ := hgood.chain
  have hhead : m.address ≠ after.head := by
    rw [h.links.others]
    rintro hsame
    rw [hsame, hblocks] at hnew
    exact hnew List.mem_cons_self
  have hwritten := h.others m.address fun hmem => hnew (tried_mem hmem)
  rw [listed_of (hwritten.trans (Function.update_self _ _ _)), if_neg hhead]

/-- The current node is at the place that the list has counted. -/
theorem Counted.index (h : Counted pool m size psize after current) (hgood : Good pool) :
    pool.failures.2 = (pool.blocks ++ [m.address]).idxOf current := by
  obtain ⟨hlt, hget⟩ := List.getElem?_eq_some_iff.1 h.current
  rw [List.idxOf_append_of_mem (List.mem_of_getElem? h.current), ← hget]
  exact (hgood.nodup.idxOf_getElem _ hlt).symm

/-- The list with the block that is hung behind the last node. -/
theorem Counted.toList {last : ℕ} (h : Counted pool m size psize after current)
    (hgood : Good pool) (hnew : m.address ∉ pool.blocks) (hnode : after.nodes last = some node) :
    (after.hang m.address last node current).toList =
      { pool.toList with
        blocks := pool.toList.blocks.take pool.toList.current ++ pool.failures.1 ++
          [⟨m.address, m.address, mpAlignPtr (m.address + sizeofNode) + size,
            m.address + psize, 0⟩]
        current := pool.failures.2 } := by
  have hmember : current ∈ pool.blocks := List.mem_of_getElem? h.current
  have hothers : after.max = pool.max ∧ after.large = pool.large ∧
      after.blocks = pool.blocks ++ [m.address] := by
    rw [h.links.others]
    exact ⟨rfl, rfl, rfl⟩
  obtain ⟨hmax, hlarge, hblocks⟩ := hothers
  have hlist : (pool.blocks ++ [m.address]).map after.listed =
      pool.toList.blocks.take pool.toList.current ++ pool.failures.1 ++
        [⟨m.address, m.address, mpAlignPtr (m.address + sizeofNode) + size,
          m.address + psize, 0⟩] := by
    conv_lhs => rw [List.map_append, ← take_append_tried pool, List.map_append,
      h.before hgood hnew, h.tried, List.map_singleton, h.new hgood hnew]
  have hcurrent : (after.hang m.address last node current).current = current :=
    if_pos (hgood.nonzero current hmember)
  rw [Pool.toList, hang_listed hnode, hcurrent, h.index hgood, ← hlist, ← hblocks]
  show (⟨after.max, _, _, after.large⟩ : MmPool.Pool) = _
  rw [hmax, hlarge]
  rfl

end Counted

/-- A new block of the list is that of the pointers. -/
theorem block_toList (h : Good pool) {m : Memory} (hfresh : Memory.Fresh pool (some m)) (size : ℕ) :
    ∃ pool' piece, Returns (fun turns => mpAllocBlock turns pool size (some m))
        (pool', some piece) ∧
      MmPool.mpAllocBlock pool.toList m.address size = (pool'.toList, piece.pointer) := by
  obtain ⟨-, -, hnew⟩ := hfresh m rfl
  obtain ⟨first, -, hfirst, -, -⟩ := h.room
  obtain ⟨after, current, hreturns, hcounted⟩ :=
    counted_toList h hnew size (difference first.limit pool.head)
  have hmapped : (pool.withBlock m size (difference first.limit pool.head)).Mapped pool.blocks := by
    intro b hb
    rw [withBlock_nodes_of_ne fun heq => hnew (heq ▸ hb)]
    exact h.mapped b hb
  obtain ⟨node, hnode⟩ := hcounted.links.mapped hmapped _ h.last_mem
  refine ⟨_, _, block_returns hfirst hreturns hnode, ?_⟩
  rw [hcounted.toList h hnew hnode, MmPool.mpAllocBlock, toList_drop, toList_psize h hfirst]
  rfl

/-! ## The calls -/

/-- A small piece of the list is that of the pointers. -/
theorem allocSmall_toList (h : Good pool) {m : Memory} (hfresh : Memory.Fresh pool (some m))
    (align : ℕ → ℕ) (size : ℕ) :
    ∃ pool' piece, Returns (fun turns => allocSmall align turns pool size (some m))
        (pool', some piece) ∧
      MmPool.allocSmall align pool.toList size m.address = (pool'.toList, piece.pointer) := by
  obtain ⟨rest, htried, hchain, hmem, -⟩ := h.tried
  have hmapped : pool.Mapped (pool.current :: rest) := fun b hb => h.mapped b (hmem b hb)
  have hsearch := search_returns align size hchain hmapped
  rw [← htried] at hsearch hmapped
  cases htaker : pool.taker align size pool.tried with
  | some found =>
    obtain ⟨b, node⟩ := found
    rw [htaker] at hsearch
    exact ⟨_, _, hsearch.bind (Returns.of_eq fun turns => rfl), allocSmall_toList_some h htaker⟩
  | none =>
    rw [htaker] at hsearch
    obtain ⟨pool', piece, hblock, hlist⟩ := block_toList h hfresh size
    refine ⟨pool', piece, hsearch.bind hblock, ?_⟩
    have hnone : findRoom align size (pool.tried.map pool.listed) = none := by
      rw [findRoom_map hmapped (h.nodup.sublist (List.dropWhile_sublist _)), htaker]
      rfl
    rw [MmPool.allocSmall, toList_drop, hnone]
    exact hlist

/-- So is a large allocation, in a pool that has room for the node. -/
theorem allocLarge_toList (h : Good pool) {m : Memory} (hfresh : Memory.Fresh pool (some m))
    (hmax : sizeofLarge ≤ pool.max) (hfirst : malloc 0 ≠ 0)
    (hinside : reuse (malloc 0) 0 pool.large = none → pool.Inside mpAlignPtr sizeofLarge) :
    ∃ pool', Returns (fun turns => mpAllocLarge malloc (some m) turns pool 0)
        (pool', some ⟨malloc 0, true⟩) ∧
      MmPool.mpAllocLarge pool.toList (malloc 0) m.address = pool'.toList := by
  have hlarge : pool.toList.large = pool.large := rfl
  cases hreuse : reuse (malloc 0) 0 pool.large with
  | some large =>
    refine ⟨_, Returns.of_succ (mpAllocLarge_reuse hfirst hreuse), ?_⟩
    rw [MmPool.mpAllocLarge, hlarge, hreuse]
    rfl
  | none =>
    obtain ⟨pool', piece, hsmall, hlist⟩ := allocSmall_toList h hfresh mpAlignPtr sizeofLarge
    obtain ⟨after, other, hsmall', -, -, -, hpiece⟩ := h.small mpAlignPtr hfresh hmax
    obtain ⟨rfl, rfl⟩ := Prod.mk.inj (hsmall'.unique hsmall)
    have hnode : Returns (fun turns => mpAlloc malloc (some m) turns pool sizeofLarge 1)
        (after, some piece) := hsmall.succ (mpAlloc_small hmax)
    have hwritten := hpiece.2 (hinside hreuse) piece rfl
    have hattached : Returns (fun turns => mpAlloc malloc (some m) turns pool sizeofLarge 1 >>=
        attach (malloc 0)) _ := hnode.bind (Returns.of_eq fun turns => if_pos hwritten)
    refine ⟨_, hattached.succ (mpAllocLarge_node hfirst hreuse), ?_⟩
    rw [MmPool.mpAllocLarge, hlarge, hreuse]
    dsimp only
    rw [hlist]
    rfl

/-- In a pool with `max` large enough the node has its bytes when `mp_alloc` ends. -/
theorem Pool.Terminates.inside (h : pool.Terminates size malloc) (hmax : sizeofLarge ≤ pool.max)
    (hsize : ¬size ≤ pool.max) (hfirst : malloc 0 ≠ 0)
    (hreuse : reuse (malloc 0) 0 pool.large = none) : pool.Inside mpAlignPtr sizeofLarge := by
  have hattachable := h hsize hfirst hreuse
  rwa [Pool.Attachable, if_pos hmax] at hattachable

/-- `mp_alloc` on the pointers is `mp_alloc` on the list. -/
theorem mpAlloc_toList (h : Good pool) {m : Memory} (hfresh : Memory.Fresh pool (some m))
    (hmax : sizeofLarge ≤ pool.max) (hterminates : pool.Terminates size malloc)
    (hfirst : pool.max < size → malloc 0 ≠ 0) :
    ∃ pool' piece, Returns (fun turns => mpAlloc malloc (some m) turns pool size 0)
        (pool', some piece) ∧
      MmPool.mpAlloc pool.toList size (malloc 0) m.address = (pool'.toList, piece.pointer) := by
  have hsame : pool.toList.max = pool.max := rfl
  rw [MmPool.mpAlloc, allocWith, hsame]
  by_cases hsize : size ≤ pool.max
  · obtain ⟨pool', piece, hsmall, hlist⟩ := allocSmall_toList h hfresh mpAlignPtr size
    refine ⟨pool', piece, hsmall.succ (mpAlloc_small hsize), ?_⟩
    rw [if_pos hsize]
    exact hlist
  · have hsome := hfirst (Nat.lt_of_not_le hsize)
    obtain ⟨pool', hlarge, hlist⟩ := allocLarge_toList h hfresh hmax hsome
      (hterminates.inside hmax hsize hsome)
    refine ⟨pool', _, hlarge.succ (mpAlloc_large hsize), ?_⟩
    rw [if_neg hsize, hlist]

/-- And `mp_nalloc` on the pointers is `mp_nalloc` on the list. -/
theorem mpNalloc_toList (h : Good pool) {m : Memory} (hfresh : Memory.Fresh pool (some m))
    (hmax : sizeofLarge ≤ pool.max) (hterminates : pool.Terminates size malloc)
    (hfirst : pool.max < size → malloc 0 ≠ 0) :
    ∃ pool' piece, Returns (fun turns => mpNalloc malloc (some m) turns pool size)
        (pool', some piece) ∧
      MmPool.mpNalloc pool.toList size (malloc 0) m.address = (pool'.toList, piece.pointer) := by
  have hsame : pool.toList.max = pool.max := rfl
  rw [MmPool.mpNalloc, allocWith, hsame]
  by_cases hsize : size ≤ pool.max
  · obtain ⟨pool', piece, hsmall, hlist⟩ := allocSmall_toList h hfresh id size
    refine ⟨pool', piece, hsmall.congr fun turns => if_pos hsize, ?_⟩
    rw [if_pos hsize]
    exact hlist
  · have hsome := hfirst (Nat.lt_of_not_le hsize)
    obtain ⟨pool', hlarge, hlist⟩ := allocLarge_toList h hfresh hmax hsome
      (hterminates.inside hmax hsize hsome)
    refine ⟨pool', _, hlarge.congr fun turns => if_neg hsize, ?_⟩
    rw [if_neg hsize, hlist]

/-- What `mp_calloc` returns is from `mp_alloc`. -/
theorem mpAlloc_of_mpCalloc {memory : Option Memory} {out : Pool × Option Piece}
    (h : Returns (fun turns => mpCalloc malloc memory turns pool size) out) :
    Returns (fun turns => mpAlloc malloc memory turns pool size 0) out := by
  obtain ⟨enough, h⟩ := h
  refine ⟨enough, fun turns hturns => ?_⟩
  obtain ⟨first, hfirst, hrest⟩ := bind_eq_ok (h turns hturns)
  refine hfirst.trans ?_
  cases hpiece : first.2 with
  | none =>
    rw [hpiece] at hrest
    exact hrest
  | some piece =>
    rw [hpiece] at hrest
    dsimp only at hrest
    split at hrest
    · exact hrest
    · cases hrest

/-! ## The runs -/

/-- The call of an action: `malloc` gives the address `p`, and `posix_memalign` the block at `m`. -/
def Call.ofAction (content : Node) : Action → Call
  | .alloc f size p m => .alloc f size (fun _ => p) (some ⟨m, content⟩)
  | .free p => .free p

/-- The call is one that returns, and `malloc` does not fail in it. -/
structure Supplied (content : Node) (pool : Pool) (a : Action) : Prop where
  enabled : (Call.ofAction content a).Enabled pool
  allowed : (Call.ofAction content a).Allowed pool
  given : ∀ f size p m, a = .alloc f size p m → pool.max < size → p ≠ 0

/-- The pool of the list is that of the pointers. -/
structure Shows (pool : Pool) (s : System) : Prop where
  good : Good pool
  room : sizeofLarge ≤ pool.max
  list : pool.toList = s.pool

theorem allocSmall_max (pool : MmPool.Pool) (align : ℕ → ℕ) (size m : ℕ) :
    (MmPool.allocSmall align pool size m).1.max = pool.max := by
  unfold MmPool.allocSmall
  split <;> rfl

theorem allocWith_max (pool : MmPool.Pool) (align : ℕ → ℕ) (size p m : ℕ) :
    (allocWith align pool size p m).1.max = pool.max := by
  unfold allocWith
  split
  · exact allocSmall_max pool align size m
  · unfold MmPool.mpAllocLarge
    split
    · rfl
    · exact allocSmall_max pool mpAlignPtr sizeofLarge m

theorem perform_alloc_pool (s : System) (f : Function) (size p m : ℕ) :
    (MmPool.perform s (.alloc f size p m)).pool = (f.run s.pool size p m).1 := by
  dsimp only [MmPool.perform]
  split <;> rfl

/-- The functions on the pointers are those on the list. -/
theorem alloc_toList (h : Good pool) {f : Function} {m : Memory} (hmax : sizeofLarge ≤ pool.max)
    (henabled : Call.Enabled pool (.alloc f size malloc (some m)))
    (hallowed : Call.Allowed pool (.alloc f size malloc (some m)))
    (hfirst : pool.max < size → malloc 0 ≠ 0) :
    ∃ pool', Returns (fun turns => perform turns pool (.alloc f size malloc (some m))) pool' ∧
      pool'.toList = (f.run pool.toList size (malloc 0) m.address).1 := by
  obtain ⟨hterminates, hinside⟩ := allowed_alloc_iff.1 hallowed
  obtain ⟨pool', piece, halloc, hlist⟩ := mpAlloc_toList h henabled hmax hterminates hfirst
  cases f with
  | mpAlloc =>
    exact ⟨pool', halloc.bind (Returns.of_eq fun turns => rfl), (Prod.mk.inj hlist).1.symm⟩
  | mpNalloc =>
    obtain ⟨pool', piece, hnalloc, hlist⟩ := mpNalloc_toList h henabled hmax hterminates hfirst
    exact ⟨pool', hnalloc.bind (Returns.of_eq fun turns => rfl), (Prod.mk.inj hlist).1.symm⟩
  | mpCalloc =>
    obtain ⟨after, other, hcalloc, -⟩ := h.calloc henabled hterminates (hinside rfl)
    obtain ⟨rfl, -⟩ := Prod.mk.inj ((mpAlloc_of_mpCalloc hcalloc).unique halloc)
    exact ⟨after, hcalloc.bind (Returns.of_eq fun turns => rfl), (Prod.mk.inj hlist).1.symm⟩

/-- A call returns, and the list shows it. -/
theorem Shows.perform {s : System} {content : Node} {a : Action} (h : Shows pool s)
    (hsupplied : Supplied content pool a) : ∃ pool',
      Returns (fun turns => Pointers.perform turns pool (.ofAction content a)) pool' ∧
        Shows pool' (MmPool.perform s a) := by
  obtain ⟨pool', hreturns, hgood⟩ := h.good.perform hsupplied.enabled hsupplied.allowed
  cases a with
  | alloc f size p m =>
    obtain ⟨after, hafter, hlist⟩ := alloc_toList h.good h.room hsupplied.enabled
      hsupplied.allowed (hsupplied.given f size p m rfl)
    obtain rfl := hafter.unique hreturns
    refine ⟨after, hreturns, hgood, ?_, ?_⟩
    · have hmax : after.max = pool.max := by
        have hrun := allocWith_max pool.toList f.align size p m
        rw [← f.run_eq, ← hlist] at hrun
        exact hrun
      rw [hmax]
      exact h.room
    · rw [perform_alloc_pool, ← h.list]
      exact hlist
  | free p =>
    have hfree : Returns (fun turns => Pointers.perform turns pool (.free p))
        { pool with large := (mpFree p pool.large).getD pool.large } :=
      Returns.of_eq fun turns => rfl
    obtain rfl := hfree.unique hreturns
    refine ⟨_, hreturns, hgood, h.room, ?_⟩
    have hlarge : s.pool.large = pool.large := by
      rw [← h.list]
      rfl
    unfold MmPool.perform
    dsimp only
    rw [hlarge]
    cases mpFree p pool.large with
    | none => exact h.list
    | some large =>
      dsimp only
      rw [← h.list]
      rfl

/-- A new pool of the list is that of the pointers. -/
theorem created_toList (size : ℕ) (m : Memory) :
    (created size m).toList = MmPool.mpCreatePool size m.address := by
  have hhead : (created size m).head = m.address + sizeofPool := rfl
  have hlisted : (created size m).listed (m.address + sizeofPool) =
      ⟨m.address, m.address + sizeofPool, m.address + sizeofPool + sizeofNode,
        m.address + sizeofPool + sizeofNode + size, 0⟩ := by
    rw [← hhead, listed_of (created_nodes size m), if_pos rfl, hhead, Nat.add_sub_cancel]
  have hindex : (created size m).blocks.idxOf (created size m).current = 0 := List.idxOf_cons_self
  rw [Pool.toList, hindex, MmPool.mpCreatePool, ← hlisted]
  rfl

/-- The traversal meets the nodes of the list. -/
theorem toList_addresses (pool : Pool) :
    pool.toList.blocks.map MmPool.Node.address = pool.blocks := by
  have haddress : ∀ p, (pool.listed p).address = p := by
    intro p
    cases hnode : pool.nodes p with
    | none => rw [Pool.listed, hnode]
    | some node => rw [listed_of hnode]
  rw [Pool.toList, List.map_map]
  exact List.map_id'' haddress pool.blocks

/-- The calls of a run on a new pool return, and the traversal of the blocks then ends behind the
nodes of the list, which are those that the same run on the list gives. -/
theorem run_toList {m : Memory} {content : Node} {actions : List Action}
    (hnext : m.content.next = 0) (hsize : sizeofLarge ≤ size)
    (harrives : Arrives (fun turns pool a => perform turns pool (.ofAction content a))
      (Supplied content) (created size m) actions) :
    ∃ pool', Ends (fun turns pool a => perform turns pool (.ofAction content a)) (created size m)
        actions pool' ∧
      pool'.toList = (Runs.finalState MmPool.perform (create size m.address) actions).pool ∧
      Returns (fun turns => traverse pool' turns pool'.head)
        (pool'.toList.blocks.map MmPool.Node.address) := by
  have hshows : Shows (created size m) (create size m.address) :=
    ⟨Good.created hnext size, (mpCreatePool_max (p := m.address) hsize).1, created_toList size m⟩
  obtain ⟨pool', hends, hshows'⟩ := harrives.simulates
    (fun pool s a hshow hsupplied => Shows.perform hshow hsupplied) hshows
  refine ⟨pool', hends, hshows'.list, ?_⟩
  rw [toList_addresses]
  exact hshows'.good.traversed

end CServer.MmPool.Pointers
