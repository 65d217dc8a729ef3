import CServer.Memory.Accounting

/-!
# Each block is released once

Between the calls the ledger holds the blocks of the pool and the allocations in the list. A search that
overshoots a block fills it beyond its end, and a reset leaves the blocks before `current` out of all
later searches.
-/
namespace CServer.MmPool

open CServer.Arena

variable {align : ℕ → ℕ} {size m p : ℕ} {pool : Pool} {blocks : List Node} {large large' : List Large}
  {s : Account} {mallocs extra : List ℕ}

/-! ## The blocks -/

theorem starts_eq (pool : Pool) : pool.starts = pool.areas.map Area.start := by
  rw [Pool.starts, Pool.areas, List.map_map]
  rfl

/-- A block that is overshot takes the piece and is filled beyond its end. -/
theorem findRoom_overshoot (halign : ∀ p, align p ≤ p + MP_ALIGNMENT) (hsize : size ≤ MP_MAX_ALLOC_FROM_POOL)
    (hfilled : ∀ node ∈ blocks, node.last ≤ node.limit) (hnot : ¬NoOvershoot align size blocks) :
    ∃ rest p, findRoom align size blocks = some (rest, p) ∧ ∃ node ∈ rest, node.limit < node.last := by
  induction blocks with
  | nil => exact absurd trivial hnot
  | cons node rest ih =>
    by_cases hle : align node.last ≤ node.limit
    · obtain ⟨hroom, hrest⟩ : node.limit - align node.last < size ∧ ¬NoOvershoot align size rest := by
        rw [NoOvershoot] at hnot
        tauto
      obtain ⟨found, p, hfound, inner, hinner, hpast⟩ :=
        ih (fun inner hinner => hfilled inner (List.mem_cons_of_mem node hinner)) hrest
      refine ⟨node :: found, p, ?_, inner, List.mem_cons_of_mem node hinner, hpast⟩
      rw [findRoom, difference, if_pos hle, if_neg (by omega), hfound]
      rfl
    · have hlast := hfilled node List.mem_cons_self
      have hpiece := halign node.last
      refine ⟨{ node with last := align node.last + size } :: rest, align node.last, ?_, _,
        List.mem_cons_self, ?_⟩
      · rw [findRoom, difference, if_neg hle, if_pos]
        unfold MP_MAX_ALLOC_FROM_POOL MP_ALIGNMENT at *
        omega
      · show node.limit < align node.last + size
        omega

theorem Function.align_le (f : Function) (p : ℕ) : f.align p ≤ p + MP_ALIGNMENT := by
  cases f <;> simp only [Function.align, mpAlignPtr, MP_ALIGNMENT, id] <;> omega

/-! ## The list of large allocations -/

theorem allocations_cons (l : Large) (large : List Large) :
    allocations (l :: large) = if l.alloc = 0 then allocations large else l.alloc :: allocations large := by
  rw [allocations, List.map_cons, List.filter_cons]
  by_cases hzero : l.alloc = 0 <;> simp [hzero, allocations]

theorem reuse_allocations {n : ℕ} (hp : p ≠ 0) (h : reuse p n large = some large') :
    (allocations large').Perm (p :: allocations large) := by
  induction large generalizing n large' with
  | nil => exact absurd h (by simp [reuse])
  | cons l rest ih =>
    rw [reuse] at h
    split at h
    · rename_i hzero
      cases Option.some.inj h
      rw [allocations_cons, if_neg hp, allocations_cons, if_pos hzero]
    · rename_i hsome
      split at h
      · exact absurd h (by simp)
      · obtain ⟨found, hfound, rfl⟩ := Option.map_eq_some_iff.mp h
        rw [allocations_cons, if_neg hsome, allocations_cons, if_neg hsome]
        exact ((ih hfound).cons l.alloc).trans (List.Perm.swap _ _ _)

theorem mpFree_allocations (h : mpFree p large = some large') :
    (allocations large).Perm (if p = 0 then allocations large' else p :: allocations large') := by
  induction large generalizing large' with
  | nil => exact absurd h (by simp [mpFree])
  | cons l rest ih =>
    rw [mpFree] at h
    split at h
    · rename_i hsame
      cases Option.some.inj h
      rw [allocations_cons, allocations_cons, ← hsame, if_pos (show (0 : ℕ) = 0 from rfl)]
    · obtain ⟨found, hfound, rfl⟩ := Option.map_eq_some_iff.mp h
      have hrest := ih hfound
      rw [allocations_cons, allocations_cons]
      by_cases hzero : l.alloc = 0
      · rw [if_pos hzero, if_pos hzero]
        exact hrest
      · rw [if_neg hzero, if_neg hzero]
        by_cases hp : p = 0
        · rw [if_pos hp] at hrest ⊢
          exact hrest.cons l.alloc
        · rw [if_neg hp] at hrest ⊢
          exact (hrest.cons l.alloc).trans (List.Perm.swap _ _ _)

/-! ## The invariant -/

/-- The blocks are filled from the front and have room for the largest pieces, and the ledger holds them,
the allocations in the list and some that are not there yet. -/
structure Account.Ordered (extra : List ℕ) (s : Account) : Prop where
  areas : ∀ a ∈ s.pool.areas, a.last ≤ a.limit ∧ a.first + s.pool.max ≤ a.limit
  nonempty : s.pool.blocks ≠ []
  small : s.pool.max < sizeofLarge → s.pool.large = []
  bound : s.pool.max ≤ MP_MAX_ALLOC_FROM_POOL
  held : s.ledger.Holds (extra ++ (s.pool.starts ++ allocations s.pool.large))

theorem Account.Ordered.filled (h : s.Ordered extra) : ∀ node ∈ s.pool.blocks, node.last ≤ node.limit :=
  fun _ hnode => (h.areas _ (List.mem_map_of_mem hnode)).1

theorem Account.Ordered.psize (h : s.Ordered extra) : sizeofNode + s.pool.max ≤ s.pool.psize := by
  have hsome := h.nonempty
  have hareas := h.areas
  rw [Pool.psize]
  cases hblocks : s.pool.blocks with
  | nil => exact absurd hblocks hsome
  | cons node rest =>
    have hnode : node.address + sizeofNode + s.pool.max ≤ node.limit :=
      (hareas node.area (by simp [Pool.areas, hblocks])).2
    simp only [difference]
    rw [if_pos (by omega)]
    omega

theorem small_max (s : Account) (align : ℕ → ℕ) (size m : ℕ) :
    (s.small align size m).1.pool.max = s.pool.max ∧
      (s.small align size m).1.pool.large = s.pool.large ∧
      (s.small align size m).1.reset = s.reset := by
  rw [Account.small]
  split
  · split <;> exact ⟨rfl, rfl, rfl⟩
  · rename_i hfind
    cases hfound : findRoom align size (s.pool.blocks.drop s.pool.current) with
    | none => exact absurd hfound hfind
    | some found => simp [allocSmall, hfound]

/-- Without a piece nothing has changed. -/
theorem small_none (h : (s.small align size m).2 = none) : (s.small align size m).1 = s := by
  rw [Account.small] at h ⊢
  split
  · rename_i hfind
    split
    · rfl
    · rename_i hm
      rw [if_pos hfind, if_neg hm] at h
      exact absurd h (by simp)
  · rename_i hfind
    rw [if_neg hfind] at h
    exact absurd h (by simp)

/-- A piece is taken from a block that has room, or from a new one. -/
theorem Account.Ordered.takeSmall (h : s.Ordered extra) (hsize : size ≤ s.pool.max) (hm : MP_ALIGNMENT ∣ m)
    (hfits : NoOvershoot align size (s.pool.blocks.drop s.pool.current)) :
    (s.small align size m).1.Ordered extra := by
  obtain ⟨hmax, hlarge, -⟩ := small_max s align size m
  have hpsize := h.psize
  rw [Account.small] at hmax hlarge ⊢
  split
  · rename_i hfind
    split
    · exact h
    · rename_i hzero
      rw [if_pos hfind, if_neg hzero] at hmax hlarge
      have hareas := allocBlock_areas s.pool hm size
      refine ⟨?_, ?_, ?_, ?_, ?_⟩
      · intro a ha
        rw [hmax]
        change a ∈ (mpAllocBlock s.pool m size).1.areas at ha
        rw [hareas, List.mem_append, List.mem_singleton] at ha
        obtain hold | rfl := ha
        · exact h.areas a hold
        · simp only
          omega
      · show (mpAllocBlock s.pool m size).1.blocks ≠ []
        simp [mpAllocBlock]
      · rw [hmax, hlarge]
        exact h.small
      · rw [hmax]
        exact h.bound
      · rw [hlarge]
        refine (h.held.acquire m).of_perm ?_
        rw [starts_eq, starts_eq]
        show List.Perm _ (extra ++ ((mpAllocBlock s.pool m size).1.areas.map Area.start ++ _))
        rw [hareas, List.map_append, List.append_assoc]
        exact List.perm_middle.symm.trans (List.perm_middle.symm.append_left extra)
  · rename_i hfind
    rw [if_neg hfind] at hmax hlarge
    cases hfound : findRoom align size (s.pool.blocks.drop s.pool.current) with
    | none => exact absurd hfound hfind
    | some found =>
      obtain ⟨rest, p⟩ := found
      have hpool : (allocSmall align s.pool size m).1 =
          { s.pool with blocks := s.pool.blocks.take s.pool.current ++ rest } := by
        rw [allocSmall, hfound]
      obtain ⟨before, node, after, hareas, hareas', -, hlimit⟩ := findRoom_areas hfound hfits
      have hareas'' : (allocSmall align s.pool size m).1.areas =
          before ++ { node.area with last := p + size } :: after := by
        rw [hpool]
        exact hareas'
      have hall := h.areas
      rw [hareas] at hall
      refine ⟨?_, ?_, ?_, ?_, ?_⟩
      · intro a ha
        rw [hmax]
        change a ∈ (allocSmall align s.pool size m).1.areas at ha
        rw [hareas'', List.mem_append, List.mem_cons] at ha
        obtain hold | rfl | hold := ha
        · exact hall a (List.mem_append_left _ hold)
        · exact ⟨hlimit, (hall node.area (by simp)).2⟩
        · exact hall a (by simp [hold])
      · show (allocSmall align s.pool size m).1.blocks ≠ []
        rw [hpool]
        intro hnone
        have hnone' : s.pool.blocks.take s.pool.current ++ rest = [] := hnone
        rw [hnone'] at hareas'
        exact absurd hareas' (by simp)
      · rw [hmax, hlarge]
        exact h.small
      · rw [hmax]
        exact h.bound
      · rw [hlarge]
        show s.ledger.Holds (extra ++ ((allocSmall align s.pool size m).1.starts ++ _))
        have hstarts : (allocSmall align s.pool size m).1.starts = s.pool.starts := by
          rw [starts_eq, starts_eq, hareas'', hareas]
          simp
        rw [hstarts]
        exact h.held

/-- A search that overshoots fills a block beyond its end. -/
theorem Account.Ordered.overshoot (h : s.Ordered extra) (hsize : size ≤ s.pool.max)
    (halign : ∀ p, align p ≤ p + MP_ALIGNMENT)
    (hnot : ¬NoOvershoot align size (s.pool.blocks.drop s.pool.current)) (m : ℕ) :
    (s.small align size m).2 ≠ none ∧
      ∃ node ∈ (s.small align size m).1.pool.blocks, node.limit < node.last := by
  obtain ⟨rest, p, hfound, node, hnode, hpast⟩ := findRoom_overshoot halign (le_trans hsize h.bound)
    (fun node hnode => h.filled node (List.mem_of_mem_drop hnode)) hnot
  rw [Account.small, if_neg (by simp [hfound])]
  refine ⟨by simp, node, ?_, hpast⟩
  show node ∈ (allocSmall align s.pool size m).1.blocks
  rw [allocSmall, hfound]
  exact List.mem_append_right _ hnode

/-! ## Large allocations -/

theorem Account.Ordered.acquire (h : s.Ordered extra) (p : ℕ) : (s.acquire p).Ordered (p :: extra) :=
  ⟨h.areas, h.nonempty, h.small, h.bound, h.held.acquire p⟩

theorem Account.Ordered.giveBack (h : s.Ordered (p :: extra)) :
    Account.Ordered extra { s with ledger := s.ledger.release p } :=
  ⟨h.areas, h.nonempty, h.small, h.bound, h.held.release⟩

/-- An allocation comes into the list. -/
theorem Account.Ordered.withLarge (h : s.Ordered (p :: extra)) (hroom : sizeofLarge ≤ s.pool.max)
    (hlarge : (allocations large').Perm (p :: allocations s.pool.large)) :
    Account.Ordered extra { s with pool := { s.pool with large := large' } } := by
  refine ⟨h.areas, h.nonempty, fun hsmall => ?_, h.bound, h.held.of_perm ?_⟩
  · exact absurd hroom (not_le.mpr hsmall)
  · refine List.perm_middle.symm.trans (List.Perm.append_left extra ?_)
    exact List.perm_middle.symm.trans (hlarge.symm.append_left _)

theorem Account.Ordered.attach {out : Account × Option ℕ} (h : out.1.Ordered (p :: extra)) (hp : p ≠ 0)
    (hroom : out.2 ≠ none → sizeofLarge ≤ out.1.pool.max) : (attach p out).1.Ordered extra := by
  rw [MmPool.attach]
  split
  · exact h.giveBack
  · rename_i node hnode
    refine h.withLarge (hroom (by simp [hnode])) ?_
    rw [allocations_cons, if_neg hp]

theorem allocLarge_cons (s : Account) (m p : ℕ) (mallocs : List ℕ) :
    s.allocLarge m (p :: mallocs) =
      if p = 0 then (s, none)
      else match reuse p 0 s.pool.large with
      | some large => ({ s.acquire p with pool := { s.pool with large := large } }, some p)
      | none =>
        MmPool.attach p
          (if sizeofLarge ≤ s.pool.max then (s.acquire p).small mpAlignPtr sizeofLarge m
          else (s.acquire p).allocLarge m mallocs) := rfl

/-- Without a pointer nothing has changed. -/
theorem allocLarge_none (h : (s.allocLarge m mallocs).2 = none) : (s.allocLarge m mallocs).1 = s := by
  induction mallocs generalizing s with
  | nil => rfl
  | cons p mallocs ih =>
    rw [allocLarge_cons] at h ⊢
    by_cases hp : p = 0
    · rw [if_pos hp]
    · rw [if_neg hp] at h ⊢
      cases hreuse : reuse p 0 s.pool.large with
      | some large => simp [hreuse] at h
      | none =>
        simp only [hreuse] at h ⊢
        generalize hout : (if sizeofLarge ≤ s.pool.max then (s.acquire p).small mpAlignPtr sizeofLarge m
          else Account.allocLarge m mallocs (s.acquire p)) = out at h ⊢
        have hnone : out.2 = none := by
          cases hnode : out.2 with
          | none => rfl
          | some node => simp [attach, hnode] at h
        have hsame : out.1 = s.acquire p := by
          subst hout
          split
          · rename_i hroom
            rw [if_pos hroom] at hnone
            exact small_none hnone
          · rename_i hroom
            rw [if_neg hroom] at hnone
            exact ih hnone
        simp only [attach, hnone, hsame]
        rw [Account.acquire, Ledger.release_acquire]

/-- A pool that is too small for a node has no large allocations. -/
theorem allocLarge_small (hsmall : s.pool.max < sizeofLarge) (hlarge : s.pool.large = []) :
    (s.allocLarge m mallocs).2 = none := by
  induction mallocs generalizing s with
  | nil => rfl
  | cons p mallocs ih =>
    rw [allocLarge_cons]
    split
    · rfl
    · have hnone : ((s.acquire p).allocLarge m mallocs).2 = none := ih hsmall hlarge
      simp only [hlarge, reuse, if_neg (not_le.mpr hsmall), attach, hnone]

/-- What decides in a call for a large allocation. -/
theorem Account.Ordered.allocLarge_eq (h : s.Ordered extra) (m : ℕ) (mallocs : List ℕ) :
    s.allocLarge m mallocs = (s, none) ∨
    ∃ p rest, mallocs = p :: rest ∧ p ≠ 0 ∧ sizeofLarge ≤ s.pool.max ∧
      ((∃ large, reuse p 0 s.pool.large = some large ∧
          s.allocLarge m mallocs = ({ s.acquire p with pool := { s.pool with large := large } }, some p)) ∨
        reuse p 0 s.pool.large = none ∧
          s.allocLarge m mallocs = MmPool.attach p ((s.acquire p).small mpAlignPtr sizeofLarge m)) := by
  by_cases hroom : sizeofLarge ≤ s.pool.max
  · cases mallocs with
    | nil => exact .inl rfl
    | cons p rest =>
      by_cases hp : p = 0
      · refine .inl ?_
        rw [allocLarge_cons, if_pos hp]
      · refine .inr ⟨p, rest, rfl, hp, hroom, ?_⟩
        rw [allocLarge_cons, if_neg hp]
        cases hreuse : reuse p 0 s.pool.large with
        | some large => exact .inl ⟨large, rfl, rfl⟩
        | none =>
          refine .inr ⟨rfl, ?_⟩
          simp only [if_pos hroom]
  · have hsmall : (s.allocLarge m mallocs).2 = none :=
      allocLarge_small (not_le.mp hroom) (h.small (not_le.mp hroom))
    exact .inl (Prod.ext (allocLarge_none hsmall) hsmall)

theorem Account.Ordered.takeLarge (h : s.Ordered extra) (hm : MP_ALIGNMENT ∣ m)
    (hfits : ∀ p, mallocs.head? = some p → reuse p 0 s.pool.large = none → NodeFits s p) :
    (s.allocLarge m mallocs).1.Ordered extra := by
  obtain heq | ⟨p, rest, rfl, hp, hroom, ⟨large, hreuse, heq⟩ | ⟨hreuse, heq⟩⟩ :=
    h.allocLarge_eq m mallocs
  · rw [heq]
    exact h
  · rw [heq]
    exact (h.acquire p).withLarge hroom (reuse_allocations hp hreuse)
  · rw [heq]
    have hpiece := (h.acquire p).takeSmall hroom hm (hfits p rfl hreuse hp hroom)
    refine hpiece.attach hp fun _ => ?_
    rw [(small_max (s.acquire p) _ _ _).1]
    exact hroom

/-- A node that overshoots a block fills it beyond its end. -/
theorem Account.Ordered.overshootLarge (h : s.Ordered extra) {rest : List ℕ} (hp : p ≠ 0)
    (hreuse : reuse p 0 s.pool.large = none) (hnot : ¬s.pool.Fits mpAlignPtr sizeofLarge) :
    ∃ node ∈ (s.allocLarge m (p :: rest)).1.pool.blocks, node.limit < node.last := by
  obtain ⟨hroom, hovershoot⟩ : sizeofLarge ≤ s.pool.max ∧
      ¬NoOvershoot mpAlignPtr sizeofLarge (s.pool.blocks.drop s.pool.current) := by
    rw [Pool.Fits] at hnot
    tauto
  obtain ⟨hsome, node, hnode, hpast⟩ := (h.acquire p).overshoot hroom Function.mpAlloc.align_le hovershoot m
  refine ⟨node, ?_, hpast⟩
  rw [allocLarge_cons, if_neg hp]
  simp only [hreuse, if_pos hroom]
  cases hout : ((s.acquire p).small mpAlignPtr sizeofLarge m).2 with
  | none => exact absurd hout hsome
  | some piece =>
    simp only [MmPool.attach, hout]
    exact hnode

/-! ## The calls -/

theorem acquire_alloc_of_le (hroom : sizeofLarge ≤ s.pool.max) :
    (s.acquire p).alloc align sizeofLarge m mallocs = (s.acquire p).small align sizeofLarge m := if_pos hroom

theorem acquire_alloc_of_not_le (hroom : ¬sizeofLarge ≤ s.pool.max) :
    (s.acquire p).alloc align sizeofLarge m mallocs = (s.acquire p).allocLarge m mallocs := if_neg hroom

theorem Account.Ordered.alloc (h : s.Ordered []) (f : Function) (hm : MP_ALIGNMENT ∣ m)
    (hkept : Kept s (.alloc f size m mallocs)) : (s.alloc f.align size m mallocs).1.Ordered [] := by
  rw [Account.alloc]
  rw [Kept] at hkept
  split
  · rename_i hsize
    rw [if_pos hsize] at hkept
    exact h.takeSmall hsize hm (hkept hsize)
  · rename_i hsize
    rw [if_neg hsize] at hkept
    exact h.takeLarge hm hkept

theorem Account.Ordered.memalign (h : s.Ordered []) (hm : MP_ALIGNMENT ∣ m) (hkept : NodeFits s p) :
    (s.memalign p m mallocs).Ordered [] := by
  rw [Account.memalign]
  split
  · exact h
  · rename_i hp
    by_cases hroom : sizeofLarge ≤ s.pool.max
    · have hpiece : ((s.acquire p).alloc mpAlignPtr sizeofLarge m mallocs).1.Ordered [p] := by
        rw [acquire_alloc_of_le hroom]
        exact (h.acquire p).takeSmall hroom hm (hkept hp hroom)
      refine hpiece.attach hp fun _ => ?_
      rw [acquire_alloc_of_le hroom, (small_max (s.acquire p) _ _ _).1]
      exact hroom
    · have hsmall := h.small (not_le.mp hroom)
      have hnone : ((s.acquire p).alloc mpAlignPtr sizeofLarge m mallocs).2 = none := by
        rw [acquire_alloc_of_not_le hroom]
        exact allocLarge_small (not_le.mp hroom) hsmall
      have hsame : ((s.acquire p).alloc mpAlignPtr sizeofLarge m mallocs).1 = s.acquire p := by
        rw [acquire_alloc_of_not_le hroom] at hnone ⊢
        exact allocLarge_none hnone
      refine Account.Ordered.attach ?_ hp fun hsome => absurd hnone hsome
      rw [hsame]
      exact h.acquire p

theorem Account.Ordered.free (h : s.Ordered []) (p : ℕ) : (s.free p).Ordered [] := by
  rw [Account.free]
  cases hfree : mpFree p s.pool.large with
  | none => exact h
  | some large =>
    have hperm := mpFree_allocations hfree
    have hsmall : s.pool.max < sizeofLarge → large = [] := by
      intro hsmall
      rw [h.small hsmall, mpFree] at hfree
      exact absurd hfree (by simp)
    refine ⟨h.areas, h.nonempty, hsmall, h.bound, ?_⟩
    by_cases hp : p = 0
    · rw [if_pos hp] at hperm
      simp only [if_pos hp]
      exact h.held.of_perm (hperm.append_left _)
    · rw [if_neg hp] at hperm
      simp only [if_neg hp]
      have hheld := h.held.of_perm ((hperm.append_left s.pool.starts).trans List.perm_middle)
      exact hheld.release

/-- Without the allocations in the list the ledger holds the blocks. -/
theorem Account.Ordered.releaseLarge (h : s.Ordered []) :
    (s.ledger.releaseAll (allocations s.pool.large)).Holds s.pool.starts := by
  have hswap : (s.pool.starts ++ allocations s.pool.large).Perm
      (allocations s.pool.large ++ s.pool.starts) := List.perm_append_comm
  exact (h.held.of_perm hswap).releaseAll

/-- The blocks of a pool that was reset. -/
theorem resetPool_areas (s : Account) : s.resetPool.pool.areas =
    s.pool.areas.map fun a => { a with last := a.first } := by
  rw [Account.resetPool, Pool.areas, Pool.areas, List.map_map, List.map_map]
  rfl

theorem Account.Ordered.resetPool (h : s.Ordered []) : s.resetPool.Ordered [] := by
  have hareas := resetPool_areas s
  refine ⟨?_, ?_, fun _ => rfl, h.bound, ?_⟩
  · intro a ha
    rw [hareas] at ha
    obtain ⟨b, hb, rfl⟩ := List.mem_map.mp ha
    have hroom := (h.areas b hb).2
    exact ⟨le_trans (Nat.le_add_right _ _) hroom, hroom⟩
  · show (s.pool.blocks.map _) ≠ []
    simpa using h.nonempty
  · have hstarts : s.resetPool.pool.starts = s.pool.starts := by
      rw [starts_eq, hareas, starts_eq, List.map_map]
      rfl
    have hheld := h.releaseLarge
    rw [← hstarts] at hheld
    exact hheld.of_perm (by simp [Account.resetPool, allocations])

/-- A reset offers all blocks again exactly if the first one is `current`. -/
theorem Account.Ordered.offered_iff (h : s.Ordered []) :
    s.resetPool.pool.Offered ↔ s.pool.current = 0 := by
  constructor
  · intro hoffered
    obtain ⟨node, rest, hblocks⟩ := List.exists_cons_of_ne_nil h.nonempty
    have hfirst := hoffered 0 { node with last := node.address + sizeofNode } (by
      simp [Account.resetPool, hblocks])
    exact Nat.le_zero.mp hfirst.1
  · intro hcurrent i node hnode
    refine ⟨by rw [show s.resetPool.pool.current = 0 from hcurrent]; exact Nat.zero_le i, ?_⟩
    obtain ⟨before, -, rfl⟩ := List.mem_map.mp (List.mem_of_getElem? hnode)
    rfl

/-- Destroying the pool settles the ledger. -/
theorem Account.Ordered.destroyPool (h : s.Ordered []) : s.destroyPool = ⟨[], false⟩ := by
  have hstarts : s.pool.starts.Perm (s.pool.starts.tail ++ s.pool.starts.take 1) := by
    cases s.pool.starts with
    | nil => exact List.Perm.refl _
    | cons first rest => exact (List.perm_append_singleton first rest).symm
  exact (h.releaseLarge.of_perm hstarts).settled

/-! ## Runs -/

/-- What holds between the calls. -/
structure Account.Between (s : Account) : Prop where
  ordered : s.Ordered []
  offered : s.reset = true → s.pool.Offered

theorem Account.Between.accounted (h : s.Between) : Accounted s :=
  ⟨h.ordered.destroyPool, h.ordered.filled, h.offered⟩

theorem Account.Between.of_ordered (h : s.Ordered []) : Account.Between { s with reset := false } :=
  ⟨⟨h.areas, h.nonempty, h.small, h.bound, h.held⟩, fun hreset => absurd hreset (by simp)⟩

theorem Account.Between.step (h : s.Between) (c : Call) (haligned : c.Aligned) (hkept : Kept s c) :
    (s.step c).Between := by
  cases c with
  | alloc f size m mallocs => exact .of_ordered (h.ordered.alloc f haligned hkept)
  | memalign p m mallocs => exact .of_ordered (h.ordered.memalign haligned hkept)
  | free p => exact .of_ordered (h.ordered.free p)
  | reset => exact ⟨h.ordered.resetPool, fun _ => h.ordered.offered_iff.mpr hkept⟩

/-- A block that is filled beyond its end shows in the state. -/
theorem not_accounted {t : Account} (hpast : ∃ node ∈ t.pool.blocks, node.limit < node.last) (b : Bool) :
    ¬Accounted { t with reset := b } := by
  intro haccounted
  obtain ⟨node, hnode, hlt⟩ := hpast
  exact absurd (haccounted.filled node hnode) (not_le.mpr hlt)

theorem Account.Between.step_not_kept (h : s.Between) (c : Call) (hkept : ¬Kept s c) :
    ¬Accounted (s.step c) := by
  cases c with
  | alloc f size m mallocs =>
    refine not_accounted ?_ false
    rw [Account.alloc]
    rw [Kept] at hkept
    by_cases hsize : size ≤ s.pool.max
    · rw [if_pos hsize] at hkept ⊢
      rw [Pool.Fits, Classical.not_imp] at hkept
      exact (h.ordered.overshoot hsize f.align_le hkept.2 m).2
    · rw [if_neg hsize] at hkept ⊢
      obtain ⟨p, hhead, hreuse, hp, hnot⟩ : ∃ p, mallocs.head? = some p ∧
          reuse p 0 s.pool.large = none ∧ p ≠ 0 ∧ ¬s.pool.Fits mpAlignPtr sizeofLarge := by
        simpa only [NodeFits, not_forall, exists_prop] using hkept
      cases mallocs with
      | nil => exact absurd hhead (by simp)
      | cons first rest =>
        obtain rfl : first = p := by simpa using hhead
        exact h.ordered.overshootLarge hp hreuse hnot
  | memalign p m mallocs =>
    refine not_accounted ?_ false
    obtain ⟨hp, hroom, hnot⟩ : p ≠ 0 ∧ sizeofLarge ≤ s.pool.max ∧
        ¬NoOvershoot mpAlignPtr sizeofLarge (s.pool.blocks.drop s.pool.current) := by
      rw [Kept, NodeFits, Pool.Fits] at hkept
      tauto
    obtain ⟨hsome, node, hnode, hpast⟩ :=
      (h.ordered.acquire p).overshoot hroom Function.mpAlloc.align_le hnot m
    refine ⟨node, ?_, hpast⟩
    rw [Account.memalign, if_neg hp, acquire_alloc_of_le hroom]
    cases hout : ((s.acquire p).small mpAlignPtr sizeofLarge m).2 with
    | none => exact absurd hout hsome
    | some piece =>
      simp only [attach, hout]
      exact hnode
  | free p => exact absurd trivial hkept
  | reset => exact fun haccounted => hkept (h.ordered.offered_iff.mp (haccounted.offered rfl))

theorem between_create (size p : ℕ) : (createAccount size p).Between := by
  have hmax : (mpCreatePool size p).max ≤ size ∧ (mpCreatePool size p).max ≤ MP_MAX_ALLOC_FROM_POOL := by
    unfold mpCreatePool MP_MAX_ALLOC_FROM_POOL
    simp only
    split <;> omega
  refine ⟨⟨?_, by simp [createAccount, mpCreatePool], fun _ => rfl, hmax.2, ⟨List.Perm.refl _, rfl⟩⟩,
    fun hreset => absurd hreset (by simp [createAccount])⟩
  intro a ha
  obtain rfl : a = ⟨p, p + sizeofPool + sizeofNode, p + sizeofPool + sizeofNode,
      p + sizeofPool + sizeofNode + size⟩ := List.mem_singleton.mp ha
  exact ⟨Nat.le_add_right _ _, Nat.add_le_add_left hmax.1 _⟩

end CServer.MmPool
