import CServer.PageCount.Requests
import Mathlib.Data.List.Perm.Basic
import Mathlib.Data.List.Nodup

/-!
# Runs of the page counter

The server after the requests of a history, and what the next request gives. Its page is the one for
the whole history exactly if the text of it is shorter than the array.
-/
namespace CServer.PageCount

open RedBlack RedBlack.ColorTree

/-- `ngx_rbtree_insert` keeps the sequence of the nodes where it is called for a new client. -/
def Kept (rebalance : Addr → NgxRbtree → NgxRbtree) (nil z : Addr) (a : UInt32) (t : NgxRbtree) :
    Prop :=
  ∀ turns heap, ngxPagecountRbtreeInsertValue turns nil t.root z (withNode t.heap z a.toNat) =
    .ok heap → KeepsSequence rebalance nil z ⟨heap, t.root⟩

/-- The server after the requests of a history have been handled, where `ngx_pcalloc` has given
addresses that were not in use. -/
inductive Reached (rebalance : Addr → NgxRbtree → NgxRbtree) (nil : Addr) :
    List UInt32 → Server → Prop
  | start : Reached rebalance nil [] (start nil)
  | request {history s s' page} {a : UInt32} {z : Addr} (before : Reached rebalance nil history s)
      (fresh : s.tree.heap z = none) (notNull : z ≠ null) (kept : Kept rebalance nil z a s.tree)
      (returns : Returns (fun turns => ngxHttpCountModuleHandler rebalance turns nil a z s) (s', page)) :
      Reached rebalance nil (history ++ [a]) s'

/-- What is right after a request: the tree has one node for each client with the number of its
requests, a search finds it, a traversal comes to each node once in the order of the keys, and the
page lists them. -/
def Right (nil : Addr) (history : List UInt32) (s : Server) (page : Text) : Prop :=
  ∃ T, Shows nil s.tree T ∧ Tally history T.toList ∧
    (∀ a ∈ history, ∃ x ∈ T.toList, x.value = ⟨a.toNat, history.count a⟩ ∧
      Returns (fun turns => ngxRbtreeSearch turns nil s.tree a.toNat) x.addr) ∧
    (∀ (σ : Type) (iterator : PageEntry → σ → Except Fault σ) (html : σ), ∃ enough, ∀ depth,
      enough ≤ depth → ngxRbtreeTraversal nil s.tree.heap iterator depth s.tree.root html =
        (T.toList.map Cell.value).foldlM (fun html e => iterator e html) html) ∧
    page = (pageText (T.toList.map Cell.value)).rightpad htmlSize '\x00'

/-- The length of the page for a history. -/
def pageLength (history : List UInt32) : ℕ :=
  header.length + (history.dedup.map fun a => (line ⟨a.toNat, history.count a⟩).length).sum +
    footer.length

/-- Without a second request of a client every line has the count 1. -/
theorem pageLength_of_nodup {history : List UInt32} (h : history.Nodup) : pageLength history =
    header.length + (history.map fun a => (line ⟨a.toNat, 1⟩).length).sum + footer.length := by
  have hlines : (history.map fun a => (line ⟨a.toNat, history.count a⟩).length) =
      history.map fun a => (line ⟨a.toNat, 1⟩).length := by
    refine List.map_congr_left fun a ha => ?_
    rw [List.count_eq_one_of_mem h ha]
    rfl
  rw [pageLength, h.dedup, hlines]

/-- The page grows with each new client. -/
theorem pageLength_le_whole {done history : List UInt32} (h : history.Nodup)
    (hdone : done <+: history) : pageLength done ≤ pageLength history := by
  rw [pageLength_of_nodup h, pageLength_of_nodup (h.sublist hdone.sublist)]
  obtain ⟨rest, rfl⟩ := hdone
  rw [List.map_append, List.sum_append]
  omega

variable {nil z : Addr} {T : ColorTree (Cell PageEntry)} {history : List UInt32} {a : UInt32}
variable {s s' : Server} {cells : List (Cell PageEntry)} {page : Text}
variable {rebalance : Addr → NgxRbtree → NgxRbtree}

theorem Tally.length_pageText (h : Tally history cells) :
    (pageText (cells.map Cell.value)).length = pageLength history := by
  have hcells : (cells.map Cell.value).Nodup := by
    rw [List.Nodup, List.pairwise_map]
    refine h.increasing.imp fun hlt heq => ?_
    exact absurd (congrArg PageEntry.key heq) (Nat.ne_of_lt hlt)
  have hclients : (history.dedup.map fun a => (⟨a.toNat, history.count a⟩ : PageEntry)).Nodup := by
    refine (List.nodup_dedup history).map fun a b hab => ?_
    exact UInt32.toNat_inj.mp (congrArg PageEntry.key hab)
  have hperm : (cells.map Cell.value).Perm
      (history.dedup.map fun a => ⟨a.toNat, history.count a⟩) := by
    rw [List.perm_ext_iff_of_nodup hcells hclients]
    intro e
    rw [List.mem_map, List.mem_map]
    constructor
    · rintro ⟨x, hx, rfl⟩
      obtain ⟨a, ha, hvalue⟩ := h.sound x hx
      exact ⟨a, List.mem_dedup.mpr ha, hvalue.symm⟩
    · rintro ⟨a, ha, rfl⟩
      exact h.complete a (List.mem_dedup.mp ha)
  have hsum := (hperm.map fun e => (line e).length).sum_eq
  rw [List.map_map (l := history.dedup)] at hsum
  rw [pageText, pageLength, List.length_append, List.length_append, List.length_flatten,
    List.map_map (l := cells.map Cell.value), Nat.add_left_inj, Nat.add_right_inj]
  exact hsum

theorem toInt_of_lt {n : ℕ} (h : n < 2 ^ 31) : toInt n = n := by
  exact Int.bmod_eq_of_le (by omega) (by omega)

theorem Tally.length_line (h : Tally history cells) (hbound : ∀ a, history.count a < 2 ^ 31) :
    ∀ x ∈ cells, (line x.value).length < 128 := by
  intro x hx
  obtain ⟨a, -, hvalue⟩ := h.sound x hx
  have hcount := hbound a
  rw [hvalue]
  refine PageCount.length_line ?_ ?_
  · exact Int.natCast_nonneg _
  · show ((history.count a : ℕ) : ℤ) < 2 ^ 31
    omega

/-- A request, up to the page: the tree counts it, and the page is the text for the tree. -/
def Counted (rebalance : Addr → NgxRbtree → NgxRbtree) (nil z : Addr) (history : List UInt32)
    (a : UInt32) (s : Server) : Prop :=
  ∃ s' T', Shows nil s'.tree T' ∧ Tally (history ++ [a]) T'.toList ∧ ∃ enough, ∀ turns,
    enough ≤ turns → ngxHttpCountModuleHandler rebalance turns nil a z s =
      (sprintf htmlSize (pageText (T'.toList.map Cell.value)) >>= fun html =>
        .ok (s', html.rightpad htmlSize '\x00'))

theorem counted_new (h : Shows nil s.tree T) (htally : Tally history T.toList)
    (hbound : ∀ b, (history ++ [a]).count b < 2 ^ 31) (hz : s.tree.heap z = none)
    (hnull : z ≠ null) (hkept : Kept rebalance nil z a s.tree)
    (hfound : (locate keyOf a.toNat [] T).2 = leaf) : Counted rebalance nil z history a s := by
  obtain ⟨searched, hsearch⟩ := h.search a.toNat
  have hfill : fill (locate keyOf a.toNat [] T).1 (locate keyOf a.toNat [] T).2 = T := fill_locate
  have hbetween : Between keyOf a.toNat (locate keyOf a.toNat [] T).1 :=
    between_nil.locate htally.increasing
  obtain ⟨t', T', ⟨inserted, hinsert⟩, hshows, hlist⟩ := h.insert hz hnull hfound hkept
  have htally' : Tally (history ++ [a]) T'.toList := by
    rw [hlist]
    rw [← hfill, hfound, toList_fill, toList, List.append_nil] at htally
    exact htally.insert hbetween.before hbetween.after
  refine ⟨⟨countInTable s.pvTable a, t'⟩, T', hshows, htally',
    max (max searched inserted) (T'.toList.length + 1), fun turns hturns => ?_⟩
  have hs := hsearch turns (by omega)
  have hi := hinsert turns (by omega)
  have hlarge : T'.toList.length < turns := by omega
  have he := hshows.encode (htally'.length_line hbound) hlarge
  simp only [hfound, ptr] at hs hi
  rw [ngxHttpCountModuleHandler, countInTree]
  simp only [hs, ok_bind, if_true, hi, he]

theorem counted_known (h : Shows nil s.tree T) (htally : Tally history T.toList)
    (hbound : ∀ b, (history ++ [a]).count b < 2 ^ 31)
    (hfound : (locate keyOf a.toNat [] T).2 ≠ leaf) : Counted rebalance nil z history a s := by
  obtain ⟨searched, hsearch⟩ := h.search a.toNat
  have hfill : fill (locate keyOf a.toNat [] T).1 (locate keyOf a.toNat [] T).2 = T := fill_locate
  obtain ⟨c, l, x, r, hnode, hkey⟩ := key_of_locate hfound
  rw [hnode] at hfill
  rw [← hfill] at h htally
  have hx : x.addr ≠ nil := h.rep.read.1
  have hlist : ∀ v : PageEntry, (fill (locate keyOf a.toNat [] T).1 (node c l ⟨x.addr, v⟩ r)).toList =
      (before (locate keyOf a.toNat [] T).1 ++ l.toList) ++
        ⟨x.addr, v⟩ :: (r.toList ++ after (locate keyOf a.toNat [] T).1) := by
    intro v
    rw [toList_fill, toList]
    simp only [List.append_assoc, List.cons_append]
  have hold : Tally history ((before (locate keyOf a.toNat [] T).1 ++ l.toList) ++
      x :: (r.toList ++ after (locate keyOf a.toNat [] T).1)) := by
    rw [← hlist x.value]
    exact htally
  obtain ⟨b, -, hvalue⟩ := hold.sound x (List.mem_append_right _ List.mem_cons_self)
  have hba : b = a := UInt32.toNat_inj.mp ((congrArg PageEntry.key hvalue).symm.trans hkey)
  subst hba
  have hvalues : ({ x.value with value := toInt (x.value.value + 1) } : PageEntry) =
      ⟨b.toNat, x.value.value + 1⟩ := by
    have hb := hbound b
    rw [count_self] at hb
    have hint := toInt_of_lt hb
    rw [hvalue]
    show (⟨b.toNat, toInt ((history.count b : ℕ) + 1)⟩ : PageEntry) = _
    rw [← Int.natCast_succ, hint]
  obtain ⟨heap, hok, hshows⟩ := h.setValue fun v => { v with value := toInt (v.value + 1) }
  have htally' := hold.recount hkey
  rw [hvalues] at hshows
  rw [← hlist] at htally'
  refine ⟨⟨countInTable s.pvTable b, ⟨heap, s.tree.root⟩⟩, _, hshows, htally', ?_⟩
  generalize fill (locate keyOf b.toNat [] T).1
    (node c l ⟨x.addr, ⟨b.toNat, x.value.value + 1⟩⟩ r) = T' at hshows htally'
  refine ⟨max searched (T'.toList.length + 1), fun turns hturns => ?_⟩
  have hs := hsearch turns (by omega)
  have hlarge : T'.toList.length < turns := by omega
  have he := hshows.encode (htally'.length_line hbound) hlarge
  simp only [hnode, ptr] at hs
  rw [ngxHttpCountModuleHandler, countInTree]
  simp only [hs, ok_bind, if_neg hx, hok, he]

/-- A request for a server whose tree counts the history. -/
theorem counted (h : ∃ T, Shows nil s.tree T ∧ Tally history T.toList)
    (hbound : ∀ b, (history ++ [a]).count b < 2 ^ 31) (hz : s.tree.heap z = none)
    (hnull : z ≠ null) (hkept : Kept rebalance nil z a s.tree) :
    Counted rebalance nil z history a s := by
  obtain ⟨T, hshows, htally⟩ := h
  by_cases hfound : (locate keyOf a.toNat [] T).2 = leaf
  · exact counted_new hshows htally hbound hz hnull hkept hfound
  · exact counted_known hshows htally hbound hfound

/-- A page that is returned is the text for the tree, and has its place. -/
theorem Counted.of_returns (h : Counted rebalance nil z history a s)
    (hreturns : Returns (fun turns => ngxHttpCountModuleHandler rebalance turns nil a z s) (s', page)) :
    pageLength (history ++ [a]) < htmlSize ∧ ∃ T, Shows nil s'.tree T ∧
      Tally (history ++ [a]) T.toList ∧
      page = (pageText (T.toList.map Cell.value)).rightpad htmlSize '\x00' := by
  obtain ⟨made, T, hshows, htally, enough, hhandler⟩ := h
  obtain ⟨returned, hreturns⟩ := hreturns
  have hboth := (hhandler (max enough returned) (by omega)).symm.trans
    (hreturns (max enough returned) (by omega))
  rw [sprintf, htally.length_pageText] at hboth
  by_cases hfits : pageLength (history ++ [a]) < htmlSize
  · rw [if_pos hfits, ok_bind] at hboth
    obtain ⟨rfl, rfl⟩ := Prod.mk.inj (Except.ok.inj hboth)
    exact ⟨hfits, T, hshows, htally, rfl⟩
  · rw [if_neg hfits, error_bind] at hboth
    exact absurd hboth (by simp)

theorem Counted.returns (h : Counted rebalance nil z history a s)
    (hfits : pageLength (history ++ [a]) < htmlSize) : ∃ s' page,
    Returns (fun turns => ngxHttpCountModuleHandler rebalance turns nil a z s) (s', page) := by
  obtain ⟨made, T, -, htally, enough, hhandler⟩ := h
  refine ⟨made, (pageText (T.toList.map Cell.value)).rightpad htmlSize '\x00', enough,
    fun turns hturns => (hhandler turns hturns).trans ?_⟩
  rw [sprintf, htally.length_pageText, if_pos hfits, ok_bind]

/-- A client has not made more requests before the last one. -/
theorem count_before (hbound : ∀ b, (history ++ [a]).count b < 2 ^ 31) (b : UInt32) :
    history.count b < 2 ^ 31 :=
  Nat.lt_of_le_of_lt ((List.sublist_append_left history [a]).count_le b) (hbound b)

/-- The tree of a reached server counts the history. -/
theorem Reached.tally (h : Reached rebalance nil history s) (hbound : ∀ b, history.count b < 2 ^ 31) :
    ∃ T, Shows nil s.tree T ∧ Tally history T.toList := by
  induction h with
  | start => exact ⟨leaf, Shows.start nil, tally_nil⟩
  | @request history s s' page a z before hz hnull hkept returns ih =>
    obtain ⟨-, T, hshows, htally, -⟩ :=
      (counted (ih (count_before hbound)) hbound hz hnull hkept).of_returns returns
    exact ⟨T, hshows, htally⟩

theorem right_of_tally (h : Shows nil s.tree T) (htally : Tally history T.toList)
    (hpage : page = (pageText (T.toList.map Cell.value)).rightpad htmlSize '\x00') :
    Right nil history s page := by
  refine ⟨T, h, htally, fun a ha => ?_, fun σ iterator html => ?_, hpage⟩
  · obtain ⟨x, hx, hvalue⟩ := htally.complete a ha
    have hkey : keyOf x = a.toNat := congrArg PageEntry.key hvalue
    have hfill : fill (locate keyOf a.toNat [] T).1 (locate keyOf a.toNat [] T).2 = T := fill_locate
    have hfound : (locate keyOf a.toNat [] T).2 ≠ leaf := by
      intro hleaf
      have hbetween : Between keyOf a.toNat (locate keyOf a.toNat [] T).1 :=
        between_nil.locate htally.increasing
      rw [← hfill, hleaf, toList_fill, toList, List.append_nil, List.mem_append] at hx
      rcases hx with hx | hx
      · exact Nat.ne_of_lt (hbetween.before x hx) hkey
      · exact Nat.ne_of_gt (hbetween.after x hx) hkey
    obtain ⟨c, l, y, r, hnode, hy⟩ := key_of_locate hfound
    have hmem : y ∈ T.toList := by
      rw [← hfill, hnode, toList_fill, toList]
      simp
    obtain rfl := htally.increasing.eq_of_key_eq hmem hx (hy.trans hkey.symm)
    have hsearch := h.search a.toNat
    rw [hnode] at hsearch
    exact ⟨y, hx, hvalue, hsearch⟩
  · refine ⟨T.toList.length + 1, fun depth hdepth => ?_⟩
    rw [h.traversal iterator hdepth, List.foldlM_map]

/-- The next request of a client gives what is right for the history with it exactly if the page
for that history has its place in `html`. -/
theorem page_right_iff (h : Reached rebalance nil history s)
    (hbound : ∀ b, (history ++ [a]).count b < 2 ^ 31) (hz : s.tree.heap z = none)
    (hnull : z ≠ null) (hkept : Kept rebalance nil z a s.tree) :
    (∃ s' page, Returns (fun turns => ngxHttpCountModuleHandler rebalance turns nil a z s) (s', page) ∧
      Right nil (history ++ [a]) s' page) ↔ pageLength (history ++ [a]) < htmlSize := by
  have hcounted := counted (h.tally (count_before hbound)) hbound hz hnull hkept
  constructor
  · rintro ⟨s', page, hreturns, -⟩
    exact (hcounted.of_returns hreturns).1
  · intro hfits
    obtain ⟨s', page, hreturns⟩ := hcounted.returns hfits
    obtain ⟨-, T, hshows, htally, hpage⟩ := hcounted.of_returns hreturns
    exact ⟨s', page, hreturns, right_of_tally hshows htally hpage⟩

/-! ## Too many clients -/

/-- For a tree that needs no rebalancing. -/
def keep : Addr → NgxRbtree → NgxRbtree := fun _ t => t

theorem kept_keep (nil z : Addr) (a : UInt32) (t : NgxRbtree) : Kept keep nil z a t :=
  fun _ _ _ T hT => ⟨T, hT, rfl⟩

theorem modify_none {heap heap' : Heap PageEntry} {b e : Addr} {f : Node PageEntry → Node PageEntry}
    (h : heap.modify b f = .ok heap') (he : heap e = none) : heap' e = none := by
  rw [Heap.modify] at h
  split at h
  · rename_i n hn
    obtain rfl := Except.ok.inj h
    rw [Function.update_of_ne, he]
    rintro rfl
    exact absurd (hn.symm.trans he) (by simp)
  · exact absurd h (by simp)

/-- An insertion takes no other memory than the node's. -/
theorem insert_none {turns : ℕ} {t t' : NgxRbtree} {e : Addr}
    (h : ngxRbtreeInsert keep turns nil z t = .ok t') (he : t.heap e = none) : t'.heap e = none := by
  rw [ngxRbtreeInsert] at h
  split at h
  · obtain ⟨heap, hheap, h⟩ := bind_eq_ok h
    obtain rfl := Except.ok.inj h
    exact modify_none hheap he
  · obtain ⟨heap, hheap, h⟩ := bind_eq_ok h
    obtain rfl := Except.ok.inj h
    obtain ⟨n, -, hheap⟩ := bind_eq_ok hheap
    obtain ⟨place, -, hheap⟩ := bind_eq_ok hheap
    cases place with
    | none =>
      obtain rfl := Except.ok.inj hheap
      exact he
    | some place =>
      obtain ⟨linked, hlinked, hheap⟩ := bind_eq_ok hheap
      exact modify_none hheap (modify_none hlinked he)

theorem handler_none {turns : ℕ} {e : Addr}
    (h : ngxHttpCountModuleHandler keep turns nil a z s = .ok (s', page)) (hez : e ≠ z)
    (he : s.tree.heap e = none) : s'.tree.heap e = none := by
  obtain ⟨tree, htree, h⟩ := bind_eq_ok h
  obtain ⟨html, -, h⟩ := bind_eq_ok h
  obtain ⟨rfl, -⟩ := Prod.mk.inj (Except.ok.inj h)
  obtain ⟨node, -, htree⟩ := bind_eq_ok htree
  split at htree
  · exact insert_none htree ((Function.update_of_ne hez _ _).trans he)
  · obtain ⟨heap, hheap, htree⟩ := bind_eq_ok htree
    obtain rfl := Except.ok.inj htree
    exact modify_none hheap he

/-- Every history whose pages have their place is reached, with the nodes from address 200 on. -/
theorem reached_keep (history : List UInt32)
    (hfits : ∀ done, done <+: history → pageLength done < htmlSize)
    (hbound : ∀ b, history.count b < 2 ^ 31) : ∃ s, Reached keep 100 history s ∧
      ∀ e, 200 + history.length ≤ e → s.tree.heap e = none := by
  induction history using List.reverseRecOn with
  | nil =>
    refine ⟨start 100, .start, fun e he => ?_⟩
    rw [List.length_nil] at he
    have hne : e ≠ 100 := by omega
    show (ngxRbtreeInit 100).heap e = none
    rw [ngxRbtreeInit]
    simp only [Function.update_of_ne hne]
  | append_singleton history a ih =>
    have hbefore := count_before hbound
    obtain ⟨s, hs, hfree⟩ := ih
      (fun done hdone => hfits done (hdone.trans (List.prefix_append _ _))) hbefore
    have hz := hfree (200 + history.length) (Nat.le_refl _)
    have hnull : 200 + history.length ≠ null := by
      rw [null]
      omega
    have hcounted := counted (hs.tally hbefore) hbound hz hnull (kept_keep _ _ _ _)
    obtain ⟨s', page, enough, hreturns⟩ := hcounted.returns (hfits _ (List.prefix_refl _))
    refine ⟨s', hs.request hz hnull (kept_keep _ _ _ _) ⟨enough, hreturns⟩, fun e he => ?_⟩
    rw [List.length_append, List.length_singleton] at he
    have hez : e ≠ 200 + history.length := by omega
    exact handler_none (hreturns enough (Nat.le_refl _)) hez (hfree e (by omega))

/-- The first client. -/
theorem page_right_first : ∃ s' page, Returns (fun turns =>
      ngxHttpCountModuleHandler keep turns 100 1 200 (start 100)) (s', page) ∧
    Right 100 [1] s' page := by
  have hbound : ∀ b, (([] : List UInt32) ++ [1]).count b < 2 ^ 31 := by
    intro b
    exact Nat.lt_of_le_of_lt List.count_le_length (by decide)
  exact (page_right_iff .start hbound rfl (by decide) (kept_keep _ _ _ _)).mpr (by decide)

/-- Clients from 200.200.200.200 to 223.200.200.200. -/
def manyClients : List UInt32 := (List.range 24).map fun i => 0xC8C8C8C8 + UInt32.ofNat i

/-- The page for the last of these clients does not have its place in `html`. -/
theorem page_overflows : ∃ s z, Reached keep 100 (manyClients.take 23) s ∧
    s.tree.heap z = none ∧ z ≠ null ∧ Kept keep 100 z (0xC8C8C8C8 + 23) s.tree ∧
    ¬∃ s' page, Returns (fun turns =>
        ngxHttpCountModuleHandler keep turns 100 (0xC8C8C8C8 + 23) z s) (s', page) ∧
      Right 100 manyClients s' page := by
  have hlast : manyClients.take 23 ++ [0xC8C8C8C8 + 23] = manyClients := by decide
  have hbound : ∀ b, manyClients.count b < 2 ^ 31 := by
    intro b
    exact Nat.lt_of_le_of_lt List.count_le_length (by decide)
  have hbefore : ∀ b, (manyClients.take 23).count b < 2 ^ 31 := by
    intro b
    exact Nat.lt_of_le_of_lt List.count_le_length (by decide)
  have hall : pageLength (manyClients.take 23) < htmlSize := by decide +kernel
  have hfits : ∀ done, done <+: manyClients.take 23 → pageLength done < htmlSize :=
    fun done hdone => Nat.lt_of_le_of_lt (pageLength_le_whole (by decide) hdone) hall
  obtain ⟨s, hs, hfree⟩ := reached_keep _ hfits hbefore
  have hz := hfree (200 + (manyClients.take 23).length) (Nat.le_refl _)
  refine ⟨s, _, hs, hz, by decide, kept_keep _ _ _ _, ?_⟩
  rintro ⟨s', page, hreturns, -⟩
  have hcounted := counted (a := 0xC8C8C8C8 + 23) (hs.tally hbefore) (hlast.symm ▸ hbound) hz
    (by decide) (kept_keep _ _ _ _)
  have hlength := (hcounted.of_returns hreturns).1
  rw [hlast] at hlength
  exact absurd hlength (by decide +kernel)

end CServer.PageCount
