import CServer.Foundation.SearchTree
import CServer.Foundation.TreeEdits
import CServer.PageCount.Module

/-!
# The tree of the page counter

What a search, a traversal and an insertion do to a memory that holds a tree. The rebalancing after
an insertion is only taken to keep the in-order sequence of the nodes.
-/
namespace CServer.PageCount

open RedBlack RedBlack.ColorTree

/-- The memory holds the tree below a null parent, and the sentinel. -/
structure Shows (nil : Addr) (t : NgxRbtree) (T : ColorTree (Cell PageEntry)) : Prop where
  rep : Rep t.heap nil null T
  root : t.root = ptr nil T
  sentinel : ∃ n, t.heap nil = some n

def keyOf (x : Cell PageEntry) : ℕ := x.value.key

/-- The rebalancing for the node `z` leaves a tree with the same sequence of nodes. -/
def KeepsSequence (rebalance : Addr → NgxRbtree → NgxRbtree) (nil z : Addr) (t : NgxRbtree) : Prop :=
  ∀ T, Shows nil t T → ∃ T', Shows nil (rebalance z t) T' ∧ T'.toList = T.toList

variable {nil z : Addr} {t : NgxRbtree} {heap : Heap PageEntry} {T u l r : ColorTree (Cell PageEntry)}
variable {K : Ctx (Cell PageEntry)} {f : Frame (Cell PageEntry)} {k : ℕ} {c : Color}
variable {x : Cell PageEntry} {rebalance : Addr → NgxRbtree → NgxRbtree}

theorem Shows.start (nil : Addr) : Shows nil (start nil).tree leaf :=
  ⟨⟨trivial, List.nodup_nil, List.not_mem_nil, List.not_mem_nil⟩, rfl,
    ⟨⟨null, null, null, .black, ⟨0, 0⟩⟩, if_pos rfl⟩⟩

/-! ## Reading -/

theorem searchFrom_spec (rep : Rep heap nil null (fill K u)) :
    Returns (fun turns => searchFrom nil heap k turns (ptr nil u))
      (ptr nil (locate keyOf k K u).2) := by
  fun_induction locate keyOf k K u with
  | case1 K => exact Returns.of_succ (fun turns => if_neg (fun hne => hne rfl))
  | case2 K c l x r hlt ih =>
    obtain ⟨hne, -, hx⟩ := rep.read
    refine (ih rep).succ (fun turns => ?_)
    show searchFrom nil heap k (turns + 1) x.addr = _
    rw [searchFrom, if_pos hne, hx, ok_bind]
    exact if_pos hlt
  | case3 K c l x r hlt hgt ih =>
    obtain ⟨hne, -, hx⟩ := rep.read
    refine (ih rep).succ (fun turns => ?_)
    show searchFrom nil heap k (turns + 1) x.addr = _
    rw [searchFrom, if_pos hne, hx, ok_bind]
    exact (if_neg hlt).trans (if_pos hgt)
  | case4 K c l x r hlt hgt =>
    obtain ⟨hne, -, hx⟩ := rep.read
    refine Returns.of_succ (fun turns => ?_)
    show searchFrom nil heap k (turns + 1) x.addr = _
    rw [searchFrom, if_pos hne, hx, ok_bind]
    exact (if_neg hlt).trans (if_neg hgt)

theorem Shows.search (h : Shows nil t T) (k : ℕ) :
    Returns (fun turns => ngxRbtreeSearch turns nil t k) (ptr nil (locate keyOf k [] T).2) := by
  have hsearch := searchFrom_spec (K := []) (k := k) h.rep
  rw [← h.root] at hsearch
  exact hsearch

/-- The iterator is called for the nodes of a subtree from the left to the right. -/
theorem traversal_spec {σ : Type} (iterator : PageEntry → σ → Except Fault σ)
    (rep : Rep heap nil null (fill K u)) {depth : ℕ} (hdepth : u.toList.length < depth) (html : σ) :
    ngxRbtreeTraversal nil heap iterator depth (ptr nil u) html =
      u.toList.foldlM (fun html x => iterator x.value html) html := by
  induction u generalizing K depth html with
  | leaf =>
    obtain ⟨depth, rfl⟩ := Nat.exists_eq_add_one.mpr hdepth
    exact if_neg (fun hne => hne rfl)
  | node c l x r ihl ihr =>
    obtain ⟨depth, rfl⟩ := Nat.exists_eq_add_one.mpr (Nat.zero_lt_of_lt hdepth)
    obtain ⟨hne, -, hx⟩ := rep.read
    rw [toList, List.length_append, List.length_cons] at hdepth
    show ngxRbtreeTraversal nil heap iterator (depth + 1) x.addr html = _
    rw [ngxRbtreeTraversal, if_pos hne, hx, ok_bind, toList, List.foldlM_append,
      ihl (K := ⟨.left, c, x, r⟩ :: K) rep (by omega)]
    refine bind_congr fun html => ?_
    rw [List.foldlM_cons]
    refine bind_congr fun html => ?_
    exact ihr (K := ⟨.right, c, x, l⟩ :: K) rep (by omega) html

theorem Shows.traversal {σ : Type} (h : Shows nil t T) (iterator : PageEntry → σ → Except Fault σ)
    {depth : ℕ} (hdepth : T.toList.length < depth) (html : σ) :
    ngxRbtreeTraversal nil t.heap iterator depth t.root html =
      T.toList.foldlM (fun html x => iterator x.value html) html := by
  rw [h.root]
  exact traversal_spec (K := []) iterator h.rep hdepth html

/-! ## Inserting -/

theorem insertPlace_spec (rep : Rep heap nil null (fill K u)) (hu : u ≠ leaf)
    (hfound : (locate keyOf k K u).2 = leaf) : ∃ f rest, (locate keyOf k K u).1 = f :: rest ∧
      Returns (fun turns => insertPlace nil heap k turns (ptr nil u)) (some (f.label.addr, f.side)) := by
  induction u generalizing K with
  | leaf => exact absurd rfl hu
  | node c l x r ihl ihr =>
    obtain ⟨hne, -, hx⟩ := rep.read
    have hturn : ∀ turns, insertPlace nil heap k (turns + 1) x.addr =
        if k < keyOf x then
          if ptr nil l = nil then .ok (some (x.addr, .left))
          else insertPlace nil heap k turns (ptr nil l)
        else if keyOf x < k then
          if ptr nil r = nil then .ok (some (x.addr, .right))
          else insertPlace nil heap k turns (ptr nil r)
        else .ok none := by
      intro turns
      rw [insertPlace, hx, ok_bind]
      rfl
    rw [locate] at hfound ⊢
    by_cases hlt : k < keyOf x
    · rw [if_pos hlt] at hfound ⊢
      have hgo : ∀ turns, insertPlace nil heap k (turns + 1) x.addr = _ :=
        fun turns => (hturn turns).trans (if_pos hlt)
      by_cases hl : l = leaf
      · subst hl
        exact ⟨⟨.left, c, x, r⟩, K, rfl, Returns.of_succ fun turns => (hgo turns).trans (if_pos rfl)⟩
      · have hlnil : ptr nil l ≠ nil := by
          rwa [ne_eq, Rep.ptr_eq_nil_iff (K := ⟨.left, c, x, r⟩ :: K) rep]
        obtain ⟨f, rest, hcons, hreturns⟩ := ihl (K := ⟨.left, c, x, r⟩ :: K) rep hl hfound
        exact ⟨f, rest, hcons, hreturns.succ fun turns => (hgo turns).trans (if_neg hlnil)⟩
    · rw [if_neg hlt] at hfound ⊢
      by_cases hgt : keyOf x < k
      · rw [if_pos hgt] at hfound ⊢
        have hgo : ∀ turns, insertPlace nil heap k (turns + 1) x.addr = _ :=
          fun turns => (hturn turns).trans ((if_neg hlt).trans (if_pos hgt))
        by_cases hr : r = leaf
        · subst hr
          exact ⟨⟨.right, c, x, l⟩, K, rfl,
            Returns.of_succ fun turns => (hgo turns).trans (if_pos rfl)⟩
        · have hrnil : ptr nil r ≠ nil := by
            rwa [ne_eq, Rep.ptr_eq_nil_iff (K := ⟨.right, c, x, l⟩ :: K) rep]
          obtain ⟨f, rest, hcons, hreturns⟩ := ihr (K := ⟨.right, c, x, l⟩ :: K) rep hr hfound
          exact ⟨f, rest, hcons, hreturns.succ fun turns => (hgo turns).trans (if_neg hrnil)⟩
      · rw [if_neg hgt] at hfound
        exact absurd hfound (by simp)

/-- A cell that is not in use is not the sentinel. -/
theorem Shows.ne_nil_of_none (h : Shows nil t T) (hz : t.heap z = none) : z ≠ nil := by
  rintro rfl
  obtain ⟨n, hnil⟩ := h.sentinel
  rw [hz] at hnil
  exact absurd hnil (by simp)

/-- The new node is not linked yet. -/
theorem Shows.unlinked (h : Shows nil t T) (hz : t.heap z = none) :
    Shows nil ⟨withNode t.heap z k, t.root⟩ T := by
  have hother : ∀ e, e ≠ z → withNode t.heap z k e = t.heap e :=
    fun e he => Function.update_of_ne he _ _
  have hnot : z ∉ addrs T := h.rep.notMem_of_none hz
  obtain ⟨n, hnil⟩ := h.sentinel
  refine ⟨⟨h.rep.holds.congr fun e he => hother e (ne_of_mem_of_not_mem he hnot), h.rep.nodup,
    h.rep.nil_notMem, h.rep.top_notMem⟩, h.root, n, (hother nil (h.ne_nil_of_none hz).symm).trans hnil⟩

/-- The insertion function links the node where its key belongs. -/
theorem insertValue_spec (h : Shows nil t T) (hT : T ≠ leaf) (hz : t.heap z = none)
    (hnull : z ≠ null) (hfound : (locate keyOf k [] T).2 = leaf) :
    ∃ heap, Returns (fun turns => ngxPagecountRbtreeInsertValue turns nil t.root z
        (withNode t.heap z k)) heap ∧
      Shows nil ⟨heap, t.root⟩
        (fill (locate keyOf k [] T).1 (node .red leaf ⟨z, ⟨k, 1⟩⟩ leaf)) := by
  have hnew := h.unlinked (k := k) hz
  obtain ⟨f, rest, hcons, hplace⟩ := insertPlace_spec (K := []) hnew.rep hT hfound
  have hfill : fill (f :: rest) leaf = T := by
    rw [← hcons, ← hfound]
    exact fill_locate
  rw [hcons]
  have hznot : z ∉ addrs T := h.rep.notMem_of_none hz
  have hzheap : withNode t.heap z k z = some ⟨null, null, null, .black, ⟨k, 1⟩⟩ :=
    Function.update_self _ _ _
  have hznil := h.ne_nil_of_none hz
  have hrep : Rep (withNode t.heap z k) nil null (fill (f :: rest) leaf) := by
    rw [hfill]
    exact hnew.rep
  have hmem : f.label.addr ∈ addrs (fill (f :: rest) (leaf : ColorTree (Cell PageEntry))) :=
    mem_addrs_fill.mpr (.inl List.mem_cons_self)
  have hfz : f.label.addr ≠ z := ne_of_mem_of_not_mem hmem (hfill ▸ hznot)
  have hfnil : f.label.addr ≠ nil := hrep.mem_ne_nil hmem
  obtain ⟨h1, ok1, self1, other1⟩ :=
    Heap.modify_spec hrep.frame_eq (fun n => n.setChild z f.side)
  obtain ⟨h2, ok2, self2, other2⟩ := Heap.modify_spec ((other1 z hfz.symm).trans hzheap)
    (fun n => ⟨nil, nil, f.label.addr, .red, n.value⟩)
  obtain ⟨n, hsentinel⟩ := hnew.sentinel
  refine ⟨h2, hplace.after (Returns.of_eq fun _ => rfl) fun turns hok => ?_, ?_, ?_, n, ?_⟩
  · rw [← hnew.root] at hok
    rw [ngxPagecountRbtreeInsertValue, Heap.node_eq hzheap, ok_bind, hok, ok_bind]
    show (Heap.setChild _ _ _ _ >>= _) = _
    rw [Heap.setChild, ok1, ok_bind, ok2]
  · refine hrep.plant (hfill ▸ hznot) hznil hnull self2 ?_ ?_
    · intro f' rest' hhead
      obtain ⟨rfl, rfl⟩ := List.cons.inj hhead
      show h2 f.label.addr = _
      rw [other2 _ hfz, self1, Frame.setChild_node]
    · intro e hez hef
      show h2 e = _
      rw [other2 e hez]
      exact other1 e hef
  · rw [← ptr_fill_cons (t := leaf), hfill]
    exact h.root
  · exact (other2 nil hznil.symm).trans ((other1 nil hfnil.symm).trans hsentinel)

/-- `ngx_rbtree_insert` for a key that is not there. -/
theorem Shows.insert (h : Shows nil t T) (hz : t.heap z = none) (hnull : z ≠ null)
    (hfound : (locate keyOf k [] T).2 = leaf)
    (hkept : ∀ turns heap, ngxPagecountRbtreeInsertValue turns nil t.root z (withNode t.heap z k) =
      .ok heap → KeepsSequence rebalance nil z ⟨heap, t.root⟩) :
    ∃ t' T', Returns (fun turns => ngxRbtreeInsert rebalance turns nil z
        ⟨withNode t.heap z k, t.root⟩) t' ∧ Shows nil t' T' ∧
      T'.toList = before (locate keyOf k [] T).1 ++ ⟨z, ⟨k, 1⟩⟩ :: after (locate keyOf k [] T).1 := by
  by_cases hT : T = leaf
  · subst hT
    have hznil := h.ne_nil_of_none hz
    obtain ⟨n, hsentinel⟩ := (h.unlinked (k := k) hz).sentinel
    have hzheap : withNode t.heap z k z = some ⟨null, null, null, .black, ⟨k, 1⟩⟩ :=
      Function.update_self _ _ _
    obtain ⟨heap, hok, hself, hother⟩ := Heap.modify_spec hzheap
      (fun n => ⟨nil, nil, null, .black, n.value⟩)
    refine ⟨⟨heap, z⟩, node .black leaf ⟨z, ⟨k, 1⟩⟩ leaf, Returns.of_eq fun turns => ?_,
      ⟨⟨⟨hself, trivial, trivial⟩, List.nodup_singleton z, ?_, ?_⟩, rfl, n,
        (hother nil hznil.symm).trans hsentinel⟩, rfl⟩
    · have hroot : t.root = nil := h.root
      rw [ngxRbtreeInsert]
      simp only [if_pos hroot, hok, ok_bind]
    · exact fun hmem => hznil (List.mem_singleton.mp hmem).symm
    · exact fun hmem => hnull (List.mem_singleton.mp hmem).symm
  · obtain ⟨heap, ⟨enough, hreturns⟩, hshows⟩ := insertValue_spec h hT hz hnull hfound
    obtain ⟨T', hshows', hlist⟩ := hkept enough heap (hreturns enough (Nat.le_refl _)) _ hshows
    refine ⟨_, T', ⟨enough, fun turns hturns => ?_⟩, hshows', ?_⟩
    · have hroot : t.root ≠ nil := by
        rw [h.root, ne_eq, Rep.ptr_eq_nil_iff (K := []) h.rep]
        exact hT
      have hinsert := hreturns turns hturns
      simp only at hinsert
      show ngxRbtreeInsert rebalance turns nil z ⟨withNode t.heap z k, t.root⟩ = _
      rw [ngxRbtreeInsert]
      simp only [if_neg hroot, hinsert, ok_bind]
    · rw [hlist, toList_fill, List.append_assoc]
      rfl

/-- Another value in a node. -/
theorem Shows.setValue (h : Shows nil t (fill K (node c l x r))) (v : PageEntry → PageEntry) :
    ∃ heap, t.heap.modify x.addr (fun n => { n with value := v n.value }) = .ok heap ∧
      Shows nil ⟨heap, t.root⟩ (fill K (node c l ⟨x.addr, v x.value⟩ r)) := by
  obtain ⟨n, hnil⟩ := h.sentinel
  have hx : t.heap x.addr = some (sideNode .left (ptr nil l) (ptr nil r) (parentOf null K) c x.value) :=
    Rep.node_eq (s := .left) h.rep
  obtain ⟨hne, -, -⟩ := h.rep.read
  obtain ⟨heap, hok, hself, hother⟩ := Heap.modify_spec hx (fun n => { n with value := v n.value })
  refine ⟨heap, hok, (Rep.write (s := .left) (y := ⟨x.addr, v x.value⟩) h.rep rfl hself hother).rep,
    ?_, n, (hother nil hne.symm).trans hnil⟩
  exact h.root.trans (by cases K <;> [rfl; exact ptr_fill_cons])

end CServer.PageCount
