import CServer.RbTree.RbTree3Deletion

/-!
# Searching, inserting and deleting in rb_tree3.cpp
-/
namespace CServer.RbTree3

open RedBlack RedBlack.ColorTree Contents

/-- A red-black tree below the header with increasing keys. -/
structure Correct (T : Addr) (heap : Heap Entry) (t : ColorTree (Cell Entry)) : Prop where
  shown : Shows T heap t
  valid : Valid t
  increasing : Increasing keyOf t.toList

variable {T : Addr} {heap : Heap Entry} {t u v l r : ColorTree (Cell Entry)} {K : Ctx (Cell Entry)}
variable {k d : ℤ} {s : Side} {c : Color} {x y : Cell Entry} {z e : Addr}

/-! ## The search -/

theorem rbSearchAux_spec (rep : Rep heap null T (fill K u)) :
    Returns (fun turns => rbSearchAux heap k turns (ptr null u))
      (ptr null (locate keyOf k K u).2) := by
  fun_induction locate keyOf k K u with
  | case1 K => exact Returns.of_succ (fun turns => rfl)
  | case2 K c l x r hlt ih =>
    obtain ⟨hne, -, hx⟩ := rep.read
    refine (ih rep).succ (fun turns => ?_)
    show rbSearchAux heap k (turns + 1) x.addr = _
    rw [rbSearchAux, if_neg hne, hx, ok_bind]
    exact if_pos hlt
  | case3 K c l x r hlt hgt ih =>
    obtain ⟨hne, -, hx⟩ := rep.read
    refine (ih rep).succ (fun turns => ?_)
    show rbSearchAux heap k (turns + 1) x.addr = _
    rw [rbSearchAux, if_neg hne, hx, ok_bind]
    exact (if_neg hlt).trans (if_pos hgt)
  | case4 K c l x r hlt hgt =>
    obtain ⟨hne, -, hx⟩ := rep.read
    refine Returns.of_succ (fun turns => ?_)
    show rbSearchAux heap k (turns + 1) x.addr = .ok x.addr
    rw [rbSearchAux, if_neg hne, hx, ok_bind]
    exact (if_neg hlt).trans (if_neg hgt)

theorem Correct.search (h : Correct T heap t) :
    Returns (fun turns => rbSearch turns T k heap) (ptr null (locate keyOf k [] t).2) := by
  obtain ⟨hdr, hT, hroot⟩ := h.shown.header
  refine (rbSearchAux_spec (K := []) h.shown.rep).congr (fun turns => ?_)
  rw [rbSearch, Heap.node_eq hT, ok_bind, hroot]

/-! ## Insertion -/

/-- The walk ends above the empty subtree where the key belongs. -/
theorem insertWalk_spec (rep : Rep heap null T (fill K u))
    (hfound : (locate keyOf k K u).2 = leaf) :
    Returns (fun turns => insertWalk heap k turns (parentOf T K) (ptr null u))
      (parentOf T (locate keyOf k K u).1) := by
  fun_induction locate keyOf k K u with
  | case1 K => exact Returns.of_succ (fun turns => rfl)
  | case2 K c l x r hlt ih =>
    obtain ⟨hne, -, hx⟩ := rep.read
    refine (ih rep hfound).succ (fun turns => ?_)
    show insertWalk heap k (turns + 1) (parentOf T K) x.addr = _
    rw [insertWalk, if_neg hne, hx, ok_bind]
    exact if_pos hlt
  | case3 K c l x r hlt hgt ih =>
    obtain ⟨hne, -, hx⟩ := rep.read
    refine (ih rep hfound).succ (fun turns => ?_)
    show insertWalk heap k (turns + 1) (parentOf T K) x.addr = _
    rw [insertWalk, if_neg hne, hx, ok_bind]
    exact if_neg hlt
  | case4 K c l x r hlt hgt => exact absurd hfound (by simp)

/-- The new node is linked to the last one on the way. -/
theorem Shows.link {heap₁ : Heap Entry} (h : Shows T heap (fill K leaf))
    (hbetween : Between keyOf k K) (hfresh : heap z = none) (hz : z ≠ null)
    (hself : heap₁ z = some ⟨null, null, parentOf T K, .red, ⟨k, d⟩⟩)
    (hother : ∀ e, e ≠ z → heap₁ e = heap e) :
    ∃ heap', link T (parentOf T K) z k heap₁ = .ok heap' ∧
      Shows T heap' (fill K (node .red leaf ⟨z, ⟨k, d⟩⟩ leaf)) := by
  obtain ⟨hdr, hT, hroot⟩ := h.header
  have hnot : z ∉ addrs (fill K leaf) := h.rep.notMem_of_none hfresh
  have hzT : z ≠ T := by
    rintro rfl
    rw [hfresh] at hT
    exact absurd hT (by simp)
  cases K with
  | nil =>
    obtain ⟨heap', hok, hself', hother'⟩ := Heap.modify_spec ((hother T hzT.symm).trans hT)
      (fun n => { n with parent := z })
    refine ⟨heap', ?_, ?_, _, hself', rfl⟩
    · rw [RbTree3.link, parentOf_nil, if_pos rfl]
      exact hok
    · apply h.rep.plant hnot hz hzT _ (fun f rest hcons => absurd hcons (by simp))
      · intro e hez heT
        rw [hother' e heT, hother e hez]
      · rw [hother' z hzT, hself]
  | cons f rest =>
    have hmem : f.label.addr ∈ addrs (fill (f :: rest) (leaf : ColorTree (Cell Entry))) :=
      mem_addrs_fill.mpr (.inl List.mem_cons_self)
    have hfz : f.label.addr ≠ z := ne_of_mem_of_not_mem hmem hnot
    have hfT : f.label.addr ≠ T := h.rep.mem_ne_top hmem
    have hf := (hother _ hfz).trans h.rep.frame_eq
    obtain ⟨heap', hok, hself', hother'⟩ := Heap.modify_spec hf (fun n => n.setChild z f.side)
    refine ⟨heap', ?_, ?_, hdr, ?_, ?_⟩
    · rw [RbTree3.link, parentOf_cons, if_neg hfT, Heap.node_eq hf, ok_bind, Frame.value_node]
      have hside : (if k < f.label.value.key then Side.left else .right) = f.side :=
        hbetween.side_eq.symm
      rw [hside]
      exact hok
    · apply h.rep.plant hnot hz hzT
      · rw [hother' z hfz.symm, hself]
      · intro f' rest' hcons
        obtain ⟨rfl, rfl⟩ := List.cons.inj hcons
        rw [hself', Frame.setChild_node]
      · intro e hez hep
        rw [hother' e hep, hother e hez]
    · rw [hother' T hfT.symm, hother T hzT.symm, hT]
    · rw [hroot, ptr_fill_cons]

/-- `rb_insert` changes nothing where the key is there, and adds it where it is not. -/
theorem rbInsert_spec (h : Correct T heap t) (hfresh : heap z = none) (hz : z ≠ null) :
    ∃ out t', Returns (fun turns => rbInsert turns T k d z heap) out ∧ Correct T out.2 t' ∧
      ((∃ v ∈ entries t, v.key = k) ∧ t' = t ∨
        (∀ v ∈ entries t, v.key ≠ k) ∧ ∀ v, v ∈ entries t' ↔ v = ⟨k, d⟩ ∨ v ∈ entries t) := by
  have hsearch := h.search (k := k)
  have hfill : fill (locate keyOf k [] t).1 (locate keyOf k [] t).2 = t := fill_locate
  by_cases hfound : (locate keyOf k [] t).2 = leaf
  · obtain ⟨hdr, hT, hroot⟩ := h.shown.header
    have hwalk := insertWalk_spec (K := []) h.shown.rep hfound
    have hnot := key_ne_of_not_found h.increasing hfound
    have hbetween : Between keyOf k (locate keyOf k [] t).1 := between_nil.locate h.increasing
    rw [hfound] at hfill hsearch
    have hshown := h.shown
    have hvalid := h.valid
    have hincreasing := h.increasing
    rw [← hfill] at hshown hvalid hincreasing
    obtain ⟨h1, hlink, s1⟩ := hshown.link (d := d) hbetween hfresh hz
      (Function.update_self _ _ _) (fun e he => Function.update_of_ne he _ _)
    obtain ⟨n, hbalanced, hctx⟩ := valid_fill.mp hvalid
    cases hbalanced
    obtain ⟨h2, hreturns, s2⟩ := insertCase1_spec s1 rfl (.red rfl rfl .leaf .leaf) hctx
    have hlist : ((insertLoop (locate keyOf k [] t).1
        (node .red leaf ⟨z, ⟨k, d⟩⟩ leaf)).paint .black).toList =
        before (locate keyOf k [] t).1 ++ ⟨z, ⟨k, d⟩⟩ :: after (locate keyOf k [] t).1 := by
      rw [toList_paint, toList_insertLoop rfl, toList_fill, List.append_assoc]
      rfl
    have hrest : Returns (fun turns => insertCase1 T turns z h1 >>= fun heap => .ok (z, heap))
        (z, h2) :=
      Returns.bind (k := fun _ heap => .ok (z, heap)) hreturns (Returns.of_eq (fun _ => rfl))
    have hnew : Returns (fun turns => insertNew turns T k d z heap) (z, h2) := by
      apply hwalk.after hrest
      intro turns hok
      rw [← hroot, parentOf_nil] at hok
      rw [insertNew, Heap.node_eq hT, ok_bind, hok, ok_bind]
      show (link T _ z k (Function.update heap z _) >>= _) = _
      rw [hlink, ok_bind]
    refine ⟨(z, h2), _, hsearch.after hnew ?_,
      ⟨s2, ?_, increasing_insert hincreasing hbetween hlist⟩, .inr ⟨hnot, ?_⟩⟩
    · intro turns hok
      rw [rbInsert, hok, ok_bind]
      rfl
    · exact valid_insertLoop rfl (.red rfl rfl .leaf .leaf) hctx
    · apply mem_insert_entry (p := (before (locate keyOf k [] t).1).map Cell.value)
      · rw [← hfill, entries_fill, hfill]
        exact congrArg (· ++ _) (List.append_nil _)
      · rw [entries, hlist, List.map_append, List.map_cons]
  · obtain ⟨c, l, x, r, hnode, hkey⟩ := key_of_locate hfound
    have hx := mem_of_found hnode
    have hne : x.addr ≠ null := h.shown.rep.mem_ne_nil (List.mem_map_of_mem hx)
    refine ⟨(x.addr, heap), t, hsearch.after (Returns.of_eq (f := fun _ => .ok _) (fun _ => rfl)) ?_,
      h, .inl ⟨⟨x.value, List.mem_map_of_mem hx, hkey⟩, rfl⟩⟩
    intro turns hok
    rw [rbInsert, hok, ok_bind, hnode]
    exact if_pos hne

/-! ## Deletion -/

theorem Shows.free (h : Shows T heap t) (he : e ∉ addrs t) (heT : e ≠ T) :
    Shows T (heap.free e) t := by
  have hsame : ∀ a, a ≠ e → heap.free e a = heap a := fun a ha => Function.update_of_ne ha _ _
  have hholds := h.rep.holds.congr (fun a ha => hsame a (ne_of_mem_of_not_mem ha he))
  obtain ⟨hdr, hT, hroot⟩ := h.header
  exact ⟨⟨hholds, h.rep.nodup, h.rep.nil_notMem, h.rep.top_notMem⟩, hdr,
    (hsame T heT.symm).trans hT, hroot⟩

/-- A node with one child at most is passed by. -/
theorem Shows.unlink (h : Shows T heap (fill K (branch s c leaf y v))) :
    ∃ heap', unlink T y.addr (ptr null v) (parentOf T K) heap = .ok heap' ∧
      Shows T heap' (fill K v) ∧ heap' y.addr = heap y.addr := by
  obtain ⟨-, hyv, -⟩ := h.rep.parts
  obtain ⟨hdr, hT, hroot⟩ := h.header
  have hymem : y.addr ∈ addrs (branch s c leaf y v) := mem_addrs_branch.mpr (.inl rfl)
  have hvmem : v ≠ leaf → ptr null v ∈ addrs (branch s c leaf y v) :=
    fun hv => mem_addrs_branch.mpr (.inr (.inr (mem_addrs_of_ne_leaf hv)))
  have hvp : v ≠ leaf → ptr null v ≠ parentOf T K := fun hv => h.rep.below_ne_parentOf (hvmem hv)
  have hvy : v ≠ leaf → y.addr ≠ ptr null v :=
    fun hv => (ne_of_mem_of_not_mem (mem_addrs_of_ne_leaf hv) hyv).symm
  have hvT : v ≠ leaf → T ≠ ptr null v :=
    fun hv => (h.rep.mem_ne_top (mem_addrs_fill.mpr (.inr (hvmem hv)))).symm
  have hyp : y.addr ≠ parentOf T K := h.rep.below_ne_parentOf hymem
  have hrep := h.rep
  rw [← fill_far] at hrep
  obtain ⟨h1, ok1, self1, other1⟩ := Heap.adopt_spec (g := heap) (p := parentOf T K)
    hrep.ptr_eq_nil_iff (holds_fill.mp hrep.holds).2.allocated
  obtain ⟨h2, ok2, self2, other2, header2⟩ := replaceChild_spec (K := K)
    (o := y.addr) (w := ptr null v) ((other1 T hvT).trans hT)
    (by
      rintro f rest rfl
      have hf := h.rep.frame_eq
      have hne := h.rep.sibling_ne branch_ne_leaf
      rw [ptr_branch] at hf hne
      refine ⟨h.rep.mem_ne_top (mem_addrs_fill.mpr (.inl List.mem_cons_self)), hne, ?_⟩
      exact (other1 _ (fun hv => (hvp hv).symm)).trans hf)
  obtain ⟨hdr', hT', hroot'⟩ := header2
  refine ⟨h2, ?_, ⟨h.rep.unlink ?_ self2 ?_, hdr', hT', root_fill hroot hroot'⟩, ?_⟩
  · rw [RbTree3.unlink, ok1, ok_bind, ok2]
  · intro n hv hn
    rw [other2 _ (hvp hv)]
    exact self1 n hv hn
  · intro e _ _ hev hep
    rw [other2 e hep, other1 e hev]
  · rw [other2 _ hyp, other1 _ hvy]

theorem Shows.setValue (h : Shows T heap (fill K (node c l x r))) (w : Entry) :
    ∃ heap', heap.setValue x.addr w = .ok heap' ∧
      Shows T heap' (fill K (node c l ⟨x.addr, w⟩ r)) := by
  obtain ⟨heap', hok, hbecomes, hother⟩ := Rep.setValue (s := .left) h.rep w
  obtain ⟨hdr, hT, hroot⟩ := h.header
  obtain ⟨-, hxT, -⟩ := h.rep.read
  refine ⟨heap', hok, hbecomes.rep, hdr, (hother T hxT.symm).trans hT, ?_⟩
  apply root_fill hroot
  cases K with
  | nil => exact hroot
  | cons f K => rfl

theorem successorDown_spec (rep : Rep heap null T (fill K u)) (hu : u ≠ leaf) :
    Returns (fun turns => successorDown heap turns (ptr null u)) (ptr null (lowest K u).2) := by
  fun_induction lowest K u with
  | case1 K c c' l' x' r' x r ih =>
    obtain ⟨hne, -, hx⟩ := rep.read
    have hne' : ptr null (node c' l' x' r') ≠ null := by
      rw [ne_eq, Rep.ptr_eq_nil_iff (K := ⟨.left, c, x, r⟩ :: K) rep]
      simp
    refine (ih rep (by simp)).succ (fun turns => ?_)
    show successorDown heap (turns + 1) x.addr = _
    rw [successorDown, if_neg hne, hx, ok_bind]
    exact if_pos hne'
  | case2 K u hother =>
    cases u with
    | leaf => exact absurd rfl hu
    | node c l x r =>
      obtain ⟨hne, -, hx⟩ := rep.read
      cases l with
      | leaf =>
        refine Returns.of_succ (fun turns => ?_)
        show successorDown heap (turns + 1) x.addr = .ok x.addr
        rw [successorDown, if_neg hne, hx, ok_bind]
        exact if_neg (not_not.mpr rfl)
      | node c' l' x' r' => exact absurd rfl (hother c c' l' x' r' x r)

/-- The rotation that `delete_case2` leaves out: a black node without children is taken out
beside a red one. -/
def SkipsRotation (k : ℤ) (t : ColorTree (Cell Entry)) : Prop :=
  ∃ f rest y, takenOut keyOf k t = (f :: rest, node .black leaf y leaf) ∧ f.sibling.color = .red

/-- The balance is restored after a node has been passed by. -/
theorem deleteFixup_spec {w : Cell Entry} (h : Shows T heap (fill K v))
    (hvalid : Valid (fill K (branch s c leaf w v)))
    (hskip : ∀ f rest, K = f :: rest → c = .black → v = leaf → f.sibling.color ≠ .red) :
    ∃ heap' t', Returns (fun turns =>
        deleteFixup turns T c (parentOf T K) (ptr null v) heap) heap' ∧
      Shows T heap' t' ∧ Valid t' ∧ t'.toList = (fill K v).toList := by
  cases c with
  | red => exact ⟨heap, _, Returns.of_eq (fun _ => rfl), h, valid_without_red hvalid, rfl⟩
  | black =>
    obtain ⟨n, hdeficient, hctx⟩ := deficient_without_black hvalid
    obtain ⟨heap', hreturns, hshows⟩ := deleteOneChild_spec h hdeficient hctx
      (fun f rest hcons => hskip f rest hcons rfl)
    exact ⟨heap', _, hreturns, hshows, valid_deleteLoop hdeficient hctx, toList_deleteLoop K v⟩

theorem onlyChild_eq {child parent : Addr} {w : Entry} :
    onlyChild (sideNode s null child parent c w) = child := by
  rw [onlyChild]
  cases s with
  | left => exact if_neg (not_not.mpr rfl)
  | right =>
    show (if child ≠ null then child else null) = child
    split
    · rfl
    · rename_i hchild
      exact (not_not.mp hchild).symm

theorem deleteNode_one_child {g : Heap Entry} (h : Correct T g (fill K (branch s c leaf x v)))
    (hskip : ∀ f rest, K = f :: rest → c = .black → v = leaf → f.sibling.color ≠ .red) :
    ∃ heap' t', Returns (fun turns => deleteNode turns T x.addr g) heap' ∧ Correct T heap' t' ∧
      ∀ w, w ∈ entries t' ↔ w ∈ entries (fill K (branch s c leaf x v)) ∧ w.key ≠ keyOf x := by
  have hx : g x.addr = some (sideNode s null (ptr null v) (parentOf T K) c x.value) :=
    h.shown.rep.node_eq
  obtain ⟨h1, hunlink, s1, -⟩ := h.shown.unlink
  obtain ⟨h2, t', hreturns, s2, hvalid, hlist⟩ := deleteFixup_spec s1 h.valid hskip
  have hxmem : x.addr ∈ addrs (fill K (branch s c leaf x v)) :=
    mem_addrs_fill.mpr (.inr (mem_addrs_branch.mpr (.inl rfl)))
  have hnot : x.addr ∉ addrs t' := by
    obtain ⟨-, hxv, -, -, -, -, hxctx, -⟩ := h.shown.rep.parts
    have hsame : addrs t' = addrs (fill K v) := by rw [addrs, addrs, hlist]
    rw [hsame, mem_addrs_fill, not_or]
    exact ⟨hxctx, hxv⟩
  obtain ⟨as, bs, hold, hnew⟩ := entries_one_child K s c x v
  have hnew' : entries t' = as ++ bs := by rw [← hnew, entries, entries, hlist]
  have s3 := s2.free hnot (h.shown.rep.mem_ne_top hxmem)
  refine ⟨h2.free x.addr, t', ?_, ⟨s3, hvalid, increasing_erase h.increasing hold hnew'⟩,
    mem_erase_entry h.increasing hold hnew'⟩
  apply hreturns.after (Returns.of_eq (f := fun _ => .ok (h2.free x.addr)) (fun _ => rfl))
  intro turns hok
  have hone : (sideNode s null (ptr null v) (parentOf T K) c x.value).left = null ∨
      (sideNode s null (ptr null v) (parentOf T K) c x.value).right = null := by
    cases s with
    | left => exact .inl rfl
    | right => exact .inr rfl
  rw [deleteNode, Heap.node_eq hx, ok_bind, nodeToUnlink, if_pos hone, ok_bind, Heap.node_eq hx,
    ok_bind, onlyChild_eq, parent_sideNode, hunlink, ok_bind, copyEntry, if_neg (not_not.mpr rfl),
    ok_bind, color_sideNode, hok, ok_bind]

/-- A node with two children gets the entry of the one after it, which is passed by. -/
theorem deleteNode_two_children {g : Heap Entry} {q : Ctx (Cell Entry)} {e : Color}
    (h : Correct T g (fill K (node c l x r))) (hl : l ≠ leaf) (hr : r ≠ leaf)
    (hlow : lowest (⟨.right, c, x, l⟩ :: K) r =
      (q ++ ⟨.right, c, x, l⟩ :: K, node e leaf y v))
    (hfill : r = fill q (node e leaf y v)) (hbefore : before q = [])
    (hskip : ∀ f rest, q ++ ⟨.right, c, x, l⟩ :: K = f :: rest → e = .black → v = leaf →
      f.sibling.color ≠ .red) :
    ∃ heap' t', Returns (fun turns => deleteNode turns T x.addr g) heap' ∧ Correct T heap' t' ∧
      ∀ w, w ∈ entries t' ↔ w ∈ entries (fill K (node c l x r)) ∧ w.key ≠ keyOf x := by
  obtain ⟨hxnull, -, hx⟩ := h.shown.rep.read
  have hsuccessor := successorDown_spec (K := ⟨.right, c, x, l⟩ :: K) h.shown.rep hr
  rw [hlow] at hsuccessor
  have hview : fill K (node c l x r) =
      fill (q ++ ⟨.right, c, x, l⟩ :: K) (branch .left e leaf y v) := by
    rw [fill_append, hfill]
    rfl
  have hshown := h.shown
  rw [hview] at hshown
  obtain ⟨hynull, hyT, hy⟩ := hshown.rep.read
  have hy : g.node y.addr = .ok ⟨null, ptr null v,
      parentOf T (q ++ ⟨.right, c, x, l⟩ :: K), e, y.value⟩ := hy
  obtain ⟨h1, hunlink, s1, -⟩ := hshown.unlink
  obtain ⟨-, hyv, -, -, -, -, hyctx, -⟩ := hshown.rep.parts
  have hynot : y.addr ∉ addrs (fill (q ++ ⟨.right, c, x, l⟩ :: K) v) := by
    rw [mem_addrs_fill, not_or]
    exact ⟨hyctx, hyv⟩
  rw [fill_append] at s1 hynot
  have hynot : y.addr ∉ addrs (fill K (branch .left c l x (fill q v))) := hynot
  obtain ⟨h2, hcopy, s2⟩ := Shows.setValue (K := K) (c := c) (l := l) (x := x)
    (r := fill q v) s1 y.value
  -- the tree as it is seen from the place of the node taken out
  have hplace : fill K (node c l ⟨x.addr, y.value⟩ (fill q v)) =
      fill (q ++ ⟨.right, c, ⟨x.addr, y.value⟩, l⟩ :: K) v := by
    rw [fill_append]
    rfl
  rw [hplace] at s2
  have hvalid : Valid (fill (q ++ ⟨.right, c, ⟨x.addr, y.value⟩, l⟩ :: K)
      (branch .left e leaf y v)) := by
    have hrelabel := valid_relabel (s := .left) h.valid ⟨x.addr, y.value⟩
    rw [hfill] at hrelabel
    rw [fill_append]
    exact hrelabel
  have hparent : parentOf T (q ++ ⟨.right, c, ⟨x.addr, y.value⟩, l⟩ :: K) =
      parentOf T (q ++ ⟨.right, c, x, l⟩ :: K) := by cases q <;> rfl
  have hskip' : ∀ f rest, q ++ ⟨.right, c, ⟨x.addr, y.value⟩, l⟩ :: K = f :: rest →
      e = .black → v = leaf → f.sibling.color ≠ .red := by
    intro f rest hcons
    cases q with
    | nil =>
      obtain ⟨rfl, -⟩ := List.cons.inj hcons
      exact hskip ⟨.right, c, x, l⟩ K rfl
    | cons f q =>
      obtain ⟨rfl, -⟩ := List.cons.inj hcons
      exact hskip _ _ rfl
  obtain ⟨h3, t', hreturns, s3, hvalid', hlist⟩ := deleteFixup_spec s2 hvalid hskip'
  rw [hparent] at hreturns
  have hyx : y.addr ≠ x.addr := by
    rintro heq
    rw [heq] at hynot
    exact hynot (mem_addrs_fill.mpr (.inr (mem_addrs_branch.mpr (.inl rfl))))
  have hnot : y.addr ∉ addrs t' := by
    have hsame : addrs t' = addrs (fill K (node c l ⟨x.addr, y.value⟩ (fill q v))) := by
      rw [addrs, addrs, hlist, hplace]
    rw [hsame]
    show y.addr ∉ addrs (fill K (branch .left c l ⟨x.addr, y.value⟩ (fill q v)))
    rw [mem_addrs_fill, mem_addrs_branch] at hynot ⊢
    exact hynot
  obtain ⟨as, bs, hold, hnew⟩ := entries_two_children K c e l v x y hbefore
  rw [← hfill] at hold
  have hnew : entries t' = as ++ bs := by
    rw [← hnew, hplace, entries, entries, hlist]
  refine ⟨h3.free y.addr, t', ?_, ⟨s3.free hnot hyT, hvalid', increasing_erase h.increasing hold hnew⟩,
    mem_erase_entry h.increasing hold hnew⟩
  apply hsuccessor.after (hreturns.bind (k := fun _ g => .ok (g.free y.addr))
    (Returns.of_eq (fun _ => rfl)))
  intro turns hok
  have hlnull : ptr null l ≠ null := by
    rwa [ne_eq, Rep.ptr_eq_nil_iff (K := ⟨.left, c, x, r⟩ :: K) h.shown.rep]
  have hrnull : ptr null r ≠ null := by
    rwa [ne_eq, Rep.ptr_eq_nil_iff (K := ⟨.right, c, x, l⟩ :: K) h.shown.rep]
  have hchosen : nodeToUnlink turns T x.addr ⟨ptr null l, ptr null r, parentOf T K, c, x.value⟩ g =
      .ok y.addr := by
    rw [nodeToUnlink, if_neg (not_or.mpr ⟨hlnull, hrnull⟩), rbSuccessor, if_neg hxnull, hx, ok_bind]
    show (successorDown g turns (ptr null r) >>= _) = _
    rw [hok, ok_bind]
    exact if_neg hynull
  rw [deleteNode, hx, ok_bind, hchosen, ok_bind, hy, ok_bind]
  have honly : onlyChild ⟨null, ptr null v, parentOf T (q ++ ⟨.right, c, x, l⟩ :: K), e,
      y.value⟩ = ptr null v := onlyChild_eq (s := .left)
  rw [honly, hunlink, ok_bind, copyEntry, if_pos hyx, hcopy, ok_bind]

/-- The node with the key is taken out of the tree. -/
theorem deleteNode_spec (h : Correct T heap t) (hskip : ¬SkipsRotation k t)
    (hfound : (locate keyOf k [] t).2 = node c l x r) :
    ∃ heap' t', Returns (fun turns => deleteNode turns T x.addr heap) heap' ∧ Correct T heap' t' ∧
      ∀ w, w ∈ entries t' ↔ w ∈ entries t ∧ w.key ≠ keyOf x := by
  have hfill : fill (locate keyOf k [] t).1 (locate keyOf k [] t).2 = t := fill_locate
  rw [hfound] at hfill
  have honeChild : ∀ {s v}, node c l x r = branch s c leaf x v →
      ∃ heap' t', Returns (fun turns => deleteNode turns T x.addr heap) heap' ∧ Correct T heap' t' ∧
        ∀ w, w ∈ entries t' ↔ w ∈ entries t ∧ w.key ≠ keyOf x := by
    intro s v hbranch
    rw [hbranch] at hfill hfound
    have hone := deleteNode_one_child (T := T) (g := heap) (K := (locate keyOf k [] t).1)
      (s := s) (c := c) (x := x) (v := v)
    rw [hfill] at hone
    apply hone h
    intro f rest hcons hc hv hred
    apply hskip
    refine ⟨f, rest, x, ?_, hred⟩
    rw [takenOut_one_child hfound, hcons, hc, hv]
    cases s <;> rfl
  by_cases hl : l = leaf
  · exact honeChild (s := .left) (v := r) (by rw [hl]; rfl)
  by_cases hr : r = leaf
  · exact honeChild (s := .right) (v := l) (by rw [hr]; rfl)
  obtain ⟨low, cy, y, v, hlow, hlowest, hbefore⟩ :=
    lowest_spec (⟨.right, c, x, l⟩ :: (locate keyOf k [] t).1) hr
  have htwo := deleteNode_two_children (T := T) (g := heap) (K := (locate keyOf k [] t).1)
    (c := c) (x := x) (l := l) (r := r) (q := low) (e := cy) (y := y) (v := v)
  rw [hfill] at htwo
  apply htwo h hl hr hlow hlowest hbefore
  intro f rest hcons hc hv hred
  apply hskip
  refine ⟨f, rest, y, ?_, hred⟩
  rw [takenOut_two_children hfound hl hr, hlow, hcons, hc, hv]

/-- `rb_delete` takes out the entry with the key, if there is one. -/
theorem rbDelete_spec (h : Correct T heap t) (hskip : ¬SkipsRotation k t) :
    ∃ out t', Returns (fun turns => rbDelete turns T k heap) out ∧ Correct T out.2 t' ∧
      ∀ v, v ∈ entries t' ↔ v ∈ entries t ∧ v.key ≠ k := by
  have hsearch := h.search (k := k)
  by_cases hfound : (locate keyOf k [] t).2 = leaf
  · refine ⟨(null, heap), t, hsearch.after (Returns.of_eq (f := fun _ => .ok _) (fun _ => rfl)) ?_,
      h, ?_⟩
    · intro turns hok
      rw [rbDelete, hok, ok_bind, hfound]
      exact if_pos rfl
    · intro v
      have hnot := key_ne_of_not_found h.increasing hfound
      exact ⟨fun hv => ⟨hv, hnot v hv⟩, fun hv => hv.1⟩
  · obtain ⟨c, l, x, r, hnode, hkey⟩ := key_of_locate hfound
    obtain ⟨heap', t', hreturns, hcorrect, hmem⟩ := deleteNode_spec h hskip hnode
    rw [hkey] at hmem
    refine ⟨(T, heap'), t', hsearch.after (hreturns.bind (k := fun _ heap => .ok (T, heap))
      (Returns.of_eq (fun _ => rfl))) ?_, hcorrect, hmem⟩
    intro turns hok
    have hne : x.addr ≠ null :=
      h.shown.rep.mem_ne_nil (List.mem_map_of_mem (mem_of_found hnode))
    rw [rbDelete, hok, ok_bind, hnode]
    exact if_neg hne

end CServer.RbTree3
