import CServer.RbTree.RbTree1Calls

/-!
# Erasing in rb_tree.cpp

A node with one child at most is passed by; one with two children is replaced by the node after
it, which has no left child.
-/
namespace CServer.RbTree1

open RedBlack RedBlack.ColorTree Contents

variable {t : RbTree} {heap : Heap Entry} {T u v l r : ColorTree (Cell Entry)} {K : Ctx (Cell Entry)}
variable {k : ℤ} {s : Side} {c : Color} {x y : Cell Entry} {e : Addr}

theorem Shows.free (h : Shows t T) (he : e ∉ addrs T) : Shows ⟨t.heap.free e, t.root⟩ T := by
  have hsame : ∀ a ∈ addrs T, t.heap.free e a = t.heap a :=
    fun a ha => Function.update_of_ne (ne_of_mem_of_not_mem ha he) _ _
  exact ⟨⟨h.rep.holds.congr hsame, h.rep.nodup, h.rep.nil_notMem, h.rep.top_notMem⟩, h.root⟩

/-! ## Passing a node by -/

theorem Shows.unlink (h : Shows t (fill K (branch s c leaf y v))) :
    ∃ t', unlink y.addr (ptr null v) (parentOf null K) t = .ok t' ∧ Shows t' (fill K v) ∧
      t'.heap y.addr = t.heap y.addr := by
  obtain ⟨-, hyv, -⟩ := h.rep.parts
  have hmem : v ≠ leaf → ptr null v ∈ addrs (branch s c leaf y v) :=
    fun hv => mem_addrs_branch.mpr (.inr (.inr (mem_addrs_of_ne_leaf hv)))
  have hvp : v ≠ leaf → ptr null v ≠ parentOf null K := fun hv => h.rep.below_ne_parentOf (hmem hv)
  have hvy : v ≠ leaf → y.addr ≠ ptr null v :=
    fun hv => (ne_of_mem_of_not_mem (mem_addrs_of_ne_leaf hv) hyv).symm
  have hyp : y.addr ≠ parentOf null K := h.rep.below_ne_parentOf (mem_addrs_branch.mpr (.inl rfl))
  have hrep := h.rep
  rw [← fill_far] at hrep
  obtain ⟨h1, ok1, self1, other1⟩ := Heap.adopt_spec (g := t.heap) (p := parentOf null K)
    hrep.ptr_eq_nil_iff (holds_fill.mp hrep.holds).2.allocated
  obtain ⟨t2, ok2, self2, other2, root2⟩ := replaceChild_spec (t := ⟨h1, t.root⟩) (K := K)
    (o := y.addr) (w := ptr null v) (g := sideInErase y.addr)
    (by
      rintro f rest rfl
      have hf := h.rep.frame_eq
      rw [ptr_branch] at hf
      refine ⟨h.rep.mem_ne_nil (mem_addrs_fill.mpr (.inl List.mem_cons_self)), ?_⟩
      exact (other1 _ (fun hv => (hvp hv).symm)).trans hf)
    (by
      rintro f rest rfl
      have hne := h.rep.sibling_ne branch_ne_leaf
      rw [ptr_branch] at hne
      exact Frame.side_of_left hne)
  refine ⟨t2, ?_, ⟨h.rep.unlink ?_ self2 ?_, root_fill h.root root2⟩, ?_⟩
  · rw [RbTree1.unlink, ok1, ok_bind, ok2]
  · intro n hv hn
    rw [other2 _ (hvp hv)]
    exact self1 n hv hn
  · intro e _ _ hev hep
    rw [other2 e hep]
    exact other1 e hev
  · rw [other2 _ hyp]
    exact other1 _ hvy

/-- A node elsewhere takes the place of a node with a left child. -/
theorem Shows.relocate {n : Node Entry} (h : Shows t (fill K (node c l x r))) (hl : l ≠ leaf)
    (hn : t.heap e = some n) (he : e ∉ addrs (fill K (node c l x r))) (hnull : e ≠ null) :
    ∃ t', relocate e x.addr t = .ok t' ∧ Shows t' (fill K (node c l ⟨e, n.value⟩ r)) := by
  have hrep : Rep t.heap null null (fill K (branch .left c l x r)) := h.rep
  obtain ⟨hxl, hxr, -, -, hlr, -⟩ := hrep.parts
  have hx : t.heap x.addr = some ⟨ptr null l, ptr null r, parentOf null K, c, x.value⟩ :=
    hrep.node_eq
  have hmem : ∀ {a}, a ∈ addrs l ∨ a ∈ addrs r → a ∈ addrs (branch .left c l x r) :=
    fun ha => mem_addrs_branch.mpr (.inr ha)
  have hea : ∀ {a}, a ∈ addrs (branch .left c l x r) → a ≠ e :=
    fun ha => ne_of_mem_of_not_mem (mem_addrs_fill.mpr (.inr ha)) he
  have hlmem := mem_addrs_of_ne_leaf (n := null) hl
  have hep : e ≠ parentOf null K :=
    ne_parentOf (fun ha => he (mem_addrs_fill.mpr (.inl ha))) hnull
  have hlp : ptr null l ≠ parentOf null K := hrep.below_ne_parentOf (hmem (.inl hlmem))
  have hrmem : r ≠ leaf → ptr null r ∈ addrs r := mem_addrs_of_ne_leaf
  have hrp : r ≠ leaf → ptr null r ≠ parentOf null K :=
    fun hr => hrep.below_ne_parentOf (hmem (.inr (hrmem hr)))
  have hlrne : r ≠ leaf → ptr null r ≠ ptr null l :=
    fun hr => (ne_of_mem_of_not_mem hlmem (fun ha => hlr _ ha (hrmem hr))).symm
  -- the fields of the node that comes
  obtain ⟨h1, ok1, self1, other1⟩ :=
    Heap.modify_spec hn (fun n => { n with parent := parentOf null K })
  obtain ⟨h2, ok2, self2, other2⟩ := Heap.modify_spec self1 (fun n => { n with color := c })
  obtain ⟨h3, ok3, self3, other3⟩ :=
    Heap.modify_spec self2 (fun n => n.setChild (ptr null r) .right)
  obtain ⟨h4, ok4, self4, other4⟩ :=
    Heap.modify_spec self3 (fun n => n.setChild (ptr null l) .left)
  have same4 : ∀ a, a ≠ e → h4 a = t.heap a :=
    fun a ha => by rw [other4 a ha, other3 a ha, other2 a ha, other1 a ha]
  obtain ⟨t5, ok5, self5, other5, root5⟩ := replaceChild_spec (t := ⟨h4, t.root⟩) (K := K)
    (o := x.addr) (w := e) (g := sideInErase x.addr)
    (by
      rintro f rest rfl
      refine ⟨h.rep.mem_ne_nil (mem_addrs_fill.mpr (.inl List.mem_cons_self)), ?_⟩
      exact (same4 _ hep.symm).trans h.rep.frame_eq)
    (by
      rintro f rest rfl
      exact Frame.side_of_left (h.rep.sibling_ne (by simp)))
  -- the children get a new parent
  obtain ⟨nl, hnl⟩ := (holds_fill.mp h.rep.holds).2.2.1.allocated hl
  have hnl5 : t5.heap (ptr null l) = some nl := by
    rw [other5 _ hlp, ← hnl]
    exact same4 _ (hea (hmem (.inl hlmem)))
  obtain ⟨h6, ok6, self6, other6⟩ := Heap.modify_spec hnl5 (fun n => { n with parent := e })
  have same6 : r ≠ leaf → h6 (ptr null r) = t.heap (ptr null r) := by
    intro hr
    rw [other6 _ (hlrne hr), other5 _ (hrp hr)]
    exact same4 _ (hea (hmem (.inr (hrmem hr))))
  obtain ⟨h7, ok7, self7, other7⟩ := Heap.adopt_spec (g := h6) (t := r) (p := e)
    (Rep.ptr_eq_nil_iff (K := ⟨.right, c, x, l⟩ :: K) h.rep)
    (fun hr => by rw [same6 hr]; exact (holds_fill.mp h.rep.holds).2.2.2.allocated hr)
  have hrep7 : Rep h7 null null (fill K (branch .left c l ⟨e, n.value⟩ r)) := by
    apply hrep.relocate he hnull hnull
    · rw [other7 _ (fun hr => (hea (hmem (.inr (hrmem hr)))).symm),
        other6 _ (hea (hmem (.inl hlmem))).symm, other5 _ hep]
      exact self4
    · intro m _ hm
      rw [hnl] at hm
      rw [other7 _ (fun hr => (hlrne hr).symm), self6, Option.some.inj hm]
    · intro m hr hm
      exact self7 m hr (by rw [same6 hr, hm])
    · intro f rest hctx
      subst hctx
      show h7 (parentOf null (f :: rest)) = _
      rw [other7 _ (fun hr => (hrp hr).symm), other6 _ hlp.symm]
      exact self5 f rest rfl
    · intro a _ hae hal har hap
      rw [other7 a har, other6 a (hal hl), other5 a hap]
      exact same4 a hae
  refine ⟨⟨h7, t5.root⟩, ?_, hrep7, root_fill h.root root5⟩
  simp only [RbTree1.relocate, Heap.node_eq hx, ok_bind, Heap.setParent, Heap.setColor,
    Heap.setChild, ok1, ok2, ok3, ok4, ok5, ok6, ok7]

theorem leftmost_spec (rep : Rep heap null null (fill K u)) (hu : u ≠ leaf) :
    Returns (fun turns => leftmost heap turns (ptr null u)) (ptr null (lowest K u).2) := by
  fun_induction lowest K u with
  | case1 K c c' l' x' r' x r ih =>
    have hnode := (holds_fill.mp rep.holds).2.1
    have hne : ptr null (node c' l' x' r') ≠ null := by
      rw [ne_eq, Rep.ptr_eq_nil_iff (K := ⟨.left, c, x, r⟩ :: K) rep]
      simp
    refine (ih rep (by simp)).succ (fun turns => ?_)
    show leftmost heap (turns + 1) x.addr = leftmost heap turns x'.addr
    rw [leftmost, Heap.node_eq hnode, ok_bind]
    exact if_pos hne
  | case2 K u hother =>
    cases u with
    | leaf => exact absurd rfl hu
    | node c l x r =>
      cases l with
      | leaf =>
        refine Returns.of_succ (fun turns => ?_)
        show leftmost heap (turns + 1) x.addr = .ok x.addr
        rw [leftmost, Heap.node_eq (holds_fill.mp rep.holds).2.1, ok_bind]
        rfl
      | node c' l' x' r' => exact absurd rfl (hother c c' l' x' r' x r)

/-! ## The two branches -/

/-- The balance is restored after a node has been passed by. -/
theorem eraseRebalancing_spec {t₁ : RbTree} {z : Cell Entry} (h : Shows t₁ (fill K v))
    (hvalid : Valid (fill K (branch s c leaf z v))) (he : e ∉ addrs (fill K v)) :
    ∃ t' T', Returns (fun turns => eraseRebalancing turns e ⟨t₁, c, ptr null v, parentOf null K⟩) t' ∧
      Shows t' T' ∧ Valid T' ∧ T'.toList = (fill K v).toList := by
  have hfree := h.free he
  cases c with
  | red =>
    refine ⟨_, _, Returns.of_eq (fun _ => rfl), hfree, valid_without_red hvalid, rfl⟩
  | black =>
    obtain ⟨n, hdeficient, hctx⟩ := deficient_without_black hvalid
    obtain ⟨t', hreturns, hshows⟩ := rbEraseRebalance_spec hfree hdeficient hctx
    exact ⟨t', _, hreturns, hshows, valid_deleteLoop hdeficient hctx, toList_deleteLoop K v⟩

theorem only_child {child parent : Addr} {w : Entry} :
    (if (sideNode s null child parent c w).left = null then (sideNode s null child parent c w).right
      else (sideNode s null child parent c w).left) = child := by
  cases s with
  | left => exact if_pos rfl
  | right =>
    show (if child = null then null else child) = child
    split
    · rename_i hchild
      exact hchild.symm
    · rfl

/-- A node with one child at most. -/
theorem eraseUnlinking_spec (h : Shows t (fill K (branch s c leaf x v))) :
    ∃ t', eraseUnlinking x.addr t = .ok ⟨t', c, ptr null v, parentOf null K⟩ ∧
      Shows t' (fill K v) := by
  have hx : t.heap x.addr = some (sideNode s null (ptr null v) (parentOf null K) c x.value) :=
    h.rep.node_eq
  obtain ⟨t', hok, hshows, -⟩ := h.unlink
  refine ⟨t', ?_, hshows⟩
  simp only [eraseUnlinking, Heap.node_eq hx, ok_bind, only_child, parent_sideNode, color_sideNode,
    hok]

/-- A node with two children: the one after it, `y`, comes to its place. -/
theorem eraseRelocating_spec {low : Ctx (Cell Entry)} {cy : Color}
    (h : Shows t (fill K (node c l x r))) (hl : l ≠ leaf) (hr : r ≠ leaf)
    (hlow : lowest (⟨.right, c, x, l⟩ :: K) r =
      (low ++ ⟨.right, c, x, l⟩ :: K, node cy leaf y v))
    (hfill : r = fill low (node cy leaf y v)) :
    ∃ t', Returns (fun turns => eraseRelocating turns x.addr t)
        ⟨t', cy, ptr null v, parentOf null (low ++ ⟨.right, c, y, l⟩ :: K)⟩ ∧
      Shows t' (fill (low ++ ⟨.right, c, y, l⟩ :: K) v) := by
  have hx : t.heap x.addr = some ⟨ptr null l, ptr null r, parentOf null K, c, x.value⟩ :=
    (holds_fill.mp h.rep.holds).2.1
  have hleftmost := leftmost_spec (K := ⟨.right, c, x, l⟩ :: K) h.rep hr
  rw [hlow] at hleftmost
  have hview : fill K (node c l x r) =
      fill (low ++ ⟨.right, c, x, l⟩ :: K) (branch .left cy leaf y v) := by
    rw [fill_append, hfill]
    rfl
  have h' := h
  rw [hview] at h'
  have hy : t.heap y.addr = some ⟨null, ptr null v,
      parentOf null (low ++ ⟨.right, c, x, l⟩ :: K), cy, y.value⟩ := h'.rep.node_eq
  have hparent : (if parentOf null (low ++ ⟨.right, c, x, l⟩ :: K) = x.addr then y.addr
      else parentOf null (low ++ ⟨.right, c, x, l⟩ :: K)) =
      parentOf null (low ++ ⟨.right, c, y, l⟩ :: K) := by
    cases low with
    | nil => exact if_pos rfl
    | cons f rest =>
      apply if_neg
      rintro (heq : f.label.addr = x.addr)
      obtain ⟨hnot, -⟩ := List.nodup_cons.mp h'.rep.nodup_parts.1
      apply hnot
      rw [heq]
      have hmem : (⟨.right, c, x, l⟩ : Frame (Cell Entry)) ∈ rest ++ ⟨.right, c, x, l⟩ :: K := by
        simp
      exact List.mem_append_right _ (label_mem_ctxAddrs hmem)
  obtain ⟨t1, hunlink, s1, hkept⟩ := h'.unlink
  have hynot : y.addr ∉ addrs (fill (low ++ ⟨.right, c, x, l⟩ :: K) v) := by
    obtain ⟨-, hyv, -, -, -, -, hyctx, -⟩ := h'.rep.parts
    rw [mem_addrs_fill, not_or]
    exact ⟨hyctx, hyv⟩
  rw [fill_append] at s1 hynot
  obtain ⟨t2, hrelocate, s2⟩ := Shows.relocate (K := K) (c := c) (l := l) (x := x)
    (r := fill low v) s1 hl (hkept.trans hy) hynot
    (h'.rep.mem_ne_nil (mem_addrs_fill.mpr (.inr (mem_addrs_branch.mpr (.inl rfl)))))
  refine ⟨t2, hleftmost.after (Returns.of_eq (f := fun _ => .ok _) (fun _ => rfl)) ?_, ?_⟩
  · intro turns hok
    have hok' : leftmost t.heap turns (ptr null r) = .ok y.addr := hok
    simp only [eraseRelocating, Heap.node_eq hx, ok_bind, hok', Heap.node_eq hy, hunlink,
      hrelocate, hparent]
  · rw [fill_append]
    exact s2

/-! ## The whole function -/

/-- An entry less in a correct tree. -/
theorem Correct.erased {t' : RbTree} {T' : ColorTree (Cell Entry)} {as bs : List (Cell Entry)}
    (h : Correct t T) (hT : T.toList = as ++ x :: bs) (hshows : Shows t' T') (hvalid : Valid T')
    (hT' : T'.toList = as ++ bs) :
    Correct t' T' ∧ ∀ v, v ∈ entries T' ↔ v ∈ entries T ∧ v.key ≠ keyOf x := by
  have hold : entries T = as.map Cell.value ++ x.value :: bs.map Cell.value := by
    rw [entries, hT, List.map_append, List.map_cons]
  have hnew : entries T' = as.map Cell.value ++ bs.map Cell.value := by
    rw [entries, hT', List.map_append]
  refine ⟨⟨hshows, hvalid, increasing_erase h.increasing hold hnew, ?_⟩,
    mem_erase_entry h.increasing hold hnew⟩
  intro z hz
  apply h.inRange z
  rw [hT'] at hz
  rw [hT]
  rcases List.mem_append.mp hz with hz | hz
  · exact List.mem_append_left _ hz
  · exact List.mem_append_right _ (List.mem_cons_of_mem _ hz)

theorem eraseNode_one_child (h : Correct t (fill K (branch s c leaf x v))) :
    ∃ t' T', Returns (fun turns => eraseNode turns x.addr t) t' ∧ Correct t' T' ∧
      ∀ w, w ∈ entries T' ↔ w ∈ entries (fill K (branch s c leaf x v)) ∧ w.key ≠ keyOf x := by
  have hx : t.heap x.addr = some (sideNode s null (ptr null v) (parentOf null K) c x.value) :=
    h.shown.rep.node_eq
  obtain ⟨t1, hok, s1⟩ := eraseUnlinking_spec h.shown
  have hnot : x.addr ∉ addrs (fill K v) := by
    obtain ⟨-, hxv, -, -, -, -, hxctx, -⟩ := h.shown.rep.parts
    rw [mem_addrs_fill, not_or]
    exact ⟨hxctx, hxv⟩
  obtain ⟨t2, T', hreturns, s2, hvalid, hlist⟩ := eraseRebalancing_spec s1 h.valid hnot
  obtain ⟨as, bs, hT, hT'⟩ := toList_one_child K s c x v
  refine ⟨t2, T', hreturns.congr ?_, h.erased hT s2 hvalid (hlist.trans hT')⟩
  intro turns
  have hone : ¬((sideNode s null (ptr null v) (parentOf null K) c x.value).left ≠ null ∧
      (sideNode s null (ptr null v) (parentOf null K) c x.value).right ≠ null) := by
    cases s with
    | left => exact fun hboth => hboth.1 rfl
    | right => exact fun hboth => hboth.2 rfl
  rw [eraseNode, Heap.node_eq hx, ok_bind, if_neg hone, hok, ok_bind]

theorem eraseNode_two_children (h : Correct t (fill K (node c l x r))) (hl : l ≠ leaf)
    (hr : r ≠ leaf) :
    ∃ t' T', Returns (fun turns => eraseNode turns x.addr t) t' ∧ Correct t' T' ∧
      ∀ w, w ∈ entries T' ↔ w ∈ entries (fill K (node c l x r)) ∧ w.key ≠ keyOf x := by
  have hx : t.heap x.addr = some ⟨ptr null l, ptr null r, parentOf null K, c, x.value⟩ :=
    (holds_fill.mp h.shown.rep.holds).2.1
  obtain ⟨low, cy, y, v, hlow, hfill, hbefore⟩ := lowest_spec (⟨.right, c, x, l⟩ :: K) hr
  obtain ⟨t1, hreturns1, s1⟩ := eraseRelocating_spec h.shown hl hr hlow hfill
  have hvalid : Valid (fill (low ++ ⟨.right, c, y, l⟩ :: K) (branch .left cy leaf y v)) := by
    have hrelabel := valid_relabel (s := .left) h.valid y
    rw [hfill] at hrelabel
    rw [fill_append]
    exact hrelabel
  have hnot : x.addr ∉ addrs (fill (low ++ ⟨.right, c, y, l⟩ :: K) v) := by
    obtain ⟨hxl, hxr, -, -, -, -, hxctx, -⟩ :=
      Rep.parts (s := .left) h.shown.rep
    rw [hfill, mem_addrs_fill, not_or] at hxr
    obtain ⟨hxlow, hxy⟩ := hxr
    rw [show node cy leaf y v = branch .left cy leaf y v from rfl, mem_addrs_branch] at hxy
    rw [fill_append]
    show x.addr ∉ addrs (fill K (branch .left c l y (fill low v)))
    simp only [mem_addrs_fill, mem_addrs_branch]
    tauto
  obtain ⟨t2, T', hreturns2, s2, hvalid', hlist⟩ := eraseRebalancing_spec s1 hvalid hnot
  have hT : (fill K (node c l x r)).toList =
      (before K ++ l.toList) ++ x :: (y :: v.toList ++ after low ++ after K) := by
    rw [hfill]
    simp [toList_fill, toList, hbefore]
  have hT' : (fill (low ++ ⟨.right, c, y, l⟩ :: K) v).toList =
      (before K ++ l.toList) ++ (y :: v.toList ++ after low ++ after K) := by
    rw [toList_fill, before_append hbefore, after_append]
    simp [before, after, Frame.before, Frame.after]
  refine ⟨t2, T', hreturns1.after hreturns2 ?_, h.erased hT s2 hvalid' (hlist.trans hT')⟩
  intro turns hok
  have hlnull : ptr null l ≠ null := by
    rwa [ne_eq, Rep.ptr_eq_nil_iff (K := ⟨.left, c, x, r⟩ :: K) h.shown.rep]
  have hrnull : ptr null r ≠ null := by
    rwa [ne_eq, Rep.ptr_eq_nil_iff (K := ⟨.right, c, x, l⟩ :: K) h.shown.rep]
  rw [eraseNode, Heap.node_eq hx, ok_bind, if_pos ⟨hlnull, hrnull⟩, hok, ok_bind]

theorem eraseNode_spec (h : Correct t (fill K (node c l x r))) :
    ∃ t' T', Returns (fun turns => eraseNode turns x.addr t) t' ∧ Correct t' T' ∧
      ∀ w, w ∈ entries T' ↔ w ∈ entries (fill K (node c l x r)) ∧ w.key ≠ keyOf x := by
  by_cases hl : l = leaf
  · subst hl
    exact eraseNode_one_child (s := .left) h
  by_cases hr : r = leaf
  · subst hr
    exact eraseNode_one_child (s := .right) h
  exact eraseNode_two_children h hl hr

/-- `rb_erase` takes out the node with the key, if there is one. -/
theorem rbErase_spec (h : Correct t T) (hk : InRange k) :
    ∃ t' T', Returns (fun turns => rbErase turns k t) t' ∧ Correct t' T' ∧
      ∀ v, v ∈ entries T' ↔ v ∈ entries T ∧ v.key ≠ k := by
  have hsearch := h.search hk
  have hfill : fill (locate keyOf k [] T).1 (locate keyOf k [] T).2 = T := fill_locate
  by_cases hfound : (locate keyOf k [] T).2 = leaf
  · refine ⟨t, T, hsearch.after (Returns.of_eq (f := fun _ => .ok t) (fun _ => rfl)) ?_, h, ?_⟩
    · intro turns hok
      rw [rbErase, hok, ok_bind, answer, hfound]
      rfl
    · intro z
      have hnot := key_ne_of_not_found h.increasing hfound
      exact ⟨fun hz => ⟨hz, hnot z hz⟩, fun hz => hz.1⟩
  · obtain ⟨c, l, x, r, hnode, hkey⟩ := key_of_locate hfound
    rw [hnode] at hfill
    rw [← hfill] at h ⊢
    obtain ⟨t', T', hreturns, hcorrect, hmem⟩ := eraseNode_spec h
    rw [hkey] at hmem
    refine ⟨t', T', hsearch.after hreturns ?_, hcorrect, hmem⟩
    intro turns hok
    have hne : x.addr ≠ null := by
      have hrep := h.shown.rep
      exact hrep.mem_ne_nil
        (mem_addrs_fill.mpr (.inr ((mem_addrs_branch (s := .left)).mpr (.inl rfl))))
    rw [rbErase, hok, ok_bind, answer, hnode]
    exact if_neg hne

end CServer.RbTree1
