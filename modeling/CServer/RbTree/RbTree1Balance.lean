import CServer.RbTree.RbTree1
import CServer.Foundation.TreeEdits
import CServer.Foundation.Rebalancing

/-!
# Rotations and rebalancing in rb_tree.cpp

Each write of the rotations and of both rebalancing loops is an edit of the tree that the memory
holds, and the loops follow the rebalancing from a hole upwards.
-/
namespace CServer.RbTree1

open RedBlack RedBlack.ColorTree Contents

/-- The memory holds the tree, and `root` points to it. -/
structure Shows (t : RbTree) (T : ColorTree (Cell Entry)) : Prop where
  rep : Rep t.heap null null T
  root : t.root = ptr null T

variable {t : RbTree} {heap : Heap Entry} {T u : ColorTree (Cell Entry)} {K : Ctx (Cell Entry)}
variable {s : Side} {c c' : Color} {x y : Cell Entry} {a b d : ColorTree (Cell Entry)}
variable {p hole child : Addr} {side : Node Entry → Side}

/-! ## Links to a parent and to a child -/

/-- The link from above to a hole, for any test that finds the right side. -/
theorem replaceChild_spec {o w : Addr} {g : Node Entry → Side}
    (hhead : ∀ f rest, K = f :: rest → f.label.addr ≠ null ∧
      t.heap f.label.addr = some (f.node null o (parentOf null rest)))
    (hside : ∀ f rest, K = f :: rest → g (f.node null o (parentOf null rest)) = f.side) :
    ∃ t', replaceChild g (parentOf null K) w t = .ok t' ∧
      (∀ f rest, K = f :: rest →
        t'.heap f.label.addr = some (f.node null w (parentOf null rest))) ∧
      (∀ e, e ≠ parentOf null K → t'.heap e = t.heap e) ∧
      t'.root = if K = [] then w else t.root := by
  cases K with
  | nil => exact ⟨⟨t.heap, w⟩, rfl, fun f rest h => absurd h (by simp), fun _ _ => rfl, rfl⟩
  | cons f rest =>
    obtain ⟨hne, hf⟩ := hhead f rest rfl
    obtain ⟨heap', hok, hself, hother⟩ :=
      Heap.modify_spec hf (fun n => n.setChild w f.side)
    refine ⟨⟨heap', t.root⟩, ?_, ?_, hother, rfl⟩
    · rw [replaceChild, parentOf, if_pos hne, Heap.node_eq hf, ok_bind, hside f rest rfl]
      show (t.heap.modify f.label.addr (fun n => n.setChild w f.side) >>= _) = _
      rw [hok, ok_bind]
    · intro f' rest' h
      obtain ⟨rfl, rfl⟩ := List.cons.inj h
      show heap' f.label.addr = _
      rw [hself, Frame.setChild_node]

theorem Shows.rotate {e : Color} (h : Shows t (fill K (branch s c a x (branch s e b y d)))) :
    ∃ t', rbRotate s x.addr t = .ok t' ∧
      Shows t' (fill K (branch s e (branch s c a x b) y d)) := by
  have hx := h.rep.node_eq
  rw [ptr_branch] at hx
  have hy := h.rep.child_eq
  have site := h.rep.rotationSite
  obtain ⟨h1, ok1, self1, other1⟩ :=
    Heap.modify_spec hx (fun n => n.setChild (ptr null b) s.other)
  obtain ⟨h2, ok2, self2, other2⟩ := Heap.adopt_spec (g := h1) (p := x.addr) site.ptr_eq_nil_iff
    (fun hb => by rw [other1 _ (site.xb hb).symm]; exact site.allocated hb)
  have hy2 : h2 y.addr = t.heap y.addr := by
    rw [other2 _ site.yb, other1 _ site.xy.symm]
  rw [hy] at hy2
  obtain ⟨h3, ok3, self3, other3⟩ := Heap.modify_spec hy2 (fun n => n.setChild x.addr s)
  obtain ⟨h4, ok4, self4, other4⟩ :=
    Heap.modify_spec self3 (fun n => { n with parent := parentOf null K })
  have same4 : ∀ e, e ≠ x.addr → e ≠ y.addr → (b ≠ leaf → e ≠ ptr null b) → h4 e = t.heap e :=
    fun e hex hey heb => by rw [other4 e hey, other3 e hey, other2 e heb, other1 e hex]
  obtain ⟨t5, ok5, self5, other5, root5⟩ := replaceChild_spec (t := ⟨h4, t.root⟩) (K := K)
    (o := x.addr) (w := y.addr) (g := sideInRotation x.addr)
    (by
      rintro f rest rfl
      refine ⟨h.rep.mem_ne_nil (mem_addrs_fill.mpr (.inl List.mem_cons_self)), ?_⟩
      have hf := h.rep.frame_eq
      rw [ptr_branch] at hf
      exact (same4 _ site.xp.symm site.yp.symm (fun hb => (site.bp hb).symm)).trans hf)
    (by
      rintro f rest rfl
      apply Frame.side_of_right
      rw [← ptr_branch (s := s) (c := c) (x := x)]
      exact h.rep.sibling_ne (by cases s <;> simp [branch]))
  have hx5 : t5.heap x.addr = some (sideNode s (ptr null a) (ptr null b) (parentOf null K) c x.value) := by
    rw [other5 _ site.xp]
    show h4 x.addr = _
    rw [other4 _ site.xy, other3 _ site.xy, other2 _ site.xb, self1, setChild_other_sideNode]
  obtain ⟨h6, ok6, self6, other6⟩ := Heap.modify_spec hx5 (fun n => { n with parent := y.addr })
  have same6 : ∀ e, e ≠ x.addr → e ≠ y.addr → (b ≠ leaf → e ≠ ptr null b) →
      e ≠ parentOf null K → h6 e = t.heap e := by
    intro e hex hey heb hep
    rw [other6 e hex, other5 e hep]
    exact same4 e hex hey heb
  refine ⟨⟨h6, t5.root⟩, ?_, ?_, ?_⟩
  · simp only [rbRotate, Heap.setChild, Heap.setParent, Heap.node_eq hx, Heap.node_eq hy, ok_bind,
      child_other_sideNode, child_sideNode, parent_sideNode, ok1, ok2, ok3, ok4, ok5, ok6]
  · refine (h.rep.rotate (g := h6) ?_ ?_ ?_ ?_ same6).rep
    · rw [self6, setParent_sideNode]
    · rw [other6 _ site.xy.symm, other5 _ site.yp]
      show h4 y.addr = _
      rw [self4, setChild_sideNode, setParent_sideNode]
    · intro n hb hn
      rw [other6 _ (site.xb hb).symm, other5 _ (site.bp hb)]
      show h4 (ptr null b) = _
      rw [other4 _ (site.yb hb).symm, other3 _ (site.yb hb).symm]
      exact self2 n hb (by rw [other1 _ (site.xb hb).symm, hn])
    · intro f rest hctx
      rw [other6 _ (by subst hctx; exact site.xp.symm), self5 f rest hctx]
  · apply root_fill h.root
    rw [ptr_branch]
    exact root5

/-- The rotation to the other side takes it back. -/
theorem Shows.rotateBack (h : Shows t (fill K (branch s c' (branch s c a x b) y d))) :
    ∃ t', rbRotate s.other y.addr t = .ok t' ∧
      Shows t' (fill K (branch s c a x (branch s c' b y d))) := by
  have hrotate := Shows.rotate (t := t) (K := K) (s := s.other) (c := c') (e := c) (x := y)
    (y := x) (a := d) (b := b) (d := a)
  simp only [branch_other] at hrotate
  exact hrotate h

/-! ## Colours -/

theorem Shows.setColor (h : Shows t (fill K u)) (hu : u ≠ leaf) (c : Color) :
    ∃ heap, t.heap.setColor (ptr null u) c = .ok heap ∧
      Shows ⟨heap, t.root⟩ (fill K (u.paint c)) := by
  obtain ⟨heap, hok, hbecomes, -⟩ := h.rep.setColor hu c
  refine ⟨heap, hok, hbecomes.rep, ?_⟩
  apply root_fill h.root
  rw [ptr_paint]
  cases K with
  | nil => exact h.root
  | cons f K => rfl

/-- The colour of the node in the hole. -/
theorem Shows.setColor_top (h : Shows t (fill K (branch s c a x b))) (c' : Color) :
    ∃ heap, t.heap.setColor x.addr c' = .ok heap ∧
      Shows ⟨heap, t.root⟩ (fill K (branch s c' a x b)) := by
  have hset := h.setColor branch_ne_leaf c'
  rwa [ptr_branch, paint_branch] at hset

/-- The colour of a child of the node in the hole. -/
theorem Shows.setColor_near (h : Shows t (fill K (branch s c u x b))) (hu : u ≠ leaf)
    (c' : Color) : ∃ heap, t.heap.setColor (ptr null u) c' = .ok heap ∧
      Shows ⟨heap, t.root⟩ (fill K (branch s c (u.paint c') x b)) :=
  Shows.setColor (K := ⟨s, c, x, b⟩ :: K) h hu c'

theorem Shows.setColor_far (h : Shows t (fill K (branch s c a x u))) (hu : u ≠ leaf)
    (c' : Color) : ∃ heap, t.heap.setColor (ptr null u) c' = .ok heap ∧
      Shows ⟨heap, t.root⟩ (fill K (branch s c a x (u.paint c'))) := by
  rw [← branch_other] at h ⊢
  exact h.setColor_near hu c'

/-! ## The loop of the insertion -/

theorem rbInsertRebalance_succ (turns : ℕ) (node : Addr) (t : RbTree) :
    rbInsertRebalance (turns + 1) node t = (do
      let n ← t.heap.node node
      let parent := n.parent
      let parentRed ← t.heap.isRed null parent
      if parentRed then do
        let p ← t.heap.node parent
        let g ← t.heap.node p.parent
        let next ← insertTurn (if parent = g.left then .left else .right) node parent p.parent t
        rbInsertRebalance turns next.1 next.2
      else do
        let heap ← t.heap.setColor t.root .black
        .ok ⟨heap, t.root⟩) := rfl

/-- The loop ends below a black node, or at the root. -/
theorem rbInsertRebalance_exit (h : Shows t (fill K u)) (hu : u ≠ leaf)
    (hblack : ∀ f rest, K = f :: rest → f.color = .black) :
    ∃ t', (∀ turns, rbInsertRebalance (turns + 1) (ptr null u) t = .ok t') ∧
      Shows t' ((fill K u).paint .black) := by
  obtain ⟨n, hn, hparent⟩ := h.rep.parent_eq hu
  have hred : t.heap.isRed null (parentOf null K) = .ok false := by
    cases K with
    | nil => rfl
    | cons f rest =>
      rw [parentOf, h.rep.isRed_frame, hblack f rest rfl]
      rfl
  have hroot : fill K u ≠ leaf := by
    intro hleaf
    have hmem : ptr null u ∈ addrs (fill K u) := mem_addrs_fill.mpr (.inr (mem_addrs_of_ne_leaf hu))
    rw [hleaf] at hmem
    exact absurd hmem List.not_mem_nil
  obtain ⟨heap, hok, hshows⟩ := Shows.setColor (K := []) h hroot .black
  refine ⟨⟨heap, t.root⟩, ?_, hshows⟩
  intro turns
  rw [← h.root] at hok
  simp [rbInsertRebalance_succ, Heap.node_eq hn, ok_bind, hparent, hred, hok]

variable {p g : Frame (Cell Entry)}

/-- The red uncle, the parent and the grandparent change colours. -/
theorem insertTurn_recolour (h : Shows t (fill (p :: g :: K) u)) (hg : g.sibling.color = .red) :
    ∃ t', insertTurn g.side (ptr null u) p.label.addr g.label.addr t =
        .ok (ptr null (recoloured p g u), t') ∧
      Shows t' (fill K (recoloured p g u)) := by
  have hgnode := Rep.frame_eq (f := g) (t := p.fill u) h.rep
  have huncle : t.heap.isRed null (ptr null g.sibling) = .ok true := by
    have hrep := h.rep
    rw [fill_cons, fill_sibling] at hrep
    rw [hrep.isRed_eq, hg]
    rfl
  have hleaf : g.sibling ≠ leaf := by
    intro hleaf
    rw [hleaf] at hg
    exact absurd hg (by decide)
  obtain ⟨h1, ok1, s1⟩ := Shows.setColor_far (K := K) (a := p.fill u) h hleaf .black
  obtain ⟨h2, ok2, s2⟩ := Shows.setColor_near s1 branch_ne_leaf .black
  rw [Frame.fill_eq, ptr_branch] at ok2
  rw [Frame.fill_eq, paint_branch] at s2
  obtain ⟨h3, ok3, s3⟩ := s2.setColor_top .red
  refine ⟨⟨h3, t.root⟩, ?_, s3⟩
  rw [recoloured, ptr_branch]
  simp only [insertTurn, Heap.node_eq hgnode, ok_bind, Frame.child_other_node, huncle, if_true,
    ok1, ok2, ok3]

/-- Without a red uncle the turn rotates, and a black node is above the next one. -/
theorem insertTurn_rotate (h : Shows t (fill (p :: g :: K) u)) (hu : u.color = .red)
    (hp : p.color = .red) (hg : g.sibling.color ≠ .red) :
    ∃ t' near y far, insertTurn g.side (ptr null u) p.label.addr g.label.addr t =
        .ok (ptr null near, t') ∧ near ≠ leaf ∧ raised p g u = branch g.side .black near y far ∧
      Shows t' (fill K (raised p g u)) := by
  have hgnode := Rep.frame_eq (f := g) (t := p.fill u) h.rep
  have hpnode := Rep.frame_eq (f := p) (t := u) h.rep
  have huncle : t.heap.isRed null (ptr null g.sibling) = .ok false := by
    have hrep := h.rep
    rw [fill_cons, fill_sibling] at hrep
    rw [hrep.isRed_eq, decide_eq_false hg]
  obtain ⟨near, x, far, rfl⟩ := exists_branch_of_red hu g.side
  have hne := h.rep.sibling_ne branch_ne_leaf
  rw [ptr_branch] at hne hpnode
  by_cases hside : p.side = g.side
  · have houter : (p.node null x.addr (parentOf null (g :: K))).child g.side.other ≠ x.addr := by
      rw [← hside, Frame.child_other_node]
      exact hne
    obtain ⟨h1, ok1, s1⟩ := Shows.setColor_near (K := K) h branch_ne_leaf .black
    rw [Frame.fill_eq, ptr_branch] at ok1
    rw [Frame.fill_eq, paint_branch, hside] at s1
    obtain ⟨h2, ok2, s2⟩ := s1.setColor_top .red
    obtain ⟨t3, ok3, s3⟩ := s2.rotateBack
    refine ⟨t3, _, _, _, ?_, branch_ne_leaf, raised_outer hside _, ?_⟩
    · simp only [insertTurn, Heap.node_eq hgnode, Heap.node_eq hpnode, ok_bind, ptr_branch,
        Frame.child_other_node, huncle, Bool.false_eq_true, if_false, houter, ok1, ok2, ok3]
    · rw [raised_outer hside]
      exact s3
  · have hinner : (p.node null x.addr (parentOf null (g :: K))).child g.side.other = x.addr := by
      rw [← Side.eq_other_of_ne hside, Frame.child_node]
    have hfill : p.fill (branch g.side .red near x far) =
        branch g.side .red p.sibling p.label (branch g.side .red near x far) := by
      rw [Frame.fill_eq, Side.eq_other_of_ne hside, branch_other, hp]
    rw [fill_cons, hfill] at h
    obtain ⟨t1, ok1, s1⟩ := h.rotate
    obtain ⟨h2, ok2, s2⟩ := Shows.setColor_near (K := K) s1 branch_ne_leaf .black
    rw [ptr_branch] at ok2
    rw [paint_branch] at s2
    obtain ⟨h3, ok3, s3⟩ := s2.setColor_top .red
    obtain ⟨t4, ok4, s4⟩ := s3.rotateBack
    refine ⟨t4, _, _, _, ?_, branch_ne_leaf, raised_inner hside, ?_⟩
    · simp only [insertTurn, Heap.node_eq hgnode, Heap.node_eq hpnode, ok_bind, ptr_branch,
        Frame.child_other_node, huncle, Bool.false_eq_true, if_false, hinner, if_true,
        ok1, ok2, ok3, ok4]
    · rw [raised_inner hside]
      exact s4

theorem rbInsertRebalance_turn (h : Shows t (fill (p :: g :: K) u)) (hu : u ≠ leaf)
    (hp : p.color = .red) (turns : ℕ) :
    rbInsertRebalance (turns + 1) (ptr null u) t =
      (insertTurn g.side (ptr null u) p.label.addr g.label.addr t >>=
        fun next => rbInsertRebalance turns next.1 next.2) := by
  obtain ⟨n, hn, hparent⟩ := h.rep.parent_eq hu
  have hpnode := Rep.frame_eq (f := p) (t := u) h.rep
  have hgnode := Rep.frame_eq (f := g) (t := p.fill u) h.rep
  have hne := Rep.sibling_ne (f := g) (t := p.fill u) h.rep branch_ne_leaf
  rw [Frame.fill_eq, ptr_branch] at hne hgnode
  have hside : (if p.label.addr = (g.node null p.label.addr (parentOf null K)).left
      then Side.left else .right) = g.side :=
    (if_congr eq_comm rfl rfl).trans (Frame.side_of_left hne)
  have hred : t.heap.isRed null p.label.addr = .ok true := by
    rw [h.rep.isRed_frame, hp]
    rfl
  simp only [rbInsertRebalance_succ, Heap.node_eq hn, Heap.node_eq hpnode, Heap.node_eq hgnode,
    ok_bind, hparent, parentOf_cons, hred, if_true, Frame.parent_node, hside]

/-- The loop is the rebalancing of an insertion from the new node upwards. -/
theorem rbInsertRebalance_spec {n : ℕ} (h : Shows t (fill K u)) (hred : u.color = .red)
    (hctx : Accepts K .black n) :
    ∃ t', Returns (fun turns => rbInsertRebalance turns (ptr null u) t) t' ∧
      Shows t' ((insertLoop K u).paint .black) := by
  have hleaf : ∀ {u : ColorTree (Cell Entry)}, u.color = .red → u ≠ leaf := by
    rintro u hu rfl
    exact absurd hu (by decide)
  -- a turn that finds no red parent is the last one
  have last : ∀ {K : Ctx (Cell Entry)} {u t}, Shows t (fill K u) → u ≠ leaf →
      (∀ f rest, K = f :: rest → f.color = .black) →
      ∃ t', Returns (fun turns => rbInsertRebalance turns (ptr null u) t) t' ∧
        Shows t' ((fill K u).paint .black) := by
    intro K u t h hu hblack
    obtain ⟨t', hok, hshows⟩ := rbInsertRebalance_exit h hu hblack
    exact ⟨t', Returns.of_succ hok, hshows⟩
  induction K, u using insertLoop.induct generalizing n t with
  | case1 u => exact last h (hleaf hred) (by simp)
  | case2 p u =>
    rw [insertLoop]
    apply last h (hleaf hred)
    rintro f rest hcons
    obtain ⟨rfl, rfl⟩ := List.cons.inj hcons
    exact hctx.last_black
  | case3 p g K u hp =>
    rw [insertLoop, if_pos hp]
    apply last h (hleaf hred)
    rintro f rest hcons
    obtain ⟨rfl, -⟩ := List.cons.inj hcons
    exact hp
  | case4 p g K u hp huncle ih =>
    obtain ⟨g', rest, hcons, -, -, -, -, hrest⟩ := hctx.red_frame (eq_red_of_ne hp)
    obtain ⟨rfl, rfl⟩ := List.cons.inj hcons
    obtain ⟨t', hturn, hshows⟩ := insertTurn_recolour h huncle
    obtain ⟨t'', hreturns, hshows'⟩ := ih hshows (color_branch _ _ _ _ _) hrest
    rw [insertLoop, if_neg hp, if_pos huncle]
    refine ⟨t'', hreturns.succ ?_, hshows'⟩
    intro turns
    rw [rbInsertRebalance_turn h (hleaf hred) (eq_red_of_ne hp), hturn, ok_bind]
  | case5 p g K u hp huncle =>
    obtain ⟨t', near, y, far, hturn, hnear, hraised, hshows⟩ :=
      insertTurn_rotate h hred (eq_red_of_ne hp) huncle
    have hfill : fill K (raised p g u) = fill (⟨g.side, .black, y, far⟩ :: K) near := by
      rw [hraised, fill_cons, Frame.fill_eq]
    rw [hfill] at hshows
    obtain ⟨t'', hreturns, hshows'⟩ := last hshows hnear (by
      intro f rest hcons
      rw [← (List.cons.inj hcons).1])
    rw [insertLoop, if_neg hp, if_neg huncle, hfill]
    refine ⟨t'', hreturns.succ ?_, hshows'⟩
    intro turns
    rw [rbInsertRebalance_turn h (hleaf hred) (eq_red_of_ne hp), hturn, ok_bind]

/-! ## The loop of the deletion -/

theorem eraseSettling_spec {w : Cell Entry} {near far : ColorTree (Cell Entry)}
    (h : Shows t (fill K (branch s c u y (branch s c' near w far)))) (hfar : far ≠ leaf) :
    ∃ t', eraseSettling s y.addr t = .ok ⟨t'.root, y.addr, t', true⟩ ∧
      Shows t' (fill K (branch s c (branch s .black u y near) w (far.paint .black))) := by
  have hy := h.rep.node_eq
  rw [ptr_branch] at hy
  obtain ⟨h1, ok1, s1⟩ := Shows.setColor_far h branch_ne_leaf c
  rw [ptr_branch] at ok1
  rw [paint_branch] at s1
  obtain ⟨h2, ok2, s2⟩ := s1.setColor_top .black
  have hw := s2.rep.child_eq
  rw [← fill_far] at s2
  have hne : ptr null far ≠ null := by
    have hrep := s2.rep
    rw [← fill_far] at hrep
    rwa [ne_eq, hrep.ptr_eq_nil_iff]
  obtain ⟨h3, ok3, s3⟩ := s2.setColor_far hfar .black
  rw [fill_far] at s3
  obtain ⟨t4, ok4, s4⟩ := s3.rotate
  refine ⟨t4, ?_, s4⟩
  simp only [eraseSettling, Heap.node_eq hy, Heap.node_eq hw, ok_bind, child_other_sideNode,
    color_sideNode, ok1, ok2, hne, ne_eq, not_false_eq_true, if_true, ok3, ok4]

section BlackTurn

variable {w : Cell Entry} {near far : ColorTree (Cell Entry)}

/-- What a turn reads at the sibling. -/
theorem Shows.sibling_reads (h : Shows t (fill K (branch s c u y (branch s c' near w far)))) :
    t.heap.node w.addr = .ok (sideNode s (ptr null near) (ptr null far) y.addr c' w.value) ∧
      t.heap.isRed null (ptr null near) = .ok (decide (near.color = .red)) ∧
      t.heap.isRed null (ptr null far) = .ok (decide (far.color = .red)) := by
  have hrep := h.rep
  rw [← fill_far] at hrep
  refine ⟨Heap.node_eq h.rep.child_eq, ?_, ?_⟩
  · exact Rep.isRed_eq (K := ⟨s, c', w, far⟩ :: ⟨s.other, c, y, u⟩ :: K) hrep
  · rw [← fill_far] at hrep
    exact hrep.isRed_eq

/-- A turn ends the loop where the black sibling has a red child. -/
theorem eraseBlackTurn_settled (h : Shows t (fill (p :: K) u))
    (hw : p.sibling = branch p.side c near w far) {u' : ColorTree (Cell Entry)}
    (hsettled : settled p u = some u') :
    ∃ t', eraseBlackTurn p.side w.addr p.label.addr t =
        .ok ⟨t'.root, p.label.addr, t', true⟩ ∧ Shows t' (fill K u') := by
  rw [fill_cons, Frame.fill_eq, hw] at h
  obtain ⟨hnode, hnear, hfar⟩ := h.sibling_reads
  obtain ⟨hred, heq⟩ | ⟨hblack, a, x, b, rfl, heq⟩ | ⟨-, -, heq⟩ := settled_cases (t := u) hw
  · obtain rfl := Option.some.inj (heq.symm.trans hsettled)
    have hne : far ≠ leaf := by
      rintro rfl
      exact absurd hred (by decide)
    obtain ⟨t', hok, hshows⟩ := eraseSettling_spec h hne
    refine ⟨t', ?_, hshows⟩
    simp [eraseBlackTurn, hnode, ok_bind, hnear, hfar, hred, hok]
  · obtain rfl := Option.some.inj (heq.symm.trans hsettled)
    have hne : x.addr ≠ null := by
      intro hx
      have hmem : x.addr ∈ addrs (branch p.side c (branch p.side .red a x b) w far) :=
        mem_addrs_branch.mpr (.inr (.inl (mem_addrs_branch.mpr (.inl rfl))))
      apply h.rep.mem_ne_nil _ hx
      exact mem_addrs_fill.mpr (.inr (mem_addrs_branch.mpr (.inr (.inr hmem))))
    rw [← fill_far] at h
    obtain ⟨h1, ok1, s1⟩ := h.setColor_near branch_ne_leaf .black
    rw [ptr_branch] at ok1
    rw [paint_branch] at s1
    obtain ⟨h2, ok2, s2⟩ := s1.setColor_top .red
    obtain ⟨t3, ok3, s3⟩ := s2.rotateBack
    rw [fill_far] at s3
    obtain ⟨t4, ok4, s4⟩ := eraseSettling_spec s3 branch_ne_leaf
    rw [paint_branch] at s4
    refine ⟨t4, ?_, s4⟩
    rw [color_branch, ptr_branch] at hnear
    simp [eraseBlackTurn, hnode, ok_bind, hnear, hfar, hblack, hne, ok1, ok2, ok3, ok4]
  · exact absurd (heq.symm.trans hsettled) (by simp)

/-- A turn goes up where it has none. -/
theorem eraseBlackTurn_climbed (h : Shows t (fill (p :: K) u))
    (hw : p.sibling = branch p.side c near w far) (hsettled : settled p u = none) :
    ∃ t', eraseBlackTurn p.side w.addr p.label.addr t =
        .ok ⟨p.label.addr, parentOf null K, t', false⟩ ∧ Shows t' (fill K (climbed p u)) := by
  rw [fill_cons, Frame.fill_eq, hw] at h
  obtain ⟨hnode, hnear, hfar⟩ := h.sibling_reads
  obtain ⟨-, heq⟩ | ⟨-, a, x, b, -, heq⟩ | ⟨hblackfar, hblacknear, -⟩ := settled_cases (t := u) hw
  · exact absurd (heq.symm.trans hsettled) (by simp)
  · exact absurd (heq.symm.trans hsettled) (by simp)
  · obtain ⟨h1, ok1, s1⟩ := Shows.setColor_far h branch_ne_leaf .red
    rw [ptr_branch] at ok1
    have hp := Heap.node_eq s1.rep.node_eq
    refine ⟨⟨h1, t.root⟩, ?_, ?_⟩
    · simp [eraseBlackTurn, hnode, ok_bind, hnear, hfar, hblackfar, hblacknear, ok1, hp]
    · rw [climbed, hw]
      exact s1

/-- A red sibling comes up, and the parent goes down with a new one. -/
theorem eraseTurn_red_sibling (h : Shows t (fill (p :: K) u))
    (hw : p.sibling = branch p.side .red near w far) :
    ∃ t', eraseTurn p.side p.label.addr t = eraseBlackTurn p.side (ptr null near) p.label.addr t' ∧
      Shows t' (fill (lowered p near :: lifted p w far :: K) u) := by
  rw [fill_cons, Frame.fill_eq, hw] at h
  have hp := Heap.node_eq h.rep.node_eq
  rw [ptr_branch] at hp
  obtain ⟨hnode, -⟩ := h.sibling_reads
  obtain ⟨h1, ok1, s1⟩ := Shows.setColor_far h branch_ne_leaf .black
  rw [ptr_branch] at ok1
  rw [paint_branch] at s1
  obtain ⟨h2, ok2, s2⟩ := s1.setColor_top .red
  obtain ⟨t3, ok3, s3⟩ := s2.rotate
  refine ⟨t3, ?_, s3⟩
  have hp3 := Heap.node_eq (Rep.frame_eq (f := lowered p near) (K := lifted p w far :: K) s3.rep)
  have hlabel : (lowered p near).label.addr = p.label.addr := rfl
  have hside : p.side = (lowered p near).side := rfl
  have hsibling : ptr null near = ptr null (lowered p near).sibling := rfl
  rw [hlabel] at hp3
  simp only [eraseTurn, hp, hnode, ok_bind, child_other_sideNode, color_sideNode, if_true, ok1, ok2,
    ok3, hp3]
  rw [hside, Frame.child_other_node, hsibling]

theorem eraseTurn_black_sibling (h : Shows t (fill (p :: K) u))
    (hw : p.sibling = branch p.side .black near w far) :
    eraseTurn p.side p.label.addr t = eraseBlackTurn p.side w.addr p.label.addr t := by
  rw [fill_cons, Frame.fill_eq, hw] at h
  have hp := Heap.node_eq h.rep.node_eq
  rw [ptr_branch] at hp
  obtain ⟨hnode, -⟩ := h.sibling_reads
  simp [eraseTurn, hp, hnode, ok_bind]

end BlackTurn

theorem eraseEnd_spec (h : Shows t (fill K u)) :
    ∃ t', eraseEnd (ptr null u) t = .ok t' ∧ Shows t' (fill K (u.paint .black)) := by
  by_cases hu : u = leaf
  · refine ⟨t, ?_, ?_⟩
    · rw [hu]
      rfl
    · rw [hu] at h ⊢
      exact h
  · obtain ⟨heap, hok, hshows⟩ := h.setColor hu .black
    refine ⟨⟨heap, t.root⟩, ?_, hshows⟩
    rw [eraseEnd, if_pos (fun hnull => hu (h.rep.ptr_eq_nil_iff.mp hnull)), hok, ok_bind]

/-- After a rotation the loop ends with the root, which is black. -/
theorem eraseEnd_root (h : Shows t T) (hvalid : Valid T) :
    ∃ t', eraseEnd t.root t = .ok t' ∧ Shows t' T := by
  obtain ⟨t', hok, hshows⟩ := eraseEnd_spec (K := []) h
  rw [fill_nil, hvalid.paint_black] at hshows
  rw [h.root]
  exact ⟨t', hok, hshows⟩

theorem rbEraseRebalance_succ (turns : ℕ) (node parent : Addr) (t : RbTree) :
    rbEraseRebalance (turns + 1) node parent t = (do
      let nodeRed ← t.heap.isRed null node
      if ¬ nodeRed ∧ node ≠ t.root then do
        let p ← t.heap.node parent
        let turn ← eraseTurn (sideInErase node p) parent t
        if turn.broke then eraseEnd turn.node turn.tree
        else rbEraseRebalance turns turn.node turn.parent turn.tree
      else eraseEnd node t) := rfl

/-- The loop ends at the root. -/
theorem rbEraseRebalance_root (h : Shows t u) (turns : ℕ) (parent : Addr) :
    rbEraseRebalance (turns + 1) (ptr null u) parent t = eraseEnd (ptr null u) t := by
  rw [rbEraseRebalance_succ, Rep.isRed_eq (K := []) h.rep, ok_bind, if_neg]
  rw [h.root]
  exact fun hboth => hboth.2 rfl

/-- The loop ends at a red node. -/
theorem rbEraseRebalance_red (h : Shows t (fill K u)) (hred : u.color = .red) (turns : ℕ)
    (parent : Addr) :
    rbEraseRebalance (turns + 1) (ptr null u) parent t = eraseEnd (ptr null u) t := by
  rw [rbEraseRebalance_succ, h.rep.isRed_eq, ok_bind, if_neg]
  rw [hred]
  exact fun hboth => hboth.1 rfl

theorem rbEraseRebalance_turn (h : Shows t (fill (p :: K) u)) (hblack : u.color ≠ .red)
    (hsibling : p.sibling ≠ leaf) (turns : ℕ) :
    rbEraseRebalance (turns + 1) (ptr null u) p.label.addr t =
      (eraseTurn p.side p.label.addr t >>= fun turn =>
        if turn.broke then eraseEnd turn.node turn.tree
        else rbEraseRebalance turns turn.node turn.parent turn.tree) := by
  have hne : ptr null p.sibling ≠ ptr null u := by
    have hrep := h.rep
    rw [fill_sibling] at hrep
    exact (hrep.sibling_ne hsibling).symm
  have hside : sideInErase (ptr null u) (p.node null (ptr null u) (parentOf null K)) = p.side :=
    Frame.side_of_left hne
  have hp := Heap.node_eq h.rep.frame_eq
  have hroot := h.rep.ptr_ne_root
  rw [← h.root] at hroot
  rw [rbEraseRebalance_succ, h.rep.isRed_eq, ok_bind, if_pos ⟨by simpa using hblack, hroot⟩, hp,
    ok_bind, hside]

/-- The loop is the rebalancing of a deletion from the deficient subtree upwards. -/
theorem rbEraseRebalance_spec {n : ℕ} (h : Shows t (fill K u)) (hdeficient : Deficient u n)
    (hctx : Accepts K .black (n + 1)) :
    ∃ t', Returns (fun turns => rbEraseRebalance turns (ptr null u) (parentOf null K) t) t' ∧
      Shows t' (deleteLoop K u) := by
  induction K generalizing u n t with
  | nil =>
    obtain ⟨t', hok, hshows⟩ := eraseEnd_spec h
    refine ⟨t', Returns.of_succ (fun turns => ?_), hshows⟩
    exact (rbEraseRebalance_root h turns _).trans hok
  | cons p K ih =>
    have hvalid := valid_deleteLoop hdeficient hctx
    by_cases hu : u.color = .red
    · obtain ⟨t', hok, hshows⟩ := eraseEnd_spec h
      rw [deleteLoop_of_red hu]
      refine ⟨t', Returns.of_succ (fun turns => ?_), hshows⟩
      rw [rbEraseRebalance_red h hu, hok]
    obtain ⟨hred, hsibling, hrest⟩ := accepts_cons.mp hctx
    obtain ⟨c, near, w, far, hw⟩ := hsibling.exists_branch p.side
    have hne : p.sibling ≠ leaf := by
      rw [hw]
      exact branch_ne_leaf
    rw [parentOf_cons]
    by_cases hsib : p.sibling.color = .red
    · have hc : c = .red := by rwa [hw, color_branch] at hsib
      subst hc
      rw [deleteLoop_red_sibling hu hw] at hvalid ⊢
      obtain ⟨t1, hturn, s1⟩ := eraseTurn_red_sibling h hw
      rw [hw] at hsibling
      obtain ⟨hnear, -, hbnear, -⟩ := balanced_red.mp hsibling
      obtain ⟨c', near', w', far', hw'⟩ := hbnear.exists_branch p.side
      have hlow : (lowered p near).sibling = branch (lowered p near).side c' near' w' far' := hw'
      have hptr : ptr null near = w'.addr := by rw [hw', ptr_branch]
      rw [hptr] at hturn
      cases hsettled : settled (lowered p near) u with
      | none =>
        obtain ⟨t2, hblack, s2⟩ := eraseBlackTurn_climbed s1 hlow hsettled
        have hturn2 : eraseBlackTurn p.side w'.addr p.label.addr t1 = _ := hblack
        -- the parent is red now, so the next turn is the last one
        have hclimbed : (climbed (lowered p near) u).color = .red := color_branch _ _ _ _ _
        obtain ⟨t3, hend, s3⟩ := eraseEnd_spec s2
        have hnext : Returns (fun turns => rbEraseRebalance turns p.label.addr w.addr t2) t3 := by
          apply Returns.of_succ
          intro turns
          have hexit := rbEraseRebalance_red s2 hclimbed turns w.addr
          rw [hend, climbed, ptr_branch] at hexit
          exact hexit
        refine ⟨t3, hnext.succ (fun turns => ?_), s3⟩
        rw [rbEraseRebalance_turn h hu hne, hturn, hturn2, ok_bind]
        rfl
      | some u' =>
        obtain ⟨t2, hblack, s2⟩ := eraseBlackTurn_settled s1 hlow hsettled
        rw [hsettled] at hvalid
        obtain ⟨t3, hend, s3⟩ := eraseEnd_root s2 hvalid
        refine ⟨t3, Returns.of_succ (fun turns => ?_), s3⟩
        have hturn2 : eraseBlackTurn p.side w'.addr p.label.addr t1 = _ := hblack
        rw [rbEraseRebalance_turn h hu hne, hturn, hturn2, ok_bind]
        exact hend
    · have hc : c = .black := by
        apply eq_black_of_ne
        rwa [hw, color_branch] at hsib
      subst hc
      have hturn := eraseTurn_black_sibling h hw
      cases hsettled : settled p u with
      | none =>
        obtain ⟨t1, hblack, s1⟩ := eraseBlackTurn_climbed h hw hsettled
        obtain ⟨m, hdeficient', hctx'⟩ :=
          deficient_climbed (hdeficient.black hu) hsib hsettled hctx
        obtain ⟨t2, hreturns, s2⟩ := ih s1 hdeficient' hctx'
        rw [deleteLoop_climbed hu hsib hsettled]
        refine ⟨t2, hreturns.succ (fun turns => ?_), s2⟩
        rw [rbEraseRebalance_turn h hu hne, hturn, hblack, ok_bind, climbed, ptr_branch]
        rfl
      | some u' =>
        obtain ⟨t1, hblack, s1⟩ := eraseBlackTurn_settled h hw hsettled
        rw [deleteLoop_settled hu hsib hsettled] at hvalid ⊢
        obtain ⟨t2, hend, s2⟩ := eraseEnd_root s1 hvalid
        refine ⟨t2, Returns.of_succ (fun turns => ?_), s2⟩
        rw [rbEraseRebalance_turn h hu hne, hturn, hblack, ok_bind]
        exact hend

end CServer.RbTree1
