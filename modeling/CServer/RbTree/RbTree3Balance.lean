import CServer.RbTree.RbTree3
import CServer.Foundation.TreeEdits
import CServer.Foundation.Rebalancing

/-!
# Rotations and rebalancing in rb_tree3.cpp

The cases of an insertion are the rebalancing of an insertion. Those of a deletion are that of a
deletion except where an empty subtree has a red sibling, which only `delete_case2` for a node
rotates up.
-/
namespace CServer.RbTree3

open RedBlack RedBlack.ColorTree Contents

/-- The memory holds the tree below the header. -/
structure Shows (T : Addr) (heap : Heap Entry) (t : ColorTree (Cell Entry)) : Prop where
  rep : Rep heap null T t
  header : ∃ h, heap T = some h ∧ h.parent = ptr null t

variable {T : Addr} {heap : Heap Entry} {t u : ColorTree (Cell Entry)} {K : Ctx (Cell Entry)}
variable {s : Side} {c c' : Color} {x y : Cell Entry} {a b d : ColorTree (Cell Entry)}
variable {hole child : Addr}

/-! ## The link to a hole -/

theorem replaceChild_spec {o w : Addr} {hdr : Node Entry} (hT : heap T = some hdr)
    (hhead : ∀ f rest, K = f :: rest → f.label.addr ≠ T ∧ ptr null f.sibling ≠ o ∧
      heap f.label.addr = some (f.node null o (parentOf T rest))) :
    ∃ heap', replaceChild T o (parentOf T K) w heap = .ok heap' ∧
      (∀ f rest, K = f :: rest →
        heap' f.label.addr = some (f.node null w (parentOf T rest))) ∧
      (∀ e, e ≠ parentOf T K → heap' e = heap e) ∧
      ∃ h, heap' T = some h ∧ h.parent = if K = [] then w else hdr.parent := by
  cases K with
  | nil =>
    obtain ⟨heap', hok, hself, hother⟩ := Heap.modify_spec hT (fun n => { n with parent := w })
    refine ⟨heap', ?_, fun f rest h => absurd h (by simp), hother, _, hself, rfl⟩
    rw [replaceChild, parentOf_nil, if_pos rfl]
    exact hok
  | cons f rest =>
    obtain ⟨hne, hsibling, hf⟩ := hhead f rest rfl
    obtain ⟨heap', hok, hself, hother⟩ :=
      Heap.modify_spec hf (fun n => n.setChild w f.side)
    have hside : sideOf o (f.node null o (parentOf T rest)) = f.side :=
      (if_congr eq_comm rfl rfl).trans (Frame.side_of_left hsibling)
    refine ⟨heap', ?_, ?_, hother, hdr, ?_, rfl⟩
    · rw [replaceChild, parentOf, if_neg hne, Heap.node_eq hf, ok_bind, hside]
      exact hok
    · intro f' rest' h
      obtain ⟨rfl, rfl⟩ := List.cons.inj h
      rw [hself, Frame.setChild_node]
    · rw [hother T hne.symm, hT]

theorem Shows.rotate {g : Heap Entry} {e : Color}
    (h : Shows T g (fill K (branch s c a x (branch s e b y d)))) :
    ∃ heap', rbRotate s T x.addr g = .ok heap' ∧
      Shows T heap' (fill K (branch s e (branch s c a x b) y d)) := by
  have hx := h.rep.node_eq
  rw [ptr_branch] at hx
  have hy := h.rep.child_eq
  have site := h.rep.rotationSite
  obtain ⟨hdr, hT, hroot⟩ := h.header
  obtain ⟨h1, ok1, self1, other1⟩ :=
    Heap.modify_spec hx (fun n => n.setChild (ptr null b) s.other)
  obtain ⟨h2, ok2, self2, other2⟩ := Heap.adopt_spec (g := h1) (p := x.addr) site.ptr_eq_nil_iff
    (fun hb => by rw [other1 _ (site.xb hb).symm]; exact site.allocated hb)
  have hy2 : h2 y.addr = some (sideNode s (ptr null b) (ptr null d) x.addr e y.value) := by
    rw [other2 _ site.yb, other1 _ site.xy.symm, hy]
  obtain ⟨h3, ok3, self3, other3⟩ :=
    Heap.modify_spec hy2 (fun n => { n with parent := parentOf T K })
  have same3 : ∀ e, e ≠ x.addr → e ≠ y.addr → (b ≠ leaf → e ≠ ptr null b) → h3 e = g e :=
    fun e hex hey heb => by rw [other3 e hey, other2 e heb, other1 e hex]
  have hT3 : h3 T = some hdr := by
    rw [same3 T site.xtop.symm site.ytop.symm (fun hb => (site.btop hb).symm), hT]
  obtain ⟨h4, ok4, self4, other4, header4⟩ := replaceChild_spec (K := K)
    (o := x.addr) (w := y.addr) hT3
    (by
      rintro f rest rfl
      have hf := h.rep.frame_eq
      have hne := h.rep.sibling_ne branch_ne_leaf
      rw [ptr_branch] at hf hne
      refine ⟨h.rep.mem_ne_top (mem_addrs_fill.mpr (.inl List.mem_cons_self)), hne, ?_⟩
      exact (same3 _ site.xp.symm site.yp.symm (fun hb => (site.bp hb).symm)).trans hf)
  have hy4 : h4 y.addr =
      some (sideNode s (ptr null b) (ptr null d) (parentOf T K) e y.value) := by
    rw [other4 _ site.yp, self3, setParent_sideNode]
  obtain ⟨h5, ok5, self5, other5⟩ := Heap.modify_spec hy4 (fun n => n.setChild x.addr s)
  have hx5 : h5 x.addr =
      some (sideNode s (ptr null a) (ptr null b) (parentOf T K) c x.value) := by
    rw [other5 _ site.xy, other4 _ site.xp, other3 _ site.xy, other2 _ site.xb, self1,
      setChild_other_sideNode]
  obtain ⟨h6, ok6, self6, other6⟩ := Heap.modify_spec hx5 (fun n => { n with parent := y.addr })
  refine ⟨h6, ?_, ?_, ?_⟩
  · simp only [rbRotate, site.xnil, site.ynil, if_false, Heap.setChild, Heap.setParent,
      Heap.node_eq hx, Heap.node_eq hy, ok_bind, child_other_sideNode, child_sideNode,
      parent_sideNode, ok1, ok2, ok3, ok4, ok5, ok6]
  · refine (h.rep.rotate (g := h6) ?_ ?_ ?_ ?_ ?_).rep
    · rw [self6, setParent_sideNode]
    · rw [other6 _ site.xy.symm, self5, setChild_sideNode]
    · intro n hb hn
      rw [other6 _ (site.xb hb).symm, other5 _ (site.yb hb).symm, other4 _ (site.bp hb),
        other3 _ (site.yb hb).symm]
      exact self2 n hb (by rw [other1 _ (site.xb hb).symm, hn])
    · intro f rest hctx
      subst hctx
      show h6 (parentOf T (f :: rest)) = _
      rw [other6 _ site.xp.symm, other5 _ site.yp.symm]
      exact self4 f rest rfl
    · intro e hex hey heb hep
      rw [other6 e hex, other5 e hey, other4 e hep]
      exact same3 e hex hey heb
  · obtain ⟨hdr', hT4, hroot'⟩ := header4
    refine ⟨hdr', ?_, ?_⟩
    · rw [other6 T site.xtop.symm, other5 T site.ytop.symm, hT4]
    · apply root_fill hroot
      rw [ptr_branch]
      exact hroot'

/-- The rotation to the other side takes it back. -/
theorem Shows.rotateBack (h : Shows T heap (fill K (branch s c' (branch s c a x b) y d))) :
    ∃ heap', rbRotate s.other T y.addr heap = .ok heap' ∧
      Shows T heap' (fill K (branch s c a x (branch s c' b y d))) := by
  have hrotate := Shows.rotate (T := T) (g := heap) (K := K) (s := s.other) (c := c')
    (e := c) (x := y) (y := x) (a := d) (b := b) (d := a)
  simp only [branch_other] at hrotate
  exact hrotate h

/-! ## Colours -/

theorem Shows.setColor (h : Shows T heap (fill K u)) (hu : u ≠ leaf) (c : Color) :
    ∃ heap', heap.setColor (ptr null u) c = .ok heap' ∧
      Shows T heap' (fill K (u.paint c)) := by
  obtain ⟨heap', hok, hbecomes, hother⟩ := h.rep.setColor hu c
  obtain ⟨hdr, hT, hroot⟩ := h.header
  have hne : T ≠ ptr null u :=
    (h.rep.mem_ne_top (mem_addrs_fill.mpr (.inr (mem_addrs_of_ne_leaf hu)))).symm
  refine ⟨heap', hok, hbecomes.rep, hdr, (hother T hne).trans hT, ?_⟩
  apply root_fill hroot
  rw [ptr_paint]
  cases K with
  | nil => exact hroot
  | cons f K => rfl

/-- The colour of the node in the hole. -/
theorem Shows.setColor_top (h : Shows T heap (fill K (branch s c a x b))) (c' : Color) :
    ∃ heap', heap.setColor x.addr c' = .ok heap' ∧
      Shows T heap' (fill K (branch s c' a x b)) := by
  have hset := h.setColor branch_ne_leaf c'
  rwa [ptr_branch, paint_branch] at hset

theorem Shows.setColor_far (h : Shows T heap (fill K (branch s c a x u))) (hu : u ≠ leaf)
    (c' : Color) : ∃ heap', heap.setColor (ptr null u) c' = .ok heap' ∧
      Shows T heap' (fill K (branch s c a x (u.paint c'))) := by
  rw [← fill_far] at h
  obtain ⟨heap', hok, hshows⟩ := h.setColor hu c'
  rw [fill_far] at hshows
  exact ⟨heap', hok, hshows⟩

variable {p g : Frame (Cell Entry)}

/-- The colour of the node above the hole. -/
theorem Shows.setColor_frame (h : Shows T heap (fill (p :: K) u)) (c : Color) :
    ∃ heap', heap.setColor p.label.addr c = .ok heap' ∧
      Shows T heap' (fill (⟨p.side, c, p.label, p.sibling⟩ :: K) u) :=
  Shows.setColor_top (K := K) h c

/-! ## The cases of an insertion -/

theorem parent_eq (rep : Rep heap null T (fill K u)) (hu : u ≠ leaf) :
    parent heap (ptr null u) = .ok (parentOf T K) := by
  obtain ⟨n, hn, hparent⟩ := rep.parent_eq hu
  rw [parent, Heap.node_eq hn, ok_bind, hparent]

theorem parent_frame (rep : Rep heap null T (fill (p :: K) u)) :
    parent heap p.label.addr = .ok (parentOf T K) := by
  rw [parent, Heap.node_eq rep.frame_eq, ok_bind, Frame.parent_node]

theorem grandparent_eq (rep : Rep heap null T (fill (p :: K) u)) (hu : u ≠ leaf) :
    grandparent heap (ptr null u) = .ok (parentOf T K) := by
  rw [grandparent, parent_eq rep hu, ok_bind]
  exact parent_frame rep

/-- The node above the hole is not its uncle. -/
theorem uncle_ne (rep : Rep heap null T (fill (p :: g :: K) u)) :
    ptr null g.sibling ≠ p.label.addr := by
  have hne := Rep.sibling_ne (f := g) (t := p.fill u) rep branch_ne_leaf
  rwa [Frame.fill_eq, ptr_branch] at hne

theorem uncle_eq (rep : Rep heap null T (fill (p :: g :: K) u)) (hu : u ≠ leaf) :
    uncle heap (ptr null u) = .ok (ptr null g.sibling) := by
  have hg := Rep.frame_eq (f := g) (t := p.fill u) rep
  rw [Frame.fill_eq, ptr_branch] at hg
  rw [uncle, parent_eq rep hu, ok_bind, parentOf_cons, parent_frame rep, ok_bind, parentOf_cons,
    Heap.node_eq hg, ok_bind, siblingOf, Frame.other_child (uncle_ne rep)]

/-- The parent and the grandparent are on the same side. -/
theorem insertCase5_spec {pl gl : Cell Entry} {ps gs : ColorTree (Cell Entry)} {pc gc : Color}
    (h : Shows T heap (fill K (branch s gc (branch s pc u pl ps) gl gs))) (hu : u ≠ leaf) :
    ∃ heap', insertCase5 T (ptr null u) heap = .ok heap' ∧
      Shows T heap' (fill K (branch s .black u pl (branch s .red ps gl gs))) := by
  have h : Shows T heap (fill (⟨s, pc, pl, ps⟩ :: ⟨s, gc, gl, gs⟩ :: K) u) := h
  obtain ⟨h1, ok1, s1⟩ := h.setColor_frame .black
  obtain ⟨h2, ok2, s2⟩ :=
    Shows.setColor_frame (p := ⟨s, gc, gl, gs⟩) (K := K) (u := branch s .black u pl ps) s1 .red
  have s2' : Shows T h2 (fill (⟨s, .black, pl, ps⟩ :: ⟨s, .red, gl, gs⟩ :: K) u) := s2
  have hp := Heap.node_eq s2'.rep.frame_eq
  have hg := Heap.node_eq s2.rep.frame_eq
  rw [ptr_branch] at hg
  have hleft := Frame.eq_left_iff (n := null) (p := gl.addr) (s2'.rep.sibling_ne hu)
  have hleft' := Frame.eq_left_iff (n := null) (p := parentOf T K) (uncle_ne s2'.rep)
  obtain ⟨h3, ok3, s3⟩ := Shows.rotateBack (K := K) s2
  refine ⟨h3, ?_, s3⟩
  have hparent := parent_eq h.rep hu
  have hgrand := grandparent_eq s1.rep hu
  rw [parentOf_cons] at hparent hgrand
  simp only [insertCase5, hparent, ok_bind, ok1, hgrand, ok2, hp, hg]
  cases s with
  | left => exact (if_pos ⟨hleft.mpr rfl, hleft'.mpr rfl⟩).trans ok3
  | right =>
    refine (if_neg ?_).trans ok3
    exact fun hboth => absurd (hleft.mp hboth.1) (by simp)

/-- `insert_case4` finds out whether the node is on the inner side. -/
theorem insertCase4_eq (h : Shows T heap (fill (p :: g :: K) u)) (hu : u ≠ leaf) :
    insertCase4 T (ptr null u) heap =
      if p.side = g.side then insertCase5 T (ptr null u) heap
      else (do
        let heap ← rbRotate g.side T p.label.addr heap
        let node ← heap.node (ptr null u)
        insertCase5 T (node.child g.side) heap) := by
  have hparent := parent_eq h.rep hu
  have hgrand := grandparent_eq h.rep hu
  have hp := Heap.node_eq h.rep.frame_eq
  have hg := Heap.node_eq (Rep.frame_eq (f := g) (t := p.fill _) h.rep)
  rw [Frame.fill_eq, ptr_branch] at hg
  rw [parentOf_cons] at hparent hgrand
  have hne := h.rep.sibling_ne hu
  rw [insertCase4, hparent, ok_bind, hgrand, ok_bind, hp, ok_bind, hg, ok_bind,
    if_congr (and_congr (Frame.eq_right_iff hne) (Frame.eq_left_iff (uncle_ne h.rep))) rfl rfl,
    if_congr (and_congr (Frame.eq_left_iff hne) (Frame.eq_right_iff (uncle_ne h.rep))) rfl rfl]
  cases hps : p.side <;> cases hgs : g.side <;> rfl

/-- `insert_case4` rotates a node on the inner side up first. -/
theorem insertCase4_spec (h : Shows T heap (fill (p :: g :: K) u)) (hu : u.color = .red)
    (hp : p.color = .red) :
    ∃ heap', insertCase4 T (ptr null u) heap = .ok heap' ∧
      Shows T heap' (fill K (raised p g u)) := by
  obtain ⟨near, x, far, rfl⟩ := exists_branch_of_red hu g.side
  rw [insertCase4_eq h branch_ne_leaf]
  by_cases hside : p.side = g.side
  · rw [fill_cons, fill_cons, Frame.fill_eq, Frame.fill_eq, hside] at h
    obtain ⟨heap', ok5, s5⟩ := insertCase5_spec h branch_ne_leaf
    rw [raised_outer hside, if_pos hside]
    exact ⟨heap', ok5, s5⟩
  · have hfill : p.fill (branch g.side .red near x far) =
        branch g.side .red p.sibling p.label (branch g.side .red near x far) := by
      rw [Frame.fill_eq, Side.eq_other_of_ne hside, branch_other, hp]
    rw [fill_cons, hfill] at h
    obtain ⟨h1, ok1, s1⟩ := h.rotate
    have hx := Heap.node_eq s1.rep.node_eq
    rw [ptr_branch] at hx
    obtain ⟨h2, ok2, s2⟩ := insertCase5_spec (K := K) s1 branch_ne_leaf
    rw [ptr_branch] at ok2
    rw [raised_inner hside, if_neg hside]
    refine ⟨h2, ?_, s2⟩
    rw [ok1, ok_bind, ptr_branch, hx, ok_bind, child_sideNode, ok2]

theorem uncle_isRed (rep : Rep heap null T (fill (p :: g :: K) u)) :
    heap.isRed null (ptr null g.sibling) = .ok (decide (g.sibling.color = .red)) := by
  rw [fill_cons, fill_sibling] at rep
  exact rep.isRed_eq

/-- `insert_case3` changes colours and starts again at the grandparent. -/
theorem insertCase3_recolour (h : Shows T heap (fill (p :: g :: K) u)) (hu : u ≠ leaf)
    (hg : g.sibling.color = .red) :
    ∃ heap', (∀ again, insertCase3 again T (ptr null u) heap =
        again (ptr null (recoloured p g u)) heap') ∧
      Shows T heap' (fill K (recoloured p g u)) := by
  have hleaf : g.sibling ≠ leaf := by
    intro hleaf
    rw [hleaf] at hg
    exact absurd hg (by decide)
  obtain ⟨h1, ok1, s1⟩ := h.setColor_frame .black
  obtain ⟨h2, ok2, s2⟩ := Shows.setColor_far (K := K) s1 hleaf .black
  obtain ⟨h3, ok3, s3⟩ := s2.setColor_top .red
  refine ⟨h3, fun again => ?_, s3⟩
  have huncle := uncle_eq h.rep hu
  have hred := uncle_isRed h.rep
  have huncle' := uncle_eq s1.rep hu
  have hgrand := grandparent_eq (p := ⟨p.side, .black, p.label, p.sibling⟩)
    (K := ⟨g.side, g.color, g.label, g.sibling.paint .black⟩ :: K) s2.rep hu
  have hparent := parent_eq h.rep hu
  rw [parentOf_cons] at hparent hgrand
  rw [recoloured, ptr_branch]
  simp only [insertCase3, huncle, hred, hg, decide_true, if_true, ok_bind, hparent, ok1, huncle',
    ok2, hgrand, ok3]

theorem insertCase3_rotate {again : Addr → Heap Entry → Except Fault (Heap Entry)}
    (h : Shows T heap (fill (p :: g :: K) u)) (hu : u ≠ leaf) (hg : g.sibling.color ≠ .red) :
    insertCase3 again T (ptr null u) heap = insertCase4 T (ptr null u) heap := by
  rw [insertCase3, uncle_eq h.rep hu, ok_bind, uncle_isRed h.rep, ok_bind,
    if_neg (by simpa using hg)]

/-- A turn of the cases below a node. -/
theorem insertCase1_frame (h : Shows T heap (fill (p :: K) u)) (hu : u ≠ leaf) (turns : ℕ) :
    insertCase1 T (turns + 1) (ptr null u) heap =
      if p.color = .black then .ok heap
      else insertCase3 (insertCase1 T turns) T (ptr null u) heap := by
  have hne : p.label.addr ≠ T := h.rep.mem_ne_top (mem_addrs_fill.mpr (.inl List.mem_cons_self))
  rw [insertCase1, parent_eq h.rep hu, ok_bind, parentOf_cons, if_neg hne, insertCase2,
    parent_eq h.rep hu, ok_bind, parentOf_cons, Heap.node_eq h.rep.frame_eq, ok_bind,
    Frame.color_node]

/-- The cases are the rebalancing of an insertion from the new node upwards. -/
theorem insertCase1_spec {n : ℕ} (h : Shows T heap (fill K u)) (hred : u.color = .red)
    (hbalanced : Balanced u n) (hctx : Accepts K .black n) :
    ∃ heap', Returns (fun turns => insertCase1 T turns (ptr null u) heap) heap' ∧
      Shows T heap' ((insertLoop K u).paint .black) := by
  have hleaf : ∀ {u : ColorTree (Cell Entry)}, u.color = .red → u ≠ leaf := by
    rintro u hu rfl
    exact absurd hu (by decide)
  induction K, u using insertLoop.induct generalizing n heap with
  | case1 u =>
    obtain ⟨heap', hok, hshows⟩ := h.setColor (hleaf hred) .black
    refine ⟨heap', Returns.of_succ (fun turns => ?_), hshows⟩
    rw [insertCase1, parent_eq h.rep (hleaf hred), ok_bind, parentOf_nil, if_pos rfl, hok]
  | case2 p u =>
    have hvalid := valid_below_black hctx.last_black hbalanced hctx
    refine ⟨heap, Returns.of_succ (fun turns => ?_), ?_⟩
    · rw [insertCase1_frame h (hleaf hred), if_pos hctx.last_black]
    · rw [insertLoop, hvalid.paint_black]
      exact h
  | case3 p g K u hp =>
    have hvalid := valid_below_black hp hbalanced hctx
    refine ⟨heap, Returns.of_succ (fun turns => ?_), ?_⟩
    · rw [insertCase1_frame h (hleaf hred), if_pos hp]
    · rw [insertLoop, if_pos hp, hvalid.paint_black]
      exact h
  | case4 p g K u hp huncle ih =>
    obtain ⟨g', rest, hcons, -, -, hsibling, hg, hrest⟩ := hctx.red_frame (eq_red_of_ne hp)
    obtain ⟨rfl, rfl⟩ := List.cons.inj hcons
    obtain ⟨h1, hcase, s1⟩ := insertCase3_recolour h (hleaf hred) huncle
    obtain ⟨h2, hreturns, s2⟩ := ih s1 (color_branch _ _ _ _ _)
      (balanced_recoloured hbalanced hsibling huncle hg) hrest
    rw [insertLoop, if_neg hp, if_pos huncle]
    refine ⟨h2, hreturns.succ (fun turns => ?_), s2⟩
    rw [insertCase1_frame h (hleaf hred), if_neg hp, hcase]
  | case5 p g K u hp huncle =>
    obtain ⟨heap', hok, hshows⟩ := insertCase4_spec h hred (eq_red_of_ne hp)
    have hvalid := valid_raised hred (eq_red_of_ne hp) huncle hbalanced hctx
    refine ⟨heap', Returns.of_succ (fun turns => ?_), ?_⟩
    · rw [insertCase1_frame h (hleaf hred), if_neg hp, insertCase3_rotate h (hleaf hred) huncle, hok]
    · rw [insertLoop, if_neg hp, if_neg huncle, hvalid.paint_black]
      exact hshows

end CServer.RbTree3
