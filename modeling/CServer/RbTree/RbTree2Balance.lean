import CServer.RbTree.RbTree2
import CServer.Foundation.TreeEdits
import CServer.Foundation.Rebalancing

/-!
# Rotations and rebalancing in rb_tree2.cpp

The sentinel is a black node whose parent is a scratch pointer: a rotation below the root leaves
it as it is, and one at the root overwrites it. The loops are those of the rebalancing from a
hole upwards.
-/
namespace CServer.RbTree2

open RedBlack RedBlack.ColorTree Contents

/-- The memory holds the tree and the black sentinel, `root` points to the tree, and the parent of
the sentinel is `scratch`. -/
structure Shows (nil scratch : Addr) (t : RbTree) (T : ColorTree (Cell Entry)) : Prop where
  rep : Rep t.heap nil nil T
  root : t.root = ptr nil T
  sentinel : ∃ n, t.heap nil = some n ∧ n.color = .black ∧ n.parent = scratch

variable {nil q : Addr} {t : RbTree} {T u : ColorTree (Cell Entry)} {K : Ctx (Cell Entry)}
variable {s : Side} {c c' e : Color} {x y : Cell Entry} {a b d : ColorTree (Cell Entry)}
variable {f p g : Frame (Cell Entry)}

/-! ## The link to a hole -/

theorem replaceChild_spec {o w : Addr} {sn : Node Entry} (hnil : t.heap nil = some sn)
    (hhead : ∀ f rest, K = f :: rest → f.label.addr ≠ nil ∧ ptr nil f.sibling ≠ o ∧
      t.heap f.label.addr = some (f.node nil o (parentOf nil rest))) :
    ∃ t', replaceChild nil o (parentOf nil K) w t = .ok t' ∧
      (∀ f rest, K = f :: rest →
        t'.heap f.label.addr = some (f.node nil w (parentOf nil rest))) ∧
      (∀ e, e ≠ parentOf nil K → t'.heap e = t.heap e) ∧
      t'.root = (if K = [] then w else t.root) ∧
      ∃ n, t'.heap nil = some n ∧ n.color = sn.color ∧
        n.parent = if K = [] then w else sn.parent := by
  cases K with
  | nil =>
    obtain ⟨heap', hok, hself, hother⟩ :=
      Heap.modify_spec hnil (fun n => { n with left := w, right := w, parent := w })
    refine ⟨⟨heap', w⟩, ?_, fun f rest h => absurd h (by simp), hother, rfl, _, hself, rfl, rfl⟩
    rw [replaceChild, parentOf_nil, if_pos rfl, hok, ok_bind]
  | cons f rest =>
    obtain ⟨hne, hsibling, hf⟩ := hhead f rest rfl
    obtain ⟨heap', hok, hself, hother⟩ := Heap.modify_spec hf (fun n => n.setChild w f.side)
    have hside : (if o = (f.node nil o (parentOf nil rest)).left then Side.left else .right) =
        f.side := (if_congr eq_comm rfl rfl).trans (Frame.side_of_left hsibling)
    refine ⟨⟨heap', t.root⟩, ?_, ?_, hother, rfl, sn, (hother _ hne.symm).trans hnil, rfl, rfl⟩
    · rw [replaceChild, parentOf_cons, if_neg hne, Heap.node_eq hf, ok_bind, hside, Heap.setChild,
        hok, ok_bind]
    · intro f' rest' h
      obtain ⟨rfl, rfl⟩ := List.cons.inj h
      show heap' f.label.addr = _
      rw [hself, Frame.setChild_node]

/-! ## Rotations -/

/-- Only a rotation at the root writes to the sentinel. -/
theorem Shows.rotate (h : Shows nil q t (fill K (branch s c a x (branch s e b y d)))) :
    ∃ t' q', rbRotate s nil x.addr t = .ok t' ∧
      Shows nil q' t' (fill K (branch s e (branch s c a x b) y d)) ∧ (K ≠ [] → q' = q) := by
  have hx := h.rep.node_eq
  rw [ptr_branch] at hx
  have hy := h.rep.child_eq
  have site := h.rep.rotationSite
  obtain ⟨sn, hnil, hblack, hscratch⟩ := h.sentinel
  obtain ⟨h1, ok1, self1, other1⟩ :=
    Heap.modify_spec hx (fun n => n.setChild (ptr nil b) s.other)
  obtain ⟨h2, ok2, self2, other2⟩ := Heap.adopt_spec (g := h1) (p := x.addr) site.ptr_eq_nil_iff
    (fun hb => by rw [other1 _ (site.xb hb).symm]; exact site.allocated hb)
  have hy2 : h2 y.addr = t.heap y.addr := by
    rw [other2 _ site.yb, other1 _ site.xy.symm]
  rw [hy] at hy2
  obtain ⟨h3, ok3, self3, other3⟩ :=
    Heap.modify_spec hy2 (fun n => { n with parent := parentOf nil K })
  have same3 : ∀ e, e ≠ x.addr → e ≠ y.addr → (b ≠ leaf → e ≠ ptr nil b) → h3 e = t.heap e :=
    fun e hex hey heb => by rw [other3 e hey, other2 e heb, other1 e hex]
  have hnil3 : h3 nil = some sn :=
    (same3 _ site.xnil.symm site.ynil.symm (fun hb => (site.btop hb).symm)).trans hnil
  obtain ⟨t4, ok4, self4, other4, root4, n4, nil4, color4, parent4⟩ := replaceChild_spec
    (t := ⟨h3, t.root⟩) (K := K) (o := x.addr) (w := y.addr) hnil3
    (by
      rintro f rest rfl
      have hf := h.rep.frame_eq
      have hne := h.rep.sibling_ne branch_ne_leaf
      rw [ptr_branch] at hf hne
      refine ⟨h.rep.mem_ne_nil (mem_addrs_fill.mpr (.inl List.mem_cons_self)), hne, ?_⟩
      exact (same3 _ site.xp.symm site.yp.symm (fun hb => (site.bp hb).symm)).trans hf)
  have hx4 : t4.heap x.addr =
      some (sideNode s (ptr nil a) (ptr nil b) (parentOf nil K) c x.value) := by
    rw [other4 _ site.xp]
    show h3 x.addr = _
    rw [other3 _ site.xy, other2 _ site.xb, self1, setChild_other_sideNode]
  obtain ⟨h5, ok5, self5, other5⟩ := Heap.modify_spec hx4 (fun n => { n with parent := y.addr })
  have hy5 : h5 y.addr =
      some (sideNode s (ptr nil b) (ptr nil d) (parentOf nil K) e y.value) := by
    rw [other5 _ site.xy.symm, other4 _ site.yp]
    show h3 y.addr = _
    rw [self3, setParent_sideNode]
  obtain ⟨h6, ok6, self6, other6⟩ := Heap.modify_spec hy5 (fun n => n.setChild x.addr s)
  have hb6 : b ≠ leaf → h6 (ptr nil b) = h2 (ptr nil b) := by
    intro hb
    rw [other6 _ (site.yb hb).symm, other5 _ (site.xb hb).symm, other4 _ (site.bp hb)]
    exact other3 _ (site.yb hb).symm
  have same6 : ∀ e, e ≠ x.addr → e ≠ y.addr → (b ≠ leaf → e ≠ ptr nil b) →
      e ≠ parentOf nil K → h6 e = t.heap e := by
    intro e hex hey heb hep
    rw [other6 e hey, other5 e hex, other4 e hep]
    exact same3 e hex hey heb
  refine ⟨⟨h6, t4.root⟩, n4.parent, ?_, ⟨?_, ?_, n4, ?_, color4.trans hblack, rfl⟩, ?_⟩
  · simp only [rbRotate, Heap.setChild, Heap.setParent, Heap.node_eq hx, Heap.node_eq hy, ok_bind,
      child_other_sideNode, child_sideNode, parent_sideNode, site.ynil, if_false, ok1, ok2, ok3,
      ok4, ok5, ok6]
  · refine (h.rep.rotate (g := h6) ?_ ?_ ?_ ?_ same6).rep
    · rw [other6 _ site.xy, self5, setParent_sideNode]
    · rw [self6, setChild_sideNode]
    · intro n hb hn
      rw [hb6 hb]
      exact self2 n hb (by rw [other1 _ (site.xb hb).symm, hn])
    · intro f rest hctx
      have hxf : f.label.addr ≠ x.addr := by
        subst hctx
        exact site.xp.symm
      have hyf : f.label.addr ≠ y.addr := by
        subst hctx
        exact site.yp.symm
      rw [other6 _ hyf, other5 _ hxf, self4 f rest hctx]
  · apply root_fill h.root
    rw [ptr_branch]
    exact root4
  · show h6 nil = _
    rw [other6 _ site.ynil.symm, other5 _ site.xnil.symm, nil4]
  · exact fun hK => parent4.trans ((if_neg hK).trans hscratch)

/-- The rotation to the other side takes it back. -/
theorem Shows.rotateBack (h : Shows nil q t (fill K (branch s c' (branch s c a x b) y d))) :
    ∃ t' q', rbRotate s.other nil y.addr t = .ok t' ∧
      Shows nil q' t' (fill K (branch s c a x (branch s c' b y d))) ∧ (K ≠ [] → q' = q) := by
  have hturned : Shows nil q t (fill K (branch s.other c' d y (branch s.other c b x a))) := by
    simp only [branch_other]
    exact h
  obtain ⟨t', q', hok, hshows, hq⟩ := hturned.rotate
  simp only [branch_other] at hshows
  exact ⟨t', q', hok, hshows, hq⟩

/-! ## Colours -/

/-- A missing child is read at the sentinel. -/
theorem Shows.color_eq (h : Shows nil q t (fill K u)) :
    ∃ n, t.heap.node (ptr nil u) = .ok n ∧ n.color = u.color := by
  cases u with
  | leaf =>
    obtain ⟨n, hn, hblack, -⟩ := h.sentinel
    exact ⟨n, Heap.node_eq hn, hblack⟩
  | node c l x r => exact ⟨_, Heap.node_eq (holds_fill.mp h.rep.holds).2.1, rfl⟩

theorem Shows.setColor (h : Shows nil q t (fill K u)) (hu : u ≠ leaf) (c : Color) :
    ∃ heap, t.heap.setColor (ptr nil u) c = .ok heap ∧
      Shows nil q ⟨heap, t.root⟩ (fill K (u.paint c)) := by
  obtain ⟨heap, hok, hbecomes, hother⟩ := h.rep.setColor hu c
  obtain ⟨n, hn, hblack, hscratch⟩ := h.sentinel
  have hne : ptr nil u ≠ nil := fun heq => hu (h.rep.ptr_eq_nil_iff.mp heq)
  refine ⟨heap, hok, hbecomes.rep, ?_, n, (hother _ hne.symm).trans hn, hblack, hscratch⟩
  apply root_fill h.root
  rw [ptr_paint]
  cases K with
  | nil => exact h.root
  | cons f K => rfl

/-- The colour of the node in the hole. -/
theorem Shows.setColor_top (h : Shows nil q t (fill K (branch s c a x b))) (c' : Color) :
    ∃ heap, t.heap.setColor x.addr c' = .ok heap ∧
      Shows nil q ⟨heap, t.root⟩ (fill K (branch s c' a x b)) := by
  have hset := h.setColor branch_ne_leaf c'
  rwa [ptr_branch, paint_branch] at hset

/-- The colour of a child of the node in the hole. -/
theorem Shows.setColor_near (h : Shows nil q t (fill K (branch s c u x b))) (hu : u ≠ leaf)
    (c' : Color) : ∃ heap, t.heap.setColor (ptr nil u) c' = .ok heap ∧
      Shows nil q ⟨heap, t.root⟩ (fill K (branch s c (u.paint c') x b)) :=
  Shows.setColor (K := ⟨s, c, x, b⟩ :: K) h hu c'

theorem Shows.setColor_far (h : Shows nil q t (fill K (branch s c a x u))) (hu : u ≠ leaf)
    (c' : Color) : ∃ heap, t.heap.setColor (ptr nil u) c' = .ok heap ∧
      Shows nil q ⟨heap, t.root⟩ (fill K (branch s c a x (u.paint c'))) := by
  rw [← branch_other] at h ⊢
  exact h.setColor_near hu c'

/-- Both loops end with a write of black, to a node or to the sentinel. -/
theorem Shows.blacken (h : Shows nil q t (fill K u)) :
    ∃ heap, t.heap.setColor (ptr nil u) .black = .ok heap ∧
      Shows nil q ⟨heap, t.root⟩ (fill K (u.paint .black)) := by
  by_cases hu : u = leaf
  · subst hu
    obtain ⟨n, hn, -, hscratch⟩ := h.sentinel
    obtain ⟨heap, hok, hself, hother⟩ := Heap.modify_spec hn (fun n => { n with color := .black })
    have hsame : ∀ e ∈ addrs (fill K leaf), heap e = t.heap e :=
      fun e he => hother e (h.rep.mem_ne_nil he)
    exact ⟨heap, hok, ⟨h.rep.holds.congr hsame, h.rep.nodup, h.rep.nil_notMem, h.rep.top_notMem⟩,
      h.root, _, hself, rfl, hscratch⟩
  · exact h.setColor hu .black

/-! ## The loop of the insertion -/

/-- What a turn reads from a node upwards. -/
theorem Shows.climb_reads (h : Shows nil q t (fill (p :: g :: K) u)) (hu : u ≠ leaf) :
    (∃ n, t.heap.node (ptr nil u) = .ok n ∧ n.parent = p.label.addr) ∧
      t.heap.node p.label.addr = .ok (p.node nil (ptr nil u) g.label.addr) ∧
      t.heap.node g.label.addr = .ok (g.node nil p.label.addr (parentOf nil K)) := by
  obtain ⟨n, hn, hparent⟩ := h.rep.parent_eq hu
  have hg := Rep.frame_eq (f := g) (t := p.fill u) h.rep
  rw [Frame.fill_eq, ptr_branch] at hg
  exact ⟨⟨n, Heap.node_eq hn, hparent⟩, Heap.node_eq h.rep.frame_eq, Heap.node_eq hg⟩

/-- The uncle, or the sentinel. -/
theorem Shows.uncle_color (h : Shows nil q t (fill (p :: g :: K) u)) :
    ∃ n, t.heap.node (ptr nil g.sibling) = .ok n ∧ n.color = g.sibling.color := by
  rw [fill_cons, fill_sibling] at h
  exact h.color_eq

/-- The red uncle, the parent and the grandparent change colours. -/
theorem insertTurn_recolour (h : Shows nil q t (fill (p :: g :: K) u)) (hu : u ≠ leaf)
    (hg : g.sibling.color = .red) :
    ∃ t', insertTurn g.side nil (ptr nil u) t = .ok (ptr nil (recoloured p g u), t') ∧
      Shows nil q t' (fill K (recoloured p g u)) := by
  obtain ⟨⟨n, hn, hparent⟩, hp, hgn⟩ := h.climb_reads hu
  obtain ⟨un, hun, hured⟩ := h.uncle_color
  have hleaf : g.sibling ≠ leaf := by
    intro hleaf
    rw [hleaf] at hg
    exact absurd hg (by decide)
  obtain ⟨h1, ok1, s1⟩ := Shows.setColor_far (K := K) (a := p.fill u) h hleaf .black
  obtain ⟨h2, ok2, s2⟩ := Shows.setColor_near s1 branch_ne_leaf .black
  rw [Frame.fill_eq, ptr_branch] at ok2
  rw [Frame.fill_eq, paint_branch] at s2
  obtain ⟨h3, ok3, s3⟩ := s2.setColor_top .red
  refine ⟨⟨h3, t.root⟩, ?_, s3⟩
  rw [recoloured, ptr_branch]
  simp only [insertTurn, hn, hp, hgn, hun, ok_bind, hparent, Frame.parent_node,
    Frame.child_other_node, hured, hg, if_true, ok1, ok2, ok3]

/-- The parent becomes black, and the grandparent goes down on the other side. -/
theorem insertRaising_spec (h : Shows nil q t (fill K (branch s e (branch s c u x b) y d)))
    (hu : u ≠ leaf) :
    ∃ t' q', insertRaising s nil (ptr nil u) t = .ok (ptr nil u, t') ∧
      Shows nil q' t' (fill K (branch s .black u x (branch s .red b y d))) := by
  obtain ⟨n, hn, hparent⟩ :=
    Rep.parent_eq (K := ⟨s, c, x, b⟩ :: ⟨s, e, y, d⟩ :: K) h.rep hu
  obtain ⟨h1, ok1, s1⟩ := Shows.setColor_near h branch_ne_leaf .black
  rw [ptr_branch] at ok1
  rw [paint_branch] at s1
  have hx := Rep.node_eq (K := ⟨s, e, y, d⟩ :: K) s1.rep
  obtain ⟨h2, ok2, s2⟩ := s1.setColor_top .red
  obtain ⟨t3, q3, ok3, s3, -⟩ := s2.rotateBack
  refine ⟨t3, q3, ?_, s3⟩
  rw [parentOf_cons] at hparent hx
  simp only [insertRaising, Heap.node_eq hn, ok_bind, hparent, ok1, Heap.node_eq hx,
    parent_sideNode, ok2, ok3]

/-- Without a red uncle the turn rotates, and a black node is above the next one. -/
theorem insertTurn_rotate (h : Shows nil q t (fill (p :: g :: K) u)) (hu : u.color = .red)
    (hp : p.color = .red) (hg : g.sibling.color ≠ .red) :
    ∃ t' q' near y far, insertTurn g.side nil (ptr nil u) t = .ok (ptr nil near, t') ∧
      near ≠ leaf ∧ raised p g u = branch g.side .black near y far ∧
      Shows nil q' t' (fill K (raised p g u)) := by
  obtain ⟨near, x, far, rfl⟩ := exists_branch_of_red hu g.side
  obtain ⟨⟨n, hn, hparent⟩, hpn, hgn⟩ := h.climb_reads branch_ne_leaf
  obtain ⟨un, hun, hublack⟩ := h.uncle_color
  rw [← hublack] at hg
  have hne := h.rep.sibling_ne branch_ne_leaf
  rw [ptr_branch] at hne hpn hn
  by_cases hside : p.side = g.side
  · have houter : x.addr ≠ (p.node nil x.addr g.label.addr).child g.side.other := by
      rw [← hside, Frame.child_other_node]
      exact hne.symm
    have hfill : g.fill (p.fill (branch g.side .red near x far)) = branch g.side g.color
        (branch g.side p.color (branch g.side .red near x far) p.label p.sibling) g.label
        g.sibling := by
      rw [Frame.fill_eq, Frame.fill_eq, hside]
    rw [fill_cons, fill_cons, hfill] at h
    obtain ⟨t1, q1, ok1, s1⟩ := insertRaising_spec h branch_ne_leaf
    rw [ptr_branch] at ok1
    refine ⟨t1, q1, _, _, _, ?_, branch_ne_leaf, raised_outer hside _, ?_⟩
    · simp only [insertTurn, ptr_branch, hn, hpn, hgn, hun, ok_bind, hparent, Frame.parent_node,
        Frame.child_other_node, hg, if_false, houter, ok1]
    · rw [raised_outer hside]
      exact s1
  · have hinner : x.addr = (p.node nil x.addr g.label.addr).child g.side.other := by
      rw [← Side.eq_other_of_ne hside, Frame.child_node]
    have hfill : p.fill (branch g.side .red near x far) =
        branch g.side .red p.sibling p.label (branch g.side .red near x far) := by
      rw [Frame.fill_eq, Side.eq_other_of_ne hside, branch_other, hp]
    rw [fill_cons, hfill] at h
    obtain ⟨t1, q1, ok1, s1, -⟩ := h.rotate
    obtain ⟨t2, q2, ok2, s2⟩ := insertRaising_spec (K := K) s1 branch_ne_leaf
    rw [ptr_branch] at ok2
    refine ⟨t2, q2, branch g.side .red p.sibling p.label near, _, _, ?_, branch_ne_leaf,
      raised_inner hside, ?_⟩
    · simp only [insertTurn, ptr_branch, hn, hpn, hgn, hun, ok_bind, hparent, Frame.parent_node,
        Frame.child_other_node, hg, if_false, ← hinner, if_true, ok1, ok2]
    · rw [raised_inner hside]
      exact s2

/-- The loop ends below a black node, or at the root. -/
theorem rbInsertFixup_exit (h : Shows nil q t (fill K u)) (hu : u ≠ leaf)
    (hblack : ∀ f rest, K = f :: rest → f.color = .black) :
    ∃ t', Returns (fun turns => rbInsertFixup nil turns (ptr nil u) t) t' ∧
      Shows nil q t' ((fill K u).paint .black) := by
  obtain ⟨n, hn, hparent⟩ := h.rep.parent_eq hu
  have habove : ∃ p, t.heap.node (parentOf nil K) = .ok p ∧ p.color = .black := by
    cases K with
    | nil =>
      obtain ⟨sn, hnil, hsn, -⟩ := h.sentinel
      exact ⟨sn, Heap.node_eq hnil, hsn⟩
    | cons f rest =>
      exact ⟨_, Heap.node_eq h.rep.frame_eq, (Frame.color_node _ _ _ _).trans (hblack f rest rfl)⟩
  obtain ⟨p, hp, hcolor⟩ := habove
  obtain ⟨heap, hok, hshows⟩ := Shows.blacken (K := []) h
  refine ⟨⟨heap, t.root⟩, Returns.of_succ (fun turns => ?_), hshows⟩
  rw [← h.root] at hok
  simp only [rbInsertFixup, Heap.node_eq hn, ok_bind, hparent, hp, hcolor, hok]
  rfl

/-- A turn below a red node. -/
theorem rbInsertFixup_turn (h : Shows nil q t (fill (p :: g :: K) u)) (hu : u ≠ leaf)
    (hp : p.color = .red) (turns : ℕ) :
    rbInsertFixup nil (turns + 1) (ptr nil u) t = (insertTurn g.side nil (ptr nil u) t >>=
      fun next => rbInsertFixup nil turns next.1 next.2) := by
  obtain ⟨⟨n, hn, hparent⟩, hpn, hgn⟩ := h.climb_reads hu
  have hne := Rep.sibling_ne (f := g) (t := p.fill u) h.rep branch_ne_leaf
  rw [Frame.fill_eq, ptr_branch] at hne
  have hleft := Frame.eq_left_iff (p := parentOf nil K) hne
  have hright : p.label.addr = (g.node nil p.label.addr (parentOf nil K)).right ↔
      g.side = .right := Frame.eq_right_iff hne
  simp only [rbInsertFixup, hn, hpn, hgn, ok_bind, hparent, Frame.color_node, hp, if_true,
    Frame.parent_node, hleft, hright]
  cases g.side <;> rfl

/-- The loop is the rebalancing of an insertion from the new node upwards. -/
theorem rbInsertFixup_spec {n : ℕ} (h : Shows nil q t (fill K u)) (hred : u.color = .red)
    (hctx : Accepts K .black n) :
    ∃ t' q', Returns (fun turns => rbInsertFixup nil turns (ptr nil u) t) t' ∧
      Shows nil q' t' ((insertLoop K u).paint .black) := by
  have hleaf : ∀ {u : ColorTree (Cell Entry)}, u.color = .red → u ≠ leaf := by
    rintro u hu rfl
    exact absurd hu (by decide)
  induction K, u using insertLoop.induct generalizing n q t with
  | case1 u =>
    obtain ⟨t', hreturns, hshows⟩ := rbInsertFixup_exit h (hleaf hred) (by simp)
    exact ⟨t', q, hreturns, hshows⟩
  | case2 p u =>
    obtain ⟨t', hreturns, hshows⟩ := rbInsertFixup_exit h (hleaf hred) (by
      intro f rest hcons
      rw [← (List.cons.inj hcons).1]
      exact hctx.last_black)
    rw [insertLoop]
    exact ⟨t', q, hreturns, hshows⟩
  | case3 p g K u hp =>
    obtain ⟨t', hreturns, hshows⟩ := rbInsertFixup_exit h (hleaf hred) (by
      intro f rest hcons
      rw [← (List.cons.inj hcons).1]
      exact hp)
    rw [insertLoop, if_pos hp]
    exact ⟨t', q, hreturns, hshows⟩
  | case4 p g K u hp huncle ih =>
    obtain ⟨g', rest, hcons, -, -, -, -, hrest⟩ := hctx.red_frame (eq_red_of_ne hp)
    obtain ⟨rfl, rfl⟩ := List.cons.inj hcons
    obtain ⟨t1, hturn, s1⟩ := insertTurn_recolour h (hleaf hred) huncle
    obtain ⟨t2, q2, hreturns, s2⟩ := ih s1 (color_branch _ _ _ _ _) hrest
    rw [insertLoop, if_neg hp, if_pos huncle]
    refine ⟨t2, q2, hreturns.succ (fun turns => ?_), s2⟩
    rw [rbInsertFixup_turn h (hleaf hred) (eq_red_of_ne hp), hturn, ok_bind]
  | case5 p g K u hp huncle =>
    obtain ⟨t1, q1, near, y, far, hturn, hnear, hraised, s1⟩ :=
      insertTurn_rotate h hred (eq_red_of_ne hp) huncle
    have hfill : fill K (raised p g u) = fill (⟨g.side, .black, y, far⟩ :: K) near := by
      rw [hraised, fill_cons, Frame.fill_eq]
    rw [hfill] at s1
    obtain ⟨t2, hreturns, s2⟩ := rbInsertFixup_exit s1 hnear (by
      intro f rest hcons
      rw [← (List.cons.inj hcons).1])
    rw [insertLoop, if_neg hp, if_neg huncle, hfill]
    refine ⟨t2, q1, hreturns.succ (fun turns => ?_), s2⟩
    rw [rbInsertFixup_turn h (hleaf hred) (eq_red_of_ne hp), hturn, ok_bind]

end CServer.RbTree2
