import CServer.RbtTimer.Insertion

/-!
# The loop of the deletion in rbtree.c

The loop may start at the sentinel, whose parent tells where the black node is missing.
-/
namespace CServer.RbtTimer

open RedBlack RedBlack.ColorTree

variable {nil q : Addr} {t : Tree} {T u : ColorTree (Cell TimerEntry)} {K : Ctx (Cell TimerEntry)}
variable {f p : Frame (Cell TimerEntry)} {s : Side} {c e : Color} {w x y : Cell TimerEntry}
variable {near far l : ColorTree (Cell TimerEntry)}

/-! ## The turns -/

/-- The parent of the hole is read at the node in it, or at the sentinel. -/
theorem Shows.hole_reads (h : Shows nil q t (fill (p :: K) u)) (hq : u = leaf → q = p.label.addr) :
    (∃ n, t.heap.node (ptr nil u) = .ok n ∧ n.parent = p.label.addr ∧ n.color = u.color) ∧
      ∃ r, t.heap.node p.label.addr = .ok (p.node nil (ptr nil u) r) := by
  obtain ⟨r, hp, -⟩ := h.frame_eq
  refine ⟨?_, r, Heap.node_eq hp⟩
  by_cases hu : u = leaf
  · obtain ⟨n, hn, hblack, hscratch⟩ := h.sentinel
    subst hu
    exact ⟨n, Heap.node_eq hn, hscratch.trans (hq rfl), hblack⟩
  · obtain ⟨n, hn, hparent⟩ := h.parent_eq hu
    obtain ⟨n', hn', hcolor⟩ := h.color_eq
    obtain rfl := Except.ok.inj ((Heap.node_eq hn).symm.trans hn')
    exact ⟨n, hn', hparent, hcolor⟩

/-- What a turn reads at the sibling. -/
theorem Shows.sibling_reads (h : Shows nil q t (fill K (branch s c u y (branch s e near w far)))) :
    t.heap.node w.addr = .ok (sideNode s (ptr nil near) (ptr nil far) y.addr e w.value) ∧
      (∃ n, t.heap.node (ptr nil near) = .ok n ∧ n.color = near.color) ∧
      ∃ n, t.heap.node (ptr nil far) = .ok n ∧ n.color = far.color := by
  rw [← fill_far] at h
  obtain ⟨r, hw, hr⟩ := h.node_eq
  rw [hr (by simp), parentOf_cons] at hw
  have hnear := Shows.color_eq (K := ⟨s, e, w, far⟩ :: ⟨s.other, c, y, u⟩ :: K) h
  rw [← fill_far] at h
  exact ⟨Heap.node_eq hw, hnear, h.color_eq⟩

/-- A rotation at the parent settles the deletion. -/
theorem deleteSettling_spec (h : Shows nil q t (fill (p :: K) u))
    (hq : u = leaf → q = p.label.addr) (hw : p.sibling = branch p.side c near w far)
    (hfar : far ≠ leaf) :
    ∃ t', deleteSettling p.side nil (ptr nil u) w.addr t = .ok (t'.root, t') ∧
      Shows nil q t' (fill K (branch p.side p.color (branch p.side .black u p.label near) w
        (far.paint .black))) := by
  obtain ⟨⟨n, hn, hparent, -⟩, r, hp⟩ := h.hole_reads hq
  rw [fill_cons, Frame.fill_eq, hw] at h
  obtain ⟨h1, ok1, s1⟩ := h.setColor_far branch_ne_leaf p.color
  rw [ptr_branch] at ok1
  rw [paint_branch] at s1
  obtain ⟨h2, ok2, s2⟩ := s1.setColor_top .black
  obtain ⟨hwn, -⟩ := s2.sibling_reads
  rw [← fill_far] at s2
  obtain ⟨h3, ok3, s3⟩ := s2.setColor_far hfar .black
  rw [fill_far] at s3
  obtain ⟨t4, ok4, s4⟩ := s3.rotate
  refine ⟨t4, ?_, s4⟩
  simp only [deleteSettling, hn, hparent, hp, ok_bind, Frame.color_node, ok1, ok2, hwn,
    child_other_sideNode, ok3, ok4]

/-- A turn rotates at the parent where the black sibling has a red child. -/
theorem deleteBlackTurn_settled (h : Shows nil q t (fill (p :: K) u))
    (hq : u = leaf → q = p.label.addr) (hw : p.sibling = branch p.side c near w far)
    {v : ColorTree (Cell TimerEntry)} (hsettled : settled p u = some v) :
    ∃ t', deleteBlackTurn p.side nil (ptr nil u) w.addr t = .ok (t'.root, t') ∧
      Shows nil q t' (fill K v) := by
  have hview := h
  rw [fill_cons, Frame.fill_eq, hw] at hview
  obtain ⟨hwn, ⟨nn, hnn, hnear⟩, fn, hfn, hfar⟩ := hview.sibling_reads
  obtain ⟨hred, heq⟩ | ⟨hblack, a, x, b, rfl, heq⟩ | ⟨-, -, heq⟩ := settled_cases (t := u) hw
  · obtain rfl := Option.some.inj (heq.symm.trans hsettled)
    have hne : far ≠ leaf := by
      rintro rfl
      exact absurd hred (by decide)
    obtain ⟨t1, ok1, s1⟩ := deleteSettling_spec h hq hw hne
    refine ⟨t1, ?_, s1⟩
    simp [deleteBlackTurn, hwn, hnn, hfn, ok_bind, hfar, hred, ok1]
  · obtain rfl := Option.some.inj (heq.symm.trans hsettled)
    rw [← fill_far] at hview
    obtain ⟨h1, ok1, s1⟩ := hview.setColor_near branch_ne_leaf .black
    rw [ptr_branch] at ok1
    rw [paint_branch] at s1
    obtain ⟨h2, ok2, s2⟩ := s1.setColor_top .red
    obtain ⟨t3, ok3, s3⟩ := s2.rotateBack
    rw [fill_far] at s3
    have hturned : Shows nil q t3 (fill (⟨p.side, p.color, p.label,
        branch p.side .black a x (branch p.side .red b w far)⟩ :: K) u) := s3
    obtain ⟨⟨n, hn, hparent, -⟩, r, hp⟩ := hturned.hole_reads hq
    obtain ⟨t4, ok4, s4⟩ := deleteSettling_spec hturned hq rfl branch_ne_leaf
    rw [paint_branch] at s4
    refine ⟨t4, ?_, s4⟩
    have hchild : (Frame.node ⟨p.side, p.color, p.label,
        branch p.side .black a x (branch p.side .red b w far)⟩ nil (ptr nil u) r).child
        p.side.other = x.addr := by
      rw [Frame.node, child_other_sideNode, ptr_branch]
    rw [ptr_branch] at hnn hwn
    rw [color_branch] at hnear
    simp [deleteBlackTurn, hwn, hnn, hfn, ok_bind, hfar, hnear, hblack, ok1, ok2, ok3, hn, hparent,
      hp, hchild, ok4]
  · exact absurd (heq.symm.trans hsettled) (by simp)

/-- A turn goes up where it has none. -/
theorem deleteBlackTurn_climbed (h : Shows nil q t (fill (p :: K) u))
    (hq : u = leaf → q = p.label.addr) (hw : p.sibling = branch p.side c near w far)
    (hsettled : settled p u = none) :
    ∃ t', deleteBlackTurn p.side nil (ptr nil u) w.addr t = .ok (p.label.addr, t') ∧
      Shows nil q t' (fill K (climbed p u)) := by
  obtain ⟨hnear, hfar⟩ := (settled_eq_none_iff hw).mp hsettled
  rw [fill_cons, Frame.fill_eq, hw] at h
  obtain ⟨hwn, ⟨nn, hnn, hnn'⟩, fn, hfn, hfn'⟩ := h.sibling_reads
  obtain ⟨h1, ok1, s1⟩ := h.setColor_far branch_ne_leaf .red
  rw [ptr_branch] at ok1
  obtain ⟨⟨n, hn, hparent, -⟩, -⟩ := Shows.hole_reads
    (p := ⟨p.side, p.color, p.label, (branch p.side c near w far).paint .red⟩) s1 hq
  refine ⟨⟨h1, t.root⟩, ?_, ?_⟩
  · simp [deleteBlackTurn, hwn, hnn, hfn, ok_bind, hnn', hfn', eq_black_of_ne hnear,
      eq_black_of_ne hfar, ok1, hn, hparent]
  · rw [climbed, hw]
    exact s1

/-- A red sibling comes up, and the parent goes down with a new one. -/
theorem deleteTurn_red_sibling (h : Shows nil q t (fill (p :: K) u))
    (hq : u = leaf → q = p.label.addr)
    (hw : p.sibling = branch p.side .red near w far) :
    ∃ t', deleteTurn p.side nil (ptr nil u) t =
        deleteBlackTurn p.side nil (ptr nil u) (ptr nil near) t' ∧
      Shows nil q t' (fill (lowered p near :: lifted p w far :: K) u) := by
  obtain ⟨⟨n, hn, hparent, -⟩, r, hp⟩ := h.hole_reads hq
  have hchild : (p.node nil (ptr nil u) r).child p.side.other = w.addr := by
    rw [Frame.child_other_node, hw, ptr_branch]
  rw [fill_cons, Frame.fill_eq, hw] at h
  obtain ⟨hwn, -⟩ := h.sibling_reads
  obtain ⟨h1, ok1, s1⟩ := h.setColor_far branch_ne_leaf .black
  rw [ptr_branch] at ok1
  rw [paint_branch] at s1
  obtain ⟨h2, ok2, s2⟩ := s1.setColor_top .red
  obtain ⟨t3, ok3, s3⟩ := s2.rotate
  have hlow : Shows nil q t3 (fill (lowered p near :: lifted p w far :: K) u) := s3
  obtain ⟨⟨n', hn', hparent', -⟩, r', hp'⟩ := hlow.hole_reads hq
  have hchild' : ((lowered p near).node nil (ptr nil u) r').child p.side.other = ptr nil near :=
    Frame.child_other_node (lowered p near) nil (ptr nil u) r'
  refine ⟨t3, ?_, hlow⟩
  have hlabel : n'.parent = p.label.addr := hparent'
  have hp'' : t3.heap.node p.label.addr = _ := hp'
  simp only [deleteTurn, hn, hparent, hp, ok_bind, hchild, hwn, color_sideNode, if_true, ok1, ok2,
    ok3, hn', hlabel, hp'', hchild']

theorem deleteTurn_black_sibling (h : Shows nil q t (fill (p :: K) u))
    (hq : u = leaf → q = p.label.addr) (hw : p.sibling = branch p.side .black near w far) :
    deleteTurn p.side nil (ptr nil u) t = deleteBlackTurn p.side nil (ptr nil u) w.addr t := by
  obtain ⟨⟨n, hn, hparent, -⟩, r, hp⟩ := h.hole_reads hq
  have hchild : (p.node nil (ptr nil u) r).child p.side.other = w.addr := by
    rw [Frame.child_other_node, hw, ptr_branch]
  rw [fill_cons, Frame.fill_eq, hw] at h
  obtain ⟨hwn, -⟩ := h.sibling_reads
  simp [deleteTurn, hn, hparent, hp, ok_bind, hchild, hwn]

/-! ## The loop -/

/-- The loop ends at the root, or at a red node. -/
theorem deleteLoop_exit (h : Shows nil q t (fill K u))
    (hend : u.color = .red ∨ ptr nil u = t.root) :
    ∃ t', Returns (fun turns => deleteLoop nil turns (ptr nil u) t) t' ∧
      Shows nil q t' (fill K (u.paint .black)) := by
  obtain ⟨n, hn, hcolor⟩ := h.color_eq
  obtain ⟨heap, hok, hshows⟩ := h.blacken
  refine ⟨⟨heap, t.root⟩, Returns.of_succ (fun turns => ?_), hshows⟩
  have hnot : ¬(ptr nil u ≠ t.root ∧ n.color = .black) := by
    rintro ⟨hroot, hblack⟩
    rcases hend with hred | heq
    · rw [hcolor, hred] at hblack
      exact absurd hblack (by decide)
    · exact hroot heq
  rw [deleteLoop, hn, ok_bind, if_neg hnot, hok, ok_bind]

/-- After a rotation the loop ends with the root, which is black. -/
theorem deleteLoop_root (h : Shows nil q t T) (hvalid : Valid T) :
    ∃ t', Returns (fun turns => deleteLoop nil turns t.root t) t' ∧ Shows nil q t' T := by
  obtain ⟨t', hreturns, hshows⟩ := deleteLoop_exit (K := []) h (.inr h.root.symm)
  rw [fill_nil, hvalid.paint_black] at hshows
  rw [← h.root] at hreturns
  exact ⟨t', hreturns, hshows⟩

theorem deleteLoop_turn (h : Shows nil q t (fill (p :: K) u))
    (hq : u = leaf → q = p.label.addr) (hblack : u.color ≠ .red) (hsibling : p.sibling ≠ leaf)
    (turns : ℕ) :
    deleteLoop nil (turns + 1) (ptr nil u) t = (deleteTurn p.side nil (ptr nil u) t >>=
      fun next => deleteLoop nil turns next.1 next.2) := by
  obtain ⟨⟨n, hn, hparent, hcolor⟩, r, hp⟩ := h.hole_reads hq
  have hne : ptr nil p.sibling ≠ ptr nil u := by
    have hrep := h.rep
    rw [fill_sibling] at hrep
    exact (hrep.sibling_ne hsibling).symm
  have hside : (if ptr nil u = (p.node nil (ptr nil u) r).left then Side.left
      else .right) = p.side := (if_congr eq_comm rfl rfl).trans (Frame.side_of_left hne)
  have hroot := h.rep.ptr_ne_root
  rw [← h.root] at hroot
  rw [deleteLoop, hn, ok_bind, if_pos ⟨hroot, hcolor.trans (eq_black_of_ne hblack)⟩, hparent, hp,
    ok_bind, hside]

/-- The loop is the rebalancing of a deletion from the deficient subtree upwards. -/
theorem deleteLoop_spec {n : ℕ} (h : Shows nil q t (fill K u))
    (hq : u = leaf → q = parentOf nil K) (hdeficient : Deficient u n)
    (hctx : Accepts K .black (n + 1)) :
    ∃ t', Returns (fun turns => deleteLoop nil turns (ptr nil u) t) t' ∧
      Shows nil q t' (RedBlack.deleteLoop K u) := by
  induction K generalizing u n t with
  | nil =>
    exact deleteLoop_exit h (.inr h.root.symm)
  | cons p K ih =>
    have hvalid := valid_deleteLoop hdeficient hctx
    by_cases hu : u.color = .red
    · rw [deleteLoop_of_red hu]
      exact deleteLoop_exit h (.inl hu)
    obtain ⟨hred, hsibling, hrest⟩ := accepts_cons.mp hctx
    obtain ⟨c, near, w, far, hw⟩ := hsibling.exists_branch p.side
    have hne : p.sibling ≠ leaf := by
      rw [hw]
      exact branch_ne_leaf
    have hturns := deleteLoop_turn h hq hu hne
    by_cases hsib : p.sibling.color = .red
    · have hc : c = .red := by rwa [hw, color_branch] at hsib
      subst hc
      rw [deleteLoop_red_sibling hu hw] at hvalid ⊢
      obtain ⟨t1, hturn, s1⟩ := deleteTurn_red_sibling h hq hw
      rw [hw] at hsibling
      obtain ⟨hnear, -, hbnear, -⟩ := balanced_red.mp hsibling
      obtain ⟨c', near', w', far', hw'⟩ := hbnear.exists_branch p.side
      have hlow : (lowered p near).sibling = branch (lowered p near).side c' near' w' far' := hw'
      have hptr : ptr nil near = w'.addr := by rw [hw', ptr_branch]
      rw [hptr] at hturn
      cases hsettled : settled (lowered p near) u with
      | none =>
        obtain ⟨t2, hblack, s2⟩ := deleteBlackTurn_climbed s1 hq hlow hsettled
        have hturn2 : deleteBlackTurn p.side nil (ptr nil u) w'.addr t1 = _ := hblack
        -- the parent is red now, so the next turn is the last one
        obtain ⟨t3, hnext, s3⟩ := deleteLoop_exit s2 (.inl (color_branch _ _ _ _ _))
        rw [climbed, ptr_branch] at hnext
        refine ⟨t3, hnext.succ (fun turns => ?_), s3⟩
        rw [hturns, hturn, hturn2, ok_bind]
      | some v =>
        obtain ⟨t2, hblack, s2⟩ := deleteBlackTurn_settled s1 hq hlow hsettled
        have hturn2 : deleteBlackTurn p.side nil (ptr nil u) w'.addr t1 = _ := hblack
        rw [hsettled] at hvalid
        obtain ⟨t3, hnext, s3⟩ := deleteLoop_root s2 hvalid
        refine ⟨t3, hnext.succ (fun turns => ?_), s3⟩
        rw [hturns, hturn, hturn2, ok_bind]
    · have hc : c = .black := by
        apply eq_black_of_ne
        rwa [hw, color_branch] at hsib
      subst hc
      have hturn := deleteTurn_black_sibling h hq hw
      cases hsettled : settled p u with
      | none =>
        obtain ⟨t1, hblack, s1⟩ := deleteBlackTurn_climbed h hq hw hsettled
        obtain ⟨m, hdeficient', hctx'⟩ :=
          deficient_climbed (hdeficient.black hu) hsib hsettled hctx
        obtain ⟨t2, hnext, s2⟩ :=
          ih s1 (fun hleaf => absurd hleaf branch_ne_leaf) hdeficient' hctx'
        rw [deleteLoop_climbed hu hsib hsettled]
        rw [climbed, ptr_branch] at hnext
        refine ⟨t2, hnext.succ (fun turns => ?_), s2⟩
        rw [hturns, hturn, hblack, ok_bind]
      | some v =>
        obtain ⟨t1, hblack, s1⟩ := deleteBlackTurn_settled h hq hw hsettled
        rw [deleteLoop_settled hu hsib hsettled] at hvalid ⊢
        obtain ⟨t2, hnext, s2⟩ := deleteLoop_root s1 hvalid
        refine ⟨t2, hnext.succ (fun turns => ?_), s2⟩
        rw [hturns, hturn, hblack, ok_bind]

end CServer.RbtTimer
