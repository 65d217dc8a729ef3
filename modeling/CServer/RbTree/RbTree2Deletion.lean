import CServer.RbTree.RbTree2Balance

/-!
# The rebalancing of a deletion in rb_tree2.cpp

The loop may start at the sentinel, whose parent tells where the black node is missing. A rotation
at the root would overwrite that, and `rb_delete` would not hear of the new root. The loop makes
none where the black node is not missing there, or is found before.
-/
namespace CServer.RbTree2

open RedBlack RedBlack.ColorTree Contents

variable {nil q : Addr} {t : RbTree} {T u : ColorTree (Cell Entry)} {K : Ctx (Cell Entry)}
variable {f p : Frame (Cell Entry)} {s : Side} {c e : Color} {w x y : Cell Entry}
variable {near far l : ColorTree (Cell Entry)}

/-! ## Where the loop rotates -/

/-- Neither child of the root is red. -/
def BlackChildren : ColorTree (Cell Entry) → Prop
  | leaf => True
  | node _ l _ r => l.color ≠ .red ∧ r.color ≠ .red

/-- Beside the frame nothing is rotated: its sibling becomes red. -/
def Quiet (f : Frame (Cell Entry)) : Prop := f.sibling.color ≠ .red ∧ BlackChildren f.sibling

/-- A black node that is missing in the hole is missing below the root in the end, after black
nodes with quiet siblings only, and a rotation at the root settles it. -/
def RotationAtRoot : Ctx (Cell Entry) → Prop
  | [] => False
  | [f] => ¬Quiet f
  | f :: g :: K => f.color = .black ∧ Quiet f ∧ RotationAtRoot (g :: K)

theorem quiet_iff (hw : p.sibling = branch p.side c near w far) :
    Quiet p ↔ c ≠ .red ∧ near.color ≠ .red ∧ far.color ≠ .red := by
  rw [Quiet, hw, color_branch]
  cases p.side with
  | left => exact Iff.rfl
  | right => exact and_congr_right' and_comm

/-- The loop goes up past a quiet sibling, and rotates beside any other. -/
theorem quiet_iff_settled : Quiet p ↔ p.sibling.color ≠ .red ∧ settled p u = none := by
  cases hsibling : p.sibling with
  | leaf =>
    have hsettled : settled p u = none := by
      rw [settled, hsibling]
    rw [Quiet, hsibling]
    exact and_congr_right' (iff_of_true trivial hsettled)
  | node d l w r =>
    rw [← hsibling]
    rw [node_eq_branch p.side] at hsibling
    rw [quiet_iff hsibling, settled_eq_none_iff hsibling, hsibling, color_branch]

/-- The label of a node above the hole does not matter. -/
theorem rotationAtRoot_relabel {low : Ctx (Cell Entry)} :
    RotationAtRoot (low ++ ⟨s, c, x, l⟩ :: K) ↔ RotationAtRoot (low ++ ⟨s, c, y, l⟩ :: K) := by
  induction low with
  | nil => cases K <;> exact Iff.rfl
  | cons f low ih =>
    cases low with
    | nil => exact and_congr_right' (and_congr_right' ih)
    | cons g low => exact and_congr_right' (and_congr_right' ih)

/-- A rotation where one is made is not at the root of a tree with a frame above. -/
theorem ne_nil_of_not_quiet (h : ¬RotationAtRoot (p :: K)) (hp : ¬Quiet p) : K ≠ [] := by
  rintro rfl
  exact h hp

/-- Going up past a quiet sibling. -/
theorem not_rotationAtRoot_climbed (h : ¬RotationAtRoot (p :: K)) (hp : Quiet p) :
    ¬((climbed p u).color = .black ∧ RotationAtRoot K) := by
  intro ⟨hcolor, hroot⟩
  rw [climbed, color_branch] at hcolor
  cases K with
  | nil => exact hroot
  | cons g K => exact h ⟨hcolor, hp, hroot⟩

theorem ptr_climbed : ptr nil (fill K (climbed p u)) = ptr nil (fill (p :: K) u) := by
  cases K with
  | nil =>
    show ptr nil (branch p.side p.color u p.label (p.sibling.paint .red)) =
      ptr nil (branch p.side p.color u p.label p.sibling)
    rw [ptr_branch, ptr_branch]
  | cons g K => exact ptr_fill_cons

/-- The root stays where it is. -/
theorem ptr_deleteLoop (hregular : ¬(u.color = .black ∧ RotationAtRoot K)) :
    ptr nil (deleteLoop K u) = ptr nil (fill K u) := by
  induction K generalizing u with
  | nil => exact ptr_paint
  | cons p K ih =>
    by_cases hu : u.color = .red
    · rw [deleteLoop_of_red hu]
      exact ptr_fill_cons
    have hnot : ¬RotationAtRoot (p :: K) := fun hroot => hregular ⟨eq_black_of_ne hu, hroot⟩
    by_cases hp : Quiet p
    · obtain ⟨hsibling, hsettled⟩ := quiet_iff_settled.mp hp
      rw [deleteLoop_climbed hu hsibling hsettled, ih (not_rotationAtRoot_climbed hnot hp)]
      exact ptr_climbed
    · obtain ⟨g, rest, rfl⟩ := List.exists_cons_of_ne_nil (ne_nil_of_not_quiet hnot hp)
      by_cases hsibling : p.sibling.color = .red
      · obtain ⟨near, w, far, hw⟩ := exists_branch_of_red hsibling p.side
        rw [deleteLoop_red_sibling hu hw]
        show ptr nil (fill (g :: rest) _) = ptr nil (fill (g :: rest) _)
        exact ptr_fill_cons
      · cases hsettled : settled p u with
        | none => exact absurd (quiet_iff_settled.mpr ⟨hsibling, hsettled⟩) hp
        | some v =>
          rw [deleteLoop_settled hu hsibling hsettled]
          exact ptr_fill_cons

/-! ## The turns -/

/-- The parent of the hole is read at the node in it, or at the sentinel. -/
theorem Shows.hole_reads (h : Shows nil q t (fill (p :: K) u)) (hq : u = leaf → q = p.label.addr) :
    (∃ n, t.heap.node (ptr nil u) = .ok n ∧ n.parent = p.label.addr ∧ n.color = u.color) ∧
      t.heap.node p.label.addr = .ok (p.node nil (ptr nil u) (parentOf nil K)) := by
  refine ⟨?_, Heap.node_eq h.rep.frame_eq⟩
  by_cases hu : u = leaf
  · obtain ⟨n, hn, hblack, hscratch⟩ := h.sentinel
    subst hu
    exact ⟨n, Heap.node_eq hn, hscratch.trans (hq rfl), hblack⟩
  · obtain ⟨n, hn, hparent⟩ := h.rep.parent_eq hu
    obtain ⟨n', hn', hcolor⟩ := h.color_eq
    obtain rfl := Except.ok.inj ((Heap.node_eq hn).symm.trans hn')
    exact ⟨n, hn', hparent, hcolor⟩

/-- What a turn reads at the sibling. -/
theorem Shows.sibling_reads (h : Shows nil q t (fill K (branch s c u y (branch s e near w far)))) :
    t.heap.node w.addr = .ok (sideNode s (ptr nil near) (ptr nil far) y.addr e w.value) ∧
      (∃ n, t.heap.node (ptr nil near) = .ok n ∧ n.color = near.color) ∧
      ∃ n, t.heap.node (ptr nil far) = .ok n ∧ n.color = far.color := by
  have hw := Heap.node_eq h.rep.child_eq
  rw [← fill_far] at h
  have hnear := Shows.color_eq (K := ⟨s, e, w, far⟩ :: ⟨s.other, c, y, u⟩ :: K) h
  rw [← fill_far] at h
  exact ⟨hw, hnear, h.color_eq⟩

/-- A rotation at the parent settles the deletion. -/
theorem deleteSettling_spec (h : Shows nil q t (fill (p :: K) u))
    (hq : u = leaf → q = p.label.addr) (hw : p.sibling = branch p.side c near w far)
    (hfar : far ≠ leaf) :
    ∃ t' q', deleteSettling p.side nil (ptr nil u) w.addr t = .ok (t'.root, t') ∧
      Shows nil q' t' (fill K (branch p.side p.color (branch p.side .black u p.label near) w
        (far.paint .black))) := by
  obtain ⟨⟨n, hn, hparent, -⟩, hp⟩ := h.hole_reads hq
  rw [fill_cons, Frame.fill_eq, hw] at h
  obtain ⟨h1, ok1, s1⟩ := h.setColor_far branch_ne_leaf p.color
  rw [ptr_branch] at ok1
  rw [paint_branch] at s1
  obtain ⟨h2, ok2, s2⟩ := s1.setColor_top .black
  obtain ⟨hwn, -⟩ := s2.sibling_reads
  rw [← fill_far] at s2
  obtain ⟨h3, ok3, s3⟩ := s2.setColor_far hfar .black
  rw [fill_far] at s3
  obtain ⟨t4, q4, ok4, s4, -⟩ := s3.rotate
  refine ⟨t4, q4, ?_, s4⟩
  simp only [deleteSettling, hn, hparent, hp, ok_bind, Frame.color_node, ok1, ok2, hwn,
    child_other_sideNode, ok3, ok4]

/-- A turn rotates at the parent where the black sibling has a red child. -/
theorem deleteBlackTurn_settled (h : Shows nil q t (fill (p :: K) u))
    (hq : u = leaf → q = p.label.addr) (hw : p.sibling = branch p.side c near w far)
    {v : ColorTree (Cell Entry)} (hsettled : settled p u = some v) :
    ∃ t' q', deleteBlackTurn p.side nil (ptr nil u) w.addr t = .ok (t'.root, t') ∧
      Shows nil q' t' (fill K v) := by
  have hview := h
  rw [fill_cons, Frame.fill_eq, hw] at hview
  obtain ⟨hwn, ⟨nn, hnn, hnear⟩, fn, hfn, hfar⟩ := hview.sibling_reads
  obtain ⟨hred, heq⟩ | ⟨hblack, a, x, b, rfl, heq⟩ | ⟨-, -, heq⟩ := settled_cases (t := u) hw
  · obtain rfl := Option.some.inj (heq.symm.trans hsettled)
    have hne : far ≠ leaf := by
      rintro rfl
      exact absurd hred (by decide)
    obtain ⟨t1, q1, ok1, s1⟩ := deleteSettling_spec h hq hw hne
    refine ⟨t1, q1, ?_, s1⟩
    simp [deleteBlackTurn, hwn, hnn, hfn, ok_bind, hfar, hred, ok1]
  · obtain rfl := Option.some.inj (heq.symm.trans hsettled)
    rw [← fill_far] at hview
    obtain ⟨h1, ok1, s1⟩ := hview.setColor_near branch_ne_leaf .black
    rw [ptr_branch] at ok1
    rw [paint_branch] at s1
    obtain ⟨h2, ok2, s2⟩ := s1.setColor_top .red
    obtain ⟨t3, q3, ok3, s3, hq3⟩ := s2.rotateBack
    obtain rfl := hq3 (by simp)
    rw [fill_far] at s3
    have hturned : Shows nil q3 t3 (fill (⟨p.side, p.color, p.label,
        branch p.side .black a x (branch p.side .red b w far)⟩ :: K) u) := s3
    obtain ⟨⟨n, hn, hparent, -⟩, hp⟩ := hturned.hole_reads hq
    obtain ⟨t4, q4, ok4, s4⟩ := deleteSettling_spec hturned hq rfl branch_ne_leaf
    rw [paint_branch] at s4
    refine ⟨t4, q4, ?_, s4⟩
    have hchild : (Frame.node ⟨p.side, p.color, p.label,
        branch p.side .black a x (branch p.side .red b w far)⟩ nil (ptr nil u)
        (parentOf nil K)).child p.side.other = x.addr := by
      rw [Frame.node, child_other_sideNode, ptr_branch]
    rw [ptr_branch] at hnn hwn
    rw [color_branch] at hnear
    simp [deleteBlackTurn, hwn, hnn, hfn, ok_bind, hfar, hnear, hblack, ok1, ok2, ok3, hn, hparent,
      hp, hchild, ok4]
  · exact absurd (heq.symm.trans hsettled) (by simp)

/-- A turn goes up where it has none. -/
theorem deleteBlackTurn_climbed (h : Shows nil q t (fill (p :: K) u))
    (hq : u = leaf → q = p.label.addr) (hw : p.sibling = branch p.side c near w far)
    (hsettled : settled p u = none) :
    ∃ t', deleteBlackTurn p.side nil (ptr nil u) w.addr t = .ok (p.label.addr, t') ∧
      Shows nil q t' (fill K (climbed p u)) := by
  obtain ⟨hnear, hfar⟩ := (settled_eq_none_iff hw).mp hsettled
  rw [fill_cons, Frame.fill_eq, hw] at h
  obtain ⟨hwn, ⟨nn, hnn, hnn'⟩, fn, hfn, hfn'⟩ := h.sibling_reads
  obtain ⟨h1, ok1, s1⟩ := h.setColor_far branch_ne_leaf .red
  rw [ptr_branch] at ok1
  obtain ⟨⟨n, hn, hparent, -⟩, -⟩ := Shows.hole_reads
    (p := ⟨p.side, p.color, p.label, (branch p.side c near w far).paint .red⟩) s1 hq
  refine ⟨⟨h1, t.root⟩, ?_, ?_⟩
  · simp [deleteBlackTurn, hwn, hnn, hfn, ok_bind, hnn', hfn', eq_black_of_ne hnear,
      eq_black_of_ne hfar, ok1, hn, hparent]
  · rw [climbed, hw]
    exact s1

/-- A red sibling comes up, and the parent goes down with a new one. -/
theorem deleteTurn_red_sibling (h : Shows nil q t (fill (p :: K) u))
    (hq : u = leaf → q = p.label.addr) (hK : K ≠ [])
    (hw : p.sibling = branch p.side .red near w far) :
    ∃ t', deleteTurn p.side nil (ptr nil u) t =
        deleteBlackTurn p.side nil (ptr nil u) (ptr nil near) t' ∧
      Shows nil q t' (fill (lowered p near :: lifted p w far :: K) u) := by
  obtain ⟨⟨n, hn, hparent, -⟩, hp⟩ := h.hole_reads hq
  have hchild : (p.node nil (ptr nil u) (parentOf nil K)).child p.side.other = w.addr := by
    rw [Frame.child_other_node, hw, ptr_branch]
  rw [fill_cons, Frame.fill_eq, hw] at h
  obtain ⟨hwn, -⟩ := h.sibling_reads
  obtain ⟨h1, ok1, s1⟩ := h.setColor_far branch_ne_leaf .black
  rw [ptr_branch] at ok1
  rw [paint_branch] at s1
  obtain ⟨h2, ok2, s2⟩ := s1.setColor_top .red
  obtain ⟨t3, q3, ok3, s3, hq3⟩ := s2.rotate
  obtain rfl := hq3 hK
  have hlow : Shows nil q3 t3 (fill (lowered p near :: lifted p w far :: K) u) := s3
  obtain ⟨⟨n', hn', hparent', -⟩, hp'⟩ := hlow.hole_reads hq
  have hchild' : ((lowered p near).node nil (ptr nil u)
      (parentOf nil (lifted p w far :: K))).child p.side.other = ptr nil near :=
    Frame.child_other_node (lowered p near) nil (ptr nil u) _
  refine ⟨t3, ?_, hlow⟩
  have hlabel : n'.parent = p.label.addr := hparent'
  have hp'' : t3.heap.node p.label.addr = _ := hp'
  simp only [deleteTurn, hn, hparent, hp, ok_bind, hchild, hwn, color_sideNode, if_true, ok1, ok2,
    ok3, hn', hlabel, hp'', hchild']

theorem deleteTurn_black_sibling (h : Shows nil q t (fill (p :: K) u))
    (hq : u = leaf → q = p.label.addr) (hw : p.sibling = branch p.side .black near w far) :
    deleteTurn p.side nil (ptr nil u) t = deleteBlackTurn p.side nil (ptr nil u) w.addr t := by
  obtain ⟨⟨n, hn, hparent, -⟩, hp⟩ := h.hole_reads hq
  have hchild : (p.node nil (ptr nil u) (parentOf nil K)).child p.side.other = w.addr := by
    rw [Frame.child_other_node, hw, ptr_branch]
  rw [fill_cons, Frame.fill_eq, hw] at h
  obtain ⟨hwn, -⟩ := h.sibling_reads
  simp [deleteTurn, hn, hparent, hp, ok_bind, hchild, hwn]

/-! ## The loop -/

/-- The loop ends at the root, or at a red node. -/
theorem rbDeleteFixup_exit (h : Shows nil q t (fill K u))
    (hend : u.color = .red ∨ ptr nil u = t.root) :
    ∃ t', Returns (fun turns => rbDeleteFixup nil turns (ptr nil u) t) t' ∧
      Shows nil q t' (fill K (u.paint .black)) := by
  obtain ⟨n, hn, hcolor⟩ := h.color_eq
  obtain ⟨heap, hok, hshows⟩ := h.blacken
  refine ⟨⟨heap, t.root⟩, Returns.of_succ (fun turns => ?_), hshows⟩
  have hnot : ¬(ptr nil u ≠ t.root ∧ n.color = .black) := by
    rintro ⟨hroot, hblack⟩
    rcases hend with hred | heq
    · rw [hcolor, hred] at hblack
      exact absurd hblack (by decide)
    · exact hroot heq
  rw [rbDeleteFixup, hn, ok_bind, if_neg hnot, hok, ok_bind]

/-- After a rotation the loop ends with the root, which is black. -/
theorem rbDeleteFixup_root (h : Shows nil q t T) (hvalid : Valid T) :
    ∃ t', Returns (fun turns => rbDeleteFixup nil turns t.root t) t' ∧ Shows nil q t' T := by
  obtain ⟨t', hreturns, hshows⟩ := rbDeleteFixup_exit (K := []) h (.inr h.root.symm)
  rw [fill_nil, hvalid.paint_black] at hshows
  rw [← h.root] at hreturns
  exact ⟨t', hreturns, hshows⟩

theorem rbDeleteFixup_turn (h : Shows nil q t (fill (p :: K) u))
    (hq : u = leaf → q = p.label.addr) (hblack : u.color ≠ .red) (hsibling : p.sibling ≠ leaf)
    (turns : ℕ) :
    rbDeleteFixup nil (turns + 1) (ptr nil u) t = (deleteTurn p.side nil (ptr nil u) t >>=
      fun next => rbDeleteFixup nil turns next.1 next.2) := by
  obtain ⟨⟨n, hn, hparent, hcolor⟩, hp⟩ := h.hole_reads hq
  have hne : ptr nil p.sibling ≠ ptr nil u := by
    have hrep := h.rep
    rw [fill_sibling] at hrep
    exact (hrep.sibling_ne hsibling).symm
  have hside : (if ptr nil u = (p.node nil (ptr nil u) (parentOf nil K)).left then Side.left
      else .right) = p.side := (if_congr eq_comm rfl rfl).trans (Frame.side_of_left hne)
  have hroot := h.rep.ptr_ne_root
  rw [← h.root] at hroot
  rw [rbDeleteFixup, hn, ok_bind, if_pos ⟨hroot, hcolor.trans (eq_black_of_ne hblack)⟩, hparent, hp,
    ok_bind, hside]

/-- The loop is the rebalancing of a deletion, unless that rotates at the root. -/
theorem rbDeleteFixup_spec {n : ℕ} (h : Shows nil q t (fill K u))
    (hq : u = leaf → q = parentOf nil K) (hdeficient : Deficient u n)
    (hctx : Accepts K .black (n + 1)) (hregular : ¬(u.color = .black ∧ RotationAtRoot K)) :
    ∃ t' q', Returns (fun turns => rbDeleteFixup nil turns (ptr nil u) t) t' ∧
      Shows nil q' t' (deleteLoop K u) := by
  induction K generalizing u n q t with
  | nil =>
    obtain ⟨t', hreturns, hshows⟩ := rbDeleteFixup_exit h (.inr h.root.symm)
    exact ⟨t', q, hreturns, hshows⟩
  | cons p K ih =>
    have hvalid := valid_deleteLoop hdeficient hctx
    by_cases hu : u.color = .red
    · obtain ⟨t', hreturns, hshows⟩ := rbDeleteFixup_exit h (.inl hu)
      rw [deleteLoop_of_red hu]
      exact ⟨t', q, hreturns, hshows⟩
    have hnot : ¬RotationAtRoot (p :: K) := fun hroot => hregular ⟨eq_black_of_ne hu, hroot⟩
    obtain ⟨hred, hsibling, hrest⟩ := accepts_cons.mp hctx
    obtain ⟨c, near, w, far, hw⟩ := hsibling.exists_branch p.side
    have hne : p.sibling ≠ leaf := by
      rw [hw]
      exact branch_ne_leaf
    have hturns := rbDeleteFixup_turn h hq hu hne
    by_cases hsib : p.sibling.color = .red
    · have hc : c = .red := by rwa [hw, color_branch] at hsib
      subst hc
      have hK : K ≠ [] := ne_nil_of_not_quiet hnot (fun hp => hp.1 hsib)
      rw [deleteLoop_red_sibling hu hw] at hvalid ⊢
      obtain ⟨t1, hturn, s1⟩ := deleteTurn_red_sibling h hq hK hw
      rw [hw] at hsibling
      obtain ⟨hnear, -, hbnear, -⟩ := balanced_red.mp hsibling
      obtain ⟨c', near', w', far', hw'⟩ := hbnear.exists_branch p.side
      have hlow : (lowered p near).sibling = branch (lowered p near).side c' near' w' far' := hw'
      have hptr : ptr nil near = w'.addr := by rw [hw', ptr_branch]
      rw [hptr] at hturn
      cases hsettled : settled (lowered p near) u with
      | none =>
        obtain ⟨t2, hblack, s2⟩ := deleteBlackTurn_climbed s1 hq hlow hsettled
        have hturn2 : deleteBlackTurn p.side nil (ptr nil u) w'.addr t1 = _ := hblack
        -- the parent is red now, so the next turn is the last one
        obtain ⟨t3, hnext, s3⟩ := rbDeleteFixup_exit s2 (.inl (color_branch _ _ _ _ _))
        rw [climbed, ptr_branch] at hnext
        refine ⟨t3, q, hnext.succ (fun turns => ?_), s3⟩
        rw [hturns, hturn, hturn2, ok_bind]
      | some v =>
        obtain ⟨t2, q2, hblack, s2⟩ := deleteBlackTurn_settled s1 hq hlow hsettled
        have hturn2 : deleteBlackTurn p.side nil (ptr nil u) w'.addr t1 = _ := hblack
        rw [hsettled] at hvalid
        obtain ⟨t3, hnext, s3⟩ := rbDeleteFixup_root s2 hvalid
        refine ⟨t3, q2, hnext.succ (fun turns => ?_), s3⟩
        rw [hturns, hturn, hturn2, ok_bind]
    · have hc : c = .black := by
        apply eq_black_of_ne
        rwa [hw, color_branch] at hsib
      subst hc
      have hturn := deleteTurn_black_sibling h hq hw
      cases hsettled : settled p u with
      | none =>
        have hquiet : Quiet p := quiet_iff_settled.mpr ⟨hsib, hsettled⟩
        obtain ⟨t1, hblack, s1⟩ := deleteBlackTurn_climbed h hq hw hsettled
        obtain ⟨m, hdeficient', hctx'⟩ :=
          deficient_climbed (hdeficient.black hu) hsib hsettled hctx
        obtain ⟨t2, q2, hnext, s2⟩ := ih s1 (fun hleaf => absurd hleaf branch_ne_leaf) hdeficient'
          hctx' (not_rotationAtRoot_climbed hnot hquiet)
        rw [deleteLoop_climbed hu hsib hsettled]
        rw [climbed, ptr_branch] at hnext
        refine ⟨t2, q2, hnext.succ (fun turns => ?_), s2⟩
        rw [hturns, hturn, hblack, ok_bind]
      | some v =>
        obtain ⟨t1, q1, hblack, s1⟩ := deleteBlackTurn_settled h hq hw hsettled
        rw [deleteLoop_settled hu hsib hsettled] at hvalid ⊢
        obtain ⟨t2, hnext, s2⟩ := rbDeleteFixup_root s1 hvalid
        refine ⟨t2, q1, hnext.succ (fun turns => ?_), s2⟩
        rw [hturns, hturn, hblack, ok_bind]

end CServer.RbTree2
