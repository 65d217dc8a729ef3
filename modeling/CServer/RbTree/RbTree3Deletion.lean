import CServer.RbTree.RbTree3Balance

/-!
# The cases of a deletion in rb_tree3.cpp
-/
namespace CServer.RbTree3

open RedBlack RedBlack.ColorTree Contents

variable {T : Addr} {heap : Heap Entry} {u : ColorTree (Cell Entry)} {K : Ctx (Cell Entry)}
variable {p : Frame (Cell Entry)} {c cs : Color} {w : Cell Entry}
variable {near far l r : ColorTree (Cell Entry)}

/-! ## What the cases read -/

/-- The parent, the sibling and its children, as the cases read them. -/
structure Reads (heap : Heap Entry) (p : Frame (Cell Entry)) (hole : Addr) (cs : Color)
    (l : ColorTree (Cell Entry)) (w : Cell Entry) (r : ColorTree (Cell Entry)) (pn : Node Entry) : Prop where
  parent : heap.node p.label.addr = .ok pn
  ne : w.addr ≠ hole
  color : pn.color = p.color
  sibling : siblingOf hole pn = w.addr
  side : sideOf hole pn = p.side
  left : hole = pn.left ↔ p.side = .left
  right : hole = pn.right ↔ p.side = .right
  node : heap.node w.addr = .ok ⟨ptr null l, ptr null r, p.label.addr, cs, w.value⟩
  leftRed : heap.isRed null (ptr null l) = .ok (decide (l.color = .red))
  rightRed : heap.isRed null (ptr null r) = .ok (decide (r.color = .red))

theorem Shows.reads (h : Shows T heap (fill (p :: K) u)) (hw : p.sibling = node cs l w r) :
    Reads heap p (ptr null u) cs l w r (p.node null (ptr null u) (parentOf T K)) := by
  have hrep := h.rep
  rw [fill_sibling, hw] at hrep
  have hne : ptr null p.sibling ≠ ptr null u := by
    rw [hw]
    exact (hrep.sibling_ne (by simp)).symm
  have hnode := (holds_fill.mp hrep.holds).2.1
  exact {
    parent := Heap.node_eq h.rep.frame_eq
    ne := by
      rw [hw] at hne
      exact hne
    color := Frame.color_node _ _ _ _
    sibling := by
      rw [siblingOf, Frame.other_child hne, hw]
      rfl
    side := (if_congr eq_comm rfl rfl).trans (Frame.side_of_left hne)
    left := Frame.eq_left_iff hne
    right := Frame.eq_right_iff hne
    node := Heap.node_eq hnode
    leftRed := Rep.isRed_eq (K := ⟨.left, cs, w, r⟩ :: ⟨p.side.other, p.color, p.label, u⟩ :: K) hrep
    rightRed := Rep.isRed_eq (K := ⟨.right, cs, w, l⟩ :: ⟨p.side.other, p.color, p.label, u⟩ :: K) hrep }

theorem allBlack_eq (h : Shows T heap (fill (p :: K) u)) (hw : p.sibling = node cs l w r) :
    allBlack c p.label.addr (ptr null u) heap =
      .ok (decide (p.color = c ∧ cs = .black ∧ l.color ≠ .red ∧ r.color ≠ .red)) := by
  have hreads := h.reads hw
  rw [allBlack, hreads.parent, ok_bind, hreads.sibling, hreads.node, ok_bind, hreads.leftRed,
    ok_bind, hreads.rightRed, ok_bind, hreads.color]
  simp

theorem sideOf_sideNode {s : Side} {hole a parent : Addr} {v : Entry} (h : a ≠ hole) :
    sideOf hole (sideNode s hole a parent c v) = s := by
  cases s with
  | left => exact if_pos rfl
  | right => exact if_neg h.symm

/-! ## The rotations at the end -/

theorem deleteCase6_spec (h : Shows T heap (fill (p :: K) u))
    (hw : p.sibling = branch p.side cs near w far) (hfar : far ≠ leaf) :
    ∃ heap', deleteCase6 T p.label.addr (ptr null u) heap = .ok heap' ∧
      Shows T heap' (fill K (branch p.side p.color (branch p.side .black u p.label near) w
        (far.paint .black))) := by
  have hw' : p.sibling = node cs (pick p.side near far) w (pick p.side.other near far) := by
    rw [hw]
    cases p.side <;> rfl
  have hreads := h.reads hw'
  rw [fill_cons, Frame.fill_eq, hw] at h
  obtain ⟨h1, ok1, s1⟩ := h.setColor_far branch_ne_leaf p.color
  rw [ptr_branch] at ok1
  rw [paint_branch] at s1
  obtain ⟨h2, ok2, s2⟩ := s1.setColor_top .black
  have hp := Heap.node_eq s2.rep.node_eq
  have hwn := Heap.node_eq s2.rep.child_eq
  rw [ptr_branch] at hp
  rw [← fill_far] at s2
  obtain ⟨h3, ok3, s3⟩ := s2.setColor_far hfar .black
  rw [fill_far] at s3
  obtain ⟨h4, ok4, s4⟩ := s3.rotate
  refine ⟨h4, ?_, s4⟩
  have hside : sideOf (ptr null u)
      (sideNode p.side (ptr null u) w.addr (parentOf T K) .black p.label.value) = p.side :=
    sideOf_sideNode hreads.ne
  simp only [deleteCase6, hreads.parent, ok_bind, hreads.sibling, hreads.color, ok1, ok2, hp, hwn,
    hside, child_other_sideNode, ok3, ok4]

/-- What `delete_case5` finds out below a black sibling. -/
theorem deleteCase5Rotation_eq {pn : Node Entry} {hole : Addr}
    (hreads : Reads heap p hole cs l w r pn) :
    deleteCase5Rotation T p.label.addr hole w.addr heap =
      if p.side = .left ∧ l.color = .red ∧ r.color ≠ .red then (do
        let heap ← heap.setColor (ptr null l) .black
        let heap ← heap.setColor w.addr .red
        rbRotate .right T w.addr heap)
      else if p.side = .right ∧ l.color ≠ .red then (do
        let right ← heap.node (ptr null r)
        if right.color = .red then do
          let heap ← heap.setColor (ptr null r) .black
          let heap ← heap.setColor w.addr .red
          rbRotate .left T w.addr heap
        else .ok heap)
      else .ok heap := by
  have hleft : (decide (l.color = .red) = true ∧ ¬decide (r.color = .red) = true) ↔
      l.color = .red ∧ r.color ≠ .red := by simp
  have hright : ¬decide (l.color = .red) = true ↔ l.color ≠ .red := by simp
  rw [deleteCase5Rotation, hreads.parent, ok_bind, hreads.node, ok_bind, hreads.leftRed, ok_bind,
    hreads.rightRed, ok_bind, if_congr (and_congr hreads.left hleft) rfl rfl,
    if_congr (and_congr hreads.right hright) rfl rfl]

/-- A red child of the sibling on the side of the deletion comes up. -/
theorem deleteCase5Rotation_near {a b : ColorTree (Cell Entry)} {x : Cell Entry}
    (h : Shows T heap (fill (p :: K) u))
    (hw : p.sibling = branch p.side .black (branch p.side .red a x b) w far)
    (hfar : far.color ≠ .red) :
    ∃ heap', deleteCase5Rotation T p.label.addr (ptr null u) w.addr heap = .ok heap' ∧
      Shows T heap' (fill (⟨p.side, p.color, p.label,
        branch p.side .black a x (branch p.side .red b w far)⟩ :: K) u) := by
  have hview : fill (p :: K) u = fill (⟨p.side, .black, w, far⟩ ::
      ⟨p.side.other, p.color, p.label, u⟩ :: K) (branch p.side .red a x b) := by
    rw [fill_sibling, hw]
    rfl
  have h' := h
  rw [hview] at h'
  have hx := Heap.node_eq h'.rep.node_eq
  obtain ⟨h1, ok1, s1⟩ := h'.setColor branch_ne_leaf .black
  rw [ptr_branch] at ok1
  rw [paint_branch] at s1
  obtain ⟨h2, ok2, s2⟩ := s1.setColor_frame .red
  obtain ⟨h3, ok3, s3⟩ := Shows.rotateBack (K := ⟨p.side.other, p.color, p.label, u⟩ :: K) s2
  rw [fill_far] at s3
  refine ⟨h3, ?_, s3⟩
  cases hside : p.side with
  | left =>
    rw [hside] at hw ok3
    have hreads := h.reads (l := branch .left .red a x b) (r := far) hw
    rw [deleteCase5Rotation_eq hreads, if_pos ⟨hside, color_branch _ _ _ _ _, hfar⟩, ptr_branch,
      ok1, ok_bind, ok2, ok_bind]
    exact ok3
  | right =>
    rw [hside] at hw ok3 hx
    have hreads := h.reads (l := far) (r := branch .right .red a x b) hw
    rw [deleteCase5Rotation_eq hreads, if_neg (by rw [hside]; simp), if_pos ⟨hside, hfar⟩,
      ptr_branch, hx, ok_bind, if_pos (color_sideNode), ok1, ok_bind, ok2, ok_bind]
    exact ok3

/-- Where the child on the other side is red nothing is rotated. -/
theorem deleteCase5Rotation_far (h : Shows T heap (fill (p :: K) u))
    (hw : p.sibling = branch p.side cs near w far) (hfar : far.color = .red) :
    deleteCase5Rotation T p.label.addr (ptr null u) w.addr heap = .ok heap := by
  cases hside : p.side with
  | left =>
    rw [hside] at hw
    have hreads := h.reads (l := near) (r := far) hw
    rw [deleteCase5Rotation_eq hreads, if_neg (fun hboth => hboth.2.2 hfar),
      if_neg (by rw [hside]; simp)]
  | right =>
    rw [hside] at hw
    have hreads := h.reads (l := far) (r := near) hw
    rw [deleteCase5Rotation_eq hreads, if_neg (by rw [hside]; simp),
      if_neg (fun hboth => hboth.2 hfar)]

/-- `delete_case5` and `delete_case6` settle the deletion where the black sibling has a red
child. -/
theorem deleteCase5_spec (h : Shows T heap (fill (p :: K) u))
    (hw : p.sibling = branch p.side .black near w far) {u' : ColorTree (Cell Entry)}
    (hsettled : settled p u = some u') :
    ∃ heap', deleteCase5 T p.label.addr (ptr null u) heap = .ok heap' ∧
      Shows T heap' (fill K u') := by
  have hw' : p.sibling = node .black (pick p.side near far) w (pick p.side.other near far) := by
    rw [hw]
    cases p.side <;> rfl
  have hreads := h.reads hw'
  have hcase5 : deleteCase5 T p.label.addr (ptr null u) heap =
      (deleteCase5Rotation T p.label.addr (ptr null u) w.addr heap >>= fun heap =>
        deleteCase6 T p.label.addr (ptr null u) heap) := by
    rw [deleteCase5, hreads.parent, ok_bind, hreads.sibling, hreads.node, ok_bind, if_pos rfl]
  rw [hcase5]
  obtain ⟨hred, heq⟩ | ⟨hblack, a, x, b, rfl, heq⟩ | ⟨-, -, heq⟩ := settled_cases (t := u) hw
  · obtain rfl := Option.some.inj (heq.symm.trans hsettled)
    have hne : far ≠ leaf := by
      rintro rfl
      exact absurd hred (by decide)
    rw [deleteCase5Rotation_far h hw hred, ok_bind]
    exact deleteCase6_spec h hw hne
  · obtain rfl := Option.some.inj (heq.symm.trans hsettled)
    obtain ⟨h1, ok1, s1⟩ := deleteCase5Rotation_near h hw (by rw [hblack]; decide)
    obtain ⟨h2, ok2, s2⟩ := deleteCase6_spec s1 rfl branch_ne_leaf
    rw [ok1, ok_bind]
    rw [paint_branch] at s2
    exact ⟨h2, ok2, s2⟩
  · exact absurd (heq.symm.trans hsettled) (by simp)

/-! ## Going up -/

theorem branch_eq_node (s : Side) (c : Color) (near far : ColorTree (Cell Entry)) (x : Cell Entry) :
    branch s c near x far = node c (pick s near far) x (pick s.other near far) := by
  cases s <;> rfl

/-- What `delete_case3` and `delete_case4` ask for is that no rotation settles the deletion. -/
theorem allBlack_settled (h : Shows T heap (fill (p :: K) u))
    (hw : p.sibling = branch p.side .black near w far) :
    allBlack c p.label.addr (ptr null u) heap =
      .ok (decide (p.color = c ∧ settled p u = none)) := by
  have hboth : (pick p.side near far).color ≠ .red ∧ (pick p.side.other near far).color ≠ .red ↔
      near.color ≠ .red ∧ far.color ≠ .red := by
    cases p.side with
    | left => exact Iff.rfl
    | right => exact and_comm
  have hblack := allBlack_eq (c := c) h (hw.trans (branch_eq_node _ _ _ _ _))
  rw [hblack]
  congr 1
  rw [decide_eq_decide, settled_eq_none_iff hw, hboth]
  simp

/-- A red parent takes the place of the missing black node. -/
theorem deleteCase4_spec (h : Shows T heap (fill (p :: K) u)) (hp : p.color = .red)
    (hw : p.sibling = branch p.side .black near w far) (hsettled : settled p u = none) :
    ∃ heap', deleteCase4 T p.label.addr (ptr null u) heap = .ok heap' ∧
      Shows T heap' (fill K ((climbed p u).paint .black)) := by
  have hreads := h.reads (hw.trans (branch_eq_node _ _ _ _ _))
  have hblack := allBlack_settled (c := .red) h hw
  rw [fill_cons, Frame.fill_eq, hw] at h
  obtain ⟨h1, ok1, s1⟩ := h.setColor_far branch_ne_leaf .red
  rw [ptr_branch] at ok1
  obtain ⟨h2, ok2, s2⟩ := s1.setColor_top .black
  refine ⟨h2, ?_, ?_⟩
  · rw [deleteCase4, hblack, ok_bind, if_pos (decide_eq_true ⟨hp, hsettled⟩), hreads.parent, ok_bind,
      hreads.sibling, ok1, ok_bind, ok2]
  · rw [climbed, paint_branch, hw]
    exact s2

/-- Below a black parent the cases start again one step further up. -/
theorem deleteCase3_climbed (h : Shows T heap (fill (p :: K) u)) (hp : p.color = .black)
    (hw : p.sibling = branch p.side .black near w far) (hsettled : settled p u = none) :
    ∃ heap', (∀ again, deleteCase3 again T p.label.addr (ptr null u) heap =
        again (parentOf T K) p.label.addr heap') ∧
      Shows T heap' (fill K (climbed p u)) := by
  have hreads := h.reads (hw.trans (branch_eq_node _ _ _ _ _))
  have hblack := allBlack_settled (c := .black) h hw
  rw [fill_cons, Frame.fill_eq, hw] at h
  obtain ⟨h1, ok1, s1⟩ := h.setColor_far branch_ne_leaf .red
  rw [ptr_branch] at ok1
  have hp1 := Heap.node_eq s1.rep.node_eq
  refine ⟨h1, fun again => ?_, ?_⟩
  · rw [deleteCase3, hblack, ok_bind, if_pos (decide_eq_true ⟨hp, hsettled⟩), hreads.parent, ok_bind,
      hreads.sibling, ok1, ok_bind, hp1, ok_bind, parent_sideNode]
  · rw [climbed, hw]
    exact s1

/-- From a black sibling the cases settle the deletion, or start again one step further up. -/
theorem deleteCase3_spec {u' : ColorTree (Cell Entry)} (h : Shows T heap (fill (p :: K) u))
    (hw : p.sibling = branch p.side .black near w far)
    (hu' : u' = (settled p u).getD ((climbed p u).paint .black))
    (hgo : settled p u = none → p.color = .red) :
    ∃ heap', (∀ again, deleteCase3 again T p.label.addr (ptr null u) heap = .ok heap') ∧
      Shows T heap' (fill K u') := by
  have hblack := fun c => allBlack_settled (c := c) h hw
  cases hsettled : settled p u with
  | none =>
    have hp := hgo hsettled
    obtain ⟨heap', hok, hshows⟩ := deleteCase4_spec h hp hw hsettled
    rw [hu', hsettled, Option.getD_none]
    refine ⟨heap', fun again => ?_, hshows⟩
    rw [deleteCase3, hblack, ok_bind, if_neg (by simp [hp]), hok]
  | some t' =>
    obtain ⟨heap', hok, hshows⟩ := deleteCase5_spec h hw hsettled
    rw [hu', hsettled, Option.getD_some]
    refine ⟨heap', fun again => ?_, hshows⟩
    rw [deleteCase3, hblack, ok_bind, if_neg (by simp [hsettled]), deleteCase4, hblack, ok_bind,
      if_neg (by simp [hsettled]), hok]

/-- `delete_case2` rotates the red sibling of a node up. -/
theorem deleteCase2_red_sibling (h : Shows T heap (fill (p :: K) u)) (hu : u ≠ leaf)
    (hw : p.sibling = branch p.side .red near w far) :
    ∃ heap', (∀ again, deleteCase2 again T p.label.addr (ptr null u) heap =
        deleteCase3 again T p.label.addr (ptr null u) heap') ∧
      Shows T heap' (fill (lowered p near :: lifted p w far :: K) u) := by
  have hreads := h.reads (hw.trans (branch_eq_node _ _ _ _ _))
  obtain ⟨n, hn, hparent⟩ := h.rep.parent_eq hu
  have hne : ptr null u ≠ null := fun heq => hu (h.rep.ptr_eq_nil_iff.mp heq)
  rw [fill_cons, Frame.fill_eq, hw] at h
  obtain ⟨h1, ok1, s1⟩ := h.setColor_top .red
  obtain ⟨h2, ok2, s2⟩ := s1.setColor_far branch_ne_leaf .black
  rw [ptr_branch] at ok2
  rw [paint_branch] at s2
  obtain ⟨h3, ok3, s3⟩ := s2.rotate
  refine ⟨h3, fun again => ?_, s3⟩
  rw [parentOf_cons] at hparent
  simp only [deleteCase2, hne, if_false, Heap.node_eq hn, ok_bind, hparent, hreads.parent,
    hreads.sibling, hreads.node, if_true, ok1, ok2, hreads.side, ok3]

theorem deleteCase2_black_sibling (h : Shows T heap (fill (p :: K) u))
    (hw : p.sibling = branch p.side .black near w far)
    (again : Addr → Addr → Heap Entry → Except Fault (Heap Entry)) :
    deleteCase2 again T p.label.addr (ptr null u) heap =
      deleteCase3 again T p.label.addr (ptr null u) heap := by
  have hreads := h.reads (hw.trans (branch_eq_node _ _ _ _ _))
  by_cases hu : u = leaf
  · rw [deleteCase2, if_pos (h.rep.ptr_eq_nil_iff.mpr hu)]
  · obtain ⟨n, hn, hparent⟩ := h.rep.parent_eq hu
    rw [parentOf_cons] at hparent
    rw [deleteCase2, if_neg (fun heq => hu (h.rep.ptr_eq_nil_iff.mp heq)), Heap.node_eq hn, ok_bind,
      hparent, hreads.parent, ok_bind]
    simp only [hreads.sibling, hreads.node, ok_bind]
    exact if_neg (by simp)

theorem deleteCase1_turn (h : Shows T heap (fill (p :: K) u)) (turns : ℕ) (n : Addr) :
    deleteCase1 T (turns + 1) p.label.addr n heap =
      deleteCase2 (deleteCase1 T turns) T p.label.addr n heap := by
  rw [deleteCase1, if_pos (h.rep.mem_ne_top (mem_addrs_fill.mpr (.inl List.mem_cons_self)))]

/-- The cases are the rebalancing of a deletion, except for an empty subtree with a red
sibling. -/
theorem deleteCase1_spec {n : ℕ} (h : Shows T heap (fill K u)) (hu : u.color ≠ .red)
    (hdeficient : Deficient u n) (hctx : Accepts K .black (n + 1))
    (hsibling : ∀ f rest, K = f :: rest → u = leaf → f.sibling.color ≠ .red) :
    ∃ heap', Returns (fun turns => deleteCase1 T turns (parentOf T K) (ptr null u) heap) heap' ∧
      Shows T heap' (deleteLoop K u) := by
  induction K generalizing u n heap with
  | nil =>
    refine ⟨heap, Returns.of_succ (fun turns => ?_), ?_⟩
    · rw [deleteCase1, parentOf_nil, if_neg (by simp)]
    · rw [deleteLoop, ← eq_black_of_ne hu, paint_color]
      exact h
  | cons p K ih =>
    obtain ⟨-, hbsibling, -⟩ := accepts_cons.mp hctx
    obtain ⟨c, near, w, far, hw⟩ := hbsibling.exists_branch p.side
    rw [parentOf_cons]
    by_cases hred : p.sibling.color = .red
    · have hc : c = .red := by rwa [hw, color_branch] at hred
      subst hc
      have hleaf : u ≠ leaf := fun heq => hsibling p K rfl heq hred
      obtain ⟨h1, hcase2, s1⟩ := deleteCase2_red_sibling h hleaf hw
      rw [hw] at hbsibling
      obtain ⟨hnear, -, hbnear, -⟩ := balanced_red.mp hbsibling
      obtain ⟨c', near', w', far', hw'⟩ := hbnear.exists_branch p.side
      have hc' : c' = .black := by rwa [hw', color_branch] at hnear
      subst hc'
      obtain ⟨h2, hcase3, s2⟩ := deleteCase3_spec s1 hw' rfl (fun _ => rfl)
      rw [deleteLoop_red_sibling hu hw]
      refine ⟨h2, Returns.of_succ (fun turns => ?_), s2⟩
      rw [deleteCase1_turn h, hcase2]
      exact hcase3 _
    · have hc : c = .black := by
        apply eq_black_of_ne
        rwa [hw, color_branch] at hred
      subst hc
      have hcase2 := deleteCase2_black_sibling h hw
      by_cases hclimb : settled p u = none ∧ p.color = .black
      · obtain ⟨hsettled, hp⟩ := hclimb
        obtain ⟨h1, hcase3, s1⟩ := deleteCase3_climbed h hp hw hsettled
        obtain ⟨m, hdeficient', hctx'⟩ :=
          deficient_climbed (hdeficient.black hu) hred hsettled hctx
        have hclimbed : climbed p u ≠ leaf := branch_ne_leaf
        obtain ⟨h2, hreturns, s2⟩ := ih s1 (by rw [climbed, color_branch, hp]; decide) hdeficient'
          hctx' (fun _ _ _ heq => absurd heq hclimbed)
        rw [deleteLoop_climbed hu hred hsettled]
        refine ⟨h2, hreturns.succ (fun turns => ?_), s2⟩
        rw [deleteCase1_turn h, hcase2, hcase3, climbed, ptr_branch]
      · have hgo : settled p u = none → p.color = .red := by
          intro hsettled
          apply eq_red_of_ne
          exact fun hp => hclimb ⟨hsettled, hp⟩
        obtain ⟨h1, hcase3, s1⟩ := deleteCase3_spec h hw rfl hgo
        refine ⟨h1, Returns.of_succ (fun turns => ?_), ?_⟩
        · rw [deleteCase1_turn h, hcase2, hcase3]
        · cases hsettled : settled p u with
          | none =>
            rw [hsettled] at s1
            rw [deleteLoop_climbed hu hred hsettled, deleteLoop_of_red]
            · exact s1
            · rw [climbed, color_branch, hgo hsettled]
          | some u' =>
            rw [hsettled] at s1
            rw [deleteLoop_settled hu hred hsettled]
            exact s1

/-- `delete_one_child` from the subtree that has taken the place of a black node. -/
theorem deleteOneChild_spec {n : ℕ} (h : Shows T heap (fill K u)) (hdeficient : Deficient u n)
    (hctx : Accepts K .black (n + 1))
    (hsibling : ∀ f rest, K = f :: rest → u = leaf → f.sibling.color ≠ .red) :
    ∃ heap', Returns (fun turns => deleteOneChild turns T (parentOf T K) (ptr null u) heap) heap' ∧
      Shows T heap' (deleteLoop K u) := by
  by_cases hu : u.color = .red
  · have hleaf : u ≠ leaf := by
      rintro rfl
      exact absurd hu (by decide)
    obtain ⟨heap', hok, hshows⟩ := h.setColor hleaf .black
    rw [deleteLoop_of_red hu]
    refine ⟨heap', Returns.of_eq (fun turns => ?_), hshows⟩
    rw [deleteOneChild, h.rep.isRed_eq, ok_bind, if_pos (decide_eq_true hu), hok]
  · obtain ⟨heap', hreturns, hshows⟩ := deleteCase1_spec h hu hdeficient hctx hsibling
    refine ⟨heap', hreturns.congr (fun turns => ?_), hshows⟩
    rw [deleteOneChild, h.rep.isRed_eq, ok_bind, if_neg (by simpa using hu)]

end CServer.RbTree3
