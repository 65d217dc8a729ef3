import CServer.Foundation.RedBlack

/-!
# Restoring the balance from a hole upwards

Insertion recolours while the uncle is red and then rotates at the grandparent. Deletion moves
the missing black node up while the sibling has only black children and then rotates at the
parent; a red sibling is rotated up first. Both keep the order of the labels and end with a
red-black tree.
-/
namespace CServer.RedBlack

open ColorTree

variable {α : Type}

/-! ## A red node under a red node -/

/-- The subtree at the grandparent `g` after its rotation. A node on the inner side is rotated
above the parent `p` first. -/
def raised (p g : Frame α) (t : ColorTree α) : ColorTree α :=
  if p.side = g.side then
    branch g.side .black t p.label (branch g.side .red p.sibling g.label g.sibling)
  else
    match t with
    | leaf => leaf
    | node _ l x r =>
      branch g.side .black (branch g.side .red p.sibling p.label (pick g.side l r)) x
        (branch g.side .red (pick g.side.other l r) g.label g.sibling)

/-- The subtree at the grandparent after its children and itself have changed colours. -/
def recoloured (p g : Frame α) (t : ColorTree α) : ColorTree α :=
  branch g.side .red (branch p.side .black t p.label p.sibling) g.label (g.sibling.paint .black)

/-- The tree after the rebalancing of an insertion has reached its end. -/
def insertLoop : Ctx α → ColorTree α → ColorTree α
  | [], t => t
  | [p], t => fill [p] t
  | p :: g :: ctx, t =>
    if p.color = .black then fill (p :: g :: ctx) t
    else if g.sibling.color = .red then insertLoop ctx (recoloured p g t)
    else fill ctx (raised p g t)

variable {p g f : Frame α} {ctx : Ctx α} {t : ColorTree α} {n : ℕ} {s : Side} {c : Color} {x : α}
variable {near far : ColorTree α}

theorem raised_outer (h : p.side = g.side) (t : ColorTree α) : raised p g t =
    branch g.side .black t p.label (branch g.side .red p.sibling g.label g.sibling) := by
  rw [raised.eq_def, if_pos h]

theorem raised_inner (h : p.side ≠ g.side) : raised p g (branch g.side c near x far) =
    branch g.side .black (branch g.side .red p.sibling p.label near) x
      (branch g.side .red far g.label g.sibling) := by
  rw [raised.eq_def, if_neg h]
  cases g.side <;> rfl

theorem toList_branch (s : Side) (c c' : Color) (x : α) {near near' far far' : ColorTree α}
    (hnear : near.toList = near'.toList) (hfar : far.toList = far'.toList) :
    (branch s c near x far).toList = (branch s c' near' x far').toList := by
  cases s <;> simp [branch, toList, hnear, hfar]

/-- A rotation keeps the order: the node at the top changes. -/
theorem toList_rotate (s : Side) (c c' d d' : Color) (x y : α) (a b e : ColorTree α) :
    (branch s c a x (branch s c' b y e)).toList = (branch s d (branch s d' a x b) y e).toList := by
  cases s <;> simp [branch, toList]

theorem toList_raised (hred : t.color = .red) :
    (raised p g t).toList = (g.fill (p.fill t)).toList := by
  rw [Frame.fill_eq, Frame.fill_eq]
  by_cases h : p.side = g.side
  · rw [raised_outer h, h]
    exact toList_rotate g.side _ _ _ _ p.label g.label t p.sibling g.sibling
  · obtain ⟨near, x, far, rfl⟩ := exists_branch_of_red hred g.side
    rw [raised_inner h, Side.eq_other_of_ne h, branch_other]
    refine Eq.trans ?_ (toList_branch g.side .red g.color g.label
      (toList_rotate g.side p.color .red .red .red p.label x p.sibling near far).symm rfl)
    exact toList_rotate g.side .black .red .red .red x g.label _ far g.sibling

theorem toList_recoloured : (recoloured p g t).toList = (g.fill (p.fill t)).toList := by
  rw [recoloured, Frame.fill_eq, Frame.fill_eq]
  exact toList_branch _ _ _ _ (toList_branch _ _ _ _ rfl rfl) (toList_paint _ _)

theorem toList_insertLoop (hred : t.color = .red) :
    (insertLoop ctx t).toList = (fill ctx t).toList := by
  induction ctx, t using insertLoop.induct with
  | case1 t => rfl
  | case2 p t => rfl
  | case3 p g ctx t hblack => rw [insertLoop, if_pos hblack]
  | case4 p g ctx t hblack huncle ih =>
    rw [insertLoop, if_neg hblack, if_pos huncle, ih (color_branch _ _ _ _ _), fill_cons, fill_cons,
      toList_fill, toList_fill, toList_recoloured]
  | case5 p g ctx t hblack huncle =>
    rw [insertLoop, if_neg hblack, if_neg huncle, fill_cons, fill_cons, toList_fill, toList_fill,
      toList_raised hred]

theorem eq_red_of_ne (h : c ≠ .black) : c = .red := by
  cases c with
  | red => rfl
  | black => exact absurd rfl h

theorem eq_black_of_ne (h : c ≠ .red) : c = .black := by
  cases c with
  | red => exact absurd rfl h
  | black => rfl

/-- A red frame hangs below a black one with which it makes a red-black tree. -/
theorem Accepts.red_frame (hp : p.color = .red) (h : Accepts (p :: ctx) .black n) :
    ∃ g rest, ctx = g :: rest ∧ g.color = .black ∧ p.sibling.color = .black ∧
      Balanced p.sibling n ∧ Balanced g.sibling n ∧ Accepts rest .black (n + 1) := by
  obtain ⟨-, hsibling, hbalanced, hctx⟩ := (accepts_cons_red hp).mp h
  cases ctx with
  | nil => exact absurd hctx (by rw [Accepts]; decide)
  | cons g rest =>
    have hg : g.color = .black := by
      apply eq_black_of_ne
      intro hg
      exact absurd ((accepts_cons_red hg).mp hctx).1 (by decide)
    obtain ⟨hbalanced', hrest⟩ := (accepts_cons_black hg).mp hctx
    exact ⟨g, rest, rfl, hg, hsibling, hbalanced, hbalanced', hrest⟩

theorem balanced_raised (hred : t.color = .red) (ht : Balanced t n)
    (hsibling : p.sibling.color = .black) (hp : Balanced p.sibling n)
    (huncle : g.sibling.color = .black) (hg : Balanced g.sibling n) :
    Balanced (raised p g t) (n + 1) := by
  by_cases h : p.side = g.side
  · rw [raised_outer h]
    exact balanced_black.mpr ⟨ht, balanced_red.mpr ⟨hsibling, huncle, hp, hg⟩⟩
  · obtain ⟨near, x, far, rfl⟩ := exists_branch_of_red hred g.side
    obtain ⟨hnear, hfar, hbnear, hbfar⟩ := balanced_red.mp ht
    rw [raised_inner h]
    exact balanced_black.mpr ⟨balanced_red.mpr ⟨hsibling, hnear, hp, hbnear⟩,
      balanced_red.mpr ⟨hfar, huncle, hbfar, hg⟩⟩

theorem color_raised (hred : t.color = .red) : (raised p g t).color = .black := by
  by_cases h : p.side = g.side
  · rw [raised_outer h, color_branch]
  · obtain ⟨near, x, far, rfl⟩ := exists_branch_of_red hred g.side
    rw [raised_inner h, color_branch]

theorem balanced_recoloured (hbalanced : Balanced t n)
    (hp : Balanced p.sibling n) (huncle : g.sibling.color = .red) (hg : Balanced g.sibling n) :
    Balanced (recoloured p g t) (n + 1) :=
  balanced_red.mpr ⟨color_branch _ _ _ _ _, color_paint_black _,
    balanced_black.mpr ⟨hbalanced, hp⟩, hg.paint_black_of_red huncle⟩

/-- Below a black node a red node is no trouble. -/
theorem valid_below_black (hp : p.color = .black) (hbalanced : Balanced t n)
    (hctx : Accepts (p :: ctx) .black n) : Valid (fill (p :: ctx) t) := by
  obtain ⟨hsibling, hrest⟩ := (accepts_cons_black hp).mp hctx
  exact valid_fill.mpr ⟨n, hbalanced, (accepts_cons_black hp).mpr ⟨hsibling, hrest⟩⟩

theorem valid_raised (hred : t.color = .red) (hp : p.color = .red) (huncle : g.sibling.color ≠ .red)
    (hbalanced : Balanced t n) (hctx : Accepts (p :: g :: ctx) .black n) :
    Valid (fill ctx (raised p g t)) := by
  obtain ⟨g', rest, hcons, -, hblack, hsibling, hg, hrest⟩ := hctx.red_frame hp
  obtain ⟨rfl, rfl⟩ := List.cons.inj hcons
  have hraised := balanced_raised hred hbalanced hblack hsibling (eq_black_of_ne huncle) hg
  exact valid_fill.mpr ⟨n + 1, hraised, by rw [color_raised hred]; exact hrest⟩

/-- A last frame that is accepted is black. -/
theorem Accepts.last_black (h : Accepts [p] .black n) : p.color = .black := by
  apply eq_black_of_ne
  intro hp
  obtain ⟨g, rest, hnil, -⟩ := h.red_frame hp
  exact absurd hnil (by simp)

/-- A red node where a black one would be accepted: rebalancing and a black root give a
red-black tree. -/
theorem valid_insertLoop (hred : t.color = .red) (hbalanced : Balanced t n)
    (hctx : Accepts ctx .black n) : Valid ((insertLoop ctx t).paint .black) := by
  -- a red-black tree keeps its black root
  have done : ∀ {t' : ColorTree α}, Valid t' → Valid (t'.paint .black) := by
    intro t' h
    rw [h.paint_black]
    exact h
  induction ctx, t using insertLoop.induct generalizing n with
  | case1 t =>
    rw [insertLoop]
    exact ⟨color_paint_black t, n + 1, hbalanced.paint_black_of_red hred⟩
  | case2 p t => exact done (valid_below_black hctx.last_black hbalanced hctx)
  | case3 p g ctx t hp =>
    rw [insertLoop, if_pos hp]
    exact done (valid_below_black hp hbalanced hctx)
  | case4 p g ctx t hp huncle ih =>
    rw [insertLoop, if_neg hp, if_pos huncle]
    obtain ⟨g', rest, hcons, -, -, hsibling, hg, hrest⟩ := hctx.red_frame (eq_red_of_ne hp)
    obtain ⟨rfl, rfl⟩ := List.cons.inj hcons
    exact ih (color_branch _ _ _ _ _)
      (balanced_recoloured hbalanced hsibling huncle hg) hrest
  | case5 p g ctx t hp huncle =>
    rw [insertLoop, if_neg hp, if_neg huncle]
    exact done (valid_raised hred (eq_red_of_ne hp) huncle hbalanced hctx)

/-! ## A black node too few -/

/-- The subtree at the parent `p` after the rotation that settles a deletion: a black sibling
has a red child, which comes to the top or becomes black. -/
def settled (p : Frame α) (t : ColorTree α) : Option (ColorTree α) :=
  match p.sibling with
  | leaf => none
  | node _ l w r =>
    if (pick p.side.other l r).color = .red then
      some (branch p.side p.color (branch p.side .black t p.label (pick p.side l r)) w
        ((pick p.side.other l r).paint .black))
    else
      match pick p.side l r with
      | node .red l' x r' =>
        some (branch p.side p.color (branch p.side .black t p.label (pick p.side l' r')) x
          (branch p.side .black (pick p.side.other l' r') w (pick p.side.other l r)))
      | _ => none

/-- The subtree at the parent after the sibling has become red. -/
def climbed (p : Frame α) (t : ColorTree α) : ColorTree α :=
  branch p.side p.color t p.label (p.sibling.paint .red)

/-- The tree after the rebalancing of a deletion has reached its end. -/
def deleteLoop : Ctx α → ColorTree α → ColorTree α
  | [], t => t.paint .black
  | p :: ctx, t =>
    if t.color = .red then fill (p :: ctx) (t.paint .black)
    else
      match p.sibling with
      | node .red l w r =>
        let lower : Frame α := ⟨p.side, .red, p.label, pick p.side l r⟩
        fill (⟨p.side, .black, w, pick p.side.other l r⟩ :: ctx)
          ((settled lower t).getD ((climbed lower t).paint .black))
      | _ =>
        match settled p t with
        | some t' => fill ctx t'
        | none => deleteLoop ctx (climbed p t)

theorem settled_far {w : α} (h : p.sibling = branch p.side c near w far) (hfar : far.color = .red) :
    settled p t = some (branch p.side p.color (branch p.side .black t p.label near) w
      (far.paint .black)) := by
  rw [settled.eq_def, h]
  cases hs : p.side <;> simp [branch, pick, Side.other, hfar]

theorem settled_near {w : α} {a b : ColorTree α}
    (h : p.sibling = branch p.side c (branch p.side .red a x b) w far) (hfar : far.color ≠ .red) :
    settled p t = some (branch p.side p.color (branch p.side .black t p.label a) x
      (branch p.side .black b w far)) := by
  rw [settled.eq_def, h]
  cases hs : p.side <;> simp [branch, pick, Side.other, hfar]

theorem settled_none {w : α} (h : p.sibling = branch p.side c near w far)
    (hnear : near.color ≠ .red) (hfar : far.color ≠ .red) : settled p t = none := by
  rw [settled.eq_def, h]
  cases hs : p.side <;> cases near with
  | leaf => simp [branch, pick, Side.other, hfar]
  | node d l y r =>
    cases d with
    | red => exact absurd rfl hnear
    | black => simp [branch, pick, Side.other, hfar]

theorem deleteLoop_of_red (h : t.color = .red) : deleteLoop ctx t = fill ctx (t.paint .black) := by
  cases ctx with
  | nil => rfl
  | cons p ctx =>
    rw [deleteLoop.eq_def]
    simp only [h, if_true]

/-- The frame of the parent below its old sibling. -/
def lowered (p : Frame α) (near : ColorTree α) : Frame α := ⟨p.side, .red, p.label, near⟩

/-- The frame of the sibling above the parent. -/
def lifted (p : Frame α) (w : α) (far : ColorTree α) : Frame α := ⟨p.side, .black, w, far⟩

theorem deleteLoop_red_sibling {w : α} (ht : t.color ≠ .red)
    (h : p.sibling = branch p.side .red near w far) :
    deleteLoop (p :: ctx) t = fill (lifted p w far :: ctx)
      ((settled (lowered p near) t).getD ((climbed (lowered p near) t).paint .black)) := by
  rw [deleteLoop.eq_def]
  simp only [ht, if_false, h]
  cases hs : p.side <;> simp only [lifted, lowered, hs, branch, pick, Side.other]

/-- With a black sibling it ends here if it can. -/
theorem deleteLoop_black_sibling (ht : t.color ≠ .red) (h : p.sibling.color ≠ .red) :
    deleteLoop (p :: ctx) t = (settled p t).elim (deleteLoop ctx (climbed p t)) (fill ctx) := by
  rw [deleteLoop.eq_def]
  simp only [ht, if_false]
  split
  · rename_i heq
    rw [heq] at h
    exact absurd rfl h
  · cases settled p t <;> rfl

theorem deleteLoop_settled {t' : ColorTree α} (ht : t.color ≠ .red) (h : p.sibling.color ≠ .red)
    (hsettled : settled p t = some t') : deleteLoop (p :: ctx) t = fill ctx t' := by
  rw [deleteLoop_black_sibling ht h, hsettled]
  rfl

theorem deleteLoop_climbed (ht : t.color ≠ .red) (h : p.sibling.color ≠ .red)
    (hsettled : settled p t = none) : deleteLoop (p :: ctx) t = deleteLoop ctx (climbed p t) := by
  rw [deleteLoop_black_sibling ht h, hsettled]
  rfl

/-- What the sibling looks like from the parent. -/
theorem settled_cases {w : α} (h : p.sibling = branch p.side c near w far) :
    (far.color = .red ∧ settled p t = some (branch p.side p.color
      (branch p.side .black t p.label near) w (far.paint .black))) ∨
    (far.color = .black ∧ (∃ a x b, near = branch p.side .red a x b ∧
      settled p t = some (branch p.side p.color (branch p.side .black t p.label a) x
        (branch p.side .black b w far)))) ∨
    (far.color = .black ∧ near.color = .black ∧ settled p t = none) := by
  by_cases hfar : far.color = .red
  · exact .inl ⟨hfar, settled_far h hfar⟩
  by_cases hnear : near.color = .red
  · obtain ⟨a, x, b, rfl⟩ := exists_branch_of_red hnear p.side
    exact .inr (.inl ⟨eq_black_of_ne hfar, a, x, b, rfl, settled_near h hfar⟩)
  · exact .inr (.inr ⟨eq_black_of_ne hfar, eq_black_of_ne hnear, settled_none h hnear hfar⟩)

theorem settled_eq_none_iff {w : α} (h : p.sibling = branch p.side c near w far) :
    settled p t = none ↔ near.color ≠ .red ∧ far.color ≠ .red := by
  constructor
  · intro hnone
    obtain ⟨-, heq⟩ | ⟨-, a, x, b, -, heq⟩ | ⟨hfar, hnear, -⟩ := settled_cases (t := t) h
    · exact absurd (heq.symm.trans hnone) (by simp)
    · exact absurd (heq.symm.trans hnone) (by simp)
    · rw [hfar, hnear]
      decide
  · intro ⟨hnear, hfar⟩
    exact settled_none h hnear hfar

theorem toList_climbed : (climbed p t).toList = (p.fill t).toList :=
  toList_branch _ _ _ _ rfl (toList_paint _ _)

theorem toList_settled {t' : ColorTree α} (h : settled p t = some t') :
    t'.toList = (p.fill t).toList := by
  cases hsibling : p.sibling with
  | leaf =>
    rw [settled.eq_def, hsibling] at h
    exact absurd h (by simp)
  | node d l w r =>
    rw [node_eq_branch p.side] at hsibling
    obtain ⟨-, heq⟩ | ⟨-, a, x, b, hnear, heq⟩ | ⟨-, -, heq⟩ := settled_cases (t := t) hsibling
    · rw [heq] at h
      rw [← Option.some.inj h, Frame.fill_eq, hsibling]
      refine Eq.trans ?_ (toList_rotate p.side p.color d p.color .black p.label w t _ _).symm
      exact toList_branch _ _ _ _ rfl (toList_paint _ _)
    · rw [heq] at h
      rw [← Option.some.inj h, Frame.fill_eq, hsibling, hnear]
      refine Eq.trans ?_ (toList_branch p.side p.color p.color p.label rfl
        (toList_rotate p.side .red .black d .red x w a b _))
      exact (toList_rotate p.side p.color .red p.color .black p.label x t a _).symm
    · rw [heq] at h
      exact absurd h (by simp)

theorem toList_fill_congr {t' : ColorTree α} (ctx : Ctx α) (h : t.toList = t'.toList) :
    (fill ctx t).toList = (fill ctx t').toList := by
  rw [toList_fill, toList_fill, h]

/-- Rotating a red sibling up changes nothing in the order. -/
theorem toList_lifted {w : α} (h : p.sibling = branch p.side c near w far) :
    ((lifted p w far).fill ((lowered p near).fill t)).toList = (p.fill t).toList := by
  rw [Frame.fill_eq, Frame.fill_eq, Frame.fill_eq, h]
  exact (toList_rotate p.side _ _ _ _ p.label w t near far).symm

theorem toList_deleteLoop (ctx : Ctx α) (t : ColorTree α) :
    (deleteLoop ctx t).toList = (fill ctx t).toList := by
  induction ctx generalizing t with
  | nil => exact toList_paint _ _
  | cons p ctx ih =>
    by_cases ht : t.color = .red
    · rw [deleteLoop_of_red ht]
      exact toList_fill_congr _ (toList_paint _ _)
    by_cases hsibling : p.sibling.color = .red
    · obtain ⟨near, w, far, hw⟩ := exists_branch_of_red hsibling p.side
      rw [deleteLoop_red_sibling ht hw, fill_cons]
      refine Eq.trans (toList_fill_congr ctx ?_) (toList_fill_congr ctx (toList_lifted hw))
      rw [Frame.toList_fill, Frame.toList_fill (lifted p w far)]
      congr 2
      cases hsettled : settled (lowered p near) t with
      | none => rw [Option.getD_none, toList_paint, toList_climbed]
      | some t' => rw [Option.getD_some, toList_settled hsettled]
    · cases hsettled : settled p t with
      | none =>
        rw [deleteLoop_climbed ht hsibling hsettled, ih, fill_cons]
        exact toList_fill_congr ctx toList_climbed
      | some t' =>
        rw [deleteLoop_settled ht hsibling hsettled, fill_cons]
        exact toList_fill_congr ctx (toList_settled hsettled)

/-- How many black nodes a node of this colour adds to the ways down. -/
def Color.weight : Color → ℕ
  | .red => 0
  | .black => 1

theorem balanced_branch : Balanced (branch s c near x far) (n + c.weight) ↔
    (c = .red → near.color = .black ∧ far.color = .black) ∧ Balanced near n ∧ Balanced far n := by
  cases c with
  | red =>
    rw [Color.weight, Nat.add_zero, balanced_red]
    simp only [true_implies, and_assoc]
  | black =>
    rw [Color.weight, balanced_black]
    simp

theorem accepts_cons : Accepts (f :: ctx) c n ↔
    (f.color = .red → c = .black ∧ f.sibling.color = .black) ∧ Balanced f.sibling n ∧
      Accepts ctx f.color (n + f.color.weight) := by
  cases hf : f.color with
  | red =>
    rw [accepts_cons_red hf]
    simp only [true_implies, and_assoc, Color.weight, Nat.add_zero]
  | black =>
    rw [accepts_cons_black hf]
    simp [Color.weight]

/-- A subtree with one black node too few on its ways down; it may have a red node at its root,
above anything, that can become black. -/
structure Deficient (t : ColorTree α) (n : ℕ) : Prop where
  black : t.color ≠ .red → Balanced t n
  red : t.color = .red → Balanced (t.paint .black) (n + 1)

theorem ColorTree.Balanced.deficient (h : Balanced t n) : Deficient t n :=
  ⟨fun _ => h, h.paint_black_of_red⟩

theorem color_settled {t' : ColorTree α} (h : settled p t = some t') : t'.color = p.color := by
  cases hsibling : p.sibling with
  | leaf =>
    rw [settled.eq_def, hsibling] at h
    exact absurd h (by simp)
  | node d l w r =>
    rw [node_eq_branch p.side] at hsibling
    obtain ⟨-, heq⟩ | ⟨-, a, x, b, -, heq⟩ | ⟨-, -, heq⟩ := settled_cases (t := t) hsibling
    · rw [heq] at h
      rw [← Option.some.inj h, color_branch]
    · rw [heq] at h
      rw [← Option.some.inj h, color_branch]
    · rw [heq] at h
      exact absurd h (by simp)

/-- The rotation that settles a deletion makes up for the missing black node. -/
theorem balanced_settled {t' : ColorTree α} (ht : Balanced t n) (hblack : p.sibling.color ≠ .red)
    (hsibling : Balanced p.sibling (n + 1)) (h : settled p t = some t') :
    Balanced t' (n + 1 + p.color.weight) := by
  obtain ⟨d, near, w, far, hw⟩ := hsibling.exists_branch p.side
  have hd : d = .black := by
    apply eq_black_of_ne
    rwa [hw, color_branch] at hblack
  subst hd
  rw [hw] at hsibling
  obtain ⟨hnear, hfar⟩ := balanced_black.mp hsibling
  obtain ⟨hred, heq⟩ | ⟨hfarblack, a, x, b, rfl, heq⟩ | ⟨-, -, heq⟩ := settled_cases (t := t) hw
  · rw [heq] at h
    rw [← Option.some.inj h]
    exact balanced_branch.mpr ⟨fun _ => ⟨color_branch _ _ _ _ _, color_paint_black _⟩,
      balanced_black.mpr ⟨ht, hnear⟩, hfar.paint_black_of_red hred⟩
  · rw [heq] at h
    rw [← Option.some.inj h]
    obtain ⟨-, -, ha, hb⟩ := balanced_red.mp hnear
    exact balanced_branch.mpr ⟨fun _ => ⟨color_branch _ _ _ _ _, color_branch _ _ _ _ _⟩,
      balanced_black.mpr ⟨ht, ha⟩, balanced_black.mpr ⟨hb, hfar⟩⟩
  · rw [heq] at h
    exact absurd h (by simp)

/-- A black sibling without red children becomes red. -/
theorem balanced_red_sibling (hblack : p.sibling.color ≠ .red)
    (hsibling : Balanced p.sibling (n + 1)) (h : settled p t = none) :
    Balanced (p.sibling.paint .red) n := by
  obtain ⟨d, near, w, far, hw⟩ := hsibling.exists_branch p.side
  have hd : d = .black := by
    apply eq_black_of_ne
    rwa [hw, color_branch] at hblack
  subst hd
  obtain ⟨-, heq⟩ | ⟨-, a, x, b, -, heq⟩ | ⟨hfar, hnear, -⟩ := settled_cases (t := t) hw
  · exact absurd (heq.symm.trans h) (by simp)
  · exact absurd (heq.symm.trans h) (by simp)
  · rw [hw] at hsibling
    obtain ⟨hbnear, hbfar⟩ := balanced_black.mp hsibling
    rw [hw, paint_branch]
    exact balanced_red.mpr ⟨hnear, hfar, hbnear, hbfar⟩

theorem balanced_climbed (ht : Balanced t n) (hblack : p.sibling.color ≠ .red)
    (hsibling : Balanced p.sibling (n + 1)) (h : settled p t = none) :
    Balanced ((climbed p t).paint .black) (n + 1) := by
  rw [climbed, paint_branch]
  exact balanced_black.mpr ⟨ht, balanced_red_sibling hblack hsibling h⟩

/-- After the sibling has become red the black node is missing one step further up. -/
theorem deficient_climbed (ht : Balanced t n) (hblack : p.sibling.color ≠ .red)
    (h : settled p t = none) (hctx : Accepts (p :: ctx) .black (n + 1)) :
    ∃ m, Deficient (climbed p t) m ∧ Accepts ctx .black (m + 1) := by
  obtain ⟨-, hsibling, hrest⟩ := accepts_cons.mp hctx
  have hclimbed := balanced_climbed ht hblack hsibling h
  cases hp : p.color with
  | red =>
    rw [hp] at hrest
    refine ⟨n, ⟨?_, fun _ => hclimbed⟩, hrest.of_black⟩
    intro hne
    rw [climbed, color_branch] at hne
    exact absurd hp hne
  | black =>
    rw [hp] at hrest
    have hcolor : (climbed p t).color = .black := by
      rw [climbed, color_branch, hp]
    rw [← hcolor, paint_color] at hclimbed
    exact ⟨n + 1, hclimbed.deficient, hrest⟩

/-- A black node too few in a hole: rebalancing gives a red-black tree. -/
theorem valid_deleteLoop (hdeficient : Deficient t n) (hctx : Accepts ctx .black (n + 1)) :
    Valid (deleteLoop ctx t) := by
  induction ctx generalizing t n with
  | nil =>
    rw [deleteLoop]
    refine ⟨color_paint_black t, ?_⟩
    by_cases ht : t.color = .red
    · exact ⟨n + 1, hdeficient.red ht⟩
    · exact (hdeficient.black ht).paint_black
  | cons p ctx ih =>
    by_cases ht : t.color = .red
    · rw [deleteLoop_of_red ht]
      exact valid_fill.mpr ⟨n + 1, hdeficient.red ht, by rw [color_paint_black]; exact hctx⟩
    have hbalanced := hdeficient.black ht
    obtain ⟨hred, hsibling, hrest⟩ := accepts_cons.mp hctx
    by_cases hsib : p.sibling.color = .red
    · -- a red sibling hangs below a black parent
      obtain ⟨near, w, far, hw⟩ := exists_branch_of_red hsib p.side
      have hp : p.color = .black := by
        apply eq_black_of_ne
        intro hp
        rw [(hred hp).2] at hsib
        exact absurd hsib (by decide)
      rw [hw] at hsibling
      obtain ⟨hnear, -, hbnear, hbfar⟩ := balanced_red.mp hsibling
      rw [hp] at hrest
      have hnot : (lowered p near).sibling.color ≠ .red := by
        rw [lowered, hnear]
        decide
      rw [deleteLoop_red_sibling ht hw]
      have hlifted : Accepts (lifted p w far :: ctx) .black (n + 1) :=
        (accepts_cons_black rfl).mpr ⟨hbfar, hrest⟩
      cases hsettled : settled (lowered p near) t with
      | none =>
        refine valid_fill.mpr ⟨n + 1, balanced_climbed hbalanced hnot hbnear hsettled, ?_⟩
        rw [Option.getD_none, color_paint_black]
        exact hlifted
      | some t' =>
        refine valid_fill.mpr ⟨n + 1, balanced_settled hbalanced hnot hbnear hsettled, ?_⟩
        exact (accepts_cons_black rfl).mpr ⟨hbfar, hrest⟩
    · cases hsettled : settled p t with
      | none =>
        rw [deleteLoop_climbed ht hsib hsettled]
        obtain ⟨m, hdeficient', hctx'⟩ := deficient_climbed hbalanced hsib hsettled hctx
        exact ih hdeficient' hctx'
      | some t' =>
        rw [deleteLoop_settled ht hsib hsettled]
        refine valid_fill.mpr ⟨_, balanced_settled hbalanced hsib hsibling hsettled, ?_⟩
        rw [color_settled hsettled]
        exact hrest

/-! ## Taking a node out -/

/-- A red node with one subtree has none: nothing is out of balance without it. -/
theorem valid_without_red (h : Valid (fill ctx (branch s .red leaf x t))) : Valid (fill ctx t) := by
  obtain ⟨n, hbalanced, hctx⟩ := valid_fill.mp h
  rw [color_branch] at hctx
  obtain ⟨-, ht, -, hbt⟩ := balanced_red.mp hbalanced
  refine valid_fill.mpr ⟨n, hbt, ?_⟩
  rw [ht]
  exact hctx.of_black

/-- Without a black node with one subtree, that subtree has a black node too few. -/
theorem deficient_without_black (h : Valid (fill ctx (branch s .black leaf x t))) :
    ∃ n, Deficient t n ∧ Accepts ctx .black (n + 1) := by
  obtain ⟨n, hbalanced, hctx⟩ := valid_fill.mp h
  rw [color_branch] at hctx
  obtain ⟨m, rfl, -, hbt⟩ := hbalanced.succ_of_black
  exact ⟨m, hbt.deficient, hctx⟩

theorem ColorTree.Balanced.relabel (h : Balanced (branch s c near x far) n) (y : α) :
    Balanced (branch s c near y far) n := by
  cases c with
  | red => exact balanced_red.mpr (balanced_red.mp h)
  | black =>
    obtain ⟨m, rfl, hnear, hfar⟩ := h.succ_of_black
    exact balanced_black.mpr ⟨hnear, hfar⟩

/-- The label of a node does not matter for the balance. -/
theorem valid_relabel (h : Valid (fill ctx (branch s c near x far))) (y : α) :
    Valid (fill ctx (branch s c near y far)) := by
  obtain ⟨n, hbalanced, hctx⟩ := valid_fill.mp h
  refine valid_fill.mpr ⟨n, hbalanced.relabel y, ?_⟩
  rw [color_branch] at hctx ⊢
  exact hctx

end CServer.RedBlack
