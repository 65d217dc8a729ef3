import CServer.Foundation.RedBlack
import Mathlib.Order.Lattice

/-!
# Search trees with a hole

The keys of a search tree increase from left to right. A search goes down from a hole to the
node with a key or to the empty subtree where the key belongs, and the smallest node of a
subtree is at the end of the way to the left.
-/
namespace CServer.RedBlack

open ColorTree

variable {α K : Type} [LinearOrder K] {key : α → K} {k : K}

/-! ## Increasing keys -/

/-- The keys of a list increase. -/
def Increasing (key : α → K) (l : List α) : Prop := l.Pairwise (fun x y => key x < key y)

theorem increasing_nil : Increasing key ([] : List α) := List.Pairwise.nil

/-- One label more, between the smaller and the larger ones. -/
theorem increasing_append_cons {as bs : List α} {x : α} :
    Increasing key (as ++ x :: bs) ↔
      Increasing key (as ++ bs) ∧ (∀ a ∈ as, key a < key x) ∧ ∀ b ∈ bs, key x < key b := by
  rw [Increasing, Increasing, List.pairwise_append, List.pairwise_append, List.pairwise_cons]
  constructor
  · intro ⟨has, ⟨hx, hbs⟩, hboth⟩
    refine ⟨⟨has, hbs, fun a ha b hb => hboth a ha b (List.mem_cons_of_mem _ hb)⟩, ?_, hx⟩
    exact fun a ha => hboth a ha x List.mem_cons_self
  · intro ⟨⟨has, hbs, hboth⟩, hax, hxb⟩
    refine ⟨has, ⟨hxb, hbs⟩, ?_⟩
    intro a ha b hb
    rcases List.mem_cons.mp hb with rfl | hb
    · exact hax a ha
    · exact hboth a ha b hb

/-- No two labels of increasing keys have the same key. -/
theorem Increasing.eq_of_key_eq {l : List α} (h : Increasing key l) {x y : α} (hx : x ∈ l)
    (hy : y ∈ l) (heq : key x = key y) : x = y := by
  obtain ⟨as, bs, rfl⟩ := List.append_of_mem hx
  obtain ⟨-, has, hbs⟩ := increasing_append_cons.mp h
  rcases List.mem_append.mp hy with hy | hy
  · exact absurd heq (ne_of_gt (has y hy))
  · rcases List.mem_cons.mp hy with rfl | hy
    · rfl
    · exact absurd heq (ne_of_lt (hbs y hy))

/-- Only the labels' keys matter. -/
theorem Increasing.map {β : Type} {l : List α} {f : α → β} {key' : β → K}
    (h : Increasing key l) (hkey : ∀ x, key' (f x) = key x) : Increasing key' (l.map f) := by
  rw [Increasing, List.pairwise_map]
  simp only [hkey]
  exact h

/-! ## A search -/

/-- The way from a hole to the key `k`: the node with it, or the empty subtree where it
belongs. -/
def locate (key : α → K) (k : K) : Ctx α → ColorTree α → Ctx α × ColorTree α
  | ctx, leaf => (ctx, leaf)
  | ctx, node c l x r =>
    if k < key x then locate key k (⟨.left, c, x, r⟩ :: ctx) l
    else if key x < k then locate key k (⟨.right, c, x, l⟩ :: ctx) r
    else (ctx, node c l x r)

variable {ctx : Ctx α} {t : ColorTree α} {f : Frame α}

theorem fill_locate : fill (locate key k ctx t).1 (locate key k ctx t).2 = fill ctx t := by
  fun_induction locate key k ctx t with
  | case1 ctx => rfl
  | case2 ctx c l x r hlt ih => exact ih
  | case3 ctx c l x r _ hgt ih => exact ih
  | case4 ctx c l x r _ _ => rfl

/-- A search that does not end in an empty subtree has found the key. -/
theorem key_of_locate (h : (locate key k ctx t).2 ≠ leaf) :
    ∃ c l x r, (locate key k ctx t).2 = node c l x r ∧ key x = k := by
  fun_induction locate key k ctx t with
  | case1 ctx => exact absurd rfl h
  | case2 ctx c l x r hlt ih => exact ih h
  | case3 ctx c l x r _ hgt ih => exact ih h
  | case4 ctx c l x r hlt hgt => exact ⟨c, l, x, r, rfl, le_antisymm (not_lt.mp hlt) (not_lt.mp hgt)⟩

/-- The key `k` belongs in the hole. -/
structure Between (key : α → K) (k : K) (ctx : Ctx α) : Prop where
  before : ∀ a ∈ before ctx, key a < k
  after : ∀ b ∈ after ctx, k < key b

theorem between_nil : Between key k ([] : Ctx α) :=
  ⟨fun _ h => absurd h List.not_mem_nil, fun _ h => absurd h List.not_mem_nil⟩

theorem Between.locate (h : Between key k ctx) (hincreasing : Increasing key (fill ctx t).toList) :
    Between key k (locate key k ctx t).1 := by
  fun_induction RedBlack.locate key k ctx t with
  | case1 ctx => exact h
  | case2 ctx c l x r hlt ih =>
    apply ih _ hincreasing
    refine ⟨?_, ?_⟩
    · rw [RedBlack.before, Frame.before, List.append_nil]
      exact h.before
    · intro b hb
      rw [toList_fill, toList, List.append_assoc, List.append_assoc, ← List.append_assoc,
        List.cons_append, increasing_append_cons] at hincreasing
      rw [RedBlack.after, Frame.after, List.cons_append, List.mem_cons] at hb
      rcases hb with rfl | hb
      · exact hlt
      · exact lt_trans hlt (hincreasing.2.2 b hb)
  | case3 ctx c l x r _ hgt ih =>
    apply ih _ hincreasing
    refine ⟨?_, ?_⟩
    · intro a ha
      rw [toList_fill, toList, List.append_assoc, List.append_assoc, ← List.append_assoc,
        List.cons_append, increasing_append_cons] at hincreasing
      rw [RedBlack.before, Frame.before, ← List.append_assoc, List.mem_append,
        List.mem_singleton] at ha
      rcases ha with ha | rfl
      · exact lt_trans (hincreasing.2.1 a ha) hgt
      · exact hgt
    · rw [RedBlack.after, Frame.after, List.nil_append]
      exact h.after
  | case4 ctx c l x r _ _ => exact h

/-- The side of the hole is told by the nearest key above it. -/
theorem Between.side_eq (h : Between key k (f :: ctx)) :
    f.side = if k < key f.label then .left else .right := by
  cases hs : f.side with
  | left =>
    rw [if_pos]
    apply h.after
    rw [RedBlack.after, Frame.after, hs]
    exact List.mem_cons_self
  | right =>
    rw [if_neg]
    apply lt_asymm
    apply h.before
    rw [RedBlack.before, Frame.before, hs]
    exact List.mem_append_right _ (List.mem_append_right _ (List.mem_singleton.mpr rfl))

/-! ## A place for a label -/

/-- The way from a hole to the empty subtree that is left of the labels of which `isAfter` holds. -/
def descend (isAfter : α → Bool) : Ctx α → ColorTree α → Ctx α
  | ctx, leaf => ctx
  | ctx, node c l x r =>
    if isAfter x then descend isAfter (⟨.left, c, x, r⟩ :: ctx) l
    else descend isAfter (⟨.right, c, x, l⟩ :: ctx) r

variable {isAfter : α → Bool}

theorem fill_descend : fill (descend isAfter ctx t) leaf = fill ctx t := by
  fun_induction descend isAfter ctx t with
  | case1 ctx => rfl
  | case2 ctx c l x r hx ih => exact ih
  | case3 ctx c l x r hx ih => exact ih

/-- The frames above the start are on the way. -/
theorem mem_descend (h : f ∈ ctx) : f ∈ descend isAfter ctx t := by
  fun_induction descend isAfter ctx t with
  | case1 ctx => exact h
  | case2 ctx c l x r hx ih => exact ih (List.mem_cons_of_mem _ h)
  | case3 ctx c l x r hx ih => exact ih (List.mem_cons_of_mem _ h)

/-- The way goes left of the labels that come after. -/
theorem side_of_mem_descend (hctx : ∀ f ∈ ctx, f.side = if isAfter f.label then .left else .right)
    (h : f ∈ descend isAfter ctx t) : f.side = if isAfter f.label then .left else .right := by
  fun_induction descend isAfter ctx t with
  | case1 ctx => exact hctx f h
  | case2 ctx c l x r hx ih =>
    apply ih _ h
    intro g hg
    rcases List.mem_cons.mp hg with rfl | hg
    · exact (if_pos hx).symm
    · exact hctx g hg
  | case3 ctx c l x r hx ih =>
    apply ih _ h
    intro g hg
    rcases List.mem_cons.mp hg with rfl | hg
    · exact (if_neg hx).symm
    · exact hctx g hg

theorem label_mem_of_frame (h : f ∈ ctx) : f.label ∈ before ctx ++ after ctx := by
  induction ctx with
  | nil => exact absurd h List.not_mem_nil
  | cons g ctx ih =>
    rw [before, after, List.mem_append, List.mem_append, List.mem_append]
    rcases List.mem_cons.mp h with rfl | h
    · cases hs : f.side with
      | left =>
        rw [Frame.after, hs]
        exact .inr (.inl List.mem_cons_self)
      | right =>
        rw [Frame.before, hs]
        exact .inl (.inr (List.mem_append_right _ (List.mem_singleton.mpr rfl)))
    · rcases List.mem_append.mp (ih h) with hbefore | hafter
      · exact .inl (.inl hbefore)
      · exact .inr (.inr hafter)

/-- The hole is right of the labels that come before and left of the others. -/
structure Divides (isAfter : α → Bool) (ctx : Ctx α) : Prop where
  before : ∀ a ∈ before ctx, isAfter a = false
  after : ∀ b ∈ after ctx, isAfter b = true

theorem divides_nil : Divides isAfter ([] : Ctx α) :=
  ⟨fun _ h => absurd h List.not_mem_nil, fun _ h => absurd h List.not_mem_nil⟩

/-- Once a label comes after, so do all to its right. -/
theorem Divides.descend (h : Divides isAfter ctx)
    (hmono : (fill ctx t).toList.Pairwise (fun a b => isAfter a = true → isAfter b = true)) :
    Divides isAfter (descend isAfter ctx t) := by
  fun_induction RedBlack.descend isAfter ctx t with
  | case1 ctx => exact h
  | case2 ctx c l x r hx ih =>
    apply ih _ hmono
    refine ⟨?_, ?_⟩
    · rw [RedBlack.before, Frame.before, List.append_nil]
      exact h.before
    · rw [toList_fill, toList, List.append_assoc, List.append_assoc, ← List.append_assoc,
        List.cons_append, List.pairwise_append, List.pairwise_cons] at hmono
      intro b hb
      rw [RedBlack.after, Frame.after, List.cons_append, List.mem_cons] at hb
      rcases hb with rfl | hb
      · exact hx
      · exact hmono.2.1.1 b hb hx
  | case3 ctx c l x r hx ih =>
    apply ih _ hmono
    refine ⟨?_, ?_⟩
    · rw [toList_fill, toList, List.append_assoc, List.append_assoc, ← List.append_assoc,
        List.cons_append, List.pairwise_append] at hmono
      intro a ha
      rw [RedBlack.before, Frame.before, ← List.append_assoc, List.mem_append,
        List.mem_singleton] at ha
      rcases ha with ha | rfl
      · by_contra hafter
        rw [Bool.not_eq_false] at hafter
        exact hx (hmono.2.2 a ha x List.mem_cons_self hafter)
      · exact Bool.eq_false_iff.mpr hx
    · rw [RedBlack.after, Frame.after, List.nil_append]
      exact h.after

/-! ## The smallest node -/

/-- The way from a hole to its smallest node. -/
def lowest : Ctx α → ColorTree α → Ctx α × ColorTree α
  | ctx, node c (node c' l' x' r') x r => lowest (⟨.left, c, x, r⟩ :: ctx) (node c' l' x' r')
  | ctx, t => (ctx, t)

theorem before_append {low ctx : Ctx α} (h : before low = []) : before (low ++ ctx) = before ctx := by
  induction low with
  | nil => rfl
  | cons f low ih =>
    obtain ⟨hlow, hf⟩ := List.append_eq_nil_iff.mp h
    rw [List.cons_append, before, ih hlow, hf, List.append_nil]

theorem after_append (low ctx : Ctx α) : after (low ++ ctx) = after low ++ after ctx := by
  induction low with
  | nil => rfl
  | cons f low ih => rw [List.cons_append, after, after, ih, List.append_assoc]

/-- The smallest node has nothing to its left, and the way to it goes to the left only. -/
theorem lowest_spec (ctx : Ctx α) (h : t ≠ leaf) :
    ∃ low c y v, lowest ctx t = (low ++ ctx, node c leaf y v) ∧ t = fill low (node c leaf y v) ∧
      before low = [] := by
  fun_induction lowest ctx t with
  | case1 ctx c c' l' x' r' x r ih =>
    obtain ⟨low, d, y, v, heq, hfill, hbefore⟩ := ih (by simp)
    refine ⟨low ++ [⟨.left, c, x, r⟩], d, y, v, ?_, ?_, ?_⟩
    · rw [heq, List.append_assoc, List.singleton_append]
    · rw [fill_append, ← hfill]
      rfl
    · rw [before_append hbefore]
      rfl
  | case2 ctx t hother =>
    cases t with
    | leaf => exact absurd rfl h
    | node c l x r =>
      cases l with
      | leaf => exact ⟨[], c, x, r, rfl, rfl, rfl⟩
      | node c' l' x' r' => exact absurd rfl (hother c c' l' x' r' x r)

/-- The place where a deletion takes a node out: that of the node with the key, or of the
smallest one to its right where it has two children. -/
def takenOut (key : α → K) (k : K) (t : ColorTree α) : Ctx α × ColorTree α :=
  match (locate key k [] t).2 with
  | node c (node lc ll lx lr) x (node rc rl rx rr) =>
    lowest (⟨.right, c, x, node lc ll lx lr⟩ :: (locate key k [] t).1) (node rc rl rx rr)
  | _ => locate key k [] t

theorem takenOut_one_child {s : Side} {c : Color} {x : α} {v : ColorTree α}
    (h : (locate key k [] t).2 = branch s c leaf x v) :
    takenOut key k t = ((locate key k [] t).1, branch s c leaf x v) := by
  have hpair : locate key k [] t = ((locate key k [] t).1, branch s c leaf x v) := by rw [← h]
  rw [takenOut, h]
  cases s with
  | left => exact hpair
  | right => cases v <;> exact hpair

theorem takenOut_two_children {c : Color} {l r : ColorTree α} {x : α}
    (h : (locate key k [] t).2 = node c l x r) (hl : l ≠ leaf) (hr : r ≠ leaf) :
    takenOut key k t = lowest (⟨.right, c, x, l⟩ :: (locate key k [] t).1) r := by
  rw [takenOut, h]
  cases l with
  | leaf => exact absurd rfl hl
  | node lc ll lx lr =>
    cases r with
    | leaf => exact absurd rfl hr
    | node rc rl rx rr => rfl

end CServer.RedBlack
