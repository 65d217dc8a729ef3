import Mathlib.Data.List.Basic
import Mathlib.Tactic.Cases

/-!
# Red-black trees with a hole

A tree is looked at from one of its subtrees: the frames above it, the nearest one first, say
on which side it hangs and what hangs beside it. Both ways to restore the balance work upwards
from such a place, where insertion has put a red node and deletion has left one black node too
few.
-/
namespace CServer.RedBlack

inductive Color where
  | red
  | black
  deriving DecidableEq, Repr

inductive Side where
  | left
  | right
  deriving DecidableEq, Repr

def Side.other : Side → Side
  | left => right
  | right => left

@[simp] theorem Side.other_other (s : Side) : s.other.other = s := by cases s <;> rfl

theorem Side.eq_other_of_ne {s s' : Side} (h : s' ≠ s) : s' = s.other := by
  cases s <;> cases s' <;> first | rfl | exact absurd rfl h

variable {α : Type}

inductive ColorTree (α : Type) where
  | leaf
  | node (color : Color) (left : ColorTree α) (label : α) (right : ColorTree α)
  deriving DecidableEq

namespace ColorTree

/-- Empty subtrees count as black. -/
def color : ColorTree α → Color
  | leaf => .black
  | node c _ _ _ => c

/-- The labels from left to right. -/
def toList : ColorTree α → List α
  | leaf => []
  | node _ l x r => l.toList ++ x :: r.toList

/-- The tree with another colour at its root. -/
def paint (c : Color) : ColorTree α → ColorTree α
  | leaf => leaf
  | node _ l x r => node c l x r

/-- A node with the subtree `near` on side `s`. -/
def branch (s : Side) (c : Color) (near : ColorTree α) (x : α) (far : ColorTree α) : ColorTree α :=
  match s with
  | .left => node c near x far
  | .right => node c far x near

/-- The subtree on side `s` of two. -/
def pick (s : Side) (l r : ColorTree α) : ColorTree α :=
  match s with
  | .left => l
  | .right => r

theorem node_eq_branch (s : Side) (c : Color) (l r : ColorTree α) (x : α) :
    node c l x r = branch s c (pick s l r) x (pick s.other l r) := by cases s <;> rfl

theorem branch_other (s : Side) (c : Color) (near far : ColorTree α) (x : α) :
    branch s.other c near x far = branch s c far x near := by cases s <;> rfl

theorem branch_ne_leaf {s : Side} {c : Color} {near far : ColorTree α} {x : α} :
    branch s c near x far ≠ leaf := by cases s <;> simp [branch]

@[simp] theorem color_branch (s : Side) (c : Color) (near far : ColorTree α) (x : α) :
    (branch s c near x far).color = c := by cases s <;> rfl

@[simp] theorem paint_branch (s : Side) (c c' : Color) (near far : ColorTree α) (x : α) :
    (branch s c near x far).paint c' = branch s c' near x far := by cases s <;> rfl

@[simp] theorem toList_paint (t : ColorTree α) (c : Color) : (t.paint c).toList = t.toList := by
  cases t <;> rfl

theorem paint_color (t : ColorTree α) : t.paint t.color = t := by cases t <;> rfl

theorem color_paint_black (t : ColorTree α) : (t.paint .black).color = .black := by cases t <;> rfl

/-- Neither subtree of a red node is red, and `n` black nodes are on every way down. -/
inductive Balanced : ColorTree α → ℕ → Prop
  | leaf : Balanced leaf 0
  | red {l r : ColorTree α} {x : α} {n : ℕ} (hl : l.color = .black) (hr : r.color = .black)
      (left : Balanced l n) (right : Balanced r n) : Balanced (node .red l x r) n
  | black {l r : ColorTree α} {x : α} {n : ℕ} (left : Balanced l n) (right : Balanced r n) :
      Balanced (node .black l x r) (n + 1)

/-- A red-black tree, its order apart. -/
def Valid (t : ColorTree α) : Prop := t.color = .black ∧ ∃ n, Balanced t n

variable {s : Side} {near far t : ColorTree α} {x : α} {n : ℕ}

theorem balanced_red : Balanced (branch s .red near x far) n ↔
    near.color = .black ∧ far.color = .black ∧ Balanced near n ∧ Balanced far n := by
  constructor
  · intro h
    cases s <;> cases h with | red hl hr left right
    · exact ⟨hl, hr, left, right⟩
    · exact ⟨hr, hl, right, left⟩
  · intro ⟨hnear, hfar, near, far⟩
    cases s
    · exact .red hnear hfar near far
    · exact .red hfar hnear far near

theorem balanced_black : Balanced (branch s .black near x far) (n + 1) ↔
    Balanced near n ∧ Balanced far n := by
  constructor
  · intro h
    cases s <;> cases h with | black left right
    · exact ⟨left, right⟩
    · exact ⟨right, left⟩
  · intro ⟨near, far⟩
    cases s
    · exact .black near far
    · exact .black far near

theorem Balanced.succ_of_black (h : Balanced (branch s .black near x far) n) :
    ∃ m, n = m + 1 ∧ Balanced near m ∧ Balanced far m := by
  cases s <;> cases h with | @black _ _ _ m left right
  · exact ⟨m, rfl, left, right⟩
  · exact ⟨m, rfl, right, left⟩

/-- A black tree with a black node on its ways down is a node. -/
theorem Balanced.exists_branch (h : Balanced t (n + 1)) (s : Side) :
    ∃ c near x far, t = branch s c near x far := by
  cases t with
  | leaf => cases h
  | node c l x r => exact ⟨c, _, x, _, node_eq_branch s c l r x⟩

theorem exists_branch_of_red (h : t.color = .red) (s : Side) :
    ∃ near x far, t = branch s .red near x far := by
  cases t with
  | leaf => cases h
  | node c l x r =>
    have hc : c = .red := h
    subst hc
    exact ⟨_, x, _, node_eq_branch s .red l r x⟩

theorem Balanced.paint_black_of_red (h : Balanced t n) (hred : t.color = .red) :
    Balanced (t.paint .black) (n + 1) := by
  obtain ⟨near, x, far, rfl⟩ := exists_branch_of_red hred .left
  obtain ⟨-, -, hnear, hfar⟩ := balanced_red.mp h
  rw [paint_branch]
  exact balanced_black.mpr ⟨hnear, hfar⟩

theorem Balanced.paint_black (h : Balanced t n) : ∃ m, Balanced (t.paint .black) m := by
  cases hc : t.color with
  | red => exact ⟨n + 1, h.paint_black_of_red hc⟩
  | black =>
    rw [← hc, paint_color]
    exact ⟨n, h⟩

theorem Valid.paint_black (h : Valid t) : t.paint .black = t := by
  rw [← h.1, paint_color]

end ColorTree

open ColorTree

/-! ## A hole in a tree -/

/-- A node above the hole: the side on which the hole is, and the subtree on the other. -/
structure Frame (α : Type) where
  side : Side
  color : Color
  label : α
  sibling : ColorTree α

/-- The frames above a hole, the nearest first. -/
abbrev Ctx (α : Type) := List (Frame α)

def Frame.fill (f : Frame α) (t : ColorTree α) : ColorTree α :=
  branch f.side f.color t f.label f.sibling

def fill : Ctx α → ColorTree α → ColorTree α
  | [], t => t
  | f :: ctx, t => fill ctx (f.fill t)

theorem Frame.fill_eq (f : Frame α) (t : ColorTree α) :
    f.fill t = branch f.side f.color t f.label f.sibling := rfl

theorem fill_nil (t : ColorTree α) : fill [] t = t := rfl

theorem fill_cons (f : Frame α) (ctx : Ctx α) (t : ColorTree α) :
    fill (f :: ctx) t = fill ctx (f.fill t) := rfl

/-- The labels left of the hole. -/
def Frame.before (f : Frame α) : List α :=
  match f.side with
  | .left => []
  | .right => f.sibling.toList ++ [f.label]

/-- The labels right of the hole. -/
def Frame.after (f : Frame α) : List α :=
  match f.side with
  | .left => f.label :: f.sibling.toList
  | .right => []

def before : Ctx α → List α
  | [] => []
  | f :: ctx => before ctx ++ f.before

def after : Ctx α → List α
  | [] => []
  | f :: ctx => f.after ++ after ctx

variable {ctx : Ctx α} {t t' : ColorTree α} {f : Frame α} {c : Color} {n : ℕ} {s : Side}

theorem Frame.toList_fill (f : Frame α) (t : ColorTree α) :
    (f.fill t).toList = f.before ++ t.toList ++ f.after := by
  rw [fill, before, after]
  cases f.side <;> simp [branch, toList]

theorem toList_fill (ctx : Ctx α) (t : ColorTree α) :
    (fill ctx t).toList = before ctx ++ t.toList ++ after ctx := by
  induction ctx generalizing t with
  | nil => simp [fill, before, after]
  | cons f ctx ih => rw [fill_cons, ih, f.toList_fill, before, after]; simp only [List.append_assoc]

/-- The labels without that of the node in the hole, which has one subtree at most. -/
theorem toList_one_child (ctx : Ctx α) (s : Side) (c : Color) (x : α) (t : ColorTree α) :
    ∃ as bs, (fill ctx (branch s c leaf x t)).toList = as ++ x :: bs ∧
      (fill ctx t).toList = as ++ bs := by
  cases s with
  | left =>
    refine ⟨before ctx, t.toList ++ after ctx, ?_, ?_⟩
    · simp [toList_fill, branch, toList]
    · simp [toList_fill]
  | right =>
    refine ⟨before ctx ++ t.toList, after ctx, ?_, ?_⟩
    · simp [toList_fill, branch, toList]
    · simp [toList_fill]

theorem fill_append (ctx ctx' : Ctx α) (t : ColorTree α) :
    fill (ctx ++ ctx') t = fill ctx' (fill ctx t) := by
  induction ctx generalizing t with
  | nil => rfl
  | cons f ctx ih => exact ih (f.fill t)

/-- The tree seen from the other subtree of the nearest node. -/
theorem fill_sibling (f : Frame α) (ctx : Ctx α) (t : ColorTree α) :
    fill (f :: ctx) t = fill (⟨f.side.other, f.color, f.label, t⟩ :: ctx) f.sibling := by
  rw [fill_cons, fill_cons, Frame.fill_eq, Frame.fill_eq, branch_other]

theorem fill_far (s : Side) (c : Color) (near : ColorTree α) (x : α) (ctx : Ctx α) (far : ColorTree α) :
    fill (⟨s.other, c, x, near⟩ :: ctx) far = fill ctx (branch s c near x far) := by
  rw [fill_cons, Frame.fill_eq, branch_other]

/-- A balanced tree whose root has colour `c` and that has `n` black nodes on its ways down
makes a red-black tree in this hole. -/
def Accepts : Ctx α → Color → ℕ → Prop
  | [], c, _ => c = .black
  | f :: ctx, c, n =>
    match f.color with
    | .red => c = .black ∧ f.sibling.color = .black ∧ Balanced f.sibling n ∧ Accepts ctx .red n
    | .black => Balanced f.sibling n ∧ Accepts ctx .black (n + 1)

theorem Accepts.of_black (h : Accepts ctx c n) : Accepts ctx .black n := by
  cases ctx with
  | nil => rfl
  | cons f ctx =>
    rw [Accepts] at h ⊢
    cases hf : f.color with
    | red =>
      rw [hf] at h
      exact ⟨rfl, h.2⟩
    | black =>
      rw [hf] at h
      exact h

theorem accepts_cons_red (hf : f.color = .red) : Accepts (f :: ctx) c n ↔
    c = .black ∧ f.sibling.color = .black ∧ Balanced f.sibling n ∧ Accepts ctx .red n := by
  rw [Accepts, hf]

theorem accepts_cons_black (hf : f.color = .black) : Accepts (f :: ctx) c n ↔
    Balanced f.sibling n ∧ Accepts ctx .black (n + 1) := by
  rw [Accepts, hf]

/-- A red-black tree is a balanced tree in a hole that accepts it. -/
theorem valid_fill : Valid (fill ctx t) ↔ ∃ n, Balanced t n ∧ Accepts ctx t.color n := by
  induction ctx generalizing t with
  | nil =>
    constructor
    · intro ⟨hblack, n, h⟩
      exact ⟨n, h, hblack⟩
    · intro ⟨n, h, hblack⟩
      exact ⟨hblack, n, h⟩
  | cons f ctx ih =>
    rw [fill_cons, ih, Frame.fill_eq, color_branch]
    cases hf : f.color with
    | red =>
      constructor
      · intro ⟨n, h, hctx⟩
        obtain ⟨ht, hsibling, h, hs⟩ := balanced_red.mp h
        exact ⟨n, h, (accepts_cons_red hf).mpr ⟨ht, hsibling, hs, hctx⟩⟩
      · intro ⟨n, h, hctx⟩
        obtain ⟨ht, hsibling, hs, hctx⟩ := (accepts_cons_red hf).mp hctx
        exact ⟨n, balanced_red.mpr ⟨ht, hsibling, h, hs⟩, hctx⟩
    | black =>
      constructor
      · intro ⟨n, h, hctx⟩
        obtain ⟨m, rfl, h, hs⟩ := h.succ_of_black
        exact ⟨m, h, (accepts_cons_black hf).mpr ⟨hs, hctx⟩⟩
      · intro ⟨n, h, hctx⟩
        obtain ⟨hs, hctx⟩ := (accepts_cons_black hf).mp hctx
        exact ⟨n + 1, balanced_black.mpr ⟨h, hs⟩, hctx⟩

end CServer.RedBlack
