import CServer.Foundation.Fallible
import CServer.Foundation.RedBlack
import Mathlib.Data.List.Nodup
import Mathlib.Logic.Function.Basic

/-!
# Trees of nodes with parent pointers

A heap holds a tree when each of its nodes points to its children and to its parent. Pointers
to nothing lead to one address, `nil`, and the parent of the root is another, `top`; each may be
the null pointer, a sentinel or a header. A write is described by what it leaves at every
address, and changes the tree only around one hole.
-/
namespace CServer.RedBlack

open ColorTree

variable {α : Type}

abbrev Addr := ℕ

inductive Fault where
  | notAllocated
  | endless
  | overflow
  deriving DecidableEq, Repr

structure Node (α : Type) where
  left : Addr
  right : Addr
  parent : Addr
  color : Color
  value : α

abbrev Heap (α : Type) := Addr → Option (Node α)

/-- The field `left` or `right`. -/
def Node.child (n : Node α) : Side → Addr
  | .left => n.left
  | .right => n.right

def Node.setChild (n : Node α) (a : Addr) : Side → Node α
  | .left => { n with left := a }
  | .right => { n with right := a }

/-- The node at an address. -/
def Heap.node (heap : Heap α) (a : Addr) : Except Fault (Node α) :=
  match heap a with
  | some n => .ok n
  | none => .error .notAllocated

/-- A write to the node at an address. -/
def Heap.modify (heap : Heap α) (a : Addr) (f : Node α → Node α) : Except Fault (Heap α) :=
  match heap a with
  | some n => .ok (Function.update heap a (some (f n)))
  | none => .error .notAllocated

def Heap.setChild (heap : Heap α) (a : Addr) (s : Side) (b : Addr) : Except Fault (Heap α) :=
  heap.modify a (fun n => n.setChild b s)

def Heap.setParent (heap : Heap α) (a b : Addr) : Except Fault (Heap α) :=
  heap.modify a (fun n => { n with parent := b })

def Heap.setColor (heap : Heap α) (a : Addr) (c : Color) : Except Fault (Heap α) :=
  heap.modify a (fun n => { n with color := c })

def Heap.setValue (heap : Heap α) (a : Addr) (v : α) : Except Fault (Heap α) :=
  heap.modify a (fun n => { n with value := v })

/-- A child that is there gets a parent. -/
def Heap.adopt (heap : Heap α) (nil child parent : Addr) : Except Fault (Heap α) :=
  if child ≠ nil then heap.setParent child parent else .ok heap

/-- Whether there is a node, and it is red. -/
def Heap.isRed (heap : Heap α) (nil a : Addr) : Except Fault Bool :=
  if a = nil then .ok false
  else do
    let n ← heap.node a
    .ok (n.color = .red)

/-- A new node at an address that `malloc` has given. -/
def Heap.alloc (heap : Heap α) (a : Addr) (n : Node α) : Heap α := Function.update heap a (some n)

def Heap.free (heap : Heap α) (a : Addr) : Heap α := Function.update heap a none

variable {heap heap' : Heap α} {a : Addr} {n : Node α}

theorem Heap.node_eq (h : heap a = some n) : heap.node a = .ok n := by
  rw [Heap.node, h]

theorem Heap.modify_eq (h : heap a = some n) (f : Node α → Node α) :
    heap.modify a f = .ok (Function.update heap a (some (f n))) := by
  rw [Heap.modify, h]

/-- A write to a node changes it and no other. -/
theorem Heap.modify_spec (h : heap a = some n) (f : Node α → Node α) :
    ∃ heap', heap.modify a f = .ok heap' ∧ heap' a = some (f n) ∧
      ∀ e, e ≠ a → heap' e = heap e :=
  ⟨_, Heap.modify_eq h f, Function.update_self _ _ _, fun _ he => Function.update_of_ne he _ _⟩

/-- The node with the child `near` on side `s`. -/
def sideNode (s : Side) (near far parent : Addr) (c : Color) (v : α) : Node α :=
  match s with
  | .left => ⟨near, far, parent, c, v⟩
  | .right => ⟨far, near, parent, c, v⟩

section SideNode

variable {s : Side} {near far parent b : Addr} {c c' : Color} {v : α}

@[simp] theorem child_sideNode : (sideNode s near far parent c v).child s = near := by
  cases s <;> rfl

@[simp] theorem child_other_sideNode :
    (sideNode s near far parent c v).child s.other = far := by
  cases s <;> rfl

@[simp] theorem setChild_sideNode :
    (sideNode s near far parent c v).setChild b s = sideNode s b far parent c v := by
  cases s <;> rfl

@[simp] theorem setChild_other_sideNode :
    (sideNode s near far parent c v).setChild b s.other = sideNode s near b parent c v := by
  cases s <;> rfl

@[simp] theorem parent_sideNode : (sideNode s near far parent c v).parent = parent := by
  cases s <;> rfl

@[simp] theorem color_sideNode : (sideNode s near far parent c v).color = c := by
  cases s <;> rfl

@[simp] theorem value_sideNode : (sideNode s near far parent c v).value = v := by
  cases s <;> rfl

@[simp] theorem setParent_sideNode :
    { sideNode s near far parent c v with parent := b } = sideNode s near far b c v := by
  cases s <;> rfl

@[simp] theorem setColor_sideNode :
    { sideNode s near far parent c v with color := c' } = sideNode s near far parent c' v := by
  cases s <;> rfl

end SideNode

/-! ## Trees in a heap -/

/-- What a tree knows about a node: where it is and what it carries. -/
structure Cell (α : Type) where
  addr : Addr
  value : α
  deriving DecidableEq

/-- The pointer to a tree. -/
def ptr (nil : Addr) : ColorTree (Cell α) → Addr
  | leaf => nil
  | node _ _ x _ => x.addr

/-- The heap holds the nodes of a tree below the parent `p`. -/
def Holds (heap : Heap α) (nil : Addr) : Addr → ColorTree (Cell α) → Prop
  | _, leaf => True
  | p, node c l x r =>
    heap x.addr = some ⟨ptr nil l, ptr nil r, p, c, x.value⟩ ∧
      Holds heap nil x.addr l ∧ Holds heap nil x.addr r

/-- The addresses of a tree. -/
def addrs (t : ColorTree (Cell α)) : List Addr := t.toList.map Cell.addr

/-- The parent of a tree in a hole. -/
def parentOf (top : Addr) : Ctx (Cell α) → Addr
  | [] => top
  | f :: _ => f.label.addr

@[simp] theorem parentOf_nil (top : Addr) : parentOf top ([] : Ctx (Cell α)) = top := rfl

@[simp] theorem parentOf_cons (top : Addr) (f : Frame (Cell α)) (ctx : Ctx (Cell α)) :
    parentOf top (f :: ctx) = f.label.addr := rfl

/-- The node of a frame, with the hole's pointer. -/
def Frame.node (f : Frame (Cell α)) (nil hole parent : Addr) : Node α :=
  sideNode f.side hole (ptr nil f.sibling) parent f.color f.label.value

@[simp] theorem Frame.setChild_node (f : Frame (Cell α)) (nil hole hole' parent : Addr) :
    (f.node nil hole parent).setChild hole' f.side = f.node nil hole' parent := setChild_sideNode

@[simp] theorem Frame.child_node (f : Frame (Cell α)) (nil hole parent : Addr) :
    (f.node nil hole parent).child f.side = hole := child_sideNode

@[simp] theorem Frame.child_other_node (f : Frame (Cell α)) (nil hole parent : Addr) :
    (f.node nil hole parent).child f.side.other = ptr nil f.sibling := child_other_sideNode

@[simp] theorem Frame.parent_node (f : Frame (Cell α)) (nil hole parent : Addr) :
    (f.node nil hole parent).parent = parent := parent_sideNode

@[simp] theorem Frame.color_node (f : Frame (Cell α)) (nil hole parent : Addr) :
    (f.node nil hole parent).color = f.color := color_sideNode

@[simp] theorem Frame.value_node (f : Frame (Cell α)) (nil hole parent : Addr) :
    (f.node nil hole parent).value = f.label.value := value_sideNode

/-- The comparison that finds the side of a child from the right. -/
theorem Frame.side_of_right {f : Frame (Cell α)} {nil hole parent : Addr}
    (h : ptr nil f.sibling ≠ hole) :
    (if hole = (f.node nil hole parent).right then Side.right else .left) = f.side := by
  rw [Frame.node]
  cases hs : f.side with
  | left => rw [sideNode, if_neg h.symm]
  | right => rw [sideNode, if_pos rfl]

/-- The comparison that finds the side of a child from the left. -/
theorem Frame.side_of_left {f : Frame (Cell α)} {nil hole parent : Addr}
    (h : ptr nil f.sibling ≠ hole) :
    (if (f.node nil hole parent).left = hole then Side.left else .right) = f.side := by
  rw [Frame.node]
  cases hs : f.side with
  | left => rw [sideNode, if_pos rfl]
  | right => rw [sideNode, if_neg h]

/-- The test of the left child tells the side of the hole. -/
theorem Frame.eq_left_iff {f : Frame (Cell α)} {n hole p : Addr}
    (h : ptr n f.sibling ≠ hole) : hole = (f.node n hole p).left ↔ f.side = .left := by
  rw [Frame.node]
  cases hs : f.side with
  | left => exact iff_of_true rfl rfl
  | right => exact iff_of_false h.symm (by decide)

theorem Frame.eq_right_iff {f : Frame (Cell α)} {nil hole parent : Addr}
    (h : ptr nil f.sibling ≠ hole) : hole = (f.node nil hole parent).right ↔ f.side = .right := by
  rw [Frame.node]
  cases hs : f.side with
  | left => exact iff_of_false h.symm (by decide)
  | right => exact iff_of_true rfl rfl

/-- The child on the other side of the hole. -/
theorem Frame.other_child {f : Frame (Cell α)} {nil hole parent : Addr}
    (h : ptr nil f.sibling ≠ hole) :
    (if hole = (f.node nil hole parent).left then (f.node nil hole parent).right
      else (f.node nil hole parent).left) = ptr nil f.sibling := by
  rw [Frame.node]
  cases hs : f.side with
  | left => exact if_pos rfl
  | right => exact if_neg h.symm

/-- The heap holds the nodes around a hole, to which the pointer `hole` leads. -/
def CtxHolds (heap : Heap α) (nil top : Addr) : Ctx (Cell α) → Addr → Prop
  | [], _ => True
  | f :: ctx, hole =>
    heap f.label.addr = some (f.node nil hole (parentOf top ctx)) ∧
      Holds heap nil f.label.addr f.sibling ∧ CtxHolds heap nil top ctx f.label.addr

/-- The addresses around a hole. -/
def ctxAddrs : Ctx (Cell α) → List Addr
  | [] => []
  | f :: ctx => f.label.addr :: (addrs f.sibling ++ ctxAddrs ctx)

/-- The heap holds a tree at addresses of its own. -/
structure Rep (heap : Heap α) (nil top : Addr) (t : ColorTree (Cell α)) : Prop where
  holds : Holds heap nil top t
  nodup : (addrs t).Nodup
  nil_notMem : nil ∉ addrs t
  top_notMem : top ∉ addrs t

variable {nil top p p' hole hole' e : Addr} {s : Side} {c : Color} {x : Cell α}
variable {l r t t' near far : ColorTree (Cell α)} {f : Frame (Cell α)} {ctx rest : Ctx (Cell α)}

@[simp] theorem ptr_branch : ptr nil (branch s c near x far) = x.addr := by cases s <;> rfl

@[simp] theorem ptr_paint : ptr nil (t.paint c) = ptr nil t := by cases t <;> rfl

theorem holds_branch : Holds heap nil p (branch s c near x far) ↔
    heap x.addr = some (sideNode s (ptr nil near) (ptr nil far) p c x.value) ∧
      Holds heap nil x.addr near ∧ Holds heap nil x.addr far := by
  cases s with
  | left => exact Iff.rfl
  | right =>
    constructor
    · intro ⟨h, hl, hr⟩
      exact ⟨h, hr, hl⟩
    · intro ⟨h, hr, hl⟩
      exact ⟨h, hl, hr⟩

theorem addrs_branch_perm :
    (addrs (branch s c near x far)).Perm (x.addr :: (addrs near ++ addrs far)) := by
  cases s with
  | left =>
    rw [addrs, branch, toList, List.map_append, List.map_cons]
    exact List.perm_middle
  | right =>
    rw [addrs, branch, toList, List.map_append, List.map_cons]
    exact List.perm_middle.trans (List.Perm.cons _ List.perm_append_comm)

theorem mem_addrs_branch : e ∈ addrs (branch s c near x far) ↔
    e = x.addr ∨ e ∈ addrs near ∨ e ∈ addrs far := by
  rw [addrs_branch_perm.mem_iff, List.mem_cons, List.mem_append]

theorem mem_addrs_of_ne_leaf {n : Addr} (h : t ≠ leaf) : ptr n t ∈ addrs t := by
  cases t with
  | leaf => exact absurd rfl h
  | node c l x r => exact (mem_addrs_branch (s := .left)).mpr (.inl rfl)

@[simp] theorem addrs_paint : addrs (t.paint c) = addrs t := by
  rw [addrs, addrs, toList_paint]

theorem holds_fill : Holds heap nil top (fill ctx t) ↔
    CtxHolds heap nil top ctx (ptr nil t) ∧ Holds heap nil (parentOf top ctx) t := by
  induction ctx generalizing t with
  | nil => exact (iff_of_eq (true_and _)).symm
  | cons f ctx ih =>
    rw [fill_cons, ih, Frame.fill_eq, holds_branch, ptr_branch, CtxHolds, parentOf]
    constructor
    · rintro ⟨hctx, hnode, ht, hsibling⟩
      exact ⟨⟨hnode, hsibling, hctx⟩, ht⟩
    · rintro ⟨⟨hnode, hsibling, hctx⟩, ht⟩
      exact ⟨hctx, hnode, ht, hsibling⟩

theorem addrs_fill_perm : (addrs (fill ctx t)).Perm (ctxAddrs ctx ++ addrs t) := by
  induction ctx generalizing t with
  | nil => exact List.Perm.refl _
  | cons f ctx ih =>
    have hbranch : (addrs (f.fill t)).Perm (f.label.addr :: (addrs t ++ addrs f.sibling)) :=
      addrs_branch_perm
    rw [fill_cons, ctxAddrs]
    refine ih.trans ((hbranch.append_left _).trans ?_)
    refine List.perm_middle.trans (List.Perm.cons _ ?_)
    show (ctxAddrs ctx ++ (addrs t ++ addrs f.sibling)).Perm
      (addrs f.sibling ++ ctxAddrs ctx ++ addrs t)
    rw [← List.append_assoc, List.append_assoc (addrs f.sibling)]
    exact List.perm_append_comm

theorem mem_addrs_fill : e ∈ addrs (fill ctx t) ↔ e ∈ ctxAddrs ctx ∨ e ∈ addrs t := by
  rw [addrs_fill_perm.mem_iff, List.mem_append]

/-- The root of a tree is not in a hole below it. -/
theorem ptr_fill_cons : ptr nil (fill (f :: ctx) t) = ptr nil (fill (f :: ctx) t') := by
  induction ctx generalizing f t t' with
  | nil =>
    show ptr nil (branch f.side f.color t f.label f.sibling) =
      ptr nil (branch f.side f.color t' f.label f.sibling)
    rw [ptr_branch, ptr_branch]
  | cons g ctx ih => exact ih

/-- A new subtree in the hole has a new root only where there is nothing above it. -/
theorem root_fill {root root' : Addr} (hroot : root = ptr nil (fill ctx t))
    (h : root' = if ctx = [] then ptr nil t' else root) : root' = ptr nil (fill ctx t') := by
  cases ctx with
  | nil => rw [h, if_pos rfl, fill_nil]
  | cons f ctx => rw [h, if_neg (by simp), hroot, ptr_fill_cons]

theorem ptr_fill_mem : ptr nil (fill (f :: ctx) t) ∈ ctxAddrs (f :: ctx) := by
  induction ctx generalizing f t with
  | nil =>
    show ptr nil (branch f.side f.color t f.label f.sibling) ∈ _
    rw [ptr_branch]
    exact List.mem_cons_self
  | cons g ctx ih => exact List.mem_cons_of_mem _ (List.mem_append_right _ ih)

theorem label_mem_ctxAddrs (h : f ∈ ctx) : f.label.addr ∈ ctxAddrs ctx := by
  induction ctx with
  | nil => exact absurd h List.not_mem_nil
  | cons g ctx ih =>
    rcases List.mem_cons.mp h with rfl | h
    · exact List.mem_cons_self
    · exact List.mem_cons_of_mem _ (List.mem_append_right _ (ih h))

theorem parentOf_mem (h : ctx = f :: rest) : parentOf top ctx ∈ ctxAddrs ctx := by
  rw [h]
  exact List.mem_cons_self

/-- A heap holds one tree at most below a pointer. -/
theorem Holds.unique (h : Holds heap nil p t) (h' : Holds heap nil p' t') (hnil : nil ∉ addrs t)
    (hnil' : nil ∉ addrs t') (hptr : ptr nil t = ptr nil t') : t = t' := by
  induction t generalizing p p' t' with
  | leaf =>
    by_contra hne
    apply hnil'
    rw [show nil = ptr nil t' from hptr]
    exact mem_addrs_of_ne_leaf (Ne.symm hne)
  | node c l x r ihl ihr =>
    cases t' with
    | leaf =>
      refine absurd ?_ hnil
      rw [show nil = x.addr from hptr.symm]
      exact (mem_addrs_branch (s := .left)).mpr (.inl rfl)
    | node c' l' x' r' =>
      have haddr : x.addr = x'.addr := hptr
      have hnode := h.1.symm.trans ((congrArg heap haddr).trans h'.1)
      obtain ⟨hl, hr, -, hc, hvalue⟩ := Node.mk.inj (Option.some.inj hnode)
      have hin : ∀ {c l r} {x : Cell α} {e}, e ∈ addrs l ∨ e ∈ addrs r → e ∈ addrs (node c l x r) :=
        fun he => (mem_addrs_branch (s := .left)).mpr (.inr he)
      have hleft := ihl h.2.1 h'.2.1 (fun he => hnil (hin (.inl he))) (fun he => hnil' (hin (.inl he))) hl
      have hright := ihr h.2.2 h'.2.2 (fun he => hnil (hin (.inr he))) (fun he => hnil' (hin (.inr he))) hr
      have hx : x = x' := by
        cases x
        cases x'
        exact congr (congrArg Cell.mk haddr) hvalue
      rw [hc, hleft, hright, hx]

theorem Rep.unique (rep : Rep heap nil top t) (rep' : Rep heap nil top t')
    (hptr : ptr nil t = ptr nil t') : t = t' :=
  rep.holds.unique rep'.holds rep.nil_notMem rep'.nil_notMem hptr

/-! ## Heaps that differ in a few places -/

theorem Holds.congr (h : Holds heap nil p t) (hsame : ∀ e ∈ addrs t, heap' e = heap e) :
    Holds heap' nil p t := by
  induction t generalizing p with
  | leaf => trivial
  | node c l x r ihl ihr =>
    have hmem : ∀ {e}, e = x.addr ∨ e ∈ addrs l ∨ e ∈ addrs r → e ∈ addrs (node c l x r) :=
      (mem_addrs_branch (s := .left)).mpr
    refine ⟨?_, ihl h.2.1 ?_, ihr h.2.2 ?_⟩
    · rw [hsame x.addr (hmem (.inl rfl))]
      exact h.1
    · exact fun e he => hsame e (hmem (.inr (.inl he)))
    · exact fun e he => hsame e (hmem (.inr (.inr he)))

theorem nodup_addrs_branch : (addrs (branch s c near x far)).Nodup ↔
    x.addr ∉ addrs near ∧ x.addr ∉ addrs far ∧ (addrs near).Nodup ∧ (addrs far).Nodup ∧
      ∀ e ∈ addrs near, e ∉ addrs far := by
  rw [addrs_branch_perm.nodup_iff, List.nodup_cons, List.nodup_append', List.mem_append,
    not_or, List.disjoint_left]
  simp only [and_assoc]

/-- The nodes of a subtree whose root gets another parent. -/
theorem Holds.reparent (h : Holds heap nil p t) (hnodup : (addrs t).Nodup)
    (hroot : ∀ n, t ≠ leaf → heap (ptr nil t) = some n →
      heap' (ptr nil t) = some { n with parent := p' })
    (hsame : ∀ e ∈ addrs t, e ≠ ptr nil t → heap' e = heap e) : Holds heap' nil p' t := by
  cases t with
  | leaf => trivial
  | node c l x r =>
    obtain ⟨hl, hr, -⟩ := (nodup_addrs_branch (s := .left)).mp hnodup
    have hmem : ∀ {e}, e = x.addr ∨ e ∈ addrs l ∨ e ∈ addrs r → e ∈ addrs (node c l x r) :=
      (mem_addrs_branch (s := .left)).mpr
    refine ⟨hroot _ (by simp) h.1, h.2.1.congr ?_, h.2.2.congr ?_⟩
    · intro e he
      exact hsame e (hmem (.inr (.inl he))) (fun heq : e = x.addr => hl (heq ▸ he))
    · intro e he
      exact hsame e (hmem (.inr (.inr he))) (fun heq : e = x.addr => hr (heq ▸ he))

theorem CtxHolds.congr (h : CtxHolds heap nil top ctx hole)
    (hsame : ∀ e ∈ ctxAddrs ctx, heap' e = heap e) : CtxHolds heap' nil top ctx hole := by
  induction ctx generalizing hole with
  | nil => trivial
  | cons f ctx ih =>
    have hmem : ∀ {e}, e ∈ addrs f.sibling ∨ e ∈ ctxAddrs ctx → e ∈ ctxAddrs (f :: ctx) :=
      fun h => List.mem_cons_of_mem _ (List.mem_append.mpr h)
    refine ⟨?_, h.2.1.congr (fun e he => hsame e (hmem (.inl he))),
      ih h.2.2 (fun e he => hsame e (hmem (.inr he)))⟩
    rw [hsame _ List.mem_cons_self]
    exact h.1

/-- The nodes around a hole whose pointer is changed. -/
theorem CtxHolds.relink (h : CtxHolds heap nil top ctx hole) (hnodup : (ctxAddrs ctx).Nodup)
    (hhead : ∀ f rest, ctx = f :: rest →
      heap' f.label.addr = some (f.node nil hole' (parentOf top rest)))
    (hsame : ∀ e ∈ ctxAddrs ctx, e ≠ parentOf top ctx → heap' e = heap e) :
    CtxHolds heap' nil top ctx hole' := by
  cases ctx with
  | nil => trivial
  | cons f ctx =>
    obtain ⟨hne, -⟩ := List.nodup_cons.mp hnodup
    have hother : ∀ {e}, e ∈ addrs f.sibling ++ ctxAddrs ctx → heap' e = heap e :=
      fun {e} he => hsame e (List.mem_cons_of_mem _ he)
        (fun heq : e = f.label.addr => hne (heq ▸ he))
    exact ⟨hhead f ctx rfl, h.2.1.congr (fun e he => hother (List.mem_append_left _ he)),
      h.2.2.congr (fun e he => hother (List.mem_append_right _ he))⟩

theorem Rep.nodup_parts (rep : Rep heap nil top (fill ctx t)) :
    (ctxAddrs ctx).Nodup ∧ (addrs t).Nodup ∧ ∀ e ∈ ctxAddrs ctx, e ∉ addrs t := by
  have h := addrs_fill_perm.nodup_iff.mp rep.nodup
  rw [List.nodup_append', List.disjoint_left] at h
  exact h

/-- Another subtree in the hole, at addresses of the old one or new ones. -/
theorem Rep.edit (rep : Rep heap nil top (fill ctx t)) (hnodup : (addrs t').Nodup)
    (hfrom : ∀ e ∈ addrs t', e ∈ addrs t ∨ e ∉ addrs (fill ctx t) ∧ e ≠ nil ∧ e ≠ top)
    (hctx : CtxHolds heap' nil top ctx (ptr nil t'))
    (ht : Holds heap' nil (parentOf top ctx) t') : Rep heap' nil top (fill ctx t') := by
  obtain ⟨hctxnodup, -, hdisjoint⟩ := rep.nodup_parts
  refine ⟨holds_fill.mpr ⟨hctx, ht⟩, addrs_fill_perm.nodup_iff.mpr ?_, ?_, ?_⟩
  · rw [List.nodup_append', List.disjoint_left]
    refine ⟨hctxnodup, hnodup, ?_⟩
    intro e he he'
    rcases hfrom e he' with hold | hnew
    · exact hdisjoint e he hold
    · exact hnew.1 (mem_addrs_fill.mpr (.inl he))
  · intro hmem
    rcases mem_addrs_fill.mp hmem with h | h
    · exact rep.nil_notMem (mem_addrs_fill.mpr (.inl h))
    · rcases hfrom nil h with hold | hnew
      · exact rep.nil_notMem (mem_addrs_fill.mpr (.inr hold))
      · exact hnew.2.1 rfl
  · intro hmem
    rcases mem_addrs_fill.mp hmem with h | h
    · exact rep.top_notMem (mem_addrs_fill.mpr (.inl h))
    · rcases hfrom top h with hold | hnew
      · exact rep.top_notMem (mem_addrs_fill.mpr (.inr hold))
      · exact hnew.2.2 rfl

end CServer.RedBlack
