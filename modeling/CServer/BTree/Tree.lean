import CServer.Foundation.Interleave
import Mathlib.Data.List.GetD

/-!
# B-trees

The nodes of btree.c as values: a node has a name, its keys and its children, and `num` is the
number of its keys. The children of a node are nodes of one height; a leaf has none. The functions
below change one node and its children as the C functions of their names do.
-/
namespace CServer.Btree

open CServer.Interleave

structure Node (C : Type) where
  id : ℕ
  keys : List ℤ
  children : List C

/-- The children of a node of some height. -/
def Children : ℕ → Type
  | 0 => Empty
  | height + 1 => Node (Children height)

abbrev Tree (height : ℕ) := Node (Children height)

variable {C : Type} {t m i height : ℕ} {k : ℤ}

/-- `btree_split_child`: the child `i` of `x` keeps `t - 1` keys, the key behind them goes up, and
the others go to a new node. -/
def splitChild (t : ℕ) (x : Node (Node C)) (i next : ℕ) : Node (Node C) :=
  match x.children[i]? with
  | none => x
  | some y =>
    let z : Node C := ⟨next, (y.keys.drop t).take (t - 1), (y.children.drop t).take t⟩
    let y' : Node C := { y with keys := y.keys.take (t - 1), children := y.children.take t }
    { x with
      keys := x.keys.take i ++ y.keys.getD (t - 1) 0 :: x.keys.drop i
      children := x.children.take i ++ y' :: z :: x.children.drop (i + 1) }

/-- The loop of `btree_insert_nonfull`, from the index `i - 1` downwards: the place behind the last
key that is not larger. -/
def place (keys : List ℤ) (k : ℤ) : ℕ → ℕ
  | 0 => 0
  | i + 1 => if keys.getD i 0 > k then place keys k i else i + 1

/-- The call for the child `i`. -/
def atChild {D : Type} (f : D → ℕ → D × ℕ) (x : Node D) (i next : ℕ) : Node D × ℕ :=
  match x.children[i]? with
  | none => (x, next)
  | some c => ({ x with children := x.children.set i (f c next).1 }, (f c next).2)

/-- The step of `btree_insert_nonfull` before it goes down: a full child is split, and the child
into which the key goes is chosen. -/
def makeRoom (t : ℕ) (x : Node (Node C)) (k : ℤ) (next : ℕ) : Node (Node C) × ℕ × ℕ :=
  let i := place x.keys k x.keys.length
  match x.children[i]? with
  | none => (x, i, next)
  | some child =>
    if child.keys.length = 2 * t - 1 then
      let x' := splitChild t x i next
      (x', if k > x'.keys.getD i 0 then i + 1 else i, next + 1)
    else (x, i, next)

/-- `btree_insert_nonfull`; a new node is named by `next`. -/
def insertNonfull (t : ℕ) : (height : ℕ) → Tree height → ℤ → ℕ → Tree height × ℕ
  | 0, x, k, next =>
    let i := place x.keys k x.keys.length
    ({ x with keys := x.keys.take i ++ k :: x.keys.drop i }, next)
  | height + 1, x, k, next =>
    let room := makeRoom t x k next
    atChild (fun c next => insertNonfull t height c k next) room.1 room.2.1 room.2.2

/-- The tree of a height, and the name of the next new node. -/
structure BTree where
  height : ℕ
  root : Tree height
  next : ℕ

/-- `btree_create`. -/
def create : BTree := ⟨0, ⟨0, [], []⟩, 1⟩

/-- `btree_insert`. -/
def insert (t : ℕ) (T : BTree) (key : ℤ) : BTree :=
  if T.root.keys.length = 2 * t - 1 then
    let node : Tree (T.height + 1) := splitChild t ⟨T.next, [], [T.root]⟩ 0 (T.next + 1)
    let i := if node.keys.getD 0 0 < key then 1 else 0
    let out := atChild (fun c next => insertNonfull t T.height c key next) node i (T.next + 2)
    ⟨T.height + 1, out.1, out.2⟩
  else
    let out := insertNonfull t T.height T.root key T.next
    ⟨T.height, out.1, out.2⟩

/-! ## What a tree holds, and its shape -/

/-- The keys of a node in order, when those of its children are given by `g`. -/
def nodeSequence (g : C → List ℤ) (x : Node C) : List ℤ := interleave (x.children.map g) x.keys

/-- The keys of a child in order. -/
def sequence : (height : ℕ) → Children height → List ℤ
  | 0, c => nomatch (c : Empty)
  | height + 1, x => nodeSequence (sequence height) x

/-- The keys of a tree in order. -/
def inorder (x : Tree height) : List ℤ := nodeSequence (sequence height) x

/-- A node has no children, or one more of them than keys. -/
def Arity (x : Node C) : Prop := x.children = [] ∨ x.children.length = x.keys.length + 1

/-- A child has at least `m` and at most `2t - 1` keys, its children at least `t - 1`, and if it has
children there is one more of them than keys. -/
def SizedChild (t : ℕ) : (height : ℕ) → ℕ → Children height → Prop
  | 0, _, c => nomatch (c : Empty)
  | height + 1, m, x =>
    let x : Tree height := x
    (m ≤ x.keys.length ∧ x.keys.length ≤ 2 * t - 1) ∧
      (height = 0 ∨ x.children.length = x.keys.length + 1) ∧
      ∀ c ∈ x.children, SizedChild t height (t - 1) c

/-- The shape of a tree whose first node has at least `m` keys. -/
structure Sized (t m : ℕ) (x : Tree height) : Prop where
  least : m ≤ x.keys.length
  most : x.keys.length ≤ 2 * t - 1
  arity : height = 0 ∨ x.children.length = x.keys.length + 1
  children : ∀ c ∈ x.children, SizedChild t height (t - 1) c

theorem sizedChild_iff {x : Tree height} : SizedChild t (height + 1) m x ↔ Sized t m x := by
  constructor
  · intro h
    exact ⟨h.1.1, h.1.2, h.2.1, h.2.2⟩
  · intro h
    exact ⟨⟨h.least, h.most⟩, h.arity, h.children⟩

theorem Sized.mono {x : Tree height} {n : ℕ} (h : Sized t m x) (hn : n ≤ x.keys.length) :
    Sized t n x :=
  ⟨hn, h.most, h.arity, h.children⟩

/-- The shape of a node whose children are trees. -/
structure SizedInner (t m : ℕ) (x : Node (Tree height)) : Prop where
  least : m ≤ x.keys.length
  most : x.keys.length ≤ 2 * t - 1
  arity : x.children.length = x.keys.length + 1
  children : ∀ c ∈ x.children, Sized t (t - 1) c

theorem sized_succ_iff {x : Node (Tree height)} :
    @Sized (height + 1) t m x ↔ SizedInner t m x := by
  constructor
  · intro h
    exact ⟨h.least, h.most, h.arity.resolve_left (Nat.succ_ne_zero height),
      fun c hc => sizedChild_iff.mp (h.children c hc)⟩
  · intro h
    exact ⟨h.least, h.most, .inr h.arity, fun c hc => sizedChild_iff.mpr (h.children c hc)⟩

/-- A leaf has no children. -/
theorem children_leaf (x : Tree 0) : x.children = [] := by
  cases h : x.children with
  | nil => rfl
  | cons c rest => exact nomatch (c : Empty)

theorem inorder_leaf (x : Tree 0) : inorder x = x.keys := by
  rw [inorder, nodeSequence, children_leaf]
  rfl

theorem Sized.node_arity {x : Tree height} (h : Sized t m x) : Arity x := by
  obtain rfl | harity := h.arity
  · exact .inl (children_leaf x)
  · exact .inr harity

/-! ## The place of a key -/

theorem place_le (keys : List ℤ) (k : ℤ) (i : ℕ) : place keys k i ≤ i := by
  induction i with
  | zero => exact le_rfl
  | succ i ih =>
    unfold place
    split <;> omega

/-- The key before the place is not larger. -/
theorem place_before (keys : List ℤ) (k : ℤ) (i : ℕ) (hi : i ≤ keys.length) :
    ∀ q ∈ (keys.take (place keys k i)).getLast?, q ≤ k := by
  induction i with
  | zero => simp [place]
  | succ i ih =>
    unfold place
    split
    · exact ih (by omega)
    · rename_i hle
      intro q hq
      rw [List.take_add_one, List.getElem?_eq_getElem (by omega)] at hq
      rw [List.getD_eq_getElem _ _ (by omega)] at hle
      simp only [Option.toList_some, List.getLast?_concat, Option.mem_def, Option.some.injEq] at hq
      rw [← hq]
      exact not_lt.mp hle

/-- The key behind the place is larger, if all keys from the start on are. -/
theorem place_behind (keys : List ℤ) (k : ℤ) (i : ℕ) (hi : i ≤ keys.length)
    (hrest : ∀ q ∈ (keys.drop i).head?, k ≤ q) :
    ∀ q ∈ (keys.drop (place keys k i)).head?, k ≤ q := by
  induction i with
  | zero => exact hrest
  | succ i ih =>
    unfold place
    split
    · rename_i hlarger
      apply ih (by omega)
      intro q hq
      rw [List.head?_drop, List.getElem?_eq_getElem (by omega)] at hq
      rw [List.getD_eq_getElem _ _ (by omega)] at hlarger
      rw [← Option.some.inj hq]
      exact le_of_lt hlarger
    · exact hrest

end CServer.Btree
