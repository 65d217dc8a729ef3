import CServer.RbTree.Contents
import Mathlib.Algebra.Ring.Int.Defs

/-!
# The red-black tree of rb_tree.cpp

A null pointer is the address 0, at which nothing is ever allocated, and a read or write there
is a fault. The functions that come in a left and a right version have the side as an argument.
A difference of two keys that does not fit an `int` is a fault as well. `malloc` gives any
address that is not allocated.
-/
namespace CServer.RbTree1

open RedBlack Contents

def null : Addr := 0

/-- The memory and the root that the functions pass around. -/
structure RbTree where
  heap : Heap Entry
  root : Addr

/-- `a - b` of two `int`s. -/
def intSub (a b : ℤ) : Except Fault ℤ :=
  if -2 ^ 31 ≤ a - b ∧ a - b < 2 ^ 31 then .ok (a - b) else .error .overflow

/-- One child of `parent` becomes `child`; without a parent that is the root. -/
def replaceChild (side : Node Entry → Side) (parent child : Addr) (t : RbTree) :
    Except Fault RbTree :=
  if parent ≠ null then do
    let p ← t.heap.node parent
    let heap ← t.heap.setChild parent (side p) child
    .ok ⟨heap, t.root⟩
  else .ok ⟨t.heap, child⟩

/-- The child that the rotations replace. -/
def sideInRotation (node : Addr) (p : Node Entry) : Side :=
  if node = p.right then .right else .left

/-- The child that `rb_insert` makes of the new node. -/
def sideInInsert (key : ℤ) (p : Node Entry) : Side :=
  if p.value.key > key then .left else .right

/-- The child that `rb_erase` and `rb_erase_rebalance` take `node` for. -/
def sideInErase (node : Addr) (p : Node Entry) : Side :=
  if p.left = node then .left else .right

/-! ## Rotations -/

/-- `rb_rotate_left` and `rb_rotate_right`, which differ in the side to which `node` goes. -/
def rbRotate (s : Side) (node : Addr) (t : RbTree) : Except Fault RbTree := do
  let n ← t.heap.node node
  let up := n.child s.other
  let u ← t.heap.node up
  let heap ← t.heap.setChild node s.other (u.child s)
  let heap ← heap.adopt null (u.child s) node
  let heap ← heap.setChild up s node
  let heap ← heap.setParent up n.parent
  let t ← replaceChild (sideInRotation node) n.parent up ⟨heap, t.root⟩
  let heap ← t.heap.setParent node up
  .ok ⟨heap, t.root⟩

def rbRotateLeft (node : Addr) (t : RbTree) : Except Fault RbTree := rbRotate .left node t

def rbRotateRight (node : Addr) (t : RbTree) : Except Fault RbTree := rbRotate .right node t

/-! ## Insertion -/

/-- One turn of the loop of `rb_insert_rebalance` where `parent` is the child of `gparent` on
side `s`: the next `node`, and the tree. -/
def insertTurn (s : Side) (node parent gparent : Addr) (t : RbTree) :
    Except Fault (Addr × RbTree) := do
  let g ← t.heap.node gparent
  let uncle := g.child s.other
  let uncleRed ← t.heap.isRed null uncle
  if uncleRed then do
    let heap ← t.heap.setColor uncle .black
    let heap ← heap.setColor parent .black
    let heap ← heap.setColor gparent .red
    .ok (gparent, ⟨heap, t.root⟩)
  else do
    let p ← t.heap.node parent
    let inner := p.child s.other = node
    let t ← if inner then rbRotate s parent t else .ok t
    let heap ← t.heap.setColor (if inner then node else parent) .black
    let heap ← heap.setColor gparent .red
    let t ← rbRotate s.other gparent ⟨heap, t.root⟩
    .ok (if inner then parent else node, t)

/-- `rb_insert_rebalance`. -/
def rbInsertRebalance : ℕ → Addr → RbTree → Except Fault RbTree
  | 0, _, _ => .error .endless
  | turns + 1, node, t => do
    let n ← t.heap.node node
    let parent := n.parent
    let parentRed ← t.heap.isRed null parent
    if parentRed then do
      let p ← t.heap.node parent
      let g ← t.heap.node p.parent
      let next ← insertTurn (if parent = g.left then .left else .right) node parent p.parent t
      rbInsertRebalance turns next.1 next.2
    else do
      let heap ← t.heap.setColor t.root .black
      .ok ⟨heap, t.root⟩

/-- `rb_search_auxiliary`: the node, and what `*save` holds afterwards, which is null before. -/
def rbSearchAuxiliary (heap : Heap Entry) (key : ℤ) :
    ℕ → Addr → Addr → Except Fault (Addr × Addr)
  | 0, _, _ => .error .endless
  | turns + 1, node, parent =>
    if node = null then .ok (null, parent)
    else do
      let n ← heap.node node
      let ret ← intSub n.value.key key
      if 0 < ret then rbSearchAuxiliary heap key turns n.left node
      else if ret < 0 then rbSearchAuxiliary heap key turns n.right node
      else .ok (node, null)

/-- `rb_search`. -/
def rbSearch (turns : ℕ) (key : ℤ) (t : RbTree) : Except Fault Addr := do
  let found ← rbSearchAuxiliary t.heap key turns t.root null
  .ok found.1

/-- `rb_insert`, where `rb_new_node` returns `node`. -/
def rbInsert (turns : ℕ) (key data : ℤ) (node : Addr) (t : RbTree) : Except Fault RbTree := do
  let found ← rbSearchAuxiliary t.heap key turns t.root null
  if found.1 ≠ null then .ok t
  else do
    let heap := t.heap.alloc node ⟨null, null, found.2, .red, ⟨key, data⟩⟩
    let t ← replaceChild (sideInInsert key) found.2 node ⟨heap, t.root⟩
    rbInsertRebalance turns node t

/-! ## Erasing -/

/-- What a turn of the loop of `rb_erase_rebalance` leaves, and whether it ended with `break`. -/
structure Turn where
  node : Addr
  parent : Addr
  tree : RbTree
  broke : Bool

/-- The end of a turn of `rb_erase_rebalance` where the child of `other` away from `parent` is
red: it ends the loop. -/
def eraseSettling (s : Side) (parent : Addr) (t : RbTree) : Except Fault Turn := do
  let p ← t.heap.node parent
  let other := p.child s.other
  let heap ← t.heap.setColor other p.color
  let heap ← heap.setColor parent .black
  let o ← heap.node other
  let far := o.child s.other
  let heap ← if far ≠ null then heap.setColor far .black else .ok heap
  let t ← rbRotate s parent ⟨heap, t.root⟩
  .ok ⟨t.root, parent, t, true⟩

/-- The part of a turn of `rb_erase_rebalance` after `other` is found to be black. -/
def eraseBlackTurn (s : Side) (other parent : Addr) (t : RbTree) : Except Fault Turn := do
  let o ← t.heap.node other
  let near := o.child s
  let nearRed ← t.heap.isRed null near
  let farRed ← t.heap.isRed null (o.child s.other)
  if ¬ nearRed ∧ ¬ farRed then do
    let heap ← t.heap.setColor other .red
    let p ← heap.node parent
    .ok ⟨parent, p.parent, ⟨heap, t.root⟩, false⟩
  else if farRed then eraseSettling s parent t
  else do
    let heap ← if near ≠ null then t.heap.setColor near .black else .ok t.heap
    let heap ← heap.setColor other .red
    let t ← rbRotate s.other other ⟨heap, t.root⟩
    eraseSettling s parent t

/-- One turn of the loop of `rb_erase_rebalance` where `node` is the child of `parent` on side
`s`. -/
def eraseTurn (s : Side) (parent : Addr) (t : RbTree) : Except Fault Turn := do
  let p ← t.heap.node parent
  let other := p.child s.other
  let o ← t.heap.node other
  if o.color = .red then do
    let heap ← t.heap.setColor other .black
    let heap ← heap.setColor parent .red
    let t ← rbRotate s parent ⟨heap, t.root⟩
    let p ← t.heap.node parent
    eraseBlackTurn s (p.child s.other) parent t
  else eraseBlackTurn s other parent t

/-- The end of `rb_erase_rebalance`. -/
def eraseEnd (node : Addr) (t : RbTree) : Except Fault RbTree :=
  if node ≠ null then do
    let heap ← t.heap.setColor node .black
    .ok ⟨heap, t.root⟩
  else .ok t

/-- `rb_erase_rebalance`. -/
def rbEraseRebalance : ℕ → Addr → Addr → RbTree → Except Fault RbTree
  | 0, _, _, _ => .error .endless
  | turns + 1, node, parent, t => do
    let nodeRed ← t.heap.isRed null node
    if ¬ nodeRed ∧ node ≠ t.root then do
      let p ← t.heap.node parent
      let turn ← eraseTurn (sideInErase node p) parent t
      if turn.broke then eraseEnd turn.node turn.tree
      else rbEraseRebalance turns turn.node turn.parent turn.tree
    else eraseEnd node t

/-- The loop that goes to the left as far as possible. -/
def leftmost (heap : Heap Entry) : ℕ → Addr → Except Fault Addr
  | 0, _ => .error .endless
  | turns + 1, node => do
    let n ← heap.node node
    if n.left ≠ null then leftmost heap turns n.left else .ok node

/-- The links around `node`, which has no child but `child`, pass it by. -/
def unlink (node child parent : Addr) (t : RbTree) : Except Fault RbTree := do
  let heap ← t.heap.adopt null child parent
  replaceChild (sideInErase node) parent child ⟨heap, t.root⟩

/-- `node` takes the place of `old`. -/
def relocate (node old : Addr) (t : RbTree) : Except Fault RbTree := do
  let o ← t.heap.node old
  let heap ← t.heap.setParent node o.parent
  let heap ← heap.setColor node o.color
  let heap ← heap.setChild node .right o.right
  let heap ← heap.setChild node .left o.left
  let t ← replaceChild (sideInErase old) o.parent node ⟨heap, t.root⟩
  let heap ← t.heap.setParent o.left node
  let heap ← heap.adopt null o.right node
  .ok ⟨heap, t.root⟩

/-- What `rb_erase` has at its end: the tree, and what the rebalancing needs. -/
structure Erased where
  tree : RbTree
  color : Color
  child : Addr
  parent : Addr

/-- The branch of `rb_erase` for a node `old` with two children, up to `free`. -/
def eraseRelocating (turns : ℕ) (old : Addr) (t : RbTree) : Except Fault Erased := do
  let o ← t.heap.node old
  let node ← leftmost t.heap turns o.right
  let n ← t.heap.node node
  let t ← unlink node n.right n.parent t
  let t ← relocate node old t
  .ok ⟨t, n.color, n.right, if n.parent = old then node else n.parent⟩

/-- The other branch of `rb_erase`, up to `free`. -/
def eraseUnlinking (old : Addr) (t : RbTree) : Except Fault Erased := do
  let o ← t.heap.node old
  let child := if o.left = null then o.right else o.left
  let t ← unlink old child o.parent t
  .ok ⟨t, o.color, child, o.parent⟩

/-- The end of `rb_erase`. -/
def eraseRebalancing (turns : ℕ) (old : Addr) (e : Erased) : Except Fault RbTree :=
  if e.color = .black then
    rbEraseRebalance turns e.child e.parent ⟨e.tree.heap.free old, e.tree.root⟩
  else .ok ⟨e.tree.heap.free old, e.tree.root⟩

/-- `rb_erase` after the search. -/
def eraseNode (turns : ℕ) (old : Addr) (t : RbTree) : Except Fault RbTree := do
  let o ← t.heap.node old
  let e ← if o.left ≠ null ∧ o.right ≠ null then eraseRelocating turns old t
    else eraseUnlinking old t
  eraseRebalancing turns old e

/-- `rb_erase`. -/
def rbErase (turns : ℕ) (key : ℤ) (t : RbTree) : Except Fault RbTree := do
  let found ← rbSearchAuxiliary t.heap key turns t.root null
  if found.1 = null then .ok t else eraseNode turns found.1 t

end CServer.RbTree1
