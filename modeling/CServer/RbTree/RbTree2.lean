import CServer.RbTree.RbTree1

/-!
# The red-black tree of rb_tree2.cpp

The pointers to nothing lead to a sentinel, `null_tree_node`, which is the argument `nil`. It is
a node: its colour is read where a child is missing, `rb_delete` keeps the parent of a missing
child in it, and what replaces the root is written to its three pointers. `malloc` gives any
address that is not allocated. The functions that come in a left and a right version have the
side as an argument; the root that they return is that of the tree that they return. The
subtraction of keys is that of rb_tree.cpp, and `rb_search` passes no `save`.
-/
namespace CServer.RbTree2

open RedBlack Contents
open RbTree1 (intSub)

/-- The memory and the root that the functions pass around. -/
structure RbTree where
  heap : Heap Entry
  root : Addr

/-- `rb_init`; the key and the data of the sentinel are not initialised. -/
def rbInit (nil : Addr) (uninitialised : Entry) : RbTree :=
  ⟨Function.update (fun _ => none) nil (some ⟨nil, nil, nil, .black, uninitialised⟩), nil⟩

/-- The link from `parent` to `node` becomes one to `child`. Without a parent `child` is the
root, and the pointers of the sentinel lead to it. -/
def replaceChild (nil node parent child : Addr) (t : RbTree) : Except Fault RbTree :=
  if parent = nil then do
    let heap ← t.heap.modify nil (fun n => { n with left := child, right := child, parent := child })
    .ok ⟨heap, child⟩
  else do
    let p ← t.heap.node parent
    let heap ← t.heap.setChild parent (if node = p.left then .left else .right) child
    .ok ⟨heap, t.root⟩

/-- `rb_left_rotate` and `rb_right_rotate`, which differ in the side to which `x` goes. Where
nothing can come up they return the sentinel for the root. -/
def rbRotate (s : Side) (nil x : Addr) (t : RbTree) : Except Fault RbTree := do
  let n ← t.heap.node x
  let y := n.child s.other
  if y = nil then .ok ⟨t.heap, nil⟩
  else do
    let u ← t.heap.node y
    let heap ← t.heap.setChild x s.other (u.child s)
    let heap ← heap.adopt nil (u.child s) x
    let heap ← heap.setParent y n.parent
    let t ← replaceChild nil x n.parent y ⟨heap, t.root⟩
    let heap ← t.heap.setParent x y
    let heap ← heap.setChild y s x
    .ok ⟨heap, t.root⟩

/-! ## Searching -/

/-- `rb_search_auxiliary`. -/
def rbSearchAuxiliary (nil : Addr) (heap : Heap Entry) (key : ℤ) : ℕ → Addr → Except Fault Addr
  | 0, _ => .error .endless
  | turns + 1, node =>
    if node = nil then .ok nil
    else do
      let n ← heap.node node
      let ret ← intSub n.value.key key
      if 0 < ret then rbSearchAuxiliary nil heap key turns n.left
      else if ret < 0 then rbSearchAuxiliary nil heap key turns n.right
      else .ok node

/-- `rb_search`. -/
def rbSearch (turns : ℕ) (nil : Addr) (key : ℤ) (t : RbTree) : Except Fault Addr :=
  rbSearchAuxiliary nil t.heap key turns t.root

/-! ## Insertion -/

/-- The end of a turn of `rb_insert_fixup`: cases 2 and 3 after the rotation below. -/
def insertRaising (s : Side) (nil z : Addr) (t : RbTree) : Except Fault (Addr × RbTree) := do
  let n ← t.heap.node z
  let heap ← t.heap.setColor n.parent .black
  let p ← heap.node n.parent
  let heap ← heap.setColor p.parent .red
  let t ← rbRotate s.other nil p.parent ⟨heap, t.root⟩
  .ok (z, t)

/-- A turn of the loop of `rb_insert_fixup` where the parent of `z` is on side `s`: the next
`z`, and the tree. -/
def insertTurn (s : Side) (nil z : Addr) (t : RbTree) : Except Fault (Addr × RbTree) := do
  let n ← t.heap.node z
  let p ← t.heap.node n.parent
  let g ← t.heap.node p.parent
  let y := g.child s.other
  let u ← t.heap.node y
  if u.color = .red then do
    let heap ← t.heap.setColor y .black
    let heap ← heap.setColor n.parent .black
    let heap ← heap.setColor p.parent .red
    .ok (p.parent, ⟨heap, t.root⟩)
  else if z = p.child s.other then do
    let t ← rbRotate s nil n.parent t
    insertRaising s nil n.parent t
  else insertRaising s nil z t

/-- `rb_insert_fixup`. -/
def rbInsertFixup (nil : Addr) : ℕ → Addr → RbTree → Except Fault RbTree
  | 0, _, _ => .error .endless
  | turns + 1, z, t => do
    let n ← t.heap.node z
    let p ← t.heap.node n.parent
    if p.color = .red then do
      let g ← t.heap.node p.parent
      if n.parent = g.left then do
        let next ← insertTurn .left nil z t
        rbInsertFixup nil turns next.1 next.2
      else if n.parent = g.right then do
        let next ← insertTurn .right nil z t
        rbInsertFixup nil turns next.1 next.2
      else rbInsertFixup nil turns z t
    else do
      let heap ← t.heap.setColor t.root .black
      .ok ⟨heap, t.root⟩

/-- The walk of `rb_insert` to the last node on the way, from `x` below `y`. -/
def insertWalk (nil : Addr) (heap : Heap Entry) (key : ℤ) : ℕ → Addr → Addr → Except Fault Addr
  | 0, _, _ => .error .endless
  | turns + 1, y, x =>
    if x = nil then .ok y
    else do
      let n ← heap.node x
      if key < n.value.key then insertWalk nil heap key turns x n.left
      else insertWalk nil heap key turns x n.right

/-- The new node `z` is linked to the last one on the way, or becomes the root. -/
def link (nil y z : Addr) (key : ℤ) (t : RbTree) : Except Fault RbTree :=
  if y = nil then .ok ⟨t.heap, z⟩
  else do
    let n ← t.heap.node y
    let heap ← t.heap.setChild y (if key < n.value.key then .left else .right) z
    .ok ⟨heap, t.root⟩

/-- `rb_insert` after the search has not found the key. -/
def insertNew (turns : ℕ) (nil : Addr) (key data : ℤ) (z : Addr) (t : RbTree) :
    Except Fault RbTree := do
  let y ← insertWalk nil t.heap key turns nil t.root
  let t ← link nil y z key ⟨t.heap.alloc z ⟨nil, nil, y, .red, ⟨key, data⟩⟩, t.root⟩
  rbInsertFixup nil turns z t

/-- `rb_insert`, where `rb_new_node` returns `z`. -/
def rbInsert (turns : ℕ) (nil : Addr) (key data : ℤ) (z : Addr) (t : RbTree) :
    Except Fault RbTree := do
  let found ← rbSearch turns nil key t
  if found ≠ nil then .ok t else insertNew turns nil key data z t

/-! ## Deletion -/

/-- The end of a turn of `rb_delete_fixup` where the child of `w` away from `x` is red: the loop
goes on at the root, where it ends. -/
def deleteSettling (s : Side) (nil x w : Addr) (t : RbTree) : Except Fault (Addr × RbTree) := do
  let n ← t.heap.node x
  let p ← t.heap.node n.parent
  let heap ← t.heap.setColor w p.color
  let heap ← heap.setColor n.parent .black
  let wn ← heap.node w
  let heap ← heap.setColor (wn.child s.other) .black
  let t ← rbRotate s nil n.parent ⟨heap, t.root⟩
  .ok (t.root, t)

/-- The part of a turn of `rb_delete_fixup` after `w` is found to be black. -/
def deleteBlackTurn (s : Side) (nil x w : Addr) (t : RbTree) : Except Fault (Addr × RbTree) := do
  let wn ← t.heap.node w
  let near ← t.heap.node (wn.child s)
  let far ← t.heap.node (wn.child s.other)
  if near.color = .black ∧ far.color = .black then do
    let heap ← t.heap.setColor w .red
    let n ← heap.node x
    .ok (n.parent, ⟨heap, t.root⟩)
  else if far.color = .black then do
    let heap ← t.heap.setColor (wn.child s) .black
    let heap ← heap.setColor w .red
    let t ← rbRotate s.other nil w ⟨heap, t.root⟩
    let n ← t.heap.node x
    let p ← t.heap.node n.parent
    deleteSettling s nil x (p.child s.other) t
  else deleteSettling s nil x w t

/-- A turn of the loop of `rb_delete_fixup` where `x` is the child of its parent on side `s`: the
next `x`, and the tree. -/
def deleteTurn (s : Side) (nil x : Addr) (t : RbTree) : Except Fault (Addr × RbTree) := do
  let n ← t.heap.node x
  let p ← t.heap.node n.parent
  let w := p.child s.other
  let wn ← t.heap.node w
  if wn.color = .red then do
    let heap ← t.heap.setColor w .black
    let heap ← heap.setColor n.parent .red
    let t ← rbRotate s nil n.parent ⟨heap, t.root⟩
    let n ← t.heap.node x
    let p ← t.heap.node n.parent
    deleteBlackTurn s nil x (p.child s.other) t
  else deleteBlackTurn s nil x w t

/-- `rb_delete_fixup`. -/
def rbDeleteFixup (nil : Addr) : ℕ → Addr → RbTree → Except Fault RbTree
  | 0, _, _ => .error .endless
  | turns + 1, x, t => do
    let n ← t.heap.node x
    if x ≠ t.root ∧ n.color = .black then do
      let p ← t.heap.node n.parent
      let next ← deleteTurn (if x = p.left then .left else .right) nil x t
      rbDeleteFixup nil turns next.1 next.2
    else do
      let heap ← t.heap.setColor x .black
      .ok ⟨heap, t.root⟩

/-- The first loop of `rb_successor`. -/
def successorDown (nil : Addr) (heap : Heap Entry) : ℕ → Addr → Except Fault Addr
  | 0, _ => .error .endless
  | turns + 1, result =>
    if result = nil then .ok nil
    else do
      let n ← heap.node result
      if n.left ≠ nil then successorDown nil heap turns n.left else .ok result

/-- The second loop of `rb_successor`. -/
def successorUp (nil : Addr) (heap : Heap Entry) : ℕ → Addr → Addr → Except Fault Addr
  | 0, _, _ => .error .endless
  | turns + 1, result, index =>
    if index = nil then .ok index
    else do
      let i ← heap.node index
      if result = i.right then successorUp nil heap turns index i.parent else .ok index

/-- `rb_successor`. -/
def rbSuccessor (turns : ℕ) (nil z : Addr) (heap : Heap Entry) : Except Fault Addr :=
  if z = nil then .ok nil
  else do
    let n ← heap.node z
    let result ← successorDown nil heap turns n.right
    if result = nil then successorUp nil heap turns z n.parent else .ok result

/-- The links around `y`, which has no child but `x`, pass it by. The sentinel gets a parent as
any other `x` does. -/
def unlink (nil y x parent : Addr) (t : RbTree) : Except Fault RbTree := do
  let heap ← t.heap.setParent x parent
  replaceChild nil y parent x ⟨heap, t.root⟩

/-- The node that `rb_delete` takes out for `z`. -/
def nodeToUnlink (turns : ℕ) (nil z : Addr) (zn : Node Entry) (heap : Heap Entry) :
    Except Fault Addr :=
  if zn.left = nil ∨ zn.right = nil then .ok z else rbSuccessor turns nil z heap

/-- The only child of the node that is taken out. -/
def onlyChild (nil : Addr) (yn : Node Entry) : Addr := if yn.left ≠ nil then yn.left else yn.right

/-- `z` gets the key and the data of `y`. -/
def copyEntry (y z : Addr) (v : Entry) (heap : Heap Entry) : Except Fault (Heap Entry) :=
  if y ≠ z then heap.setValue z v else .ok heap

/-- The rebalancing at the end of `rb_delete`, where the node taken out had the colour `color`.
The root that `rb_delete_fixup` returns is not used. -/
def deleteRebalancing (turns : ℕ) (nil : Addr) (color : Color) (x : Addr) (t : RbTree) :
    Except Fault RbTree :=
  if color = .black then do
    let fixed ← rbDeleteFixup nil turns x t
    .ok ⟨fixed.heap, t.root⟩
  else .ok t

/-- `rb_delete` after the search. -/
def deleteNode (turns : ℕ) (nil z : Addr) (t : RbTree) : Except Fault RbTree := do
  let zn ← t.heap.node z
  let y ← nodeToUnlink turns nil z zn t.heap
  let yn ← t.heap.node y
  let t ← unlink nil y (onlyChild nil yn) yn.parent t
  let heap ← copyEntry y z yn.value t.heap
  let t ← deleteRebalancing turns nil yn.color (onlyChild nil yn) ⟨heap, t.root⟩
  .ok ⟨t.heap.free y, t.root⟩

/-- `rb_delete`. -/
def rbDelete (turns : ℕ) (nil : Addr) (key : ℤ) (t : RbTree) : Except Fault RbTree := do
  let z ← rbSearch turns nil key t
  if z = nil then .ok t else deleteNode turns nil z t

end CServer.RbTree2
