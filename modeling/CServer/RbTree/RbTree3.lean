import CServer.RbTree.Contents

/-!
# The red-black tree of rb_tree3.cpp

The tree hangs below a header node `T`: the root is `T->parent`, and the parent of the root is
`T`. A null pointer is the address 0, at which nothing is ever allocated. `T` comes from
`rb_init` and is not null, so the tests for a null header are left out. The functions that come
in a left and a right version have the side as an argument. Where the cases of a rebalancing
start again at the first one with a node further up, that is an argument of the case.
-/
namespace CServer.RbTree3

open RedBlack Contents

def null : Addr := 0

/-- The side on which the functions look for `node`. -/
def sideOf (node : Addr) (p : Node Entry) : Side := if node = p.left then .left else .right

/-- The other child of `p`, where the functions look for a sibling or an uncle. -/
def siblingOf (node : Addr) (p : Node Entry) : Addr := if node = p.left then p.right else p.left

/-- The pointer to `node` becomes one to `child`; the header points to the root. -/
def replaceChild (T node parent child : Addr) (heap : Heap Entry) : Except Fault (Heap Entry) :=
  if parent = T then heap.setParent T child
  else do
    let p ← heap.node parent
    heap.setChild parent (sideOf node p) child

/-- `rb_left_rotate` and `rb_right_rotate`, which differ in the side to which `x` goes. -/
def rbRotate (s : Side) (T x : Addr) (heap : Heap Entry) : Except Fault (Heap Entry) :=
  if x = null then .ok heap
  else do
    let n ← heap.node x
    let y := n.child s.other
    if y = null then .ok heap
    else do
      let u ← heap.node y
      let heap ← heap.setChild x s.other (u.child s)
      let heap ← heap.adopt null (u.child s) x
      let heap ← heap.setParent y n.parent
      let heap ← replaceChild T x n.parent y heap
      let heap ← heap.setChild y s x
      heap.setParent x y

/-! ## Searching -/

/-- The loop of `rb_search_aux` from `result` on. -/
def rbSearchAux (heap : Heap Entry) (key : ℤ) : ℕ → Addr → Except Fault Addr
  | 0, _ => .error .endless
  | turns + 1, result =>
    if result = null then .ok null
    else do
      let n ← heap.node result
      if key < n.value.key then rbSearchAux heap key turns n.left
      else if key > n.value.key then rbSearchAux heap key turns n.right
      else .ok result

/-- `rb_search`. -/
def rbSearch (turns : ℕ) (T : Addr) (key : ℤ) (heap : Heap Entry) : Except Fault Addr := do
  let header ← heap.node T
  rbSearchAux heap key turns header.parent

/-! ## Insertion -/

/-- `n->parent`. -/
def parent (heap : Heap Entry) (n : Addr) : Except Fault Addr := do
  let node ← heap.node n
  .ok node.parent

/-- `grandparent`. -/
def grandparent (heap : Heap Entry) (n : Addr) : Except Fault Addr := do
  let p ← parent heap n
  parent heap p

/-- `uncle`. -/
def uncle (heap : Heap Entry) (n : Addr) : Except Fault Addr := do
  let p ← parent heap n
  let gp ← parent heap p
  let g ← heap.node gp
  .ok (siblingOf p g)

/-- `insert_case5`. -/
def insertCase5 (T n : Addr) (heap : Heap Entry) : Except Fault (Heap Entry) := do
  let p ← parent heap n
  let heap ← heap.setColor p .black
  let gp ← grandparent heap n
  let heap ← heap.setColor gp .red
  let pn ← heap.node p
  let g ← heap.node gp
  if n = pn.left ∧ p = g.left then rbRotate .right T gp heap else rbRotate .left T gp heap

/-- `insert_case4`. -/
def insertCase4 (T n : Addr) (heap : Heap Entry) : Except Fault (Heap Entry) := do
  let p ← parent heap n
  let gp ← grandparent heap n
  let pn ← heap.node p
  let g ← heap.node gp
  if n = pn.right ∧ p = g.left then do
    let heap ← rbRotate .left T p heap
    let node ← heap.node n
    insertCase5 T node.left heap
  else if n = pn.left ∧ p = g.right then do
    let heap ← rbRotate .right T p heap
    let node ← heap.node n
    insertCase5 T node.right heap
  else insertCase5 T n heap

/-- `insert_case3`. -/
def insertCase3 (insertCase1 : Addr → Heap Entry → Except Fault (Heap Entry)) (T n : Addr)
    (heap : Heap Entry) : Except Fault (Heap Entry) := do
  let u ← uncle heap n
  let uncleRed ← heap.isRed null u
  if uncleRed then do
    let p ← parent heap n
    let heap ← heap.setColor p .black
    let u ← uncle heap n
    let heap ← heap.setColor u .black
    let gp ← grandparent heap n
    let heap ← heap.setColor gp .red
    insertCase1 gp heap
  else insertCase4 T n heap

/-- `insert_case2`. -/
def insertCase2 (insertCase1 : Addr → Heap Entry → Except Fault (Heap Entry)) (T n : Addr)
    (heap : Heap Entry) : Except Fault (Heap Entry) := do
  let p ← parent heap n
  let pn ← heap.node p
  if pn.color = .black then .ok heap else insertCase3 insertCase1 T n heap

/-- `insert_case1`, which is `rb_insert_fixup`. -/
def insertCase1 (T : Addr) : ℕ → Addr → Heap Entry → Except Fault (Heap Entry)
  | 0, _, _ => .error .endless
  | turns + 1, n, heap => do
    let p ← parent heap n
    if p = T then heap.setColor n .black else insertCase2 (insertCase1 T turns) T n heap

/-- The walk of `rb_insert` to the last node on the way, from `x` below `y`. -/
def insertWalk (heap : Heap Entry) (key : ℤ) : ℕ → Addr → Addr → Except Fault Addr
  | 0, _, _ => .error .endless
  | turns + 1, y, x =>
    if x = null then .ok y
    else do
      let n ← heap.node x
      if key < n.value.key then insertWalk heap key turns x n.left
      else insertWalk heap key turns x n.right

/-- The new node `z` is linked to the last one on the way. -/
def link (T y z : Addr) (key : ℤ) (heap : Heap Entry) : Except Fault (Heap Entry) :=
  if y = T then heap.setParent T z
  else do
    let n ← heap.node y
    heap.setChild y (if key < n.value.key then .left else .right) z

/-- `rb_insert` after the search has not found the key. -/
def insertNew (turns : ℕ) (T : Addr) (key data : ℤ) (z : Addr) (heap : Heap Entry) :
    Except Fault (Addr × Heap Entry) := do
  let header ← heap.node T
  let y ← insertWalk heap key turns T header.parent
  let heap ← link T y z key (heap.alloc z ⟨null, null, y, .red, ⟨key, data⟩⟩)
  let heap ← insertCase1 T turns z heap
  .ok (z, heap)

/-- `rb_insert`, where `rb_new_node` returns `z`: the node that it returns, and the memory. -/
def rbInsert (turns : ℕ) (T : Addr) (key data : ℤ) (z : Addr) (heap : Heap Entry) :
    Except Fault (Addr × Heap Entry) := do
  let found ← rbSearch turns T key heap
  if found ≠ null then .ok (found, heap) else insertNew turns T key data z heap

/-! ## Deletion -/

/-- `delete_case6`. -/
def deleteCase6 (T parent n : Addr) (heap : Heap Entry) : Except Fault (Heap Entry) := do
  let p ← heap.node parent
  let s := siblingOf n p
  let heap ← heap.setColor s p.color
  let heap ← heap.setColor parent .black
  let p ← heap.node parent
  let sn ← heap.node s
  let heap ← heap.setColor (sn.child (sideOf n p).other) .black
  rbRotate (sideOf n p) T parent heap

/-- The rotation of `delete_case5` below a black sibling `s`. -/
def deleteCase5Rotation (T parent n s : Addr) (heap : Heap Entry) : Except Fault (Heap Entry) := do
  let p ← heap.node parent
  let sn ← heap.node s
  let leftRed ← heap.isRed null sn.left
  let rightRed ← heap.isRed null sn.right
  if n = p.left ∧ leftRed ∧ ¬rightRed then do
    let heap ← heap.setColor sn.left .black
    let heap ← heap.setColor s .red
    rbRotate .right T s heap
  else if n = p.right ∧ ¬leftRed then do
    -- here the null test is missing
    let right ← heap.node sn.right
    if right.color = .red then do
      let heap ← heap.setColor sn.right .black
      let heap ← heap.setColor s .red
      rbRotate .left T s heap
    else .ok heap
  else .ok heap

/-- `delete_case5`. -/
def deleteCase5 (T parent n : Addr) (heap : Heap Entry) : Except Fault (Heap Entry) := do
  let p ← heap.node parent
  let sn ← heap.node (siblingOf n p)
  let heap ← if sn.color = .black then deleteCase5Rotation T parent n (siblingOf n p) heap
    else .ok heap
  deleteCase6 T parent n heap

/-- Whether `delete_case3` and `delete_case4` find a parent of the colour `c` and a black
sibling without red children. -/
def allBlack (c : Color) (parent n : Addr) (heap : Heap Entry) : Except Fault Bool := do
  let p ← heap.node parent
  let sn ← heap.node (siblingOf n p)
  let leftRed ← heap.isRed null sn.left
  let rightRed ← heap.isRed null sn.right
  .ok (p.color = c ∧ sn.color = .black ∧ ¬leftRed ∧ ¬rightRed)

/-- `delete_case4`. -/
def deleteCase4 (T parent n : Addr) (heap : Heap Entry) : Except Fault (Heap Entry) := do
  let black ← allBlack .red parent n heap
  if black then do
    let p ← heap.node parent
    let heap ← heap.setColor (siblingOf n p) .red
    heap.setColor parent .black
  else deleteCase5 T parent n heap

/-- `delete_case3`. -/
def deleteCase3 (deleteCase1 : Addr → Addr → Heap Entry → Except Fault (Heap Entry))
    (T parent n : Addr) (heap : Heap Entry) : Except Fault (Heap Entry) := do
  let black ← allBlack .black parent n heap
  if black then do
    let p ← heap.node parent
    let heap ← heap.setColor (siblingOf n p) .red
    let p ← heap.node parent
    deleteCase1 p.parent parent heap
  else deleteCase4 T parent n heap

/-- `delete_case2`. -/
def deleteCase2 (deleteCase1 : Addr → Addr → Heap Entry → Except Fault (Heap Entry))
    (T parent n : Addr) (heap : Heap Entry) : Except Fault (Heap Entry) :=
  if n = null then deleteCase3 deleteCase1 T parent n heap
  else do
    let nn ← heap.node n
    let p ← heap.node nn.parent
    let s := siblingOf n p
    let sn ← heap.node s
    if sn.color = .red then do
      let heap ← heap.setColor nn.parent .red
      let heap ← heap.setColor s .black
      let heap ← rbRotate (sideOf n p) T nn.parent heap
      deleteCase3 deleteCase1 T parent n heap
    else deleteCase3 deleteCase1 T parent n heap

/-- `delete_case1`. -/
def deleteCase1 (T : Addr) : ℕ → Addr → Addr → Heap Entry → Except Fault (Heap Entry)
  | 0, _, _, _ => .error .endless
  | turns + 1, parent, n, heap =>
    if parent ≠ T then deleteCase2 (deleteCase1 T turns) T parent n heap else .ok heap

/-- `delete_one_child`, which is `rb_delete_fixup`. -/
def deleteOneChild (turns : ℕ) (T parent n : Addr) (heap : Heap Entry) :
    Except Fault (Heap Entry) := do
  let nRed ← heap.isRed null n
  if nRed then heap.setColor n .black else deleteCase1 T turns parent n heap

/-- The first loop of `rb_successor`. -/
def successorDown (heap : Heap Entry) : ℕ → Addr → Except Fault Addr
  | 0, _ => .error .endless
  | turns + 1, result =>
    if result = null then .ok null
    else do
      let n ← heap.node result
      if n.left ≠ null then successorDown heap turns n.left else .ok result

/-- The second loop of `rb_successor`. -/
def successorUp (T : Addr) (heap : Heap Entry) : ℕ → Addr → Addr → Except Fault Addr
  | 0, _, _ => .error .endless
  | turns + 1, node, parent =>
    if parent = T then .ok parent
    else do
      let p ← heap.node parent
      if node = p.right then successorUp T heap turns parent p.parent else .ok parent

/-- `rb_successor`. -/
def rbSuccessor (turns : ℕ) (T node : Addr) (heap : Heap Entry) : Except Fault Addr :=
  if node = null then .ok null
  else do
    let n ← heap.node node
    let result ← successorDown heap turns n.right
    if result = null then successorUp T heap turns node n.parent else .ok result

/-- The links around `y`, which has no child but `x`, pass it by. -/
def unlink (T y x parent : Addr) (heap : Heap Entry) : Except Fault (Heap Entry) := do
  let heap ← heap.adopt null x parent
  replaceChild T y parent x heap

/-- The node that `rb_delete` takes out for `z`. -/
def nodeToUnlink (turns : ℕ) (T z : Addr) (zn : Node Entry) (heap : Heap Entry) :
    Except Fault Addr :=
  if zn.left = null ∨ zn.right = null then .ok z else rbSuccessor turns T z heap

/-- The only child of the node that is taken out. -/
def onlyChild (yn : Node Entry) : Addr := if yn.left ≠ null then yn.left else yn.right

/-- `z` gets the key and the data of `y`. -/
def copyEntry (y z : Addr) (v : Entry) (heap : Heap Entry) : Except Fault (Heap Entry) :=
  if y ≠ z then heap.setValue z v else .ok heap

/-- The rebalancing at the end of `rb_delete`, where the node taken out had the colour `color`. -/
def deleteFixup (turns : ℕ) (T : Addr) (color : Color) (parent x : Addr) (heap : Heap Entry) :
    Except Fault (Heap Entry) :=
  if color = .black then deleteOneChild turns T parent x heap else .ok heap

/-- `rb_delete` after the search. -/
def deleteNode (turns : ℕ) (T z : Addr) (heap : Heap Entry) : Except Fault (Heap Entry) := do
  let zn ← heap.node z
  let y ← nodeToUnlink turns T z zn heap
  let yn ← heap.node y
  let heap ← unlink T y (onlyChild yn) yn.parent heap
  let heap ← copyEntry y z yn.value heap
  let heap ← deleteFixup turns T yn.color yn.parent (onlyChild yn) heap
  .ok (heap.free y)

/-- `rb_delete`: what it returns, and the memory. -/
def rbDelete (turns : ℕ) (T : Addr) (key : ℤ) (heap : Heap Entry) :
    Except Fault (Addr × Heap Entry) := do
  let z ← rbSearch turns T key heap
  if z = null then .ok (null, heap)
  else do
    let heap ← deleteNode turns T z heap
    .ok (T, heap)

end CServer.RbTree3
