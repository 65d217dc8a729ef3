import CServer.Foundation.PointerTree
import Mathlib.Data.UInt

/-!
# The red-black tree of rbtree.c

The pointers to nothing lead to a sentinel, which is the argument `nil`: its colour is read where a
child is missing, and `ngx_rbtree_delete` keeps the parent of a missing child in it. The root may
keep a pointer to a node that is not there any more for its parent; the functions compare a node
with the root before they go to its parent. The functions that come in a left and a right version
have the side as an argument. A node carries what `rbt-timer.c` has around it, and the deadline of
the timer that the key is the low half of; no function reads the deadline.
-/
namespace CServer.RbtTimer

open RedBlack

/-- The key of a node, the handler behind it in `timer_entry_s`, and the deadline. -/
structure TimerEntry where
  key : UInt32
  handler : ℕ
  deadline : ℕ
  deriving DecidableEq

def null : Addr := 0

/-- `ngx_rbtree_t` with the memory. -/
structure Tree where
  heap : Heap TimerEntry
  root : Addr

/-- `ngx_rbtree_init`; the other fields of the static sentinel are null. -/
def ngxRbtreeInit (nil : Addr) : Tree :=
  ⟨Function.update (fun _ => none) nil (some ⟨null, null, null, .black, ⟨0, 0, 0⟩⟩), nil⟩

/-- `ngx_rbtree_min`. -/
def ngxRbtreeMin (nil : Addr) (heap : Heap TimerEntry) : ℕ → Addr → Except Fault Addr
  | 0, _ => .error .endless
  | turns + 1, node => do
    let n ← heap.node node
    if n.left ≠ nil then ngxRbtreeMin nil heap turns n.left else .ok node

/-- What leads to `node`, the root pointer or a child of `parent`, leads to `child`. -/
def replaceChild (side : Node TimerEntry → Side) (node parent child : Addr) (t : Tree) :
    Except Fault Tree :=
  if node = t.root then .ok ⟨t.heap, child⟩
  else do
    let p ← t.heap.node parent
    let heap ← t.heap.setChild parent (side p) child
    .ok ⟨heap, t.root⟩

/-- `ngx_rbtree_left_rotate` and `ngx_rbtree_right_rotate`, which differ in the side to which
`node` goes and look for it on that side of its parent first. -/
def ngxRbtreeRotate (s : Side) (nil node : Addr) (t : Tree) : Except Fault Tree := do
  let n ← t.heap.node node
  let temp := n.child s.other
  let u ← t.heap.node temp
  let heap ← t.heap.setChild node s.other (u.child s)
  let heap ← heap.adopt nil (u.child s) node
  let heap ← heap.setParent temp n.parent
  let t ← replaceChild (fun p => if node = p.child s then s else s.other) node n.parent temp
    ⟨heap, t.root⟩
  let heap ← t.heap.setChild temp s node
  let heap ← heap.setParent node temp
  .ok ⟨heap, t.root⟩

/-! ## Insertion -/

/-- The loop of `ngx_rbtree_insert_timer_value` from `temp` on, with the comparison `less`: where the
node with the key goes. -/
def insertPlace (less : UInt32 → UInt32 → Bool) (nil : Addr) (heap : Heap TimerEntry)
    (key : UInt32) : ℕ → Addr → Except Fault (Addr × Side)
  | 0, _ => .error .endless
  | turns + 1, temp => do
    let n ← heap.node temp
    let s : Side := if less key n.value.key then .left else .right
    if n.child s = nil then .ok (temp, s) else insertPlace less nil heap key turns (n.child s)

/-- `ngx_rbtree_insert_timer_value` with the comparison `less`. -/
def insertWith (less : UInt32 → UInt32 → Bool) (turns : ℕ) (nil temp node : Addr)
    (heap : Heap TimerEntry) : Except Fault (Heap TimerEntry) := do
  let n ← heap.node node
  let place ← insertPlace less nil heap n.value.key turns temp
  let heap ← heap.setChild place.1 place.2 node
  heap.modify node (fun n => ⟨nil, nil, place.1, .red, n.value⟩)

/-- The comparison of `ngx_rbtree_insert_timer_value`: the sign of the 32-bit difference. -/
def lessTimer (a b : UInt32) : Bool := (a - b).toInt32 < 0

/-- The end of a turn of the loop of `ngx_rbtree_insert`. -/
def insertRaising (s : Side) (nil node : Addr) (t : Tree) : Except Fault (Addr × Tree) := do
  let n ← t.heap.node node
  let heap ← t.heap.setColor n.parent .black
  let p ← heap.node n.parent
  let heap ← heap.setColor p.parent .red
  let t ← ngxRbtreeRotate s.other nil p.parent ⟨heap, t.root⟩
  .ok (node, t)

/-- A turn of the loop of `ngx_rbtree_insert` where the parent of `node` is on side `s`: the next
`node`, and the tree. -/
def insertTurn (s : Side) (nil node : Addr) (t : Tree) : Except Fault (Addr × Tree) := do
  let n ← t.heap.node node
  let p ← t.heap.node n.parent
  let g ← t.heap.node p.parent
  let temp := g.child s.other
  let u ← t.heap.node temp
  if u.color = .red then do
    let heap ← t.heap.setColor n.parent .black
    let heap ← heap.setColor temp .black
    let heap ← heap.setColor p.parent .red
    .ok (p.parent, ⟨heap, t.root⟩)
  else if node = p.child s.other then do
    let t ← ngxRbtreeRotate s nil n.parent t
    insertRaising s nil n.parent t
  else insertRaising s nil node t

/-- The end of `ngx_rbtree_insert`. -/
def blackenRoot (t : Tree) : Except Fault Tree := do
  let heap ← t.heap.setColor t.root .black
  .ok ⟨heap, t.root⟩

/-- The loop of `ngx_rbtree_insert`, and its end. -/
def insertLoop (nil : Addr) : ℕ → Addr → Tree → Except Fault Tree
  | 0, _, _ => .error .endless
  | turns + 1, node, t =>
    if node = t.root then blackenRoot t
    else do
      let n ← t.heap.node node
      let p ← t.heap.node n.parent
      if p.color = .red then do
        let g ← t.heap.node p.parent
        let next ← insertTurn (if n.parent = g.left then .left else .right) nil node t
        insertLoop nil turns next.1 next.2
      else blackenRoot t

/-- `ngx_rbtree_insert`, where `tree->insert` has the comparison `less`. -/
def ngxRbtreeInsert (less : UInt32 → UInt32 → Bool) (turns : ℕ) (nil node : Addr) (t : Tree) :
    Except Fault Tree :=
  if t.root = nil then do
    let heap ← t.heap.modify node (fun n => ⟨nil, nil, null, .black, n.value⟩)
    .ok ⟨heap, node⟩
  else do
    let heap ← insertWith less turns nil t.root node t.heap
    insertLoop nil turns node ⟨heap, t.root⟩

/-! ## Deletion -/

/-- The end of a turn of the loop of `ngx_rbtree_delete` where the child of `w` away from `temp`
is red: the loop goes on at the root, where it ends. -/
def deleteSettling (s : Side) (nil temp w : Addr) (t : Tree) : Except Fault (Addr × Tree) := do
  let n ← t.heap.node temp
  let p ← t.heap.node n.parent
  let heap ← t.heap.setColor w p.color
  let heap ← heap.setColor n.parent .black
  let wn ← heap.node w
  let heap ← heap.setColor (wn.child s.other) .black
  let t ← ngxRbtreeRotate s nil n.parent ⟨heap, t.root⟩
  .ok (t.root, t)

/-- The part of a turn after `w` is found to be black. -/
def deleteBlackTurn (s : Side) (nil temp w : Addr) (t : Tree) : Except Fault (Addr × Tree) := do
  let wn ← t.heap.node w
  let near ← t.heap.node (wn.child s)
  let far ← t.heap.node (wn.child s.other)
  if near.color = .black ∧ far.color = .black then do
    let heap ← t.heap.setColor w .red
    let n ← heap.node temp
    .ok (n.parent, ⟨heap, t.root⟩)
  else if far.color = .black then do
    let heap ← t.heap.setColor (wn.child s) .black
    let heap ← heap.setColor w .red
    let t ← ngxRbtreeRotate s.other nil w ⟨heap, t.root⟩
    let n ← t.heap.node temp
    let p ← t.heap.node n.parent
    deleteSettling s nil temp (p.child s.other) t
  else deleteSettling s nil temp w t

/-- A turn of the loop of `ngx_rbtree_delete` where `temp` is the child of its parent on side `s`:
the next `temp`, and the tree. -/
def deleteTurn (s : Side) (nil temp : Addr) (t : Tree) : Except Fault (Addr × Tree) := do
  let n ← t.heap.node temp
  let p ← t.heap.node n.parent
  let w := p.child s.other
  let wn ← t.heap.node w
  if wn.color = .red then do
    let heap ← t.heap.setColor w .black
    let heap ← heap.setColor n.parent .red
    let t ← ngxRbtreeRotate s nil n.parent ⟨heap, t.root⟩
    let n ← t.heap.node temp
    let p ← t.heap.node n.parent
    deleteBlackTurn s nil temp (p.child s.other) t
  else deleteBlackTurn s nil temp w t

/-- The loop of `ngx_rbtree_delete`, and its end. -/
def deleteLoop (nil : Addr) : ℕ → Addr → Tree → Except Fault Tree
  | 0, _, _ => .error .endless
  | turns + 1, temp, t => do
    let n ← t.heap.node temp
    if temp ≠ t.root ∧ n.color = .black then do
      let p ← t.heap.node n.parent
      let next ← deleteTurn (if temp = p.left then .left else .right) nil temp t
      deleteLoop nil turns next.1 next.2
    else do
      let heap ← t.heap.setColor temp .black
      .ok ⟨heap, t.root⟩

/-- The debugging stores to the deleted node. -/
def clear (node : Addr) (heap : Heap TimerEntry) : Except Fault (Heap TimerEntry) :=
  heap.modify node (fun n => ⟨null, null, null, n.color, { n.value with key := 0 }⟩)

/-- The node that goes from its place, and what comes there. -/
def chooseSubst (turns : ℕ) (nil node : Addr) (heap : Heap TimerEntry) :
    Except Fault (Addr × Addr) := do
  let n ← heap.node node
  if n.left = nil then .ok (node, n.right)
  else if n.right = nil then .ok (node, n.left)
  else do
    let subst ← ngxRbtreeMin nil heap turns n.right
    let sn ← heap.node subst
    .ok (subst, if sn.left ≠ nil then sn.left else sn.right)

/-- `subst` takes the place of `node`. -/
def takePlace (nil node subst : Addr) (t : Tree) : Except Fault Tree := do
  let n ← t.heap.node node
  let heap ← t.heap.modify subst (fun sn => ⟨n.left, n.right, n.parent, n.color, sn.value⟩)
  let t ← replaceChild (fun p => if node = p.left then .left else .right) node n.parent subst
    ⟨heap, t.root⟩
  let heap ← t.heap.adopt nil n.left subst
  let heap ← heap.adopt nil n.right subst
  .ok ⟨heap, t.root⟩

/-- `ngx_rbtree_delete`. -/
def ngxRbtreeDelete (turns : ℕ) (nil node : Addr) (t : Tree) : Except Fault Tree := do
  let chosen ← chooseSubst turns nil node t.heap
  let subst := chosen.1
  let temp := chosen.2
  if subst = t.root then do
    let heap ← t.heap.setColor temp .black
    let heap ← clear node heap
    .ok ⟨heap, temp⟩
  else do
    let sn ← t.heap.node subst
    let p ← t.heap.node sn.parent
    let heap ← t.heap.setChild sn.parent (if subst = p.left then .left else .right) temp
    let t ← if subst = node then do
        let heap ← heap.setParent temp sn.parent
        .ok ⟨heap, t.root⟩
      else do
        let heap ← heap.setParent temp (if sn.parent = node then subst else sn.parent)
        takePlace nil node subst ⟨heap, t.root⟩
    let heap ← clear node t.heap
    if sn.color = .red then .ok ⟨heap, t.root⟩ else deleteLoop nil turns temp ⟨heap, t.root⟩

end CServer.RbtTimer
