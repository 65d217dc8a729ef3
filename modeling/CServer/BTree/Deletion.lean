import CServer.BTree.Insertion
import CServer.Foundation.Removal

/-!
# Deletion from a B-tree

`btree_delete_key` goes down to a leaf. Before it does, it replaces a key found in a node with
children by a neighbour in a child, or merges the two children around it; otherwise it sees to it
that the child to which it goes has a key to spare. A node that has lost its last key is released,
and the tree gets a new root.
-/
namespace CServer.Btree

open CServer.Interleave

variable {C : Type} {t m i height : ℕ} {k : ℤ}

/-- The loop of `btree_delete_key`: the place of the first key that is not smaller. -/
def position (key : ℤ) : List ℤ → ℕ
  | [] => 0
  | q :: rest => if key > q then position key rest + 1 else 0

/-- `btree_merge`: the child behind the key `idx` and the key go into the child before it. The node
is released if it has no key left; its keys are then empty. -/
def merge (t : ℕ) (x : Node (Node C)) (idx : ℕ) : Node (Node C) :=
  match x.children[idx]?, x.children[idx + 1]? with
  | some left, some right =>
    let left' : Node C := { left with
      keys := left.keys.take (t - 1) ++ x.keys.getD idx 0 :: right.keys.take (t - 1)
      children := left.children.take t ++ right.children.take t }
    { x with
      keys := x.keys.take idx ++ x.keys.drop (idx + 1)
      children := x.children.take idx ++ left' :: x.children.drop (idx + 2) }
  | _, _ => x

/-- The child `idx` takes the key behind it, and the next child gives its first key for it. -/
def borrowNext (x : Node (Node C)) (idx : ℕ) : Node (Node C) :=
  match x.children[idx]?, x.children[idx + 1]? with
  | some child, some right =>
    let child' : Node C := { child with
      keys := child.keys ++ [x.keys.getD idx 0]
      children := child.children ++ right.children.take 1 }
    let right' : Node C := { right with
      keys := right.keys.drop 1
      children := right.children.drop 1 }
    { x with
      keys := x.keys.take idx ++ right.keys.getD 0 0 :: x.keys.drop (idx + 1)
      children := x.children.take idx ++ child' :: right' :: x.children.drop (idx + 2) }
  | _, _ => x

/-- The child behind the key `idx` takes it, and the child before it gives its last key for it. -/
def borrowPrev (x : Node (Node C)) (idx : ℕ) : Node (Node C) :=
  match x.children[idx]?, x.children[idx + 1]? with
  | some left, some child =>
    let child' : Node C := { child with
      keys := x.keys.getD idx 0 :: child.keys
      children := left.children.drop left.keys.length ++ child.children }
    let left' : Node C := { left with
      keys := left.keys.take (left.keys.length - 1)
      children := left.children.take left.keys.length }
    { x with
      keys := x.keys.take idx ++ left.keys.getD (left.keys.length - 1) 0 :: x.keys.drop (idx + 1)
      children := x.children.take idx ++ left' :: child' :: x.children.drop (idx + 2) }
  | _, _ => x

/-- What is done for a child with `t - 1` keys: a sibling that has one to spare gives a key, or the
child is merged with a sibling. The result is the node and the place of the child in it. -/
def fill (t : ℕ) (x : Node (Node C)) (idx : ℕ) : Node (Node C) × ℕ :=
  let left := if 1 ≤ idx then x.children[idx - 1]? else none
  let right := if idx + 1 ≤ x.keys.length then x.children[idx + 1]? else none
  let rich (sibling : Option (Node C)) : Bool := sibling.any fun s => t ≤ s.keys.length
  let poor (sibling : Option (Node C)) : Bool := sibling.all fun s => s.keys.length = t - 1
  let richR : Bool := match left, right with
    | _, none => false
    | none, some _ => true
    | some l, some r => r.keys.length > l.keys.length
  if rich left || rich right then
    if rich right && richR then (borrowNext x idx, idx) else (borrowPrev x (idx - 1), idx)
  else if poor left && poor right then
    if left.isSome then (merge t x (idx - 1), idx - 1)
    else if right.isSome then (merge t x idx, idx)
    else (x, idx)
  else (x, idx)

/-- How a call goes on in a node with children: it has read a node that was released, it ends, or
it goes to the child `i` of a changed node with a key. -/
inductive Descent (C : Type) where
  | fault
  | stop
  | into (x : Node (Node C)) (i : ℕ) (key : ℤ)

/-- The part of `btree_delete_key` before it calls itself, in a node with children. -/
def descend (t : ℕ) (x : Node (Node C)) (key : ℤ) : Descent C :=
  let idx := position key x.keys
  if x.keys[idx]? = some key then
    match x.children[idx]?, x.children[idx + 1]? with
    | some left, some right =>
      if t ≤ left.keys.length then
        let last := left.keys.getD (left.keys.length - 1) 0
        .into { x with keys := x.keys.take idx ++ last :: x.keys.drop (idx + 1) } idx last
      else if t ≤ right.keys.length then
        let first := right.keys.getD 0 0
        .into { x with keys := x.keys.take idx ++ first :: x.keys.drop (idx + 1) } (idx + 1) first
      else if (merge t x idx).keys = [] then .fault
      else .into (merge t x idx) idx key
    | _, _ => .fault
  else
    match x.children[idx]? with
    | none => .stop
    | some child =>
      if child.keys.length = t - 1 then
        let filled := fill t x idx
        .into filled.1 filled.2 key
      else .into x idx key

/-- What a call has made of its node: it has changed it, or released it and given the tree another
root, or none. -/
inductive Outcome (height : ℕ) where
  | same (x : Tree height)
  | newRoot (T : Option ((h : ℕ) × Tree h))

/-- The call for the child `i` of `x`, which is the new root if `x` was released. A child that is
released while `x` still has it leaves `x` with a dangling pointer. -/
def returned (x : Node (Tree height)) (i : ℕ) : Outcome height → Option (Outcome (height + 1))
  | .same c =>
    if x.keys = [] then some (.newRoot (some ⟨height, c⟩))
    else some (.same ({ x with children := x.children.set i c } : Node (Tree height)))
  | .newRoot T => if x.keys = [] then some (.newRoot T) else none

/-- `btree_delete_key`; no result if it accesses a node that was released. -/
def deleteKey (t : ℕ) : (height : ℕ) → Tree height → ℤ → Option (Outcome height)
  | 0, x, key =>
    let idx := position key x.keys
    if x.keys[idx]? = some key then
      let keys := x.keys.take idx ++ x.keys.drop (idx + 1)
      if keys = [] then some (.newRoot none) else some (.same { x with keys := keys })
    else some (.same x)
  | height + 1, x, key =>
    match descend t x key with
    | .fault => none
    | .stop => some (.same x)
    | .into x' i key' => do
      let c ← x'.children[i]?
      let outcome ← deleteKey t height c key'
      returned x' i outcome

/-- `btree_delete`, for a tree or a root that is NULL. -/
def delete (t : ℕ) (T : Option BTree) (key : ℤ) : Option (Option BTree) :=
  match T with
  | none => some none
  | some T => do
    match ← deleteKey t T.height T.root key with
    | .same x => return some ⟨T.height, x, T.next⟩
    | .newRoot none => return none
    | .newRoot (some root) => return some ⟨root.1, root.2, T.next⟩

end CServer.Btree
