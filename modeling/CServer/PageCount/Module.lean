import CServer.Foundation.PointerTree
import Mathlib.Algebra.Ring.Int.Defs
import Mathlib.Data.UInt

/-!
# The page counter for nginx

ngx_http_pagecount_module.c with what it uses of ngx_rbtree.c. The pointers to nothing lead to the
sentinel, which is the argument `nil`. What `ngx_rbtree_insert` does after its call of the insertion
function is the argument `rebalance`. A text is the list of its characters up to the terminator,
and one that leaves its array is an `overflow`. The log messages are left out.
-/
namespace CServer.PageCount

open RedBlack

abbrev Text := List Char

/-- The `key` and the `value` of a node. -/
structure PageEntry where
  key : ℕ
  value : ℤ
  deriving DecidableEq

def null : Addr := 0

/-- `ngx_rbtree_t` with the memory. -/
structure NgxRbtree where
  heap : Heap PageEntry
  root : Addr

/-- The value as an `int`. -/
def toInt (n : ℤ) : ℤ := Int.bmod n (2 ^ 32)

/-! ## The tree -/

/-- `ngx_rbtree_init`; the other fields of the static sentinel are null. -/
def ngxRbtreeInit (nil : Addr) : NgxRbtree :=
  ⟨Function.update (fun _ => none) nil (some ⟨null, null, null, .black, ⟨0, 0⟩⟩), nil⟩

/-- The loop of `ngx_rbtree_search` from `node` on. -/
def searchFrom (nil : Addr) (heap : Heap PageEntry) (key : ℕ) : ℕ → Addr → Except Fault Addr
  | 0, _ => .error .endless
  | turns + 1, node =>
    if node ≠ nil then do
      let n ← heap.node node
      if key < n.value.key then searchFrom nil heap key turns n.left
      else if key > n.value.key then searchFrom nil heap key turns n.right
      else .ok node
    else .ok nil

def ngxRbtreeSearch (turns : ℕ) (nil : Addr) (t : NgxRbtree) (key : ℕ) : Except Fault Addr :=
  searchFrom nil t.heap key turns t.root

/-- `ngx_rbtree_traversal`, for any iterator and anything that it works on. -/
def ngxRbtreeTraversal {σ : Type} (nil : Addr) (heap : Heap PageEntry)
    (iterator : PageEntry → σ → Except Fault σ) : ℕ → Addr → σ → Except Fault σ
  | 0, _, _ => .error .endless
  | depth + 1, node, html =>
    if node ≠ nil then do
      let n ← heap.node node
      let html ← ngxRbtreeTraversal nil heap iterator depth n.left html
      let html ← iterator n.value html
      ngxRbtreeTraversal nil heap iterator depth n.right html
    else .ok html

/-- The loop of `ngx_pagecount_rbtree_insert_value`: where the node goes, unless the key is there. -/
def insertPlace (nil : Addr) (heap : Heap PageEntry) (key : ℕ) :
    ℕ → Addr → Except Fault (Option (Addr × Side))
  | 0, _ => .error .endless
  | turns + 1, temp => do
    let n ← heap.node temp
    if key < n.value.key then
      if n.left = nil then .ok (some (temp, .left)) else insertPlace nil heap key turns n.left
    else if key > n.value.key then
      if n.right = nil then .ok (some (temp, .right)) else insertPlace nil heap key turns n.right
    else .ok none

def ngxPagecountRbtreeInsertValue (turns : ℕ) (nil temp node : Addr) (heap : Heap PageEntry) :
    Except Fault (Heap PageEntry) := do
  let n ← heap.node node
  match ← insertPlace nil heap n.value.key turns temp with
  | none => .ok heap
  | some (temp, s) =>
    let heap ← heap.setChild temp s node
    heap.modify node (fun n => ⟨nil, nil, temp, .red, n.value⟩)

/-- `ngx_rbtree_insert`. -/
def ngxRbtreeInsert (rebalance : Addr → NgxRbtree → NgxRbtree) (turns : ℕ) (nil node : Addr)
    (t : NgxRbtree) : Except Fault NgxRbtree :=
  if t.root = nil then do
    let heap ← t.heap.modify node (fun n => ⟨nil, nil, null, .black, n.value⟩)
    .ok ⟨heap, node⟩
  else do
    let heap ← ngxPagecountRbtreeInsertValue turns nil t.root node t.heap
    .ok (rebalance node ⟨heap, t.root⟩)

/-! ## The page -/

/-- A text written into an array of `size` characters. -/
def sprintf (size : ℕ) (text : Text) : Except Fault Text :=
  if text.length < size then .ok text else .error .overflow

/-- The size of `html`. -/
def htmlSize : ℕ := 1024

def strcat (html text : Text) : Except Fault Text := sprintf htmlSize (html ++ text)

/-- `%d`. -/
def decimal : ℤ → Text
  | .ofNat n => Nat.toDigits 10 n
  | .negSucc n => '-' :: Nat.toDigits 10 (n + 1)

/-- The bytes of the address as the memory has them, the lowest one first. -/
def inetNtoa (addr : ℕ) : Text :=
  Nat.toDigits 10 (addr % 256) ++ '.' :: Nat.toDigits 10 (addr / 2 ^ 8 % 256) ++
    '.' :: Nat.toDigits 10 (addr / 2 ^ 16 % 256) ++ '.' :: Nat.toDigits 10 (addr / 2 ^ 24 % 256)

/-- What the iterator prints. -/
def line (e : PageEntry) : Text :=
  "req from : ".toList ++ inetNtoa (e.key % 2 ^ 32) ++ ", count: ".toList ++ decimal e.value ++
    " <br/>".toList

def ngxHttpCountRbtreeIterator (e : PageEntry) (html : Text) : Except Fault Text := do
  let buffer ← sprintf 128 (line e)
  strcat html buffer

def ngxEncodeHttpPageRb (turns : ℕ) (nil : Addr) (t : NgxRbtree) : Except Fault Text := do
  let html ← sprintf htmlSize "<h1>Source Insight </h1>".toList
  let html ← strcat html "<h2>".toList
  let html ← ngxRbtreeTraversal nil t.heap ngxHttpCountRbtreeIterator turns t.root html
  strcat html "</h2>".toList

/-! ## The handler -/

structure PvTable where
  count : ℤ
  addr : UInt32

/-- `pv_table` and `ngx_pv_tree`. -/
structure Server where
  pvTable : ℕ → PvTable
  tree : NgxRbtree

def start (nil : Addr) : Server := ⟨fun _ => ⟨0, 0⟩, ngxRbtreeInit nil⟩

/-- The entry of a client's highest byte counts it too, and keeps its address. -/
def countInTable (pvTable : ℕ → PvTable) (sAddr : UInt32) : ℕ → PvTable :=
  let idx := sAddr.toNat >>> 24
  Function.update pvTable idx ⟨toInt ((pvTable idx).count + 1), sAddr⟩

/-- The memory with the new node of a client, which `ngx_pcalloc` has put at `z`. -/
def withNode (heap : Heap PageEntry) (z : Addr) (key : ℕ) : Heap PageEntry :=
  heap.alloc z ⟨null, null, null, .black, ⟨key, 1⟩⟩

/-- `ngx_http_count_module_handler` from the search up to the page. -/
def countInTree (rebalance : Addr → NgxRbtree → NgxRbtree) (turns : ℕ) (nil : Addr) (key : ℕ)
    (z : Addr) (t : NgxRbtree) : Except Fault NgxRbtree := do
  let node ← ngxRbtreeSearch turns nil t key
  if node = nil then ngxRbtreeInsert rebalance turns nil z ⟨withNode t.heap z key, t.root⟩
  else do
    let heap ← t.heap.modify node
      (fun n => { n with value := { n.value with value := toInt (n.value.value + 1) } })
    .ok ⟨heap, t.root⟩

/-- `ngx_http_count_module_handler` for a client, with the body of the response. -/
def ngxHttpCountModuleHandler (rebalance : Addr → NgxRbtree → NgxRbtree) (turns : ℕ) (nil : Addr)
    (sAddr : UInt32) (z : Addr) (s : Server) : Except Fault (Server × Text) := do
  let tree ← countInTree rebalance turns nil sAddr.toNat z s.tree
  let html ← ngxEncodeHttpPageRb turns nil tree
  .ok (⟨countInTable s.pvTable sAddr, tree⟩, html.rightpad htmlSize '\x00')

end CServer.PageCount
