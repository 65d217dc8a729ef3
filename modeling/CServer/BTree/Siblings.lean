import CServer.BTree.Deletion

/-!
# Two children and the key between them

A merge and the two ways to borrow a key act on two neighbouring children and the key between them.
They keep the sequence of keys and the shape of the node, and the child to which the deletion goes
has a key to spare after them.
-/
namespace CServer.Btree

open CServer.Interleave

variable {C : Type} {t m i height : ℕ} {k key : ℤ}

/-- A node around two of its children and the key between them. -/
structure Around (x : Node C) (i : ℕ) (first : List C) (l r : C) (rest : List C) (low : List ℤ) (s : ℤ)
    (high : List ℤ) : Prop where
  children : x.children = first ++ l :: r :: rest
  keys : x.keys = low ++ s :: high
  first : first.length = i
  low : low.length = i

variable {first rest : List (Node C)} {l r : Node C} {low high : List ℤ} {s : ℤ} {x : Node (Node C)}

section Around

variable (h : Around x i first l r rest low s high)

include h

theorem Around.left : x.children[i]? = some l := by
  rw [h.children, ← h.first, List.getElem?_append_right le_rfl, Nat.sub_self]
  rfl

theorem Around.right : x.children[i + 1]? = some r := by
  rw [h.children, ← h.first, List.getElem?_append_right (by omega), Nat.add_sub_cancel_left]
  rfl

theorem Around.middle : x.keys[i]? = some s := by
  rw [h.keys, ← h.low, List.getElem?_append_right le_rfl, Nat.sub_self]
  rfl

theorem Around.getD : x.keys.getD i 0 = s := by
  rw [List.getD_eq_getElem?_getD, h.middle]
  rfl

theorem Around.take_keys : x.keys.take i = low := by
  rw [h.keys, ← h.low, List.take_left]

theorem Around.drop_keys : x.keys.drop (i + 1) = high := by
  rw [h.keys, ← h.low, ← List.drop_drop, List.drop_left]
  rfl

theorem Around.take_children : x.children.take i = first := by
  rw [h.children, ← h.first, List.take_left]

theorem Around.drop_children : x.children.drop (i + 2) = rest := by
  rw [h.children, ← h.first, ← List.drop_drop, List.drop_left]
  rfl

/-- The sequence of the node: what is before the two children, their keys with the one between
them, and what is behind. -/
theorem Around.sequence_eq (g : Node C → List ℤ) :
    nodeSequence g x = weave (first.map g) low ++ (g l ++ s :: g r) ++ follow (rest.map g) high := by
  rw [Btree.nodeSequence, h.children, h.keys, List.map_append,
    interleave_append (by rw [List.length_map, h.first, h.low])]
  simp only [List.map_cons, interleave_cons, follow, List.append_assoc, List.cons_append]

theorem Around.set_left (c : Node C) :
    Around { x with children := x.children.set i c } i first c r rest low s high := by
  refine ⟨?_, h.keys, h.first, h.low⟩
  simp only [h.children]
  rw [← h.first, List.set_append_right _ _ le_rfl, Nat.sub_self]
  rfl

theorem Around.set_right (c : Node C) :
    Around { x with children := x.children.set (i + 1) c } i first l c rest low s high := by
  refine ⟨?_, h.keys, h.first, h.low⟩
  simp only [h.children]
  rw [← h.first, List.set_append_right _ _ (by omega), Nat.add_sub_cancel_left]
  rfl

/-- The key between the children is replaced. -/
theorem Around.replace (q : ℤ) :
    Around { x with keys := low ++ q :: high } i first l r rest low q high :=
  ⟨h.children, rfl, h.first, h.low⟩

end Around

/-- The child that `btree_merge` makes. -/
def both (t : ℕ) (l : Node C) (s : ℤ) (r : Node C) : Node C :=
  { l with
    keys := l.keys.take (t - 1) ++ s :: r.keys.take (t - 1)
    children := l.children.take t ++ r.children.take t }

theorem Around.merge_eq (h : Around x i first l r rest low s high) (t : ℕ) :
    merge t x i = { x with keys := low ++ high, children := first ++ both t l s r :: rest } := by
  rw [Btree.merge, h.left, h.right]
  simp only [h.getD, h.take_keys, h.drop_keys, h.take_children, h.drop_children]
  rfl

/-- The children after a loan from the right one. -/
def tookNext (l : Node C) (s : ℤ) (r : Node C) : Node C :=
  { l with keys := l.keys ++ [s], children := l.children ++ r.children.take 1 }

def gaveFirst (r : Node C) : Node C :=
  { r with keys := r.keys.drop 1, children := r.children.drop 1 }

theorem Around.borrowNext_eq (h : Around x i first l r rest low s high) :
    borrowNext x i = { x with
      keys := low ++ r.keys.getD 0 0 :: high
      children := first ++ tookNext l s r :: gaveFirst r :: rest } := by
  rw [Btree.borrowNext, h.left, h.right]
  simp only [h.getD, h.take_keys, h.drop_keys, h.take_children, h.drop_children]
  rfl

/-- The children after a loan from the left one. -/
def gaveLast (l : Node C) : Node C :=
  { l with keys := l.keys.take (l.keys.length - 1), children := l.children.take l.keys.length }

def tookPrev (l : Node C) (s : ℤ) (r : Node C) : Node C :=
  { r with keys := s :: r.keys, children := l.children.drop l.keys.length ++ r.children }

theorem Around.borrowPrev_eq (h : Around x i first l r rest low s high) :
    borrowPrev x i = { x with
      keys := low ++ l.keys.getD (l.keys.length - 1) 0 :: high
      children := first ++ gaveLast l :: tookPrev l s r :: rest } := by
  rw [Btree.borrowPrev, h.left, h.right]
  simp only [h.getD, h.take_keys, h.drop_keys, h.take_children, h.drop_children]
  rfl

/-! ## Sequences -/

/-- Two nodes of one height: both are leaves, or both have children. -/
def SameHeight (l r : Node C) : Prop :=
  l.children = [] ∧ r.children = [] ∨
    l.children.length = l.keys.length + 1 ∧ r.children.length = r.keys.length + 1

/-- The first key of a node and the others. -/
theorem keys_first {r : Node C} (h : 0 < r.keys.length) :
    r.keys = r.keys.getD 0 0 :: r.keys.drop 1 := by
  cases hkeys : r.keys with
  | nil =>
    rw [hkeys] at h
    exact absurd h (by simp)
  | cons q rest => rfl

/-- The last key of a node and the others. -/
theorem keys_last {l : Node C} (h : 0 < l.keys.length) :
    l.keys = l.keys.take (l.keys.length - 1) ++ [l.keys.getD (l.keys.length - 1) 0] := by
  rw [List.getD_eq_getElem _ _ (by omega), List.take_append_getElem, Nat.sub_add_cancel h,
    List.take_length]

theorem sequence_both (g : C → List ℤ) (h : SameHeight l r) (hl : l.keys.length = t - 1)
    (hr : r.keys.length = t - 1) (ht : 2 ≤ t) :
    nodeSequence g (both t l s r) = nodeSequence g l ++ s :: nodeSequence g r := by
  have hlk : l.keys.take (t - 1) = l.keys := List.take_of_length_le (by omega)
  have hrk : r.keys.take (t - 1) = r.keys := List.take_of_length_le (by omega)
  have hlc : l.children.take t = l.children := by
    apply List.take_of_length_le
    obtain ⟨hnone, -⟩ | ⟨hsome, -⟩ := h
    · rw [hnone]
      exact Nat.zero_le _
    · omega
  have hrc : r.children.take t = r.children := by
    apply List.take_of_length_le
    obtain ⟨-, hnone⟩ | ⟨-, hsome⟩ := h
    · rw [hnone]
      exact Nat.zero_le _
    · omega
  unfold nodeSequence both
  simp only [hlk, hrk, hlc, hrc, List.map_append]
  apply interleave_join
  obtain ⟨hlnone, hrnone⟩ | ⟨hsome, -⟩ := h
  · rw [hlnone, hrnone]
    exact .inl ⟨rfl, rfl⟩
  · rw [List.length_map]
    exact .inr hsome

/-- A loan from the right: what was moved was at the start of the right node. -/
theorem sequence_borrowNext (g : C → List ℤ) (h : SameHeight l r) (hr : 0 < r.keys.length) :
    ∃ moved, nodeSequence g (tookNext l s r) = nodeSequence g l ++ s :: moved ∧
      nodeSequence g r = moved ++ r.keys.getD 0 0 :: nodeSequence g (gaveFirst r) := by
  have hkeys := keys_first hr
  have hshape : l.children.map g = [] ∧ r.children.map g = [] ∨
      (l.children.map g).length = l.keys.length + 1 ∧
        (r.children.map g).length = (r.keys.getD 0 0 :: r.keys.drop 1).length + 1 := by
    rw [← hkeys, List.length_map, List.length_map, List.map_eq_nil_iff, List.map_eq_nil_iff]
    exact h
  obtain ⟨moved, htook, hgave⟩ := interleave_moveLeft (k := s) hshape
  refine ⟨moved, ?_, ?_⟩
  · rw [nodeSequence, tookNext]
    simp only [List.map_append, List.map_take]
    exact htook
  · rw [← hkeys] at hgave
    rw [nodeSequence, hgave, nodeSequence, gaveFirst, List.map_drop]

/-- A loan from the left: what was moved was at the end of the left node. -/
theorem sequence_borrowPrev (g : C → List ℤ) (h : SameHeight l r) (hl : 0 < l.keys.length) :
    ∃ moved, nodeSequence g (tookPrev l s r) = moved ++ s :: nodeSequence g r ∧
      nodeSequence g l = nodeSequence g (gaveLast l) ++ l.keys.getD (l.keys.length - 1) 0 :: moved := by
  have hkeys := keys_last hl
  have hshape : l.children.map g = [] ∧ r.children.map g = [] ∨
      (l.children.map g).length = (l.keys.take (l.keys.length - 1) ++
        [l.keys.getD (l.keys.length - 1) 0]).length + 1 ∧
        (r.children.map g).length = r.keys.length + 1 := by
    rw [← hkeys, List.length_map, List.length_map, List.map_eq_nil_iff, List.map_eq_nil_iff]
    exact h
  obtain ⟨moved, htook, hgave⟩ := interleave_moveRight (k := s) hshape
  rw [← hkeys] at htook hgave
  refine ⟨moved, ?_, ?_⟩
  · rw [nodeSequence, tookPrev]
    simp only [List.map_append, List.map_drop]
    exact htook
  · rw [nodeSequence, hgave, nodeSequence, gaveLast, List.map_take]

/-! ## Shapes -/

theorem Sized.sameHeight {l r : Tree height} {n : ℕ} (hl : Sized t m l) (hr : Sized t n r) :
    SameHeight l r := by
  obtain rfl | hleft := hl.arity
  · exact .inl ⟨children_leaf l, children_leaf r⟩
  · obtain rfl | hright := hr.arity
    · exact .inl ⟨children_leaf l, children_leaf r⟩
    · exact .inr ⟨hleft, hright⟩

variable {a b : Tree height}

theorem Sized.both (ha : Sized t (t - 1) a) (hb : Sized t (t - 1) b) (ht : 2 ≤ t)
    (hlength : a.keys.length = t - 1) (hlength' : b.keys.length = t - 1) :
    Sized t t (Btree.both t a s b) := by
  have hkeys : (Btree.both t a s b).keys.length = 2 * t - 1 := by
    simp only [Btree.both, List.length_append, List.length_cons, List.length_take]
    omega
  refine ⟨by omega, by omega, ?_, ?_⟩
  · obtain ⟨hleaf, -⟩ | ⟨hleft, hright⟩ := ha.sameHeight hb
    · refine ha.arity.imp_right ?_
      rw [hleaf]
      exact fun h => absurd h (by simp)
    · refine .inr ?_
      rw [hkeys]
      simp only [Btree.both, List.length_append, List.length_take]
      omega
  · intro c hc
    obtain hc | hc := List.mem_append.mp hc
    · exact ha.children c (List.mem_of_mem_take hc)
    · exact hb.children c (List.mem_of_mem_take hc)

theorem Sized.tookNext (ha : Sized t (t - 1) a) (hb : Sized t (t - 1) b) (ht : 2 ≤ t)
    (hlength : a.keys.length = t - 1) : Sized t t (Btree.tookNext a s b) := by
  have hkeys : (Btree.tookNext a s b).keys.length = t := by
    simp only [Btree.tookNext, List.length_append, List.length_singleton]
    omega
  refine ⟨by omega, by omega, ?_, ?_⟩
  · obtain ⟨hleaf, -⟩ | ⟨hleft, hright⟩ := ha.sameHeight hb
    · refine ha.arity.imp_right ?_
      rw [hleaf]
      exact fun h => absurd h (by simp)
    · refine .inr ?_
      rw [hkeys]
      simp only [Btree.tookNext, List.length_append, List.length_take]
      omega
  · intro c hc
    obtain hc | hc := List.mem_append.mp hc
    · exact ha.children c hc
    · exact hb.children c (List.mem_of_mem_take hc)

theorem Sized.gaveFirst (hb : Sized t m b) (hrich : t ≤ b.keys.length) (ht : 2 ≤ t) :
    Sized t (t - 1) (Btree.gaveFirst b) := by
  have hmost := hb.most
  refine ⟨?_, ?_, ?_, fun c hc => hb.children c (List.mem_of_mem_drop hc)⟩
  · rw [Btree.gaveFirst, List.length_drop]
    omega
  · rw [Btree.gaveFirst, List.length_drop]
    omega
  · refine hb.arity.imp_right ?_
    intro harity
    rw [Btree.gaveFirst, List.length_drop, List.length_drop]
    omega

theorem Sized.gaveLast (ha : Sized t m a) (hrich : t ≤ a.keys.length) (ht : 2 ≤ t) :
    Sized t (t - 1) (Btree.gaveLast a) := by
  have hmost := ha.most
  refine ⟨?_, ?_, ?_, fun c hc => ha.children c (List.mem_of_mem_take hc)⟩
  · rw [Btree.gaveLast, List.length_take]
    omega
  · rw [Btree.gaveLast, List.length_take]
    omega
  · refine ha.arity.imp_right ?_
    intro harity
    rw [Btree.gaveLast, List.length_take, List.length_take]
    omega

theorem Sized.tookPrev (ha : Sized t (t - 1) a) (hb : Sized t (t - 1) b) (ht : 2 ≤ t)
    (hlength : b.keys.length = t - 1) : Sized t t (Btree.tookPrev a s b) := by
  have hkeys : (Btree.tookPrev a s b).keys.length = t := by
    simp only [Btree.tookPrev, List.length_cons]
    omega
  refine ⟨by omega, by omega, ?_, ?_⟩
  · obtain ⟨-, hleaf⟩ | ⟨hleft, hright⟩ := ha.sameHeight hb
    · refine hb.arity.imp_right ?_
      rw [hleaf]
      exact fun h => absurd h (by simp)
    · refine .inr ?_
      rw [hkeys]
      simp only [Btree.tookPrev, List.length_append, List.length_drop]
      omega
  · intro c hc
    obtain hc | hc := List.mem_append.mp hc
    · exact ha.children c (List.mem_of_mem_drop hc)
    · exact hb.children c hc

/-! ## The child to which the deletion goes -/

variable {y : Node (Tree height)} {before behind : List (Tree height)}

/-- The keys that are not in the child `i`. -/
def outside (y : Node (Tree height)) (i : ℕ) : List ℤ :=
  weave ((y.children.take i).map inorder) (y.keys.take i) ++
    follow ((y.children.drop (i + 1)).map inorder) (y.keys.drop i)

/-- The node `x` has been changed so that the child `out.2` has a key to spare; its keys are in the
same order, and no others are outside that child than were outside the child `i`. -/
structure Ready (t : ℕ) (y : Node (Tree height)) (i : ℕ) (out : Node (Tree height) × ℕ) : Prop where
  sized : SizedInner t (y.keys.length - 1) out.1
  index : out.2 ≤ out.1.keys.length
  child : ∀ c ∈ out.1.children[out.2]?, Sized t t c
  sequence : nodeSequence inorder out.1 = nodeSequence inorder y
  outside : ∀ q ∈ outside out.1 out.2, q ∈ outside y i

theorem Around.outside_left (h : Around y i before a b behind low s high) :
    outside y i = weave (before.map inorder) low ++
      s :: (inorder b ++ follow (behind.map inorder) high) := by
  have hdrop : y.children.drop (i + 1) = b :: behind := by
    rw [h.children, ← h.first, ← List.drop_drop, List.drop_left]
    rfl
  have hkeys : y.keys.drop i = s :: high := by
    rw [h.keys, ← h.low, List.drop_left]
  rw [outside, h.take_children, h.take_keys, hdrop, hkeys, List.map_cons, follow, interleave_cons]

theorem Around.outside_right (h : Around y i before a b behind low s high) :
    outside y (i + 1) =
      weave (before.map inorder) low ++ (inorder a ++ [s]) ++ follow (behind.map inorder) high := by
  have htake : y.children.take (i + 1) = before ++ [a] := by
    rw [h.children, ← h.first, List.append_cons, List.take_left' (by simp)]
  have hkeys : y.keys.take (i + 1) = low ++ [s] := by
    rw [h.keys, ← h.low, List.append_cons, List.take_left' (by simp)]
  have hlength : (before.map inorder).length = low.length := by
    rw [List.length_map, h.first, h.low]
  rw [outside, htake, hkeys, h.drop_children, h.drop_keys, List.map_append, weave_append hlength]
  rfl

theorem Around.sized (h : Around y i before a b behind low s high) (hy : SizedInner t m y) :
    Sized t (t - 1) a ∧ Sized t (t - 1) b ∧ (∀ c ∈ before, Sized t (t - 1) c) ∧
      (∀ c ∈ behind, Sized t (t - 1) c) ∧ y.keys.length = low.length + 1 + high.length ∧
      before.length = low.length ∧ behind.length = high.length := by
  have hchildren := hy.children
  have harity := hy.arity
  rw [h.children] at hchildren
  rw [h.children, h.keys] at harity
  simp only [List.length_append, List.length_cons] at harity
  have hfirst := h.first
  have hlow := h.low
  refine ⟨hchildren a (by simp), hchildren b (by simp), fun c hc => hchildren c (by simp [hc]),
    fun c hc => hchildren c (by simp [hc]), ?_, by omega, by omega⟩
  rw [h.keys]
  simp only [List.length_append, List.length_cons]
  omega

/-- After a loan the node has the same shape. -/
theorem Around.lent (h : Around y i before a b behind low s high) (hy : SizedInner t m y) {q : ℤ}
    {a' b' : Tree height} (ha : Sized t (t - 1) a') (hb : Sized t (t - 1) b') :
    SizedInner t (y.keys.length - 1)
      { y with keys := low ++ q :: high, children := before ++ a' :: b' :: behind } := by
  obtain ⟨-, -, hbefore, hbehind, hlength, hfirst, hrest⟩ := h.sized hy
  have hmost := hy.most
  refine ⟨?_, ?_, ?_, ?_⟩
  · simp only [List.length_append, List.length_cons]
    omega
  · simp only [List.length_append, List.length_cons]
    omega
  · simp only [List.length_append, List.length_cons]
    omega
  · intro c hc
    simp only [List.mem_append, List.mem_cons] at hc
    obtain hc | rfl | rfl | hc := hc
    · exact hbefore c hc
    · exact ha
    · exact hb
    · exact hbehind c hc

theorem Around.ready_borrowNext (h : Around y i before a b behind low s high)
    (hy : SizedInner t m y) (ht : 2 ≤ t) (hpoor : a.keys.length = t - 1) (hrich : t ≤ b.keys.length) :
    Ready t y i (borrowNext y i, i) := by
  obtain ⟨ha, hb, hbefore, hbehind, hlength, hfirst, hrest⟩ := h.sized hy
  obtain ⟨moved, htook, hgave⟩ := sequence_borrowNext (s := s) (sequence height) (ha.sameHeight hb)
    (show 0 < b.keys.length by omega)
  have htook' := ha.tookNext (s := s) hb ht hpoor
  rw [h.borrowNext_eq]
  have hnew : Around { y with
      keys := low ++ b.keys.getD 0 0 :: high
      children := before ++ Btree.tookNext a s b :: Btree.gaveFirst b :: behind } i before
      (Btree.tookNext a s b) (Btree.gaveFirst b) behind low (b.keys.getD 0 0) high :=
    ⟨rfl, rfl, h.first, h.low⟩
  refine ⟨h.lent hy (htook'.mono (by have hleast := htook'.least; omega)) (hb.gaveFirst hrich ht), ?_, ?_,
    ?_, ?_⟩
  · have hlow := h.low
    simp only [List.length_append, List.length_cons]
    omega
  · intro c hc
    rw [hnew.left] at hc
    rw [← Option.some.inj hc]
    exact htook'
  · rw [hnew.sequence_eq, h.sequence_eq]
    unfold inorder
    rw [htook, hgave]
    simp only [List.append_assoc, List.cons_append]
  · intro q hq
    rw [hnew.outside_left] at hq
    rw [h.outside_left]
    unfold inorder at hq ⊢
    rw [hgave]
    simp only [List.mem_append, List.mem_cons] at hq ⊢
    tauto

theorem Around.ready_borrowPrev (h : Around y i before a b behind low s high)
    (hy : SizedInner t m y) (ht : 2 ≤ t) (hpoor : b.keys.length = t - 1) (hrich : t ≤ a.keys.length) :
    Ready t y (i + 1) (borrowPrev y i, i + 1) := by
  obtain ⟨ha, hb, hbefore, hbehind, hlength, hfirst, hrest⟩ := h.sized hy
  obtain ⟨moved, htook, hgave⟩ := sequence_borrowPrev (s := s) (sequence height) (ha.sameHeight hb)
    (show 0 < a.keys.length by omega)
  have htook' := ha.tookPrev (s := s) hb ht hpoor
  rw [h.borrowPrev_eq]
  have hnew : Around { y with
      keys := low ++ a.keys.getD (a.keys.length - 1) 0 :: high
      children := before ++ Btree.gaveLast a :: Btree.tookPrev a s b :: behind } i before
      (Btree.gaveLast a) (Btree.tookPrev a s b) behind low (a.keys.getD (a.keys.length - 1) 0) high :=
    ⟨rfl, rfl, h.first, h.low⟩
  refine ⟨h.lent hy (ha.gaveLast hrich ht) (htook'.mono (by have hleast := htook'.least; omega)), ?_, ?_,
    ?_, ?_⟩
  · have hlow := h.low
    simp only [List.length_append, List.length_cons]
    omega
  · intro c hc
    rw [hnew.right] at hc
    rw [← Option.some.inj hc]
    exact htook'
  · rw [hnew.sequence_eq, h.sequence_eq]
    unfold inorder
    rw [htook, hgave]
    simp only [List.append_assoc, List.cons_append]
  · intro q hq
    rw [hnew.outside_right] at hq
    rw [h.outside_right]
    unfold inorder at hq ⊢
    rw [hgave]
    simp only [List.mem_append, List.mem_cons] at hq ⊢
    tauto

/-- A merge of two children makes one with enough keys, and what is outside it was outside both. -/
theorem Around.ready_merge (h : Around y i before a b behind low s high)
    (hy : SizedInner t m y) (ht : 2 ≤ t) (hpoor : a.keys.length = t - 1)
    (hpoor' : b.keys.length = t - 1) :
    Ready t y i (Btree.merge t y i, i) ∧ Ready t y (i + 1) (Btree.merge t y i, i) := by
  obtain ⟨ha, hb, hbefore, hbehind, hlength, hfirst, hrest⟩ := h.sized hy
  have hboth := ha.both (s := s) hb ht hpoor hpoor'
  have hsequence := sequence_both (s := s) (sequence height) (ha.sameHeight hb) hpoor hpoor' ht
  have hmost := hy.most
  have hlow := h.low
  have hmap : (before.map inorder).length = low.length := by
    rw [List.length_map, hfirst]
  rw [h.merge_eq]
  have hsized : SizedInner t (y.keys.length - 1) { y with
      keys := low ++ high, children := before ++ Btree.both t a s b :: behind } := by
    refine ⟨?_, ?_, ?_, ?_⟩
    · simp only [List.length_append]
      omega
    · simp only [List.length_append]
      omega
    · simp only [List.length_append, List.length_cons]
      omega
    · intro c hc
      simp only [List.mem_append, List.mem_cons] at hc
      obtain hc | rfl | hc := hc
      · exact hbefore c hc
      · exact hboth.mono (by have hleast := hboth.least; omega)
      · exact hbehind c hc
  have hindex : i ≤ (low ++ high).length := by
    rw [List.length_append]
    omega
  have hchild : ∀ c ∈ (before ++ Btree.both t a s b :: behind)[i]?, Sized t t c := by
    intro c hc
    rw [← h.first, List.getElem?_append_right le_rfl, Nat.sub_self] at hc
    rw [← Option.some.inj hc]
    exact hboth
  have hwhole : nodeSequence inorder { y with
      keys := low ++ high, children := before ++ Btree.both t a s b :: behind } =
      nodeSequence inorder y := by
    rw [h.sequence_eq, nodeSequence, List.map_append, List.map_cons, interleave_child hmap]
    unfold inorder
    rw [hsequence]
  have houtside : outside { y with
      keys := low ++ high, children := before ++ Btree.both t a s b :: behind } i =
      weave (before.map inorder) low ++ follow (behind.map inorder) high := by
    have htake : (before ++ Btree.both t a s b :: behind).take i = before := by
      rw [← h.first, List.take_left]
    have hdrop : (before ++ Btree.both t a s b :: behind).drop (i + 1) = behind := by
      rw [← h.first, ← List.drop_drop, List.drop_left]
      rfl
    have htake' : (low ++ high).take i = low := by rw [← h.low, List.take_left]
    have hdrop' : (low ++ high).drop i = high := by rw [← h.low, List.drop_left]
    rw [outside, htake, hdrop, htake', hdrop']
  refine ⟨⟨hsized, hindex, hchild, hwhole, ?_⟩, ⟨hsized, hindex, hchild, hwhole, ?_⟩⟩
  · intro q hq
    rw [houtside] at hq
    rw [h.outside_left]
    simp only [List.mem_append, List.mem_cons] at hq ⊢
    tauto
  · intro q hq
    rw [houtside] at hq
    rw [h.outside_right]
    simp only [List.mem_append] at hq ⊢
    tauto

end CServer.Btree
