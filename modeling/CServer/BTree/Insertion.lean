import CServer.BTree.Tree

/-!
# Insertion into a B-tree

A split keeps the sequence of keys and the shape; the child below the place of the key then has
room for one more key, and by induction on the height the key stands in its place in the sequence.
-/
namespace CServer.Btree

open CServer.Interleave

variable {C : Type} {t m i height : ℕ} {k : ℤ}

/-! ## A split -/

/-- The lower half of a full node. -/
def lower (t : ℕ) (y : Node C) : Node C :=
  { y with keys := y.keys.take (t - 1), children := y.children.take t }

/-- The upper half of a full node. -/
def upper (t next : ℕ) (y : Node C) : Node C :=
  ⟨next, (y.keys.drop t).take (t - 1), (y.children.drop t).take t⟩

/-- The parent of the two halves. -/
def joined (t next : ℕ) (x : Node (Node C)) (first : List (Node C)) (y : Node C)
    (rest : List (Node C)) : Node (Node C) :=
  { x with
    keys := x.keys.take first.length ++ y.keys.getD (t - 1) 0 :: x.keys.drop first.length
    children := first ++ lower t y :: upper t next y :: rest }

theorem splitChild_eq {x : Node (Node C)} {first rest : List (Node C)} {y : Node C}
    (hx : x.children = first ++ y :: rest) (next : ℕ) :
    splitChild t x first.length next = joined t next x first y rest := by
  have hget : x.children[first.length]? = some y := by
    rw [hx, List.getElem?_append_right le_rfl, Nat.sub_self]
    rfl
  have hbefore : x.children.take first.length = first := by
    rw [hx, List.take_left]
  have hbehind : x.children.drop (first.length + 1) = rest := by
    rw [hx, ← List.drop_drop, List.drop_left]
    rfl
  rw [splitChild, hget]
  simp only [hbefore, hbehind]
  rfl

/-- The keys of a full node: `t - 1` of them, one, and `t - 1` again. -/
theorem keys_split {y : Node C} (ht : 2 ≤ t) (hfull : y.keys.length = 2 * t - 1) :
    y.keys = y.keys.take (t - 1) ++ y.keys.getD (t - 1) 0 :: (y.keys.drop t).take (t - 1) := by
  have hupper : (y.keys.drop t).take (t - 1) = y.keys.drop t := by
    apply List.take_of_length_le
    rw [List.length_drop]
    omega
  have hmiddle : y.keys.drop (t - 1) = y.keys.getD (t - 1) 0 :: y.keys.drop t := by
    rw [List.drop_eq_getElem_cons (by omega), List.getD_eq_getElem _ _ (by omega),
      show t - 1 + 1 = t by omega]
  rw [hupper, ← hmiddle, List.take_append_drop]

theorem children_split {y : Node C} (ht : 2 ≤ t) (harity : Arity y)
    (hfull : y.keys.length = 2 * t - 1) :
    y.children = y.children.take t ++ (y.children.drop t).take t ∧
      (y.children = [] ∨ (y.children.take t).length = t ∧ ((y.children.drop t).take t).length = t) := by
  have hlength : y.children.length ≤ 2 * t := by
    obtain hnone | hsome := harity
    · rw [hnone]
      exact Nat.zero_le _
    · omega
  have hupper : (y.children.drop t).take t = y.children.drop t := by
    apply List.take_of_length_le
    rw [List.length_drop]
    omega
  refine ⟨by rw [hupper, List.take_append_drop], ?_⟩
  obtain hnone | hsome := harity
  · exact .inl hnone
  · refine .inr ⟨?_, ?_⟩
    · rw [List.length_take]
      omega
    · rw [hupper, List.length_drop]
      omega

/-- A full node has the keys of its halves and the one between them. -/
theorem nodeSequence_split {y : Node C} (g : C → List ℤ) (ht : 2 ≤ t) (harity : Arity y)
    (hfull : y.keys.length = 2 * t - 1) (next : ℕ) :
    nodeSequence g y = nodeSequence g (lower t y) ++ y.keys.getD (t - 1) 0 ::
      nodeSequence g (upper t next y) := by
  obtain ⟨hchildren, hlengths⟩ := children_split ht harity hfull
  unfold nodeSequence lower upper
  conv_lhs => rw [keys_split ht hfull, hchildren, List.map_append]
  apply interleave_join
  obtain hnone | ⟨hlower, -⟩ := hlengths
  · rw [hnone]
    simp
  · refine .inr ?_
    rw [List.length_map, hlower, List.length_take]
    omega

/-- A split keeps the keys of the parent in order. -/
theorem nodeSequence_joined {x : Node (Node C)} {first rest : List (Node C)} {y : Node C}
    (g : C → List ℤ) (ht : 2 ≤ t) (hx : x.children = first ++ y :: rest)
    (hi : first.length ≤ x.keys.length) (harity : Arity y) (hfull : y.keys.length = 2 * t - 1)
    (next : ℕ) :
    nodeSequence (nodeSequence g) (joined t next x first y rest) =
      nodeSequence (nodeSequence g) x := by
  have hlength : (first.map (nodeSequence g)).length = (x.keys.take first.length).length := by
    rw [List.length_map, List.length_take]
    omega
  have hkeys : x.keys = x.keys.take first.length ++ x.keys.drop first.length :=
    (List.take_append_drop _ _).symm
  have hparent : nodeSequence (nodeSequence g) x =
      weave (first.map (nodeSequence g)) (x.keys.take first.length) ++ nodeSequence g y ++
        follow (rest.map (nodeSequence g)) (x.keys.drop first.length) := by
    conv_lhs => rw [nodeSequence, hkeys, hx, List.map_append, List.map_cons]
    rw [interleave_child hlength]
  have hhalves := nodeSequence_split (t := t) g ht harity hfull
  rw [hparent, hhalves next, nodeSequence, joined]
  simp only [List.map_append, List.map_cons]
  rw [interleave_child hlength, follow, interleave_cons]
  simp only [List.append_assoc, List.cons_append]

/-- The halves of a full node have `t - 1` keys. -/
theorem Sized.halves {y : Tree height} (ht : 2 ≤ t) (hy : Sized t m y)
    (hfull : y.keys.length = 2 * t - 1) (next : ℕ) :
    Sized t (t - 1) (lower t y) ∧ Sized t (t - 1) (upper t next y) := by
  obtain ⟨hchildren, hlengths⟩ := children_split ht hy.node_arity hfull
  have hlower : (lower t y).keys.length = t - 1 := by
    rw [lower, List.length_take]
    omega
  have hupper : (upper t next y).keys.length = t - 1 := by
    rw [upper, List.length_take, List.length_drop]
    omega
  have hmem : ∀ c, c ∈ (lower t y).children ∨ c ∈ (upper t next y).children → c ∈ y.children := by
    intro c hc
    rw [hchildren]
    exact List.mem_append.mpr hc
  have hcount : height = 0 ∨ (lower t y).children.length = t ∧ (upper t next y).children.length = t := by
    obtain hleaf | harity := hy.arity
    · exact .inl hleaf
    · obtain hnone | hboth := hlengths
      · rw [hnone] at harity
        exact absurd harity (by simp)
      · exact .inr hboth
  refine ⟨⟨by omega, by omega, ?_, fun c hc => hy.children c (hmem c (.inl hc))⟩,
    ⟨by omega, by omega, ?_, fun c hc => hy.children c (hmem c (.inr hc))⟩⟩
  · exact hcount.imp_right fun hboth => by omega
  · exact hcount.imp_right fun hboth => by omega

/-- The parent of the halves has one key more and keeps its shape. -/
theorem SizedInner.joined {x : Node (Tree height)} {first rest : List (Tree height)}
    {y : Tree height} (ht : 2 ≤ t) (hx : SizedInner t m x) (hchildren : x.children = first ++ y :: rest)
    (hroom : x.keys.length < 2 * t - 1) (hfull : y.keys.length = 2 * t - 1) (next : ℕ) :
    SizedInner t m (Btree.joined t next x first y rest) ∧
      (Btree.joined t next x first y rest).keys.length = x.keys.length + 1 := by
  have hy : Sized t (t - 1) y := by
    apply hx.children
    rw [hchildren]
    simp
  obtain ⟨hlower, hupper⟩ := hy.halves ht hfull next
  have harity := hx.arity
  have hleast := hx.least
  rw [hchildren] at harity
  simp only [List.length_append, List.length_cons] at harity
  have hlength : (Btree.joined t next x first y rest).keys.length = x.keys.length + 1 := by
    simp only [Btree.joined, List.length_append, List.length_cons, List.length_take,
      List.length_drop]
    omega
  refine ⟨⟨by rw [hlength]; omega, by rw [hlength]; omega, ?_, ?_⟩, hlength⟩
  · rw [hlength]
    simp only [Btree.joined, List.length_append, List.length_cons]
    omega
  · intro c hc
    have hold : ∀ c, c ∈ first ∨ c ∈ rest → Sized t (t - 1) c := by
      intro c hc
      apply hx.children
      rw [hchildren]
      exact List.mem_append.mpr (hc.imp_right (List.mem_cons_of_mem _))
    obtain hfirst | heq | heq | hrest :
        c ∈ first ∨ c = lower t y ∨ c = upper t next y ∨ c ∈ rest := by
      simpa only [Btree.joined, List.mem_append, List.mem_cons] using hc
    · exact hold c (.inl hfirst)
    · rw [heq]
      exact hlower
    · rw [heq]
      exact hupper
    · exact hold c (.inr hrest)

/-! ## The descent -/

/-- The child `i` of `x` may take the key: it is not full, and the keys around it surround the
key. -/
structure Room (t m : ℕ) (k : ℤ) (x : Node (Tree height)) (i : ℕ) : Prop where
  sized : SizedInner t m x
  index : i ≤ x.keys.length
  notFull : ∀ c ∈ x.children[i]?, c.keys.length < 2 * t - 1
  before : ∀ q ∈ (x.keys.take i).getLast?, q ≤ k
  behind : ∀ q ∈ (x.keys.drop i).head?, k ≤ q

/-- A node in two parts around one of its children. -/
theorem SizedInner.child {x : Node (Tree height)} (hx : SizedInner t m x) (hi : i ≤ x.keys.length) :
    ∃ first c rest, x.children = first ++ c :: rest ∧ first.length = i ∧ x.children[i]? = some c := by
  have hlt : i < x.children.length := by
    rw [hx.arity]
    omega
  refine ⟨x.children.take i, x.children[i], x.children.drop (i + 1), ?_, ?_, ?_⟩
  · rw [← List.drop_eq_getElem_cons hlt, List.take_append_drop]
  · rw [List.length_take]
    omega
  · exact List.getElem?_eq_getElem hlt

/-- The key that a split moves up stands between the halves. -/
theorem joined_getD {x : Node (Node C)} {first rest : List (Node C)} {y : Node C}
    (hi : first.length ≤ x.keys.length) (next : ℕ) :
    (joined t next x first y rest).keys.getD first.length 0 = y.keys.getD (t - 1) 0 := by
  have htake : (x.keys.take first.length).length = first.length := by
    rw [List.length_take]
    omega
  rw [joined, List.getD_append_right _ _ _ _ (by omega), htake, Nat.sub_self]
  rfl

/-- After a split there is room in the half into which the key goes. -/
theorem SizedInner.room_joined {x : Node (Tree height)} {first rest : List (Tree height)}
    {y : Tree height} (ht : 2 ≤ t) (hx : SizedInner t m x) (hchildren : x.children = first ++ y :: rest)
    (hroom : x.keys.length < 2 * t - 1) (hfull : y.keys.length = 2 * t - 1)
    (hbefore : ∀ q ∈ (x.keys.take first.length).getLast?, q ≤ k)
    (hbehind : ∀ q ∈ (x.keys.drop first.length).head?, k ≤ q) (next : ℕ) :
    Room t m k (Btree.joined t next x first y rest)
      (if k > y.keys.getD (t - 1) 0 then first.length + 1 else first.length) := by
  obtain ⟨hsized, hlength⟩ := hx.joined ht hchildren hroom hfull next
  have harity := hx.arity
  rw [hchildren] at harity
  simp only [List.length_append, List.length_cons] at harity
  have htake : (x.keys.take first.length).length = first.length := by
    rw [List.length_take]
    omega
  have hlower : (lower t y).keys.length < 2 * t - 1 := by
    rw [lower, List.length_take]
    omega
  have hupper : (upper t next y).keys.length < 2 * t - 1 := by
    rw [upper, List.length_take]
    omega
  by_cases hk : k > y.keys.getD (t - 1) 0
  · simp only [if_pos hk]
    have hpart : (Btree.joined t next x first y rest).keys =
        (x.keys.take first.length ++ [y.keys.getD (t - 1) 0]) ++ x.keys.drop first.length := by
      simp [Btree.joined]
    have hsplit : (x.keys.take first.length ++ [y.keys.getD (t - 1) 0]).length =
        first.length + 1 := by
      rw [List.length_append, htake]
      rfl
    refine ⟨hsized, by omega, ?_, ?_, ?_⟩
    · intro c hc
      rw [Btree.joined, List.getElem?_append_right (by omega), Nat.add_sub_cancel_left] at hc
      obtain rfl : upper t next y = c := Option.some.inj hc
      exact hupper
    · intro q hq
      rw [hpart, ← hsplit, List.take_left, List.getLast?_concat] at hq
      rw [← Option.some.inj hq]
      exact le_of_lt hk
    · intro q hq
      rw [hpart, ← hsplit, List.drop_left] at hq
      exact hbehind q hq
  · simp only [if_neg hk]
    refine ⟨hsized, by omega, ?_, ?_, ?_⟩
    · intro c hc
      rw [Btree.joined, List.getElem?_append_right le_rfl, Nat.sub_self] at hc
      obtain rfl : lower t y = c := Option.some.inj hc
      exact hlower
    · intro q hq
      rw [Btree.joined, List.take_append_of_le_length (by omega), List.take_take, min_self] at hq
      exact hbefore q hq
    · intro q hq
      have hdrop : (Btree.joined t next x first y rest).keys.drop first.length =
          y.keys.getD (t - 1) 0 :: x.keys.drop first.length := by
        rw [Btree.joined]
        exact List.drop_left' htake
      rw [hdrop] at hq
      rw [← Option.some.inj hq]
      exact not_lt.mp hk

/-- Before the call goes down there is room in the child, and the keys are still in order. -/
theorem makeRoom_spec {x : Node (Tree height)} (ht : 2 ≤ t) (hx : SizedInner t m x)
    (hroom : x.keys.length < 2 * t - 1) (next : ℕ) :
    Room t m k (makeRoom t x k next).1 (makeRoom t x k next).2.1 ∧
      nodeSequence inorder (makeRoom t x k next).1 = nodeSequence inorder x := by
  have hle := place_le x.keys k x.keys.length
  have hbefore := place_before x.keys k x.keys.length le_rfl
  have hbehind := place_behind x.keys k x.keys.length le_rfl (by simp)
  obtain ⟨first, y, rest, hchildren, hfirst, hget⟩ := hx.child hle
  have hy : Sized t (t - 1) y := by
    apply hx.children
    rw [hchildren]
    simp
  by_cases hfull : y.keys.length = 2 * t - 1
  · have hmake : makeRoom t x k next = (joined t next x first y rest,
        if k > y.keys.getD (t - 1) 0 then first.length + 1 else first.length, next + 1) := by
      rw [makeRoom, hget]
      simp only [if_pos hfull]
      rw [← hfirst, splitChild_eq hchildren next, joined_getD (by omega)]
    rw [← hfirst] at hbefore hbehind
    rw [hmake]
    exact ⟨hx.room_joined ht hchildren hroom hfull hbefore hbehind next,
      nodeSequence_joined (sequence height) ht hchildren (by omega) hy.node_arity hfull next⟩
  · have hmake : makeRoom t x k next = (x, place x.keys k x.keys.length, next) := by
      simp only [makeRoom, hget, if_neg hfull]
    rw [hmake]
    refine ⟨⟨hx, hle, ?_, hbefore, hbehind⟩, rfl⟩
    intro c hc
    rw [hget] at hc
    have hmost := hy.most
    rw [← Option.some.inj hc]
    omega

/-- The call for a child with room puts the key into the sequence of the node. -/
theorem atChild_correct {x : Node (Tree height)} {f : Tree height → ℕ → Tree height × ℕ} (next : ℕ)
    (hroom : Room t m k x i) (hsorted : (nodeSequence inorder x).Pairwise (· ≤ ·))
    (hf : ∀ c : Tree height, c.keys.length < 2 * t - 1 → Sized t (t - 1) c →
      (inorder c).Pairwise (· ≤ ·) →
      Inserted k (inorder c) (inorder (f c next).1) ∧ Sized t (t - 1) (f c next).1) :
    Inserted k (nodeSequence inorder x) (nodeSequence inorder (atChild f x i next).1) ∧
      SizedInner t m (atChild f x i next).1 := by
  obtain ⟨hsized, hindex, hnotFull, hbefore, hbehind⟩ := hroom
  obtain ⟨first, c, rest, hchildren, rfl, hget⟩ := hsized.child hindex
  have hmem : ∀ d, d ∈ first ∨ d = c ∨ d ∈ rest → Sized t (t - 1) d := by
    intro d hd
    apply hsized.children
    rw [hchildren, List.mem_append, List.mem_cons]
    exact hd
  have hlength : (first.map inorder).length = (x.keys.take first.length).length := by
    rw [List.length_map, List.length_take]
    omega
  have hwhole : nodeSequence inorder x = interleave (first.map inorder ++ inorder c :: rest.map inorder)
      (x.keys.take first.length ++ x.keys.drop first.length) := by
    rw [nodeSequence, hchildren, List.take_append_drop, List.map_append, List.map_cons]
  have hnode : (atChild f x first.length next).1 =
      { x with children := first ++ (f c next).1 :: rest } := by
    have hset : x.children.set first.length (f c next).1 = first ++ (f c next).1 :: rest := by
      rw [hchildren, List.set_append_right _ _ le_rfl, Nat.sub_self]
      rfl
    rw [atChild, hget]
    simp only [hset]
  have hwhole' : nodeSequence inorder (atChild f x first.length next).1 =
      interleave (first.map inorder ++ inorder (f c next).1 :: rest.map inorder)
        (x.keys.take first.length ++ x.keys.drop first.length) := by
    rw [nodeSequence, hnode, List.take_append_drop, List.map_append, List.map_cons]
  rw [hwhole] at hsorted
  have hchild : (inorder c).Pairwise (· ≤ ·) := by
    rw [interleave_child hlength] at hsorted
    exact (List.pairwise_append.mp (List.pairwise_append.mp hsorted).1).2.1
  obtain ⟨hinserted, hshape⟩ := hf c (hnotFull c hget) (hmem c (.inr (.inl rfl))) hchild
  refine ⟨?_, ?_⟩
  · rw [hwhole, hwhole']
    exact hinserted.child hlength hbefore hbehind hsorted
  · rw [hnode]
    refine ⟨hsized.least, hsized.most, ?_, ?_⟩
    · have harity := hsized.arity
      rw [hchildren] at harity
      simpa using harity
    · intro d hd
      obtain hd | rfl | hd : d ∈ first ∨ d = (f c next).1 ∨ d ∈ rest := by
        simpa only [List.mem_append, List.mem_cons] using hd
      · exact hmem d (.inl hd)
      · exact hshape
      · exact hmem d (.inr (.inr hd))

/-- `btree_insert_nonfull` puts the key into the sequence of a tree whose first node is not full,
and keeps the shape of the tree. -/
theorem insertNonfull_correct {x : Tree height} (ht : 2 ≤ t) (hx : Sized t m x)
    (hroom : x.keys.length < 2 * t - 1) (hsorted : (inorder x).Pairwise (· ≤ ·)) (next : ℕ) :
    Inserted k (inorder x) (inorder (insertNonfull t height x k next).1) ∧
      Sized t m (insertNonfull t height x k next).1 := by
  induction height generalizing m next with
  | zero =>
    have hbefore := place_before x.keys k x.keys.length le_rfl
    have hbehind := place_behind x.keys k x.keys.length le_rfl (by simp)
    have hleast := hx.least
    have hlength : (insertNonfull t 0 x k next).1.keys.length = x.keys.length + 1 := by
      simp only [insertNonfull, List.length_append, List.length_cons, List.length_take,
        List.length_drop]
      omega
    refine ⟨?_, by omega, by omega, .inl rfl, ?_⟩
    · rw [inorder_leaf] at hsorted ⊢
      rw [inorder_leaf]
      refine ⟨x.keys.take (place x.keys k x.keys.length), x.keys.drop (place x.keys k x.keys.length),
        (List.take_append_drop _ _).symm, rfl, ?_, ?_⟩
      · exact le_of_getLast? (hsorted.sublist (List.take_sublist _ _)) hbefore
      · exact ge_of_head? (hsorted.sublist (List.drop_sublist _ _)) hbehind
    · intro c hc
      exact nomatch (c : Empty)
  | succ height ih =>
    have hinner : SizedInner t m (x : Node (Tree height)) := sized_succ_iff.mp hx
    obtain ⟨hplace, hsequence⟩ := makeRoom_spec (k := k) ht hinner hroom next
    have hsorted' : (nodeSequence inorder (makeRoom t (x : Node (Tree height)) k next).1).Pairwise
        (· ≤ ·) := by
      rw [hsequence]
      exact hsorted
    obtain ⟨hinserted, hsized⟩ := atChild_correct
      (f := fun c next => insertNonfull t height c k next)
      (makeRoom t (x : Node (Tree height)) k next).2.2 hplace hsorted'
      (fun c hc hshape horder => ih hshape hc horder _)
    rw [hsequence] at hinserted
    exact ⟨hinserted, sized_succ_iff.mpr hsized⟩

/-! ## Runs of insertions -/

/-- A B-tree of degree `t`: the keys in order, no node but the first one with fewer than `t - 1`
keys, none with more than `2t - 1`, and one child more than keys in each node that has children. A
first node that has children has a key. -/
structure Valid (t : ℕ) (T : BTree) : Prop where
  sorted : (inorder T.root).Pairwise (· ≤ ·)
  sized : Sized t (if T.height = 0 then 0 else 1) T.root

theorem valid_create (t : ℕ) : Valid t create where
  sorted := List.Pairwise.nil
  sized := ⟨le_rfl, Nat.zero_le _, .inl rfl, nofun⟩

/-- `btree_insert` keeps a B-tree valid and puts the key into its sequence. -/
theorem Valid.insert {T : BTree} (ht : 2 ≤ t) (h : Valid t T) (key : ℤ) :
    Inserted key (inorder T.root) (inorder (Btree.insert t T key).root) ∧
      Valid t (Btree.insert t T key) := by
  have hmost := h.sized.most
  by_cases hfull : T.root.keys.length = 2 * t - 1
  · obtain ⟨height, root, next⟩ := T
    simp only at hmost hfull
    have hroot : Sized t (t - 1) root := h.sized.mono (by simp only; omega)
    have hone : SizedInner t 0 (⟨next, [], [root]⟩ : Node (Tree height)) := by
      refine ⟨le_rfl, Nat.zero_le _, rfl, ?_⟩
      intro c hc
      rw [List.mem_singleton.mp hc]
      exact hroot
    have hchildren : (⟨next, [], [root]⟩ : Node (Tree height)).children = [] ++ root :: [] := rfl
    have hroom := hone.room_joined (k := key) ht hchildren (by simp only [List.length_nil]; omega) hfull
      (by simp) (by simp) (next + 1)
    have hsequence := nodeSequence_joined (t := t) (sequence height) ht hchildren le_rfl
      hroot.node_arity hfull (next + 1)
    obtain ⟨hjoined, hlength⟩ := hone.joined ht hchildren (by simp only [List.length_nil]; omega)
      hfull (next + 1)
    have hroom' : Room t 1 key _ _ := ⟨⟨by rw [hlength]; exact le_rfl, hjoined.most, hjoined.arity,
      hjoined.children⟩, hroom.index, hroom.notFull, hroom.before, hroom.behind⟩
    have hsorted : (nodeSequence inorder
        (joined t (next + 1) ⟨next, [], [root]⟩ [] root [])).Pairwise (· ≤ ·) := by
      rw [show nodeSequence inorder _ = _ from hsequence]
      exact h.sorted
    obtain ⟨hinserted, hsized⟩ := atChild_correct
      (f := fun c next => insertNonfull t height c key next) (next + 2) hroom' hsorted
      (fun c hc hshape horder => insertNonfull_correct ht hshape hc horder _)
    have hsplit : splitChild t (⟨next, [], [root]⟩ : Node (Tree height)) 0 (next + 1) =
        joined t (next + 1) ⟨next, [], [root]⟩ [] root [] := splitChild_eq hchildren (next + 1)
    have hinsert : (Btree.insert t ⟨height, root, next⟩ key) =
        ⟨height + 1, (atChild (fun c next => insertNonfull t height c key next)
          (joined t (next + 1) ⟨next, [], [root]⟩ [] root [])
          (if key > root.keys.getD (t - 1) 0 then 1 else 0) (next + 2)).1,
          (atChild (fun c next => insertNonfull t height c key next)
          (joined t (next + 1) ⟨next, [], [root]⟩ [] root [])
          (if key > root.keys.getD (t - 1) 0 then 1 else 0) (next + 2)).2⟩ := by
      rw [Btree.insert, if_pos hfull]
      simp only [hsplit]
      rfl
    have hput : Inserted key (inorder root) (inorder (Btree.insert t ⟨height, root, next⟩ key).root) := by
      rw [hinsert]
      rw [show nodeSequence inorder _ = _ from hsequence] at hinserted
      exact hinserted
    refine ⟨hput, hput.sorted h.sorted, ?_⟩
    rw [hinsert]
    exact sized_succ_iff.mpr hsized
  · obtain ⟨hinserted, hsized⟩ := insertNonfull_correct (k := key) ht h.sized
      (by omega) h.sorted T.next
    have hinsert : Btree.insert t T key = ⟨T.height, (insertNonfull t T.height T.root key T.next).1,
        (insertNonfull t T.height T.root key T.next).2⟩ := by
      rw [Btree.insert, if_neg hfull]
    rw [hinsert]
    exact ⟨hinserted, hinserted.sorted h.sorted, hsized⟩

/-- Insertions keep a B-tree valid and add their keys to its keys. -/
theorem Valid.insertions {T : BTree} (ht : 2 ≤ t) (h : Valid t T) (keys : List ℤ) :
    Valid t (keys.foldl (Btree.insert t) T) ∧
      (inorder (keys.foldl (Btree.insert t) T).root).Perm (keys ++ inorder T.root) := by
  induction keys generalizing T with
  | nil => exact ⟨h, List.Perm.refl _⟩
  | cons k rest ih =>
    obtain ⟨hinserted, hvalid⟩ := h.insert ht k
    obtain ⟨hend, hperm⟩ := ih hvalid
    refine ⟨hend, hperm.trans ?_⟩
    calc rest ++ inorder (Btree.insert t T k).root
        _ |>.Perm (rest ++ k :: inorder T.root) := List.Perm.append_left _ hinserted.perm
        _ |>.Perm (k :: rest ++ inorder T.root) := List.perm_middle

/-- The tree after a list of insertions. -/
def insertAll (t : ℕ) (keys : List ℤ) : BTree := keys.foldl (Btree.insert t) create

end CServer.Btree
