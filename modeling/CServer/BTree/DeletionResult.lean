import CServer.BTree.Descent

/-!
# The result of a deletion

A deletion keeps the shape of the tree and takes one occurrence of the key out, unless it reads the
first node after that was released. The keys are in order afterwards exactly if on the way down
each key that was put in the place of another one was the largest or smallest below it.
-/
namespace CServer.Btree

open CServer.Interleave

variable {t m height : ℕ} {key : ℤ}

/-- What is to hold of the child to which a call goes, and of the key with which it goes. -/
def Descent.Below {C : Type} (P : Node C → ℤ → Prop) : Descent C → Prop
  | .into x i key => ∀ c ∈ x.children[i]?, P c key
  | _ => True

/-- On the way of the deletion each neighbour that takes the place of a key is extreme. -/
def Ordered (t : ℕ) : (height : ℕ) → Tree height → ℤ → Prop
  | 0, _, _ => True
  | height + 1, y, key =>
    let y : Node (Tree height) := y
    Extreme t y key ∧ (descend t y key).Below (Ordered t height)

/-- The key is the only one of a first node that has children, and these have no key to spare. -/
def RootMerged (t : ℕ) : (height : ℕ) → Tree height → ℤ → Prop
  | 0, _, _ => False
  | height + 1, y, key =>
    let y : Node (Tree height) := y
    OnlyKey t y key

/-- The keys after a call. -/
def Outcome.keys : Outcome height → List ℤ
  | .same x => inorder x
  | .newRoot none => []
  | .newRoot (some root) => inorder root.2

/-- The shape after a call for a node with `n` keys. -/
def Outcome.Shaped (t n : ℕ) : Outcome height → Prop
  | .same x => Sized t (n - 1) x ∧ (height ≠ 0 → 1 ≤ x.keys.length)
  | .newRoot none => n ≤ 1
  | .newRoot (some root) => n ≤ 1 ∧ Sized t 1 root.2

/-! ## A leaf -/

theorem Removed_middle {l : List ℤ} {i : ℕ} (h : l[i]? = some key) :
    Removed key l (l.take i ++ l.drop (i + 1)) := by
  obtain ⟨hlt, hget⟩ := List.getElem?_eq_some_iff.mp h
  have hsplit : l = l.take i ++ key :: l.drop (i + 1) := by
    rw [← hget, ← List.drop_eq_getElem_cons hlt, List.take_append_drop]
  have hmem : key ∈ l := List.mem_of_getElem? h
  refine ⟨fun _ => ?_, fun hnot => absurd hmem hnot⟩
  conv_lhs => rw [hsplit]
  exact List.perm_middle

/-- A sorted list that does not have the key at its place does not have it. -/
theorem not_mem_of_position {l : List ℤ} (hsorted : l.Pairwise (· ≤ ·))
    (h : l[position key l]? ≠ some key) : key ∉ l := by
  intro hmem
  rw [← List.take_append_drop (position key l) l, List.mem_append] at hmem
  obtain hmem | hmem := hmem
  · have hless := position_before key l key hmem
    omega
  · cases hstart : (l.drop (position key l)).head? with
    | none =>
      rw [List.head?_eq_none_iff] at hstart
      rw [hstart] at hmem
      exact absurd hmem (by simp)
    | some q =>
      have hq := position_behind key l q hstart
      have hle := ge_of_head? (k := q) (hsorted.sublist (List.drop_sublist _ _))
        (by rw [hstart]; simp) key hmem
      obtain rfl : q = key := by omega
      rw [List.head?_drop] at hstart
      exact h hstart

/-! ## The induction -/

/-- What a call makes of a tree. -/
structure Deleted (t : ℕ) (x : Tree height) (key : ℤ) (o : Outcome height) : Prop where
  shaped : o.Shaped t x.keys.length
  removed : Removed key (inorder x) o.keys
  sorted : o.keys.Pairwise (· ≤ ·) ↔ Ordered t height x key

theorem deleteKey_leaf {x : Tree 0} (hx : Sized t m x) (hsorted : (inorder x).Pairwise (· ≤ ·))
    (key : ℤ) : ∃ o, deleteKey t 0 x key = some o ∧ Deleted t x key o := by
  have hmost := hx.most
  rw [inorder_leaf] at hsorted
  by_cases hfound : x.keys[position key x.keys]? = some key
  · have hremoved := Removed_middle hfound
    obtain ⟨hlt, -⟩ := List.getElem?_eq_some_iff.mp hfound
    have hlength : (x.keys.take (position key x.keys) ++ x.keys.drop (position key x.keys + 1)).length =
        x.keys.length - 1 := by
      rw [List.length_append, List.length_take, List.length_drop]
      omega
    by_cases hnone : x.keys.take (position key x.keys) ++ x.keys.drop (position key x.keys + 1) = []
    · refine ⟨.newRoot none, ?_, ?_, ?_, ?_⟩
      · simp only [deleteKey, if_pos hfound, if_pos hnone]
      · rw [hnone, List.length_nil] at hlength
        show x.keys.length ≤ 1
        omega
      · rw [hnone] at hremoved
        rw [inorder_leaf]
        exact hremoved
      · exact iff_of_true List.Pairwise.nil trivial
    · refine ⟨.same ⟨x.id, x.keys.take (position key x.keys) ++
        x.keys.drop (position key x.keys + 1), x.children⟩, ?_, ?_, ?_, ?_⟩
      · simp only [deleteKey, if_pos hfound, if_neg hnone]
      · refine ⟨⟨?_, ?_, .inl rfl, hx.children⟩, fun h => absurd rfl h⟩
        · rw [hlength]
        · rw [hlength]
          omega
      · rw [inorder_leaf, Outcome.keys, inorder_leaf]
        exact hremoved
      · refine iff_of_true ?_ trivial
        rw [Outcome.keys, inorder_leaf]
        have hsub : (x.keys.take (position key x.keys) ++ x.keys.drop (position key x.keys + 1)).Sublist
            x.keys := by
          conv_rhs => rw [← List.take_append_drop (position key x.keys) x.keys]
          exact List.Sublist.append_left (List.drop_sublist_drop_left _ (by omega)) _
        exact hsorted.sublist hsub
  · have hnot := not_mem_of_position hsorted hfound
    refine ⟨.same x, ?_, ?_, ?_, ?_⟩
    · simp only [deleteKey, if_neg hfound]
    · exact ⟨hx.mono (Nat.sub_le _ _), fun h => absurd rfl h⟩
    · rw [inorder_leaf, Outcome.keys, inorder_leaf]
      exact ⟨fun hmem => absurd hmem hnot, fun _ => List.Perm.refl _⟩
    · refine iff_of_true ?_ trivial
      rw [Outcome.keys, inorder_leaf]
      exact hsorted

theorem RootMerged.length {x : Tree height} (h : RootMerged t height x key) : x.keys.length = 1 := by
  cases height with
  | zero => exact h.elim
  | succ height =>
    have honly : OnlyKey t (x : Node (Tree height)) key := h
    exact congrArg List.length honly.1

/-- A node without keys has the sequence of its one child. -/
theorem sequence_single {x : Node (Tree height)} {i : ℕ} {c c' : Tree height} (hx : SizedInner t m x)
    (hnone : x.keys = []) (hc : x.children[i]? = some c) :
    nodeSequence inorder { x with children := x.children.set i c' } = inorder c' := by
  have harity := hx.arity
  rw [hnone, List.length_nil] at harity
  obtain ⟨only, honly⟩ := List.length_eq_one_iff.mp harity
  rw [honly] at hc
  obtain rfl : i = 0 := by
    have hlt := (List.getElem?_eq_some_iff.mp hc).1
    rw [List.length_singleton] at hlt
    omega
  rw [nodeSequence, honly, hnone]
  rfl

/-- The outcome of the call for a child, in the node. -/
theorem Into.returned {y x : Node (Tree height)} {i : ℕ} {key' : ℤ} {c c' : Tree height} (ht : 2 ≤ t)
    (h : Into t y key x i key') (hinto : descend t y key = .into x i key')
    (hc : x.children[i]? = some c) (hdeleted : Deleted t c key' (.same c')) :
    ∃ o, Btree.returned x i (.same c') = some o ∧
      @Deleted (height + 1) t y key o := by
  have hcleast := (h.child c hc).1.least
  have hshaped : Sized t (c.keys.length - 1) c' := hdeleted.shaped.1
  obtain ⟨hremoved, hiff⟩ := h.removed c hc c' hdeleted.removed
  have hordered : Ordered t (height + 1) y key ↔ Extreme t y key ∧ Ordered t height c key' := by
    have hunfold : Ordered t (height + 1) y key ↔
        Extreme t y key ∧ (descend t y key).Below (Ordered t height) := Iff.rfl
    rw [hunfold, hinto, Descent.Below]
    simp only [hc, Option.mem_def, Option.some.injEq, forall_eq']
  have hsorted : (nodeSequence inorder { x with children := x.children.set i c' }).Pairwise (· ≤ ·) ↔
      Ordered t (height + 1) y key := by
    rw [hordered, hiff]
    exact and_congr_right' hdeleted.sorted
  have hleast := h.sized.least
  by_cases hnone : x.keys = []
  · refine ⟨.newRoot (some ⟨height, c'⟩), ?_, ⟨?_, hshaped.mono ?_⟩, ?_, ?_⟩
    · simp only [Btree.returned, if_pos hnone]
    · rw [hnone, List.length_nil] at hleast
      omega
    · have hkeys := hshaped.least
      omega
    · rw [sequence_single h.sized hnone hc] at hremoved
      exact hremoved
    · rw [sequence_single h.sized hnone hc] at hsorted
      exact hsorted
  · refine ⟨.same ({ x with children := x.children.set i c' } : Node (Tree height)), ?_, ⟨?_, ?_⟩,
      hremoved, hsorted⟩
    · simp only [Btree.returned, if_neg hnone]
    · apply sized_succ_iff.mpr
      refine ⟨hleast, h.sized.most, ?_, ?_⟩
      · simp only [List.length_set]
        exact h.sized.arity
      · intro d hd
        obtain hd | rfl := List.mem_or_eq_of_mem_set hd
        · exact h.sized.children d hd
        · apply hshaped.mono
          have hkeys := hshaped.least
          omega
    · exact fun _ => List.length_pos_iff.mpr hnone

/-- `btree_delete_key` reads a released node exactly if the only key of the first node is deleted
and its children are merged; otherwise it takes the key out. -/
theorem deleteKey_spec {x : Tree height} (ht : 2 ≤ t) (hx : Sized t m x)
    (hsome : height ≠ 0 → 1 ≤ x.keys.length) (hsorted : (inorder x).Pairwise (· ≤ ·)) (key : ℤ) :
    deleteKey t height x key = none ∧ RootMerged t height x key ∨
      ¬RootMerged t height x key ∧ ∃ o, deleteKey t height x key = some o ∧ Deleted t x key o := by
  induction height generalizing m key with
  | zero => exact .inr ⟨id, deleteKey_leaf hx hsorted key⟩
  | succ height ih =>
    let y : Node (Tree height) := x
    have hy : SizedInner t m y := sized_succ_iff.mp hx
    have hysome : 1 ≤ y.keys.length := hsome (Nat.succ_ne_zero height)
    obtain ⟨hfault, honly⟩ | ⟨x', i, key', hinto, hspec, honly⟩ := descend_spec hy ht hysome hsorted key
    · refine .inl ⟨?_, honly⟩
      have hfault' : descend t (x : Node (Tree height)) key = .fault := hfault
      simp only [deleteKey, hfault']
    · refine .inr ⟨honly, ?_⟩
      obtain ⟨first, c, rest, hchildren, hfirst, hc⟩ := hspec.sized.child hspec.index
      obtain ⟨hcsized, hcsorted⟩ := hspec.child c hc
      have hcleast := hcsized.least
      obtain ⟨-, hmerged⟩ | ⟨-, o, hresult, hdeleted⟩ :=
        ih hcsized (fun _ => by omega) hcsorted key'
      · have hlength := hmerged.length
        omega
      · have hsame : ∃ c', o = .same c' := by
          have hshaped := hdeleted.shaped
          cases o with
          | same c' => exact ⟨c', rfl⟩
          | newRoot T =>
            have hle : c.keys.length ≤ 1 := by
              cases T with
              | none => exact hshaped
              | some root => exact hshaped.1
            omega
        obtain ⟨c', rfl⟩ := hsame
        obtain ⟨outcome, hreturned, hwhole⟩ := hspec.returned ht hinto hc hdeleted
        refine ⟨outcome, ?_, hwhole⟩
        have hinto' : descend t (x : Node (Tree height)) key = .into x' i key' := hinto
        simp only [deleteKey, hinto', hc, Option.bind_eq_bind, Option.bind_some, hresult]
        exact hreturned

/-! ## Deletion from a tree -/

/-- The keys of a tree, or of none. -/
def keysOf : Option BTree → List ℤ
  | none => []
  | some T => inorder T.root

/-- A tree that is valid, or none. -/
def ValidOrEmpty (t : ℕ) : Option BTree → Prop
  | none => True
  | some T => Valid t T

/-- The deletion does not merge the last two children of the first node when it has found the key
there, and each neighbour that takes the place of a key is extreme. -/
def Regular (t : ℕ) : Option BTree → ℤ → Prop
  | none, _ => True
  | some T, key => ¬RootMerged t T.height T.root key ∧ Ordered t T.height T.root key

theorem Valid.some {T : BTree} (h : Valid t T) : T.height ≠ 0 → 1 ≤ T.root.keys.length := by
  intro hheight
  have hleast := h.sized.least
  rwa [if_neg hheight] at hleast

/-- The shape of a tree, or of none. -/
def SizedOrEmpty (t : ℕ) : Option BTree → Prop
  | none => True
  | some T => Sized t (if T.height = 0 then 0 else 1) T.root

theorem validOrEmpty_iff {T : Option BTree} :
    ValidOrEmpty t T ↔ (keysOf T).Pairwise (· ≤ ·) ∧ SizedOrEmpty t T := by
  cases T with
  | none => exact iff_of_true trivial ⟨List.Pairwise.nil, trivial⟩
  | some T => exact ⟨fun h => ⟨h.sorted, h.sized⟩, fun h => ⟨h.1, h.2⟩⟩

/-- The tree that `btree_delete` makes of the outcome of `btree_delete_key`. -/
theorem Deleted.outcome {root : Tree height} {next : ℕ} {o : Outcome height}
    (hdeleted : Deleted t root key o) (hresult : deleteKey t height root key = some o) :
    ∃ T', delete t (some ⟨height, root, next⟩) key = some T' ∧ keysOf T' = o.keys ∧
      SizedOrEmpty t T' := by
  have hshaped := hdeleted.shaped
  cases o with
  | same x =>
    refine ⟨some ⟨height, x, next⟩, ?_, rfl, ?_⟩
    · simp only [delete, hresult, Option.bind_eq_bind, Option.bind_some, Option.pure_def]
    · apply hshaped.1.mono
      by_cases hheight : height = 0
      · rw [if_pos hheight]
        exact Nat.zero_le _
      · rw [if_neg hheight]
        exact hshaped.2 hheight
  | newRoot T =>
    cases T with
    | none =>
      refine ⟨none, ?_, rfl, trivial⟩
      simp only [delete, hresult, Option.bind_eq_bind, Option.bind_some, Option.pure_def]
    | some root' =>
      refine ⟨some ⟨root'.1, root'.2, next⟩, ?_, rfl, ?_⟩
      · simp only [delete, hresult, Option.bind_eq_bind, Option.bind_some, Option.pure_def]
      · apply hshaped.2.mono
        have hleast := hshaped.2.least
        show (if root'.1 = 0 then 0 else 1) ≤ root'.2.keys.length
        split <;> omega

/-- In a sorted leaf the last key is the largest and the first the smallest. -/
theorem extreme_of_leaves {y : Node (Tree 0)} (hy : SizedInner t m y) (ht : 2 ≤ t)
    (hsorted : (nodeSequence inorder y).Pairwise (· ≤ ·)) (key : ℤ) : Extreme t y key := by
  have hchild : ∀ (i : ℕ) (c : Tree 0), y.children[i]? = some c → c.keys.Pairwise (· ≤ ·) := by
    intro i c hc
    have hle : i ≤ y.keys.length := by
      have hlt := (List.getElem?_eq_some_iff.mp hc).1
      have harity := hy.arity
      omega
    rw [sequence_child hle hc, List.pairwise_append, List.pairwise_append, inorder_leaf] at hsorted
    exact hsorted.1.2.1
  intro _
  constructor
  · intro a ha hrich q hq
    have hpairs := hchild _ a ha
    rw [inorder_leaf] at hq
    rw [keys_last (show 0 < a.keys.length by omega)] at hpairs hq
    rw [List.pairwise_append] at hpairs
    rw [List.mem_append, List.mem_singleton] at hq
    obtain hq | hq := hq
    · exact hpairs.2.2 q hq _ (List.mem_singleton_self _)
    · exact le_of_eq hq
  · intro a _ b hb _ hrich q hq
    have hpairs := hchild _ b hb
    rw [inorder_leaf] at hq
    rw [keys_first (show 0 < b.keys.length by omega)] at hpairs hq
    rw [List.pairwise_cons] at hpairs
    rw [List.mem_cons] at hq
    obtain hq | hq := hq
    · exact le_of_eq hq.symm
    · exact hpairs.1 q hq

/-- In a tree of at most two levels each neighbour is extreme. -/
theorem Valid.ordered {T : BTree} (h : Valid t T) (ht : 2 ≤ t) (hheight : T.height ≤ 1) (key : ℤ) :
    Ordered t T.height T.root key := by
  obtain ⟨height, root, next⟩ := T
  obtain rfl | rfl : height = 0 ∨ height = 1 := by
    simp only at hheight
    omega
  · trivial
  · refine ⟨extreme_of_leaves (sized_succ_iff.mp h.sized) ht h.sorted key, ?_⟩
    cases descend t (root : Node (Tree 0)) key with
    | fault => trivial
    | stop => trivial
    | into x i key' => exact fun c _ => trivial

/-- The first node `[2]` has two leaves with one key each. -/
example : ((delete 2 (some (insertAll 2 [1, 2, 3, 4])) 4).bind fun T => (delete 2 T 2).map keysOf) =
    none := by
  decide

end CServer.Btree
