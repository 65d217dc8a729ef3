import CServer.BTree.Siblings

/-!
# The descent of a deletion

What `btree_delete_key` has done before it calls itself: it has made a child ready, or it has put a
key of a child in the place of the key to be deleted and goes to delete that one.
-/
namespace CServer.Btree

open CServer.Interleave

variable {t m i height : ℕ} {k key : ℤ} {y : Node (Tree height)}

/-! ## The place of a key -/

theorem position_le (key : ℤ) (keys : List ℤ) : position key keys ≤ keys.length := by
  induction keys with
  | nil => exact le_rfl
  | cons q rest ih =>
    unfold position
    split
    · rw [List.length_cons]
      omega
    · exact Nat.zero_le _

/-- The keys before the place are smaller. -/
theorem position_before (key : ℤ) (keys : List ℤ) : ∀ q ∈ keys.take (position key keys), q < key := by
  induction keys with
  | nil => simp
  | cons q rest ih =>
    unfold position
    split
    · rename_i hlarger
      rw [List.take_succ_cons]
      intro p hp
      obtain rfl | hp := List.mem_cons.mp hp
      · exact hlarger
      · exact ih p hp
    · simp

/-- The key behind the place is not smaller. -/
theorem position_behind (key : ℤ) (keys : List ℤ) :
    ∀ q ∈ (keys.drop (position key keys)).head?, key ≤ q := by
  induction keys with
  | nil => simp
  | cons q rest ih =>
    unfold position
    split
    · rw [List.drop_succ_cons]
      exact ih
    · rename_i hle
      intro p hp
      obtain rfl : q = p := Option.some.inj hp
      exact not_lt.mp hle

/-- A node around the children at both sides of a key. -/
theorem SizedInner.around (hy : SizedInner t m y) (hi : i < y.keys.length) :
    ∃ before a b behind low s high, Around y i before a b behind low s high := by
  have harity := hy.arity
  have hlt : i < y.children.length := by omega
  have hlt' : i + 1 < y.children.length := by omega
  refine ⟨y.children.take i, y.children[i], y.children[i + 1], y.children.drop (i + 2), y.keys.take i,
    y.keys[i], y.keys.drop (i + 1), ?_, ?_, ?_, ?_⟩
  · rw [← List.drop_eq_getElem_cons hlt', ← List.drop_eq_getElem_cons hlt, List.take_append_drop]
  · rw [← List.drop_eq_getElem_cons hi, List.take_append_drop]
  · rw [List.length_take]
    omega
  · rw [List.length_take]
    omega

section Choice

variable {C : Type} {x : Node (Node C)} {a b : Node C}

/-- The choice of `fill` for the first child. -/
theorem fill_first (hleft : (if 1 ≤ i then x.children[i - 1]? else none) = none)
    (hright : (if i + 1 ≤ x.keys.length then x.children[i + 1]? else none) = some b) :
    fill t x i = if t ≤ b.keys.length then (borrowNext x i, i)
      else if b.keys.length = t - 1 then (merge t x i, i) else (x, i) := by
  unfold fill
  simp only [hleft, hright]
  by_cases hrich : t ≤ b.keys.length
  · simp [hrich]
  · simp [hrich]

/-- The choice of `fill` for the last child. -/
theorem fill_last (hleft : (if 1 ≤ i then x.children[i - 1]? else none) = some a)
    (hright : (if i + 1 ≤ x.keys.length then x.children[i + 1]? else none) = none) :
    fill t x i = if t ≤ a.keys.length then (borrowPrev x (i - 1), i)
      else if a.keys.length = t - 1 then (merge t x (i - 1), i - 1) else (x, i) := by
  unfold fill
  simp only [hleft, hright]
  simp

/-- The choice of `fill` for the others. -/
theorem fill_inner (hleft : (if 1 ≤ i then x.children[i - 1]? else none) = some a)
    (hright : (if i + 1 ≤ x.keys.length then x.children[i + 1]? else none) = some b) :
    fill t x i = if t ≤ a.keys.length ∨ t ≤ b.keys.length then
        if t ≤ b.keys.length ∧ a.keys.length < b.keys.length then (borrowNext x i, i)
        else (borrowPrev x (i - 1), i)
      else if a.keys.length = t - 1 ∧ b.keys.length = t - 1 then (merge t x (i - 1), i - 1)
      else (x, i) := by
  unfold fill
  simp only [hleft, hright]
  simp

end Choice

/-- A child with `t - 1` keys is made ready. -/
theorem fill_ready (hy : SizedInner t m y) (ht : 2 ≤ t) (hsome : 1 ≤ y.keys.length)
    (hi : i ≤ y.keys.length) {c : Tree height} (hc : y.children[i]? = some c)
    (hpoor : c.keys.length = t - 1) : Ready t y i (fill t y i) := by
  by_cases hbefore : 1 ≤ i
  · obtain ⟨j, rfl⟩ : ∃ j, i = j + 1 := ⟨i - 1, by omega⟩
    obtain ⟨front, a, c', behind, low, s, high, hprev⟩ := hy.around (show j < y.keys.length by omega)
    obtain rfl : c' = c := Option.some.inj (hprev.right.symm.trans hc)
    have ha := (hprev.sized hy).1.least
    have hleft : (if 1 ≤ j + 1 then y.children[j + 1 - 1]? else none) = some a := by
      rw [if_pos hbefore, Nat.add_sub_cancel]
      exact hprev.left
    by_cases hbehind : j + 2 ≤ y.keys.length
    · obtain ⟨front', c'', b, behind', low', s', high', hnext⟩ :=
        hy.around (show j + 1 < y.keys.length by omega)
      obtain rfl : c'' = c' := Option.some.inj (hnext.left.symm.trans hc)
      have hb := (hnext.sized hy).2.1.least
      have hright : (if j + 1 + 1 ≤ y.keys.length then y.children[j + 1 + 1]? else none) = some b := by
        rw [if_pos hbehind]
        exact hnext.right
      rw [fill_inner hleft hright, Nat.add_sub_cancel]
      split
      · split
        · rename_i hrich
          exact hnext.ready_borrowNext hy ht hpoor hrich.1
        · exact hprev.ready_borrowPrev hy ht hpoor (by omega)
      · rw [if_pos (by omega)]
        exact (hprev.ready_merge hy ht (by omega) hpoor).2
    · have hright : (if j + 1 + 1 ≤ y.keys.length then y.children[j + 1 + 1]? else none) = none :=
        if_neg hbehind
      rw [fill_last hleft hright, Nat.add_sub_cancel]
      split
      · rename_i hrich
        exact hprev.ready_borrowPrev hy ht hpoor hrich
      · rw [if_pos (by omega)]
        exact (hprev.ready_merge hy ht (by omega) hpoor).2
  · have hleft : (if 1 ≤ i then y.children[i - 1]? else none) = none := if_neg hbefore
    obtain ⟨front, c', b, behind, low, s, high, hnext⟩ := hy.around (show i < y.keys.length by omega)
    obtain rfl : c' = c := Option.some.inj (hnext.left.symm.trans hc)
    have hb := (hnext.sized hy).2.1.least
    have hright : (if i + 1 ≤ y.keys.length then y.children[i + 1]? else none) = some b := by
      rw [if_pos (by omega)]
      exact hnext.right
    rw [fill_first hleft hright]
    split
    · rename_i hrich
      exact hnext.ready_borrowNext hy ht hpoor hrich
    · rw [if_pos (by omega)]
      exact (hnext.ready_merge hy ht hpoor (by omega)).1

/-! ## What the rest of the deletion does to the node -/

/-- The keys of a node in which the child `i` is replaced. -/
theorem sequence_set (hi : i ≤ y.keys.length) {c : Tree height} (hc : y.children[i]? = some c)
    (c' : Tree height) :
    nodeSequence inorder { y with children := y.children.set i c' } =
      weave ((y.children.take i).map inorder) (y.keys.take i) ++ inorder c' ++
        follow ((y.children.drop (i + 1)).map inorder) (y.keys.drop i) := by
  obtain ⟨hlt, -⟩ := List.getElem?_eq_some_iff.mp hc
  have hlength : ((y.children.take i).map inorder).length = (y.keys.take i).length := by
    rw [List.length_map, List.length_take, List.length_take]
    omega
  rw [nodeSequence, List.set_eq_take_append_cons_drop, if_pos hlt, List.map_append, List.map_cons]
  conv_lhs => rw [← List.take_append_drop i y.keys]
  rw [interleave_child hlength]

theorem sequence_child (hi : i ≤ y.keys.length) {c : Tree height} (hc : y.children[i]? = some c) :
    nodeSequence inorder y =
      weave ((y.children.take i).map inorder) (y.keys.take i) ++ inorder c ++
        follow ((y.children.drop (i + 1)).map inorder) (y.keys.drop i) := by
  obtain ⟨hlt, rfl⟩ := List.getElem?_eq_some_iff.mp hc
  rw [← sequence_set hi hc, List.set_getElem_self]

/-- The key that is deleted is not outside the child below its place, if the node does not have
it. -/
theorem not_outside (hy : SizedInner t m y) (hsorted : (nodeSequence inorder y).Pairwise (· ≤ ·))
    (hkey : y.keys[position key y.keys]? ≠ some key) : key ∉ outside y (position key y.keys) := by
  have hle := position_le key y.keys
  obtain ⟨first, c, rest, hchildren, hfirst, hc⟩ := hy.child hle
  have hlength : ((y.children.take (position key y.keys)).map inorder).length =
      (y.keys.take (position key y.keys)).length := by
    rw [List.length_map, List.length_take, List.length_take]
    have harity := hy.arity
    omega
  rw [sequence_child hle hc] at hsorted
  obtain ⟨hparts, hlast, -⟩ := List.pairwise_append.mp hsorted
  obtain ⟨hfront, -, -⟩ := List.pairwise_append.mp hparts
  rw [outside, List.mem_append, not_or]
  constructor
  · intro hmem
    cases hend : (y.keys.take (position key y.keys)).getLast? with
    | none =>
      rw [← weave_getLast? hlength, List.getLast?_eq_none_iff] at hend
      rw [hend] at hmem
      exact absurd hmem (by simp)
    | some q =>
      have hq := position_before key y.keys q (List.mem_of_getLast? hend)
      have hle := le_of_getLast? (k := q) hfront (by rw [weave_getLast? hlength, hend]; simp) key hmem
      omega
  · intro hmem
    cases hstart : (y.keys.drop (position key y.keys)).head? with
    | none =>
      rw [← follow_head? ((y.children.drop (position key y.keys + 1)).map inorder),
        List.head?_eq_none_iff] at hstart
      rw [hstart] at hmem
      exact absurd hmem (by simp)
    | some q =>
      have hq := position_behind key y.keys q hstart
      have hle := ge_of_head? (k := q) hlast (by rw [follow_head?, hstart]; simp) key hmem
      obtain rfl : q = key := by omega
      rw [List.head?_drop] at hstart
      exact hkey hstart

theorem mem_inorder {x : Tree height} (hx : Sized t m x) {q : ℤ} (hq : q ∈ x.keys) :
    q ∈ inorder x := by
  apply mem_interleave _ hq
  obtain hnone | hsome := hx.node_arity
  · rw [hnone]
    exact .inl rfl
  · rw [List.length_map]
    exact .inr hsome

/-- Where a key is found in a node with children and a child has a key to spare, the key of that
child that takes its place is the largest or smallest one below it. -/
def Extreme (t : ℕ) (y : Node (Tree height)) (key : ℤ) : Prop :=
  y.keys[position key y.keys]? = some key →
    (∀ a ∈ y.children[position key y.keys]?, t ≤ a.keys.length →
      ∀ q ∈ inorder a, q ≤ a.keys.getD (a.keys.length - 1) 0) ∧
    (∀ a ∈ y.children[position key y.keys]?, ∀ b ∈ y.children[position key y.keys + 1]?,
      a.keys.length < t → t ≤ b.keys.length → ∀ q ∈ inorder b, b.keys.getD 0 0 ≤ q)

/-- The call goes to the child `i` of `x` with `key'`, and what it takes out there is what is to be
taken out of `y`; the keys are in order afterwards if the neighbour was extreme and the child is in
order. -/
structure Into (t : ℕ) (y : Node (Tree height)) (key : ℤ) (x : Node (Tree height)) (i : ℕ) (key' : ℤ) :
    Prop where
  sized : SizedInner t (y.keys.length - 1) x
  index : i ≤ x.keys.length
  child : ∀ c ∈ x.children[i]?, Sized t t c ∧ (inorder c).Pairwise (· ≤ ·)
  removed : ∀ c ∈ x.children[i]?, ∀ c' : Tree height, Removed key' (inorder c) (inorder c') →
    Removed key (nodeSequence inorder y)
      (nodeSequence inorder { x with children := x.children.set i c' }) ∧
    ((nodeSequence inorder { x with children := x.children.set i c' }).Pairwise (· ≤ ·) ↔
      Extreme t y key ∧ (inorder c').Pairwise (· ≤ ·))

/-- A child that was made ready has all keys to be deleted, or none is left. -/
theorem Ready.into {out : Node (Tree height) × ℕ} (h : Ready t y i out)
    (hsorted : (nodeSequence inorder y).Pairwise (· ≤ ·)) (hextreme : Extreme t y key)
    (hin : key ∈ Btree.outside out.1 out.2 → ∀ c ∈ out.1.children[out.2]?, key ∈ inorder c) :
    Into t y key out.1 out.2 key := by
  have hwhole := h.sequence
  refine ⟨h.sized, h.index, ?_, ?_⟩
  · intro c hc
    refine ⟨h.child c hc, ?_⟩
    rw [← hwhole, sequence_child h.index hc] at hsorted
    exact (List.pairwise_append.mp (List.pairwise_append.mp hsorted).1).2.1
  · intro c hc c' hremoved
    rw [← hwhole, sequence_child h.index hc] at hsorted
    rw [← hwhole, sequence_child h.index hc, sequence_set h.index hc]
    refine ⟨hremoved.part (fun hmem => hin hmem c hc), ?_⟩
    rw [pairwise_part_iff hsorted fun q hq => hremoved.mem hq]
    exact (and_iff_right hextreme).symm

/-- The node with another key in the place of one has the same shape. -/
theorem Around.replaced {before behind : List (Tree height)} {a b : Tree height} {low high : List ℤ}
    {s : ℤ} (h : Around y i before a b behind low s high) (hy : SizedInner t m y) (q : ℤ) :
    SizedInner t (y.keys.length - 1) { y with keys := low ++ q :: high } ∧
      i + 1 ≤ (low ++ q :: high).length := by
  obtain ⟨-, -, -, -, hlength, -, -⟩ := h.sized hy
  have hsame : (low ++ q :: high).length = y.keys.length := by
    rw [List.length_append, List.length_cons]
    omega
  have hlow := h.low
  refine ⟨⟨?_, ?_, ?_, hy.children⟩, ?_⟩
  · simp only [hsame]
    omega
  · simp only [hsame]
    exact hy.most
  · simp only [hsame]
    exact hy.arity
  · omega

/-- The last key of the left child takes the place of the key. -/
theorem Around.into_left {before behind : List (Tree height)} {a b : Tree height} {low high : List ℤ}
    (h : Around y (position key y.keys) before a b behind low key high) (hy : SizedInner t m y)
    (ht : 2 ≤ t) (hsorted : (nodeSequence inorder y).Pairwise (· ≤ ·)) (hrich : t ≤ a.keys.length) :
    Into t y key { y with
        keys := low ++ a.keys.getD (a.keys.length - 1) 0 :: high }
      (position key y.keys) (a.keys.getD (a.keys.length - 1) 0) := by
  have hnew := h.replace (a.keys.getD (a.keys.length - 1) 0)
  obtain ⟨hsized, hindex⟩ := h.replaced hy (a.keys.getD (a.keys.length - 1) 0)
  obtain ⟨ha, -⟩ := h.sized hy
  have hmem : a.keys.getD (a.keys.length - 1) 0 ∈ inorder a := by
    apply mem_inorder ha
    rw [List.getD_eq_getElem _ _ (by omega)]
    exact List.getElem_mem _
  have hextreme : Extreme t y key ↔ ∀ q ∈ inorder a, q ≤ a.keys.getD (a.keys.length - 1) 0 := by
    constructor
    · exact fun hall => (hall h.middle).1 a h.left hrich
    · intro hmax _
      refine ⟨?_, ?_⟩
      · intro c hc _
        obtain rfl : a = c := Option.some.inj (h.left.symm.trans hc)
        exact hmax
      · intro c hc _ _ hless
        obtain rfl : a = c := Option.some.inj (h.left.symm.trans hc)
        omega
  rw [h.sequence_eq, ← List.append_assoc, List.append_assoc _ (key :: inorder b)] at hsorted
  refine ⟨hsized, by simp only; omega, ?_, ?_⟩
  · intro c hc
    obtain rfl : a = c := Option.some.inj (h.left.symm.trans hc)
    exact ⟨ha.mono hrich, (List.pairwise_append.mp (List.pairwise_append.mp hsorted).1).2.1⟩
  · intro c hc c' hremoved
    obtain rfl : a = c := Option.some.inj (h.left.symm.trans hc)
    rw [(hnew.set_left c').sequence_eq, h.sequence_eq, ← List.append_assoc, ← List.append_assoc,
      List.append_assoc _ (key :: inorder b), List.append_assoc _ (_ :: inorder b), hextreme]
    exact ⟨hremoved.left hmem, pairwise_left_iff hsorted hremoved hmem⟩

/-- The first key of the right child takes the place of the key. -/
theorem Around.into_right {before behind : List (Tree height)} {a b : Tree height} {low high : List ℤ}
    (h : Around y (position key y.keys) before a b behind low key high) (hy : SizedInner t m y)
    (hsorted : (nodeSequence inorder y).Pairwise (· ≤ ·)) (hpoor : a.keys.length < t)
    (hrich : t ≤ b.keys.length) :
    Into t y key { y with keys := low ++ b.keys.getD 0 0 :: high } (position key y.keys + 1)
      (b.keys.getD 0 0) := by
  have hnew := h.replace (b.keys.getD 0 0)
  obtain ⟨hsized, hindex⟩ := h.replaced hy (b.keys.getD 0 0)
  obtain ⟨-, hb, -⟩ := h.sized hy
  have hmem : b.keys.getD 0 0 ∈ inorder b := by
    apply mem_inorder hb
    rw [List.getD_eq_getElem _ _ (by omega)]
    exact List.getElem_mem _
  have hextreme : Extreme t y key ↔ ∀ q ∈ inorder b, b.keys.getD 0 0 ≤ q := by
    constructor
    · exact fun hall => (hall h.middle).2 a h.left b h.right hpoor hrich
    · intro hmin _
      refine ⟨?_, ?_⟩
      · intro c hc hmore
        obtain rfl : a = c := Option.some.inj (h.left.symm.trans hc)
        omega
      · intro c _ d hd _ _
        obtain rfl : b = d := Option.some.inj (h.right.symm.trans hd)
        exact hmin
  rw [h.sequence_eq, ← List.append_assoc, List.append_assoc _ (key :: inorder b),
    List.cons_append] at hsorted
  refine ⟨hsized, hindex, ?_, ?_⟩
  · intro c hc
    obtain rfl : b = c := Option.some.inj (h.right.symm.trans hc)
    have hpart := (List.pairwise_cons.mp (List.pairwise_append.mp hsorted).2.1).2
    exact ⟨hb.mono hrich, (List.pairwise_append.mp hpart).1⟩
  · intro c hc c' hremoved
    obtain rfl : b = c := Option.some.inj (h.right.symm.trans hc)
    rw [(hnew.set_right c').sequence_eq, h.sequence_eq, ← List.append_assoc, ← List.append_assoc,
      List.append_assoc _ (key :: inorder b), List.append_assoc _ (_ :: inorder c'), hextreme,
      List.cons_append, List.cons_append]
    exact ⟨hremoved.right hmem, pairwise_right_iff hsorted hremoved hmem⟩

/-- The key is the only one of the node, and its two children have none to spare. -/
def OnlyKey (t : ℕ) (y : Node (Tree height)) (key : ℤ) : Prop :=
  y.keys = [key] ∧ ∀ c ∈ y.children, c.keys.length < t

/-- How the deletion goes on in a node with children. -/
theorem descend_spec (hy : SizedInner t m y) (ht : 2 ≤ t) (hsome : 1 ≤ y.keys.length)
    (hsorted : (nodeSequence inorder y).Pairwise (· ≤ ·)) (key : ℤ) :
    descend t y key = .fault ∧ OnlyKey t y key ∨
      ∃ x i key', descend t y key = .into x i key' ∧ Into t y key x i key' ∧ ¬OnlyKey t y key := by
  have hle := position_le key y.keys
  by_cases hfound : y.keys[position key y.keys]? = some key
  · obtain ⟨hlt, hget⟩ := List.getElem?_eq_some_iff.mp hfound
    obtain ⟨before, a, b, behind, low, s, high, h⟩ := hy.around hlt
    obtain rfl : s = key := Option.some.inj (h.middle.symm.trans hfound)
    obtain ⟨ha, hb, -, -, hlength, hfront, hback⟩ := h.sized hy
    have haleast := ha.least
    have hbleast := hb.least
    have hnot : ∀ c ∈ y.children, t ≤ c.keys.length → ¬OnlyKey t y s := by
      intro c hc hrich honly
      have hless := honly.2 c hc
      omega
    by_cases hleft : t ≤ a.keys.length
    · refine .inr ⟨_, _, _, ?_, h.into_left hy ht hsorted hleft, hnot a (by rw [h.children]; simp) hleft⟩
      simp only [descend, if_pos hfound, h.left, h.right, if_pos hleft, h.take_keys, h.drop_keys]
    · by_cases hright : t ≤ b.keys.length
      · refine .inr ⟨_, _, _, ?_, h.into_right hy hsorted (by omega) hright,
          hnot b (by rw [h.children]; simp) hright⟩
        simp only [descend, if_pos hfound, h.left, h.right, if_neg hleft, if_pos hright, h.take_keys,
          h.drop_keys]
      · have hready := (h.ready_merge hy ht (by omega) (by omega)).1
        have hextreme : Extreme t y s := by
          intro _
          refine ⟨?_, ?_⟩
          · intro c hc hmore
            obtain rfl : a = c := Option.some.inj (h.left.symm.trans hc)
            exact absurd hmore hleft
          · intro _ _ d hd _ hmore
            obtain rfl : b = d := Option.some.inj (h.right.symm.trans hd)
            exact absurd hmore hright
        have hmerged : (merge t y (position s y.keys)).keys = low ++ high := by
          rw [h.merge_eq]
        have honly : OnlyKey t y s ↔ low ++ high = [] := by
          constructor
          · rintro ⟨hkeys, -⟩
            apply List.eq_nil_of_length_eq_zero
            rw [hkeys, List.length_singleton] at hlength
            rw [List.length_append]
            omega
          · intro hnone
            obtain ⟨rfl, rfl⟩ := List.append_eq_nil_iff.mp hnone
            obtain rfl := List.eq_nil_of_length_eq_zero hfront
            obtain rfl := List.eq_nil_of_length_eq_zero hback
            refine ⟨h.keys, ?_⟩
            intro c hc
            rw [h.children] at hc
            simp only [List.nil_append, List.mem_cons, List.not_mem_nil, or_false] at hc
            obtain rfl | rfl := hc
            · omega
            · omega
        by_cases hnone : low ++ high = []
        · refine .inl ⟨?_, honly.mpr hnone⟩
          simp only [descend, if_pos hfound, h.left, h.right, if_neg hleft, if_neg hright, hmerged,
            if_pos hnone]
        · refine .inr ⟨_, _, _, ?_, hready.into hsorted hextreme ?_, fun h => hnone (honly.mp h)⟩
          · simp only [descend, if_pos hfound, h.left, h.right, if_neg hleft, if_neg hright, hmerged,
              if_neg hnone]
          · intro _ c hc
            have hchild : (merge t y (position s y.keys)).children[position s y.keys]? =
                some (both t a s b) := by
              simp only [h.merge_eq]
              rw [← h.first, List.getElem?_append_right le_rfl, Nat.sub_self]
              rfl
            obtain rfl : both t a s b = c := Option.some.inj (hchild.symm.trans hc)
            apply mem_inorder (ha.both hb ht (by omega) (by omega))
            simp [both]
  · obtain ⟨first, c, rest, hchildren, hfirst, hc⟩ := hy.child hle
    have hcleast : t - 1 ≤ c.keys.length := by
      apply (hy.children c _).least
      rw [hchildren]
      simp
    have houtside := not_outside hy hsorted hfound
    have honly : ¬OnlyKey t y key := by
      rintro ⟨hkeys, -⟩
      apply hfound
      rw [hkeys]
      simp [position]
    have hextreme : Extreme t y key := fun hkey => absurd hkey hfound
    refine .inr ?_
    by_cases hpoor : c.keys.length = t - 1
    · have hready := fill_ready hy ht hsome hle hc hpoor
      refine ⟨(fill t y (position key y.keys)).1, (fill t y (position key y.keys)).2, key, ?_,
        hready.into hsorted hextreme ?_, honly⟩
      · simp only [descend, if_neg hfound, hc, if_pos hpoor]
      · exact fun hmem => absurd (hready.outside key hmem) houtside
    · have hready : Ready t y (position key y.keys) (y, position key y.keys) := by
        refine ⟨⟨Nat.sub_le _ _, hy.most, hy.arity, hy.children⟩, hle, ?_, rfl, fun _ h => h⟩
        intro d hd
        obtain rfl : c = d := Option.some.inj (hc.symm.trans hd)
        have hsized := hy.children c (by rw [hchildren]; simp)
        exact hsized.mono (by omega)
      refine ⟨y, position key y.keys, key, ?_, hready.into hsorted hextreme ?_, honly⟩
      · simp only [descend, if_neg hfound, hc, if_neg hpoor]
      · exact fun hmem => absurd hmem houtside

end CServer.Btree
