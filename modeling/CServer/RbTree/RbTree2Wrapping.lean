import CServer.RbTree.RbTree2Runs
import Mathlib.Algebra.Group.Nat.Defs

/-!
# Insertions in rb_tree2.cpp with keys from the whole type

`rb_search` orders two keys by the sign of their difference, which wraps around in an `int`, and
`rb_insert` orders them by `<`. The two part at the first node on the way of a key whose key is
too far away from it: the search turns to the wrong side and does not find the key.
-/
namespace CServer.RbTree2.Wrapping

open RedBlack Contents

/-- A value of the type `int`. -/
def IsInt (k : ℤ) : Prop := -2 ^ 31 ≤ k ∧ k < 2 ^ 31

instance (k : ℤ) : Decidable (IsInt k) := inferInstanceAs (Decidable (_ ∧ _))

/-- `a - b` of two `int`s, which wraps around. -/
def intSub (a b : ℤ) : ℤ := Int.bmod (a - b) (2 ^ 32)

/-- `rb_search_auxiliary`. -/
def rbSearchAuxiliary (nil : Addr) (heap : Heap Entry) (key : ℤ) : ℕ → Addr → Except Fault Addr
  | 0, _ => .error .endless
  | turns + 1, node =>
    if node = nil then .ok nil
    else do
      let n ← heap.node node
      let ret := intSub n.value.key key
      if 0 < ret then rbSearchAuxiliary nil heap key turns n.left
      else if ret < 0 then rbSearchAuxiliary nil heap key turns n.right
      else .ok node

/-- `rb_search`. -/
def rbSearch (turns : ℕ) (nil : Addr) (key : ℤ) (t : RbTree) : Except Fault Addr :=
  rbSearchAuxiliary nil t.heap key turns t.root

/-- `rb_insert`, where `rb_new_node` returns `z`. -/
def rbInsert (turns : ℕ) (nil : Addr) (key data : ℤ) (z : Addr) (t : RbTree) :
    Except Fault RbTree := do
  let found ← rbSearch turns nil key t
  if found ≠ nil then .ok t else insertNew turns nil key data z t

/-- The trees after some insertions have returned, where each was allowed; `malloc` gives an
address that is not in use. -/
inductive Reached (nil : Addr) (Allowed : ℤ → RbTree → Prop) : List Call → RbTree → Prop
  | start (uninitialised : Entry) : Reached nil Allowed [] (rbInit nil uninitialised)
  | insert {calls t t'} {key data : ℤ} {z : Addr} (before : Reached nil Allowed calls t)
      (fresh : t.heap z = none) (allowed : Allowed key t)
      (returns : Returns (fun turns => rbInsert turns nil key data z t) t') :
      Reached nil Allowed (calls ++ [.insert key data]) t'

open ColorTree

variable {nil q : Addr} {t : RbTree} {heap : Heap Entry} {T u : ColorTree (Cell Entry)}
variable {K : Ctx (Cell Entry)} {k d a b : ℤ} {x : Cell Entry} {z : Addr} {calls : List Call}

/-! ## Differences -/

/-- The keys are near enough for their difference to be an `int`. -/
def Near (a b : ℤ) : Prop := -2 ^ 31 ≤ a - b ∧ a - b < 2 ^ 31

instance (a b : ℤ) : Decidable (Near a b) := inferInstanceAs (Decidable (_ ∧ _))

theorem intSub_of_near (h : Near a b) : intSub a b = a - b :=
  Int.bmod_eq_of_le (by have := h.1; omega) (by have := h.2; omega)

/-- A difference that is too large gets the wrong sign. -/
theorem intSub_of_far (ha : IsInt a) (hb : IsInt b) (h : ¬ Near a b) :
    b < a ∧ intSub a b < 0 ∨ a < b ∧ 0 < intSub a b := by
  obtain ⟨ha, ha'⟩ := ha
  obtain ⟨hb, hb'⟩ := hb
  rw [Near, not_and_or, not_le, not_lt] at h
  obtain hbelow | habove := h
  · have hwrapped : intSub a b = a - b + 2 ^ 32 := by
      rw [intSub, ← Int.add_bmod_right]
      exact Int.bmod_eq_of_le (by push_cast; omega) (by push_cast; omega)
    exact .inr ⟨by omega, by omega⟩
  · have hwrapped : intSub a b = a - b - 2 ^ 32 := by
      rw [intSub, ← Int.sub_bmod_right]
      exact Int.bmod_eq_of_le (by push_cast; omega) (by push_cast; omega)
    exact .inl ⟨by omega, by omega⟩

/-! ## The search -/

/-- Where the search ends: the node it returns, or the empty subtree. -/
def found (k : ℤ) : ColorTree (Cell Entry) → ColorTree (Cell Entry)
  | leaf => leaf
  | node c l x r =>
    if 0 < intSub (keyOf x) k then found k l
    else if intSub (keyOf x) k < 0 then found k r
    else node c l x r

/-- Every key on the way to `k` is near enough. -/
def ClearWay (k : ℤ) : ColorTree (Cell Entry) → Prop
  | leaf => True
  | node _ l x r => Near (keyOf x) k ∧ (k < keyOf x → ClearWay k l) ∧ (keyOf x < k → ClearWay k r)

theorem rbSearchAuxiliary_spec (rep : Rep heap nil nil (fill K u)) :
    Returns (fun turns => rbSearchAuxiliary nil heap k turns (ptr nil u)) (ptr nil (found k u)) := by
  induction u generalizing K with
  | leaf => exact Returns.of_succ (fun turns => if_pos rfl)
  | node c l x r ihl ihr =>
    obtain ⟨hne, -, hx⟩ := rep.read
    have hturn : ∀ turns, rbSearchAuxiliary nil heap k (turns + 1) x.addr =
        if 0 < intSub (keyOf x) k then rbSearchAuxiliary nil heap k turns (ptr nil l)
        else if intSub (keyOf x) k < 0 then rbSearchAuxiliary nil heap k turns (ptr nil r)
        else .ok x.addr := by
      intro turns
      rw [rbSearchAuxiliary, if_neg hne, hx, ok_bind]
      rfl
    rw [found]
    split
    · rename_i hpos
      have ih := ihl (K := ⟨.left, c, x, r⟩ :: K) rep
      exact ih.succ (fun turns => (hturn turns).trans (if_pos hpos))
    · rename_i hpos
      split
      · rename_i hneg
        have ih := ihr (K := ⟨.right, c, x, l⟩ :: K) rep
        exact ih.succ (fun turns => (hturn turns).trans ((if_neg hpos).trans (if_pos hneg)))
      · rename_i hneg
        exact Returns.of_succ (fun turns => (hturn turns).trans ((if_neg hpos).trans (if_neg hneg)))

/-- On a clear way the search ends where the order by `<` leads. -/
theorem found_of_clear (h : ClearWay k u) : found k u = (locate keyOf k K u).2 := by
  induction u generalizing K with
  | leaf => rfl
  | node c l x r ihl ihr =>
    obtain ⟨hnear, hleft, hright⟩ := h
    rw [found, locate, intSub_of_near hnear]
    by_cases hlt : k < keyOf x
    · rw [if_pos (by omega), if_pos hlt, ihl (hleft hlt)]
    · rw [if_neg (by omega), if_neg hlt]
      by_cases hgt : keyOf x < k
      · rw [if_pos (by omega), if_pos hgt, ihr (hright hgt)]
      · rw [if_neg (by omega), if_neg hgt]

/-- A key that is not there is not found, whichever way the search goes. -/
theorem found_of_forall_ne (hk : IsInt k) (hints : ∀ x ∈ u.toList, IsInt (keyOf x))
    (hne : ∀ x ∈ u.toList, keyOf x ≠ k) : found k u = leaf := by
  induction u with
  | leaf => rfl
  | node c l x r ihl ihr =>
    have hx : x ∈ (node c l x r).toList := by simp [toList]
    have hl := ihl (fun y hy => hints y (List.mem_append_left _ hy))
      (fun y hy => hne y (List.mem_append_left _ hy))
    have hr := ihr (fun y hy => hints y (List.mem_append_right _ (List.mem_cons_of_mem _ hy)))
      (fun y hy => hne y (List.mem_append_right _ (List.mem_cons_of_mem _ hy)))
    have hsign : intSub (keyOf x) k ≠ 0 := by
      by_cases hnear : Near (keyOf x) k
      · rw [intSub_of_near hnear]
        have hkey := hne x hx
        omega
      · obtain ⟨-, hneg⟩ | ⟨-, hpos⟩ := intSub_of_far (hints x hx) hk hnear <;> omega
    rw [found, hl, hr]
    split
    · rfl
    · rw [if_pos (by omega)]

/-- At the first key that is too far away the search turns to the wrong side. -/
theorem found_of_not_clear (hk : IsInt k) (hints : ∀ x ∈ u.toList, IsInt (keyOf x))
    (hincreasing : Increasing keyOf u.toList) (h : ¬ ClearWay k u) : found k u = leaf := by
  induction u with
  | leaf => exact absurd trivial h
  | node c l x r ihl ihr =>
    have hx : x ∈ (node c l x r).toList := by simp [toList]
    have hintsl : ∀ y ∈ l.toList, IsInt (keyOf y) := fun y hy => hints y (List.mem_append_left _ hy)
    have hintsr : ∀ y ∈ r.toList, IsInt (keyOf y) :=
      fun y hy => hints y (List.mem_append_right _ (List.mem_cons_of_mem _ hy))
    obtain ⟨hrest, hbelow, habove⟩ := increasing_append_cons.mp hincreasing
    have hincl : Increasing keyOf l.toList := (List.pairwise_append.mp hrest).1
    have hincr : Increasing keyOf r.toList := (List.pairwise_append.mp hrest).2.1
    rw [found]
    by_cases hnear : Near (keyOf x) k
    · rw [intSub_of_near hnear]
      have hlater : (k < keyOf x ∧ ¬ ClearWay k l) ∨ (keyOf x < k ∧ ¬ ClearWay k r) := by
        rw [ClearWay] at h
        tauto
      obtain ⟨hlt, hl⟩ | ⟨hgt, hr⟩ := hlater
      · rw [if_pos (by omega), ihl hintsl hincl hl]
      · rw [if_neg (by omega), if_pos (by omega), ihr hintsr hincr hr]
    · obtain ⟨hlt, hneg⟩ | ⟨hgt, hpos⟩ := intSub_of_far (hints x hx) hk hnear
      · -- the key is smaller, and the search goes to the larger ones
        rw [if_neg (by omega), if_pos hneg]
        apply found_of_forall_ne hk hintsr
        intro y hy
        have hxy := habove y hy
        omega
      · rw [if_pos hpos]
        apply found_of_forall_ne hk hintsl
        intro y hy
        have hyx := hbelow y hy
        omega

/-! ## Insertion -/

/-- The walk of an insertion, whether or not the key is there. -/
theorem insertWalk_descend (rep : Rep heap nil nil (fill K u)) :
    Returns (fun turns => insertWalk nil heap k turns (parentOf nil K) (ptr nil u))
      (parentOf nil (descend (fun x => k < keyOf x) K u)) := by
  fun_induction descend (fun x => k < keyOf x) K u with
  | case1 K => exact Returns.of_succ (fun turns => if_pos rfl)
  | case2 K c l x r hlt ih =>
    obtain ⟨hne, -, hx⟩ := rep.read
    refine (ih rep).succ (fun turns => ?_)
    show insertWalk nil heap k (turns + 1) (parentOf nil K) x.addr = _
    rw [insertWalk, if_neg hne, hx, ok_bind]
    exact if_pos (of_decide_eq_true hlt)
  | case3 K c l x r hlt ih =>
    obtain ⟨hne, -, hx⟩ := rep.read
    refine (ih rep).succ (fun turns => ?_)
    show insertWalk nil heap k (turns + 1) (parentOf nil K) x.addr = _
    rw [insertWalk, if_neg hne, hx, ok_bind]
    exact if_neg (fun h => hlt (decide_eq_true h))

theorem insertNew_descend (h : Shows nil q t T) (hvalid : Valid T) (hfresh : t.heap z = none) :
    ∃ t' q' T', Returns (fun turns => insertNew turns nil k d z t) t' ∧ Shows nil q' t' T' ∧
      Valid T' ∧ T'.toList = before (descend (fun x => k < keyOf x) [] T) ++
        ⟨z, ⟨k, d⟩⟩ :: after (descend (fun x => k < keyOf x) [] T) := by
  have hfill : fill (descend (fun x => decide (k < keyOf x)) [] T) leaf = T := fill_descend
  have hwalk := insertWalk_descend (K := []) (k := k) h.rep
  rw [parentOf_nil, ← h.root] at hwalk
  rw [← hfill] at h hvalid
  refine insertNew_place h hvalid ?_ hwalk hfresh
  intro f rest hcons
  have hmem : f ∈ descend (fun x => decide (k < keyOf x)) [] T := by
    rw [hcons]
    exact List.mem_cons_self
  have hside := side_of_mem_descend (fun g hg => absurd hg List.not_mem_nil) hmem
  simpa only [decide_eq_true_eq] using hside

/-- A red-black tree in memory with increasing keys, each an `int`. -/
structure Correct (nil : Addr) (t : RbTree) (T : ColorTree (Cell Entry)) : Prop where
  shown : ∃ scratch, Shows nil scratch t T
  valid : Valid T
  increasing : Increasing keyOf T.toList
  ints : ∀ v ∈ entries T, IsInt v.key

theorem Correct.search (h : Correct nil t T) :
    Returns (fun turns => rbSearch turns nil k t) (ptr nil (found k T)) := by
  obtain ⟨q, hshown⟩ := h.shown
  have hsearch := rbSearchAuxiliary_spec (K := []) (k := k) hshown.rep
  rw [← hshown.root] at hsearch
  exact hsearch

theorem Correct.found_of_not_clear (h : Correct nil t T) (hk : IsInt k) (hclear : ¬ ClearWay k T) :
    found k T = leaf :=
  Wrapping.found_of_not_clear hk (fun x hx => h.ints x.value (List.mem_map_of_mem hx)) h.increasing
    hclear

theorem Correct.found_of_new (h : Correct nil t T) (hk : IsInt k)
    (hnew : ∀ v ∈ entries T, v.key ≠ k) : found k T = leaf :=
  found_of_forall_ne hk (fun x hx => h.ints x.value (List.mem_map_of_mem hx))
    (fun x hx => hnew x.value (List.mem_map_of_mem hx))

theorem Correct.found_of_old (h : Correct nil t T) {v : Entry} (hv : v ∈ entries T)
    (hclear : ClearWay v.key T) :
    ∃ c l x r, found v.key T = node c l x r ∧ x.addr ≠ nil ∧
      ∃ n, t.heap x.addr = some n ∧ n.value = v := by
  obtain ⟨c, l, x, r, hnode, hvalue⟩ := found_of_mem h.increasing hv
  obtain ⟨q, hshown⟩ := h.shown
  have hne : x.addr ≠ nil := hshown.rep.mem_ne_nil (List.mem_map_of_mem (mem_of_found hnode))
  have hfill : fill (locate keyOf v.key [] T).1 (locate keyOf v.key [] T).2 = T := fill_locate
  have hrep := hshown.rep
  rw [hnode] at hfill
  rw [← hfill] at hrep
  refine ⟨c, l, x, r, ?_, hne, _, (holds_fill.mp hrep.holds).2.1, hvalue⟩
  rw [found_of_clear (K := []) hclear, hnode]

/-- The place of a key that is not there. -/
theorem between_descend (h : Correct nil t T) (hnew : ∀ v ∈ entries T, v.key ≠ k) :
    Between keyOf k (descend (fun x => k < keyOf x) [] T) := by
  have hmono : (fill [] T).toList.Pairwise
      (fun a b => decide (k < keyOf a) = true → decide (k < keyOf b) = true) := by
    refine h.increasing.imp ?_
    intro a b hab hka
    rw [decide_eq_true_eq] at hka ⊢
    exact lt_trans hka hab
  have hdivides := divides_nil.descend hmono
  have hlist : (fill (descend (fun x => decide (k < keyOf x)) [] T) leaf).toList = T.toList :=
    congrArg toList fill_descend
  rw [toList_fill, toList, List.append_nil] at hlist
  refine ⟨?_, ?_⟩
  · intro a ha
    have hge : ¬ k < keyOf a := of_decide_eq_false (hdivides.before a ha)
    have hne : keyOf a ≠ k :=
      hnew a.value (List.mem_map_of_mem (hlist ▸ List.mem_append_left _ ha))
    omega
  · intro b hb
    exact of_decide_eq_true (hdivides.after b hb)

/-- A key that is not there is added. -/
theorem rbInsert_new (h : Correct nil t T) (hk : IsInt k) (hfresh : t.heap z = none)
    (hnew : ∀ v ∈ entries T, v.key ≠ k) :
    ∃ t' T', Returns (fun turns => rbInsert turns nil k d z t) t' ∧ Correct nil t' T' ∧
      ∀ v, v ∈ entries T' ↔ v = ⟨k, d⟩ ∨ v ∈ entries T := by
  obtain ⟨q, hshown⟩ := h.shown
  obtain ⟨t', q', T', hreturns, hshown', hvalid', hlist⟩ :=
    insertNew_descend (k := k) (d := d) hshown h.valid hfresh
  have hfill : fill (descend (fun x => decide (k < keyOf x)) [] T) leaf = T := fill_descend
  have hmem : ∀ v, v ∈ entries T' ↔ v = ⟨k, d⟩ ∨ v ∈ entries T := by
    apply mem_insert_entry
      (p := (before (descend (fun x => decide (k < keyOf x)) [] T)).map Cell.value)
    · nth_rewrite 1 [← hfill]
      rw [entries_fill]
      exact congrArg (· ++ _) (List.append_nil _)
    · rw [entries, hlist, List.map_append, List.map_cons]
  have hincreasing' : Increasing keyOf T'.toList := by
    apply increasing_insert (v := ⟨k, d⟩) _ (between_descend h hnew) hlist
    rw [hfill]
    exact h.increasing
  refine ⟨t', T', (h.search (k := k)).after hreturns ?_, ⟨⟨q', hshown'⟩, hvalid', hincreasing', ?_⟩, hmem⟩
  · intro turns hok
    rw [rbInsert, hok, ok_bind, h.found_of_new hk hnew]
    exact if_neg (not_not.mpr rfl)
  · intro v hv
    obtain rfl | hold := (hmem v).mp hv
    · exact hk
    · exact h.ints v hold

/-- A key that is found is not added again. -/
theorem rbInsert_old (h : Correct nil t T) {v : Entry} (hv : v ∈ entries T)
    (hclear : ClearWay v.key T) : Returns (fun turns => rbInsert turns nil v.key d z t) t := by
  obtain ⟨c, l, x, r, hnode, hne, -⟩ := h.found_of_old hv hclear
  apply (h.search (k := v.key)).after (Returns.of_eq (f := fun _ => .ok t) (fun _ => rfl))
  intro turns hok
  rw [rbInsert, hok, ok_bind, hnode]
  exact if_pos hne

/-- A key that is there and is not found gets a second node. -/
theorem rbInsert_twice (h : Correct nil t T) (hk : IsInt k) (hfresh : t.heap z = none)
    (hold : ∃ v ∈ entries T, v.key = k) (hclear : ¬ ClearWay k T) :
    ∃ t' q' T', Returns (fun turns => rbInsert turns nil k d z t) t' ∧ Shows nil q' t' T' ∧
      ¬ Increasing keyOf T'.toList := by
  obtain ⟨q, hshown⟩ := h.shown
  obtain ⟨t', q', T', hreturns, hshown', -, hlist⟩ :=
    insertNew_descend (k := k) (d := d) hshown h.valid hfresh
  refine ⟨t', q', T', (h.search (k := k)).after hreturns ?_, hshown', ?_⟩
  · intro turns hok
    rw [rbInsert, hok, ok_bind, h.found_of_not_clear hk hclear]
    exact if_neg (not_not.mpr rfl)
  · intro hincreasing
    obtain ⟨v, hv, rfl⟩ := hold
    obtain ⟨x, hx, rfl⟩ := List.mem_map.mp hv
    have hold : (fill (descend (fun y => decide (x.value.key < keyOf y)) [] T) leaf).toList =
        T.toList := congrArg toList fill_descend
    rw [toList_fill, toList, List.append_nil] at hold
    rw [hlist, increasing_append_cons] at hincreasing
    rw [← hold, List.mem_append] at hx
    obtain hbefore | hafter := hx
    · exact lt_irrefl _ (hincreasing.2.1 x hbefore)
    · exact lt_irrefl _ (hincreasing.2.2 x hafter)

/-! ## Runs -/

/-- If the key is in the tree, every key on the way to it is near enough. -/
def Regular (nil : Addr) (k : ℤ) (t : RbTree) : Prop :=
  ∀ scratch T, Shows nil scratch t T → (∃ v ∈ entries T, v.key = k) → ClearWay k T

/-- The memory holds each key that was inserted once, with the data of its first insertion. -/
def HoldsOnce (nil : Addr) (calls : List Call) (t : RbTree) : Prop :=
  ∃ scratch T, Shows nil scratch t T ∧ Increasing keyOf T.toList ∧ HasContents calls (entries T)

/-- What `rb_search` returns for a key. -/
def Finds (nil : Addr) (t : RbTree) (key : ℤ) (data : Option ℤ) : Prop :=
  ∃ node, Returns (fun turns => rbSearch turns nil key t) node ∧ (data = none → node = nil) ∧
    ∀ d, data = some d → node ≠ nil ∧ ∃ n, t.heap node = some n ∧ n.value = ⟨key, d⟩

theorem Correct.empty (nil : Addr) (uninitialised : Entry) :
    Correct nil (rbInit nil uninitialised) leaf where
  shown := (RbTree2.Correct.empty nil uninitialised).shown
  valid := ⟨rfl, 0, .leaf⟩
  increasing := increasing_nil
  ints _ hv := absurd hv List.not_mem_nil

theorem Reached.correct (h : Reached nil (Regular nil) calls t)
    (hkeys : ∀ call ∈ calls, IsInt call.key) :
    ∃ T, Correct nil t T ∧ HasContents calls (entries T) := by
  induction h with
  | start uninitialised => exact ⟨leaf, .empty nil uninitialised, .nil⟩
  | @insert calls t t' key data z _ fresh allowed returns ih =>
    obtain ⟨T, hT, hcontents⟩ := ih (fun call hcall => hkeys call (List.mem_append_left _ hcall))
    have hkey : IsInt key := hkeys (.insert key data) (by simp)
    by_cases hold : ∃ v ∈ entries T, v.key = key
    · obtain ⟨q, hshown⟩ := hT.shown
      have hclear := allowed q T hshown hold
      obtain ⟨v, hv, rfl⟩ := hold
      obtain rfl := returns.unique (rbInsert_old hT hv hclear)
      exact ⟨T, hT, hcontents.insert_old hv rfl⟩
    · have hnew : ∀ v ∈ entries T, v.key ≠ key := fun v hv hv' => hold ⟨v, hv, hv'⟩
      obtain ⟨t'', T', hreturns, hT', hmem⟩ := rbInsert_new (d := data) hT hkey fresh hnew
      obtain rfl := returns.unique hreturns
      exact ⟨T', hT', hcontents.insert_new hnew hmem⟩

theorem Correct.regular_iff (h : Correct nil t T) :
    Regular nil k t ↔ ((∃ v ∈ entries T, v.key = k) → ClearWay k T) := by
  obtain ⟨q, hshown⟩ := h.shown
  constructor
  · intro hregular
    exact hregular q T hshown
  · intro hclear q' T' hshown'
    rw [hshown'.unique hshown]
    exact hclear

/-- A search is right exactly if its way is clear. -/
theorem Correct.finds_iff (h : Correct nil t T) (hcontents : HasContents calls (entries T))
    (hk : IsInt k) : Finds nil t k (contents calls k) ↔ Regular nil k t := by
  rw [h.regular_iff]
  constructor
  · rintro ⟨node, hsearch, -, hsome⟩ ⟨v, hv, rfl⟩
    by_contra hclear
    have hnil := hsearch.unique h.search
    rw [h.found_of_not_clear hk hclear] at hnil
    exact (hsome v.data ((hcontents v.key v.data).mpr hv)).1 hnil
  · intro hclear
    refine ⟨_, h.search, ?_, ?_⟩
    · intro hnone
      rw [h.found_of_new hk (hcontents.eq_none_iff.mp hnone)]
      rfl
    · intro d hsome
      have hv := (hcontents k d).mp hsome
      obtain ⟨c, l, x, r, hnode, hread⟩ := h.found_of_old hv (hclear ⟨_, hv, rfl⟩)
      rw [hnode]
      exact hread

/-- An insertion keeps every key once exactly if its way is clear. -/
theorem Correct.insert_iff (h : Correct nil t T) (hcontents : HasContents calls (entries T))
    (hk : IsInt k) (hfresh : t.heap z = none) :
    ∃ t', Returns (fun turns => rbInsert turns nil k d z t) t' ∧
      (HoldsOnce nil (calls ++ [.insert k d]) t' ↔ Regular nil k t) := by
  rw [h.regular_iff]
  by_cases hold : ∃ v ∈ entries T, v.key = k
  · by_cases hclear : ClearWay k T
    · obtain ⟨v, hv, rfl⟩ := hold
      obtain ⟨q, hshown⟩ := h.shown
      refine ⟨t, rbInsert_old h hv hclear, iff_of_true ?_ (fun _ => hclear)⟩
      exact ⟨q, T, hshown, h.increasing, hcontents.insert_old hv rfl⟩
    · obtain ⟨t', q', T', hreturns, hshown', htwice⟩ :=
        rbInsert_twice (d := d) h hk hfresh hold hclear
      refine ⟨t', hreturns, iff_of_false ?_ (fun hregular => hclear (hregular hold))⟩
      rintro ⟨q'', T'', hshown'', hincreasing, -⟩
      rw [hshown''.unique hshown'] at hincreasing
      exact htwice hincreasing
  · have hnew : ∀ v ∈ entries T, v.key ≠ k := fun v hv hkey => hold ⟨v, hv, hkey⟩
    obtain ⟨t', T', hreturns, hT', hmem⟩ := rbInsert_new (d := d) h hk hfresh hnew
    obtain ⟨q', hshown'⟩ := hT'.shown
    refine ⟨t', hreturns, iff_of_true ?_ (fun hold' => absurd hold' hold)⟩
    exact ⟨q', T', hshown', hT'.increasing, hcontents.insert_new hnew hmem⟩

/-- In a run whose insertions have clear ways the tree holds each key once with the data of its
first insertion; then a search for a key is right exactly if the way of the key is clear, and the
next insertion returns and keeps every key once exactly if the way of its key is. -/
theorem clear_runs_correct (hkeys : ∀ call ∈ calls, IsInt call.key)
    (h : Reached nil (Regular nil) calls t) :
    HoldsOnce nil calls t ∧ (∀ k, IsInt k → (Finds nil t k (contents calls k) ↔ Regular nil k t)) ∧
      ∀ k d z, IsInt k → t.heap z = none →
        ∃ t', Returns (fun turns => rbInsert turns nil k d z t) t' ∧
          (HoldsOnce nil (calls ++ [.insert k d]) t' ↔ Regular nil k t) := by
  obtain ⟨T, hT, hcontents⟩ := h.correct hkeys
  obtain ⟨q, hshown⟩ := hT.shown
  refine ⟨⟨q, T, hshown, hT.increasing, hcontents⟩, ?_, ?_⟩
  · intro k hk
    exact hT.finds_iff hcontents hk
  · intro k d z hk hfresh
    exact hT.insert_iff hcontents hk hfresh

/-- The tree after the key 0, with the sentinel at 100. -/
def single : RbTree :=
  match rbInsert 20 100 0 7 1 (rbInit 100 ⟨0, 0⟩) with
  | .ok t => t
  | .error _ => rbInit 100 ⟨0, 0⟩

theorem Reached.single {Allowed : ℤ → RbTree → Prop} (h : Allowed 0 (rbInit 100 ⟨0, 0⟩)) :
    Reached 100 Allowed [.insert 0 7] single := by
  have hinsert : ∀ more, rbInsert (more + 20) 100 0 7 1 (rbInit 100 ⟨0, 0⟩) = .ok Wrapping.single :=
    fun more => rfl
  have hstart : Reached 100 Allowed [] (rbInit 100 ⟨0, 0⟩) := .start _
  exact hstart.insert rfl h (Returns.of_add hinsert)

theorem clear_runs_correct_single :
    ∃ t, Reached 100 (Regular 100) [.insert 0 7] t ∧ Finds 100 t 0 (some 7) := by
  have hstart : Regular 100 0 (rbInit 100 ⟨0, 0⟩) :=
    (Correct.empty 100 ⟨0, 0⟩).regular_iff.mpr (fun ⟨v, hv, _⟩ => absurd hv List.not_mem_nil)
  have hreached := Reached.single hstart
  have hshown : Shows 100 100 single (node .black leaf ⟨1, ⟨0, 7⟩⟩ leaf) :=
    ⟨⟨⟨rfl, trivial, trivial⟩, by decide, by decide, by decide⟩, rfl, _, rfl, rfl, rfl⟩
  have hregular : Regular 100 0 single := by
    intro q T hT _
    rw [hT.unique hshown]
    exact ⟨by decide, fun _ => trivial, fun _ => trivial⟩
  exact ⟨_, hreached, ((clear_runs_correct (by decide) hreached).2.1 0 (by decide)).mpr hregular⟩

/-- After the keys 0 and -2 ^ 31 the difference at the root is 2 ^ 31, which wraps around: the
search for -2 ^ 31 goes to the larger keys and does not find it. -/
theorem smallest_key_lost : ∃ calls t, Reached 100 (fun _ _ => True) calls t ∧
    (∀ call ∈ calls, IsInt call.key) ∧ contents calls (-2 ^ 31) = some 8 ∧
      Returns (fun turns => rbSearch turns 100 (-2 ^ 31) t) 100 := by
  obtain ⟨t, hsecond, hsearch⟩ : ∃ t,
      (∀ more, rbInsert (more + 20) 100 (-2 ^ 31) 8 2 single = .ok t) ∧
        ∀ more, rbSearch (more + 20) 100 (-2 ^ 31) t = .ok 100 :=
    ⟨_, fun more => rfl, fun more => rfl⟩
  have hreached : Reached 100 (fun _ _ => True) ([.insert 0 7] ++ [.insert (-2 ^ 31) 8]) t :=
    .insert (Reached.single trivial) rfl trivial (Returns.of_add hsecond)
  exact ⟨_, t, hreached, by decide, by decide, Returns.of_add hsearch⟩

end CServer.RbTree2.Wrapping
