import CServer.RbTree.RbTree1Calls
import CServer.RbTree.RbTree2Deletion

/-!
# Searching, inserting and deleting in rb_tree2.cpp
-/
namespace CServer.RbTree2

open RedBlack RedBlack.ColorTree Contents
open RbTree1 (intSub InRange intSub_eq)

/-- A red-black tree in memory with increasing keys. -/
structure Correct (nil : Addr) (t : RbTree) (T : ColorTree (Cell Entry)) : Prop where
  shown : ∃ scratch, Shows nil scratch t T
  valid : Valid T
  increasing : Increasing keyOf T.toList
  inRange : ∀ v ∈ entries T, InRange v.key

variable {nil q : Addr} {t : RbTree} {heap : Heap Entry} {T u v l r : ColorTree (Cell Entry)}
variable {K : Ctx (Cell Entry)} {k d : ℤ} {s : Side} {c : Color} {x y : Cell Entry} {z e : Addr}

/-! ## The search -/

theorem rbSearchAuxiliary_spec (rep : Rep heap nil nil (fill K u)) (hk : InRange k)
    (hrange : ∀ x ∈ u.toList, InRange (keyOf x)) :
    Returns (fun turns => rbSearchAuxiliary nil heap k turns (ptr nil u))
      (ptr nil (locate keyOf k K u).2) := by
  induction u generalizing K with
  | leaf => exact Returns.of_succ (fun turns => if_pos rfl)
  | node c l x r ihl ihr =>
    obtain ⟨hne, -, hx⟩ := rep.read
    have hsub := intSub_eq (hrange x (by simp [toList])) hk
    have hturn : ∀ turns, rbSearchAuxiliary nil heap k (turns + 1) x.addr =
        if k < keyOf x then rbSearchAuxiliary nil heap k turns (ptr nil l)
        else if keyOf x < k then rbSearchAuxiliary nil heap k turns (ptr nil r)
        else .ok x.addr := by
      intro turns
      have hpos : 0 < keyOf x - k ↔ k < keyOf x := by omega
      have hneg : keyOf x - k < 0 ↔ keyOf x < k := by omega
      rw [← if_congr hpos rfl rfl, ← if_congr hneg rfl rfl, rbSearchAuxiliary, if_neg hne, hx,
        ok_bind]
      show intSub (keyOf x) k >>= _ = _
      rw [hsub, ok_bind]
    rw [locate]
    split
    · rename_i hlt
      have ih := ihl (K := ⟨.left, c, x, r⟩ :: K) rep
        (fun y hy => hrange y (List.mem_append_left _ hy))
      exact ih.succ (fun turns => (hturn turns).trans (if_pos hlt))
    · rename_i hlt
      split
      · rename_i hgt
        have ih := ihr (K := ⟨.right, c, x, l⟩ :: K) rep
          (fun y hy => hrange y (List.mem_append_right _ (List.mem_cons_of_mem _ hy)))
        exact ih.succ (fun turns => (hturn turns).trans ((if_neg hlt).trans (if_pos hgt)))
      · rename_i hgt
        exact Returns.of_succ (fun turns => (hturn turns).trans ((if_neg hlt).trans (if_neg hgt)))

/-- A search from the root. -/
theorem Correct.search (h : Correct nil t T) (hk : InRange k) :
    Returns (fun turns => rbSearch turns nil k t) (ptr nil (locate keyOf k [] T).2) := by
  obtain ⟨q, hshows⟩ := h.shown
  have hsearch := rbSearchAuxiliary_spec (K := []) hshows.rep hk
    (fun x hx => h.inRange x.value (List.mem_map_of_mem hx))
  rw [← hshows.root] at hsearch
  exact hsearch

/-! ## Insertion -/

/-- The walk ends above the empty subtree where the key belongs. -/
theorem insertWalk_spec (rep : Rep heap nil nil (fill K u))
    (hfound : (locate keyOf k K u).2 = leaf) :
    Returns (fun turns => insertWalk nil heap k turns (parentOf nil K) (ptr nil u))
      (parentOf nil (locate keyOf k K u).1) := by
  fun_induction locate keyOf k K u with
  | case1 K => exact Returns.of_succ (fun turns => if_pos rfl)
  | case2 K c l x r hlt ih =>
    obtain ⟨hne, -, hx⟩ := rep.read
    refine (ih rep hfound).succ (fun turns => ?_)
    show insertWalk nil heap k (turns + 1) (parentOf nil K) x.addr = _
    rw [insertWalk, if_neg hne, hx, ok_bind]
    exact if_pos hlt
  | case3 K c l x r hlt hgt ih =>
    obtain ⟨hne, -, hx⟩ := rep.read
    refine (ih rep hfound).succ (fun turns => ?_)
    show insertWalk nil heap k (turns + 1) (parentOf nil K) x.addr = _
    rw [insertWalk, if_neg hne, hx, ok_bind]
    exact if_neg hlt
  | case4 K c l x r hlt hgt => exact absurd hfound (by simp)

/-- The new node is linked to the last one on the way. -/
theorem Shows.link (h : Shows nil q t (fill K leaf))
    (hplace : ∀ f rest, K = f :: rest → f.side = if k < keyOf f.label then .left else .right)
    (hfresh : t.heap z = none)
    (hself : heap z = some ⟨nil, nil, parentOf nil K, .red, ⟨k, d⟩⟩)
    (hother : ∀ e, e ≠ z → heap e = t.heap e) :
    ∃ t', link nil (parentOf nil K) z k ⟨heap, t.root⟩ = .ok t' ∧
      Shows nil q t' (fill K (node .red leaf ⟨z, ⟨k, d⟩⟩ leaf)) := by
  obtain ⟨sn, hnil, hsentinel⟩ := h.sentinel
  have hnot : z ∉ addrs (fill K leaf) := h.rep.notMem_of_none hfresh
  have hz : z ≠ nil := by
    rintro rfl
    rw [hfresh] at hnil
    exact absurd hnil (by simp)
  cases K with
  | nil =>
    refine ⟨⟨_, z⟩, if_pos rfl, ?_, rfl, sn, (hother _ hz.symm).trans hnil, hsentinel⟩
    exact h.rep.plant hnot hz hz hself (fun f rest hcons => absurd hcons (by simp))
      (fun e hez _ => hother e hez)
  | cons f rest =>
    have hmem : f.label.addr ∈ addrs (fill (f :: rest) (leaf : ColorTree (Cell Entry))) :=
      mem_addrs_fill.mpr (.inl List.mem_cons_self)
    have hfz : f.label.addr ≠ z := ne_of_mem_of_not_mem hmem hnot
    have hfnil : f.label.addr ≠ nil := h.rep.mem_ne_nil hmem
    have hf := (hother _ hfz).trans h.rep.frame_eq
    obtain ⟨heap', hok, hself', hother'⟩ := Heap.modify_spec hf (fun n => n.setChild z f.side)
    have hside : (if k < f.label.value.key then Side.left else .right) = f.side :=
      (hplace f rest rfl).symm
    refine ⟨⟨heap', t.root⟩, ?_, ?_, ?_, sn, ?_, hsentinel⟩
    · rw [RbTree2.link, parentOf_cons, if_neg hfnil, Heap.node_eq hf, ok_bind, Frame.value_node,
        hside, Heap.setChild, hok, ok_bind]
    · show Rep heap' nil nil _
      apply h.rep.plant hnot hz hz
      · rw [hother' z hfz.symm, hself]
      · intro f' rest' hcons
        obtain ⟨rfl, rfl⟩ := List.cons.inj hcons
        rw [hself', Frame.setChild_node]
      · intro e hez hep
        rw [hother' e hep, hother e hez]
    · exact h.root.trans ptr_fill_cons
    · exact (hother' _ hfnil.symm).trans ((hother _ hz.symm).trans hnil)

/-- The node goes where the walk ends, and the balance is restored. -/
theorem insertNew_place (h : Shows nil q t (fill K leaf)) (hvalid : Valid (fill K leaf))
    (hplace : ∀ f rest, K = f :: rest → f.side = if k < keyOf f.label then .left else .right)
    (hwalk : Returns (fun turns => insertWalk nil t.heap k turns nil t.root) (parentOf nil K))
    (hfresh : t.heap z = none) :
    ∃ t' q' T', Returns (fun turns => insertNew turns nil k d z t) t' ∧ Shows nil q' t' T' ∧
      Valid T' ∧ T'.toList = before K ++ ⟨z, ⟨k, d⟩⟩ :: after K := by
  obtain ⟨t1, hlink, s1⟩ := h.link (d := d) hplace hfresh
    (Function.update_self _ _ _) (fun e he => Function.update_of_ne he _ _)
  obtain ⟨n, hbalanced, hctx⟩ := valid_fill.mp hvalid
  cases hbalanced
  obtain ⟨t2, q2, hreturns, s2⟩ := rbInsertFixup_spec s1 rfl hctx
  refine ⟨t2, q2, _, hwalk.after hreturns ?_, s2,
    valid_insertLoop rfl (.red rfl rfl .leaf .leaf) hctx, ?_⟩
  · intro turns hok
    rw [insertNew, hok, ok_bind, Heap.alloc, hlink, ok_bind]
    rfl
  · rw [toList_paint, toList_insertLoop rfl, toList_fill, List.append_assoc]
    rfl

/-- A key that is not there gets a node where it belongs. -/
theorem insertNew_spec (h : Correct nil t T) (hk : InRange k) (hfresh : t.heap z = none)
    (hfound : (locate keyOf k [] T).2 = leaf) :
    ∃ t' T', Returns (fun turns => insertNew turns nil k d z t) t' ∧ Correct nil t' T' ∧
      ∀ v, v ∈ entries T' ↔ v = ⟨k, d⟩ ∨ v ∈ entries T := by
  obtain ⟨q, hshows⟩ := h.shown
  have hfill : fill (locate keyOf k [] T).1 (locate keyOf k [] T).2 = T := fill_locate
  have hbetween : Between keyOf k (locate keyOf k [] T).1 := between_nil.locate h.increasing
  have hwalk := insertWalk_spec (K := []) hshows.rep hfound
  rw [parentOf_nil] at hwalk
  have hvalid := h.valid
  have hincreasing := h.increasing
  rw [← hshows.root] at hwalk
  rw [hfound] at hfill
  rw [← hfill] at hshows hvalid hincreasing
  obtain ⟨t2, q2, T', hreturns, s2, hvalid', hlist⟩ := insertNew_place (d := d) hshows hvalid
    (fun f rest hcons => (hcons ▸ hbetween : Between keyOf k (f :: rest)).side_eq) hwalk hfresh
  have hmem : ∀ v, v ∈ entries T' ↔ v = ⟨k, d⟩ ∨ v ∈ entries T := by
    apply mem_insert_entry (p := (before (locate keyOf k [] T).1).map Cell.value)
    · rw [← hfill, entries_fill, hfill]
      exact congrArg (· ++ _) (List.append_nil _)
    · rw [entries, hlist, List.map_append, List.map_cons]
  refine ⟨t2, T', hreturns, ⟨⟨q2, s2⟩, hvalid', increasing_insert hincreasing hbetween hlist, ?_⟩,
    hmem⟩
  intro v hv
  rcases (hmem v).mp hv with rfl | hold
  · exact hk
  · exact h.inRange v hold

/-- `rb_insert` changes nothing where the key is there, and adds it where it is not. -/
theorem rbInsert_spec (h : Correct nil t T) (hk : InRange k) (hfresh : t.heap z = none) :
    ∃ t' T', Returns (fun turns => rbInsert turns nil k d z t) t' ∧ Correct nil t' T' ∧
      ((∃ v ∈ entries T, v.key = k) ∧ T' = T ∨
        (∀ v ∈ entries T, v.key ≠ k) ∧ ∀ v, v ∈ entries T' ↔ v = ⟨k, d⟩ ∨ v ∈ entries T) := by
  have hsearch := h.search hk
  by_cases hfound : (locate keyOf k [] T).2 = leaf
  · obtain ⟨t', T', hnew, hcorrect, hmem⟩ := insertNew_spec (d := d) h hk hfresh hfound
    refine ⟨t', T', hsearch.after hnew ?_, hcorrect,
      .inr ⟨key_ne_of_not_found h.increasing hfound, hmem⟩⟩
    intro turns hok
    rw [rbInsert, hok, ok_bind, hfound]
    exact if_neg (not_not.mpr rfl)
  · obtain ⟨c, l, x, r, hnode, hkey⟩ := key_of_locate hfound
    obtain ⟨q, hshows⟩ := h.shown
    have hx := mem_of_found hnode
    have hne : x.addr ≠ nil := hshows.rep.mem_ne_nil (List.mem_map_of_mem hx)
    refine ⟨t, T, hsearch.after (Returns.of_eq (f := fun _ => .ok t) (fun _ => rfl)) ?_, h,
      .inl ⟨⟨x.value, List.mem_map_of_mem hx, hkey⟩, rfl⟩⟩
    intro turns hok
    rw [rbInsert, hok, ok_bind, hnode]
    exact if_pos hne

/-! ## Deletion -/

theorem Shows.free (h : Shows nil q t T) (he : e ∉ addrs T) (hne : e ≠ nil) :
    Shows nil q ⟨t.heap.free e, t.root⟩ T := by
  obtain ⟨sn, hnil, hsentinel⟩ := h.sentinel
  have hsame : ∀ a, a ≠ e → t.heap.free e a = t.heap a := fun a ha => Function.update_of_ne ha _ _
  have hholds := h.rep.holds.congr (fun a ha => hsame a (ne_of_mem_of_not_mem ha he))
  exact ⟨⟨hholds, h.rep.nodup, h.rep.nil_notMem, h.rep.top_notMem⟩, h.root, sn,
    (hsame nil hne.symm).trans hnil, hsentinel⟩

theorem Shows.setValue (h : Shows nil q t (fill K (node c l x r))) (w : Entry) :
    ∃ heap, t.heap.setValue x.addr w = .ok heap ∧
      Shows nil q ⟨heap, t.root⟩ (fill K (node c l ⟨x.addr, w⟩ r)) := by
  obtain ⟨heap, hok, hbecomes, hother⟩ := Rep.setValue (s := .left) h.rep w
  obtain ⟨sn, hnil, hsentinel⟩ := h.sentinel
  obtain ⟨hxnil, -⟩ := h.rep.read
  refine ⟨heap, hok, hbecomes.rep, ?_, sn, (hother _ hxnil.symm).trans hnil, hsentinel⟩
  apply root_fill h.root
  cases K with
  | nil => exact h.root
  | cons f K => rfl

/-- A node with one child at most is passed by. Where it has none the sentinel tells afterwards
where it was. -/
theorem Shows.unlink (h : Shows nil q t (fill K (branch s c leaf y v))) :
    ∃ t' q', unlink nil y.addr (ptr nil v) (parentOf nil K) t = .ok t' ∧
      Shows nil q' t' (fill K v) ∧ (v = leaf → q' = parentOf nil K) ∧
      t'.heap y.addr = t.heap y.addr := by
  obtain ⟨-, hyv, -⟩ := h.rep.parts
  obtain ⟨sn, hnil, hblack, -⟩ := h.sentinel
  have hymem : y.addr ∈ addrs (branch s c leaf y v) := mem_addrs_branch.mpr (.inl rfl)
  have hvmem : v ≠ leaf → ptr nil v ∈ addrs (branch s c leaf y v) :=
    fun hv => mem_addrs_branch.mpr (.inr (.inr (mem_addrs_of_ne_leaf hv)))
  have hynil : y.addr ≠ nil := h.rep.mem_ne_nil (mem_addrs_fill.mpr (.inr hymem))
  have hyp : y.addr ≠ parentOf nil K := h.rep.below_ne_parentOf hymem
  have hvy : y.addr ≠ ptr nil v := by
    by_cases hv : v = leaf
    · rw [hv]
      exact hynil
    · exact (ne_of_mem_of_not_mem (mem_addrs_of_ne_leaf hv) hyv).symm
  have hrep := h.rep
  rw [← fill_far] at hrep
  have hin : ∃ n, t.heap (ptr nil v) = some n := by
    by_cases hv : v = leaf
    · rw [hv]
      exact ⟨sn, hnil⟩
    · exact (holds_fill.mp hrep.holds).2.allocated hv
  obtain ⟨n, hn⟩ := hin
  obtain ⟨h1, ok1, self1, other1⟩ :=
    Heap.modify_spec hn (fun n => { n with parent := parentOf nil K })
  have hsentinel : ∃ n1, h1 nil = some n1 ∧ n1.color = .black ∧
      (v = leaf → n1.parent = parentOf nil K) := by
    by_cases hv : v = leaf
    · subst hv
      obtain rfl := Option.some.inj (hnil.symm.trans hn)
      exact ⟨_, self1, hblack, fun _ => rfl⟩
    · have hne : ptr nil v ≠ nil := fun heq => hv (hrep.ptr_eq_nil_iff.mp heq)
      exact ⟨sn, (other1 _ hne.symm).trans hnil, hblack, fun hleaf => absurd hleaf hv⟩
  obtain ⟨n1, hnil1, hblack1, hscratch1⟩ := hsentinel
  obtain ⟨t2, ok2, self2, other2, root2, n2, hnil2, color2, parent2⟩ := replaceChild_spec
    (t := ⟨h1, t.root⟩) (K := K) (o := y.addr) (w := ptr nil v) hnil1
    (by
      rintro f rest rfl
      have hf := h.rep.frame_eq
      have hne := h.rep.sibling_ne branch_ne_leaf
      rw [ptr_branch] at hf hne
      have hmem : f.label.addr ∈ addrs (fill (f :: rest) (branch s c leaf y v)) :=
        mem_addrs_fill.mpr (.inl List.mem_cons_self)
      refine ⟨h.rep.mem_ne_nil hmem, hne, (other1 _ ?_).trans hf⟩
      by_cases hv : v = leaf
      · rw [hv]
        exact h.rep.mem_ne_nil hmem
      · exact (h.rep.below_ne_parentOf (hvmem hv)).symm)
  refine ⟨t2, n2.parent, ?_, ⟨h.rep.unlink ?_ self2 ?_, root_fill h.root root2, n2, hnil2,
    color2.trans hblack1, rfl⟩, ?_, ?_⟩
  · rw [RbTree2.unlink, Heap.setParent, ok1, ok_bind, ok2]
  · intro m hv hm
    obtain rfl := Option.some.inj (hn.symm.trans hm)
    rw [other2 _ (h.rep.below_ne_parentOf (hvmem hv))]
    exact self1
  · intro e henil _ hev hep
    rw [other2 e hep]
    apply other1
    by_cases hv : v = leaf
    · rw [hv]
      exact henil
    · exact hev hv
  · rintro rfl
    rw [parent2]
    cases K with
    | nil => rfl
    | cons f rest => exact hscratch1 rfl
  · rw [other2 _ hyp]
    exact other1 _ hvy

theorem successorDown_spec (rep : Rep heap nil nil (fill K u)) (hu : u ≠ leaf) :
    Returns (fun turns => successorDown nil heap turns (ptr nil u)) (ptr nil (lowest K u).2) := by
  fun_induction lowest K u with
  | case1 K c c' l' x' r' x r ih =>
    obtain ⟨hne, -, hx⟩ := rep.read
    have hne' : ptr nil (node c' l' x' r') ≠ nil := by
      rw [ne_eq, Rep.ptr_eq_nil_iff (K := ⟨.left, c, x, r⟩ :: K) rep]
      simp
    refine (ih rep (by simp)).succ (fun turns => ?_)
    show successorDown nil heap (turns + 1) x.addr = _
    rw [successorDown, if_neg hne, hx, ok_bind]
    exact if_pos hne'
  | case2 K u hother =>
    cases u with
    | leaf => exact absurd rfl hu
    | node c l x r =>
      obtain ⟨hne, -, hx⟩ := rep.read
      cases l with
      | leaf =>
        refine Returns.of_succ (fun turns => ?_)
        show successorDown nil heap (turns + 1) x.addr = .ok x.addr
        rw [successorDown, if_neg hne, hx, ok_bind]
        exact if_neg (not_not.mpr rfl)
      | node c' l' x' r' => exact absurd rfl (hother c c' l' x' r' x r)

/-- The rebalancing after a deletion rotates at the root: the black node that is taken out is
missing there. -/
def RotatesAtRoot (k : ℤ) (T : ColorTree (Cell Entry)) : Prop :=
  ∃ K s y v, takenOut keyOf k T = (K, branch s .black leaf y v) ∧ v.color = .black ∧
    RotationAtRoot K

/-- The balance is restored after a node has been passed by, and the root is still the root. -/
theorem deleteRebalancing_spec {w : Cell Entry} (h : Shows nil q t (fill K v))
    (hq : v = leaf → q = parentOf nil K) (hvalid : Valid (fill K (branch s c leaf w v)))
    (hregular : c = .black → v.color = .black → ¬RotationAtRoot K) :
    ∃ t' q' T', Returns (fun turns => deleteRebalancing turns nil c (ptr nil v) t) t' ∧
      Shows nil q' t' T' ∧ Valid T' ∧ T'.toList = (fill K v).toList := by
  cases c with
  | red => exact ⟨t, q, _, Returns.of_eq (fun _ => rfl), h, valid_without_red hvalid, rfl⟩
  | black =>
    obtain ⟨n, hdeficient, hctx⟩ := deficient_without_black hvalid
    have hnot : ¬(v.color = .black ∧ RotationAtRoot K) :=
      fun hboth => hregular rfl hboth.1 hboth.2
    obtain ⟨fixed, q', hreturns, hshows⟩ := rbDeleteFixup_spec h hq hdeficient hctx hnot
    have hroot : t.root = ptr nil (deleteLoop K v) := h.root.trans (ptr_deleteLoop hnot).symm
    refine ⟨⟨fixed.heap, t.root⟩, q', _, ?_, ⟨hshows.rep, hroot, hshows.sentinel⟩,
      valid_deleteLoop hdeficient hctx, toList_deleteLoop K v⟩
    exact hreturns.bind (k := fun _ (fixed : RbTree) => .ok (⟨fixed.heap, t.root⟩ : RbTree))
      (Returns.of_eq (fun _ => rfl))

theorem onlyChild_eq {child parent : Addr} {w : Entry} :
    onlyChild nil (sideNode s nil child parent c w) = child := by
  rw [onlyChild]
  cases s with
  | left => exact if_neg (not_not.mpr rfl)
  | right =>
    show (if child ≠ nil then child else nil) = child
    split
    · rfl
    · rename_i hchild
      exact (not_not.mp hchild).symm

/-- An entry less in a correct tree. -/
theorem Correct.erased {t' : RbTree} {T' : ColorTree (Cell Entry)} {as bs : List Entry}
    (h : Correct nil t T) (hold : entries T = as ++ x.value :: bs) (hnew : entries T' = as ++ bs)
    (hshown : Shows nil q t' T') (hvalid : Valid T') :
    Correct nil t' T' ∧ ∀ w, w ∈ entries T' ↔ w ∈ entries T ∧ w.key ≠ keyOf x := by
  have hmem := mem_erase_entry h.increasing hold hnew
  exact ⟨⟨⟨q, hshown⟩, hvalid, increasing_erase h.increasing hold hnew,
    fun w hw => h.inRange w ((hmem w).mp hw).1⟩, hmem⟩

theorem deleteNode_one_child (h : Correct nil t (fill K (branch s c leaf x v)))
    (hregular : c = .black → v.color = .black → ¬RotationAtRoot K) :
    ∃ t' T', Returns (fun turns => deleteNode turns nil x.addr t) t' ∧ Correct nil t' T' ∧
      ∀ w, w ∈ entries T' ↔ w ∈ entries (fill K (branch s c leaf x v)) ∧ w.key ≠ keyOf x := by
  obtain ⟨q, hshown⟩ := h.shown
  have hx : t.heap x.addr = some (sideNode s nil (ptr nil v) (parentOf nil K) c x.value) :=
    hshown.rep.node_eq
  obtain ⟨t1, q1, hunlink, s1, hq1, -⟩ := hshown.unlink
  obtain ⟨t2, q2, T', hreturns, s2, hvalid, hlist⟩ :=
    deleteRebalancing_spec s1 hq1 h.valid hregular
  have hxmem : x.addr ∈ addrs (fill K (branch s c leaf x v)) :=
    mem_addrs_fill.mpr (.inr (mem_addrs_branch.mpr (.inl rfl)))
  have hnot : x.addr ∉ addrs T' := by
    obtain ⟨-, hxv, -, -, -, -, hxctx, -⟩ := hshown.rep.parts
    have hsame : addrs T' = addrs (fill K v) := by rw [addrs, addrs, hlist]
    rw [hsame, mem_addrs_fill, not_or]
    exact ⟨hxctx, hxv⟩
  obtain ⟨as, bs, hold, hnew⟩ := entries_one_child K s c x v
  have hnew' : entries T' = as ++ bs := by rw [← hnew, entries, entries, hlist]
  have s3 := s2.free hnot (hshown.rep.mem_ne_nil hxmem)
  refine ⟨⟨t2.heap.free x.addr, t2.root⟩, T', ?_, h.erased hold hnew' s3 hvalid⟩
  apply hreturns.after (Returns.of_eq (f := fun _ => .ok _) (fun _ => rfl))
  intro turns hok
  have hone : (sideNode s nil (ptr nil v) (parentOf nil K) c x.value).left = nil ∨
      (sideNode s nil (ptr nil v) (parentOf nil K) c x.value).right = nil := by
    cases s with
    | left => exact .inl rfl
    | right => exact .inr rfl
  rw [deleteNode, Heap.node_eq hx, ok_bind, nodeToUnlink, if_pos hone, ok_bind, Heap.node_eq hx,
    ok_bind, onlyChild_eq, parent_sideNode, hunlink, ok_bind, copyEntry, if_neg (not_not.mpr rfl),
    ok_bind, color_sideNode, hok, ok_bind]

/-- A node with two children gets the entry of the one after it, which is passed by. -/
theorem deleteNode_two_children {low : Ctx (Cell Entry)} {cy : Color}
    (h : Correct nil t (fill K (node c l x r))) (hl : l ≠ leaf) (hr : r ≠ leaf)
    (hlow : lowest (⟨.right, c, x, l⟩ :: K) r =
      (low ++ ⟨.right, c, x, l⟩ :: K, node cy leaf y v))
    (hfill : r = fill low (node cy leaf y v)) (hbefore : before low = [])
    (hregular : cy = .black → v.color = .black → ¬RotationAtRoot (low ++ ⟨.right, c, x, l⟩ :: K)) :
    ∃ t' T', Returns (fun turns => deleteNode turns nil x.addr t) t' ∧ Correct nil t' T' ∧
      ∀ w, w ∈ entries T' ↔ w ∈ entries (fill K (node c l x r)) ∧ w.key ≠ keyOf x := by
  obtain ⟨q, hshown⟩ := h.shown
  obtain ⟨hxnil, -, hx⟩ := hshown.rep.read
  have hsuccessor := successorDown_spec (K := ⟨.right, c, x, l⟩ :: K) hshown.rep hr
  rw [hlow] at hsuccessor
  have hlnil : ptr nil l ≠ nil := by
    rwa [ne_eq, Rep.ptr_eq_nil_iff (K := ⟨.left, c, x, r⟩ :: K) hshown.rep]
  have hrnil : ptr nil r ≠ nil := by
    rwa [ne_eq, Rep.ptr_eq_nil_iff (K := ⟨.right, c, x, l⟩ :: K) hshown.rep]
  have hview : fill K (node c l x r) =
      fill (low ++ ⟨.right, c, x, l⟩ :: K) (branch .left cy leaf y v) := by
    rw [fill_append, hfill]
    rfl
  rw [hview] at hshown
  obtain ⟨hynil, -, hy⟩ := hshown.rep.read
  have hy : t.heap.node y.addr = .ok ⟨nil, ptr nil v,
      parentOf nil (low ++ ⟨.right, c, x, l⟩ :: K), cy, y.value⟩ := hy
  obtain ⟨t1, q1, hunlink, s1, hq1, -⟩ := hshown.unlink
  obtain ⟨-, hyv, -, -, -, -, hyctx, -⟩ := hshown.rep.parts
  have hynot : y.addr ∉ addrs (fill (low ++ ⟨.right, c, x, l⟩ :: K) v) := by
    rw [mem_addrs_fill, not_or]
    exact ⟨hyctx, hyv⟩
  rw [fill_append] at s1 hynot
  have hynot : y.addr ∉ addrs (fill K (branch .left c l x (fill low v))) := hynot
  obtain ⟨h2, hcopy, s2⟩ := Shows.setValue (K := K) (c := c) (l := l) (x := x)
    (r := fill low v) s1 y.value
  -- the tree as it is seen from the place of the node taken out
  have hplace : fill K (node c l ⟨x.addr, y.value⟩ (fill low v)) =
      fill (low ++ ⟨.right, c, ⟨x.addr, y.value⟩, l⟩ :: K) v := by
    rw [fill_append]
    rfl
  rw [hplace] at s2
  have hvalid : Valid (fill (low ++ ⟨.right, c, ⟨x.addr, y.value⟩, l⟩ :: K)
      (branch .left cy leaf y v)) := by
    have hrelabel := valid_relabel (s := .left) h.valid ⟨x.addr, y.value⟩
    rw [hfill] at hrelabel
    rw [fill_append]
    exact hrelabel
  have hparent : parentOf nil (low ++ ⟨.right, c, x, l⟩ :: K) =
      parentOf nil (low ++ ⟨.right, c, ⟨x.addr, y.value⟩, l⟩ :: K) := by cases low <;> rfl
  obtain ⟨t3, q3, T', hreturns, s3, hvalid', hlist⟩ := deleteRebalancing_spec s2
    (fun hv => (hq1 hv).trans hparent) hvalid
    (fun hcy hv hroot => hregular hcy hv (rotationAtRoot_relabel.mp hroot))
  have hyx : y.addr ≠ x.addr := by
    rintro heq
    rw [heq] at hynot
    exact hynot (mem_addrs_fill.mpr (.inr (mem_addrs_branch.mpr (.inl rfl))))
  have hnot : y.addr ∉ addrs T' := by
    have hsame : addrs T' = addrs (fill K (node c l ⟨x.addr, y.value⟩ (fill low v))) := by
      rw [addrs, addrs, hlist, hplace]
    rw [hsame]
    show y.addr ∉ addrs (fill K (branch .left c l ⟨x.addr, y.value⟩ (fill low v)))
    rw [mem_addrs_fill, mem_addrs_branch] at hynot ⊢
    exact hynot
  obtain ⟨as, bs, hold, hnew⟩ := entries_two_children K c cy l v x y hbefore
  rw [← hfill] at hold
  have hnew' : entries T' = as ++ bs := by
    rw [← hnew, hplace, entries, entries, hlist]
  refine ⟨⟨t3.heap.free y.addr, t3.root⟩, T', ?_, h.erased hold hnew' (s3.free hnot hynil) hvalid'⟩
  apply hsuccessor.after (hreturns.bind (k := fun _ t => .ok ⟨t.heap.free y.addr, t.root⟩)
    (Returns.of_eq (fun _ => rfl)))
  intro turns hok
  have hchosen : nodeToUnlink turns nil x.addr ⟨ptr nil l, ptr nil r, parentOf nil K, c, x.value⟩
      t.heap = .ok y.addr := by
    rw [nodeToUnlink, if_neg (not_or.mpr ⟨hlnil, hrnil⟩), rbSuccessor, if_neg hxnil, hx, ok_bind]
    show (successorDown nil t.heap turns (ptr nil r) >>= _) = _
    rw [hok, ok_bind]
    exact if_neg hynil
  have honly : onlyChild nil ⟨nil, ptr nil v, parentOf nil (low ++ ⟨.right, c, x, l⟩ :: K), cy,
      y.value⟩ = ptr nil v := onlyChild_eq (s := .left)
  rw [deleteNode, hx, ok_bind, hchosen, ok_bind, hy, ok_bind, honly, hunlink, ok_bind, copyEntry,
    if_pos hyx, hcopy, ok_bind]

/-- The node with the key is taken out of the tree. -/
theorem deleteNode_spec (h : Correct nil t T) (hregular : ¬RotatesAtRoot k T)
    (hfound : (locate keyOf k [] T).2 = node c l x r) :
    ∃ t' T', Returns (fun turns => deleteNode turns nil x.addr t) t' ∧ Correct nil t' T' ∧
      ∀ w, w ∈ entries T' ↔ w ∈ entries T ∧ w.key ≠ keyOf x := by
  have hfill : fill (locate keyOf k [] T).1 (locate keyOf k [] T).2 = T := fill_locate
  rw [hfound] at hfill
  have honeChild : ∀ {s v}, node c l x r = branch s c leaf x v →
      ∃ t' T', Returns (fun turns => deleteNode turns nil x.addr t) t' ∧ Correct nil t' T' ∧
        ∀ w, w ∈ entries T' ↔ w ∈ entries T ∧ w.key ≠ keyOf x := by
    intro s v hbranch
    rw [hbranch] at hfill hfound
    rw [← hfill] at h ⊢
    apply deleteNode_one_child h
    rintro rfl hv hroot
    exact hregular ⟨_, s, x, v, takenOut_one_child hfound, hv, hroot⟩
  by_cases hl : l = leaf
  · exact honeChild (s := .left) (v := r) (by rw [hl]; rfl)
  by_cases hr : r = leaf
  · exact honeChild (s := .right) (v := l) (by rw [hr]; rfl)
  obtain ⟨low, cy, y, v, hlow, hlowest, hbefore⟩ :=
    lowest_spec (⟨.right, c, x, l⟩ :: (locate keyOf k [] T).1) hr
  rw [← hfill] at h ⊢
  apply deleteNode_two_children h hl hr hlow hlowest hbefore
  rintro rfl hv hroot
  exact hregular ⟨_, .left, y, v, (takenOut_two_children hfound hl hr).trans hlow, hv, hroot⟩

/-- `rb_delete` takes out the entry with the key, if there is one. -/
theorem rbDelete_spec (h : Correct nil t T) (hk : InRange k) (hregular : ¬RotatesAtRoot k T) :
    ∃ t' T', Returns (fun turns => rbDelete turns nil k t) t' ∧ Correct nil t' T' ∧
      ∀ v, v ∈ entries T' ↔ v ∈ entries T ∧ v.key ≠ k := by
  have hsearch := h.search hk
  by_cases hfound : (locate keyOf k [] T).2 = leaf
  · refine ⟨t, T, hsearch.after (Returns.of_eq (f := fun _ => .ok t) (fun _ => rfl)) ?_, h, ?_⟩
    · intro turns hok
      rw [rbDelete, hok, ok_bind, hfound]
      exact if_pos rfl
    · intro v
      have hnot := key_ne_of_not_found h.increasing hfound
      exact ⟨fun hv => ⟨hv, hnot v hv⟩, fun hv => hv.1⟩
  · obtain ⟨c, l, x, r, hnode, hkey⟩ := key_of_locate hfound
    obtain ⟨q, hshown⟩ := h.shown
    obtain ⟨t', T', hreturns, hcorrect, hmem⟩ := deleteNode_spec h hregular hnode
    rw [hkey] at hmem
    refine ⟨t', T', hsearch.after hreturns ?_, hcorrect, hmem⟩
    intro turns hok
    have hne : x.addr ≠ nil := hshown.rep.mem_ne_nil (List.mem_map_of_mem (mem_of_found hnode))
    rw [rbDelete, hok, ok_bind, hnode]
    exact if_neg hne

end CServer.RbTree2
