import CServer.Foundation.SearchTree
import CServer.RbtTimer.Deletion

/-!
# Inserting into the tree of rbtree.c, and deleting its smallest node
-/
namespace CServer.RbtTimer

open RedBlack RedBlack.ColorTree

variable {nil q z : Addr} {t : Tree} {heap : Heap TimerEntry} {T u v : ColorTree (Cell TimerEntry)}
variable {K rest : Ctx (Cell TimerEntry)} {f : Frame (Cell TimerEntry)} {s : Side} {c : Color}
variable {x y : Cell TimerEntry} {n : Node TimerEntry}

/-- Writes elsewhere. -/
theorem Shows.elsewhere (h : Shows nil q t T) (hnil : heap nil = t.heap nil)
    (hsame : ∀ e ∈ addrs T, heap e = t.heap e) : Shows nil q ⟨heap, t.root⟩ T := by
  obtain ⟨sn, hsn, hsentinel⟩ := h.sentinel
  have hplain : ∀ e ∈ addrs T, Tree.plain nil ⟨heap, t.root⟩ e = t.plain nil e :=
    fun e he => plain_congr (hsame e he)
  exact ⟨⟨h.rep.holds.congr hplain, h.rep.nodup, h.rep.nil_notMem, h.rep.top_notMem⟩, h.root, sn,
    hnil.trans hsn, hsentinel⟩

theorem Shows.mem_allocated (h : Shows nil q t T) {e : Addr} (he : e ∈ addrs T) :
    ∃ n, t.heap e = some n := by
  obtain ⟨n, hn⟩ := h.rep.holds.mem_allocated he
  obtain ⟨p, hp, -⟩ := of_plain hn
  exact ⟨_, hp⟩

theorem Shows.ne_nil_of_fresh (h : Shows nil q t T) (hz : t.heap z = none) : z ≠ nil := by
  rintro rfl
  obtain ⟨sn, hsn, -⟩ := h.sentinel
  rw [hz] at hsn
  exact absurd hsn (by simp)

theorem Shows.notMem_of_fresh (h : Shows nil q t T) (hz : t.heap z = none) : z ∉ addrs T := by
  intro hmem
  obtain ⟨n, hn⟩ := h.mem_allocated hmem
  rw [hz] at hn
  exact absurd hn (by simp)

theorem ngxRbtreeMin_spec (h : Shows nil q t (fill K u)) (hu : u ≠ leaf) :
    Returns (fun turns => ngxRbtreeMin nil t.heap turns (ptr nil u)) (ptr nil (lowest K u).2) := by
  fun_induction lowest K u with
  | case1 K c c' l' x' r' x r ih =>
    obtain ⟨p, hx, -⟩ := Shows.node_eq (s := .left) h
    have hne : ptr nil (node c' l' x' r') ≠ nil := by
      rw [ne_eq, Rep.ptr_eq_nil_iff (K := ⟨.left, c, x, r⟩ :: K) h.rep]
      simp
    refine (ih h (by simp)).succ (fun turns => ?_)
    show ngxRbtreeMin nil t.heap (turns + 1) x.addr = _
    rw [ngxRbtreeMin, Heap.node_eq hx, ok_bind]
    exact if_pos hne
  | case2 K u hother =>
    cases u with
    | leaf => exact absurd rfl hu
    | node c l x r =>
      obtain ⟨p, hx, -⟩ := Shows.node_eq (s := .left) h
      cases l with
      | leaf =>
        refine Returns.of_succ (fun turns => ?_)
        show ngxRbtreeMin nil t.heap (turns + 1) x.addr = .ok x.addr
        rw [ngxRbtreeMin, Heap.node_eq hx, ok_bind]
        exact if_neg (not_not.mpr rfl)
      | node c' l' x' r' => exact absurd rfl (hother c c' l' x' r' x r)

/-! ## Insertion -/

variable {less : UInt32 → UInt32 → Bool} {isAfter : Cell TimerEntry → Bool} {key : UInt32}

/-- The walk ends at the empty subtree where the comparisons on the way lead. -/
theorem insertPlace_spec (h : Shows nil q t (fill K u)) (hu : u ≠ leaf)
    (hless : ∀ f ∈ descend isAfter K u, less key f.label.value.key = isAfter f.label) :
    ∃ f rest, descend isAfter K u = f :: rest ∧
      Returns (fun turns => insertPlace less nil t.heap key turns (ptr nil u))
        (f.label.addr, f.side) := by
  induction u generalizing K with
  | leaf => exact absurd rfl hu
  | node c l x r ihl ihr =>
    obtain ⟨p, hx, -⟩ := Shows.node_eq (s := .left) h
    have hturn : ∀ turns (s : Side), (if less key x.value.key then Side.left else .right) = s →
        insertPlace less nil t.heap key (turns + 1) x.addr =
          if (sideNode .left (ptr nil l) (ptr nil r) p c x.value).child s = nil then
            .ok (x.addr, s)
          else insertPlace less nil t.heap key turns
            ((sideNode .left (ptr nil l) (ptr nil r) p c x.value).child s) := by
      rintro turns s rfl
      rw [insertPlace, Heap.node_eq hx, ok_bind, value_sideNode]
    rw [descend] at hless ⊢
    by_cases hafter : isAfter x = true
    · rw [if_pos hafter] at hless ⊢
      have hside : (if less key x.value.key then Side.left else .right) = .left := by
        have hx := hless ⟨.left, c, x, r⟩ (mem_descend List.mem_cons_self)
        rw [hx, hafter, if_pos rfl]
      by_cases hl : l = leaf
      · subst hl
        refine ⟨⟨.left, c, x, r⟩, K, rfl, Returns.of_succ (fun turns => ?_)⟩
        exact (hturn turns _ hside).trans (if_pos rfl)
      · have hne : ptr nil l ≠ nil := by
          rwa [ne_eq, Rep.ptr_eq_nil_iff (K := ⟨.left, c, x, r⟩ :: K) h.rep]
        obtain ⟨f, rest, hcons, hreturns⟩ := ihl (K := ⟨.left, c, x, r⟩ :: K) h hl hless
        refine ⟨f, rest, hcons, hreturns.succ (fun turns => ?_)⟩
        exact (hturn turns _ hside).trans (if_neg hne)
    · rw [if_neg hafter] at hless ⊢
      have hside : (if less key x.value.key then Side.left else .right) = .right := by
        have hx := hless ⟨.right, c, x, l⟩ (mem_descend List.mem_cons_self)
        rw [hx, if_neg hafter]
      by_cases hr : r = leaf
      · subst hr
        refine ⟨⟨.right, c, x, l⟩, K, rfl, Returns.of_succ (fun turns => ?_)⟩
        exact (hturn turns _ hside).trans (if_pos rfl)
      · have hne : ptr nil r ≠ nil := by
          rwa [ne_eq, Rep.ptr_eq_nil_iff (K := ⟨.right, c, x, l⟩ :: K) h.rep]
        obtain ⟨f, rest, hcons, hreturns⟩ := ihr (K := ⟨.right, c, x, l⟩ :: K) h hr hless
        refine ⟨f, rest, hcons, hreturns.succ (fun turns => ?_)⟩
        exact (hturn turns _ hside).trans (if_neg hne)

/-- A node that is not in the tree is put into an empty subtree. -/
theorem Shows.plant (h : Shows nil q t (fill (f :: rest) leaf)) (hz : t.heap z = some n)
    (hnot : z ∉ addrs (fill (f :: rest) (leaf : ColorTree (Cell TimerEntry)))) (hznil : z ≠ nil) :
    ∃ h1 h2, t.heap.setChild f.label.addr f.side z = .ok h1 ∧
      h1.modify z (fun n => ⟨nil, nil, f.label.addr, .red, n.value⟩) = .ok h2 ∧
      Shows nil q ⟨h2, t.root⟩ (fill (f :: rest) (node .red leaf ⟨z, n.value⟩ leaf)) := by
  obtain ⟨p, hf, hp⟩ := h.frame_eq
  obtain ⟨sn, hnil, hsentinel⟩ := h.sentinel
  have hmem : f.label.addr ∈ addrs (fill (f :: rest) (leaf : ColorTree (Cell TimerEntry))) :=
    mem_addrs_fill.mpr (.inl List.mem_cons_self)
  have hfz : f.label.addr ≠ z := ne_of_mem_of_not_mem hmem hnot
  have hfnil : f.label.addr ≠ nil := h.rep.mem_ne_nil hmem
  have hfroot := Shows.addr_root_iff (K := rest) (x := f.label) h
  have hzroot : z ≠ t.root := by
    rintro rfl
    rw [h.root] at hnot
    exact hnot (mem_addrs_fill.mpr (.inl ptr_fill_mem))
  obtain ⟨h1, ok1, self1, other1⟩ := Heap.modify_spec hf (fun n => n.setChild z f.side)
  obtain ⟨h2, ok2, self2, other2⟩ := Heap.modify_spec ((other1 z hfz.symm).trans hz)
    (fun n => ⟨nil, nil, f.label.addr, .red, n.value⟩)
  refine ⟨h1, h2, ok1, ok2, ?_, h.root.trans ptr_fill_cons, sn, ?_, hsentinel⟩
  · apply h.rep.plant hnot hznil hznil
    · exact (plain_of_ne hzroot).trans self2
    · intro f' rest' hcons
      obtain ⟨rfl, rfl⟩ := List.cons.inj hcons
      have hf2 : h2 f.label.addr = some (f.node nil z p) := by
        rw [other2 _ hfz, self1, Frame.setChild_node]
      apply plain_sideNode hf2
      · intro heq
        rw [hfroot.mp heq, parentOf_nil]
      · exact fun hne => hp (fun hrest => hne (hfroot.mpr hrest))
    · intro e hez hef
      apply plain_congr
      rw [other2 e hez]
      exact other1 e hef
  · exact (other2 _ hznil.symm).trans ((other1 _ hfnil.symm).trans hnil)

theorem Shows.first (h : Shows nil q t leaf) (hz : t.heap z = some n) (hznil : z ≠ nil) :
    ∃ heap, t.heap.modify z (fun n => ⟨nil, nil, null, .black, n.value⟩) = .ok heap ∧
      Shows nil q ⟨heap, z⟩ (node .black leaf ⟨z, n.value⟩ leaf) := by
  obtain ⟨sn, hnil, hsentinel⟩ := h.sentinel
  obtain ⟨heap, hok, hself, hother⟩ :=
    Heap.modify_spec hz (fun n => ⟨nil, nil, null, .black, n.value⟩)
  have hroot : Tree.plain nil ⟨heap, z⟩ z = some (sideNode .left nil nil nil .black n.value) :=
    plain_sideNode (s := .left) (p := null) hself (fun _ => rfl) (fun hne => absurd rfl hne)
  have hnot : nil ∉ addrs (node .black leaf ⟨z, n.value⟩ (leaf : ColorTree (Cell TimerEntry))) :=
    fun hmem => hznil (List.mem_singleton.mp hmem).symm
  exact ⟨heap, hok, ⟨⟨hroot, trivial, trivial⟩, List.nodup_singleton z, hnot, hnot⟩, rfl, sn,
    (hother _ hznil.symm).trans hnil, hsentinel⟩

/-- `ngx_rbtree_insert` puts a node where the comparisons on the way lead. -/
theorem ngxRbtreeInsert_spec (h : Shows nil q t T) (hvalid : Valid T) (hz : t.heap z = some n)
    (hnot : z ∉ addrs T) (hznil : z ≠ nil)
    (hless : ∀ f ∈ descend isAfter [] T, less n.value.key f.label.value.key = isAfter f.label) :
    ∃ t' T', Returns (fun turns => ngxRbtreeInsert less turns nil z t) t' ∧ Shows nil q t' T' ∧
      Valid T' ∧ T'.toList =
        before (descend isAfter [] T) ++ ⟨z, n.value⟩ :: after (descend isAfter [] T) := by
  by_cases hT : T = leaf
  · subst hT
    obtain ⟨heap, hok, hshows⟩ := h.first hz hznil
    refine ⟨_, _, Returns.of_eq (fun turns => ?_), hshows, ⟨rfl, 1, .black .leaf .leaf⟩, rfl⟩
    have hroot : t.root = nil := h.root
    rw [ngxRbtreeInsert, if_pos hroot, hok, ok_bind]
  · have hroot : t.root ≠ nil := by
      rw [h.root, ne_eq, Rep.ptr_eq_nil_iff (K := []) h.rep]
      exact hT
    obtain ⟨f, rest, hcons, hplace⟩ := insertPlace_spec (K := []) h hT hless
    have hfill : fill (f :: rest) leaf = T := by
      rw [← hcons]
      exact fill_descend
    rw [hcons]
    rw [← hfill] at h hnot hvalid
    obtain ⟨h1, h2, ok1, ok2, s2⟩ := h.plant hz hnot hznil
    obtain ⟨m, hbalanced, hctx⟩ := valid_fill.mp hvalid
    cases hbalanced
    obtain ⟨t3, hreturns, s3⟩ := insertLoop_spec s2 rfl hctx
    refine ⟨t3, _, hplace.after hreturns ?_, s3,
      valid_insertLoop rfl (.red rfl rfl .leaf .leaf) hctx, ?_⟩
    · intro turns hok
      rw [← hfill, ← h.root] at hok
      rw [ngxRbtreeInsert, if_neg hroot, insertWith, Heap.node_eq hz, ok_bind, hok, ok_bind, ok1,
        ok_bind, ok2, ok_bind]
      rfl
    · rw [toList_paint, toList_insertLoop rfl, toList_fill, List.append_assoc]
      rfl

/-! ## Deletion of a node without a left child -/

theorem chooseSubst_eq (h : Shows nil q t (fill K (branch .left c leaf x v))) (turns : ℕ) :
    chooseSubst turns nil x.addr t.heap = .ok (x.addr, ptr nil v) := by
  obtain ⟨p, hx, -⟩ := h.node_eq
  rw [chooseSubst, Heap.node_eq hx, ok_bind]
  exact if_pos rfl

/-- The root is replaced by its child, which becomes black. -/
theorem deleteRoot_spec (h : Shows nil q t (branch .left c leaf x v))
    (hvalid : Valid (branch .left c leaf x v)) :
    ∃ t', (∀ turns, ngxRbtreeDelete turns nil x.addr t = .ok t') ∧
      Shows nil q t' (v.paint .black) ∧ Valid (v.paint .black) := by
  have hroot : x.addr = t.root := (Shows.addr_root_iff (K := []) h).mpr rfl
  obtain ⟨h1, ok1, s1⟩ := Shows.blacken (K := [⟨.right, c, x, leaf⟩]) h
  obtain ⟨p, hx, -⟩ := s1.frame_eq
  obtain ⟨h2, ok2, -, other2⟩ := Heap.modify_spec hx
    (fun n => ⟨null, null, null, n.color, { n.value with key := 0 }⟩)
  obtain ⟨sn, hnil, hsentinel⟩ := s1.sentinel
  have hrep : Rep (Tree.plain nil ⟨h1, t.root⟩) nil nil
      (fill [] (branch .left c leaf x (v.paint .black))) := s1.rep
  have hvx : ptr nil v ≠ x.addr := by
    have hne := s1.ne_root
    rw [ptr_paint] at hne
    rw [hroot]
    exact hne
  have hxnil : x.addr ≠ nil :=
    hrep.mem_ne_nil (mem_addrs_fill.mpr (.inr (mem_addrs_branch.mpr (.inl rfl))))
  have hlists : ∃ n, Balanced (v.paint .black) n := by
    obtain ⟨hc, n, hbalanced⟩ := hvalid
    rw [color_branch] at hc
    subst hc
    obtain ⟨m, -, -, hv⟩ := hbalanced.succ_of_black
    exact hv.paint_black
  refine ⟨⟨h2, ptr nil v⟩, fun turns => ?_, ⟨?_, ptr_paint.symm, sn, ?_, hsentinel⟩,
    color_paint_black v, hlists⟩
  · rw [ngxRbtreeDelete, chooseSubst_eq (K := []) h, ok_bind]
    simp only [hroot, if_true, ok1, ok_bind]
    rw [clear, ← hroot, ok2, ok_bind]
  · apply hrep.unlink (K := [])
    · intro n hv hn
      rw [ptr_paint] at hn ⊢
      rw [plain_of_ne (by rw [← hroot]; exact hvx)] at hn
      have hn2 : h2 (ptr nil v) = some n := (other2 _ hvx).trans hn
      show (if ptr nil v = ptr nil v then (h2 (ptr nil v)).map _ else _) = _
      rw [if_pos rfl, hn2]
      rfl
    · exact fun f rest hcons => absurd hcons (by simp)
    · intro e henil hex hev _
      have hne : e ≠ ptr nil v := by
        by_cases hv : v = leaf
        · rw [hv]
          exact henil
        · rw [← ptr_paint (c := .black)]
          apply hev
          intro hleaf
          cases v with
          | leaf => exact hv rfl
          | node => exact absurd hleaf (by simp [paint])
      rw [plain_of_ne hne, plain_of_ne (by rw [← hroot]; exact hex)]
      exact other2 e hex
  · exact (other2 _ hxnil.symm).trans hnil

/-- Below the root the node is passed by. Where it has no child the sentinel tells afterwards
where it was. -/
theorem Shows.unlink (h : Shows nil q t (fill (f :: rest) (branch .left c leaf x v))) :
    ∃ h1 h2 h3 q', t.heap.setChild f.label.addr f.side (ptr nil v) = .ok h1 ∧
      h1.setParent (ptr nil v) f.label.addr = .ok h2 ∧ clear x.addr h2 = .ok h3 ∧
      Shows nil q' ⟨h3, t.root⟩ (fill (f :: rest) v) ∧ (v = leaf → q' = f.label.addr) := by
  obtain ⟨p, hx, -⟩ := h.node_eq
  obtain ⟨pf, hf, hpf⟩ := h.frame_eq
  rw [ptr_branch] at hf
  obtain ⟨sn, hnil, hblack, -⟩ := h.sentinel
  obtain ⟨-, hxv, -⟩ := h.rep.parts
  have hxmem : x.addr ∈ addrs (branch .left c leaf x v) := mem_addrs_branch.mpr (.inl rfl)
  have hvmem : v ≠ leaf → ptr nil v ∈ addrs (branch .left c leaf x v) :=
    fun hv => mem_addrs_branch.mpr (.inr (.inr (mem_addrs_of_ne_leaf hv)))
  have hfmem : f.label.addr ∈ addrs (fill (f :: rest) (branch .left c leaf x v)) :=
    mem_addrs_fill.mpr (.inl List.mem_cons_self)
  have hxnil : x.addr ≠ nil := h.rep.mem_ne_nil (mem_addrs_fill.mpr (.inr hxmem))
  have hfnil : f.label.addr ≠ nil := h.rep.mem_ne_nil hfmem
  have hxf : x.addr ≠ f.label.addr := h.rep.below_ne_parentOf hxmem
  have hview : Shows nil q t (fill (⟨.right, c, x, leaf⟩ :: f :: rest) v) := h
  have hvnil : v ≠ leaf → ptr nil v ≠ nil := fun hv heq => hv (hview.rep.ptr_eq_nil_iff.mp heq)
  have hvf : ptr nil v ≠ f.label.addr := by
    by_cases hv : v = leaf
    · rw [hv]
      exact hfnil.symm
    · exact h.rep.below_ne_parentOf (hvmem hv)
  have hvx : ptr nil v ≠ x.addr := by
    by_cases hv : v = leaf
    · rw [hv]
      exact hxnil.symm
    · exact ne_of_mem_of_not_mem (mem_addrs_of_ne_leaf hv) hxv
  have hvroot : ptr nil v ≠ t.root := hview.ne_root
  obtain ⟨vn, hvn, -⟩ := hview.color_eq
  have hv : t.heap (ptr nil v) = some vn := by
    rw [Heap.node] at hvn
    split at hvn
    · rename_i n hn
      rw [hn, Except.ok.inj hvn]
    · exact absurd hvn (by simp)
  obtain ⟨h1, ok1, self1, other1⟩ := Heap.modify_spec hf (fun n => n.setChild (ptr nil v) f.side)
  obtain ⟨h2, ok2, self2, other2⟩ := Heap.modify_spec ((other1 _ hvf).trans hv)
    (fun n => { n with parent := f.label.addr })
  obtain ⟨h3, ok3, -, other3⟩ := Heap.modify_spec
    ((other2 _ hvx.symm).trans ((other1 _ hxf).trans hx))
    (fun n => ⟨null, null, null, n.color, { n.value with key := 0 }⟩)
  have hv3 : h3 (ptr nil v) = some { vn with parent := f.label.addr } := (other3 _ hvx).trans self2
  have hf3 : h3 f.label.addr = some (f.node nil (ptr nil v) pf) := by
    rw [other3 _ hxf.symm, other2 _ hvf.symm, self1, Frame.setChild_node]
  have hsentinel : ∃ n, h3 nil = some n ∧ n.color = .black ∧ (v = leaf → n.parent = f.label.addr) := by
    by_cases hleaf : v = leaf
    · subst hleaf
      obtain rfl := Option.some.inj (hnil.symm.trans hv)
      exact ⟨_, hv3, hblack, fun _ => rfl⟩
    · refine ⟨sn, ?_, hblack, fun hl => absurd hl hleaf⟩
      rw [other3 _ hxnil.symm, other2 _ (hvnil hleaf).symm, other1 _ hfnil.symm, hnil]
  obtain ⟨n3, hnil3, hblack3, hscratch3⟩ := hsentinel
  have hfroot := Shows.addr_root_iff (K := rest) (x := f.label) h
  refine ⟨h1, h2, h3, n3.parent, ok1, ok2, ok3, ⟨?_, h.root.trans ptr_fill_cons, n3, hnil3,
    hblack3, rfl⟩, hscratch3⟩
  apply h.rep.unlink
  · intro n _ hn
    obtain rfl := Option.some.inj (hv.symm.trans ((plain_of_ne hvroot).symm.trans hn))
    rw [plain_of_ne hvroot]
    exact hv3
  · intro f' rest' hcons
    obtain ⟨rfl, rfl⟩ := List.cons.inj hcons
    apply plain_sideNode hf3
    · intro heq
      rw [hfroot.mp heq, parentOf_nil]
    · exact fun hne => hpf (fun hrest => hne (hfroot.mpr hrest))
  · intro e henil hex hev hef
    apply plain_congr
    have hne : e ≠ ptr nil v := by
      by_cases hleaf : v = leaf
      · rw [hleaf]
        exact henil
      · exact hev hleaf
    rw [other3 e hex, other2 e hne]
    exact other1 e hef

/-- `ngx_rbtree_delete` takes a node without a left child out of the tree. -/
theorem ngxRbtreeDelete_spec (h : Shows nil q t (fill K (branch .left c leaf x v)))
    (hvalid : Valid (fill K (branch .left c leaf x v))) :
    ∃ t' q' T', Returns (fun turns => ngxRbtreeDelete turns nil x.addr t) t' ∧
      Shows nil q' t' T' ∧ Valid T' ∧ T'.toList = (fill K v).toList := by
  cases K with
  | nil =>
    obtain ⟨t', hok, hshows, hvalid'⟩ := deleteRoot_spec h hvalid
    exact ⟨t', q, _, Returns.of_eq hok, hshows, hvalid', toList_paint _ _⟩
  | cons f rest =>
    obtain ⟨p, hx, hp⟩ := h.node_eq
    rw [hp (by simp), parentOf_cons] at hx
    obtain ⟨pf, hf, -⟩ := h.frame_eq
    have hsibling := h.rep.sibling_ne branch_ne_leaf
    have hroot := h.ne_root
    rw [ptr_branch] at hf hsibling hroot
    have hside : (if x.addr = (f.node nil x.addr pf).left then Side.left else .right) = f.side :=
      (if_congr eq_comm rfl rfl).trans (Frame.side_of_left hsibling)
    obtain ⟨h1, h2, h3, q', ok1, ok2, ok3, s3, hq'⟩ := h.unlink
    have hdelete : ∀ turns, ngxRbtreeDelete turns nil x.addr t =
        if c = .red then .ok ⟨h3, t.root⟩ else deleteLoop nil turns (ptr nil v) ⟨h3, t.root⟩ := by
      intro turns
      rw [ngxRbtreeDelete, chooseSubst_eq h, ok_bind]
      simp only [hroot, if_false, Heap.node_eq hx, ok_bind, parent_sideNode, Heap.node_eq hf, hside,
        ok1, if_true, ok2, ok3, color_sideNode]
    cases c with
    | red =>
      exact ⟨_, q', _, Returns.of_eq (fun turns => (hdelete turns).trans (if_pos rfl)), s3,
        valid_without_red hvalid, rfl⟩
    | black =>
      obtain ⟨n, hdeficient, hctx⟩ := deficient_without_black hvalid
      obtain ⟨t', hreturns, hshows⟩ := deleteLoop_spec s3 hq' hdeficient hctx
      exact ⟨t', q', _, hreturns.congr (fun turns => (hdelete turns).trans (if_neg (by decide))),
        hshows, valid_deleteLoop hdeficient hctx, toList_deleteLoop (f :: rest) v⟩

end CServer.RbtTimer
