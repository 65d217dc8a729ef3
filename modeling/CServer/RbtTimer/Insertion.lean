import CServer.RbtTimer.Rbtree
import CServer.Foundation.TreeEdits
import CServer.Foundation.Rebalancing

/-!
# Rotations and the loop of the insertion in rbtree.c

The parent of the root is never read, so the tree is looked at as if it were the sentinel. The
parent of the sentinel is a scratch pointer, which the rotations leave as it is.
-/
namespace CServer.RbtTimer

open RedBlack RedBlack.ColorTree

/-- The memory with the sentinel for the parent of the root. -/
def Tree.plain (nil : Addr) (t : Tree) : Heap TimerEntry := fun e =>
  if e = t.root then (t.heap e).map (fun n => { n with parent := nil }) else t.heap e

/-- The memory holds the tree and the black sentinel, `root` points to the tree, and the parent of
the sentinel is `scratch`. -/
structure Shows (nil scratch : Addr) (t : Tree) (T : ColorTree (Cell TimerEntry)) : Prop where
  rep : Rep (t.plain nil) nil nil T
  root : t.root = ptr nil T
  sentinel : ∃ n, t.heap nil = some n ∧ n.color = .black ∧ n.parent = scratch

variable {nil q : Addr} {t : Tree} {heap : Heap TimerEntry} {T u : ColorTree (Cell TimerEntry)}
variable {K : Ctx (Cell TimerEntry)} {s : Side} {c c' e : Color} {x y : Cell TimerEntry}
variable {a b d near far : ColorTree (Cell TimerEntry)} {f p g : Frame (Cell TimerEntry)}

/-! ## The memory as it is -/

theorem plain_of_ne {r e : Addr} (h : e ≠ r) : Tree.plain nil ⟨heap, r⟩ e = heap e := if_neg h

/-- How a node looks. -/
theorem plain_sideNode {r e p p' : Addr} {l m : Addr} {v : TimerEntry}
    (h : heap e = some (sideNode s l m p c v)) (hroot : e = r → p' = nil) (hp : e ≠ r → p = p') :
    Tree.plain nil ⟨heap, r⟩ e = some (sideNode s l m p' c v) := by
  by_cases he : e = r
  · rw [Tree.plain, if_pos he, hroot he]
    show (heap e).map _ = _
    rw [h]
    cases s <;> rfl
  · rw [plain_of_ne he, h, hp he]

theorem plain_congr {heap' : Heap TimerEntry} {r e : Addr} (h : heap' e = heap e) :
    Tree.plain nil ⟨heap', r⟩ e = Tree.plain nil ⟨heap, r⟩ e := by
  show (if e = r then (heap' e).map _ else heap' e) = if e = r then (heap e).map _ else heap e
  rw [h]

/-- A node is in the memory as the tree has it, up to the parent of the root. -/
theorem of_plain {r e : Addr} {n : Node TimerEntry} (h : Tree.plain nil ⟨heap, r⟩ e = some n) :
    ∃ q, heap e = some { n with parent := q } ∧ (e ≠ r → q = n.parent) := by
  by_cases he : e = r
  · subst he
    rw [Tree.plain, if_pos rfl] at h
    obtain ⟨m, hm, rfl⟩ := Option.map_eq_some_iff.mp h
    exact ⟨m.parent, hm, fun hne => absurd rfl hne⟩
  · rw [plain_of_ne he] at h
    exact ⟨n.parent, h, fun _ => rfl⟩

/-- The root is the node in the hole exactly if there is nothing above. -/
theorem Shows.ne_root (h : Shows nil q t (fill (f :: K) u)) : ptr nil u ≠ t.root := by
  rw [h.root]
  exact h.rep.ptr_ne_root

theorem Shows.ne_root_of_ne_nil (h : Shows nil q t (fill K u)) (hK : K ≠ []) :
    ptr nil u ≠ t.root := by
  obtain ⟨f, rest, rfl⟩ := List.exists_cons_of_ne_nil hK
  exact h.ne_root

/-- The node in the hole. -/
theorem Shows.node_eq (h : Shows nil q t (fill K (branch s c near x far))) :
    ∃ p, t.heap x.addr = some (sideNode s (ptr nil near) (ptr nil far) p c x.value) ∧
      (K ≠ [] → p = parentOf nil K) := by
  obtain ⟨p, hp, hparent⟩ := of_plain h.rep.node_eq
  refine ⟨p, ?_, ?_⟩
  · rw [hp]
    cases s <;> rfl
  · intro hK
    have hne := h.ne_root_of_ne_nil hK
    rw [ptr_branch] at hne
    rw [hparent hne, parent_sideNode]

theorem Shows.addr_root_iff (h : Shows nil q t (fill K (branch s c near x far))) :
    x.addr = t.root ↔ K = [] := by
  constructor
  · intro heq
    by_contra hK
    have hne := h.ne_root_of_ne_nil hK
    rw [ptr_branch] at hne
    exact hne heq
  · rintro rfl
    rw [h.root, fill_nil, ptr_branch]

/-- The node above the hole. -/
theorem Shows.frame_eq (h : Shows nil q t (fill (f :: K) u)) :
    ∃ p, t.heap f.label.addr = some (f.node nil (ptr nil u) p) ∧ (K ≠ [] → p = parentOf nil K) :=
  Shows.node_eq (K := K) h

/-- The parent of the node in the hole. -/
theorem Shows.parent_eq (h : Shows nil q t (fill (f :: K) u)) (hu : u ≠ leaf) :
    ∃ n, t.heap (ptr nil u) = some n ∧ n.parent = f.label.addr := by
  obtain ⟨n, hn, hparent⟩ := h.rep.parent_eq hu
  obtain ⟨p, hp, heq⟩ := of_plain hn
  exact ⟨_, hp, (heq h.ne_root).trans hparent⟩

/-- A missing child is read at the sentinel. -/
theorem Shows.color_eq (h : Shows nil q t (fill K u)) :
    ∃ n, t.heap.node (ptr nil u) = .ok n ∧ n.color = u.color := by
  cases u with
  | leaf =>
    obtain ⟨n, hn, hblack, -⟩ := h.sentinel
    exact ⟨n, Heap.node_eq hn, hblack⟩
  | node c l x r =>
    obtain ⟨p, hp, -⟩ := Shows.node_eq (s := .left) h
    exact ⟨_, Heap.node_eq hp, rfl⟩

/-! ## Rotations -/

/-- What led to a node leads to another one. -/
theorem replaceChild_spec {o w par : Addr} (side : Node TimerEntry → Side)
    (hroot : o = t.root ↔ K = []) (hpar : K ≠ [] → par = parentOf nil K)
    (hhead : ∀ f rest, K = f :: rest → ∃ p, t.heap f.label.addr = some (f.node nil o p) ∧
      side (f.node nil o p) = f.side ∧ (rest ≠ [] → p = parentOf nil rest)) :
    ∃ t', replaceChild side o par w t = .ok t' ∧
      (∀ f rest, K = f :: rest → ∃ p, t'.heap f.label.addr = some (f.node nil w p) ∧
        (rest ≠ [] → p = parentOf nil rest)) ∧
      (∀ e, (K ≠ [] → e ≠ parentOf nil K) → t'.heap e = t.heap e) ∧
      t'.root = if K = [] then w else t.root := by
  cases K with
  | nil =>
    refine ⟨⟨t.heap, w⟩, if_pos (hroot.mpr rfl), fun f rest h => absurd h (by simp), fun _ _ => rfl,
      rfl⟩
  | cons f rest =>
    have hne : o ≠ t.root := fun heq => absurd (hroot.mp heq) (by simp)
    obtain ⟨p, hf, hside, hp⟩ := hhead f rest rfl
    obtain ⟨heap', hok, hself, hother⟩ := Heap.modify_spec hf (fun n => n.setChild w f.side)
    refine ⟨⟨heap', t.root⟩, ?_, ?_, fun e he => hother e (he (by simp)), rfl⟩
    · rw [replaceChild, if_neg hne, hpar (by simp), parentOf_cons, Heap.node_eq hf, ok_bind, hside,
        Heap.setChild, hok, ok_bind]
    · intro f' rest' h
      obtain ⟨rfl, rfl⟩ := List.cons.inj h
      refine ⟨p, ?_, hp⟩
      show heap' f.label.addr = _
      rw [hself, Frame.setChild_node]

/-- The side on which the rotations look for the node. -/
theorem side_in_rotation {o p : Addr} (h : ptr nil f.sibling ≠ o) :
    (if o = (f.node nil o p).child s then s else s.other) = f.side := by
  by_cases hs : f.side = s
  · rw [← hs, Frame.child_node, if_pos rfl]
  · have hother := Side.eq_other_of_ne hs
    have hchild : (f.node nil o p).child s = ptr nil f.sibling := by
      rw [← Side.other_other s, ← hother, Frame.child_other_node]
    rw [hchild, if_neg h.symm, hother]

theorem Shows.rotate (h : Shows nil q t (fill K (branch s c a x (branch s e b y d)))) :
    ∃ t', ngxRbtreeRotate s nil x.addr t = .ok t' ∧
      Shows nil q t' (fill K (branch s e (branch s c a x b) y d)) := by
  obtain ⟨par, hx, hpar⟩ := h.node_eq
  rw [ptr_branch] at hx
  have hview := h
  rw [← fill_far] at hview
  obtain ⟨py, hy, hpy⟩ := hview.node_eq
  rw [hpy (by simp), parentOf_cons] at hy
  have site := h.rep.rotationSite
  obtain ⟨sn, hnil, hsentinel⟩ := h.sentinel
  have hb : b ≠ leaf → ∃ n, t.heap (ptr nil b) = some n := by
    intro hb
    obtain ⟨n, hn⟩ := site.allocated hb
    obtain ⟨p, hp, -⟩ := of_plain hn
    exact ⟨_, hp⟩
  have hyroot : y.addr ≠ t.root := by
    have hne := hview.ne_root
    rwa [ptr_branch] at hne
  obtain ⟨h1, ok1, self1, other1⟩ :=
    Heap.modify_spec hx (fun n => n.setChild (ptr nil b) s.other)
  obtain ⟨h2, ok2, self2, other2⟩ := Heap.adopt_spec (g := h1) (p := x.addr) site.ptr_eq_nil_iff
    (fun hne => by rw [other1 _ (site.xb hne).symm]; exact hb hne)
  have hy2 : h2 y.addr = t.heap y.addr := by
    rw [other2 _ site.yb, other1 _ site.xy.symm]
  rw [hy] at hy2
  obtain ⟨h3, ok3, self3, other3⟩ := Heap.modify_spec hy2 (fun n => { n with parent := par })
  have same3 : ∀ e, e ≠ x.addr → e ≠ y.addr → (b ≠ leaf → e ≠ ptr nil b) → h3 e = t.heap e :=
    fun e hex hey heb => by rw [other3 e hey, other2 e heb, other1 e hex]
  obtain ⟨t4, ok4, self4, other4, root4⟩ := replaceChild_spec
    (t := ⟨h3, t.root⟩) (K := K) (o := x.addr) (w := y.addr)
    (fun p => if x.addr = p.child s then s else s.other) h.addr_root_iff hpar
    (by
      rintro f rest rfl
      obtain ⟨p, hf, hp⟩ := h.frame_eq
      have hne := h.rep.sibling_ne branch_ne_leaf
      rw [ptr_branch] at hf hne
      refine ⟨p, ?_, side_in_rotation hne, hp⟩
      exact (same3 _ site.xp.symm site.yp.symm (fun hb => (site.bp hb).symm)).trans hf)
  have hy4 : t4.heap y.addr =
      some (sideNode s (ptr nil b) (ptr nil d) par e y.value) := by
    rw [other4 _ (fun _ => site.yp)]
    show h3 y.addr = _
    rw [self3, setParent_sideNode]
  obtain ⟨h5, ok5, self5, other5⟩ := Heap.modify_spec hy4 (fun n => n.setChild x.addr s)
  have hx5 : h5 x.addr = some (sideNode s (ptr nil a) (ptr nil b) par c x.value) := by
    rw [other5 _ site.xy, other4 _ (fun _ => site.xp)]
    show h3 x.addr = _
    rw [other3 _ site.xy, other2 _ site.xb, self1, setChild_other_sideNode]
  obtain ⟨h6, ok6, self6, other6⟩ := Heap.modify_spec hx5 (fun n => { n with parent := y.addr })
  have hb6 : b ≠ leaf → h6 (ptr nil b) = h2 (ptr nil b) := by
    intro hb
    rw [other6 _ (site.xb hb).symm, other5 _ (site.yb hb).symm, other4 _ (fun _ => site.bp hb)]
    exact other3 _ (site.yb hb).symm
  have hx6 : h6 x.addr = some (sideNode s (ptr nil a) (ptr nil b) y.addr c x.value) := by
    rw [self6, setParent_sideNode]
  have hy6 : h6 y.addr = some (sideNode s x.addr (ptr nil d) par e y.value) := by
    rw [other6 _ site.xy.symm, self5, setChild_sideNode]
  have same6 : ∀ e, e ≠ x.addr → e ≠ y.addr → (b ≠ leaf → e ≠ ptr nil b) →
      (K ≠ [] → e ≠ parentOf nil K) → h6 e = t.heap e := by
    intro e hex hey heb hep
    rw [other6 e hex, other5 e hey, other4 e hep]
    exact same3 e hex hey heb
  have hroot : t4.root = ptr nil (fill K (branch s e (branch s c a x b) y d)) := by
    apply root_fill h.root
    rw [ptr_branch]
    exact root4
  have hxroot' : x.addr ≠ t4.root := by
    rw [root4]
    split_ifs with hK
    · exact site.xy
    · exact fun heq => hK (h.addr_root_iff.mp heq)
  have hyroot' : y.addr = t4.root → K = [] := by
    intro heq
    by_contra hK
    rw [root4, if_neg hK] at heq
    exact hyroot heq
  refine ⟨⟨h6, t4.root⟩, ?_, ⟨(h.rep.rotate (g := Tree.plain nil ⟨h6, t4.root⟩) ?_ ?_ ?_ ?_ ?_).rep,
    hroot, sn, ?_, hsentinel⟩⟩
  · simp only [ngxRbtreeRotate, Heap.setChild, Heap.setParent, Heap.node_eq hx, Heap.node_eq hy,
      ok_bind, child_other_sideNode, child_sideNode, parent_sideNode, ok1, ok2, ok3, ok4, ok5, ok6]
  · exact plain_sideNode hx6 (fun heq => absurd heq hxroot') (fun _ => rfl)
  · apply plain_sideNode hy6
    · intro heq
      rw [hyroot' heq, parentOf_nil]
    · intro hne
      apply hpar
      rintro rfl
      exact hne (by rw [root4, if_pos rfl])
  · intro n hb' hn
    have hbroot : ptr nil b ≠ t.root :=
      Shows.ne_root (f := ⟨s, e, y, d⟩) (K := ⟨s.other, c, x, a⟩ :: K) hview
    have hbroot' : ptr nil b ≠ t4.root := by
      rw [root4]
      split_ifs
      · exact (site.yb hb').symm
      · exact hbroot
    have hn : t.heap (ptr nil b) = some n := (plain_of_ne hbroot).symm.trans hn
    rw [plain_of_ne hbroot', hb6 hb']
    exact self2 n hb' (by rw [other1 _ (site.xb hb').symm, hn])
  · rintro f rest rfl
    obtain ⟨pf, hf, hpf⟩ := self4 f rest rfl
    have hf6 : h6 f.label.addr = some (f.node nil y.addr pf) := by
      have hxf : f.label.addr ≠ x.addr := site.xp.symm
      have hyf : f.label.addr ≠ y.addr := site.yp.symm
      rw [other6 _ hxf, other5 _ hyf, hf]
    have hfroot := Shows.addr_root_iff (K := rest) (x := f.label) h
    rw [if_neg (by simp)] at root4
    apply plain_sideNode hf6
    · intro heq
      rw [root4] at heq
      rw [hfroot.mp heq, parentOf_nil]
    · intro hne
      apply hpf
      rintro rfl
      exact hne ((hfroot.mpr rfl).trans root4.symm)
  · intro e' hex hey heb hep
    have hsame : h6 e' = t.heap e' := same6 e' hex hey heb (fun _ => hep)
    by_cases hK : K = []
    · rw [if_pos hK] at root4
      rw [plain_of_ne (by rw [root4]; exact hey), hsame]
      exact (plain_of_ne (by rw [← h.addr_root_iff.mpr hK]; exact hex)).symm
    · rw [if_neg hK] at root4
      rw [root4]
      exact plain_congr hsame
  · show h6 nil = _
    rw [same6 _ site.xnil.symm site.ynil.symm (fun hb => (site.btop hb).symm), hnil]
    intro hK
    obtain ⟨f, rest, rfl⟩ := List.exists_cons_of_ne_nil hK
    exact (h.rep.mem_ne_nil (mem_addrs_fill.mpr (.inl List.mem_cons_self))).symm

/-- The rotation to the other side takes it back. -/
theorem Shows.rotateBack (h : Shows nil q t (fill K (branch s c' (branch s c a x b) y d))) :
    ∃ t', ngxRbtreeRotate s.other nil y.addr t = .ok t' ∧
      Shows nil q t' (fill K (branch s c a x (branch s c' b y d))) := by
  have hturned : Shows nil q t (fill K (branch s.other c' d y (branch s.other c b x a))) := by
    simp only [branch_other]
    exact h
  obtain ⟨t', hok, hshows⟩ := hturned.rotate
  simp only [branch_other] at hshows
  exact ⟨t', hok, hshows⟩

/-! ## Colours -/

theorem Shows.setColor (h : Shows nil q t (fill K u)) (hu : u ≠ leaf) (c : Color) :
    ∃ heap, t.heap.setColor (ptr nil u) c = .ok heap ∧
      Shows nil q ⟨heap, t.root⟩ (fill K (u.paint c)) := by
  cases u with
  | leaf => exact absurd rfl hu
  | node d l x r =>
    rw [node_eq_branch .left] at h ⊢
    rw [ptr_branch, paint_branch]
    obtain ⟨p, hx, hp⟩ := h.node_eq
    obtain ⟨sn, hnil, hsentinel⟩ := h.sentinel
    obtain ⟨heap, hok, hself, hother⟩ := Heap.modify_spec hx (fun n => { n with color := c })
    have hxnil : x.addr ≠ nil :=
      h.rep.mem_ne_nil (mem_addrs_fill.mpr (.inr (mem_addrs_branch.mpr (.inl rfl))))
    refine ⟨heap, hok, ⟨(h.rep.write (y := x) rfl (plain_sideNode hself ?_ ?_) ?_).rep, ?_, sn,
      (hother _ hxnil.symm).trans hnil, hsentinel⟩⟩
    · intro heq
      rw [h.addr_root_iff.mp heq, parentOf_nil]
    · exact fun hne => hp (fun hK => hne (h.addr_root_iff.mpr hK))
    · exact fun e he => plain_congr (hother e he)
    · apply root_fill h.root
      rw [ptr_branch]
      cases K with
      | nil => exact h.root.trans ptr_branch
      | cons f K => rfl

/-- The colour of the node in the hole. -/
theorem Shows.setColor_top (h : Shows nil q t (fill K (branch s c a x b))) (c' : Color) :
    ∃ heap, t.heap.setColor x.addr c' = .ok heap ∧
      Shows nil q ⟨heap, t.root⟩ (fill K (branch s c' a x b)) := by
  have hset := h.setColor branch_ne_leaf c'
  rwa [ptr_branch, paint_branch] at hset

/-- The colour of a child of the node in the hole. -/
theorem Shows.setColor_near (h : Shows nil q t (fill K (branch s c u x b))) (hu : u ≠ leaf)
    (c' : Color) : ∃ heap, t.heap.setColor (ptr nil u) c' = .ok heap ∧
      Shows nil q ⟨heap, t.root⟩ (fill K (branch s c (u.paint c') x b)) :=
  Shows.setColor (K := ⟨s, c, x, b⟩ :: K) h hu c'

theorem Shows.setColor_far (h : Shows nil q t (fill K (branch s c a x u))) (hu : u ≠ leaf)
    (c' : Color) : ∃ heap, t.heap.setColor (ptr nil u) c' = .ok heap ∧
      Shows nil q ⟨heap, t.root⟩ (fill K (branch s c a x (u.paint c'))) := by
  rw [← branch_other] at h ⊢
  exact h.setColor_near hu c'

/-- A write of black to a node or to the sentinel. -/
theorem Shows.blacken (h : Shows nil q t (fill K u)) :
    ∃ heap, t.heap.setColor (ptr nil u) .black = .ok heap ∧
      Shows nil q ⟨heap, t.root⟩ (fill K (u.paint .black)) := by
  by_cases hu : u = leaf
  · subst hu
    obtain ⟨n, hn, -, hscratch⟩ := h.sentinel
    obtain ⟨heap, hok, hself, hother⟩ := Heap.modify_spec hn (fun n => { n with color := .black })
    have hsame : ∀ e ∈ addrs (fill K leaf), Tree.plain nil ⟨heap, t.root⟩ e = t.plain nil e :=
      fun e he => plain_congr (hother e (h.rep.mem_ne_nil he))
    exact ⟨heap, hok, ⟨h.rep.holds.congr hsame, h.rep.nodup, h.rep.nil_notMem, h.rep.top_notMem⟩,
      h.root, _, hself, rfl, hscratch⟩
  · exact h.setColor hu .black

theorem Shows.blackenRoot (h : Shows nil q t T) :
    ∃ t', blackenRoot t = .ok t' ∧ Shows nil q t' (T.paint .black) := by
  obtain ⟨heap, hok, hshows⟩ := Shows.blacken (K := []) h
  refine ⟨⟨heap, t.root⟩, ?_, hshows⟩
  rw [RbtTimer.blackenRoot, h.root, hok, ok_bind]

/-! ## The loop of the insertion -/

/-- What a turn reads from a node upwards. -/
theorem Shows.climb_reads (h : Shows nil q t (fill (p :: g :: K) u)) (hu : u ≠ leaf) :
    (∃ n, t.heap.node (ptr nil u) = .ok n ∧ n.parent = p.label.addr) ∧
      t.heap.node p.label.addr = .ok (p.node nil (ptr nil u) g.label.addr) ∧
      ∃ r, t.heap.node g.label.addr = .ok (g.node nil p.label.addr r) := by
  obtain ⟨n, hn, hparent⟩ := h.parent_eq hu
  obtain ⟨r, hp, hr⟩ := h.frame_eq
  obtain ⟨r', hg, -⟩ := Shows.frame_eq (f := g) (u := p.fill u) h
  rw [hr (by simp), parentOf_cons] at hp
  rw [Frame.fill_eq, ptr_branch] at hg
  exact ⟨⟨n, Heap.node_eq hn, hparent⟩, Heap.node_eq hp, r', Heap.node_eq hg⟩

/-- The uncle, or the sentinel. -/
theorem Shows.uncle_color (h : Shows nil q t (fill (p :: g :: K) u)) :
    ∃ n, t.heap.node (ptr nil g.sibling) = .ok n ∧ n.color = g.sibling.color := by
  rw [fill_cons, fill_sibling] at h
  exact h.color_eq

/-- The red uncle, the parent and the grandparent change colours. -/
theorem insertTurn_recolour (h : Shows nil q t (fill (p :: g :: K) u)) (hu : u ≠ leaf)
    (hg : g.sibling.color = .red) :
    ∃ t', insertTurn g.side nil (ptr nil u) t = .ok (ptr nil (recoloured p g u), t') ∧
      Shows nil q t' (fill K (recoloured p g u)) := by
  obtain ⟨⟨n, hn, hparent⟩, hp, r, hgn⟩ := h.climb_reads hu
  obtain ⟨un, hun, hured⟩ := h.uncle_color
  have hleaf : g.sibling ≠ leaf := by
    intro hleaf
    rw [hleaf] at hg
    exact absurd hg (by decide)
  obtain ⟨h1, ok1, s1⟩ := Shows.setColor_near (K := K) (x := g.label) (b := g.sibling)
    (u := p.fill u) h branch_ne_leaf .black
  rw [Frame.fill_eq, ptr_branch] at ok1
  obtain ⟨h2, ok2, s2⟩ := Shows.setColor_far s1 hleaf .black
  rw [Frame.fill_eq, paint_branch] at s2
  obtain ⟨h3, ok3, s3⟩ := s2.setColor_top .red
  refine ⟨⟨h3, t.root⟩, ?_, s3⟩
  rw [recoloured, ptr_branch]
  simp only [insertTurn, hn, hp, hgn, hun, ok_bind, hparent, Frame.parent_node,
    Frame.child_other_node, hured, hg, if_true, ok1, ok2, ok3]

/-- The parent becomes black, and the grandparent goes down on the other side. -/
theorem insertRaising_spec (h : Shows nil q t (fill K (branch s e (branch s c u x b) y d)))
    (hu : u ≠ leaf) :
    ∃ t', insertRaising s nil (ptr nil u) t = .ok (ptr nil u, t') ∧
      Shows nil q t' (fill K (branch s .black u x (branch s .red b y d))) := by
  obtain ⟨n, hn, hparent⟩ :=
    Shows.parent_eq (f := ⟨s, c, x, b⟩) (K := ⟨s, e, y, d⟩ :: K) h hu
  obtain ⟨h1, ok1, s1⟩ := Shows.setColor_near h branch_ne_leaf .black
  rw [ptr_branch] at ok1
  rw [paint_branch] at s1
  obtain ⟨r, hx, hr⟩ := Shows.node_eq (K := ⟨s, e, y, d⟩ :: K) s1
  rw [hr (by simp), parentOf_cons] at hx
  obtain ⟨h2, ok2, s2⟩ := s1.setColor_top .red
  obtain ⟨t3, ok3, s3⟩ := s2.rotateBack
  refine ⟨t3, ?_, s3⟩
  simp only [insertRaising, Heap.node_eq hn, ok_bind, hparent, ok1, Heap.node_eq hx,
    parent_sideNode, ok2, ok3]

/-- Without a red uncle the turn rotates, and a black node is above the next one. -/
theorem insertTurn_rotate (h : Shows nil q t (fill (p :: g :: K) u)) (hu : u.color = .red)
    (hp : p.color = .red) (hg : g.sibling.color ≠ .red) :
    ∃ t' near y far, insertTurn g.side nil (ptr nil u) t = .ok (ptr nil near, t') ∧
      near ≠ leaf ∧ raised p g u = branch g.side .black near y far ∧
      Shows nil q t' (fill K (raised p g u)) := by
  obtain ⟨near, x, far, rfl⟩ := exists_branch_of_red hu g.side
  obtain ⟨⟨n, hn, hparent⟩, hpn, r, hgn⟩ := h.climb_reads branch_ne_leaf
  obtain ⟨un, hun, hublack⟩ := h.uncle_color
  rw [← hublack] at hg
  have hne := h.rep.sibling_ne branch_ne_leaf
  rw [ptr_branch] at hne hpn hn
  by_cases hside : p.side = g.side
  · have houter : x.addr ≠ (p.node nil x.addr g.label.addr).child g.side.other := by
      rw [← hside, Frame.child_other_node]
      exact hne.symm
    have hfill : g.fill (p.fill (branch g.side .red near x far)) = branch g.side g.color
        (branch g.side p.color (branch g.side .red near x far) p.label p.sibling) g.label
        g.sibling := by
      rw [Frame.fill_eq, Frame.fill_eq, hside]
    rw [fill_cons, fill_cons, hfill] at h
    obtain ⟨t1, ok1, s1⟩ := insertRaising_spec h branch_ne_leaf
    rw [ptr_branch] at ok1
    refine ⟨t1, _, _, _, ?_, branch_ne_leaf, raised_outer hside _, ?_⟩
    · simp only [insertTurn, ptr_branch, hn, hpn, hgn, hun, ok_bind, hparent, Frame.parent_node,
        Frame.child_other_node, hg, if_false, houter, ok1]
    · rw [raised_outer hside]
      exact s1
  · have hinner : x.addr = (p.node nil x.addr g.label.addr).child g.side.other := by
      rw [← Side.eq_other_of_ne hside, Frame.child_node]
    have hfill : p.fill (branch g.side .red near x far) =
        branch g.side .red p.sibling p.label (branch g.side .red near x far) := by
      rw [Frame.fill_eq, Side.eq_other_of_ne hside, branch_other, hp]
    rw [fill_cons, hfill] at h
    obtain ⟨t1, ok1, s1⟩ := h.rotate
    obtain ⟨t2, ok2, s2⟩ := insertRaising_spec (K := K) s1 branch_ne_leaf
    rw [ptr_branch] at ok2
    refine ⟨t2, branch g.side .red p.sibling p.label near, _, _, ?_, branch_ne_leaf,
      raised_inner hside, ?_⟩
    · simp only [insertTurn, ptr_branch, hn, hpn, hgn, hun, ok_bind, hparent, Frame.parent_node,
        Frame.child_other_node, hg, if_false, ← hinner, if_true, ok1, ok2]
    · rw [raised_inner hside]
      exact s2

/-- The loop ends below a black node, or at the root. -/
theorem insertLoop_exit (h : Shows nil q t (fill K u)) (hu : u ≠ leaf)
    (hblack : ∀ f rest, K = f :: rest → f.color = .black) :
    ∃ t', Returns (fun turns => insertLoop nil turns (ptr nil u) t) t' ∧
      Shows nil q t' ((fill K u).paint .black) := by
  obtain ⟨t', hok, hshows⟩ := h.blackenRoot
  refine ⟨t', Returns.of_succ (fun turns => ?_), hshows⟩
  cases K with
  | nil =>
    rw [insertLoop]
    exact (if_pos h.root.symm).trans hok
  | cons f rest =>
    obtain ⟨n, hn, hparent⟩ := h.parent_eq hu
    obtain ⟨r, hf, -⟩ := h.frame_eq
    rw [insertLoop, if_neg h.ne_root, Heap.node_eq hn, ok_bind, hparent, Heap.node_eq hf, ok_bind,
      if_neg, hok]
    rw [Frame.color_node, hblack f rest rfl]
    decide

/-- A turn below a red node. -/
theorem insertLoop_turn (h : Shows nil q t (fill (p :: g :: K) u)) (hu : u ≠ leaf)
    (hp : p.color = .red) (turns : ℕ) :
    insertLoop nil (turns + 1) (ptr nil u) t = (insertTurn g.side nil (ptr nil u) t >>=
      fun next => insertLoop nil turns next.1 next.2) := by
  obtain ⟨⟨n, hn, hparent⟩, hpn, r, hgn⟩ := h.climb_reads hu
  have hne := Rep.sibling_ne (f := g) (t := p.fill u) h.rep branch_ne_leaf
  rw [Frame.fill_eq, ptr_branch] at hne
  have hside : (if p.label.addr = (g.node nil p.label.addr r).left then Side.left else .right) =
      g.side := (if_congr eq_comm rfl rfl).trans (Frame.side_of_left hne)
  rw [insertLoop, if_neg h.ne_root]
  simp only [hn, hpn, hgn, ok_bind, hparent, Frame.color_node, hp, if_true, Frame.parent_node,
    hside]

/-- The loop is the rebalancing of an insertion from the new node upwards. -/
theorem insertLoop_spec {n : ℕ} (h : Shows nil q t (fill K u)) (hred : u.color = .red)
    (hctx : Accepts K .black n) :
    ∃ t', Returns (fun turns => insertLoop nil turns (ptr nil u) t) t' ∧
      Shows nil q t' ((RedBlack.insertLoop K u).paint .black) := by
  have hleaf : ∀ {u : ColorTree (Cell TimerEntry)}, u.color = .red → u ≠ leaf := by
    rintro u hu rfl
    exact absurd hu (by decide)
  induction K, u using RedBlack.insertLoop.induct generalizing n t with
  | case1 u => exact insertLoop_exit h (hleaf hred) (by simp)
  | case2 p u =>
    rw [RedBlack.insertLoop]
    apply insertLoop_exit h (hleaf hred)
    intro f rest hcons
    rw [← (List.cons.inj hcons).1]
    exact hctx.last_black
  | case3 p g K u hp =>
    rw [RedBlack.insertLoop, if_pos hp]
    apply insertLoop_exit h (hleaf hred)
    intro f rest hcons
    rw [← (List.cons.inj hcons).1]
    exact hp
  | case4 p g K u hp huncle ih =>
    obtain ⟨g', rest, hcons, -, -, -, -, hrest⟩ := hctx.red_frame (eq_red_of_ne hp)
    obtain ⟨rfl, rfl⟩ := List.cons.inj hcons
    obtain ⟨t1, hturn, s1⟩ := insertTurn_recolour h (hleaf hred) huncle
    obtain ⟨t2, hreturns, s2⟩ := ih s1 (color_branch _ _ _ _ _) hrest
    rw [RedBlack.insertLoop, if_neg hp, if_pos huncle]
    refine ⟨t2, hreturns.succ (fun turns => ?_), s2⟩
    rw [insertLoop_turn h (hleaf hred) (eq_red_of_ne hp), hturn, ok_bind]
  | case5 p g K u hp huncle =>
    obtain ⟨t1, near, y, far, hturn, hnear, hraised, s1⟩ :=
      insertTurn_rotate h hred (eq_red_of_ne hp) huncle
    have hfill : fill K (raised p g u) = fill (⟨g.side, .black, y, far⟩ :: K) near := by
      rw [hraised, fill_cons, Frame.fill_eq]
    rw [hfill] at s1
    obtain ⟨t2, hreturns, s2⟩ := insertLoop_exit s1 hnear (by
      intro f rest hcons
      rw [← (List.cons.inj hcons).1])
    rw [RedBlack.insertLoop, if_neg hp, if_neg huncle, hfill]
    refine ⟨t2, hreturns.succ (fun turns => ?_), s2⟩
    rw [insertLoop_turn h (hleaf hred) (eq_red_of_ne hp), hturn, ok_bind]

end CServer.RbtTimer
