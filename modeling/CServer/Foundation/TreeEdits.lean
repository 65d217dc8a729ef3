import CServer.Foundation.PointerTree
import Mathlib.Tactic.Tauto

/-!
# Edits of a tree in a heap

What the writes of a tree algorithm do to the tree that the heap holds: a colour, a value, a
rotation, a new leaf, a node taken out, a node put in the place of another. An edit is stated
for any heap with the right nodes at the places it is about, so that the order of the writes
does not matter.
-/
namespace CServer.RedBlack

open ColorTree

variable {α : Type} {heap heap' heap'' : Heap α} {nil top e : Addr} {s : Side} {c c' : Color}
variable {x y : Cell α} {t t' a b d near far : ColorTree (Cell α)} {f : Frame (Cell α)}
variable {K rest : Ctx (Cell α)}

/-! ## Reading around a hole -/

theorem Rep.node_eq (rep : Rep heap nil top (fill K (branch s c near x far))) :
    heap x.addr = some (sideNode s (ptr nil near) (ptr nil far) (parentOf top K) c x.value) :=
  (holds_branch.mp (holds_fill.mp rep.holds).2).1

theorem Rep.frame_eq (rep : Rep heap nil top (fill (f :: K) t)) :
    heap f.label.addr = some (f.node nil (ptr nil t) (parentOf top K)) :=
  (holds_fill.mp rep.holds).1.1

theorem Rep.mem_ne_nil (rep : Rep heap nil top t) (h : e ∈ addrs t) : e ≠ nil :=
  fun heq => rep.nil_notMem (heq ▸ h)

theorem Rep.mem_ne_top (rep : Rep heap nil top t) (h : e ∈ addrs t) : e ≠ top :=
  fun heq => rep.top_notMem (heq ▸ h)

/-- What is read at a node. -/
theorem Rep.read (rep : Rep heap nil top (fill K (node c a x b))) :
    x.addr ≠ nil ∧ x.addr ≠ top ∧
      heap.node x.addr = .ok ⟨ptr nil a, ptr nil b, parentOf top K, c, x.value⟩ := by
  have hx : x.addr ∈ addrs (fill K (node c a x b)) :=
    mem_addrs_fill.mpr (.inr ((mem_addrs_branch (s := .left)).mpr (.inl rfl)))
  exact ⟨rep.mem_ne_nil hx, rep.mem_ne_top hx, Heap.node_eq (holds_fill.mp rep.holds).2.1⟩

/-- The pointer to a subtree is null exactly for the empty one. -/
theorem Rep.ptr_eq_nil_iff (rep : Rep heap nil top (fill K t)) : ptr nil t = nil ↔ t = leaf := by
  constructor
  · intro h
    by_contra hne
    exact rep.mem_ne_nil (mem_addrs_fill.mpr (.inr (mem_addrs_of_ne_leaf hne))) h
  · intro h
    rw [h]
    rfl

/-- The addresses of a subtree, of its node and around it are different. -/
theorem Rep.parts (rep : Rep heap nil top (fill K (branch s c near x far))) :
    x.addr ∉ addrs near ∧ x.addr ∉ addrs far ∧ (addrs near).Nodup ∧ (addrs far).Nodup ∧
      (∀ e ∈ addrs near, e ∉ addrs far) ∧ (ctxAddrs K).Nodup ∧
      x.addr ∉ ctxAddrs K ∧ (∀ e ∈ addrs near, e ∉ ctxAddrs K) ∧
      ∀ e ∈ addrs far, e ∉ ctxAddrs K := by
  obtain ⟨hctx, ht, hdisjoint⟩ := rep.nodup_parts
  obtain ⟨hnear, hfar, hnearnodup, hfarnodup, hapart⟩ := nodup_addrs_branch.mp ht
  refine ⟨hnear, hfar, hnearnodup, hfarnodup, hapart, hctx, ?_, ?_, ?_⟩
  · exact fun h => hdisjoint _ h (mem_addrs_branch.mpr (.inl rfl))
  · exact fun e he h => hdisjoint _ h (mem_addrs_branch.mpr (.inr (.inl he)))
  · exact fun e he h => hdisjoint _ h (mem_addrs_branch.mpr (.inr (.inr he)))

/-- An address that is not around the hole is not that of the parent. -/
theorem ne_parentOf (he : e ∉ ctxAddrs K) (htop : e ≠ top) : e ≠ parentOf top K := by
  cases K with
  | nil => exact htop
  | cons f rest => exact (ne_of_mem_of_not_mem (parentOf_mem rfl) he).symm

/-- The parent of the hole is none of the nodes below it. -/
theorem Rep.below_ne_parentOf (rep : Rep heap nil top (fill K t)) (he : e ∈ addrs t) :
    e ≠ parentOf top K :=
  ne_parentOf (fun h => rep.nodup_parts.2.2 e h he)
    (rep.mem_ne_top (mem_addrs_fill.mpr (.inr he)))

theorem Rep.child_eq (rep : Rep heap nil top (fill K (branch s c a x (branch s c' b y d)))) :
    heap y.addr = some (sideNode s (ptr nil b) (ptr nil d) x.addr c' y.value) :=
  (holds_branch.mp (holds_branch.mp (holds_fill.mp rep.holds).2).2.2).1

theorem Holds.allocated {p : Addr} (h : Holds heap nil p t) (ht : t ≠ leaf) :
    ∃ n, heap (ptr nil t) = some n := by
  cases t with
  | leaf => exact absurd rfl ht
  | node c l x r => exact ⟨_, h.1⟩

/-- The parent of a subtree that has a node. -/
theorem Rep.parent_eq (rep : Rep heap nil top (fill K t)) (ht : t ≠ leaf) :
    ∃ n, heap (ptr nil t) = some n ∧ n.parent = parentOf top K := by
  cases t with
  | leaf => exact absurd rfl ht
  | node c l x r => exact ⟨_, (holds_fill.mp rep.holds).2.1, rfl⟩

theorem Holds.mem_allocated {p : Addr} (h : Holds heap nil p t) (he : e ∈ addrs t) :
    ∃ n, heap e = some n := by
  induction t generalizing p with
  | leaf => exact absurd he List.not_mem_nil
  | node c l x r ihl ihr =>
    rcases (mem_addrs_branch (s := .left)).mp he with rfl | he | he
    · exact ⟨_, h.1⟩
    · exact ihl h.2.1 he
    · exact ihr h.2.2 he

/-- An address that is not allocated is not in the tree. -/
theorem Rep.notMem_of_none (rep : Rep heap nil top t) (he : heap e = none) : e ∉ addrs t := by
  intro hmem
  obtain ⟨n, hn⟩ := rep.holds.mem_allocated hmem
  rw [he] at hn
  exact absurd hn (by simp)

/-- The four places that a rotation writes to are different, and `b` has a node. -/
structure RotationSite (heap : Heap α) (nil top : Addr) (K : Ctx (Cell α)) (x y : Cell α)
    (b : ColorTree (Cell α)) : Prop where
  xy : x.addr ≠ y.addr
  xp : x.addr ≠ parentOf top K
  yp : y.addr ≠ parentOf top K
  xb : b ≠ leaf → x.addr ≠ ptr nil b
  yb : b ≠ leaf → y.addr ≠ ptr nil b
  bp : b ≠ leaf → ptr nil b ≠ parentOf top K
  xnil : x.addr ≠ nil
  ynil : y.addr ≠ nil
  xtop : x.addr ≠ top
  ytop : y.addr ≠ top
  btop : b ≠ leaf → ptr nil b ≠ top
  ptr_eq_nil_iff : ptr nil b = nil ↔ b = leaf
  allocated : b ≠ leaf → ∃ n, heap (ptr nil b) = some n

theorem Rep.rotationSite
    (rep : Rep heap nil top (fill K (branch s c a x (branch s c' b y d)))) :
    RotationSite heap nil top K x y b := by
  obtain ⟨-, hxy, -, hynodup, -⟩ := rep.parts
  obtain ⟨hyb, -⟩ := nodup_addrs_branch.mp hynodup
  simp only [mem_addrs_branch, not_or] at hxy
  have hx : x.addr ∈ addrs (branch s c a x (branch s c' b y d)) := mem_addrs_branch.mpr (.inl rfl)
  have hy : y.addr ∈ addrs (branch s c a x (branch s c' b y d)) :=
    mem_addrs_branch.mpr (.inr (.inr (mem_addrs_branch.mpr (.inl rfl))))
  have hb : b ≠ leaf → ptr nil b ∈ addrs (branch s c a x (branch s c' b y d)) := fun h =>
    mem_addrs_branch.mpr (.inr (.inr (mem_addrs_branch.mpr (.inr (.inl (mem_addrs_of_ne_leaf h))))))
  have hfill : ∀ {e}, e ∈ addrs (branch s c a x (branch s c' b y d)) →
      e ∈ addrs (fill K (branch s c a x (branch s c' b y d))) :=
    fun h => mem_addrs_fill.mpr (.inr h)
  exact {
    xy := hxy.1
    xp := rep.below_ne_parentOf hx
    yp := rep.below_ne_parentOf hy
    xb := fun h => (ne_of_mem_of_not_mem (mem_addrs_of_ne_leaf h) hxy.2.1).symm
    yb := fun h => (ne_of_mem_of_not_mem (mem_addrs_of_ne_leaf h) hyb).symm
    bp := fun h => rep.below_ne_parentOf (hb h)
    xnil := rep.mem_ne_nil (hfill hx)
    ynil := rep.mem_ne_nil (hfill hy)
    xtop := rep.mem_ne_top (hfill hx)
    ytop := rep.mem_ne_top (hfill hy)
    btop := fun h => rep.mem_ne_top (hfill (hb h))
    ptr_eq_nil_iff := by
      constructor
      · intro h
        by_contra hne
        exact rep.mem_ne_nil (hfill (hb hne)) h
      · intro h
        rw [h]
        rfl
    allocated := (holds_branch.mp (holds_branch.mp (holds_fill.mp rep.holds).2).2.2).2.1.allocated }

/-- Above the hole a node on the other side of the parent is not the one in the hole. -/
theorem Rep.sibling_ne (rep : Rep heap nil top (fill (f :: K) t)) (ht : t ≠ leaf) :
    ptr nil f.sibling ≠ ptr nil t := by
  intro heq
  have hmem := mem_addrs_of_ne_leaf (n := nil) ht
  by_cases hleaf : f.sibling = leaf
  · rw [hleaf] at heq
    exact rep.mem_ne_nil (mem_addrs_fill.mpr (.inr hmem)) heq.symm
  · have hsibling := mem_addrs_of_ne_leaf (n := nil) hleaf
    rw [heq] at hsibling
    exact rep.nodup_parts.2.2 _ (List.mem_cons_of_mem _ (List.mem_append_left _ hsibling)) hmem

/-- The root is none of the nodes below another one. -/
theorem Rep.ptr_ne_root (rep : Rep heap nil top (fill (f :: K) t)) :
    ptr nil t ≠ ptr nil (fill (f :: K) t) := by
  intro h
  have hmem : ptr nil t ∈ ctxAddrs (f :: K) := by
    rw [h]
    exact ptr_fill_mem
  by_cases ht : t = leaf
  · rw [ht] at hmem
    exact rep.nil_notMem (mem_addrs_fill.mpr (.inl hmem))
  · exact rep.nodup_parts.2.2 _ hmem (mem_addrs_of_ne_leaf ht)

/-! ## Tests of the null pointer -/

/-- A subtree that may be empty gets a parent. -/
theorem Heap.adopt_spec {g : Heap α} {p : Addr} (hnil : ptr nil t = nil ↔ t = leaf)
    (hin : t ≠ leaf → ∃ n, g (ptr nil t) = some n) :
    ∃ heap', g.adopt nil (ptr nil t) p = .ok heap' ∧
      (∀ n, t ≠ leaf → g (ptr nil t) = some n →
        heap' (ptr nil t) = some { n with parent := p }) ∧
      ∀ e, (t ≠ leaf → e ≠ ptr nil t) → heap' e = g e := by
  by_cases ht : t = leaf
  · refine ⟨g, ?_, fun _ h => absurd ht h, fun _ _ => rfl⟩
    rw [Heap.adopt, if_neg (not_not.mpr (hnil.mpr ht))]
  · obtain ⟨n, hn⟩ := hin ht
    obtain ⟨heap', hok, hself, hother⟩ :=
      Heap.modify_spec hn (fun n => { n with parent := p })
    refine ⟨heap', ?_, ?_, fun e he => hother e (he ht)⟩
    · rw [Heap.adopt, if_pos (fun h => ht (hnil.mp h))]
      exact hok
    · intro m _ hm
      rw [hself, Option.some.inj (hn.symm.trans hm)]

theorem Rep.isRed_eq (rep : Rep heap nil top (fill K t)) :
    heap.isRed nil (ptr nil t) = .ok (decide (t.color = .red)) := by
  cases t with
  | leaf => exact if_pos rfl
  | node c l x r =>
    rw [node_eq_branch .left] at rep ⊢
    have hne : x.addr ≠ nil := by
      intro h
      rw [← ptr_branch (s := .left) (c := c), rep.ptr_eq_nil_iff] at h
      exact branch_ne_leaf h
    rw [Heap.isRed, ptr_branch, if_neg hne, Heap.node_eq rep.node_eq, ok_bind, color_sideNode,
      color_branch]

/-- The colour of the node above the hole. -/
theorem Rep.isRed_frame (rep : Rep heap nil top (fill (f :: K) t)) :
    heap.isRed nil f.label.addr = .ok (decide (f.color = .red)) := by
  have h := Rep.isRed_eq (t := f.fill t) rep
  rwa [Frame.fill_eq, ptr_branch, color_branch] at h

/-! ## The result of an edit -/

/-- The heap has changed, to hold another tree at the same addresses, only at these addresses
and at `top`. -/
structure Becomes (nil top : Addr) (heap : Heap α) (t : ColorTree (Cell α)) (heap' : Heap α)
    (t' : ColorTree (Cell α)) : Prop where
  rep : Rep heap' nil top t'
  mem_iff : ∀ e, e ∈ addrs t' ↔ e ∈ addrs t
  outside : ∀ e, e ∉ addrs t → e ≠ top → heap' e = heap e

/-! ## A colour or a value -/

/-- A node with another colour or value. -/
theorem Rep.write (rep : Rep heap nil top (fill K (branch s c near x far)))
    (hy : y.addr = x.addr)
    (hnode : heap' x.addr =
      some (sideNode s (ptr nil near) (ptr nil far) (parentOf top K) c' y.value))
    (hsame : ∀ e, e ≠ x.addr → heap' e = heap e) :
    Becomes nil top heap (fill K (branch s c near x far)) heap'
      (fill K (branch s c' near y far)) := by
  obtain ⟨hnear, hfar, hnearnodup, hfarnodup, hapart, -, hx, -, -⟩ := rep.parts
  obtain ⟨hctx, ht⟩ := holds_fill.mp rep.holds
  obtain ⟨-, hholds, hholds'⟩ := holds_branch.mp ht
  refine ⟨?_, ?_, ?_⟩
  · apply rep.edit
    · rw [nodup_addrs_branch, hy]
      exact ⟨hnear, hfar, hnearnodup, hfarnodup, hapart⟩
    · intro e he
      rw [mem_addrs_branch, hy] at he
      exact .inl (mem_addrs_branch.mpr he)
    · rw [ptr_branch] at hctx ⊢
      rw [hy]
      exact hctx.congr (fun e he => hsame e (fun heq => hx (heq ▸ he)))
    · rw [holds_branch, hy]
      refine ⟨hnode, ?_, ?_⟩
      · exact hholds.congr (fun e he => hsame e (fun heq => hnear (heq ▸ he)))
      · exact hholds'.congr (fun e he => hsame e (fun heq => hfar (heq ▸ he)))
  · intro e
    rw [mem_addrs_fill, mem_addrs_fill, mem_addrs_branch, mem_addrs_branch, hy]
  · intro e he _
    apply hsame
    rintro rfl
    exact he (mem_addrs_fill.mpr (.inr (mem_addrs_branch.mpr (.inl rfl))))

/-- Writing a colour. -/
theorem Rep.setColor (rep : Rep heap nil top (fill K t)) (ht : t ≠ leaf) (c : Color) :
    ∃ heap', heap.setColor (ptr nil t) c = .ok heap' ∧
      Becomes nil top heap (fill K t) heap' (fill K (t.paint c)) ∧
      ∀ e, e ≠ ptr nil t → heap' e = heap e := by
  cases t with
  | leaf => exact absurd rfl ht
  | node d l x r =>
    rw [node_eq_branch .left] at rep ⊢
    refine ⟨_, Heap.modify_eq rep.node_eq _, ?_, fun e he => Function.update_of_ne he _ _⟩
    rw [paint_branch]
    exact rep.write rfl (Function.update_self _ _ _) (fun e he => Function.update_of_ne he _ _)

/-- Writing a value. -/
theorem Rep.setValue (rep : Rep heap nil top (fill K (branch s c near x far))) (v : α) :
    ∃ heap', heap.setValue x.addr v = .ok heap' ∧
      Becomes nil top heap (fill K (branch s c near x far)) heap'
        (fill K (branch s c near ⟨x.addr, v⟩ far)) ∧
      ∀ e, e ≠ x.addr → heap' e = heap e := by
  refine ⟨_, Heap.modify_eq rep.node_eq _, ?_, fun e he => Function.update_of_ne he _ _⟩
  apply rep.write (y := ⟨x.addr, v⟩) rfl
  · rw [Function.update_self]
    cases s <;> rfl
  · exact fun e he => Function.update_of_ne he _ _

/-! ## A rotation -/

/-- The node `y` comes up on the other side of `x`, whatever the order of the writes. -/
theorem Rep.rotate {g : Heap α} (rep : Rep heap nil top (fill K (branch s c a x (branch s c' b y d))))
    (hx : g x.addr = some (sideNode s (ptr nil a) (ptr nil b) y.addr c x.value))
    (hy : g y.addr = some (sideNode s x.addr (ptr nil d) (parentOf top K) c' y.value))
    (hb : ∀ n, b ≠ leaf → heap (ptr nil b) = some n →
      g (ptr nil b) = some { n with parent := x.addr })
    (hhead : ∀ f rest, K = f :: rest →
      g f.label.addr = some (f.node nil y.addr (parentOf top rest)))
    (hsame : ∀ e, e ≠ x.addr → e ≠ y.addr → (b ≠ leaf → e ≠ ptr nil b) → e ≠ parentOf top K →
      g e = heap e) :
    Becomes nil top heap (fill K (branch s c a x (branch s c' b y d))) g
      (fill K (branch s c' (branch s c a x b) y d)) := by
  obtain ⟨hxa, hxy, hanodup, hynodup, hapart, hctxnodup, hxctx, hactx, hyctx⟩ := rep.parts
  obtain ⟨hyb, hyd, hbnodup, hdnodup, hbd⟩ := nodup_addrs_branch.mp hynodup
  simp only [mem_addrs_branch, not_or] at hxy hapart hyctx
  obtain ⟨hxney, hxb, hxd⟩ := hxy
  obtain ⟨hctx, ht⟩ := holds_fill.mp rep.holds
  obtain ⟨-, hholdsa, hholdsy⟩ := holds_branch.mp ht
  obtain ⟨-, hholdsb, hholdsd⟩ := holds_branch.mp hholdsy
  have hparent : ∀ e, e ∉ ctxAddrs K → e ≠ top → e ≠ parentOf top K :=
    fun e he htop => ne_parentOf he htop
  have hmem : ∀ e, e ∈ addrs (branch s c a x (branch s c' b y d)) → e ≠ top :=
    fun e he => rep.mem_ne_top (mem_addrs_fill.mpr (.inr he))
  have hptr : ∀ e, e ∉ addrs b → b ≠ leaf → e ≠ ptr nil b :=
    fun e he hb => (ne_of_mem_of_not_mem (mem_addrs_of_ne_leaf hb) he).symm
  refine ⟨?_, ?_, ?_⟩
  · apply rep.edit
    · simp only [nodup_addrs_branch, mem_addrs_branch, not_or]
      refine ⟨⟨fun h => hxney h.symm, fun h => (hapart _ h).1 rfl, hyb⟩, hyd,
        ⟨hxa, hxb, hanodup, hbnodup, fun e he => (hapart e he).2.1⟩, hdnodup, ?_⟩
      rintro e (rfl | he | he)
      · exact hxd
      · exact (hapart e he).2.2
      · exact hbd e he
    · intro e he
      simp only [mem_addrs_branch] at he ⊢
      refine .inl ?_
      tauto
    · rw [ptr_branch] at hctx ⊢
      apply hctx.relink hctxnodup hhead
      intro e he hne
      refine hsame e (ne_of_mem_of_not_mem he hxctx) ?_ (hptr e ?_) hne
      · exact ne_of_mem_of_not_mem he (fun h => (hyctx _ (.inl rfl)) h)
      · exact fun h => hyctx e (.inr (.inl h)) he
    · rw [holds_branch, holds_branch, ptr_branch]
      refine ⟨hy, ⟨hx, ?_, ?_⟩, ?_⟩
      · apply hholdsa.congr
        intro e he
        refine hsame e (ne_of_mem_of_not_mem he hxa) (hapart e he).1 (hptr e (hapart e he).2.1) ?_
        exact hparent e (hactx e he) (hmem e (mem_addrs_branch.mpr (.inr (.inl he))))
      · apply hholdsb.reparent hbnodup hb
        intro e he hne
        refine hsame e (ne_of_mem_of_not_mem he hxb) (ne_of_mem_of_not_mem he hyb) (fun _ => hne) ?_
        exact hparent e (hyctx e (.inr (.inl he)))
          (hmem e (mem_addrs_branch.mpr (.inr (.inr (mem_addrs_branch.mpr (.inr (.inl he)))))))
      · apply hholdsd.congr
        intro e he
        refine hsame e (ne_of_mem_of_not_mem he hxd) (ne_of_mem_of_not_mem he hyd)
          (hptr e (fun h => hbd e h he)) ?_
        exact hparent e (hyctx e (.inr (.inr he)))
          (hmem e (mem_addrs_branch.mpr (.inr (.inr (mem_addrs_branch.mpr (.inr (.inr he)))))))
  · intro e
    simp only [mem_addrs_fill, mem_addrs_branch]
    tauto
  · intro e he htop
    simp only [mem_addrs_fill, mem_addrs_branch, not_or] at he
    exact hsame e he.2.1 he.2.2.2.1 (hptr e he.2.2.2.2.1) (hparent e he.1 htop)

/-! ## One node more or less -/

/-- A new node in an empty hole. -/
theorem Rep.plant (rep : Rep heap nil top (fill K leaf)) {z : Addr} {v : α}
    (hfresh : z ∉ addrs (fill K leaf)) (hnil : z ≠ nil) (htop : z ≠ top)
    (hz : heap' z = some ⟨nil, nil, parentOf top K, c, v⟩)
    (hhead : ∀ f rest, K = f :: rest →
      heap' f.label.addr = some (f.node nil z (parentOf top rest)))
    (hsame : ∀ e, e ≠ z → e ≠ parentOf top K → heap' e = heap e) :
    Rep heap' nil top (fill K (node c leaf ⟨z, v⟩ leaf)) := by
  have hzctx : z ∉ ctxAddrs K := fun h => hfresh (mem_addrs_fill.mpr (.inl h))
  apply rep.edit
  · exact List.nodup_singleton z
  · intro e he
    rw [List.mem_singleton.mp he]
    exact .inr ⟨hfresh, hnil, htop⟩
  · apply (holds_fill.mp rep.holds).1.relink rep.nodup_parts.1 hhead
    exact fun e he hne => hsame e (ne_of_mem_of_not_mem he hzctx) hne
  · exact ⟨hz, trivial, trivial⟩

/-- A node with one subtree is taken out; its own node and what is at `top` may be anything
afterwards. -/
theorem Rep.unlink (rep : Rep heap nil top (fill K (branch s c leaf y t)))
    (ht : ∀ n, t ≠ leaf → heap (ptr nil t) = some n →
      heap' (ptr nil t) = some { n with parent := parentOf top K })
    (hhead : ∀ f rest, K = f :: rest →
      heap' f.label.addr = some (f.node nil (ptr nil t) (parentOf top rest)))
    (hsame : ∀ e, e ≠ top → e ≠ y.addr → (t ≠ leaf → e ≠ ptr nil t) → e ≠ parentOf top K →
      heap' e = heap e) : Rep heap' nil top (fill K t) := by
  obtain ⟨-, hyt, -, htnodup, -, hctxnodup, hyctx, -, htctx⟩ := rep.parts
  obtain ⟨hctx, hbranch⟩ := holds_fill.mp rep.holds
  obtain ⟨-, -, hholds⟩ := holds_branch.mp hbranch
  have hin : ∀ e ∈ addrs t, e ∈ addrs (branch s c leaf y t) :=
    fun e he => mem_addrs_branch.mpr (.inr (.inr he))
  apply rep.edit htnodup (fun e he => .inl (hin e he))
  · apply hctx.relink hctxnodup hhead
    intro e he hne
    refine hsame e (rep.mem_ne_top (mem_addrs_fill.mpr (.inl he)))
      (ne_of_mem_of_not_mem he hyctx) ?_ hne
    exact fun hleaf heq => htctx _ (mem_addrs_of_ne_leaf hleaf) (heq ▸ he)
  · apply hholds.reparent htnodup ht
    intro e he hne
    have htop : e ≠ top := rep.mem_ne_top (mem_addrs_fill.mpr (.inr (hin e he)))
    exact hsame e htop (ne_of_mem_of_not_mem he hyt) (fun _ => hne) (ne_parentOf (htctx e he) htop)

/-- A node at a new address takes the place of another one. -/
theorem Rep.relocate (rep : Rep heap nil top (fill K (branch s c near x far)))
    (hfresh : y.addr ∉ addrs (fill K (branch s c near x far))) (hnil : y.addr ≠ nil)
    (htop : y.addr ≠ top)
    (hy : heap' y.addr =
      some (sideNode s (ptr nil near) (ptr nil far) (parentOf top K) c y.value))
    (hnear : ∀ n, near ≠ leaf → heap (ptr nil near) = some n →
      heap' (ptr nil near) = some { n with parent := y.addr })
    (hfar : ∀ n, far ≠ leaf → heap (ptr nil far) = some n →
      heap' (ptr nil far) = some { n with parent := y.addr })
    (hhead : ∀ f rest, K = f :: rest →
      heap' f.label.addr = some (f.node nil y.addr (parentOf top rest)))
    (hsame : ∀ e, e ≠ x.addr → e ≠ y.addr → (near ≠ leaf → e ≠ ptr nil near) →
      (far ≠ leaf → e ≠ ptr nil far) → e ≠ parentOf top K → heap' e = heap e) :
    Rep heap' nil top (fill K (branch s c near y far)) := by
  obtain ⟨hxnear, hxfar, hnearnodup, hfarnodup, hapart, hctxnodup, hxctx, hnearctx, hfarctx⟩ :=
    rep.parts
  obtain ⟨hctx, hbranch⟩ := holds_fill.mp rep.holds
  obtain ⟨-, hholds, hholds'⟩ := holds_branch.mp hbranch
  simp only [mem_addrs_fill, mem_addrs_branch, not_or] at hfresh
  obtain ⟨hyctx, hyx, hynear, hyfar⟩ := hfresh
  have hptr : ∀ {u : ColorTree (Cell α)} {e}, e ∉ addrs u → u ≠ leaf → e ≠ ptr nil u :=
    fun he hu => (ne_of_mem_of_not_mem (mem_addrs_of_ne_leaf hu) he).symm
  have hne : ∀ e, e ∈ addrs near ∨ e ∈ addrs far → e ≠ top := fun e he =>
    rep.mem_ne_top (mem_addrs_fill.mpr (.inr (mem_addrs_branch.mpr (.inr he))))
  apply rep.edit
  · exact nodup_addrs_branch.mpr ⟨hynear, hyfar, hnearnodup, hfarnodup, hapart⟩
  · intro e he
    rcases mem_addrs_branch.mp he with rfl | he
    · refine .inr ⟨?_, hnil, htop⟩
      simp only [mem_addrs_fill, mem_addrs_branch, not_or]
      exact ⟨hyctx, hyx, hynear, hyfar⟩
    · exact .inl (mem_addrs_branch.mpr (.inr he))
  · rw [ptr_branch] at hctx ⊢
    apply hctx.relink hctxnodup hhead
    intro e he hparent
    refine hsame e (ne_of_mem_of_not_mem he hxctx) (ne_of_mem_of_not_mem he hyctx)
      (hptr (fun h => hnearctx e h he)) (hptr (fun h => hfarctx e h he)) hparent
  · refine holds_branch.mpr ⟨hy, ?_, ?_⟩
    · apply hholds.reparent hnearnodup hnear
      intro e he hroot
      refine hsame e (ne_of_mem_of_not_mem he hxnear) (ne_of_mem_of_not_mem he hynear)
        (fun _ => hroot) (hptr (hapart e he)) (ne_parentOf (hnearctx e he) (hne e (.inl he)))
    · apply hholds'.reparent hfarnodup hfar
      intro e he hroot
      refine hsame e (ne_of_mem_of_not_mem he hxfar) (ne_of_mem_of_not_mem he hyfar)
        (hptr (fun h => hapart e h he)) (fun _ => hroot)
        (ne_parentOf (hfarctx e he) (hne e (.inr he)))

end CServer.RedBlack
