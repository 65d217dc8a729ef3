import CServer.RbTree.RbTree1Balance

/-!
# Searching, inserting and erasing in rb_tree.cpp
-/
namespace CServer.RbTree1

open RedBlack RedBlack.ColorTree Contents

/-- The keys that `main` passes: a difference of two of them is an `int`. -/
def InRange (k : ℤ) : Prop := 0 ≤ k ∧ k < 2 ^ 31

instance (k : ℤ) : Decidable (InRange k) := inferInstanceAs (Decidable (_ ∧ _))

/-- A red-black tree in memory with increasing keys. -/
structure Correct (t : RbTree) (T : ColorTree (Cell Entry)) : Prop where
  shown : Shows t T
  valid : Valid T
  increasing : Increasing keyOf T.toList
  inRange : ∀ x ∈ T.toList, InRange (keyOf x)

variable {t : RbTree} {heap : Heap Entry} {T u : ColorTree (Cell Entry)} {K : Ctx (Cell Entry)}
variable {k : ℤ}

/-! ## The search -/

theorem intSub_eq {a b : ℤ} (ha : InRange a) (hb : InRange b) : intSub a b = .ok (a - b) := by
  obtain ⟨ha0, ha⟩ := ha
  obtain ⟨hb0, hb⟩ := hb
  rw [intSub, if_pos]
  omega

/-- What a search returns at its end: the node, or null and the last node on the way. -/
def answer (found : Ctx (Cell Entry) × ColorTree (Cell Entry)) : Addr × Addr :=
  match found.2 with
  | leaf => (null, parentOf null found.1)
  | node c l x r => (ptr null (node c l x r), null)

theorem rbSearchAuxiliary_spec (rep : Rep heap null null (fill K u)) (hk : InRange k)
    (hrange : ∀ x ∈ u.toList, InRange (keyOf x)) :
    Returns (fun turns => rbSearchAuxiliary heap k turns (ptr null u) (parentOf null K))
      (answer (locate keyOf k K u)) := by
  induction u generalizing K with
  | leaf =>
    refine Returns.of_succ (fun turns => ?_)
    rfl
  | node c l x r ihl ihr =>
    have hx : heap x.addr = some ⟨ptr null l, ptr null r, parentOf null K, c, x.value⟩ :=
      (holds_fill.mp rep.holds).2.1
    have hne : x.addr ≠ null :=
      rep.mem_ne_nil (mem_addrs_fill.mpr
        (.inr (mem_addrs_branch.mpr (.inl rfl) : _ ∈ addrs (branch .left c l x r))))
    have hsub := intSub_eq (hrange x (by simp [toList])) hk
    have hturn : ∀ turns, rbSearchAuxiliary heap k (turns + 1) x.addr (parentOf null K) =
        if k < keyOf x then rbSearchAuxiliary heap k turns (ptr null l) x.addr
        else if keyOf x < k then rbSearchAuxiliary heap k turns (ptr null r) x.addr
        else .ok (x.addr, null) := by
      intro turns
      have hpos : 0 < keyOf x - k ↔ k < keyOf x := by omega
      have hneg : keyOf x - k < 0 ↔ keyOf x < k := by omega
      rw [← if_congr hpos rfl rfl, ← if_congr hneg rfl rfl, rbSearchAuxiliary, if_neg hne,
        Heap.node_eq hx, ok_bind]
      show intSub (keyOf x) k >>= _ = _
      rw [hsub, ok_bind]
    rw [locate]
    split
    · rename_i hlt
      have ih := ihl (K := ⟨.left, c, x, r⟩ :: K) rep
        (fun y hy => hrange y (List.mem_append_left _ hy))
      refine ih.succ (fun turns => ?_)
      show rbSearchAuxiliary heap k (turns + 1) x.addr (parentOf null K) = _
      rw [hturn, if_pos hlt]
      rfl
    · rename_i hlt
      split
      · rename_i hgt
        have ih := ihr (K := ⟨.right, c, x, l⟩ :: K) rep
          (fun y hy => hrange y (List.mem_append_right _ (List.mem_cons_of_mem _ hy)))
        refine ih.succ (fun turns => ?_)
        show rbSearchAuxiliary heap k (turns + 1) x.addr (parentOf null K) = _
        rw [hturn, if_neg hlt, if_pos hgt]
        rfl
      · rename_i hgt
        refine Returns.of_succ (fun turns => ?_)
        show rbSearchAuxiliary heap k (turns + 1) x.addr (parentOf null K) = _
        rw [hturn, if_neg hlt, if_neg hgt]
        rfl

/-- A search from the root. -/
theorem Correct.search (h : Correct t T) (hk : InRange k) :
    Returns (fun turns => rbSearchAuxiliary t.heap k turns t.root null)
      (answer (locate keyOf k [] T)) := by
  rw [h.shown.root]
  exact rbSearchAuxiliary_spec (K := []) h.shown.rep hk h.inRange

/-! ## Insertion -/

variable {z : Addr} {d : ℤ}

/-- The new node is linked to the last one on the way. -/
theorem Shows.link (h : Shows t (fill K leaf)) (hbetween : Between keyOf k K)
    (hfresh : t.heap z = none) (hz : z ≠ null) :
    ∃ t', replaceChild (sideInInsert k) (parentOf null K) z
        ⟨t.heap.alloc z ⟨null, null, parentOf null K, .red, ⟨k, d⟩⟩, t.root⟩ = .ok t' ∧
      Shows t' (fill K (node .red leaf ⟨z, ⟨k, d⟩⟩ leaf)) := by
  have hnot : z ∉ addrs (fill K leaf) := h.rep.notMem_of_none hfresh
  have hne : ∀ f rest, K = f :: rest → f.label.addr ≠ z := by
    rintro f rest rfl rfl
    exact hnot (mem_addrs_fill.mpr (.inl List.mem_cons_self))
  obtain ⟨t', hok, hself, hother, hroot⟩ := replaceChild_spec (K := K)
    (o := null) (w := z) (g := sideInInsert k)
    (t := ⟨t.heap.alloc z ⟨null, null, parentOf null K, .red, ⟨k, d⟩⟩, t.root⟩)
    (by
      rintro f rest rfl
      refine ⟨h.rep.mem_ne_nil (mem_addrs_fill.mpr (.inl List.mem_cons_self)), ?_⟩
      exact (Function.update_of_ne (hne f rest rfl) _ _).trans h.rep.frame_eq)
    (by
      rintro f rest rfl
      rw [hbetween.side_eq, sideInInsert, Frame.value_node]
      rfl)
  have hzp : z ≠ parentOf null K := by
    cases K with
    | nil => exact hz
    | cons f rest => exact (hne f rest rfl).symm
  refine ⟨t', hok, ?_, ?_⟩
  · apply h.rep.plant hnot hz hz _ hself
    · intro e hez hep
      rw [hother e hep]
      exact Function.update_of_ne hez _ _
    · rw [hother z hzp]
      exact Function.update_self _ _ _
  · exact root_fill h.root hroot

/-- A new node where its key belongs. -/
theorem rbInsert_new (h : Correct t (fill K leaf)) (hbetween : Between keyOf k K)
    (hk : InRange k) (hfresh : t.heap z = none) (hz : z ≠ null) :
    ∃ t' t'' T', replaceChild (sideInInsert k) (parentOf null K) z
        ⟨t.heap.alloc z ⟨null, null, parentOf null K, .red, ⟨k, d⟩⟩, t.root⟩ = .ok t' ∧
      Returns (fun turns => rbInsertRebalance turns z t') t'' ∧ Correct t'' T' ∧
      T'.toList = before K ++ ⟨z, ⟨k, d⟩⟩ :: after K := by
  obtain ⟨t', hok, hshows⟩ := h.shown.link (d := d) hbetween hfresh hz
  obtain ⟨n, hbalanced, hctx⟩ := valid_fill.mp h.valid
  cases hbalanced
  obtain ⟨t'', hreturns, hshows'⟩ := rbInsertRebalance_spec hshows rfl hctx
  have hlist : ((insertLoop K (node .red leaf ⟨z, ⟨k, d⟩⟩ leaf)).paint .black).toList =
      before K ++ ⟨z, ⟨k, d⟩⟩ :: after K := by
    rw [toList_paint, toList_insertLoop rfl, toList_fill, List.append_assoc]
    rfl
  refine ⟨t', t'', _, hok, hreturns, ⟨hshows', ?_, ?_, ?_⟩, hlist⟩
  · exact valid_insertLoop rfl (.red rfl rfl .leaf .leaf) hctx
  · exact increasing_insert h.increasing hbetween hlist
  · have hrange := h.inRange
    rw [toList_fill, toList, List.append_nil] at hrange
    rw [hlist]
    intro x hx
    rcases List.mem_append.mp hx with hx | hx
    · exact hrange x (List.mem_append_left _ hx)
    · rcases List.mem_cons.mp hx with rfl | hx
      · exact hk
      · exact hrange x (List.mem_append_right _ hx)

/-- `rb_insert` changes nothing where the key is there, and adds it where it is not. -/
theorem rbInsert_spec (h : Correct t T) (hk : InRange k) (hfresh : t.heap z = none)
    (hz : z ≠ null) :
    ∃ t' T', Returns (fun turns => rbInsert turns k d z t) t' ∧ Correct t' T' ∧
      ((∃ v ∈ entries T, v.key = k) ∧ T' = T ∨
        (∀ v ∈ entries T, v.key ≠ k) ∧ ∀ v, v ∈ entries T' ↔ v = ⟨k, d⟩ ∨ v ∈ entries T) := by
  have hsearch := h.search hk
  have hfill : fill (locate keyOf k [] T).1 (locate keyOf k [] T).2 = T := fill_locate
  have hbetween : Between keyOf k (locate keyOf k [] T).1 := between_nil.locate h.increasing
  by_cases hfound : (locate keyOf k [] T).2 = leaf
  · have hnot := key_ne_of_not_found h.increasing hfound
    rw [hfound] at hfill
    rw [← hfill] at h
    obtain ⟨t', t'', T', hlink, hreturns, hcorrect, hlist⟩ :=
      rbInsert_new (d := d) h hbetween hk hfresh hz
    refine ⟨t'', T', hsearch.after hreturns ?_, hcorrect, .inr ⟨hnot, ?_⟩⟩
    · intro turns hok
      rw [rbInsert, hok, ok_bind, answer, hfound]
      simp only [ne_eq, not_true_eq_false, if_false, hlink, ok_bind]
    · apply mem_insert_entry (p := (before (locate keyOf k [] T).1).map Cell.value)
      · rw [← hfill, entries_fill, hfill]
        exact congrArg (· ++ _) (List.append_nil _)
      · rw [entries, hlist, List.map_append, List.map_cons]
  · obtain ⟨c, l, x, r, hnode, hkey⟩ := key_of_locate hfound
    have hx := mem_of_found hnode
    have hne : x.addr ≠ null := h.shown.rep.mem_ne_nil (List.mem_map_of_mem hx)
    refine ⟨t, T, hsearch.after (Returns.of_eq (f := fun _ => .ok t) (fun _ => rfl)) ?_, h,
      .inl ⟨⟨x.value, List.mem_map_of_mem hx, hkey⟩, rfl⟩⟩
    intro turns hok
    rw [rbInsert, hok, ok_bind, answer, hnode]
    exact if_pos hne

end CServer.RbTree1
