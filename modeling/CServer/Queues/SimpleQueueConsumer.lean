import CServer.Queues.SimpleQueueInvariant

/-!
# What `try_dequeue` does to the recycling queue

The consumer claims the element of the last node with the flag, or moves the head and gets the node
that was there. It moves the element out and gives the node to the free list.
-/
namespace CServer.Queues.SimpleQueue

variable {T E : Type} {s s' : System T E} {g g' : Ghost T} {a b i : Idx} {next' : ℕ → Option Idx}

/-! ## The elements that are not yet moved out -/

theorem System.full_flag (h : s.consumer.claimed = []) (hflag : s.consumed = false) (rest : List Idx) :
    s.full rest = s.head :: rest := by
  rw [System.full, h, hflag]
  rfl

/-- The first of the elements that are left is the one that the consumer has claimed. -/
theorem Inv.claimed_item (h : Inv s g) (hclaimed : s.consumer.claimed = [i]) :
    ∃ e, s.item i.slot = some e ∧ s.enqueued.drop s.dequeued.length =
      e :: s.enqueued.drop (s.dequeued.length + 1) := by
  have hitems := h.items
  rw [System.full, hclaimed] at hitems
  cases hdrop : s.enqueued.drop s.dequeued.length with
  | nil =>
    rw [hdrop] at hitems
    cases hitems
  | cons e rest =>
    rw [hdrop] at hitems
    obtain ⟨hitem, -⟩ := List.cons_eq_cons.mp hitems
    refine ⟨e, hitem, ?_⟩
    rw [← List.tail_drop, hdrop, List.tail_cons]

theorem System.moveOut_eq {e : E} {consumer : E → Consumer E} (hmade : s.Made i)
    (hitem : s.item i.slot = some e) : s.moveOut i consumer = some { s with
      item := Function.update s.item i.slot none
      dequeued := s.dequeued ++ [e]
      consumer := consumer e } := by
  rw [System.moveOut, if_pos hmade, hitem]

/-- An element is moved out of the node that was claimed. -/
theorem Inv.moveOut (h : Inv s g) (hclaimed : s.consumer.claimed = [i]) {e : E} {c : Consumer E}
    (hitem : s.item i.slot = some e) (hplace : g.place i.slot ≠ .free)
    (hrest : ∀ j ∈ (if s.consumed then g.rest else s.head :: g.rest), j.slot ≠ i.slot)
    (hproducer : ∀ t, g.place i.slot ≠ .producer t) (hc : c.claimed = []) (hown : c.own = s.consumer.own)
    (hat : ConsumerAt s.next (Function.update s.item i.slot none) g s.head s.consumed c) :
    Inv { s with
      item := Function.update s.item i.slot none
      dequeued := s.dequeued ++ [e]
      consumer := c } g := by
  obtain ⟨e', hitem', hdrop⟩ := h.claimed_item hclaimed
  obtain rfl : e = e' := Option.some.inj (hitem.symm.trans hitem')
  have hitems := h.items
  rw [System.full, hclaimed, hdrop] at hitems
  have hne : ∀ {q : ℕ} {x : Place T}, g.place q = x → g.place i.slot ≠ x →
      Function.update s.item i.slot none q = s.item q := by
    rintro q x rfl hx
    refine Function.update_of_ne ?_ _ _
    rintro rfl
    exact hx rfl
  exact { h with
    freeItem := fun q hq => (hne hq hplace).trans (h.freeItem q hq)
    items := by
      show List.map _ (c.claimed ++ if s.consumed then g.rest else s.head :: g.rest) =
        (s.enqueued.drop (s.dequeued ++ [e]).length).map some
      rw [hc, List.length_append, List.length_singleton, List.nil_append]
      refine Eq.trans (List.map_congr_left fun j hj => ?_) (List.cons_eq_cons.mp hitems).2
      exact Function.update_of_ne (hrest j hj) _ _
    taken := by
      obtain ⟨rest, hrest⟩ := h.taken
      rw [← hrest, List.drop_left] at hdrop
      refine ⟨rest.tail, ?_⟩
      rw [← hrest, hdrop]
      simp
    producers := fun t => (h.producers t).congr
      (fun q hq => ⟨hq, rfl, rfl, hne hq (hproducer t)⟩)
      (.of_versions (fun _ hq => hq) (fun _ _ => rfl) fun _ hi => ⟨hi, rfl⟩)
      fun a b hp => h.link_split hp
    consumer := hat
    consumerOwn := fun q => (h.consumerOwn q).trans (by rw [hown]) }

/-! ## Steps of the consumer alone -/

/-- The consumer does something that only it can see. -/
theorem Inv.actConsumer (h : Inv s g) {c : Consumer E}
    (hnext : ∀ q, g.place q ≠ .consumer → next' q = s.next q)
    (hclaimed : c.claimed = s.consumer.claimed) (hown : c.own = s.consumer.own)
    (hat : ConsumerAt next' s.item g s.head s.consumed c) :
    Inv { s with next := next', consumer := c } g := by
  have hchain : ∀ i ∈ s.head :: g.rest, next' i.slot = s.next i.slot := by
    intro i hi
    exact hnext _ (by simp [h.chain_of_mem hi])
  have hfree : ∀ i ∈ g.free, next' i.slot = s.next i.slot := by
    intro i hi
    exact hnext _ (by simp [h.free_of_mem hi])
  exact { h with
    linked := h.linked.congr hchain fun _ _ _ _ hu => hu
    freeFrom := h.freeFrom.congr hfree
    items := by
      show List.map _ (c.claimed ++ _) = _
      rw [hclaimed]
      exact h.items
    producers := fun t => (h.producers t).congr
      (fun q hq => ⟨hq, rfl, hnext q (by simp [hq]), rfl⟩)
      (.of_versions (fun _ hq => hq) (fun _ _ => rfl) fun i hi => ⟨hi, hfree i hi⟩)
      fun a b hp => by
        obtain ⟨hnone, front, back, hsplit⟩ := h.link_split hp
        exact ⟨(hchain a (mem_of_split hsplit)).trans hnone, front, back, hsplit⟩
    consumer := hat
    consumerOwn := fun q => (h.consumerOwn q).trans (by rw [hown]) }

theorem Inv.goConsumer (h : Inv s g) {c : Consumer E} (hclaimed : c.claimed = s.consumer.claimed)
    (hown : c.own = s.consumer.own) (hat : ConsumerAt s.next s.item g s.head s.consumed c) :
    Inv { s with consumer := c } g :=
  h.actConsumer (fun _ _ => rfl) hclaimed hown hat

/-! ## The head -/

/-- The flag claims the element of the head. -/
theorem Inv.setFlag (h : Inv s g) (hcas : s.consumer = .casFlag s.head) (hflag : s.consumed = false) :
    Inv { s with consumed := true, consumer := .takeLast s.head } g := by
  exact { h with
    items := by
      refine Eq.trans ?_ h.items
      rw [System.full_flag (by rw [hcas]; rfl) hflag]
      rfl
    consumer := ⟨rfl, rfl⟩
    consumerOwn := fun q => (h.consumerOwn q).trans (by rw [hcas]; rfl) }

/-- The head goes to the next node; the consumer gets the node that was there. -/
theorem Inv.moveHead (h : Inv s g) {c : Bool}
    (hcas : s.consumer = .casHead s.head c i) (hflag : s.consumed = c) :
    ∃ g', Inv { s with
      head := i
      consumed := false
      consumer := if c then .loadFree s.head none else .take s.head } g' := by
  have hat := h.consumer
  rw [hcas] at hat
  obtain ⟨-, -, hnext, hitem⟩ := hat
  have hlinked := h.linked
  have hplace := h.chain_of_mem (i := s.head) List.mem_cons_self
  cases hrest : g.rest with
  | nil =>
    rw [hrest] at hlinked
    cases hnext.symm.trans hlinked
  | cons j rest =>
    rw [hrest] at hlinked
    obtain rfl : i = j := by
      rcases hlinked.1 with hsome | ⟨hnone, -⟩
      · exact Option.some.inj (hnext.symm.trans hsome)
      · cases hnext.symm.trans hnone
    have hnodup := h.chainNodup
    rw [hrest, List.map_cons, List.nodup_cons] at hnodup
    let g' : Ghost T := { g with place := Function.update g.place s.head.slot .consumer, rest := rest }
    have hmove : ∀ x : Place T, x ≠ .chain → x ≠ .consumer → ∀ q, g'.place q = x ↔ g.place q = x :=
      fun x hx hx' => place_update hx'.symm (hplace ▸ hx.symm)
    have hkeeps : ∀ x : Place T, x ≠ .chain → Keeps g g' x s.next s.next s.item s.item :=
      fun x hx => .of_update rfl (hplace ▸ hx.symm) (fun _ _ => rfl) (fun _ _ => rfl) fun _ _ => rfl
    have howns : Owns g' .consumer s.head :=
      ⟨Function.update_self _ _ _, h.chainVersion _ List.mem_cons_self⟩
    refine ⟨g', { h with
      made := fun q => (not_congr (hmove .unmade (by simp) (by simp) q)).trans (h.made q)
      chain := fun q => ?_
      chainNodup := hnodup.2
      chainVersion := fun j hj => h.chainVersion j (hrest ▸ List.mem_cons_of_mem _ hj)
      tail := ?_
      linked := hlinked.2
      free := fun q => (hmove .free (by simp) (by simp) q).trans (h.free q)
      freeItem := fun q hq => h.freeItem q ((hmove .free (by simp) (by simp) q).mp hq)
      items := ?_
      producers := fun t => ?_
      producersOwn := fun t q => (hmove (.producer t) (by simp) (by simp) q).trans (h.producersOwn t q)
      consumer := ?_
      consumerOwn := fun q => ?_ }⟩
    · refine (place_update_old (by simp) q).trans ?_
      rw [h.chain q, hrest]
      show _ ↔ q ∈ (i :: rest).map Idx.slot
      rw [List.map_cons, List.mem_cons]
      constructor
      · rintro ⟨hq, heq | hmem⟩
        · exact absurd heq hq
        · exact hmem
      · intro hmem
        refine ⟨?_, .inr hmem⟩
        rintro rfl
        exact hnodup.1 hmem
    · rw [h.tail, hrest, List.getLastD_cons]
    · refine Eq.trans ?_ h.items
      rw [System.full, System.full, hcas, hflag, hrest]
      cases c <;> rfl
    · refine (h.producers t).congr (hkeeps _ (by simp)) ?_ fun a b hp => ?_
      · refine .of_versions (fun q hq => ?_) (fun _ _ => rfl) fun _ hi => ⟨hi, rfl⟩
        exact (not_congr (hmove .unmade (by simp) (by simp) q)).mpr hq
      · obtain ⟨hnone, front, back, hsplit⟩ := h.link_split hp
        refine ⟨hnone, ?_⟩
        cases front with
        | nil =>
          obtain rfl : s.head = a := (List.cons_eq_cons.mp hsplit).1
          cases hnext.symm.trans hnone
        | cons x front =>
          exact ⟨front, back, hrest.symm.trans (List.cons_eq_cons.mp hsplit).2⟩
    · cases c with
      | false => exact ⟨howns, rfl⟩
      | true => exact ⟨howns, hitem hflag, rfl⟩
    · refine (place_update_new q).trans ?_
      have hnone := h.consumerOwn q
      rw [hcas] at hnone
      simp only [Consumer.own, reduceCtorEq, iff_false] at hnone
      cases c <;> simp [Consumer.own, hnone, eq_comm]

/-! ## The free list -/

/-- The node is at the head of the free list again, with the version that it has. -/
theorem Inv.giveFree (h : Inv s g) {taken : Option E} {free : Option Idx}
    (hcas : s.consumer = .casFree i taken free) (hhead : s.freeListHead = free) {c : Consumer E}
    (hc : c = .loadHead ∨ ∃ item, c = .done item) :
    ∃ g', Inv { s with freeListHead := some i, consumer := c } g' := by
  have hat := h.consumer
  rw [hcas] at hat
  obtain ⟨hi, hitem, hflag, hnext⟩ := hat
  have hplace := hi.place
  let g' : Ghost T :=
    { g with place := Function.update g.place i.slot .free, free := i :: g.free }
  have hmove : ∀ x : Place T, x ≠ .consumer → x ≠ .free → ∀ q, g'.place q = x ↔ g.place q = x :=
    fun x hx hx' => place_update hx'.symm (hplace ▸ hx.symm)
  have hkeeps : ∀ x : Place T, x ≠ .consumer → Keeps g g' x s.next s.next s.item s.item :=
    fun x hx => .of_update rfl (hplace ▸ hx.symm) (fun _ _ => rfl) (fun _ _ => rfl) fun _ _ => rfl
  have hclaimed : c.claimed = [] := by
    rcases hc with rfl | ⟨item, rfl⟩ <;> rfl
  have hown : c.own = none := by
    rcases hc with rfl | ⟨item, rfl⟩ <;> rfl
  refine ⟨g', { h with
    made := fun q => (not_congr (hmove .unmade (by simp) (by simp) q)).trans (h.made q)
    chain := fun q => (hmove .chain (by simp) (by simp) q).trans (h.chain q)
    free := fun q => ?_
    freeNodup := ?_
    freeVersion := fun j hj => ?_
    freeFrom := ⟨rfl, ?_⟩
    freeItem := fun q hq => ?_
    items := ?_
    producers := fun t => ?_
    producersOwn := fun t q => (hmove (.producer t) (by simp) (by simp) q).trans (h.producersOwn t q)
    consumer := ?_
    consumerOwn := fun q => ?_ }⟩
  · refine (place_update_new q).trans ?_
    rw [h.free q]
    show _ ↔ q ∈ (i :: g.free).map Idx.slot
    rw [List.map_cons, List.mem_cons]
  · show ((i :: g.free).map Idx.slot).Nodup
    rw [List.map_cons, List.nodup_cons, ← h.free, hplace]
    exact ⟨by simp, h.freeNodup⟩
  · rcases List.mem_cons.mp hj with rfl | hj
    · exact hi.version
    · exact h.freeVersion j hj
  · show NodesFrom s.next (s.next i.slot) g.free
    rw [hnext, ← hhead]
    exact h.freeFrom
  · rcases (place_update_new q).mp hq with rfl | hq
    · exact hitem
    · exact h.freeItem q hq
  · refine Eq.trans ?_ h.items
    rw [System.full, System.full, hcas, hclaimed]
    rfl
  · refine (h.producers t).congr (hkeeps _ (by simp)) ?_ fun a b hp => h.link_split hp
    refine .of_versions (fun q hq => ?_) (fun _ _ => rfl) fun j hj =>
      ⟨List.mem_cons_of_mem i hj, rfl⟩
    exact (not_congr (hmove .unmade (by simp) (by simp) q)).mpr hq
  · rcases hc with rfl | ⟨item, rfl⟩ <;>
    · intro hconsumed
      cases hflag.symm.trans hconsumed
  · refine (place_update_old (by simp) q).trans ?_
    rw [h.consumerOwn q, hcas, hown]
    simp only [Consumer.own, Option.some.injEq, reduceCtorEq, iff_false]
    exact fun hq => hq.1 hq.2.symm

/-! ## One step -/

theorem Inv.callTryDequeue (h : Inv s g) {item : Option E} (hdone : s.consumer = .done item) :
    Inv { s with consumer := .loadHead } g := by
  have hat := h.consumer
  rw [hdone] at hat
  exact h.goConsumer (by rw [hdone]; rfl) (by rw [hdone]; rfl) hat

/-- Every step of `try_dequeue` has a result, and the nodes stay accounted for. -/
theorem Inv.tryDequeue (h : Inv s g) (lucky : Bool)
    (enabled : (Action.consumer (T := T) (E := E) lucky).Enabled s) :
    ∃ s' g', tryDequeue s lucky s.consumer = some s' ∧ Inv s' g' := by
  have hat := h.consumer
  have hheadMade : s.Made s.head := h.made_of_place (h.chain_of_mem List.mem_cons_self) (by simp)
  cases hp : s.consumer with
  | loadHead =>
    rw [hp] at hat
    refine ⟨_, g, rfl, h.goConsumer (by rw [hp]; rfl) (by rw [hp]; rfl) ?_⟩
    exact ⟨rfl, rfl, hat⟩
  | loadNext head consumed =>
    rw [hp] at hat
    obtain ⟨rfl, rfl, hitem⟩ := hat
    cases hnext : s.next s.head.slot with
    | none =>
      by_cases hflag : s.consumed = true
      · refine ⟨_, g, ?_, h.goConsumer (c := .done none) (by rw [hp]; rfl) (by rw [hp]; rfl) hitem⟩
        simp only [SimpleQueue.tryDequeue, if_pos hheadMade, hnext, hflag]
      · rw [Bool.not_eq_true] at hflag
        refine ⟨_, g, ?_, h.goConsumer (c := .casFlag s.head) (by rw [hp]; rfl) (by rw [hp]; rfl)
          ⟨rfl, hflag⟩⟩
        simp only [SimpleQueue.tryDequeue, if_pos hheadMade, hnext, hflag]
    | some next =>
      refine ⟨_, g, ?_, h.goConsumer (c := .casHead s.head s.consumed next) (by rw [hp]; rfl)
        (by rw [hp]; rfl) ⟨rfl, rfl, hnext, hitem⟩⟩
      simp only [SimpleQueue.tryDequeue, if_pos hheadMade, hnext]
  | casFlag head =>
    rw [hp] at hat
    obtain ⟨rfl, hflag⟩ := hat
    exact ⟨_, g, if_pos ⟨rfl, hflag⟩, h.setFlag hp hflag⟩
  | takeLast head =>
    rw [hp] at hat
    obtain ⟨rfl, hflag⟩ := hat
    have hclaimed : s.consumer.claimed = [s.head] := by rw [hp]; rfl
    have hplace := h.chain_of_mem (i := s.head) List.mem_cons_self
    obtain ⟨e, hitem, -⟩ := h.claimed_item hclaimed
    refine ⟨_, g, System.moveOut_eq hheadMade hitem, h.moveOut hclaimed hitem ?_ ?_ ?_ rfl ?_ ?_⟩
    · rw [hplace]
      simp
    · rw [hflag]
      intro j hj heq
      have hnodup := h.chainNodup
      rw [List.map_cons, List.nodup_cons] at hnodup
      exact hnodup.1 (heq ▸ List.mem_map_of_mem hj)
    · rw [hplace]
      simp
    · rw [hp]
      rfl
    · exact fun _ => Function.update_self _ _ _
  | casHead head consumed next =>
    rw [hp] at hat
    obtain ⟨rfl, rfl, hnext, hitem⟩ := hat
    by_cases hcas : (s.head = s.head ∧ s.consumed = s.consumed) ∧ lucky
    · obtain ⟨g', hinv⟩ := h.moveHead hp rfl
      exact ⟨_, g', if_pos hcas, hinv⟩
    · refine ⟨_, g, if_neg hcas, h.goConsumer (by rw [hp]; rfl) (by rw [hp]; rfl) hitem⟩
  | take head =>
    rw [hp] at hat
    obtain ⟨hi, hflag⟩ := hat
    have hclaimed : s.consumer.claimed = [head] := by rw [hp]; rfl
    obtain ⟨e, hitem, -⟩ := h.claimed_item hclaimed
    refine ⟨_, g, System.moveOut_eq (h.made_of_place hi.place (by simp)) hitem,
      h.moveOut hclaimed hitem ?_ ?_ ?_ rfl ?_ ?_⟩
    · rw [hi.place]
      simp
    · rw [hflag]
      intro j hj heq
      have hj := h.chain_of_mem hj
      rw [heq, hi.place] at hj
      cases hj
    · rw [hi.place]
      simp
    · rw [hp]
      rfl
    · exact ⟨hi, Function.update_self _ _ _, hflag⟩
  | loadFree head taken =>
    rw [hp] at hat
    exact ⟨_, g, rfl, h.goConsumer (by rw [hp]; rfl) (by rw [hp]; rfl) hat⟩
  | setNext head taken free =>
    rw [hp] at hat
    refine ⟨_, g, if_pos (h.made_of_place hat.1.place (by simp)), ?_⟩
    refine h.actConsumer (fun q hq => ?_) (by rw [hp]; rfl) (by rw [hp]; rfl) ?_
    · refine Function.update_of_ne ?_ _ _
      rintro rfl
      exact hq hat.1.place
    · exact ⟨hat.1, hat.2.1, hat.2.2, Function.update_self _ _ _⟩
  | casFree head taken free =>
    rw [hp] at hat
    by_cases hcas : s.freeListHead = free ∧ lucky
    · cases taken with
      | none =>
        obtain ⟨g', hinv⟩ := h.giveFree hp hcas.1 (.inl rfl)
        exact ⟨_, g', if_pos hcas, hinv⟩
      | some item =>
        obtain ⟨g', hinv⟩ := h.giveFree hp hcas.1 (.inr ⟨some item, rfl⟩)
        exact ⟨_, g', if_pos hcas, hinv⟩
    · refine ⟨_, g, if_neg hcas, h.goConsumer (by rw [hp]; rfl) (by rw [hp]; rfl) ?_⟩
      exact ⟨hat.1, hat.2.1, hat.2.2.1⟩
  | done item => exact absurd hp (enabled item)

end CServer.Queues.SimpleQueue
