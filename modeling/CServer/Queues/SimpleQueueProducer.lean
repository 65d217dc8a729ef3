import CServer.Queues.SimpleQueueInvariant

/-!
# What `enqueue` does to the recycling queue

Four steps can be seen by others: a node is taken from the free list, a new one is made, a node is put
behind the tail, and the tail before it is linked to it.
-/
namespace CServer.Queues.SimpleQueue

variable {T E : Type} [DecidableEq T] {s s' : System T E} {g g' : Ghost T} {t u : T} {a b i : Idx}
variable {e : E} {n : Option Idx}

/-! ## The free list -/

theorem Idx.again_eq (h : i.version + 1 < 2 ^ 24) : i.again = ⟨i.slot, i.version + 1⟩ := by
  rw [Idx.again, Nat.mod_eq_of_lt h]

/-- The head of the free list that was read is still its head: its successor is still the same too,
because the version has not changed. -/
theorem Inv.takeFree (h : Inv s g) (hcas : s.producers t = .casFree e i n)
    (hhead : s.freeListHead = some i) (hversion : i.version + 1 < 2 ^ 24) :
    ∃ g', Inv { s.go t (.clearNext e i.again) with freeListHead := n } g' := by
  obtain ⟨free, hfree, hfrom⟩ := h.free_head hhead
  have hi : i ∈ g.free := by simp [hfree]
  have hplace := h.free_of_mem hi
  have hat := h.producers t
  rw [hcas] at hat
  rw [hat.2 (h.freeVersion i hi)] at hfrom
  have hnodup := h.freeNodup
  rw [hfree, List.map_cons, List.nodup_cons] at hnodup
  have hne : ∀ j ∈ free, j.slot ≠ i.slot := by
    intro j hj heq
    exact hnodup.1 (heq ▸ List.mem_map_of_mem hj)
  rw [Idx.again_eq hversion]
  let g' : Ghost T :=
    { place := Function.update g.place i.slot (.producer t)
      version := Function.update g.version i.slot (i.version + 1)
      rest := g.rest
      free := free }
  have hversions : ∀ r ≠ i.slot, g'.version r = g.version r := fun r hr => Function.update_of_ne hr _ _
  have hchain : ∀ j ∈ s.head :: g.rest, j.slot ≠ i.slot := by
    intro j hj heq
    have hj := h.chain_of_mem hj
    rw [heq, hplace] at hj
    cases hj
  have hmove : ∀ x : Place T, x ≠ .free → x ≠ .producer t → ∀ q, g'.place q = x ↔ g.place q = x :=
    fun x hx hx' => place_update hx'.symm (hplace ▸ hx.symm)
  have hkeeps : ∀ x : Place T, x ≠ .free → Keeps g g' x s.next s.next s.item s.item := fun x hx =>
    .of_update rfl (hplace ▸ hx.symm) hversions (fun _ _ => rfl) fun _ _ => rfl
  have hold : ∀ a b, s.producers t ≠ .link a b := by
    rw [hcas]
    simp
  refine ⟨g', { h with
    made := fun q => ?_
    chain := fun q => (hmove .chain (by simp) (by simp) q).trans (h.chain q)
    chainVersion := fun j hj => (h.chainVersion j hj).trans (hversions _ (hchain j hj)).symm
    linked := h.linked.congr (fun _ _ => rfl) fun u a _ b => link_update hold
    free := fun q => ?_
    freeNodup := hnodup.2
    freeVersion := fun j hj => ?_
    freeFrom := hfrom
    freeItem := fun q hq => h.freeItem q ((place_update_old (by simp) q).mp hq).2
    producers := ?_
    producersOwn := ?_
    consumer := h.consumer.congr (hkeeps _ (by simp)) rfl fun n hn => hn
    consumerOwn := fun q => (hmove .consumer (by simp) (by simp) q).trans (h.consumerOwn q)
    once := h.once_update (by simp) }⟩
  · exact (not_congr (hmove .unmade (by simp) (by simp) q)).trans (h.made q)
  · refine (place_update_old (by simp) q).trans ?_
    rw [h.free q, hfree]
    show _ ↔ q ∈ free.map Idx.slot
    simp only [List.map_cons, List.mem_cons]
    constructor
    · rintro ⟨hq, rfl | hmem⟩
      · exact absurd rfl hq
      · exact hmem
    · intro hmem
      refine ⟨?_, .inr hmem⟩
      rintro rfl
      exact hnodup.1 hmem
  · rw [hversions _ (hne j hj)]
    exact h.freeVersion j (hfree ▸ List.mem_cons_of_mem i hj)
  · have hstale : KeepsStale g g' s.next s.next := by
      intro j hj
      by_cases hslot : j.slot = i.slot
      · -- what was read of this slot is too old now
        have hlt : j.version < g'.version j.slot := by
          have hle := hj.version_le
          rw [hslot, ← h.freeVersion i hi] at hle
          rw [hslot]
          show _ < Function.update g.version i.slot (i.version + 1) i.slot
          rw [Function.update_self]
          omega
        refine ⟨⟨?_, Nat.le_of_lt hlt, fun heq => by omega⟩, fun heq => by omega⟩
        show Function.update g.place i.slot (.producer t) j.slot ≠ _
        rw [hslot, Function.update_self]
        simp
      · have hsame := hversions _ hslot
        refine ⟨⟨?_, hsame ▸ hj.version_le, fun heq => ?_⟩, fun heq => ⟨heq.trans hsame, rfl⟩⟩
        · show Function.update g.place i.slot (.producer t) j.slot ≠ _
          rw [Function.update_of_ne hslot]
          exact hj.made
        · have hmem := hj.mem (heq.trans hsame)
          rw [hfree, List.mem_cons] at hmem
          exact hmem.resolve_left fun heq => hslot (heq ▸ rfl)
    refine h.producers_update ?_ (fun u hu => hkeeps _ (by simp)) hstale fun u _ a b => h.link_split
    refine ⟨⟨?_, ?_⟩, h.freeItem _ hplace⟩
    · exact Function.update_self i.slot _ g.place
    · exact (Function.update_self i.slot _ g.version).symm
  · refine h.producersOwn_update (fun u hu => hmove _ (by simp) (by simpa using hu)) fun q => ?_
    refine (place_update_new q).trans ?_
    have hnone := h.producersOwn t q
    rw [hcas] at hnone
    simp only [Producer.own, reduceCtorEq, iff_false] at hnone
    simp [Producer.own, hnone, eq_comm]

/-- A slot that no thread has seen. -/
theorem Inv.newNode (h : Inv s g) (hnew : s.producers t = .newNode e) :
    ∃ g', Inv { s.go t (.loadTail e ⟨s.nextNodeIdx, 0⟩) with
      nextNodeIdx := s.nextNodeIdx + 1
      next := Function.update s.next s.nextNodeIdx none
      item := Function.update s.item s.nextNodeIdx (some e) } g' := by
  have hplace : g.place s.nextNodeIdx = .unmade := by
    by_contra hmade
    have hlt := ((h.made _).mp hmade).2
    omega
  have hpositive : 0 < s.nextNodeIdx := by
    have hhead := h.chain_of_mem (i := s.head) List.mem_cons_self
    have hbounds := (h.made s.head.slot).mp (by simp [hhead])
    omega
  have hne : ∀ {q : ℕ} {x : Place T}, g.place q = x → x ≠ .unmade → q ≠ s.nextNodeIdx := by
    rintro q x hq hx rfl
    exact hx (hq.symm.trans hplace)
  let g' : Ghost T :=
    { g with
      place := Function.update g.place s.nextNodeIdx (.producer t)
      version := Function.update g.version s.nextNodeIdx 0 }
  have hversion : ∀ q ≠ s.nextNodeIdx, g'.version q = g.version q := fun q hq =>
    Function.update_of_ne hq _ _
  have hnext : ∀ q ≠ s.nextNodeIdx, Function.update s.next s.nextNodeIdx none q = s.next q :=
    fun q hq => Function.update_of_ne hq _ _
  have hitem : ∀ q ≠ s.nextNodeIdx, Function.update s.item s.nextNodeIdx (some e) q = s.item q :=
    fun q hq => Function.update_of_ne hq _ _
  have hmove : ∀ x : Place T, x ≠ .unmade → x ≠ .producer t → ∀ q, g'.place q = x ↔ g.place q = x :=
    fun x hx hx' => place_update hx'.symm (hplace ▸ hx.symm)
  have hkeeps : ∀ x : Place T, x ≠ .unmade →
      Keeps g g' x s.next (Function.update s.next s.nextNodeIdx none)
        s.item (Function.update s.item s.nextNodeIdx (some e)) := fun x hx =>
    .of_update rfl (hplace ▸ hx.symm) hversion hnext hitem
  have hchain : ∀ j ∈ s.head :: g.rest, j.slot ≠ s.nextNodeIdx := fun j hj =>
    hne (h.chain_of_mem hj) (by simp)
  have hfree : ∀ j ∈ g.free, j.slot ≠ s.nextNodeIdx := fun j hj => hne (h.free_of_mem hj) (by simp)
  have hold : ∀ a b, s.producers t ≠ .link a b := by
    rw [hnew]
    simp
  refine ⟨g', { h with
    made := fun q => ?_
    chain := fun q => (hmove .chain (by simp) (by simp) q).trans (h.chain q)
    chainVersion := fun j hj => (h.chainVersion j hj).trans (hversion _ (hchain j hj)).symm
    linked := h.linked.congr (fun j hj => hnext _ (hchain j hj)) fun u a _ b => link_update hold
    free := fun q => (hmove .free (by simp) (by simp) q).trans (h.free q)
    freeVersion := fun j hj => (h.freeVersion j hj).trans (hversion _ (hfree j hj)).symm
    freeFrom := h.freeFrom.congr fun j hj => hnext _ (hfree j hj)
    freeItem := fun q hq => ?_
    items := h.items_congr fun j hj => ?_
    producers := ?_
    producersOwn := ?_
    consumer := h.consumer.congr (hkeeps _ (by simp)) (hitem _ (hchain _ List.mem_cons_self))
      fun n hn => (hnext _ (hchain _ List.mem_cons_self)).trans hn
    consumerOwn := fun q => (hmove .consumer (by simp) (by simp) q).trans (h.consumerOwn q)
    once := h.once_update (by simp) }⟩
  · show ¬ g'.place q = .unmade ↔ 0 < q ∧ q < s.nextNodeIdx + 1
    rw [show g'.place q = .unmade ↔ _ from place_update_old (by simp) q]
    have hmade := h.made q
    by_cases hq : q = s.nextNodeIdx
    · simp only [hq, ne_eq, not_true_eq_false, false_and, not_false_eq_true, true_iff]
      omega
    · simp only [ne_eq, hq, not_false_eq_true, true_and]
      rw [← ne_eq, hmade]
      omega
  · have hq' := (hmove .free (by simp) (by simp) q).mp hq
    exact (hitem q (hne hq' (by simp))).trans (h.freeItem q hq')
  · apply hitem
    rcases h.full_place hj with hplace | hplace <;> exact hne hplace (by simp)
  · refine h.producers_update ?_ (fun u hu => hkeeps _ (by simp)) ?_ ?_
    · exact ⟨⟨Function.update_self _ _ _, (Function.update_self s.nextNodeIdx 0 g.version).symm⟩,
        Function.update_self _ _ _, Function.update_self _ _ _⟩
    · refine .of_versions (fun q hq => ?_) (fun q hq => hversion q (hne rfl hq)) fun j hj =>
        ⟨hj, hnext _ (hfree j hj)⟩
      show Function.update g.place s.nextNodeIdx (.producer t) q ≠ .unmade
      rw [Function.update_of_ne (hne rfl hq)]
      exact hq
    · intro u _ a b hu
      obtain ⟨hnone, front, back, hsplit⟩ := h.link_split hu
      exact ⟨(hnext _ (hchain a (mem_of_split hsplit))).trans hnone, front, back, hsplit⟩
  · refine h.producersOwn_update (fun u hu => hmove _ (by simp) (by simpa using hu)) fun q => ?_
    refine (place_update_new q).trans ?_
    have hnone := h.producersOwn t q
    rw [hnew] at hnone
    simp only [Producer.own, reduceCtorEq, iff_false] at hnone
    simp [Producer.own, hnone, eq_comm]

/-! ## The tail -/

theorem Inv.pushTail (h : Inv s g) (hcas : s.producers t = .casTail e i a) (htail : s.tail = a) :
    ∃ g', Inv { s.go t (.link a i) with tail := i, enqueued := s.enqueued ++ [e] } g' := by
  have hat := h.producers t
  rw [hcas] at hat
  obtain ⟨hi, hitem, hnext⟩ := hat
  have hplace := hi.place
  have hlast : g.rest.getLastD s.head = a := h.tail.symm.trans htail
  let g' : Ghost T :=
    { g with place := Function.update g.place i.slot .chain, rest := g.rest ++ [i] }
  have hmove : ∀ x : Place T, x ≠ .producer t → x ≠ .chain → ∀ q, g'.place q = x ↔ g.place q = x :=
    fun x hx hx' => place_update hx'.symm (hplace ▸ hx.symm)
  have hkeeps : ∀ x : Place T, x ≠ .producer t → Keeps g g' x s.next s.next s.item s.item :=
    fun x hx => .of_update rfl (hplace ▸ hx.symm) (fun _ _ => rfl) (fun _ _ => rfl) fun _ _ => rfl
  have hchain : i.slot ∉ (s.head :: g.rest).map Idx.slot := by
    rw [← h.chain, hplace]
    simp
  have hold : ∀ a b, s.producers t ≠ .link a b := by
    rw [hcas]
    simp
  have hfront : ∃ front, s.head :: g.rest = front ++ [a] := by
    refine ⟨(s.head :: g.rest).dropLast, ?_⟩
    rw [← hlast, ← List.getLast_eq_getLastD (List.cons_ne_nil _ _)]
    exact (List.dropLast_append_getLast _).symm
  refine ⟨g', { h with
    made := fun q => (not_congr (hmove .unmade (by simp) (by simp) q)).trans (h.made q)
    chain := fun q => ?_
    chainNodup := ?_
    chainVersion := fun j hj => ?_
    tail := List.getLastD_concat.symm
    linked := h.linked.append hnext (fun u b c => link_update hold) (t := t) ?_
    free := fun q => (hmove .free (by simp) (by simp) q).trans (h.free q)
    freeItem := fun q hq => h.freeItem q ((hmove .free (by simp) (by simp) q).mp hq)
    items := ?_
    taken := h.taken.trans (List.prefix_append _ _)
    producers := ?_
    producersOwn := ?_
    consumer := h.consumer.congr (hkeeps _ (by simp)) rfl fun n hn => hn
    consumerOwn := fun q => (hmove .consumer (by simp) (by simp) q).trans (h.consumerOwn q)
    once := ?_ }⟩
  · refine (place_update_new q).trans ?_
    rw [h.chain q]
    show _ ↔ q ∈ ((s.head :: g.rest) ++ [i]).map Idx.slot
    rw [List.map_append, List.mem_append, List.map_singleton, List.mem_singleton, or_comm]
  · show (((s.head :: g.rest) ++ [i]).map Idx.slot).Nodup
    rw [List.map_append, List.map_singleton, ← List.concat_eq_append]
    exact h.chainNodup.concat hchain
  · rcases List.mem_append.mp (show j ∈ (s.head :: g.rest) ++ [i] from hj) with hj | hj
    · exact h.chainVersion j hj
    · rw [List.mem_singleton.mp hj]
      exact hi.version
  · show Function.update s.producers t (.link a i) t = .link (g.rest.getLastD s.head) i
    rw [hlast, Function.update_self]
  · have hfull : System.full { s.go t (.link a i) with tail := i, enqueued := s.enqueued ++ [e] }
        (g.rest ++ [i]) = s.full g.rest ++ [i] := by
      show s.consumer.claimed ++ (if s.consumed then g.rest ++ [i] else s.head :: (g.rest ++ [i])) = _
      rw [System.full]
      split <;> simp
    show (System.full _ (g.rest ++ [i])).map _ = ((s.enqueued ++ [e]).drop s.dequeued.length).map some
    rw [hfull, List.map_append, List.drop_append_of_le_length h.taken.length_le, List.map_append]
    exact congrArg₂ _ h.items (congrArg (fun x => [x]) hitem)
  · refine h.producers_update ?_ (fun u hu => hkeeps _ (by simpa using hu)) ?_ ?_
    · obtain ⟨front, hfront⟩ := hfront
      refine ⟨hlast ▸ h.linked.last, front, [], ?_⟩
      show (s.head :: g.rest) ++ [i] = _
      rw [hfront]
      simp
    · refine .of_versions (fun q hq => ?_) (fun _ _ => rfl) fun j hj => ⟨hj, rfl⟩
      exact (not_congr (hmove .unmade (by simp) (by simp) q)).mpr hq
    · intro u _ b c hu
      obtain ⟨hnone, front, back, hsplit⟩ := h.link_split hu
      refine ⟨hnone, front, back ++ [i], ?_⟩
      show (s.head :: g.rest) ++ [i] = _
      rw [hsplit]
      simp
  · refine h.producersOwn_update (fun u hu => hmove _ (by simpa using hu) (by simp)) fun q => ?_
    refine (place_update_old (by simp) q).trans ?_
    rw [h.producersOwn t q, hcas]
    simp only [Producer.own, Option.some.injEq, reduceCtorEq, iff_false]
    exact fun hq => hq.1 hq.2.symm
  · -- nobody else waits to link the new node
    have hothers : ∀ u ≠ t, ∀ c, s.producers u ≠ .link c i := by
      intro u _ c hu
      obtain ⟨-, front, back, hsplit⟩ := h.link_split hu
      refine hchain (List.mem_map_of_mem ?_)
      rw [hsplit]
      simp
    intro u u' c c' d (hu : Function.update _ _ _ u = _) (hu' : Function.update _ _ _ u' = _)
    by_cases hut : u = t
    · by_cases hut' : u' = t
      · rw [hut, hut']
      · rw [hut, Function.update_self] at hu
        obtain ⟨-, rfl⟩ : a = c ∧ i = d := by simpa using hu
        rw [Function.update_of_ne hut'] at hu'
        exact absurd hu' (hothers u' hut' c')
    · rw [Function.update_of_ne hut] at hu
      by_cases hut' : u' = t
      · rw [hut', Function.update_self] at hu'
        obtain ⟨-, rfl⟩ : a = c' ∧ i = d := by simpa using hu'
        exact absurd hu (hothers u hut c)
      · rw [Function.update_of_ne hut'] at hu'
        exact h.once u u' c c' d hu hu'

/-! ## The link -/

theorem Inv.linkTail (h : Inv s g) (hlink : s.producers t = .link a b) :
    Inv { s.go t .idle with next := Function.update s.next a.slot (some b) } g := by
  obtain ⟨hnone, front, back, hsplit⟩ := h.link_split hlink
  have hplace := h.chain_of_mem (mem_of_split hsplit)
  have hnext : ∀ {q : ℕ} {x : Place T}, g.place q = x → x ≠ .chain →
      Function.update s.next a.slot (some b) q = s.next q := by
    rintro q x rfl hx
    refine Function.update_of_ne ?_ _ _
    rintro rfl
    exact hx hplace
  have hkeeps : ∀ x : Place T, x ≠ .chain →
      Keeps g g x s.next (Function.update s.next a.slot (some b)) s.item s.item :=
    fun x hx q hq => ⟨hq, rfl, hnext hq hx, rfl⟩
  have hfree : ∀ j ∈ g.free, Function.update s.next a.slot (some b) j.slot = s.next j.slot :=
    fun j hj => hnext (h.free_of_mem hj) (by simp)
  exact { h with
    linked := h.linked.link hsplit h.chainNodup fun u c d hne hu => by
      show Function.update s.producers t .idle u = _
      rw [Function.update_of_ne]
      · exact hu
      · rintro rfl
        rw [hlink] at hu
        obtain ⟨rfl, -⟩ : a = c ∧ b = d := by simpa using hu
        exact hne rfl
    freeFrom := h.freeFrom.congr hfree
    producers := by
      refine h.producers_update trivial (fun u _ => hkeeps _ (by simp)) ?_ ?_
      · exact .of_versions (fun _ hq => hq) (fun _ _ => rfl) fun j hj => ⟨hj, hfree j hj⟩
      · intro u hut c d hu
        obtain ⟨hnone', front', back', hsplit'⟩ := h.link_split hu
        refine ⟨?_, front', back', hsplit'⟩
        refine (Function.update_of_ne (fun hslot => ?_) _ _).trans hnone'
        obtain ⟨rfl, rfl⟩ := split_unique h.chainNodup hsplit hsplit' hslot
        exact hut (h.once u t c c d hu hlink)
    producersOwn := by
      refine h.producersOwn_update (fun u _ q => Iff.rfl) fun q => ?_
      rw [h.producersOwn t q, hlink]
      rfl
    consumer := h.consumer.congr (hkeeps _ (by simp)) rfl fun n hn => by
      refine (Function.update_of_ne (fun hslot => ?_) _ _).trans hn
      rw [hslot, hnone] at hn
      cases hn
    once := h.once_update (by simp) }

/-! ## One step -/

/-- Nothing but what the producer knows changes. -/
theorem Inv.goProducer (h : Inv s g) {p : Producer E} (hold : ∀ a b, s.producers t ≠ .link a b)
    (hnew : ∀ a b, p ≠ .link a b) (hown : p.own = (s.producers t).own)
    (hat : ProducerAt s.next s.item g s.head t p) : Inv (s.go t p) g :=
  h.actProducer (fun _ _ => rfl) (fun _ _ => rfl) hold hnew hown hat

theorem Inv.callEnqueue (h : Inv s g) (hidle : s.producers t = .idle) (e : E) :
    Inv (s.go t (.loadFree e)) g :=
  h.goProducer (by simp [hidle]) (by simp) (by rw [hidle]; rfl) trivial

/-- Every step of `enqueue` has a result, and the nodes stay accounted for. -/
theorem Inv.enqueue (h : Inv s g) (lucky : Bool)
    (enabled : (Action.producer (E := E) t lucky).Enabled s) :
    ∃ s' g', enqueue s t lucky (s.producers t) = some s' ∧ Inv s' g' := by
  have hat := h.producers t
  cases hp : s.producers t with
  | idle => simp [Action.Enabled, hp] at enabled
  | loadFree e =>
    refine ⟨_, g, rfl, h.goProducer (by simp [hp]) (by simp) (by rw [hp]; rfl) ?_⟩
    exact fun j hj => h.stale_free hj
  | loadFreeNext e head =>
    rw [hp] at hat
    cases head with
    | none => exact ⟨_, g, rfl, h.goProducer (by simp [hp]) (by simp) (by rw [hp]; rfl) trivial⟩
    | some j =>
      have hstale := hat j rfl
      have hmade : s.Made j := (h.made j.slot).mp hstale.made
      refine ⟨_, g, if_pos hmade, h.goProducer (by simp [hp]) (by simp) (by rw [hp]; rfl) ?_⟩
      exact ⟨hstale, fun _ => rfl⟩
  | casFree e head next =>
    by_cases hcas : s.freeListHead = some head ∧ lucky
    · have hversion : head.version + 1 < 2 ^ 24 := by simpa [Action.Enabled, hp] using enabled
      obtain ⟨g', hinv⟩ := h.takeFree hp hcas.1 hversion
      exact ⟨_, g', if_pos hcas, hinv⟩
    · refine ⟨_, g, if_neg hcas, h.goProducer (by simp [hp]) (by simp) (by rw [hp]; rfl) ?_⟩
      exact fun j hj => h.stale_free hj
  | newNode e =>
    obtain ⟨g', hinv⟩ := h.newNode hp
    exact ⟨_, g', rfl, hinv⟩
  | clearNext e i =>
    rw [hp] at hat
    refine ⟨_, g, if_pos (h.made_of_place hat.1.place (by simp)), ?_⟩
    refine h.actProducer (fun q hq => ?_) (fun _ _ => rfl) (by simp [hp]) (by simp) (by rw [hp]; rfl) ?_
    · refine Function.update_of_ne ?_ _ _
      rintro rfl
      exact hq hat.1.place
    · exact ⟨hat.1, hat.2, Function.update_self _ _ _⟩
  | construct e i =>
    rw [hp] at hat
    have hsome : s.Made i ∧ (s.item i.slot).isNone := by
      refine ⟨h.made_of_place hat.1.place (by simp), ?_⟩
      rw [hat.2.1]
      rfl
    refine ⟨_, g, if_pos hsome, ?_⟩
    refine h.actProducer (fun _ _ => rfl) (fun q hq => ?_) (by simp [hp]) (by simp) (by rw [hp]; rfl) ?_
    · refine Function.update_of_ne ?_ _ _
      rintro rfl
      exact hq hat.1.place
    · exact ⟨hat.1, Function.update_self _ _ _, hat.2.2⟩
  | loadTail e i =>
    rw [hp] at hat
    exact ⟨_, g, rfl, h.goProducer (by simp [hp]) (by simp) (by rw [hp]; rfl) hat⟩
  | casTail e i tail =>
    rw [hp] at hat
    by_cases hcas : s.tail = tail ∧ lucky
    · obtain ⟨g', hinv⟩ := h.pushTail hp hcas.1
      exact ⟨_, g', if_pos hcas, hinv⟩
    · exact ⟨_, g, if_neg hcas, h.goProducer (by simp [hp]) (by simp) (by rw [hp]; rfl) hat⟩
  | link a b =>
    obtain ⟨-, front, back, hsplit⟩ := h.link_split hp
    have hmade := h.made_of_place (h.chain_of_mem (mem_of_split hsplit)) (by simp)
    exact ⟨_, g, if_pos hmade, h.linkTail hp⟩

end CServer.Queues.SimpleQueue
