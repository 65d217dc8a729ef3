import CServer.Queues.SimpleQueueConsumer
import CServer.Queues.SimpleQueueProducer
import Mathlib.Data.List.Perm.Subperm

/-!
# Runs of the recycling queue

Whatever the producers and the consumer do in whatever order, each element is moved out at most once
and in the order in which the nodes were put behind the tail, and no step finds its node or its
element missing.
-/
namespace CServer.Queues.SimpleQueue

variable {T E : Type} {s s' : System T E} {g : Ghost T} {next : ℕ → Option Idx}

/-! ## A queue that is empty -/

theorem Linked.empty_or_link {producers : T → Producer E} {a : Idx} {rest : List Idx}
    (h : Linked next producers a rest) (hnone : next a.slot = none) :
    rest = [] ∨ ∃ t b, producers t = .link a b := by
  cases rest with
  | nil => exact .inl rfl
  | cons b rest =>
    rcases h.1 with hsome | ⟨-, t, ht⟩
    · cases hnone.symm.trans hsome
    · exact .inr ⟨t, b, ht⟩

/-- `try_dequeue` returns false only where the head is consumed and has no successor. -/
theorem tryDequeue_refuses {lucky : Bool} (hresult : tryDequeue s lucky s.consumer = some s')
    (hdone : s'.consumer = .done none) (hold : s.consumer ≠ .done none) :
    ∃ head, s.consumer = .loadNext head true ∧ s.next head.slot = none := by
  have hmoved : ∀ {i : Idx} {c : E → Consumer E}, s.moveOut i c = some s' → ∃ e, s'.consumer = c e := by
    intro i c hmove
    rw [System.moveOut] at hmove
    split at hmove
    · split at hmove
      · cases hmove
      · obtain rfl := Option.some.inj hmove
        exact ⟨_, rfl⟩
    · cases hmove
  cases hp : s.consumer with
  | loadHead | loadFree =>
    rw [hp] at hresult
    obtain rfl := Option.some.inj hresult
    cases hdone
  | setNext =>
    rw [hp] at hresult
    simp only [tryDequeue] at hresult
    split at hresult
    · obtain rfl := Option.some.inj hresult
      cases hdone
    · cases hresult
  | casFlag =>
    rw [hp] at hresult
    simp only [tryDequeue] at hresult
    split at hresult <;> obtain rfl := Option.some.inj hresult <;> cases hdone
  | casHead head consumed next =>
    rw [hp] at hresult
    simp only [tryDequeue] at hresult
    split at hresult <;> obtain rfl := Option.some.inj hresult
    · cases consumed <;> cases hdone
    · cases hdone
  | loadNext head consumed =>
    rw [hp] at hresult
    simp only [tryDequeue] at hresult
    split at hresult
    · split at hresult
      case h_1 hnone => exact ⟨head, rfl, hnone⟩
      all_goals
        obtain rfl := Option.some.inj hresult
        cases hdone
    · cases hresult
  | takeLast head | take head =>
    rw [hp] at hresult
    obtain ⟨e, he⟩ := hmoved hresult
    cases he.symm.trans hdone
  | done item =>
    rw [hp] at hresult
    obtain rfl := Option.some.inj hresult
    exact absurd (hp.trans hdone) hold
  | casFree head taken free =>
    rw [hp] at hresult
    simp only [tryDequeue] at hresult
    split at hresult <;> obtain rfl := Option.some.inj hresult
    · cases taken <;> cases hdone
    · cases hdone

/-! ## The destructor -/

theorem NodesFrom.of_linked {producers : T → Producer E} {a : Idx} {rest : List Idx}
    (h : Linked next producers a rest) (hidle : ∀ t b c, producers t ≠ .link b c) :
    NodesFrom next (next a.slot) rest := by
  induction rest generalizing a with
  | nil => exact h
  | cons b rest ih =>
    refine ⟨h.1.resolve_right ?_, ih h.2⟩
    rintro ⟨-, t, ht⟩
    exact hidle t a b ht

theorem destroyFull_eq {turns : ℕ} {i : Option Idx} {l : List Idx} {items : List E}
    (h : NodesFrom s.next i l) (hmade : ∀ j ∈ l, s.Made j)
    (hitems : l.map (fun j => s.item j.slot) = items.map some) (hturns : l.length < turns) :
    s.destroyFull turns i = some (l.map Idx.slot, items) := by
  induction l generalizing i items turns with
  | nil =>
    obtain ⟨turns, rfl⟩ := Nat.exists_eq_succ_of_ne_zero (Nat.ne_of_gt hturns)
    obtain rfl : i = none := h
    obtain rfl : items = [] := List.map_eq_nil_iff.mp hitems.symm
    rfl
  | cons j l ih =>
    obtain ⟨turns, rfl⟩ := Nat.exists_eq_succ_of_ne_zero (Nat.ne_of_gt (Nat.zero_lt_of_lt hturns))
    obtain ⟨rfl, hfrom⟩ := h
    cases items with
    | nil => cases hitems
    | cons e items =>
      obtain ⟨hitem, hitems⟩ := List.cons_eq_cons.mp hitems
      rw [List.length_cons] at hturns
      have hrest := ih hfrom (fun k hk => hmade k (List.mem_cons_of_mem j hk)) hitems
        (Nat.lt_of_succ_lt_succ hturns)
      simp [System.destroyFull, hmade j List.mem_cons_self, hitem, hrest]

theorem destroyFree_eq {turns : ℕ} {i : Option Idx} {l : List Idx} (h : NodesFrom s.next i l)
    (hmade : ∀ j ∈ l, s.Made j) (hturns : l.length < turns) :
    s.destroyFree turns i = some (l.map Idx.slot) := by
  induction l generalizing i turns with
  | nil =>
    obtain ⟨turns, rfl⟩ := Nat.exists_eq_succ_of_ne_zero (Nat.ne_of_gt hturns)
    obtain rfl : i = none := h
    rfl
  | cons j l ih =>
    obtain ⟨turns, rfl⟩ := Nat.exists_eq_succ_of_ne_zero (Nat.ne_of_gt (Nat.zero_lt_of_lt hturns))
    obtain ⟨rfl, hfrom⟩ := h
    rw [List.length_cons] at hturns
    have hrest := ih hfrom (fun k hk => hmade k (List.mem_cons_of_mem j hk))
      (Nat.lt_of_succ_lt_succ hturns)
    simp [System.destroyFree, hmade j List.mem_cons_self, hrest]

/-- When no call is under way, every node is in the queue or in the free list. -/
theorem Inv.nodes_perm (h : Inv s g) (hproducers : ∀ t, s.producers t = .idle)
    (hown : s.consumer.own = none) :
    ((s.head :: g.rest).map Idx.slot ++ g.free.map Idx.slot).Perm
      (List.range' 1 (s.nextNodeIdx - 1)) := by
  have hnodup : ((s.head :: g.rest).map Idx.slot ++ g.free.map Idx.slot).Nodup := by
    refine List.nodup_append.mpr ⟨h.chainNodup, h.freeNodup, ?_⟩
    rintro q hq r hr rfl
    cases ((h.chain q).mpr hq).symm.trans ((h.free q).mpr hr)
  refine (List.perm_ext_iff_of_nodup hnodup List.nodup_range').mpr fun q => ?_
  rw [List.mem_append, ← h.chain, ← h.free, List.mem_range'_1]
  have hmade := h.made q
  have hproducer : ∀ t, g.place q ≠ .producer t := by
    intro t hq
    have hown := (h.producersOwn t q).mp hq
    rw [hproducers t] at hown
    cases hown
  have hconsumer : g.place q ≠ .consumer := by
    intro hq
    cases hown.symm.trans ((h.consumerOwn q).mp hq)
  cases hq : g.place q with
  | unmade =>
    rw [hq] at hmade
    simp only [ne_eq, not_true_eq_false, false_iff] at hmade
    simp only [reduceCtorEq, or_self, false_iff]
    omega
  | chain | free =>
    rw [hq] at hmade
    simp only [ne_eq, reduceCtorEq, not_false_eq_true, true_iff] at hmade
    simp only [reduceCtorEq, or_false, false_or, true_iff]
    omega
  | producer t => exact absurd hq (hproducer t)
  | consumer => exact absurd hq hconsumer

/-! ## Every run -/

theorem initial_inv (next : ℕ → Option Idx) : ∃ g, Inv (initial next : System T E) g := by
  let g : Ghost T :=
    { place := Function.update (fun _ => .unmade) 1 .chain
      version := fun _ => 0
      rest := []
      free := [] }
  have hplace : ∀ q, g.place q = .chain ↔ q = 1 := by
    intro q
    by_cases hq : q = 1 <;> simp [g, hq]
  have hothers : ∀ q x, x ≠ .unmade → x ≠ .chain → g.place q ≠ x := by
    intro q x hx hx' hq
    by_cases hone : q = 1
    · exact hx' (hq.symm.trans ((hplace q).mpr hone))
    · refine hx (hq.symm.trans ?_)
      show Function.update (fun _ => Place.unmade) 1 .chain q = .unmade
      rw [Function.update_of_ne hone]
  refine ⟨g, {
    made := fun q => ?_
    chain := fun q => ?_
    chainNodup := List.nodup_singleton _
    chainVersion := fun i hi => ?_
    tail := rfl
    linked := by
      show Function.update next 1 none 1 = none
      rw [Function.update_self]
    free := fun q => iff_of_false (hothers q _ (by simp) (by simp)) List.not_mem_nil
    freeNodup := List.nodup_nil
    freeVersion := fun i hi => absurd hi List.not_mem_nil
    freeFrom := rfl
    freeItem := fun _ _ => rfl
    items := rfl
    taken := List.nil_prefix
    producers := fun _ => trivial
    producersOwn := fun t q =>
      iff_of_false (hothers q _ (by simp) (by simp)) (by simp [initial, Producer.own])
    consumer := fun _ => rfl
    consumerOwn := fun q =>
      iff_of_false (hothers q _ (by simp) (by simp)) (by simp [initial, Consumer.own])
    once := by simp [initial] }⟩
  · by_cases hq : q = 1
    · simp [g, hq, initial]
    · simp only [g, Function.update_of_ne hq, initial, ne_eq, not_true_eq_false, false_iff]
      omega
  · rw [hplace]
    simp [g, initial]
  · rw [List.mem_singleton.mp hi]
    rfl

variable [DecidableEq T]

/-- Every enabled step has a result, and the nodes stay accounted for. -/
theorem Inv.perform (h : Inv s g) (a : Action T E) (enabled : a.Enabled s) :
    ∃ s' g', SimpleQueue.perform s a = some s' ∧ Inv s' g' := by
  cases a with
  | callEnqueue t item => exact ⟨_, g, rfl, h.callEnqueue enabled item⟩
  | producer t lucky => exact h.enqueue lucky enabled
  | callTryDequeue =>
    obtain ⟨item, hdone⟩ := enabled
    exact ⟨_, g, rfl, h.callTryDequeue hdone⟩
  | consumer lucky => exact h.tryDequeue lucky enabled

theorem Reached.inv (h : Reached s) : ∃ g, Inv s g := by
  induction h with
  | start next => exact initial_inv next
  | step a _ enabled result ih =>
    obtain ⟨g, hinv⟩ := ih
    obtain ⟨s', g', hresult, hinv'⟩ := hinv.perform a enabled
    obtain rfl := Option.some.inj (result.symm.trans hresult)
    exact ⟨g', hinv'⟩

/-- An element that is put into the new queue and taken out again. -/
theorem one_element : ∃ s : System Unit ℕ, Reached s ∧ s.enqueued = [7] ∧ s.dequeued = [7] ∧
    (∀ t, s.producers t = .idle) ∧ s.consumer = .done (some 7) := by
  have hcall := Reached.step (.callEnqueue () 7)
    (.start (fun _ => none) : Reached (initial fun _ => none : System Unit ℕ)) rfl rfl
  have hfree := Reached.step (.producer () true) hcall trivial rfl
  have hnone := Reached.step (.producer () true) hfree trivial rfl
  have hnew := Reached.step (.producer () true) hnone (by decide : 2 < 2 ^ 39) rfl
  have htail := Reached.step (.producer () true) hnew trivial rfl
  have hcas := Reached.step (.producer () true) htail trivial rfl
  have hlink := Reached.step (.producer () true) hcas trivial rfl
  have htry := Reached.step .callTryDequeue hlink ⟨none, rfl⟩ rfl
  have hhead := Reached.step (.consumer true) htry (fun _ h => by cases h) rfl
  have hnext := Reached.step (.consumer true) hhead (fun _ h => by cases h) rfl
  have hmoved := Reached.step (.consumer true) hnext (fun _ h => by cases h) rfl
  have hread := Reached.step (.consumer true) hmoved (fun _ h => by cases h) rfl
  have hset := Reached.step (.consumer true) hread (fun _ h => by cases h) rfl
  have hgiven := Reached.step (.consumer true) hset (fun _ h => by cases h) rfl
  have hagain := Reached.step (.consumer true) hgiven (fun _ h => by cases h) rfl
  have hlast := Reached.step (.consumer true) hagain (fun _ h => by cases h) rfl
  have hflag := Reached.step (.consumer true) hlast (fun _ h => by cases h) rfl
  have hdone := Reached.step (.consumer true) hflag (fun _ h => by cases h) rfl
  exact ⟨_, hdone, rfl, rfl, fun _ => rfl, rfl⟩

/-- In every run the elements come out in the order in which their nodes were put behind the tail, none
of them twice, and no step accesses a node or an element that is not there. -/
theorem simpleQueue_in_order (h : Reached s) :
    s.dequeued <+: s.enqueued ∧ ∀ a : Action T E, a.Enabled s → (perform s a).isSome := by
  obtain ⟨g, hinv⟩ := h.inv
  refine ⟨hinv.taken, fun a enabled => ?_⟩
  obtain ⟨s', g', hresult, -⟩ := hinv.perform a enabled
  rw [hresult]
  rfl

theorem simpleQueue_in_order_seven : ∃ s : System Unit ℕ, Reached s ∧ s.enqueued = [7] ∧
    s.dequeued <+: s.enqueued ∧ (perform s (.callEnqueue () 8)).isSome := by
  obtain ⟨s, hreached, henqueued, -, hidle, -⟩ := one_element
  have hinOrder := simpleQueue_in_order hreached
  exact ⟨s, hreached, henqueued, hinOrder.1, hinOrder.2 (.callEnqueue () 8) (hidle ())⟩

/-- `try_dequeue` finds the queue empty only when all the elements are moved out, or the node behind the
head is not linked yet. -/
theorem simpleQueue_empty (h : Reached s) (lucky : Bool)
    (enabled : (Action.consumer lucky).Enabled s)
    (result : perform s (.consumer lucky) = some s') (empty : s'.consumer = .done none) :
    s.dequeued = s.enqueued ∨ ∃ t i, s.producers t = .link s.head i := by
  obtain ⟨g, hinv⟩ := h.inv
  obtain ⟨head, hnext, hnone⟩ := tryDequeue_refuses result empty (enabled none)
  have hat := hinv.consumer
  rw [hnext] at hat
  obtain ⟨rfl, hflag, -⟩ := hat
  refine (hinv.linked.empty_or_link hnone).imp_left fun hrest => ?_
  have hitems := hinv.items
  rw [System.full, hnext, ← hflag, hrest] at hitems
  have hdrop : s.enqueued.drop s.dequeued.length = [] := List.map_eq_nil_iff.mp hitems.symm
  exact hinv.taken.eq_of_length_le (List.drop_eq_nil_iff.mp hdrop)

theorem simpleQueue_empty_new : ∃ s s' : System Unit ℕ, perform s (.consumer true) = some s' ∧
    s'.consumer = .done none ∧ (s.dequeued = s.enqueued ∨ ∃ t i, s.producers t = .link s.head i) := by
  have htry := Reached.step .callTryDequeue
    (.start (fun _ => none) : Reached (initial fun _ => none : System Unit ℕ)) ⟨none, rfl⟩ rfl
  have hhead := Reached.step (.consumer true) htry (fun _ h => by cases h) rfl
  exact ⟨_, _, rfl, rfl, simpleQueue_empty hhead true (fun _ h => by cases h) rfl rfl⟩

/-- When no call is under way, the destructor comes to an end: it destroys every node that was made
once, and the elements that were not moved out. -/
theorem simpleQueue_destroyed (h : Reached s) (hproducers : ∀ t, s.producers t = .idle)
    {item : Option E} (hconsumer : s.consumer = .done item) :
    ∃ nodes, s.destructor s.nextNodeIdx = some (nodes, s.enqueued.drop s.dequeued.length) ∧
      nodes.Perm (List.range' 1 (s.nextNodeIdx - 1)) := by
  obtain ⟨g, hinv⟩ := h.inv
  have hperm := hinv.nodes_perm hproducers (by rw [hconsumer]; rfl)
  have hlength := hperm.length_eq
  simp only [List.length_append, List.length_map, List.length_cons, List.length_range'] at hlength
  have hmade : ∀ j ∈ s.head :: g.rest, s.Made j := fun j hj =>
    hinv.made_of_place (hinv.chain_of_mem hj) (by simp)
  have hrest := NodesFrom.of_linked hinv.linked fun t b c => by simp [hproducers t]
  have hitems := hinv.items
  rw [System.full, hconsumer] at hitems
  have hfree : s.destroyFree s.nextNodeIdx s.freeListHead = _ := destroyFree_eq hinv.freeFrom
    (fun j hj => hinv.made_of_place (hinv.free_of_mem hj) (by simp)) (by omega)
  refine ⟨_, ?_, hperm⟩
  cases hflag : s.consumed with
  | true =>
    rw [hflag] at hitems
    have hfull : s.destroyFull s.nextNodeIdx (s.next s.head.slot) = _ := destroyFull_eq hrest
      (fun j hj => hmade j (List.mem_cons_of_mem _ hj)) hitems (by omega)
    simp [System.destructor, System.destroyQueue, hflag, hmade s.head List.mem_cons_self, hfull, hfree]
  | false =>
    rw [hflag] at hitems
    have hfull : s.destroyFull s.nextNodeIdx (some s.head) = _ := destroyFull_eq
      (l := s.head :: g.rest) ⟨rfl, hrest⟩ hmade hitems (by rw [List.length_cons]; omega)
    simp [System.destructor, System.destroyQueue, hflag, hfull, hfree]

theorem simpleQueue_destroyed_two : ∃ s : System Unit ℕ, Reached s ∧ s.dequeued = [7] ∧
    ∃ nodes, s.destructor s.nextNodeIdx = some (nodes, s.enqueued.drop s.dequeued.length) ∧
      nodes.Perm (List.range' 1 (s.nextNodeIdx - 1)) := by
  obtain ⟨s, hreached, -, hdequeued, hidle, hdone⟩ := one_element
  exact ⟨s, hreached, hdequeued, simpleQueue_destroyed hreached hidle hdone⟩

end CServer.Queues.SimpleQueue
