import CServer.Foundation.Fallible
import CServer.Foundation.Linked
import CServer.Foundation.Replies
import Mathlib.Logic.Function.Basic
import Mathlib.Order.Basic

/-!
# The linked queue behind a mutex

`Queue::push`, `Queue::pop` and `Queue::empty` of cas_queue3.cpp, called one at a time. A pointer says
which node it was made for; reading or writing a deleted node is a fault. The first node is never
deleted, so a pointer equals `_head` if and only if it was made for that node.
-/
namespace CServer.Queues.MutexQueue

open CServer.Linked CServer.Runs

inductive Fault where
  | deleted
  | uninitialised
  deriving DecidableEq

/-- `qnode`. The data of the first node is never written. -/
structure Node (E : Type) where
  next : Option ℕ
  data : Option E

abbrev Heap (E : Type) := ℕ → Option (Node E)

/-- `Queue`, with the nodes that there are and the number of those that were ever made. -/
structure Queue (E : Type) where
  heap : Heap E
  made : ℕ
  head : ℕ
  tail : ℕ

variable {E : Type}

/-- `Queue::Queue`. -/
def Queue.new : Queue E where
  heap := Function.update (fun _ => none) 0 (some { next := none, data := none })
  made := 1
  head := 0
  tail := 0

def deref (heap : Heap E) (p : ℕ) : Except Fault (Node E) :=
  match heap p with
  | some node => .ok node
  | none => .error .deleted

/-- `Queue::push`. -/
def Queue.push (q : Queue E) (e : E) : Except Fault (Queue E) := do
  let p := q.made
  let heap := Function.update q.heap p (some { next := none, data := some e })
  let t ← deref heap q.tail
  return { q with
    heap := Function.update heap q.tail (some { t with next := some p })
    made := q.made + 1
    tail := p }

/-- `Queue::pop`; the element, or none for the result false. -/
def Queue.pop (q : Queue E) : Except Fault (Queue E × Option E) := do
  let p ← deref q.heap q.head
  match p.next with
  | none => return (q, none)
  | some np => do
    let node ← deref q.heap np
    match node.data with
    | none => .error .uninitialised
    | some e =>
      let heap := Function.update q.heap q.head (some { p with next := node.next })
      return ({ q with heap := Function.update heap np none }, some e)

/-- `Queue::empty`. -/
def Queue.empty (q : Queue E) : Bool := q.tail = q.head

/-! ## Runs -/

inductive Call (E : Type) where
  | push (e : E)
  | pop
  | empty

inductive Reply (E : Type) where
  | pushed
  | popped (e : Option E)
  | empty (b : Bool)

def Queue.call (q : Queue E) : Call E → Except Fault (Queue E × Reply E)
  | .push e => do
    let q ← q.push e
    return (q, .pushed)
  | .pop => do
    let popped ← q.pop
    return (popped.1, .popped popped.2)
  | .empty => return (q, .empty q.empty)

/-! ## The queue that is meant -/

/-- The elements in their order, and whether a pop has ever taken the last one. -/
structure Fifo (E : Type) where
  contents : List E
  emptied : Bool

def Fifo.new : Fifo E where
  contents := []
  emptied := false

def Fifo.step (s : Fifo E) : Call E → Fifo E
  | .push e => { s with contents := s.contents ++ [e] }
  | .pop => { contents := s.contents.tail, emptied := s.emptied || s.contents.length = 1 }
  | .empty => s

def Fifo.reply (s : Fifo E) : Call E → Reply E
  | .push _ => .pushed
  | .pop => .popped s.contents.head?
  | .empty => .empty s.contents.isEmpty

/-! ## What the nodes hold -/

def nextOf (heap : Heap E) (p : ℕ) : Option ℕ := (heap p).bind Node.next

def dataOf (heap : Heap E) (p : ℕ) : Option E := (heap p).bind Node.data

variable {q : Queue E} {s : Fifo E} {heap : Heap E} {node : Node E} {ids : List ℕ} {l : List E}
  {e : E} {p : ℕ}

theorem deref_of_some (h : heap p = some node) : deref heap p = .ok node := by
  unfold deref
  rw [h]

theorem deref_of_none (h : heap p = none) : deref heap p = .error .deleted := by
  unfold deref
  rw [h]

/-- The nodes behind the first one are those of the list, and hold the elements. -/
structure Represents (q : Queue E) (ids : List ℕ) (l : List E) : Prop where
  chain : Chain (nextOf q.heap) q.head ids
  live : (q.heap q.head).isSome
  data : ids.map (dataOf q.heap) = l.map some
  nodup : (q.head :: ids).Nodup
  made : ∀ p ∈ q.head :: ids, p < q.made

/-- A node that is linked is there. -/
theorem Represents.isSome (h : Represents q ids l) (hp : p ∈ q.head :: ids) : (q.heap p).isSome := by
  obtain rfl | hp := List.mem_cons.1 hp
  · exact h.live
  · have hmem : dataOf q.heap p ∈ l.map some := by
      rw [← h.data]
      exact List.mem_map_of_mem hp
    obtain ⟨e, _, he⟩ := List.mem_map.1 hmem
    cases hnode : q.heap p with
    | none => simp [dataOf, hnode] at he
    | some node => rfl

/-- The nodes after a call of `push`: a new one, and the link to it. -/
def linked (q : Queue E) (e : E) (t : Node E) : Heap E :=
  Function.update (Function.update q.heap q.made (some { next := none, data := some e })) q.tail
    (some { t with next := some q.made })

theorem linked_tail (t : Node E) : linked q e t q.tail = some { t with next := some q.made } :=
  Function.update_self ..

theorem linked_made (t : Node E) (hne : q.made ≠ q.tail) :
    linked q e t q.made = some { next := none, data := some e } :=
  (Function.update_of_ne hne ..).trans (Function.update_self ..)

theorem linked_of_ne (t : Node E) (htail : p ≠ q.tail) (hmade : p ≠ q.made) :
    linked q e t p = q.heap p :=
  (Function.update_of_ne htail ..).trans (Function.update_of_ne hmade ..)

theorem push_eq {t : Node E} (ht : q.heap q.tail = some t) (hne : q.tail ≠ q.made) :
    q.push e = .ok { q with heap := linked q e t, made := q.made + 1, tail := q.made } := by
  have hread : Function.update q.heap q.made (some { next := none, data := some e }) q.tail =
      some t := (Function.update_of_ne hne ..).trans ht
  show (deref _ q.tail >>= _) = _
  rw [deref_of_some hread, ok_bind]
  rfl

/-- A call of `push` puts a node behind the last one, to which `_tail` points. -/
theorem Represents.push (h : Represents q ids l) (htail : q.tail = ids.getLastD q.head) (e : E) :
    ∃ q', q.push e = .ok q' ∧ Represents q' (ids ++ [q.made]) (l ++ [e]) ∧ q'.tail = q.made ∧
      q'.head = q.head := by
  have hmem : q.tail ∈ q.head :: ids := by
    rw [htail]
    exact List.getLastD_mem_cons
  have hne : q.tail ≠ q.made := Nat.ne_of_lt (h.made _ hmem)
  have hfresh : q.made ∉ q.head :: ids := fun hp => Nat.lt_irrefl _ (h.made _ hp)
  obtain ⟨t, ht⟩ := Option.isSome_iff_exists.1 (h.isSome hmem)
  have hend : nextOf q.heap q.tail = none := by
    have hchain := h.chain
    rw [← List.append_nil ids, chain_append_iff, ← htail] at hchain
    exact hchain.2
  -- The data of the old nodes stays, that of the last one included.
  have hdata : ∀ p ∈ q.head :: ids, dataOf (linked q e t) p = dataOf q.heap p := by
    intro p hp
    have hpm : p ≠ q.made := fun heq => hfresh (heq ▸ hp)
    unfold dataOf
    by_cases hpt : p = q.tail
    · rw [hpt, linked_tail, ht]
      rfl
    · rw [linked_of_ne t hpt hpm]
  refine ⟨_, push_eq ht hne, ⟨?_, ?_, ?_, ?_, ?_⟩, rfl, rfl⟩
  · have hchain := h.chain
    have hnodup := h.nodup
    rw [← List.append_nil ids] at hchain hnodup hfresh
    refine hchain.insert hnodup hfresh ?_ ?_ fun p hpt hpm => ?_
    · rw [← htail]
      exact congrArg (Option.bind · Node.next) (linked_tail t)
    · rw [← htail, hend]
      exact congrArg (Option.bind · Node.next) (linked_made t hne.symm)
    · rw [← htail] at hpt
      exact congrArg (Option.bind · Node.next) (linked_of_ne t hpt hpm)
  · show (linked q e t q.head).isSome
    by_cases hhead : q.head = q.tail
    · rw [hhead, linked_tail]
      rfl
    · rw [linked_of_ne t hhead (Nat.ne_of_lt (h.made _ List.mem_cons_self))]
      exact h.live
  · have hnew : dataOf (linked q e t) q.made = some e :=
      congrArg (Option.bind · Node.data) (linked_made t hne.symm)
    have hold : ids.map (dataOf (linked q e t)) = ids.map (dataOf q.heap) :=
      List.map_congr_left fun p hp => hdata p (List.mem_cons_of_mem _ hp)
    show (ids ++ [q.made]).map (dataOf (linked q e t)) = (l ++ [e]).map some
    rw [List.map_append, List.map_append, hold, h.data, List.map_singleton, hnew, List.map_singleton]
  · show (q.head :: (ids ++ [q.made])).Nodup
    rw [← List.cons_append, List.nodup_append]
    refine ⟨h.nodup, List.nodup_singleton _, fun p hp p' hp' heq => ?_⟩
    rw [heq, List.mem_singleton.1 hp'] at hp
    exact hfresh hp
  · intro p hp
    rw [← List.cons_append, List.mem_append] at hp
    obtain hp | hp := hp
    · exact Nat.lt_succ_of_lt (h.made p hp)
    · exact List.mem_singleton.1 hp ▸ Nat.lt_succ_self q.made

/-- The nodes after a call of `pop`. -/
def unlinked (q : Queue E) (p node : Node E) (np : ℕ) : Heap E :=
  Function.update (Function.update q.heap q.head (some { p with next := node.next })) np none

theorem pop_nil (h : Represents q [] l) : q.pop = .ok (q, none) := by
  obtain ⟨node, hnode⟩ := Option.isSome_iff_exists.1 h.live
  have hnext : node.next = none := by
    have hchain : (q.heap q.head).bind Node.next = none := h.chain
    rw [hnode] at hchain
    exact hchain
  unfold Queue.pop
  rw [deref_of_some hnode, ok_bind, hnext]
  rfl

/-- A call of `pop` takes out the first element; `_tail` stays where it is. -/
theorem Represents.pop (h : Represents q (p :: ids) (e :: l)) :
    ∃ q', q.pop = .ok (q', some e) ∧ Represents q' ids l ∧ q'.tail = q.tail ∧ q'.head = q.head ∧
      q'.made = q.made ∧ q'.heap p = none := by
  obtain ⟨first, hfirst⟩ := Option.isSome_iff_exists.1 h.live
  have hmem : p ∈ q.head :: p :: ids := List.mem_cons_of_mem _ List.mem_cons_self
  obtain ⟨node, hnode⟩ := Option.isSome_iff_exists.1 (h.isSome hmem)
  have hnext : first.next = some p := by
    have hchain : (q.heap q.head).bind Node.next = some p := h.chain.1
    rw [hfirst] at hchain
    exact hchain
  have hdata := h.data
  rw [List.map_cons, List.map_cons, List.cons.injEq] at hdata
  have helement : node.data = some e := by
    have hvalue : (q.heap p).bind Node.data = some e := hdata.1
    rw [hnode] at hvalue
    exact hvalue
  have hnodup := h.nodup
  rw [List.nodup_cons, List.nodup_cons] at hnodup
  have hne : q.head ≠ p := fun heq => hnodup.1 (heq ▸ List.mem_cons_self)
  have hhead : unlinked q first node p q.head = some { first with next := node.next } :=
    (Function.update_of_ne hne ..).trans (Function.update_self ..)
  have hother : ∀ p', p' ≠ q.head → p' ≠ p → unlinked q first node p p' = q.heap p' :=
    fun p' hph hpp => (Function.update_of_ne hpp ..).trans (Function.update_of_ne hph ..)
  have hpop : q.pop = .ok ({ q with heap := unlinked q first node p }, some e) := by
    unfold Queue.pop
    rw [deref_of_some hfirst, ok_bind, hnext]
    show (deref q.heap p >>= _) = _
    rw [deref_of_some hnode, ok_bind, helement]
    rfl
  refine ⟨_, hpop, ⟨?_, ?_, ?_, ?_, ?_⟩, rfl, rfl, rfl, Function.update_self ..⟩
  · refine Chain.unlink (p := []) h.chain h.nodup ?_ fun p' hph hpp => ?_
    · show (unlinked q first node p q.head).bind Node.next = (q.heap p).bind Node.next
      rw [hhead, hnode]
      rfl
    · exact congrArg (Option.bind · Node.next) (hother p' hph hpp)
  · show (unlinked q first node p q.head).isSome
    rw [hhead]
    rfl
  · have hold : ids.map (dataOf (unlinked q first node p)) = ids.map (dataOf q.heap) := by
      refine List.map_congr_left fun p' hp' => congrArg (Option.bind · Node.data) (hother p' ?_ ?_)
      · rintro rfl
        exact hnodup.1 (List.mem_cons_of_mem _ hp')
      · rintro rfl
        exact hnodup.2.1 hp'
    exact hold.trans hdata.2
  · exact List.nodup_cons.2 ⟨fun hp' => hnodup.1 (List.mem_cons_of_mem _ hp'), hnodup.2.2⟩
  · intro p' hp'
    refine h.made p' ?_
    obtain rfl | hp' := List.mem_cons.1 hp'
    · exact List.mem_cons_self
    · exact List.mem_cons_of_mem _ (List.mem_cons_of_mem _ hp')

/-! ## Every run -/

/-- `_tail` points to the last node. -/
def Whole (q : Queue E) (l : List E) : Prop :=
  ∃ ids, Represents q ids l ∧ q.tail = ids.getLastD q.head

/-- All elements have been taken out, and `_tail` points to the node of the last one. -/
structure Drained (q : Queue E) : Prop where
  represents : Represents q [] []
  deleted : q.heap q.tail = none
  made : q.tail ≠ q.made

theorem Represents.length_eq (h : Represents q ids l) : ids.length = l.length := by
  have hlengths := congrArg List.length h.data
  rw [List.length_map, List.length_map] at hlengths
  exact hlengths

theorem Whole.pop_none (h : Whole q ([] : List E)) : q.pop = .ok (q, none) := by
  obtain ⟨ids, hq, _⟩ := h
  obtain rfl := List.length_eq_zero_iff.1 hq.length_eq
  exact pop_nil hq

/-- The pop of the last element leaves `_tail` behind. -/
theorem Whole.pop_last (h : Whole q [e]) : ∃ q', q.pop = .ok (q', some e) ∧ Drained q' := by
  obtain ⟨ids, hq, htail⟩ := h
  obtain ⟨p, rfl⟩ := List.length_eq_one_iff.1 hq.length_eq
  obtain ⟨q', hpop, hq', htail', _, hmade', hdeleted⟩ := hq.pop
  have hlast : q'.tail = p := htail'.trans htail
  have hlt : p < q.made := hq.made p (List.mem_cons_of_mem _ List.mem_cons_self)
  refine ⟨q', hpop, hq', ?_, ?_⟩
  · rw [hlast, hdeleted]
  · rw [hlast, hmade']
    exact Nat.ne_of_lt hlt

theorem Whole.pop_some {e' : E} (h : Whole q (e :: e' :: l)) :
    ∃ q', q.pop = .ok (q', some e) ∧ Whole q' (e' :: l) := by
  obtain ⟨ids, hq, htail⟩ := h
  match ids, hq.length_eq with
  | p :: p' :: ids, _ =>
    obtain ⟨q', hpop, hq', htail', hhead', _⟩ := hq.pop
    refine ⟨q', hpop, _, hq', ?_⟩
    rw [htail', htail, List.getLastD_cons, List.getLastD_cons, List.getLastD_cons]

/-- `_tail` points to the first node if and only if there is no other. -/
theorem Whole.empty_eq (h : Whole q l) : q.empty = l.isEmpty := by
  obtain ⟨ids, hq, htail⟩ := h
  match ids, l, hq.length_eq with
  | [], [], _ => exact decide_eq_true htail
  | p :: ids, e :: l, _ =>
    refine decide_eq_false fun heq => ?_
    rw [htail, List.getLastD_cons] at heq
    have hmem : ids.getLastD p ∈ p :: ids := List.getLastD_mem_cons
    exact (List.nodup_cons.1 hq.nodup).1 (heq ▸ hmem)

/-- The queue after some calls, and the queue that is meant. -/
def Agrees (q : Queue E) (s : Fifo E) : Prop :=
  (s.emptied = false ∧ Whole q s.contents) ∨ (s.emptied = true ∧ s.contents = [] ∧ Drained q)

theorem agrees_new : Agrees (Queue.new : Queue E) Fifo.new := by
  refine Or.inl ⟨rfl, [], ⟨?_, rfl, rfl, List.nodup_singleton 0, ?_⟩, rfl⟩
  · rfl
  · intro p hp
    rw [List.mem_singleton.1 hp]
    exact Nat.one_pos

/-- Any call may be made before the queue has been emptied, and `pop` after that. -/
def Allowed (s : Fifo E) (c : Call E) : Prop := s.emptied = false ∨ c = .pop

/-- A call of `pop` has the reply that is meant in any case. -/
theorem Agrees.pop (h : Agrees q s) :
    ∃ q', q.call .pop = .ok (q', s.reply .pop) ∧ Agrees q' (s.step .pop) := by
  suffices h' : ∃ q', q.pop = .ok (q', s.contents.head?) ∧ Agrees q' (s.step .pop) by
    obtain ⟨q', hpop, hq'⟩ := h'
    refine ⟨q', ?_, hq'⟩
    show (q.pop >>= _) = _
    rw [hpop]
    rfl
  obtain ⟨contents, emptied⟩ := s
  obtain ⟨rfl, hq⟩ | ⟨rfl, rfl, hdrained⟩ := h
  · match contents with
    | [] => exact ⟨q, hq.pop_none, Or.inl ⟨rfl, hq⟩⟩
    | [e] =>
      obtain ⟨q', hpop, hdrained⟩ := hq.pop_last
      exact ⟨q', hpop, Or.inr ⟨rfl, rfl, hdrained⟩⟩
    | e :: e' :: l =>
      obtain ⟨q', hpop, hq'⟩ := hq.pop_some
      refine ⟨q', hpop, Or.inl ⟨?_, hq'⟩⟩
      simp [Fifo.step]
  · exact ⟨q, pop_nil hdrained.represents, Or.inr ⟨rfl, rfl, hdrained⟩⟩

theorem Agrees.whole (h : Agrees q s) (hemptied : s.emptied = false) : Whole q s.contents := by
  obtain ⟨_, hq⟩ | ⟨htrue, _⟩ := h
  · exact hq
  · exact absurd (hemptied.symm.trans htrue) Bool.false_ne_true

/-- An allowed call has the reply that is meant. -/
theorem Agrees.call {c : Call E} (h : Agrees q s) (hc : Allowed s c) :
    ∃ q', q.call c = .ok (q', s.reply c) ∧ Agrees q' (s.step c) := by
  cases c with
  | pop => exact h.pop
  | push e =>
    have hemptied := hc.resolve_right nofun
    obtain ⟨ids, hrep, htail⟩ := h.whole hemptied
    obtain ⟨q', hpush, hq', htail', hhead'⟩ := hrep.push htail e
    refine ⟨q', ?_, Or.inl ⟨hemptied, _, hq', ?_⟩⟩
    · show (q.push e >>= _) = _
      rw [hpush]
      rfl
    · rw [htail', List.getLastD_concat]
  | empty =>
    have hemptied := hc.resolve_right nofun
    have hq := h.whole hemptied
    refine ⟨q, ?_, Or.inl ⟨hemptied, hq⟩⟩
    show Except.ok (q, Reply.empty q.empty) = _
    rw [hq.empty_eq]
    rfl

/-- A call that is not allowed touches the deleted node, or takes the empty queue for another. -/
theorem Agrees.call_ne {c : Call E} (h : Agrees q s) (hc : ¬Allowed s c) (q' : Queue E) :
    q.call c ≠ .ok (q', s.reply c) := by
  obtain ⟨hemptied, _⟩ | ⟨_, hcontents, hdrained⟩ := h
  · exact absurd (Or.inl hemptied) hc
  cases c with
  | push e =>
    have hread : Function.update q.heap q.made (some { next := none, data := some e }) q.tail =
        none := (Function.update_of_ne hdrained.made ..).trans hdrained.deleted
    have hpush : q.push e = .error .deleted := by
      show (deref _ q.tail >>= _) = _
      rw [deref_of_none hread]
      rfl
    show (q.push e >>= _) ≠ _
    rw [hpush, error_bind]
    exact nofun
  | pop => exact absurd (Or.inr rfl) hc
  | empty =>
    have hne : q.tail ≠ q.head := by
      intro heq
      have hlive := hdrained.represents.live
      rw [← heq, hdrained.deleted] at hlive
      exact Bool.false_ne_true hlive
    intro heq
    have hreplies := congrArg Prod.snd (Except.ok.inj heq)
    have hbool : q.empty = s.contents.isEmpty := Reply.empty.inj hreplies
    rw [hcontents] at hbool
    exact hne (of_decide_eq_true hbool)

/-- A run of a new queue replies as a queue should, and touches no deleted node, if and only if
neither `push` nor `empty` is called after a `pop` has taken the last element. -/
theorem mutexQueue_refines_iff (calls : List (Call E)) :
    replies Queue.call (Queue.new : Queue E) calls = .ok (meant Fifo.step Fifo.reply Fifo.new calls) ↔
      Along Fifo.step Allowed Fifo.new calls :=
  replies_eq_iff (fun _ _ _ h hc => h.call hc) (fun _ _ _ h hc => h.call_ne hc) agrees_new calls

/-- An element goes in and out, and the queue is not empty. -/
theorem mutexQueue_drained : ¬∀ calls : List (Call ℕ),
    replies Queue.call (Queue.new : Queue ℕ) calls =
      .ok (meant Fifo.step Fifo.reply Fifo.new calls) := by
  intro h
  have hruns := (replies_eq_iff (fun _ _ _ h hc => h.call hc) (fun _ _ _ h hc => h.call_ne hc)
    agrees_new _).1 (h [.push 7, .pop, .empty])
  obtain h | h := hruns.2.2.1
  · exact absurd h (by decide)
  · exact nomatch h

end CServer.Queues.MutexQueue
