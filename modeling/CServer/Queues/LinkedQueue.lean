import CServer.Foundation.Linked
import Mathlib.Data.List.Infix
import Mathlib.Logic.Function.Basic
import Mathlib.Tactic.Tauto

/-!
# The linked lock free queue with one producer and one consumer

`Queue::push2` and `Queue::pop2` of cas_queue.cpp. Each load, store or CAS of a variable that both
threads can reach is a step of its own, and so are `new` and `delete`. A pointer says which node it
was made for; an access to a node that was deleted has no result. Each node has an address, which
`new` may give again after a node was deleted, and a CAS compares addresses.
-/
namespace CServer.Queues.LinkedQueue

open CServer.Linked

structure Node (E : Type) where
  next : Option ℕ
  data : E

abbrev Heap (E : Type) := ℕ → Option (Node E)

variable {E : Type}

/-- The node behind a pointer, which is read or written. -/
def deref (heap : Heap E) (p : Option ℕ) : Option (Node E) := p.bind heap

/-- Where `push2` is, named by what it does next. -/
inductive Push (E : Type) where
  | idle
  | new (e : E)
  | setNext (e : E) (p : ℕ)
  | setData (e : E) (p : ℕ)
  | loadTail (e : E) (p : ℕ)
  | loadOldTail (e : E) (p : ℕ) (t : Option ℕ)
  | test (e : E) (p : ℕ) (t old : Option ℕ) (count : ℕ)
  | follow (e : E) (p : ℕ) (t old : Option ℕ) (count : ℕ)
  | report (e : E) (p : ℕ) (t old : Option ℕ) (count : ℕ)
  | link (e : E) (p : ℕ) (t old : Option ℕ) (count : ℕ)
  | swing (p : ℕ) (old : Option ℕ)
  | done

/-- Where `pop2` is, named by what it does next. -/
inductive Pop (E : Type) where
  | idle
  | loadHead (count : ℕ)
  | loadNext (p : Option ℕ) (count : ℕ)
  | test (p : Option ℕ) (count : ℕ)
  | report (p : Option ℕ) (count : ℕ)
  | loadArgument (p : Option ℕ) (count : ℕ)
  | swing (p n : Option ℕ) (count : ℕ)
  | readNext (p : Option ℕ)
  | readData (p n : Option ℕ)
  | delete (p : Option ℕ) (data : E)
  | done (result : Option E)

/-- The queue, its two threads, and what they have done: the values given to `push2`, the values
of the nodes that were linked, and the values that `pop2` has returned. The addresses are those of
all nodes that were ever made. -/
structure System (E : Type) where
  heap : Heap E
  address : ℕ → Option ℕ
  head : Option ℕ
  tail : Option ℕ
  producer : Push E
  consumer : Pop E
  pushed : List E
  linked : List E
  returned : List E

/-- The comparison of a CAS. -/
def System.same (s : System E) (p q : Option ℕ) : Bool := p.bind s.address = q.bind s.address

/-- A step of the producer, other than the calls of `push2` and `new`. -/
def push2 (s : System E) : Push E → Option (System E)
  | .idle => some s
  | .new _ => some s
  | .setNext e p => do
    let node ← s.heap p
    return { s with
      heap := Function.update s.heap p (some { node with next := none })
      producer := .setData e p }
  | .setData e p => do
    let node ← s.heap p
    return { s with
      heap := Function.update s.heap p (some { node with data := e })
      producer := .loadTail e p }
  | .loadTail e p => some { s with producer := .loadOldTail e p s.tail }
  | .loadOldTail e p t => some { s with producer := .test e p t s.tail 0 }
  | .test e p t old count => do
    let node ← deref s.heap t
    if node.next.isSome then return { s with producer := .follow e p t old count }
    else if 1 ≤ count then return { s with producer := .report e p t old (count + 1) }
    else return { s with producer := .link e p t old (count + 1) }
  | .follow e p t old count => do
    let node ← deref s.heap t
    return { s with producer := .test e p node.next old count }
  | .report e p t old count => do
    let _ ← deref s.heap t
    return { s with producer := .link e p t old count }
  | .link e p t old count => do
    let node ← deref s.heap t
    match t, node.next with
    | some a, none => return { s with
        heap := Function.update s.heap a (some { node with next := some p })
        producer := .swing p old
        linked := s.linked ++ [e] }
    | _, _ => return { s with producer := .test e p t old count }
  | .swing p old =>
    if s.same s.tail old then some { s with tail := some p, producer := .done }
    else some { s with producer := .done }
  | .done => some { s with producer := .idle }

/-- A step of the consumer, other than the call of `pop2`. -/
def pop2 (s : System E) : Pop E → Option (System E)
  | .idle => some s
  | .loadHead count => some { s with consumer := .loadNext s.head count }
  | .loadNext p count => do
    let _ ← deref s.heap p
    return { s with consumer := .test p count }
  | .test p count => do
    let node ← deref s.heap p
    if node.next.isNone then return { s with consumer := .done none }
    else if 1 ≤ count then return { s with consumer := .report p (count + 1) }
    else return { s with consumer := .loadArgument p (count + 1) }
  | .report p count => do
    let _ ← deref s.heap p
    return { s with consumer := .loadArgument p count }
  | .loadArgument p count => do
    let node ← deref s.heap p
    return { s with consumer := .swing p node.next count }
  | .swing p n count =>
    if s.same s.head p then some { s with head := n, consumer := .readNext p }
    else some { s with consumer := .loadHead count }
  | .readNext p => do
    let node ← deref s.heap p
    return { s with consumer := .readData p node.next }
  | .readData p n => do
    let node ← deref s.heap n
    return { s with consumer := .delete p node.data }
  | .delete none data => some { s with consumer := .done (some data) }
  | .delete (some a) data => do
    let _ ← s.heap a
    return { s with heap := Function.update s.heap a none, consumer := .done (some data) }
  | .done none => some { s with consumer := .idle }
  | .done (some data) => some { s with consumer := .idle, returned := s.returned ++ [data] }

/-- A thread calls its function or makes a step in it; `new` makes a node at some address, whose
fields are not initialised. -/
inductive Action (E : Type) where
  | callPush (e : E)
  | callPop
  | new (p address : ℕ) (node : Node E)
  | producer
  | consumer

def Action.Enabled (s : System E) : Action E → Prop
  | .callPush _ => s.producer = .idle
  | .callPop => s.consumer = .idle
  | .new p address _ => (∃ e, s.producer = .new e) ∧ s.address p = none ∧
      ∀ q, s.heap q ≠ none → s.address q ≠ some address
  | .producer => s.producer ≠ .idle ∧ ∀ e, s.producer ≠ .new e
  | .consumer => s.consumer ≠ .idle

def perform (s : System E) : Action E → Option (System E)
  | .callPush e => some { s with producer := .new e, pushed := s.pushed ++ [e] }
  | .callPop => some { s with consumer := .loadHead 0 }
  | .new p address node => match s.producer with
    | .new e => some { s with
        heap := Function.update s.heap p (some node)
        address := Function.update s.address p (some address)
        producer := .setNext e p }
    | _ => some s
  | .producer => push2 s s.producer
  | .consumer => pop2 s s.consumer

/-- The queue of the constructor: one node, which carries no value. -/
def initial (a address : ℕ) (data : E) : System E where
  heap := Function.update (fun _ => none) a (some ⟨none, data⟩)
  address := Function.update (fun _ => none) a (some address)
  head := some a
  tail := some a
  producer := .idle
  consumer := .idle
  pushed := []
  linked := []
  returned := []

/-- The states of a run, the last one first. -/
inductive Run : List (System E) → Prop
  | start (a address : ℕ) (data : E) : Run [initial a address data]
  | step {s s' : System E} {older : List (System E)} (a : Action E) (before : Run (s :: older))
      (enabled : a.Enabled s) (result : perform s a = some s') : Run (s' :: s :: older)

/-! ## The nodes in the queue -/

def nextOf (heap : Heap E) (a : ℕ) : Option ℕ := (heap a).bind Node.next

def dataOf (heap : Heap E) (a : ℕ) : Option E := (heap a).map Node.data

/-- The nodes from the head on: the first one carries no value any more. -/
structure Stored (heap : Heap E) (h : ℕ) (l : List ℕ) (queued : List E) : Prop where
  chain : Chain (nextOf heap) h l
  nodup : (h :: l).Nodup
  head : heap h ≠ none
  values : l.map (dataOf heap) = queued.map some

variable {heap heap' : Heap E} {h : ℕ} {l : List ℕ} {queued hand : List E} {s : System E}

theorem Stored.allocated (hs : Stored heap h l queued) {a : ℕ} (ha : a ∈ h :: l) :
    heap a ≠ none := by
  obtain rfl | hl := List.mem_cons.mp ha
  · exact hs.head
  · intro hnone
    have hmem : dataOf heap a ∈ queued.map some := by
      rw [← hs.values]
      exact List.mem_map_of_mem hl
    obtain ⟨e, -, he⟩ := List.mem_map.mp hmem
    rw [dataOf, hnone] at he
    exact absurd he (by simp)

theorem Stored.congr (hs : Stored heap h l queued) (hsame : ∀ a ∈ h :: l, heap' a = heap a) :
    Stored heap' h l queued where
  chain := by
    apply hs.chain.congr
    intro c hc
    rw [nextOf, nextOf, hsame c hc]
  nodup := hs.nodup
  head := by
    rw [hsame h List.mem_cons_self]
    exact hs.head
  values := by
    rw [← hs.values]
    apply List.map_congr_left
    intro a ha
    rw [dataOf, dataOf, hsame a (List.mem_cons_of_mem h ha)]

theorem Stored.next_head (hs : Stored heap h l queued) : nextOf heap h = l.head? :=
  hs.chain.head_eq

theorem chain_last {next : ℕ → Option ℕ} {a : ℕ} (hc : Chain next a l) :
    next (l.getLastD a) = none := by
  induction l generalizing a with
  | nil => exact hc
  | cons b l ih =>
    rw [List.getLastD_cons]
    exact ih hc.2

/-- The node behind the first one becomes the first one. -/
theorem Stored.pop {n : ℕ} (hs : Stored heap h (n :: l) queued) :
    ∃ d rest, queued = d :: rest ∧ dataOf heap n = some d ∧ Stored heap n l rest := by
  have hvalues := hs.values
  cases queued with
  | nil => exact absurd hvalues (by simp)
  | cons d rest =>
    simp only [List.map_cons, List.cons.injEq] at hvalues
    refine ⟨d, rest, rfl, hvalues.1, hs.chain.2, (List.nodup_cons.mp hs.nodup).2, ?_, hvalues.2⟩
    exact hs.allocated (List.mem_cons_of_mem h List.mem_cons_self)

/-- A new node is linked behind the last one. -/
theorem Stored.link {p : ℕ} {e : E} {node : Node E} (hs : Stored heap h l queued)
    (hp : heap p = some ⟨none, e⟩) (hfresh : p ∉ h :: l)
    (hnode : heap (l.getLastD h) = some node) :
    Stored (Function.update heap (l.getLastD h) (some { node with next := some p })) h (l ++ [p])
      (queued ++ [e]) := by
  have hlast : l.getLastD h ∈ h :: l := List.getLastD_mem_cons
  have hne : p ≠ l.getLastD h := fun heq => hfresh (heq ▸ hlast)
  have hdata : ∀ a, dataOf (Function.update heap (l.getLastD h)
      (some { node with next := some p })) a = dataOf heap a := by
    intro a
    by_cases ha : a = l.getLastD h
    · rw [ha, dataOf, dataOf, Function.update_self, hnode]
      rfl
    · rw [dataOf, dataOf, Function.update_of_ne ha]
  refine ⟨?_, ?_, ?_, ?_⟩
  · have hchain : Chain (nextOf heap) h (l ++ []) := by
      rw [List.append_nil]
      exact hs.chain
    have hnodup : (h :: (l ++ [])).Nodup := by
      rw [List.append_nil]
      exact hs.nodup
    apply hchain.insert hnodup (by rwa [List.append_nil])
    · rw [nextOf, Function.update_self]
      rfl
    · rw [chain_last hs.chain, nextOf, Function.update_of_ne hne, hp]
      rfl
    · intro c hc _
      rw [nextOf, nextOf, Function.update_of_ne hc]
  · rw [← List.cons_append, List.nodup_append]
    refine ⟨hs.nodup, by simp, ?_⟩
    intro a ha b hb
    rw [List.mem_singleton.mp hb]
    exact fun heq => hfresh (heq ▸ ha)
  · by_cases hh : h = l.getLastD h
    · rw [← hh, Function.update_self]
      simp
    · rw [Function.update_of_ne hh]
      exact hs.head
  · rw [List.map_append, List.map_append, ← hs.values, List.map_congr_left (fun a _ => hdata a)]
    simp only [List.map_cons, List.map_nil, hdata]
    rw [dataOf, hp]
    rfl

/-! ## What the threads know -/

/-- The value of a call of `push2` that has not linked its node. -/
def waiting : Push E → List E
  | .new e | .setNext e _ | .setData e _ | .loadTail e _ | .loadOldTail e _ _ => [e]
  | .test e _ _ _ _ | .follow e _ _ _ _ | .report e _ _ _ _ | .link e _ _ _ _ => [e]
  | _ => []

/-- The node of the producer that is not linked. -/
def own : Push E → Option ℕ
  | .setNext _ p | .setData _ p | .loadTail _ p | .loadOldTail _ p _ => some p
  | .test _ p _ _ _ | .follow _ p _ _ _ | .report _ p _ _ _ | .link _ p _ _ _ => some p
  | _ => none

/-- The node that the consumer has taken out and not deleted. -/
def former : Pop E → Option ℕ
  | .readNext p => p
  | .readData p _ => p
  | .delete p _ => p
  | _ => none

/-- The values that the consumer has taken out and not returned. -/
def Held : Pop E → List E → Prop
  | .readNext _, hand => hand.length = 1
  | .readData _ _, hand => hand.length = 1
  | .delete _ data, hand => hand = [data]
  | .done (some data), hand => hand = [data]
  | _, hand => hand = []

/-- The tail is the last node, but for the time in which the producer has linked a node and not
moved the tail. Before it links its node the producer has the last node at hand. -/
def Producing (heap : Heap E) (tail : Option ℕ) (h : ℕ) (l : List ℕ) : Push E → Prop
  | .setNext _ p => tail = some (l.getLastD h) ∧ heap p ≠ none ∧ p ∉ h :: l
  | .setData _ p => tail = some (l.getLastD h) ∧ (∃ data, heap p = some ⟨none, data⟩) ∧ p ∉ h :: l
  | .loadTail e p => tail = some (l.getLastD h) ∧ heap p = some ⟨none, e⟩ ∧ p ∉ h :: l
  | .loadOldTail e p t => tail = some (l.getLastD h) ∧ heap p = some ⟨none, e⟩ ∧ p ∉ h :: l ∧
      t = tail
  | .test e p t old _ | .report e p t old _ | .link e p t old _ =>
      tail = some (l.getLastD h) ∧ heap p = some ⟨none, e⟩ ∧ p ∉ h :: l ∧ t = tail ∧ old = tail
  | .follow _ _ _ _ _ => False
  | .swing p old => tail = old ∧ p = l.getLastD h
  | _ => tail = some (l.getLastD h)

/-- The consumer has the first node at hand, or the one before it. -/
def Consuming (heap : Heap E) (h : ℕ) (l : List ℕ) (hand : List E) : Pop E → Prop
  | .loadNext p _ | .test p _ => p = some h
  | .report p _ | .loadArgument p _ => p = some h ∧ l ≠ []
  | .swing p n _ => p = some h ∧ n = l.head? ∧ l ≠ []
  | .readNext p => ∃ a, p = some a ∧ heap a ≠ none ∧ a ∉ h :: l ∧ nextOf heap a = some h ∧
      (dataOf heap h).toList = hand
  | .readData p n => ∃ a, p = some a ∧ heap a ≠ none ∧ a ∉ h :: l ∧ n = some h ∧
      (dataOf heap h).toList = hand
  | .delete p _ => ∃ a, p = some a ∧ heap a ≠ none ∧ a ∉ h :: l
  | _ => True

/-- The shape of a state: its nodes, the values in the hand of the consumer and in the queue. -/
structure Shape (s : System E) (h : ℕ) (l : List ℕ) (hand queued : List E) : Prop where
  head : s.head = some h
  known : ∀ p, s.heap p ≠ none → s.address p ≠ none
  stored : Stored s.heap h l queued
  linked : s.linked = s.returned ++ hand ++ queued
  pushed : s.pushed = s.linked ++ waiting s.producer
  held : Held s.consumer hand
  producing : Producing s.heap s.tail h l s.producer
  consuming : Consuming s.heap h l hand s.consumer
  apart : ∀ p, own s.producer = some p → former s.consumer ≠ some p

def Inv (s : System E) : Prop := ∃ h l hand queued, Shape s h l hand queued

theorem initial_heap {a p : ℕ} (address : ℕ) (data : E) (hp : p ≠ a) :
    (initial a address data).heap p = none := by
  simp only [initial, Function.update_of_ne hp]

theorem inv_initial (a address : ℕ) (data : E) : Inv (initial a address data) := by
  refine ⟨a, [], [], [], rfl, ?_, ⟨?_, by simp, ?_, rfl⟩, rfl, rfl, rfl, rfl, trivial, ?_⟩
  · intro p hp
    by_cases hpa : p = a
    · rw [hpa, initial]
      simp
    · exact absurd (initial_heap address data hpa) hp
  · show nextOf (initial a address data).heap a = none
    simp only [nextOf, initial, Function.update_self]
    rfl
  · simp only [initial, Function.update_self]
    simp
  · intro p hp
    exact absurd hp (by simp [own, initial])

theorem Consuming.congr {c : Pop E} (hc : Consuming heap h l hand c)
    (hsame : ∀ a, a ∈ h :: l ∨ former c = some a → heap' a = heap a) :
    Consuming heap' h l hand c := by
  cases c with
  | readNext p =>
    obtain ⟨a, hp, hallocated, hout, hnext, hdata⟩ := hc
    have ha := hsame a (.inr hp)
    have hh := hsame h (.inl List.mem_cons_self)
    refine ⟨a, hp, by rwa [ha], hout, ?_, ?_⟩
    · rwa [nextOf, ha]
    · rwa [dataOf, hh]
  | readData p n =>
    obtain ⟨a, hp, hallocated, hout, hnext, hdata⟩ := hc
    have ha := hsame a (.inr hp)
    have hh := hsame h (.inl List.mem_cons_self)
    refine ⟨a, hp, by rwa [ha], hout, hnext, ?_⟩
    rwa [dataOf, hh]
  | delete p data =>
    obtain ⟨a, hp, hallocated, hout⟩ := hc
    have ha := hsame a (.inr hp)
    exact ⟨a, hp, by rwa [ha], hout⟩
  | _ => exact hc

theorem Producing.congr {tail : Option ℕ} {c : Push E} (hc : Producing heap tail h l c)
    (hsame : ∀ p, own c = some p → heap' p = heap p) : Producing heap' tail h l c := by
  cases c with
  | setNext e p =>
    obtain ⟨htail, hp, hout⟩ := hc
    exact ⟨htail, by rwa [hsame p rfl], hout⟩
  | setData e p =>
    obtain ⟨htail, hp, hout⟩ := hc
    exact ⟨htail, by rwa [hsame p rfl], hout⟩
  | loadTail e p =>
    obtain ⟨htail, hp, hout⟩ := hc
    exact ⟨htail, by rwa [hsame p rfl], hout⟩
  | loadOldTail e p t =>
    obtain ⟨htail, hp, hout⟩ := hc
    exact ⟨htail, by rwa [hsame p rfl], hout⟩
  | test e p t old count =>
    obtain ⟨htail, hp, hout⟩ := hc
    exact ⟨htail, by rwa [hsame p rfl], hout⟩
  | report e p t old count =>
    obtain ⟨htail, hp, hout⟩ := hc
    exact ⟨htail, by rwa [hsame p rfl], hout⟩
  | link e p t old count =>
    obtain ⟨htail, hp, hout⟩ := hc
    exact ⟨htail, by rwa [hsame p rfl], hout⟩
  | _ => exact hc

/-- The node behind the last one is not one that the consumer has at hand. -/
theorem Consuming.link {c : Pop E} {p : ℕ} (hc : Consuming heap h l hand c)
    (hother : ∀ a, a ∉ h :: l → heap' a = heap a) (hdata : ∀ a, dataOf heap' a = dataOf heap a)
    (hapart : former c ≠ some p) : Consuming heap' h (l ++ [p]) hand c := by
  have hbehind : ∀ a, a ∉ h :: l → former c = some a → a ∉ h :: (l ++ [p]) := by
    intro a ha hformer hmem
    rw [← List.cons_append, List.mem_append, List.mem_singleton] at hmem
    exact hmem.elim ha (fun heq => hapart (heq ▸ hformer))
  cases c with
  | readNext q =>
    obtain ⟨a, ha, hallocated, haout, hnext, hhand⟩ := hc
    refine ⟨a, ha, by rwa [hother a haout], hbehind a haout ha, ?_, by rwa [hdata]⟩
    rwa [nextOf, hother a haout]
  | readData q n =>
    obtain ⟨a, ha, hallocated, haout, hnext, hhand⟩ := hc
    exact ⟨a, ha, by rwa [hother a haout], hbehind a haout ha, hnext, by rwa [hdata]⟩
  | delete q data =>
    obtain ⟨a, ha, hallocated, haout⟩ := hc
    exact ⟨a, ha, by rwa [hother a haout], hbehind a haout ha⟩
  | swing q n count =>
    obtain ⟨hq, hn, hne⟩ := hc
    refine ⟨hq, ?_, by simp⟩
    rw [hn, List.head?_append_of_ne_nil l hne]
  | report q count => exact ⟨hc.1, by simp⟩
  | loadArgument q count => exact ⟨hc.1, by simp⟩
  | _ => exact hc

/-- The producer knows as much of the queue without its first node. -/
theorem Producing.pop {tail : Option ℕ} {n : ℕ} {c : Push E}
    (hc : Producing heap tail h (n :: l) c) : Producing heap tail n l c := by
  have hless : ∀ p, p ∉ h :: n :: l → p ∉ n :: l :=
    fun p hp hmem => hp (List.mem_cons_of_mem h hmem)
  unfold Producing at hc ⊢
  simp only [List.getLastD_cons] at hc
  cases c with
  | setNext e p => exact ⟨hc.1, hc.2.1, hless p hc.2.2⟩
  | setData e p => exact ⟨hc.1, hc.2.1, hless p hc.2.2⟩
  | loadTail e p => exact ⟨hc.1, hc.2.1, hless p hc.2.2⟩
  | loadOldTail e p t => exact ⟨hc.1, hc.2.1, hless p hc.2.2.1, hc.2.2.2⟩
  | test e p t old count => exact ⟨hc.1, hc.2.1, hless p hc.2.2.1, hc.2.2.2⟩
  | report e p t old count => exact ⟨hc.1, hc.2.1, hless p hc.2.2.1, hc.2.2.2⟩
  | link e p t old count => exact ⟨hc.1, hc.2.1, hless p hc.2.2.1, hc.2.2.2⟩
  | _ => exact hc

/-- The node of the producer is not in the queue. -/
theorem Producing.own_out {tail : Option ℕ} {c : Push E} {p : ℕ} (hc : Producing heap tail h l c)
    (hp : own c = some p) : p ∉ h :: l := by
  cases c with
  | setNext e q => exact Option.some.inj hp ▸ hc.2.2
  | setData e q => exact Option.some.inj hp ▸ hc.2.2
  | loadTail e q => exact Option.some.inj hp ▸ hc.2.2
  | loadOldTail e q t => exact Option.some.inj hp ▸ hc.2.2.1
  | test e q t old count => exact Option.some.inj hp ▸ hc.2.2.1
  | report e q t old count => exact Option.some.inj hp ▸ hc.2.2.1
  | link e q t old count => exact Option.some.inj hp ▸ hc.2.2.1
  | follow e q t old count => exact hc.elim
  | _ => exact absurd hp (by simp [own])

/-- The producer goes on and changes at most its own node. -/
theorem Shape.produced {s' : System E} (hs : Shape s h l hand queued)
    (hsame : ∀ a, a ∈ h :: l ∨ former s.consumer = some a → s'.heap a = s.heap a)
    (hknown : ∀ p, s'.heap p ≠ none → s'.address p ≠ none)
    (hrest : s'.head = s.head ∧ s'.linked = s.linked ∧ s'.returned = s.returned ∧
      s'.consumer = s.consumer)
    (hpushed : s'.pushed = s.linked ++ waiting s'.producer)
    (hproducing : Producing s'.heap s'.tail h l s'.producer)
    (hown : ∀ p, own s'.producer = some p → former s.consumer ≠ some p) :
    Shape s' h l hand queued := by
  obtain ⟨hhead, hlinked, hreturned, hconsumer⟩ := hrest
  exact {
    head := by rw [hhead, hs.head]
    known := hknown
    stored := hs.stored.congr (fun a ha => hsame a (.inl ha))
    linked := by rw [hlinked, hreturned, hs.linked]
    pushed := by rw [hpushed, hlinked]
    held := by rw [hconsumer]; exact hs.held
    producing := hproducing
    consuming := by rw [hconsumer]; exact hs.consuming.congr hsame
    apart := by rw [hconsumer]; exact hown }

/-- The consumer goes on and changes at most the node it has taken out. -/
theorem Shape.consumed {s' : System E} {hand' : List E} (hs : Shape s h l hand queued)
    (hsame : ∀ a, a ∈ h :: l ∨ own s.producer = some a → s'.heap a = s.heap a)
    (hknown : ∀ p, s'.heap p ≠ none → s'.address p ≠ none)
    (hrest : s'.head = s.head ∧ s'.tail = s.tail ∧ s'.linked = s.linked ∧ s'.pushed = s.pushed ∧
      s'.producer = s.producer)
    (hreturned : s'.returned ++ hand' = s.returned ++ hand)
    (hheld : Held s'.consumer hand') (hconsuming : Consuming s'.heap h l hand' s'.consumer)
    (hformer : ∀ a, former s'.consumer = some a → former s.consumer = some a) :
    Shape s' h l hand' queued := by
  obtain ⟨hhead, htail, hlinked, hpushed, hproducer⟩ := hrest
  exact {
    head := by rw [hhead, hs.head]
    known := hknown
    stored := hs.stored.congr (fun a ha => hsame a (.inl ha))
    linked := by rw [hlinked, hreturned, hs.linked]
    pushed := by rw [hpushed, hlinked, hproducer, hs.pushed]
    held := hheld
    producing := by
      rw [htail, hproducer]
      exact hs.producing.congr (fun p hp => hsame p (.inr hp))
    consuming := hconsuming
    apart := by
      rw [hproducer]
      intro p hp hformer'
      exact hs.apart p hp (hformer p hformer') }

/-! ## The steps of the producer -/

theorem Shape.callPush (hs : Shape s h l hand queued) (e : E) (hidle : s.producer = .idle) :
    Shape { s with producer := .new e, pushed := s.pushed ++ [e] } h l hand queued := by
  have hproducing := hs.producing
  have hpushed := hs.pushed
  rw [hidle] at hproducing hpushed
  simp only [waiting, List.append_nil] at hpushed
  refine hs.produced (fun a _ => rfl) hs.known ⟨rfl, rfl, rfl, rfl⟩ ?_ ?_ ?_
  · show s.pushed ++ [e] = s.linked ++ [e]
    rw [hpushed]
  · exact hproducing
  · exact fun p hp => absurd hp (by simp [own])

/-- `new` gives an address that is neither in the queue nor with the consumer. -/
theorem Shape.new (hs : Shape s h l hand queued) {e : E} {p : ℕ} (address : ℕ) (node : Node E)
    (hnew : s.producer = .new e) (haddress : s.address p = none) :
    Shape { s with
        heap := Function.update s.heap p (some node)
        address := Function.update s.address p (some address)
        producer := .setNext e p } h l hand queued := by
  have hfree : s.heap p = none := by
    by_contra hallocated
    exact hs.known p hallocated haddress
  have hproducing := hs.producing
  have hpushed := hs.pushed
  rw [hnew] at hproducing hpushed
  have hout : p ∉ h :: l := fun hp => hs.stored.allocated hp hfree
  have hformer : former s.consumer ≠ some p := by
    intro hp
    have hconsuming := hs.consuming
    cases hc : s.consumer with
    | readNext q =>
      rw [hc] at hconsuming hp
      obtain ⟨a, ha, hallocated, -⟩ := hconsuming
      obtain rfl : a = p := Option.some.inj (ha.symm.trans hp)
      exact hallocated hfree
    | readData q n =>
      rw [hc] at hconsuming hp
      obtain ⟨a, ha, hallocated, -⟩ := hconsuming
      obtain rfl : a = p := Option.some.inj (ha.symm.trans hp)
      exact hallocated hfree
    | delete q data =>
      rw [hc] at hconsuming hp
      obtain ⟨a, ha, hallocated, -⟩ := hconsuming
      obtain rfl : a = p := Option.some.inj (ha.symm.trans hp)
      exact hallocated hfree
    | _ =>
      rw [hc] at hp
      exact absurd hp (by simp [former])
  refine hs.produced ?_ ?_ ⟨rfl, rfl, rfl, rfl⟩ hpushed ?_ ?_
  rotate_left
  · intro q hq
    by_cases hqp : q = p
    · rw [hqp]
      simp
    · simp only [Function.update_of_ne hqp] at hq ⊢
      exact hs.known q hq
  · refine ⟨hproducing, ?_, hout⟩
    simp only [Function.update_self]
    exact Option.some_ne_none node
  · intro q hq
    obtain rfl : p = q := Option.some.inj hq
    exact hformer
  · intro a ha
    apply Function.update_of_ne
    intro heq
    rw [heq] at ha
    exact ha.elim hout hformer

omit s in
theorem known_update {address : ℕ → Option ℕ} {p : ℕ} {cell : Option (Node E)}
    (hknown : ∀ q, heap q ≠ none → address q ≠ none) (hp : heap p ≠ none) :
    ∀ q, Function.update heap p cell q ≠ none → address q ≠ none := by
  intro q hq
  by_cases hqp : q = p
  · exact hknown q (hqp ▸ hp)
  · rw [Function.update_of_ne hqp] at hq
    exact hknown q hq

/-- The producer writes to its own node. -/
theorem Shape.wrote (hs : Shape s h l hand queued) {p : ℕ} {point : Push E} (node : Node E)
    (hown : own s.producer = some p) (hown' : own point = some p)
    (hwaiting : waiting point = waiting s.producer)
    (hmine : s.heap p ≠ none) (hout : p ∉ h :: l)
    (hproducing : Producing (Function.update s.heap p (some node)) s.tail h l point) :
    Shape { s with heap := Function.update s.heap p (some node), producer := point }
      h l hand queued := by
  refine hs.produced ?_ ?_ ⟨rfl, rfl, rfl, rfl⟩ ?_ hproducing ?_
  · intro a ha
    apply Function.update_of_ne
    intro heq
    rw [heq] at ha
    exact ha.elim hout (hs.apart p hown)
  · exact known_update hs.known hmine
  · show s.pushed = s.linked ++ waiting point
    rw [hwaiting, hs.pushed]
  · intro q hq
    exact hs.apart q (hown.trans (hown'.symm.trans hq))

/-- The producer goes on and changes nothing. -/
theorem Shape.read (hs : Shape s h l hand queued) {point : Push E}
    (hwaiting : waiting point = waiting s.producer) (hown : own point = own s.producer)
    (hproducing : Producing s.heap s.tail h l point) :
    Shape { s with producer := point } h l hand queued := by
  refine hs.produced (fun a _ => rfl) hs.known ⟨rfl, rfl, rfl, rfl⟩ ?_ hproducing ?_
  · show s.pushed = s.linked ++ waiting point
    rw [hwaiting, hs.pushed]
  · intro p hp
    exact hs.apart p (hown.symm.trans hp)

/-- The CAS of the last node's `_next` links the node of the producer. -/
theorem Shape.linked_node (hs : Shape s h l hand queued) {e : E} {p : ℕ} {t old : Option ℕ}
    {count : ℕ} {node : Node E} (hlink : s.producer = .link e p t old count)
    (hnode : s.heap (l.getLastD h) = some node) :
    Shape { s with
        heap := Function.update s.heap (l.getLastD h) (some { node with next := some p })
        producer := .swing p old
        linked := s.linked ++ [e] } h (l ++ [p]) hand (queued ++ [e]) := by
  have hproducing := hs.producing
  have hpushed := hs.pushed
  have hapart := hs.apart p (by rw [hlink]; rfl)
  rw [hlink] at hproducing hpushed
  obtain ⟨htail, hp, hout, -, hold⟩ := hproducing
  have hlast : l.getLastD h ∈ h :: l := List.getLastD_mem_cons
  have hdata : ∀ a, dataOf (Function.update s.heap (l.getLastD h)
      (some { node with next := some p })) a = dataOf s.heap a := by
    intro a
    by_cases ha : a = l.getLastD h
    · rw [ha, dataOf, dataOf, Function.update_self, hnode]
      rfl
    · rw [dataOf, dataOf, Function.update_of_ne ha]
  have hother : ∀ a, a ∉ h :: l → Function.update s.heap (l.getLastD h)
      (some { node with next := some p }) a = s.heap a := by
    intro a ha
    apply Function.update_of_ne
    exact fun heq => ha (heq ▸ hlast)
  exact {
    head := hs.head
    known := known_update hs.known (by rw [hnode]; simp)
    stored := hs.stored.link hp hout hnode
    linked := by
      show s.linked ++ [e] = s.returned ++ hand ++ (queued ++ [e])
      rw [hs.linked, List.append_assoc]
    pushed := by
      show s.pushed = s.linked ++ [e] ++ []
      rw [hpushed, List.append_nil]
      rfl
    held := hs.held
    producing := by
      refine ⟨hold.symm, ?_⟩
      rw [List.getLastD_concat]
    consuming := hs.consuming.link hother hdata hapart
    apart := fun q hq => absurd hq (by simp [own]) }

/-- The node at the end of the queue. -/
theorem Shape.last (hs : Shape s h l hand queued) :
    ∃ node, s.heap (l.getLastD h) = some node ∧ node.next = none := by
  have hallocated := hs.stored.allocated (a := l.getLastD h) List.getLastD_mem_cons
  obtain ⟨node, hnode⟩ := Option.ne_none_iff_exists'.mp hallocated
  refine ⟨node, hnode, ?_⟩
  have hlast := chain_last hs.stored.chain
  rw [nextOf, hnode] at hlast
  exact hlast

/-- Each step of the producer has a result, and keeps the invariant. -/
theorem Shape.push2 (hs : Shape s h l hand queued) (hidle : s.producer ≠ .idle)
    (hnew : ∀ e, s.producer ≠ .new e) :
    ∃ s', LinkedQueue.push2 s s.producer = some s' ∧ s'.consumer = s.consumer ∧ Inv s' := by
  have hproducing := hs.producing
  have hpushed := hs.pushed
  have hapart := hs.apart
  obtain ⟨node, hnode, hend⟩ := hs.last
  cases hp : s.producer with
  | idle => exact absurd hp hidle
  | new e => exact absurd hp (hnew e)
  | setNext e p =>
    rw [hp] at hproducing
    obtain ⟨htail, hallocated, hout⟩ := hproducing
    obtain ⟨mine, hmine⟩ := Option.ne_none_iff_exists'.mp hallocated
    refine ⟨{ s with heap := Function.update s.heap p (some { mine with next := none })
                     producer := .setData e p }, ?_, rfl, h, l, hand, queued, ?_⟩
    · rw [LinkedQueue.push2, hmine]
      rfl
    · apply hs.wrote _ (by rw [hp]; rfl) rfl (by rw [hp]; rfl) hallocated hout
      refine ⟨htail, ⟨mine.data, ?_⟩, hout⟩
      rw [Function.update_self]
  | setData e p =>
    rw [hp] at hproducing
    obtain ⟨htail, ⟨data, hmine⟩, hout⟩ := hproducing
    refine ⟨{ s with heap := Function.update s.heap p (some ⟨none, e⟩)
                     producer := .loadTail e p }, ?_, rfl, h, l, hand, queued, ?_⟩
    · rw [LinkedQueue.push2, hmine]
      rfl
    · apply hs.wrote _ (by rw [hp]; rfl) rfl (by rw [hp]; rfl) (by rw [hmine]; simp) hout
      refine ⟨htail, ?_, hout⟩
      rw [Function.update_self]
  | loadTail e p =>
    rw [hp] at hproducing
    obtain ⟨htail, hmine, hout⟩ := hproducing
    refine ⟨_, rfl, rfl, h, l, hand, queued, ?_⟩
    exact hs.read (by rw [hp]; rfl) (by rw [hp]; rfl) ⟨htail, hmine, hout, rfl⟩
  | loadOldTail e p t =>
    rw [hp] at hproducing
    obtain ⟨htail, hmine, hout, ht⟩ := hproducing
    refine ⟨_, rfl, rfl, h, l, hand, queued, ?_⟩
    exact hs.read (by rw [hp]; rfl) (by rw [hp]; rfl) ⟨htail, hmine, hout, ht, rfl⟩
  | test e p t old count =>
    rw [hp] at hproducing
    have hkeep := hproducing
    obtain ⟨htail, hmine, hout, ht, hold⟩ := hproducing
    have hderef : deref s.heap t = some node := by
      rw [ht, htail]
      exact hnode
    by_cases hcount : 1 ≤ count
    · refine ⟨{ s with producer := .report e p t old (count + 1) }, ?_, rfl, h, l, hand, queued, ?_⟩
      · simp [LinkedQueue.push2, hderef, hend, hcount]
      · exact hs.read (by rw [hp]; rfl) (by rw [hp]; rfl) hkeep
    · refine ⟨{ s with producer := .link e p t old (count + 1) }, ?_, rfl, h, l, hand, queued, ?_⟩
      · simp [LinkedQueue.push2, hderef, hend, hcount]
      · exact hs.read (by rw [hp]; rfl) (by rw [hp]; rfl) hkeep
  | follow e p t old count =>
    rw [hp] at hproducing
    exact hproducing.elim
  | report e p t old count =>
    rw [hp] at hproducing
    have hkeep := hproducing
    obtain ⟨htail, hmine, hout, ht, hold⟩ := hproducing
    have hderef : deref s.heap t = some node := by
      rw [ht, htail]
      exact hnode
    refine ⟨{ s with producer := .link e p t old count }, ?_, rfl, h, l, hand, queued, ?_⟩
    · rw [LinkedQueue.push2, hderef]
      rfl
    · exact hs.read (by rw [hp]; rfl) (by rw [hp]; rfl) hkeep
  | link e p t old count =>
    rw [hp] at hproducing
    obtain ⟨htail, hmine, hout, ht, hold⟩ := hproducing
    have ht' : t = some (l.getLastD h) := ht.trans htail
    refine ⟨{ s with
        heap := Function.update s.heap (l.getLastD h) (some { node with next := some p })
        producer := .swing p old
        linked := s.linked ++ [e] }, ?_, rfl, h, l ++ [p], hand, queued ++ [e], ?_⟩
    · have hderef : deref s.heap t = some node := by
        rw [ht']
        exact hnode
      rw [LinkedQueue.push2, hderef, ht']
      obtain ⟨next, data⟩ := node
      obtain rfl : next = none := hend
      rfl
    · exact hs.linked_node hp hnode
  | swing p old =>
    rw [hp] at hproducing hpushed
    obtain ⟨htail, hlast⟩ := hproducing
    refine ⟨{ s with tail := some p, producer := .done }, ?_, rfl, h, l, hand, queued, ?_⟩
    · rw [LinkedQueue.push2, if_pos (by rw [System.same, htail]; simp)]
    · refine hs.produced (fun a _ => rfl) hs.known ⟨rfl, rfl, rfl, rfl⟩ hpushed ?_ ?_
      · show some p = some (l.getLastD h)
        rw [hlast]
      · exact fun q hq => absurd hq (by simp [own])
  | done =>
    rw [hp] at hproducing
    refine ⟨_, rfl, rfl, h, l, hand, queued, ?_⟩
    exact hs.read (by rw [hp]; rfl) (by rw [hp]; rfl) hproducing

/-! ## The steps of the consumer -/

/-- The consumer goes on, and the queue stays as it is. -/
theorem Shape.moved (hs : Shape s h l hand queued) {point : Pop E} (hheld : Held point hand)
    (hconsuming : Consuming s.heap h l hand point)
    (hformer : ∀ a, former point = some a → former s.consumer = some a) :
    Shape { s with consumer := point } h l hand queued :=
  hs.consumed (fun _ _ => rfl) hs.known ⟨rfl, rfl, rfl, rfl, rfl⟩ rfl hheld hconsuming hformer

/-- The CAS of `_head` takes the first value out. -/
theorem Shape.swing {n : ℕ} (hs : Shape s h (n :: l) [] queued) :
    ∃ d rest, Shape { s with head := some n, consumer := .readNext (some h) } n l [d] rest := by
  obtain ⟨d, rest, hqueued, hdata, hstored⟩ := hs.stored.pop
  have hout := (List.nodup_cons.mp hs.stored.nodup).1
  refine ⟨d, rest, rfl, hs.known, hstored, ?_, hs.pushed, rfl, ?_, ?_, ?_⟩
  · show s.linked = s.returned ++ [d] ++ rest
    rw [hs.linked, hqueued]
    simp
  · exact hs.producing.pop
  · refine ⟨h, rfl, hs.stored.head, hout, ?_, ?_⟩
    · exact hs.stored.next_head
    · rw [hdata]
      rfl
  · intro p hp hformer
    obtain rfl : h = p := Option.some.inj hformer
    exact hs.producing.own_out hp List.mem_cons_self

/-- Each step of the consumer has a result, and keeps the invariant; when it finds no node behind
the first one, all values of the linked nodes have been returned. -/
theorem Shape.pop2 (hs : Shape s h l hand queued) :
    ∃ s', LinkedQueue.pop2 s s.consumer = some s' ∧ Inv s' ∧
      (s'.consumer = .done none → s.consumer ≠ .idle ∧ s.linked = s.returned) := by
  have hconsuming := hs.consuming
  have hheld := hs.held
  have hallocated : ∀ a, s.heap a ≠ none → ∃ node, s.heap a = some node :=
    fun a ha => Option.ne_none_iff_exists'.mp ha
  obtain ⟨first, hfirst⟩ := hallocated h hs.stored.head
  have hnext : first.next = l.head? := by
    have hhead := hs.stored.next_head
    rwa [nextOf, hfirst] at hhead
  cases hc : s.consumer with
  | idle =>
    refine ⟨s, rfl, ⟨h, l, hand, queued, hs⟩, ?_⟩
    rw [hc]
    simp
  | loadHead count =>
    rw [hc] at hheld
    refine ⟨_, rfl, ⟨h, l, hand, queued, ?_⟩, by simp⟩
    exact hs.moved hheld hs.head (by simp [former])
  | loadNext p count =>
    rw [hc] at hconsuming hheld
    refine ⟨{ s with consumer := .test p count }, ?_, ⟨h, l, hand, queued, ?_⟩, by simp⟩
    · simp [LinkedQueue.pop2, deref, show p = some h from hconsuming, hfirst]
    · exact hs.moved hheld hconsuming (by simp [former])
  | test p count =>
    rw [hc] at hconsuming hheld
    have hderef : deref s.heap p = some first := by
      rw [show p = some h from hconsuming]
      exact hfirst
    cases l with
    | nil =>
      refine ⟨{ s with consumer := .done none }, ?_, ⟨h, [], hand, queued, ?_⟩, ?_⟩
      · simp [LinkedQueue.pop2, hderef, hnext]
      · exact hs.moved hheld trivial (by simp [former])
      · intro _
        have hvalues := hs.stored.values
        have hqueued : queued = [] := by simpa using hvalues.symm
        have hhand : hand = [] := hheld
        refine ⟨by simp, ?_⟩
        rw [hs.linked, hqueued, hhand, List.append_nil, List.append_nil]
    | cons n l =>
      by_cases hcount : 1 ≤ count
      · refine ⟨{ s with consumer := .report p (count + 1) }, ?_, ⟨h, n :: l, hand, queued, ?_⟩,
          by simp⟩
        · simp [LinkedQueue.pop2, hderef, hnext, hcount]
        · exact hs.moved hheld ⟨hconsuming, by simp⟩ (by simp [former])
      · refine ⟨{ s with consumer := .loadArgument p (count + 1) }, ?_,
          ⟨h, n :: l, hand, queued, ?_⟩, by simp⟩
        · simp [LinkedQueue.pop2, hderef, hnext, hcount]
        · exact hs.moved hheld ⟨hconsuming, by simp⟩ (by simp [former])
  | report p count =>
    rw [hc] at hconsuming hheld
    refine ⟨{ s with consumer := .loadArgument p count }, ?_, ⟨h, l, hand, queued, ?_⟩, by simp⟩
    · simp [LinkedQueue.pop2, deref, hconsuming.1, hfirst]
    · exact hs.moved hheld hconsuming (by simp [former])
  | loadArgument p count =>
    rw [hc] at hconsuming hheld
    refine ⟨{ s with consumer := .swing p first.next count }, ?_, ⟨h, l, hand, queued, ?_⟩, by simp⟩
    · simp [LinkedQueue.pop2, deref, hconsuming.1, hfirst]
    · exact hs.moved hheld ⟨hconsuming.1, hnext, hconsuming.2⟩ (by simp [former])
  | swing p n count =>
    rw [hc] at hconsuming hheld
    obtain ⟨hp, hn, hne⟩ := hconsuming
    cases l with
    | nil => exact absurd rfl hne
    | cons a l =>
      have hhand : hand = [] := hheld
      rw [hhand] at hs
      obtain ⟨d, rest, hshape⟩ := hs.swing
      refine ⟨{ s with head := some a, consumer := .readNext (some h) }, ?_,
        ⟨a, l, [d], rest, hshape⟩, by simp⟩
      rw [LinkedQueue.pop2, if_pos (by rw [System.same, hs.head, hp]; simp), hp, hn]
      rfl
  | readNext p =>
    rw [hc] at hconsuming hheld
    obtain ⟨a, hp, ha, hout, hanext, hdata⟩ := hconsuming
    obtain ⟨node, hnode⟩ := hallocated a ha
    refine ⟨{ s with consumer := .readData p node.next }, ?_, ⟨h, l, hand, queued, ?_⟩, by simp⟩
    · simp [LinkedQueue.pop2, deref, hp, hnode]
    · rw [nextOf, hnode] at hanext
      refine hs.moved hheld ⟨a, hp, ha, hout, hanext, hdata⟩ ?_
      rw [hc]
      exact fun _ h => h
  | readData p n =>
    rw [hc] at hconsuming hheld
    obtain ⟨a, hp, ha, hout, hn, hdata⟩ := hconsuming
    refine ⟨{ s with consumer := .delete p first.data }, ?_, ⟨h, l, hand, queued, ?_⟩, by simp⟩
    · simp [LinkedQueue.pop2, deref, hn, hfirst]
    · rw [dataOf, hfirst] at hdata
      refine hs.moved hdata.symm ⟨a, hp, ha, hout⟩ ?_
      rw [hc]
      exact fun _ h => h
  | delete p data =>
    rw [hc] at hconsuming hheld
    obtain ⟨a, hp, ha, hout⟩ := hconsuming
    obtain ⟨node, hnode⟩ := hallocated a ha
    refine ⟨{ s with heap := Function.update s.heap a none, consumer := .done (some data) }, ?_,
      ⟨h, l, hand, queued, ?_⟩, by simp⟩
    · simp [LinkedQueue.pop2, hp, hnode]
    · refine hs.consumed ?_ (known_update hs.known ha) ⟨rfl, rfl, rfl, rfl, rfl⟩ rfl hheld trivial
        (by simp [former])
      intro b hb
      apply Function.update_of_ne
      intro heq
      rw [heq] at hb
      have hformer : former s.consumer = some a := by rw [hc]; exact hp
      exact hb.elim hout (fun hown => hs.apart a hown hformer)
  | done result =>
    rw [hc] at hheld
    cases result with
    | none =>
      refine ⟨_, rfl, ⟨h, l, hand, queued, ?_⟩, by simp⟩
      exact hs.moved hheld trivial (by simp [former])
    | some data =>
      have hhand : hand = [data] := hheld
      refine ⟨_, rfl, ⟨h, l, [], queued, ?_⟩, by simp⟩
      refine hs.consumed (fun a _ => rfl) hs.known ⟨rfl, rfl, rfl, rfl, rfl⟩ ?_ rfl trivial
        (by simp [former])
      rw [hhand, List.append_nil]

/-! ## Runs -/

/-- Each action of a thread has a result and keeps the invariant. -/
theorem Inv.perform (h : Inv s) (a : Action E) (henabled : a.Enabled s) :
    ∃ s', perform s a = some s' ∧ Inv s' ∧ (s'.consumer = .done none →
      s.consumer = .done none ∨ s.consumer ≠ .idle ∧ s.linked = s.returned) := by
  obtain ⟨head, l, hand, queued, hs⟩ := h
  cases a with
  | callPush e =>
    exact ⟨_, rfl, ⟨head, l, hand, queued, hs.callPush e henabled⟩, fun hdone => .inl hdone⟩
  | callPop =>
    have hidle : s.consumer = .idle := henabled
    have hheld := hs.held
    rw [hidle] at hheld
    refine ⟨_, rfl, ⟨head, l, hand, queued, ?_⟩, by simp⟩
    exact hs.moved hheld trivial (by simp [former])
  | new p address node =>
    obtain ⟨⟨e, he⟩, hfree, -⟩ := henabled
    refine ⟨_, ?_, ⟨head, l, hand, queued, hs.new address node he hfree⟩, fun hdone => .inl hdone⟩
    simp only [LinkedQueue.perform, he]
  | producer =>
    obtain ⟨s', hresult, hsame, hinv⟩ := hs.push2 henabled.1 henabled.2
    refine ⟨s', hresult, hinv, ?_⟩
    rw [hsame]
    exact fun hdone => .inl hdone
  | consumer =>
    obtain ⟨s', hresult, hinv, hrefused⟩ := hs.pop2
    exact ⟨s', hresult, hinv, fun hdone => .inr (hrefused hdone)⟩

theorem Run.inv {older : List (System E)} (h : Run (s :: older)) : Inv s := by
  induction older generalizing s with
  | nil =>
    cases h with
    | start a address data => exact inv_initial a address data
  | cons t older ih =>
    cases h with
    | step _ before enabled result =>
      obtain ⟨s', hresult, hinv, -⟩ := (ih before).perform _ enabled
      rw [result] at hresult
      rw [Option.some.inj hresult]
      exact hinv

/-- At some instant of the call of `pop2` the values of all linked nodes had been returned. -/
def DrainedDuringCall : List (System E) → Prop
  | [] => False
  | s :: older => s.consumer ≠ .idle ∧ (s.linked = s.returned ∨ DrainedDuringCall older)

theorem Run.drained {older : List (System E)} (h : Run (s :: older))
    (hdone : s.consumer = .done none) : DrainedDuringCall (s :: older) := by
  induction older generalizing s with
  | nil =>
    cases h with
    | start a address data => exact absurd hdone (by simp [initial])
  | cons t older ih =>
    cases h with
    | step _ before enabled result =>
      obtain ⟨s', hresult, -, hrefused⟩ := before.inv.perform _ enabled
      rw [result] at hresult
      obtain rfl := Option.some.inj hresult
      refine ⟨by rw [hdone]; simp, .inr ?_⟩
      obtain hbefore | ⟨hin, hdrained⟩ := hrefused hdone
      · exact ih before hbefore
      · exact ⟨hin, .inl hdrained⟩

/-- In every run the values are linked in the order in which they are pushed and returned in the
order in which they are linked: besides the value of the call of `push2` under way and that of the
call of `pop2` under way, a pushed value is returned or in the queue. A call of `pop2` fails only
if all linked values had been returned, and no step accesses a node that was deleted. -/
theorem linked_queue_correct {older : List (System E)} (h : Run (s :: older)) :
    (∃ first l hand queued, s.head = some first ∧ Chain (nextOf s.heap) first l ∧
      l.map (dataOf s.heap) = queued.map some ∧ Held s.consumer hand ∧
      s.linked = s.returned ++ hand ++ queued ∧ s.pushed = s.linked ++ waiting s.producer) ∧
    (s.consumer = .done none → DrainedDuringCall (s :: older)) ∧
    ∀ a : Action E, a.Enabled s → ∃ s', perform s a = some s' := by
  refine ⟨?_, h.drained, ?_⟩
  · obtain ⟨first, l, hand, queued, hs⟩ := h.inv
    exact ⟨first, l, hand, queued, hs.head, hs.stored.chain, hs.stored.values, hs.held, hs.linked,
      hs.pushed⟩
  · intro a henabled
    obtain ⟨s', hresult, -⟩ := h.inv.perform a henabled
    exact ⟨s', hresult⟩

/-- A value is pushed, popped and returned. -/
theorem linked_queue_correct_handedOver : ∃ (s : System ℕ) (older : List (System ℕ)),
    Run (s :: older) ∧ s.pushed = [7] ∧ s.returned = [7] ∧
      ∀ a : Action ℕ, a.Enabled s → ∃ s', perform s a = some s' := by
  have hcall := Run.step (.callPush 7) (.start 0 64 0) rfl rfl
  have hnew := Run.step (.new 1 96 ⟨none, 0⟩) hcall
    ⟨⟨7, rfl⟩, rfl, fun q hq haddress => by
      by_cases hzero : q = 0
      · rw [hzero] at haddress
        exact absurd haddress (by decide)
      · exact hq (initial_heap 64 0 hzero)⟩ rfl
  have hnext := Run.step .producer hnew ⟨nofun, nofun⟩ rfl
  have hdata := Run.step .producer hnext ⟨nofun, nofun⟩ rfl
  have htail := Run.step .producer hdata ⟨nofun, nofun⟩ rfl
  have hold := Run.step .producer htail ⟨nofun, nofun⟩ rfl
  have htest := Run.step .producer hold ⟨nofun, nofun⟩ rfl
  have hlink := Run.step .producer htest ⟨nofun, nofun⟩ rfl
  have hpop := Run.step .callPop hlink rfl rfl
  have hhead := Run.step .consumer hpop nofun rfl
  have hload := Run.step .consumer hhead nofun rfl
  have hfound := Run.step .consumer hload nofun rfl
  have hargument := Run.step .consumer hfound nofun rfl
  have hswung := Run.step .consumer hargument nofun rfl
  have hread := Run.step .consumer hswung nofun rfl
  have hvalue := Run.step .consumer hread nofun rfl
  have hdeleted := Run.step .consumer hvalue nofun rfl
  have hreturned := Run.step .consumer hdeleted nofun rfl
  exact ⟨_, _, hreturned, rfl, rfl, (linked_queue_correct hreturned).2.2⟩

end CServer.Queues.LinkedQueue
