import CServer.Queues.SimpleQueue
import Mathlib.Data.List.Nodup
import Mathlib.Tactic.Tauto

/-!
# Where the nodes of the recycling queue are

Every slot has one place: in the queue, in the free list, or with one thread. The version of a slot is
that of every index that is in use. An index that a producer has read from the head of the free list
is either still in the list, with the same successor, or has an old version.
-/
namespace CServer.Queues.SimpleQueue

variable {T E : Type}

inductive Place (T : Type) where
  | unmade
  | chain
  | free
  | producer (t : T)
  | consumer
  deriving DecidableEq

/-- What the members alone do not show: the places and the versions of the slots, the nodes behind the
head and the nodes of the free list. -/
structure Ghost (T : Type) where
  place : ℕ → Place T
  version : ℕ → ℕ
  rest : List Idx
  free : List Idx

/-- The nodes are linked in this order, where the link from one to the next may be outstanding. -/
def Linked (next : ℕ → Option Idx) (producers : T → Producer E) : Idx → List Idx → Prop
  | a, [] => next a.slot = none
  | a, b :: rest => (next a.slot = some b ∨ next a.slot = none ∧ ∃ t, producers t = .link a b) ∧
    Linked next producers b rest

/-- The nodes from an index on, along the links that are set. -/
def NodesFrom (next : ℕ → Option Idx) : Option Idx → List Idx → Prop
  | i, [] => i = none
  | i, a :: free => i = some a ∧ NodesFrom next (next a.slot) free

variable {s s' : System T E} {g g' : Ghost T} {next next' : ℕ → Option Idx} {item item' : ℕ → Option E}
variable {producers producers' : T → Producer E} {a b i : Idx} {rest free : List Idx} {t u : T}

/-- An index that was once at the head of the free list. -/
structure Stale (g : Ghost T) (i : Idx) : Prop where
  made : g.place i.slot ≠ .unmade
  version_le : i.version ≤ g.version i.slot
  mem : i.version = g.version i.slot → i ∈ g.free

/-- A producer has a node of its own. -/
structure Owns (g : Ghost T) (p : Place T) (i : Idx) : Prop where
  place : g.place i.slot = p
  version : i.version = g.version i.slot

/-- What holds of a producer where it is. -/
def ProducerAt (next : ℕ → Option Idx) (item : ℕ → Option E) (g : Ghost T) (head : Idx) (t : T) :
    Producer E → Prop
  | .idle | .loadFree _ | .newNode _ => True
  | .loadFreeNext _ i => ∀ j, i = some j → Stale g j
  | .casFree _ i n => Stale g i ∧ (i.version = g.version i.slot → next i.slot = n)
  | .clearNext _ i => Owns g (.producer t) i ∧ item i.slot = none
  | .construct _ i => Owns g (.producer t) i ∧ item i.slot = none ∧ next i.slot = none
  | .loadTail e i | .casTail e i _ =>
    Owns g (.producer t) i ∧ item i.slot = some e ∧ next i.slot = none
  | .link a b => next a.slot = none ∧ ∃ front back, head :: g.rest = front ++ a :: b :: back

/-- The slot that only this producer can reach. -/
def Producer.own : Producer E → Option ℕ
  | .clearNext _ i | .construct _ i | .loadTail _ i | .casTail _ i _ => some i.slot
  | _ => none

/-- What holds of the consumer where it is. -/
def ConsumerAt (next : ℕ → Option Idx) (item : ℕ → Option E) (g : Ghost T) (head : Idx)
    (consumed : Bool) : Consumer E → Prop
  | .loadHead | .done _ => consumed = true → item head.slot = none
  | .loadNext h c => h = head ∧ c = consumed ∧ (consumed = true → item head.slot = none)
  | .casFlag h => h = head ∧ consumed = false
  | .takeLast h => h = head ∧ consumed = true
  | .casHead h c n => h = head ∧ c = consumed ∧ next head.slot = some n ∧
    (consumed = true → item head.slot = none)
  | .take h => Owns g .consumer h ∧ consumed = false
  | .loadFree h _ | .setNext h _ _ => Owns g .consumer h ∧ item h.slot = none ∧ consumed = false
  | .casFree h _ f =>
    Owns g .consumer h ∧ item h.slot = none ∧ consumed = false ∧ next h.slot = f

/-- The slot that only the consumer can reach. -/
def Consumer.own : Consumer E → Option ℕ
  | .take h | .loadFree h _ | .setNext h _ _ | .casFree h _ _ => some h.slot
  | _ => none

/-- The node whose element the consumer has claimed and not yet moved out. -/
def Consumer.claimed : Consumer E → List Idx
  | .takeLast h | .take h => [h]
  | _ => []

/-- The nodes whose elements are not yet moved out, in order. -/
def System.full (s : System T E) (rest : List Idx) : List Idx :=
  s.consumer.claimed ++ if s.consumed then rest else s.head :: rest

structure Inv (s : System T E) (g : Ghost T) : Prop where
  made : ∀ p, g.place p ≠ .unmade ↔ 0 < p ∧ p < s.nextNodeIdx
  chain : ∀ p, g.place p = .chain ↔ p ∈ (s.head :: g.rest).map Idx.slot
  chainNodup : ((s.head :: g.rest).map Idx.slot).Nodup
  chainVersion : ∀ i ∈ s.head :: g.rest, i.version = g.version i.slot
  tail : s.tail = g.rest.getLastD s.head
  linked : Linked s.next s.producers s.head g.rest
  free : ∀ p, g.place p = .free ↔ p ∈ g.free.map Idx.slot
  freeNodup : (g.free.map Idx.slot).Nodup
  freeVersion : ∀ i ∈ g.free, i.version = g.version i.slot
  freeFrom : NodesFrom s.next s.freeListHead g.free
  freeItem : ∀ p, g.place p = .free → s.item p = none
  items : (s.full g.rest).map (fun i => s.item i.slot) =
    (s.enqueued.drop s.dequeued.length).map some
  taken : s.dequeued <+: s.enqueued
  producers : ∀ t, ProducerAt s.next s.item g s.head t (s.producers t)
  producersOwn : ∀ t p, g.place p = .producer t ↔ (s.producers t).own = some p
  consumer : ConsumerAt s.next s.item g s.head s.consumed s.consumer
  consumerOwn : ∀ p, g.place p = .consumer ↔ s.consumer.own = some p
  once : ∀ t u a a' b, s.producers t = .link a b → s.producers u = .link a' b → t = u

/-! ## Changes that the lists do not see -/

theorem Linked.congr (h : Linked next producers a rest)
    (hnext : ∀ i ∈ a :: rest, next' i.slot = next i.slot)
    (hlink : ∀ t, ∀ b ∈ a :: rest, ∀ c, producers t = .link b c → producers' t = .link b c) :
    Linked next' producers' a rest := by
  induction rest generalizing a with
  | nil =>
    show next' a.slot = none
    rw [hnext a List.mem_cons_self]
    exact h
  | cons b rest ih =>
    refine ⟨?_, ih h.2 (fun i hi => hnext i (List.mem_cons_of_mem a hi))
      fun t i hi => hlink t i (List.mem_cons_of_mem a hi)⟩
    rw [hnext a List.mem_cons_self]
    exact h.1.imp_right fun ⟨hnone, t, ht⟩ => ⟨hnone, t, hlink t a List.mem_cons_self b ht⟩

theorem Linked.last (h : Linked next producers a rest) : next (rest.getLastD a).slot = none := by
  induction rest generalizing a with
  | nil => exact h
  | cons b rest ih =>
    rw [List.getLastD_cons]
    exact ih h.2

/-- A node behind the last one, to which a producer has yet to link it. -/
theorem Linked.append (h : Linked next producers a rest) (hi : next i.slot = none)
    (hlink : ∀ t b c, producers t = .link b c → producers' t = .link b c)
    (ht : producers' t = .link (rest.getLastD a) i) : Linked next producers' a (rest ++ [i]) := by
  induction rest generalizing a with
  | nil => exact ⟨.inr ⟨h, t, ht⟩, hi⟩
  | cons b rest ih =>
    rw [List.getLastD_cons] at ht
    refine ⟨?_, ih h.2 ht⟩
    exact h.1.imp_right fun ⟨hnone, u, hu⟩ => ⟨hnone, u, hlink u a b hu⟩

/-- The link that was outstanding between two nodes. -/
theorem Linked.link {front back : List Idx} {c : Idx} (h : Linked next producers c rest)
    (hsplit : c :: rest = front ++ a :: b :: back) (hnodup : ((c :: rest).map Idx.slot).Nodup)
    (hlink : ∀ t i j, i.slot ≠ a.slot → producers t = .link i j → producers' t = .link i j) :
    Linked (Function.update next a.slot (some b)) producers' c rest := by
  induction rest generalizing c front with
  | nil =>
    have hlength := congrArg List.length hsplit
    simp only [List.length_cons, List.length_nil, List.length_append] at hlength
    omega
  | cons d rest ih =>
    rw [List.map_cons, List.nodup_cons] at hnodup
    cases front with
    | nil =>
      obtain ⟨rfl, rfl, rfl⟩ : c = a ∧ d = b ∧ rest = back := by simpa using hsplit
      refine ⟨.inl (Function.update_self _ _ _), h.2.congr (fun i hi => ?_) fun t i hi j => ?_⟩
      · refine Function.update_of_ne ?_ _ _
        exact fun heq => hnodup.1 (heq ▸ List.mem_map_of_mem hi)
      · exact hlink t i j fun heq => hnodup.1 (heq ▸ List.mem_map_of_mem hi)
    | cons c' front =>
      obtain ⟨rfl, htail⟩ := List.cons_eq_cons.mp hsplit
      have hne : c.slot ≠ a.slot := by
        intro heq
        refine hnodup.1 (heq ▸ List.mem_map_of_mem ?_)
        rw [htail]
        simp
      refine ⟨?_, ih h.2 htail hnodup.2⟩
      rw [Function.update_of_ne hne]
      exact h.1.imp_right fun ⟨hnone, t, ht⟩ => ⟨hnone, t, hlink t c d hne ht⟩

theorem NodesFrom.congr {i : Option Idx} (h : NodesFrom next i free)
    (hnext : ∀ j ∈ free, next' j.slot = next j.slot) : NodesFrom next' i free := by
  induction free generalizing i with
  | nil => exact h
  | cons j free ih =>
    refine ⟨h.1, ?_⟩
    rw [hnext j List.mem_cons_self]
    exact ih h.2 fun k hk => hnext k (List.mem_cons_of_mem j hk)

theorem Inv.chain_of_mem (h : Inv s g) (hi : i ∈ s.head :: g.rest) : g.place i.slot = .chain :=
  (h.chain _).mpr (List.mem_map_of_mem hi)

theorem Inv.free_of_mem (h : Inv s g) (hi : i ∈ g.free) : g.place i.slot = .free :=
  (h.free _).mpr (List.mem_map_of_mem hi)

/-- The indices that were read stay what they are. -/
def KeepsStale (g g' : Ghost T) (next next' : ℕ → Option Idx) : Prop :=
  ∀ i, Stale g i → Stale g' i ∧
    (i.version = g'.version i.slot → i.version = g.version i.slot ∧ next' i.slot = next i.slot)

/-- The slots of one place stay what they are. -/
def Keeps (g g' : Ghost T) (p : Place T) (next next' : ℕ → Option Idx) (item item' : ℕ → Option E) :
    Prop :=
  ∀ q, g.place q = p →
    g'.place q = p ∧ g'.version q = g.version q ∧ next' q = next q ∧ item' q = item q

theorem Owns.congr {p : Place T} (h : Owns g p i) (hkeeps : Keeps g g' p next next' item item') :
    Owns g' p i ∧ next' i.slot = next i.slot ∧ item' i.slot = item i.slot := by
  obtain ⟨hplace, hversion, hnext, hitem⟩ := hkeeps i.slot h.place
  exact ⟨⟨hplace, h.version.trans hversion.symm⟩, hnext, hitem⟩

theorem ProducerAt.congr {head head' : Idx} {p : Producer E} (h : ProducerAt next item g head t p)
    (hown : Keeps g g' (.producer t) next next' item item') (hstale : KeepsStale g g' next next')
    (hlink : ∀ a b, p = .link a b → next' a.slot = none ∧
      ∃ front back, head' :: g'.rest = front ++ a :: b :: back) :
    ProducerAt next' item' g' head' t p := by
  cases p with
  | idle | loadFree | newNode => trivial
  | loadFreeNext e i => exact fun j hj => (hstale j (h j hj)).1
  | casFree e i n =>
    obtain ⟨hstale, hsame⟩ := hstale i h.1
    refine ⟨hstale, fun hversion => ?_⟩
    obtain ⟨hversion, hnext⟩ := hsame hversion
    exact hnext.trans (h.2 hversion)
  | clearNext e i =>
    obtain ⟨howns, -, hitem⟩ := h.1.congr hown
    exact ⟨howns, hitem.trans h.2⟩
  | construct e i | loadTail e i | casTail e i =>
    obtain ⟨howns, hnext, hitem⟩ := h.1.congr hown
    exact ⟨howns, hitem.trans h.2.1, hnext.trans h.2.2⟩
  | link a b => exact hlink a b rfl

theorem ConsumerAt.congr {head : Idx} {consumed : Bool} {c : Consumer E}
    (h : ConsumerAt next item g head consumed c)
    (hown : Keeps g g' .consumer next next' item item') (hitem : item' head.slot = item head.slot)
    (hnext : ∀ n, next head.slot = some n → next' head.slot = some n) :
    ConsumerAt next' item' g' head consumed c := by
  cases c with
  | loadHead | done => exact fun hconsumed => hitem.trans (h hconsumed)
  | loadNext i c => exact ⟨h.1, h.2.1, fun hconsumed => hitem.trans (h.2.2 hconsumed)⟩
  | casFlag | takeLast => exact h
  | casHead i c n =>
    exact ⟨h.1, h.2.1, hnext n h.2.2.1, fun hconsumed => hitem.trans (h.2.2.2 hconsumed)⟩
  | take i => exact ⟨(h.1.congr hown).1, h.2⟩
  | loadFree i e | setNext i e f =>
    obtain ⟨howns, -, hitem⟩ := h.1.congr hown
    exact ⟨howns, hitem.trans h.2.1, h.2.2⟩
  | casFree i e f =>
    obtain ⟨howns, hnext, hitem⟩ := h.1.congr hown
    exact ⟨howns, hitem.trans h.2.1, h.2.2.1, hnext.trans h.2.2.2⟩

/-! ## The parts that one step leaves alone -/

theorem Stale.slot_ne (h : Inv s g) (hi : Stale g i) (hversion : i.version = g.version i.slot)
    {q : ℕ} (hq : g.place q ≠ .free) : i.slot ≠ q := by
  rintro rfl
  exact hq (h.free_of_mem (hi.mem hversion))

/-- No node is taken from the free list. -/
theorem KeepsStale.of_versions (hmade : ∀ q, g.place q ≠ .unmade → g'.place q ≠ .unmade)
    (hversion : ∀ q, g.place q ≠ .unmade → g'.version q = g.version q)
    (hfree : ∀ i ∈ g.free, i ∈ g'.free ∧ next' i.slot = next i.slot) :
    KeepsStale g g' next next' := by
  intro i hi
  have hsame := hversion i.slot hi.made
  refine ⟨⟨hmade _ hi.made, hsame ▸ hi.version_le, fun h => ?_⟩, fun h => ?_⟩
  · exact (hfree i (hi.mem (h.trans hsame))).1
  · exact ⟨h.trans hsame, (hfree i (hi.mem (h.trans hsame))).2⟩

theorem Inv.full_place (h : Inv s g) (hi : i ∈ s.full g.rest) :
    g.place i.slot = .chain ∨ g.place i.slot = .consumer := by
  rw [System.full, List.mem_append] at hi
  have hat := h.consumer
  rcases hi with hi | hi
  · cases hc : s.consumer with
    | takeLast j =>
      rw [hc] at hat hi
      rw [List.mem_singleton.mp hi, hat.1]
      exact .inl (h.chain_of_mem List.mem_cons_self)
    | take j =>
      rw [hc] at hat hi
      rw [List.mem_singleton.mp hi]
      exact .inr hat.1.place
    | _ =>
      rw [hc] at hi
      exact absurd hi List.not_mem_nil
  · refine .inl (h.chain_of_mem ?_)
    split at hi
    · exact List.mem_cons_of_mem _ hi
    · exact hi

theorem Inv.items_congr (h : Inv s g) (hitem : ∀ i ∈ s.full g.rest, item' i.slot = s.item i.slot) :
    (s.full g.rest).map (fun i => item' i.slot) =
      (s.enqueued.drop s.dequeued.length).map some := by
  rw [← h.items]
  exact List.map_congr_left hitem

theorem Inv.free_head (h : Inv s g) (hhead : s.freeListHead = some i) :
    ∃ free, g.free = i :: free ∧ NodesFrom s.next (s.next i.slot) free := by
  have hfrom := h.freeFrom
  rw [hhead] at hfrom
  cases hfree : g.free with
  | nil =>
    rw [hfree] at hfrom
    cases hfrom
  | cons j free =>
    rw [hfree] at hfrom
    obtain rfl : i = j := Option.some.inj hfrom.1
    exact ⟨free, rfl, hfrom.2⟩

theorem Inv.made_of_place (h : Inv s g) {x : Place T} (hplace : g.place i.slot = x)
    (hx : x ≠ .unmade) : s.Made i :=
  (h.made i.slot).mp (hplace ▸ hx)

/-- What is read of the head of the free list is of a node in the list. -/
theorem Inv.stale_free (h : Inv s g) {j : Idx} (hj : s.freeListHead = some j) : Stale g j := by
  obtain ⟨free, hfree, -⟩ := h.free_head hj
  have hmem : j ∈ g.free := by simp [hfree]
  refine ⟨?_, Nat.le_of_eq (h.freeVersion j hmem), fun _ => hmem⟩
  rw [h.free_of_mem hmem]
  simp

/-- A producer waits to link two nodes that follow each other. -/
theorem Inv.link_split (h : Inv s g) (hu : s.producers u = .link a b) :
    s.next a.slot = none ∧ ∃ front back, s.head :: g.rest = front ++ a :: b :: back := by
  have hat := h.producers u
  rwa [hu] at hat

/-- The nodes of a list are known by their slots. -/
theorem split_unique {c d : Idx} {l front back front' back' : List Idx}
    (hnodup : (l.map Idx.slot).Nodup) (hsplit : l = front ++ a :: b :: back)
    (hsplit' : l = front' ++ c :: d :: back') (hslot : c.slot = a.slot) : c = a ∧ d = b := by
  induction front generalizing l front' with
  | nil =>
    cases front' with
    | nil =>
      have heq := hsplit.symm.trans hsplit'
      simp only [List.nil_append, List.cons.injEq] at heq
      exact ⟨heq.1.symm, heq.2.1.symm⟩
    | cons x front' =>
      rw [hsplit', List.cons_append, List.map_cons, List.nodup_cons] at hnodup
      obtain rfl : x = a := (List.cons_eq_cons.mp (hsplit'.symm.trans hsplit)).1
      refine absurd ?_ hnodup.1
      rw [← hslot]
      exact List.mem_map_of_mem (by simp)
  | cons x front ih =>
    rw [hsplit, List.cons_append, List.map_cons, List.nodup_cons] at hnodup
    cases front' with
    | nil =>
      obtain rfl : c = x := (List.cons_eq_cons.mp (hsplit'.symm.trans hsplit)).1
      refine absurd ?_ hnodup.1
      rw [hslot]
      exact List.mem_map_of_mem (by simp)
    | cons y front' =>
      have htail := (List.cons_eq_cons.mp (hsplit.symm.trans hsplit')).2
      exact ih hnodup.2 rfl htail

theorem mem_of_split {l front back : List Idx} (h : l = front ++ a :: b :: back) : a ∈ l := by
  rw [h]
  simp

/-! ## One slot goes to another place -/

theorem place_update {place : ℕ → Place T} {q : ℕ} {p x : Place T} (hp : p ≠ x) (hq : place q ≠ x)
    (r : ℕ) : Function.update place q p r = x ↔ place r = x := by
  by_cases hr : r = q
  · rw [hr, Function.update_self]
    exact iff_of_false hp hq
  · rw [Function.update_of_ne hr]

theorem place_update_new {place : ℕ → Place T} {q : ℕ} {p : Place T} (r : ℕ) :
    Function.update place q p r = p ↔ r = q ∨ place r = p := by
  by_cases hr : r = q
  · simp [hr]
  · simp [hr]

theorem place_update_old {place : ℕ → Place T} {q : ℕ} {p x : Place T} (hp : p ≠ x) (r : ℕ) :
    Function.update place q p r = x ↔ r ≠ q ∧ place r = x := by
  by_cases hr : r = q
  · simp [hr, hp]
  · simp [hr]

theorem Keeps.of_update {q : ℕ} {p x : Place T} (hplace : g'.place = Function.update g.place q p)
    (hq : g.place q ≠ x) (hversion : ∀ r ≠ q, g'.version r = g.version r)
    (hnext : ∀ r ≠ q, next' r = next r) (hitem : ∀ r ≠ q, item' r = item r) :
    Keeps g g' x next next' item item' := by
  intro r hr
  have hne : r ≠ q := by
    rintro rfl
    exact hq hr
  refine ⟨?_, hversion r hne, hnext r hne, hitem r hne⟩
  rw [hplace, Function.update_of_ne hne]
  exact hr

variable [DecidableEq T]

/-- One producer goes on, and the others find what they have read. -/
theorem Inv.producers_update (h : Inv s g) {p : Producer E} {head' : Idx}
    (hat : ProducerAt next' item' g' head' t p)
    (hkeeps : ∀ u ≠ t, Keeps g g' (.producer u) s.next next' s.item item')
    (hstale : KeepsStale g g' s.next next')
    (hlink : ∀ u ≠ t, ∀ a b, s.producers u = .link a b → next' a.slot = none ∧
      ∃ front back, head' :: g'.rest = front ++ a :: b :: back) (u : T) :
    ProducerAt next' item' g' head' u (Function.update s.producers t p u) := by
  by_cases hut : u = t
  · rw [hut, Function.update_self]
    exact hat
  · rw [Function.update_of_ne hut]
    exact (h.producers u).congr (hkeeps u hut) hstale (hlink u hut)

theorem Inv.producersOwn_update (h : Inv s g) {p : Producer E}
    (hothers : ∀ u ≠ t, ∀ q, g'.place q = .producer u ↔ g.place q = .producer u)
    (hown : ∀ q, g'.place q = .producer t ↔ p.own = some q) (u : T) (q : ℕ) :
    g'.place q = .producer u ↔ (Function.update s.producers t p u).own = some q := by
  by_cases hut : u = t
  · rw [hut, Function.update_self]
    exact hown q
  · rw [Function.update_of_ne hut, hothers u hut]
    exact h.producersOwn u q

theorem update_link {p : Producer E} (hnew : ∀ a b, p ≠ .link a b)
    (hu : Function.update producers t p u = .link a b) : producers u = .link a b := by
  by_cases hut : u = t
  · rw [hut, Function.update_self] at hu
    exact absurd hu (hnew a b)
  · rwa [Function.update_of_ne hut] at hu

theorem link_update {p : Producer E} (hold : ∀ a b, producers t ≠ .link a b)
    (hu : producers u = .link a b) : Function.update producers t p u = .link a b := by
  rw [Function.update_of_ne]
  · exact hu
  · rintro rfl
    exact hold a b hu

theorem Inv.once_update (h : Inv s g) {p : Producer E} (hnew : ∀ a b, p ≠ .link a b) (u u' : T)
    (a a' b : Idx) (hu : Function.update s.producers t p u = .link a b)
    (hu' : Function.update s.producers t p u' = .link a' b) : u = u' :=
  h.once u u' a a' b (update_link hnew hu) (update_link hnew hu')

/-- A producer does something that only it can see. -/
theorem Inv.actProducer (h : Inv s g) {p : Producer E}
    (hnext : ∀ q, g.place q ≠ .producer t → next' q = s.next q)
    (hitem : ∀ q, g.place q ≠ .producer t → item' q = s.item q)
    (hold : ∀ a b, s.producers t ≠ .link a b) (hnew : ∀ a b, p ≠ .link a b)
    (hown : p.own = (s.producers t).own) (hat : ProducerAt next' item' g s.head t p) :
    Inv { s.go t p with next := next', item := item' } g := by
  have hchain : ∀ i ∈ s.head :: g.rest, next' i.slot = s.next i.slot ∧
      item' i.slot = s.item i.slot := by
    intro i hi
    have hplace := h.chain_of_mem hi
    exact ⟨hnext _ (by simp [hplace]), hitem _ (by simp [hplace])⟩
  have hfree : ∀ i ∈ g.free, next' i.slot = s.next i.slot := by
    intro i hi
    exact hnext _ (by simp [h.free_of_mem hi])
  have hkeeps : ∀ p : Place T, p ≠ .producer t → Keeps g g p s.next next' s.item item' :=
    fun p hp q hq => ⟨hq, rfl, hnext q (hq ▸ hp), hitem q (hq ▸ hp)⟩
  exact { h with
    linked := h.linked.congr (fun i hi => (hchain i hi).1) fun u a _ b => link_update hold
    freeFrom := h.freeFrom.congr hfree
    freeItem := fun q hq => (hitem q (by simp [hq])).trans (h.freeItem q hq)
    items := h.items_congr fun i hi => by
      apply hitem
      rcases h.full_place hi with hplace | hplace <;> rw [hplace] <;> simp
    producers := by
      refine h.producers_update hat (fun u hu => hkeeps _ (by simpa using hu)) ?_ ?_
      · exact .of_versions (fun q hq => hq) (fun q _ => rfl) fun i hi => ⟨hi, hfree i hi⟩
      · intro u _ a b hu
        obtain ⟨hnone, hsplit⟩ := h.link_split hu
        obtain ⟨front, back, heq⟩ := hsplit
        exact ⟨(hchain a (mem_of_split heq)).1.trans hnone, front, back, heq⟩
    producersOwn := by
      refine h.producersOwn_update (fun u _ q => Iff.rfl) fun q => ?_
      rw [hown]
      exact h.producersOwn t q
    consumer := h.consumer.congr (hkeeps _ (by simp)) (hchain _ List.mem_cons_self).2
      fun n hn => (hchain _ List.mem_cons_self).1.trans hn
    once := h.once_update hnew }

end CServer.Queues.SimpleQueue
