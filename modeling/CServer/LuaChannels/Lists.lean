import CServer.Foundation.Ring
import CServer.LuaChannels.Model

/-!
# The lists of waiting threads

What `searchmatch` and `waitonlist` do to a list, as a list of threads. A search of a list that holds
no match goes round the ring and does not return.
-/
namespace CServer.LuaChannels

open Linked

variable {procs : Thread → Proc} {channel : Bytes} {t p first : Thread} {l front back : List Thread}

/-- A member of the control blocks after one of them is written. -/
theorem member_update {α : Type*} (member : Proc → α) (q : Proc) :
    member (Function.update procs p q t) = if t = p then member q else member (procs t) := by
  rw [Function.update_apply, apply_ite member]

theorem member_update_same {α : Type*} {member : Proc → α} {q : Proc}
    (h : member q = member (procs p)) :
    member (Function.update procs p q t) = member (procs t) := by
  rw [member_update member, h]
  split_ifs with htp
  · rw [htp]
  · rfl

@[simp] theorem setNext_next (v : Option Thread) :
    (setNext procs p v t).next = if t = p then v else (procs t).next :=
  member_update Proc.next _

@[simp] theorem setNext_previous (v : Option Thread) :
    (setNext procs p v t).previous = (procs t).previous :=
  member_update_same rfl

@[simp] theorem setNext_channel (v : Option Thread) :
    (setNext procs p v t).channel = (procs t).channel :=
  member_update_same rfl

@[simp] theorem setPrevious_previous (v : Option Thread) :
    (setPrevious procs p v t).previous = if t = p then v else (procs t).previous :=
  member_update Proc.previous _

@[simp] theorem setPrevious_next (v : Option Thread) :
    (setPrevious procs p v t).next = (procs t).next :=
  member_update_same rfl

@[simp] theorem setPrevious_channel (v : Option Thread) :
    (setPrevious procs p v t).channel = (procs t).channel :=
  member_update_same rfl

@[simp] theorem setChannel_channel (v : Option Bytes) :
    (setChannel procs p v t).channel = if t = p then v else (procs t).channel :=
  member_update Proc.channel _

@[simp] theorem setChannel_next (v : Option Bytes) :
    (setChannel procs p v t).next = (procs t).next :=
  member_update_same rfl

@[simp] theorem setChannel_previous (v : Option Bytes) :
    (setChannel procs p v t).previous = (procs t).previous :=
  member_update_same rfl

/-- The threads of the list, linked to a ring by their control blocks. -/
def Queued (procs : Thread → Proc) (l : List Thread) : Prop :=
  Ring (fun t => (procs t).next) (fun t => (procs t).previous) l

theorem Queued.congr {procs' : Thread → Proc} (h : Queued procs l)
    (hnext : ∀ t ∈ l, (procs' t).next = (procs t).next)
    (hprevious : ∀ t ∈ l, (procs' t).previous = (procs t).previous) : Queued procs' l :=
  Ring.congr h hnext hprevious

theorem Queued.setChannel (h : Queued procs l) (v : Option Bytes) :
    Queued (setChannel procs p v) l :=
  h.congr (fun _ _ => setChannel_next v) (fun _ _ => setChannel_previous v)

/-- The test of `searchmatch` at a thread. -/
def matchesAt (procs : Thread → Proc) (channel : Bytes) (t : Thread) : Bool :=
  match (procs t).channel with
  | none => false
  | some name => cString channel = cString name

theorem searchLoop_succ (hnamed : (procs t).channel ≠ none) (turns : ℕ) :
    searchLoop procs channel (turns + 1) (some t) =
      if matchesAt procs channel t then some (some t)
      else searchLoop procs channel turns (procs t).next := by
  cases hname : (procs t).channel with
  | none => exact absurd hname hnamed
  | some name => simp [searchLoop, matchesAt, hname]

/-- The search stops at the first match. -/
theorem searchLoop_found (turns : ℕ)
    (hchain : List.IsChain (Adjacent (fun t => (procs t).next) (fun t => (procs t).previous))
      (front ++ [p]))
    (hnamed : ∀ t ∈ front ++ [p], (procs t).channel ≠ none)
    (hfront : ∀ t ∈ front, matchesAt procs channel t = false)
    (hp : matchesAt procs channel p = true) :
    searchLoop procs channel turns (front ++ [p]).head? =
      if front.length < turns then some (some p) else none := by
  induction front generalizing turns with
  | nil =>
    cases turns with
    | zero => rfl
    | succ turns =>
      show searchLoop procs channel (turns + 1) (some p) = _
      rw [searchLoop_succ (hnamed p (by simp)), if_pos hp]
      simp
  | cons t front ih =>
    cases turns with
    | zero => rfl
    | succ turns =>
      have hrest : (procs t).next = (front ++ [p]).head? := by
        rw [List.cons_append] at hchain
        cases hl : front ++ [p] with
        | nil => simp at hl
        | cons u m =>
          rw [hl] at hchain
          exact (List.isChain_cons_cons.mp hchain).1.1
      show searchLoop procs channel (turns + 1) (some t) = _
      rw [searchLoop_succ (hnamed t (by simp)), hfront t (by simp), hrest,
        ih turns hchain.tail (fun u hu => hnamed u (List.mem_cons_of_mem t hu))
          (fun u hu => hfront u (List.mem_cons_of_mem t hu))]
      simp

/-- Without a match the search goes on for ever. -/
theorem searchLoop_endless (h : Queued procs l) (hnone : ∀ t ∈ l, matchesAt procs channel t = false)
    (ht : t ∈ l) (turns : ℕ) : searchLoop procs channel turns (some t) = none := by
  induction turns generalizing t with
  | zero => rfl
  | succ turns ih =>
    cases hname : (procs t).channel with
    | none => simp [searchLoop, hname]
    | some name =>
      obtain ⟨⟨u, hu, hadj⟩, -⟩ := h.neighbours ht
      have hnext : (procs t).next = some u := hadj.1
      rw [searchLoop_succ (by simp [hname]), hnone t ht, hnext]
      exact ih hu

/-- What a search of a list returns. -/
theorem searchLoop_spec (h : Queued procs l) (hnamed : ∀ t ∈ l, (procs t).channel ≠ none) {turns : ℕ}
    {result : Option Thread} (hres : searchLoop procs channel turns l.head? = some result) :
    (l = [] ∧ result = none) ∨
      ∃ front p back, l = front ++ p :: back ∧ result = some p ∧
        (∀ t ∈ front, matchesAt procs channel t = false) ∧ matchesAt procs channel p = true := by
  cases hfind : l.find? (matchesAt procs channel) with
  | none =>
    left
    cases l with
    | nil => exact ⟨rfl, by cases turns <;> exact (Option.some.inj hres).symm⟩
    | cons first rest =>
      have hnone : ∀ t ∈ first :: rest, matchesAt procs channel t = false := by
        intro t ht
        simpa using List.find?_eq_none.mp hfind t ht
      rw [List.head?_cons, searchLoop_endless h hnone (by simp)] at hres
      exact absurd hres (by simp)
  | some p =>
    right
    obtain ⟨hp, front, back, hl, hfront⟩ := List.find?_eq_some_iff_append.mp hfind
    have hchain := h.isChain
    have hsplit : l = (front ++ [p]) ++ back := by simpa using hl
    have hhead : l.head? = (front ++ [p]).head? := by
      rw [hsplit]
      cases front <;> rfl
    rw [hsplit] at hchain
    rw [hhead, searchLoop_found turns (List.isChain_append.mp hchain).1
      (fun t ht => hnamed t (hsplit ▸ List.mem_append_left back ht))
      (fun t ht => by simpa using hfront t ht) hp] at hres
    refine ⟨front, p, back, hl, ?_, fun t ht => by simpa using hfront t ht, hp⟩
    split_ifs at hres
    exact (Option.some.inj hres).symm

/-- A search returns when the list is empty or holds a match, and otherwise never. -/
theorem searchLoop_returns_iff (h : Queued procs l) (hnamed : ∀ t ∈ l, (procs t).channel ≠ none) :
    (∃ turns result, searchLoop procs channel turns l.head? = some result) ↔
      l = [] ∨ ∃ t ∈ l, matchesAt procs channel t = true := by
  constructor
  · rintro ⟨turns, result, hres⟩
    obtain ⟨hnil, -⟩ | ⟨front, p, back, rfl, -, -, hp⟩ := searchLoop_spec h hnamed hres
    · exact Or.inl hnil
    · exact Or.inr ⟨p, by simp, hp⟩
  · rintro (rfl | ⟨t, ht, hmatch⟩)
    · exact ⟨0, none, rfl⟩
    · obtain ⟨p, hfind⟩ := Option.isSome_iff_exists.mp (List.find?_isSome.mpr ⟨t, ht, hmatch⟩)
      obtain ⟨hp, front, back, rfl, hfront⟩ := List.find?_eq_some_iff_append.mp hfind
      have hsplit : front ++ p :: back = (front ++ [p]) ++ back := by simp
      have hchain := h.isChain
      rw [hsplit] at hchain hnamed
      refine ⟨front.length + 1, some p, ?_⟩
      have hhead : (front ++ p :: back).head? = (front ++ [p]).head? := by cases front <;> rfl
      rw [hhead, searchLoop_found _ (List.isChain_append.mp hchain).1
        (fun u hu => hnamed u (List.mem_append_left back hu))
        (fun u hu => by simpa using hfront u hu) hp,
        if_pos (Nat.lt_succ_self _)]

/-- A match leaves its list. -/
theorem unlink_spec {σ : State} {list : Operation} (h : Queued σ.procs (front ++ p :: back))
    (hhead : σ.wait list = (front ++ p :: back).head?) :
    ∃ procs, unlink σ list p =
        some { σ with procs := procs, wait := Function.update σ.wait list (front ++ back).head? } ∧
      Queued procs (front ++ back) ∧ (∀ t, (procs t).channel = (σ.procs t).channel) ∧
      ∀ t ∉ front ++ p :: back, procs t = σ.procs t := by
  have hp : p ∈ front ++ p :: back := by simp
  obtain ⟨⟨z, hz, hpz⟩, y, hy, hyp⟩ := h.neighbours hp
  have hnext : (σ.procs p).next = some z := hpz.1
  have hprevious : (σ.procs p).previous = some y := hyp.2
  have hnew : (if σ.wait list = some p then
      if (σ.procs p).next = some p then none else (σ.procs p).next
      else σ.wait list) = (front ++ back).head? := by
    cases front with
    | nil =>
      have hring : Ring _ _ (p :: back) := h
      rw [hhead, List.nil_append, List.head?_cons, if_pos rfl, hnext]
      have hchain := (ring_cons_iff.mp hring).2
      cases back with
      | nil =>
        have hself : (σ.procs p).next = some p := (List.isChain_pair.mp hchain).1
        rw [← hnext, if_pos hself]
        rfl
      | cons u rest =>
        have hpu : (σ.procs p).next = some u := (List.isChain_cons_cons.mp hchain).1.1
        have hne : u ≠ p := fun heq => (List.nodup_cons.mp hring.1).1 (by simp [heq])
        rw [← hnext, hpu, if_neg (by simpa using hne)]
        rfl
    | cons u rest =>
      have hne : u ≠ p := fun heq => (List.nodup_cons.mp h.1).1 (by simp [heq])
      rw [hhead]
      show (if some u = some p then _ else some u) = some u
      rw [if_neg (by simpa using hne)]
  have hthrough : (setNext σ.procs y (some z) p).next = some z := by
    rw [setNext_next, hnext]
    simp
  refine ⟨setPrevious (setNext σ.procs y (some z)) z (some y), ?_, ?_, ?_, ?_⟩
  · unfold unlink
    rw [hnew, hprevious, hnext]
    simp only [hthrough, setNext_previous, hprevious]
  · apply Ring.unlink h
    · intro c hc
      have hcl : c ∈ front ++ p :: back := by
        simp only [List.mem_append, List.mem_cons] at hc ⊢
        tauto
      have hiff : (σ.procs c).next = some p ↔ c = y := by
        rw [h.next_eq_iff hcl hp, hprevious]
        simp [eq_comm]
      simp only [setPrevious_next, setNext_next, hiff, hnext]
    · intro c hc
      have hcl : c ∈ front ++ p :: back := by
        simp only [List.mem_append, List.mem_cons] at hc ⊢
        tauto
      have hiff : (σ.procs c).previous = some p ↔ c = z := by
        rw [← h.next_eq_iff hp hcl, hnext]
        simp [eq_comm]
      simp only [setPrevious_previous, setNext_previous, hiff, hprevious]
  · intro t
    simp
  · intro t ht
    have hty : t ≠ y := fun heq => ht (heq ▸ hy)
    have htz : t ≠ z := fun heq => ht (heq ▸ hz)
    simp [setPrevious, setNext, hty, htz]

/-- A thread that waits is the last one of its list. -/
theorem waitonlist_spec {σ : State} {list : Operation} (h : Queued σ.procs l)
    (hhead : σ.wait list = l.head?) (hp : p ∉ l) (channel : Bytes) :
    ∃ procs, waitonlist σ p channel list =
        some { σ with
          procs := procs
          wait := Function.update σ.wait list (l ++ [p]).head?
          place := Function.update σ.place p (.waiting list) } ∧
      Queued procs (l ++ [p]) ∧
      (∀ t, (procs t).channel = if t = p then some channel else (σ.procs t).channel) ∧
      ∀ t ∉ l ++ [p], procs t = σ.procs t := by
  cases l with
  | nil =>
    refine ⟨setChannel (setNext (setPrevious σ.procs p (some p)) p (some p)) p (some channel),
      ?_, ?_, ?_, ?_⟩
    · unfold waitonlist
      rw [hhead]
      rfl
    · apply Queued.setChannel
      exact ring_singleton (by simp) (by simp)
    · intro t
      simp
    · intro t ht
      have htp : t ≠ p := by simpa using ht
      simp [setChannel, setNext, setPrevious, htp]
  | cons first rest =>
    have hlast : (σ.procs first).previous = some ((first :: rest).getLast (by simp)) :=
      Ring.previous_first h
    have hlmem : (first :: rest).getLast (by simp) ∈ first :: rest := List.getLast_mem _
    generalize (first :: rest).getLast (by simp) = last at hlast hlmem
    have hpf : p ≠ first := fun heq => hp (by simp [heq])
    have hpl : p ≠ last := fun heq => hp (heq ▸ hlmem)
    have hlinked : linkLast σ.procs p first =
        some (setNext (setPrevious (setNext (setPrevious σ.procs p (some last)) p (some first)) first
          (some p)) last (some p)) := by
      unfold linkLast
      simp [hlast, hpf]
    refine ⟨setChannel (setNext (setPrevious (setNext (setPrevious σ.procs p (some last)) p
      (some first)) first (some p)) last (some p)) p (some channel), ?_, ?_, ?_, ?_⟩
    · unfold waitonlist
      rw [hhead, List.head?_cons]
      simp only [hlinked, Option.map_some]
      rfl
    · apply Queued.setChannel
      apply Ring.push h hp
      · constructor
        · simp [hpl]
        · simp [hpf, hlast]
      · intro c hc
        have hcp : c ≠ p := fun heq => hp (heq ▸ hc)
        have hiff : (σ.procs c).next = some first ↔ c = last := by
          rw [Ring.next_eq_iff h hc (by simp), hlast]
          simp [eq_comm]
        simp only [setNext_next, setPrevious_next, hiff, if_neg hcp]
      · intro c hc
        have hcp : c ≠ p := fun heq => hp (heq ▸ hc)
        simp only [setNext_previous, setPrevious_previous, if_neg hcp]
    · intro t
      simp
    · intro t ht
      have htp : t ≠ p := fun heq => ht (by simp [heq])
      have htf : t ≠ first := fun heq => ht (by simp [heq])
      have htl : t ≠ last := fun heq => ht (List.mem_append_left [p] (heq ▸ hlmem))
      simp [setChannel, setNext, setPrevious, htp, htf, htl]

/-- A thread waits in the function of the operation. -/
def State.Blocked (σ : State) (operation : Operation) (t : Thread) : Prop :=
  σ.place t = .waiting operation ∧ (σ.procs t).channel ≠ none

/-- The lists hold the threads of `queue`, in this order: those that are blocked. -/
structure Listed (σ : State) (queue : Operation → List Thread) : Prop where
  linked : ∀ operation, Queued σ.procs (queue operation)
  head : ∀ operation, σ.wait operation = (queue operation).head?
  mem_iff : ∀ operation t, t ∈ queue operation ↔ σ.Blocked operation t

variable {σ σ' : State} {queue : Operation → List Thread} {operation : Operation} {turns : ℕ}

theorem Listed.not_other (h : Listed σ queue) (ht : t ∈ queue operation) :
    t ∉ queue operation.other := by
  intro hother
  have hplace :=
    ((h.mem_iff operation t).mp ht).1.symm.trans ((h.mem_iff operation.other t).mp hother).1
  cases operation <;> simp [Operation.other] at hplace

theorem Listed.not_running (h : Listed σ queue) (ht : σ.place t = .running) :
    t ∉ queue operation := by
  intro hmem
  have hplace := ht.symm.trans ((h.mem_iff operation t).mp hmem).1
  exact absurd hplace (by simp)

/-- A call that meets nobody: the list on the other side is empty, and the caller waits. -/
structure Waits (σ σ' : State) (queue : Operation → List Thread) (operation : Operation) (t : Thread)
    (channel : Bytes) : Prop where
  alone : queue operation.other = []
  listed : Listed σ' (Function.update queue operation (queue operation ++ [t]))
  channel_eq : ∀ u, (σ'.procs u).channel = if u = t then some channel else (σ.procs u).channel
  stack_eq : σ'.stack = σ.stack
  place_eq : σ'.place = Function.update σ.place t (.waiting operation)

/-- A call that meets `p`: it is the first on the other side that waits on the channel. -/
structure Met (σ σ' : State) (queue : Operation → List Thread) (operation : Operation) (t : Thread)
    (channel : Bytes) (front : List Thread) (p : Thread) (back : List Thread) : Prop where
  split : queue operation.other = front ++ p :: back
  passed : ∀ u ∈ front, matchesAt σ.procs channel u = false
  found : matchesAt σ.procs channel p = true
  listed : Listed σ' (Function.update queue operation.other (front ++ back))
  channel_eq : ∀ u, (σ'.procs u).channel = if u = p then none else (σ.procs u).channel
  stack_eq : σ'.stack = (moveBetween σ operation t p).stack
  place_eq : σ'.place = σ.place

theorem Operation.other_ne (operation : Operation) : operation.other ≠ operation := by
  cases operation <;> decide

theorem Operation.other_other (operation : Operation) : operation.other.other = operation := by
  cases operation <;> rfl

theorem Operation.eq_or_other (operation operation' : Operation) :
    operation' = operation ∨ operation' = operation.other := by
  cases operation <;> cases operation' <;> decide

theorem Listed.waits (h : Listed σ queue) (ht : σ.place t = .running)
    (halone : queue operation.other = []) (hres : waitonlist σ t channel operation = some σ') :
    Waits σ σ' queue operation t channel := by
  obtain ⟨procs, heq, hqueued, hchannel, -⟩ :=
    waitonlist_spec (h.linked operation) (h.head operation) (h.not_running ht) channel
  rw [hres] at heq
  have hσ' := Option.some.inj heq
  subst hσ'
  refine ⟨halone, ⟨?_, ?_, ?_⟩, hchannel, rfl, rfl⟩
  · intro operation'
    rcases operation.eq_or_other operation' with rfl | rfl
    · rw [Function.update_self]
      exact hqueued
    · rw [Function.update_of_ne (Operation.other_ne _), halone]
      exact ring_nil
  · intro operation'
    rcases operation.eq_or_other operation' with rfl | rfl
    · simp
    · simp [Function.update_of_ne (Operation.other_ne _), h.head]
  · intro operation' u
    unfold State.Blocked
    simp only [hchannel]
    by_cases hut : u = t
    · subst hut
      rcases operation.eq_or_other operation' with rfl | rfl
      · simp
      · have hne : operation ≠ operation.other := fun heq => Operation.other_ne operation heq.symm
        simp [Function.update_of_ne (Operation.other_ne _), halone, hne]
    · rw [if_neg hut, Function.update_of_ne hut]
      rcases operation.eq_or_other operation' with rfl | rfl
      · simpa [hut, State.Blocked] using h.mem_iff operation' u
      · rw [Function.update_of_ne (Operation.other_ne _)]
        exact h.mem_iff operation.other u

theorem moveBetween_procs (p : Thread) : (moveBetween σ operation t p).procs = σ.procs := by
  cases operation <;> rfl

theorem moveBetween_wait (p : Thread) : (moveBetween σ operation t p).wait = σ.wait := by
  cases operation <;> rfl

theorem moveBetween_place (p : Thread) : (moveBetween σ operation t p).place = σ.place := by
  cases operation <;> rfl

theorem Listed.met (h : Listed σ queue) (hsplit : queue operation.other = front ++ p :: back)
    (hpassed : ∀ u ∈ front, matchesAt σ.procs channel u = false)
    (hfound : matchesAt σ.procs channel p = true) {τ : State}
    (hunlink : unlink σ operation.other p = some τ)
    (hσ' : σ' = { moveBetween τ operation t p with
      procs := setChannel (moveBetween τ operation t p).procs p none }) :
    Met σ σ' queue operation t channel front p back := by
  have hlinked := h.linked operation.other
  have hhead := h.head operation.other
  rw [hsplit] at hlinked hhead
  obtain ⟨procs, heq, hqueued, hchannel, hsame⟩ := unlink_spec hlinked hhead
  rw [hunlink] at heq
  have hτ := Option.some.inj heq
  have hchannel' : ∀ u, (σ'.procs u).channel = if u = p then none else (σ.procs u).channel := by
    intro u
    rw [hσ', moveBetween_procs, setChannel_channel, hτ]
    simp only [hchannel]
  have hplace : σ'.place = σ.place := by
    rw [hσ', hτ]
    exact moveBetween_place p
  have hnd := List.nodup_middle.mp hlinked.1
  refine ⟨hsplit, hpassed, hfound, ⟨?_, ?_, ?_⟩, hchannel', ?_, hplace⟩
  · intro operation'
    rw [hσ', moveBetween_procs, hτ]
    rcases operation.eq_or_other operation' with rfl | rfl
    · rw [Function.update_of_ne (Operation.other_ne _).symm]
      have hold : ∀ u ∈ queue operation', procs u = σ.procs u := by
        intro u hu
        apply hsame
        rw [← hsplit]
        exact h.not_other hu
      have hkept : Queued procs (queue operation') :=
        (h.linked operation').congr (fun u hu => by rw [hold u hu]) (fun u hu => by rw [hold u hu])
      exact hkept.setChannel none
    · rw [Function.update_self]
      exact hqueued.setChannel none
  · intro operation'
    have hwait : σ'.wait = Function.update σ.wait operation.other (front ++ back).head? := by
      rw [hσ', hτ]
      exact moveBetween_wait p
    rw [hwait]
    rcases operation.eq_or_other operation' with rfl | rfl
    · rw [Function.update_of_ne (Operation.other_ne _).symm,
        Function.update_of_ne (Operation.other_ne _).symm]
      exact h.head operation'
    · rw [Function.update_self, Function.update_self]
  · intro operation' u
    have hp := (h.mem_iff operation.other p).mp (by rw [hsplit]; simp)
    unfold State.Blocked
    rw [hchannel', hplace]
    by_cases hup : u = p
    · subst hup
      rcases operation.eq_or_other operation' with rfl | rfl
      · have hnot : u ∉ queue operation'.other.other := h.not_other (by rw [hsplit]; simp)
        have hback : operation'.other.other = operation' := by cases operation' <;> rfl
        rw [hback] at hnot
        simp [Function.update_of_ne (Operation.other_ne _).symm, hnot]
      · have hnot := (List.nodup_cons.mp hnd).1
        rw [Function.update_self, if_pos rfl]
        exact iff_of_false hnot (fun hblocked => hblocked.2 rfl)
    · rw [if_neg hup]
      rcases operation.eq_or_other operation' with rfl | rfl
      · rw [Function.update_of_ne (Operation.other_ne _).symm]
        exact h.mem_iff operation' u
      · rw [Function.update_self]
        have hmem := h.mem_iff operation.other u
        rw [hsplit] at hmem
        simpa [hup, State.Blocked] using hmem
  · rw [hσ', hτ]
    cases operation <;> rfl

/-- What a call does that returns or waits. -/
theorem Listed.exchange (h : Listed σ queue) (ht : σ.place t = .running) {partner : Option Thread}
    (hres : exchange σ operation t channel turns = some (σ', partner)) :
    (partner = none ∧ Waits σ σ' queue operation t channel) ∨
      ∃ front p back, partner = some p ∧ Met σ σ' queue operation t channel front p back := by
  unfold LuaChannels.exchange searchmatch at hres
  rw [h.head] at hres
  cases hloop : searchLoop σ.procs channel turns (queue operation.other).head? with
  | none => simp [hloop] at hres
  | some result =>
    rw [hloop] at hres
    have hnamed : ∀ u ∈ queue operation.other, (σ.procs u).channel ≠ none :=
      fun u hu => ((h.mem_iff operation.other u).mp hu).2
    obtain ⟨halone, rfl⟩ | ⟨front, p, back, hsplit, rfl, hpassed, hfound⟩ :=
      searchLoop_spec (h.linked operation.other) hnamed hloop
    · left
      cases hwait : waitonlist σ t channel operation with
      | none => simp [hwait] at hres
      | some τ =>
        simp only [hwait, Option.map_some, Option.some.injEq, Prod.mk.injEq] at hres
        obtain ⟨rfl, rfl⟩ := hres
        exact ⟨rfl, h.waits ht halone hwait⟩
    · right
      cases hunlink : unlink σ operation.other p with
      | none => simp [hunlink] at hres
      | some τ =>
        simp only [hunlink, Option.map_some, Option.some.injEq, Prod.mk.injEq] at hres
        exact ⟨front, p, back, hres.2.symm, h.met hsplit hpassed hfound hunlink hres.1.symm⟩

/-- A call makes its step when nobody waits on the other side or somebody does on its channel;
otherwise it goes round the list and keeps `kernel_access`. -/
theorem Listed.exchange_returns_iff (h : Listed σ queue) (ht : σ.place t = .running) :
    (∃ turns result, LuaChannels.exchange σ operation t channel turns = some result) ↔
      queue operation.other = [] ∨
        ∃ u ∈ queue operation.other, matchesAt σ.procs channel u = true := by
  have hnamed : ∀ u ∈ queue operation.other, (σ.procs u).channel ≠ none :=
    fun u hu => ((h.mem_iff operation.other u).mp hu).2
  constructor
  · rintro ⟨turns, ⟨σ', partner⟩, hres⟩
    obtain ⟨-, hw⟩ | ⟨front, p, back, -, hm⟩ := h.exchange ht hres
    · exact Or.inl hw.alone
    · refine Or.inr ⟨p, ?_, hm.found⟩
      rw [hm.split]
      simp
  · intro hcan
    obtain ⟨turns, result, hloop⟩ :=
      (searchLoop_returns_iff (h.linked operation.other) hnamed).mpr hcan
    refine ⟨turns, ?_⟩
    unfold LuaChannels.exchange searchmatch
    rw [h.head, hloop]
    obtain ⟨-, rfl⟩ | ⟨front, p, back, hsplit, rfl, -, -⟩ :=
      searchLoop_spec (h.linked operation.other) hnamed hloop
    · obtain ⟨procs, hwait, -⟩ :=
        waitonlist_spec (h.linked operation) (h.head operation) (h.not_running ht) channel
      apply Option.isSome_iff_exists.mp
      simp only [hwait, Option.map_some, Option.isSome_some]
    · have hlinked := h.linked operation.other
      have hhead := h.head operation.other
      rw [hsplit] at hlinked hhead
      obtain ⟨procs, hunlink, -⟩ := unlink_spec hlinked hhead
      apply Option.isSome_iff_exists.mp
      simp only [hunlink, Option.map_some, Option.isSome_some]

end CServer.LuaChannels
