import CServer.Reactor.Results
import Mathlib.Data.List.Basic

/-!
# What the reactor indexes

The slots that are indexed in a step of the loop, the bytes that are written into a buffer, and the
call of `epoll_ctl` for a new connection. The slots that epoll knows are those of the array, since
every descriptor that gets one is below the limit.
-/
namespace CServer.Reactor

/-- The operations of `epoll_ctl` that `nty_event_add` knows. -/
inductive Op where
  | ctlAdd
  | ctlMod
  deriving DecidableEq

/-- A slot `reactor->events[i]`, a byte `ev->buffer[i]` that is written, and how a connection that
has been accepted is registered, if it is. -/
inductive Access where
  | slot (i : ℕ)
  | byte (i : ℕ)
  | connection (op : Option Op)

def Access.Safe : Access → Prop
  | .slot i => i < maxEpollEvents
  | .byte i => i < bufferLength
  | .connection op => op = some .ctlAdd

theorem safe_nil : ∀ access ∈ ([] : List Access), access.Safe :=
  fun _ hmem => absurd hmem List.not_mem_nil

/-- The operation that `nty_event_add` takes. -/
def NtyEvent.op (ev : NtyEvent) : Op := if ev.status = 1 then .ctlMod else .ctlAdd

/-- The bytes that `recv_cb` writes. -/
def recvAccesses (result : Option (List UInt8)) : List Access :=
  let len := ((result.getD []).take bufferLength).length
  (List.range len).map .byte ++ if len > 0 then [.byte len] else []

namespace NtyReactor

/-- The index at which the search for a free slot ends. -/
def freeSlot (s : NtyReactor) : ℕ :=
  (List.range maxEpollEvents).findIdx fun i => (s.slots i).ev.status = 0

/-- `accept_cb`. The message reads the slot at which the search has ended. -/
def acceptAccesses (s : NtyReactor) (clientfd : Option ℕ) (nonblocking : Bool) : List Access :=
  match clientfd with
  | none => []
  | some fd =>
    if (s.slots fd).isOpen then []
    else
      let i := s.freeSlot
      let registered := if i ≠ maxEpollEvents ∧ nonblocking then
        [.slot fd, .connection (some (s.slots fd).ev.op)] else [.connection none]
      ((List.range maxEpollEvents).take (i + 1)).map .slot ++ registered ++ [.slot i]

/-- The callback of slot `k`. -/
def callbackAccesses (s : NtyReactor) (k : ℕ) (calls : Calls) : List Access :=
  match (s.slots k).ev.callback with
  | .accept => s.acceptAccesses calls.clientfd calls.nonblocking
  | .recv => .slot (s.slots k).ev.fd :: recvAccesses calls.io.recv
  | .send => [.slot (s.slots k).ev.fd]

/-- The sweep of the next `n` slots. -/
def sweepAccesses (now : ℤ) : ℕ → NtyReactor → List Access
  | 0, _ => []
  | n + 1, s => .slot s.position :: sweepAccesses now n (s.visit now)

/-- What `ntyreactor_run` does next. -/
def accesses (s : NtyReactor) : Action → List Access
  | .sweep now => if s.waiting = false ∧ s.pending = [] then sweepAccesses now 100 s else []
  | .wait _ => []
  | .event calls =>
    match s.pending with
    | [] => []
    | (k, reported) :: pending =>
      (dispatch (fun t : NtyReactor × List Access => (t.1.slots k).ev.events)
        (fun t => (t.1.callback k calls, t.2 ++ t.1.callbackAccesses k calls)) reported
        ({ s with pending := pending }, [])).2

/-- The step makes no access that is not safe. -/
def Bounded (s : NtyReactor) (a : Action) : Prop := ∀ access ∈ s.accesses a, access.Safe

/-! ## The condition -/

/-- A descriptor that is accepted becomes nonblocking and has a slot that is not active, and some
slot is free. -/
def Placeable (s : NtyReactor) (clientfd : Option ℕ) (nonblocking : Bool) : Prop :=
  ∀ fd, clientfd = some fd → (s.slots fd).isOpen = false →
    s.hasFree ∧ nonblocking = true ∧ fd < maxEpollEvents ∧ (s.slots fd).ev.status ≠ 1

/-- What the callback of slot `k` gets from the kernel can be handled. -/
def Handles (s : NtyReactor) (k : ℕ) (calls : Calls) : Prop :=
  match (s.slots k).ev.callback with
  | .accept => s.Placeable calls.clientfd calls.nonblocking
  | .recv => (calls.io.recv.getD []).length < bufferLength
  | .send => True

def Fitting (s : NtyReactor) : Action → Prop
  | .event calls => ∀ k reported pending, s.pending = (k, reported) :: pending →
      (reported .epollIn ∧ (s.slots k).ev.events = .epollIn ∨
        reported .epollOut ∧ (s.slots k).ev.events = .epollOut) → s.Handles k calls
  | _ => True

/-! ## The invariant -/

variable {sockfd k fd : ℕ} {s : NtyReactor} {now : ℤ} {c : Conn}

/-- epoll knows slots of the array only, and that of the listener only as it was added. -/
structure Known (sockfd : ℕ) (s : NtyReactor) : Prop where
  orderly : s.Orderly sockfd
  listener : (s.slots sockfd).interest ≠ none →
    (s.slots sockfd).Registered .epollIn .accept ∧ (s.slots sockfd).ev.fd = sockfd
  inside : ∀ k, (s.slots k).interest ≠ none → k < maxEpollEvents
  checkpos : s.checkpos ≤ maxEpollEvents

theorem Known.fd_eq (h : s.Known sockfd) (hinterest : (s.slots k).interest ≠ none) :
    (s.slots k).ev.fd = k := by
  by_cases hk : k = sockfd
  · subst hk
    exact (h.listener hinterest).2
  · exact (h.orderly.slots k hk).fd hinterest

theorem Known.setSlot (h : s.Known sockfd) (hk : k ≠ sockfd) (hpending : k ∉ s.pending.map Prod.fst)
    (hc : c.Regular k) (hinside : c.interest ≠ none → k < maxEpollEvents) :
    (s.setSlot k c).Known sockfd where
  orderly := h.orderly.setSlot hpending fun _ => hc
  listener := by
    have hlistener : (s.setSlot k c).slots sockfd = s.slots sockfd :=
      Function.update_of_ne hk.symm _ _
    rw [hlistener]
    exact h.listener
  inside j hj := by
    change ((Function.update s.slots k c) j).interest ≠ none at hj
    by_cases hjk : j = k
    · subst hjk
      rw [Function.update_self] at hj
      exact hinside hj
    · rw [Function.update_of_ne hjk] at hj
      exact h.inside j hj
  checkpos := h.checkpos

theorem Known.tail (h : s.Known sockfd) {p : ℕ × (Events → Bool)}
    {pending : List (ℕ × (Events → Bool))} (hpending : s.pending = p :: pending) :
    Known sockfd { s with pending := pending } ∧ p.1 ∉ pending.map Prod.fst := by
  obtain ⟨hrest, hnot⟩ := h.orderly.tail hpending
  exact ⟨⟨hrest, h.listener, h.inside, h.checkpos⟩, hnot⟩

/-- A descriptor that has a slot is set for its connection. -/
theorem acceptCb_eq (hclosed : (s.slots fd).isOpen = false) (hfree : s.hasFree)
    (hlt : fd < maxEpollEvents) (now : ℤ) :
    s.acceptCb (some fd) true now =
      (s.setSlot fd ⟨(s.slots fd).ev, true, none, [], [], none⟩).setSlot fd
        (Conn.added ⟨(s.slots fd).ev, true, none, [], [], none⟩ fd .recv now) := by
  have hsame : (s.setSlot fd ⟨(s.slots fd).ev, true, none, [], [], none⟩).hasFree ↔ s.hasFree :=
    hasFree_setSlot rfl
  rw [NtyReactor.acceptCb, if_neg (by simp [hclosed])]
  dsimp only
  rw [if_neg (not_not.2 (hsame.2 hfree)), if_neg (not_not.2 rfl), if_neg (not_le.2 hlt)]

/-- `accept_cb` registers a connection in a slot of the array. -/
theorem Known.acceptCb (h : s.Known sockfd) (hopen : (s.slots sockfd).isOpen = true)
    {clientfd : Option ℕ} {nonblocking : Bool} (hplaceable : s.Placeable clientfd nonblocking)
    (now : ℤ) :
    (s.acceptCb clientfd nonblocking now).Known sockfd := by
  cases clientfd with
  | none => exact h
  | some fd =>
    by_cases hclosed : (s.slots fd).isOpen = true
    · rw [NtyReactor.acceptCb, if_pos hclosed]
      exact h
    · replace hclosed : (s.slots fd).isOpen = false := by simpa using hclosed
      obtain ⟨hfree, rfl, hlt, -⟩ := hplaceable fd rfl hclosed
      have hfd : fd ≠ sockfd := by
        rintro rfl
        exact absurd (hopen.symm.trans hclosed) (by decide)
      have hpending := h.orderly.notMem_pending hfd hclosed
      have hclient := h.setSlot hfd hpending (c := ⟨(s.slots fd).ev, true, none, [], [], none⟩)
        (.of_fresh rfl rfl) fun hsome => absurd rfl hsome
      rw [acceptCb_eq hclosed hfree hlt]
      exact hclient.setSlot hfd hpending (.added rfl rfl rfl now) fun _ => hlt

/-! ## The sweep -/

theorem position_lt (h : s.checkpos ≤ maxEpollEvents) : s.position < maxEpollEvents := by
  unfold position
  split
  · decide
  · omega

theorem visit_checkpos (s : NtyReactor) (now : ℤ) : (s.visit now).checkpos = s.position + 1 := by
  unfold visit
  dsimp only
  split
  · rfl
  · rfl

theorem visit_pending (s : NtyReactor) (now : ℤ) : (s.visit now).pending = s.pending := by
  unfold visit
  dsimp only
  split
  · rfl
  · rfl

theorem sweepAccesses_safe (n : ℕ) (h : s.checkpos ≤ maxEpollEvents) :
    ∀ access ∈ sweepAccesses now n s, access.Safe := by
  induction n generalizing s with
  | zero => exact safe_nil
  | succ n ih =>
    intro access hmem
    have hposition := position_lt h
    obtain rfl | hmem := List.mem_cons.1 hmem
    · exact hposition
    · refine ih ?_ access hmem
      rw [visit_checkpos]
      exact hposition

/-- What the sweep closes has left epoll. -/
theorem closeExpired_interest (s : NtyReactor) (k : ℕ) (now : ℤ) :
    ((s.closeExpired k now).slots (s.slots k).ev.fd).interest = none := by
  by_cases hk : (s.slots k).ev.fd = k
  · simp [NtyReactor.closeExpired, NtyReactor.setSlot, hk, Conn.setEv, Conn.close]
  · simp [NtyReactor.closeExpired, NtyReactor.setSlot, Function.update_of_ne hk, Conn.close]

theorem Known.closeExpired (h : s.Known sockfd) (hpending : s.pending = []) (k : ℕ) (now : ℤ) :
    (s.closeExpired k now).Known sockfd := by
  have hback : ∀ j, ((s.closeExpired k now).slots j).interest ≠ none →
      (s.slots j).interest ≠ none := by
    intro j hj
    refine closeExpired_imp (P := fun c => c.interest ≠ none) now ?_ (fun _ _ => id) hj
    exact fun c hclose => absurd rfl hclose
  refine ⟨h.orderly.closeExpired hpending k now, fun hsome => ?_, fun j hj => h.inside j (hback j hj),
    h.checkpos⟩
  obtain ⟨hlistener, hown⟩ := h.listener (hback sockfd hsome)
  have hfd : sockfd ≠ (s.slots k).ev.fd := by
    intro hfd
    rw [hfd] at hsome
    exact hsome (closeExpired_interest s k now)
  have hk : sockfd ≠ k := by
    rintro rfl
    exact hfd hown.symm
  have hsame : (s.closeExpired k now).slots sockfd = s.slots sockfd :=
    (Function.update_of_ne hk _ _).trans (Function.update_of_ne hfd _ _)
  rw [hsame]
  exact ⟨hlistener, hown⟩

theorem Known.visit (h : s.Known sockfd) (hpending : s.pending = []) (now : ℤ) :
    (s.visit now).Known sockfd := by
  have hposition : s.position + 1 ≤ maxEpollEvents := position_lt h.checkpos
  have hslots := h.orderly
  have hmoved : Known sockfd { s with checkpos := s.position + 1 } :=
    ⟨⟨hslots.slots, hslots.nodup, hslots.pending, hslots.reported, hslots.waiting⟩, h.listener,
      h.inside, hposition⟩
  unfold NtyReactor.visit
  dsimp only
  split
  · exact hmoved.closeExpired hpending s.position now
  · exact hmoved

theorem Known.sweep (h : s.Known sockfd) (hpending : s.pending = []) (now : ℤ) :
    (s.sweep now).Known sockfd ∧ (s.sweep now).pending = [] := by
  have hstep : ∀ (s : NtyReactor) (now : ℤ), (s.Known sockfd ∧ s.pending = []) → True →
      (s.visit now).Known sockfd ∧ (s.visit now).pending = [] :=
    fun s now h _ => ⟨h.1.visit h.2 now, (visit_pending s now).trans h.2⟩
  have halong : Runs.Along NtyReactor.visit (fun _ _ => True) s (List.replicate 100 now) :=
    Runs.along_of_forall fun _ _ => trivial
  have hall := (Runs.invariant_rule hstep ⟨h, hpending⟩ halong).1
  exact (Runs.throughout_iff_initial _ _).1 hall _ [] (List.append_nil _).symm

/-! ## The callbacks -/

theorem freeSlot_lt : s.freeSlot < maxEpollEvents ↔ s.hasFree := by
  have hsearch : s.freeSlot < (List.range maxEpollEvents).length ↔ _ := List.findIdx_lt_length
  rw [List.length_range] at hsearch
  refine hsearch.trans ?_
  simp [hasFree]

theorem freeSlot_le (s : NtyReactor) : s.freeSlot ≤ maxEpollEvents := by
  have hle : s.freeSlot ≤ (List.range maxEpollEvents).length := List.findIdx_le_length
  rw [List.length_range] at hle
  exact hle

theorem op_eq_ctlAdd {ev : NtyEvent} : ev.op = .ctlAdd ↔ ev.status ≠ 1 := by
  unfold NtyEvent.op
  split
  · rename_i hstatus
    exact iff_of_false (by decide) (not_not.2 hstatus)
  · rename_i hstatus
    exact iff_of_true rfl hstatus

/-- The search and the message stay in the array if there is a free slot. -/
theorem acceptAccesses_safe_iff {clientfd : Option ℕ} {nonblocking : Bool} :
    (∀ access ∈ s.acceptAccesses clientfd nonblocking, access.Safe) ↔
      s.Placeable clientfd nonblocking := by
  cases clientfd with
  | none => exact iff_of_true safe_nil nofun
  | some fd =>
    unfold acceptAccesses
    by_cases hopen : (s.slots fd).isOpen = true
    · dsimp only
      rw [if_pos hopen]
      refine iff_of_true safe_nil fun fd' hfd hclosed => ?_
      obtain rfl := Option.some.inj hfd
      exact absurd (hopen.symm.trans hclosed) (by decide)
    · have hclosed : (s.slots fd).isOpen = false := by simpa using hopen
      have hplaceable : s.Placeable (some fd) nonblocking ↔
          s.hasFree ∧ nonblocking = true ∧ fd < maxEpollEvents ∧ (s.slots fd).ev.status ≠ 1 := by
        refine ⟨fun h => h fd rfl hclosed, fun h fd' hfd _ => ?_⟩
        obtain rfl := Option.some.inj hfd
        exact h
      have hlooked : ∀ i ∈ (List.range maxEpollEvents).take (s.freeSlot + 1), i < maxEpollEvents :=
        fun i hi => List.mem_range.1 (List.mem_of_mem_take hi)
      have hsearch : (∀ access ∈ ((List.range maxEpollEvents).take (s.freeSlot + 1)).map Access.slot,
          access.Safe) ↔ True := by
        rw [List.forall_mem_map]
        exact iff_true_intro hlooked
      have hfree := (lt_iff_le_and_ne.trans (and_iff_right s.freeSlot_le)).symm
      dsimp only
      rw [if_neg hopen, hplaceable, ← op_eq_ctlAdd, ← freeSlot_lt, List.forall_mem_append,
        List.forall_mem_append, hsearch, true_and, List.forall_mem_singleton]
      by_cases hregistered : s.freeSlot ≠ maxEpollEvents ∧ nonblocking = true
      · rw [if_pos hregistered, List.forall_mem_cons, List.forall_mem_singleton]
        have hop : Access.Safe (.connection (some (s.slots fd).ev.op)) ↔
            (s.slots fd).ev.op = .ctlAdd := Option.some_inj
        rw [hop]
        show (fd < maxEpollEvents ∧ _) ∧ s.freeSlot < maxEpollEvents ↔ _
        rw [iff_true_intro hregistered.2, true_and, and_comm]
      · rw [if_neg hregistered, List.forall_mem_singleton]
        refine iff_of_false (fun h => absurd h.1 nofun) fun h => hregistered ⟨hfree.2 h.1, h.2.1⟩

theorem recvAccesses_safe_iff {result : Option (List UInt8)} :
    (∀ access ∈ recvAccesses result, access.Safe) ↔ (result.getD []).length < bufferLength := by
  generalize hbytes : result.getD [] = bytes
  have hlength : (bytes.take bufferLength).length = min bufferLength bytes.length :=
    List.length_take
  unfold recvAccesses
  dsimp only
  rw [hbytes, List.forall_mem_append, List.forall_mem_map, hlength]
  have hwritten : (∀ i ∈ List.range (min bufferLength bytes.length), (Access.byte i).Safe) ↔ True := by
    refine iff_true_intro fun i hi => ?_
    exact (List.mem_range.1 hi).trans_le (Nat.min_le_left _ _)
  rw [hwritten, true_and]
  by_cases hlen : min bufferLength bytes.length > 0
  · rw [if_pos hlen, List.forall_mem_singleton]
    show min bufferLength bytes.length < bufferLength ↔ _
    omega
  · rw [if_neg hlen]
    have hempty : bytes.length = 0 := by
      have hpos : 0 < bufferLength := by decide
      omega
    rw [hempty]
    exact iff_of_true safe_nil (by decide)

/-- The callbacks of registered slots index their own slot. -/
theorem Known.callbackAccesses_safe_iff (h : s.Known sockfd)
    (hinterest : (s.slots k).interest ≠ none) (calls : Calls) :
    (∀ access ∈ s.callbackAccesses k calls, access.Safe) ↔ s.Handles k calls := by
  have hslot : (Access.slot k).Safe := h.inside k hinterest
  unfold callbackAccesses Handles
  rw [h.fd_eq hinterest]
  split
  · exact acceptAccesses_safe_iff
  · rw [List.forall_mem_cons, recvAccesses_safe_iff]
    exact and_iff_right hslot
  · rw [List.forall_mem_singleton]
    exact iff_true_intro hslot

/-! ## The steps -/

theorem event_accesses (h : s.Orderly sockfd) {reported : Events → Bool}
    {pending : List (ℕ × (Events → Bool))} (hpending : s.pending = (k, reported) :: pending)
    (calls : Calls) :
    s.accesses (.event calls) = if reported .epollIn ∧ (s.slots k).ev.events = .epollIn ∨
        reported .epollOut ∧ (s.slots k).ev.events = .epollOut then
      callbackAccesses { s with pending := pending } k calls else [] := by
  unfold accesses
  simp only [hpending]
  rw [dispatch_eq _ _ (h.once hpending)]
  split
  · rfl
  · rfl

/-- A step of the reactor is safe if and only if what it gets from the kernel fits. -/
theorem Known.bounded_iff (h : s.Known sockfd) (a : Action) : s.Bounded a ↔ s.Fitting a := by
  unfold Bounded
  cases a with
  | sweep now =>
    refine iff_of_true ?_ trivial
    rw [accesses]
    split
    · exact sweepAccesses_safe 100 h.checkpos
    · exact safe_nil
  | wait events => exact iff_of_true safe_nil trivial
  | event calls =>
    cases hpending : s.pending with
    | nil =>
      have hnone : s.accesses (.event calls) = [] := by
        rw [accesses, hpending]
      rw [hnone]
      refine iff_of_true safe_nil fun k reported pending heq => ?_
      exact absurd (hpending.symm.trans heq) (List.cons_ne_nil _ _).symm
    | cons p pending =>
      obtain ⟨k, reported⟩ := p
      have hfitting : s.Fitting (.event calls) ↔
          (reported .epollIn ∧ (s.slots k).ev.events = .epollIn ∨
            reported .epollOut ∧ (s.slots k).ev.events = .epollOut → s.Handles k calls) := by
        refine ⟨fun hall => hall k reported pending hpending, ?_⟩
        intro hhandles k' reported' pending' heq
        obtain ⟨hhead, -⟩ := List.cons.inj (hpending.symm.trans heq)
        obtain ⟨rfl, rfl⟩ := Prod.mk.inj hhead
        exact hhandles
      have hinterest := h.orderly.pending (k, reported) (hpending ▸ List.mem_cons_self)
      rw [event_accesses h.orderly hpending, hfitting]
      split
      · rename_i htests
        rw [imp_iff_right htests]
        exact (h.tail hpending).1.callbackAccesses_safe_iff hinterest calls
      · rename_i htests
        exact iff_of_true safe_nil fun h => absurd h htests

theorem Known.callback (h : s.Known sockfd) (hinterest : (s.slots k).interest ≠ none)
    (hpending : k ∉ s.pending.map Prod.fst) {calls : Calls} (hhandles : s.Handles k calls) :
    (s.callback k calls).Known sockfd := by
  have hown := h.fd_eq hinterest
  by_cases hk : k = sockfd
  · subst hk
    have hlistener := (h.listener hinterest).1
    rw [callback_listener hlistener.callback]
    unfold Handles at hhandles
    rw [hlistener.callback] at hhandles
    exact h.acceptCb hlistener.isOpen hhandles calls.io.now
  · have hslot := h.orderly.slots k hk
    rw [NtyReactor.callback]
    split
    · rename_i haccept
      exact absurd haccept (hslot.callback hinterest)
    · dsimp only
      rw [hown]
      exact h.setSlot hk hpending (hslot.call hinterest calls.io) fun _ => h.inside k hinterest

theorem Known.toWait (h : s.Known sockfd) (hnone : s.pending = []) :
    Known sockfd { s with waiting := true } :=
  ⟨⟨h.orderly.slots, h.orderly.nodup, h.orderly.pending, h.orderly.reported, fun _ => hnone⟩,
    h.listener, h.inside, h.checkpos⟩

theorem Known.step (h : s.Known sockfd) (a : Action) (hfitting : s.Fitting a) :
    (s.step a).Known sockfd := by
  cases a with
  | sweep now =>
    rw [NtyReactor.step]
    split
    · rename_i hturn
      obtain ⟨hswept, hnone⟩ := h.sweep hturn.2 now
      exact hswept.toWait hnone
    · exact h
  | wait events =>
    have hwait := h.orderly.wait events
    rw [NtyReactor.step] at hwait ⊢
    split
    · rename_i hready
      rw [if_pos hready] at hwait
      exact ⟨hwait, h.listener, h.inside, h.checkpos⟩
    · exact h
  | event calls =>
    cases hpending : s.pending with
    | nil =>
      rw [NtyReactor.step]
      simp only [hpending]
      exact h
    | cons p pending =>
      obtain ⟨k, reported⟩ := p
      obtain ⟨hrest, hnot⟩ := h.tail hpending
      have hinterest := h.orderly.pending (k, reported) (hpending ▸ List.mem_cons_self)
      rw [event_eq h.orderly hpending]
      split
      · rename_i htests
        exact hrest.callback hinterest hnot (hfitting k reported pending hpending htests)
      · exact hrest

/-- What `ntyreactor_addlistener` indexes. -/
def startAccesses (sockfd : ℕ) : List Access := [.slot sockfd, .slot sockfd]

theorem Known.start (memory : ℕ → NtyEvent) (hsockfd : sockfd < maxEpollEvents) (now : ℤ) :
    (start memory sockfd now).Known sockfd := by
  have hlistener : (NtyReactor.start memory sockfd now).slots sockfd =
      Conn.added ⟨memory sockfd, true, none, [], [], none⟩ sockfd .accept now := if_pos rfl
  have hother : ∀ k ≠ sockfd, (NtyReactor.start memory sockfd now).slots k =
      ⟨memory k, false, none, [], [], none⟩ := fun k hk => if_neg hk
  refine ⟨⟨fun k hk => ?_, List.nodup_nil, nofun, nofun, fun _ => rfl⟩, fun hsome => ?_, fun k hk => ?_,
    Nat.zero_le _⟩
  · rw [hother k hk]
    exact .of_fresh rfl rfl
  · rw [hlistener] at hsome ⊢
    by_cases hstatus : (memory sockfd).status = 1
    · exact absurd (added_interest hstatus rfl sockfd .accept now) hsome
    · rw [added_eq hstatus rfl rfl]
      exact ⟨⟨rfl, rfl, rfl, rfl, rfl⟩, rfl⟩
  · by_contra hout
    have hne : k ≠ sockfd := by
      rintro rfl
      exact hout hsockfd
    rw [hother k hne] at hk
    exact hk rfl

/-- In a run of the reactor every slot that is indexed lies in the array, every byte that is written
in the buffer, and every new connection is added to epoll, exactly if the listener is below the limit
and each step gets from the kernel what it can handle. -/
theorem bounded_iff_fitting (memory : ℕ → NtyEvent) (sockfd : ℕ) (now : ℤ) (actions : List Action) :
    ((∀ access ∈ startAccesses sockfd, access.Safe) ∧
        Runs.Along step Bounded (start memory sockfd now) actions) ↔
      sockfd < maxEpollEvents ∧ Runs.Along step Fitting (start memory sockfd now) actions := by
  have hfirst : (∀ access ∈ startAccesses sockfd, access.Safe) ↔ sockfd < maxEpollEvents := by
    unfold startAccesses
    rw [List.forall_mem_cons, List.forall_mem_singleton]
    exact and_self_iff
  rw [hfirst]
  refine and_congr_right fun hsockfd => ?_
  exact Runs.along_iff_along (fun s a h => h.bounded_iff a) (fun s a h => h.step a)
    (Known.start memory hsockfd now)

/-! ## A message that fills the buffer -/

/-- A sweep that finds no slot expired only moves on. -/
theorem visits_unexpired (h : ∀ k, ¬(s.slots k).expired now) (n : ℕ) :
    ∃ i, Runs.finalState visit s (List.replicate n now) = { s with checkpos := i } := by
  induction n generalizing s with
  | zero => exact ⟨s.checkpos, rfl⟩
  | succ n ih =>
    have hvisit : s.visit now = { s with checkpos := s.position + 1 } := if_neg (h s.position)
    show ∃ i, Runs.finalState visit (s.visit now) (List.replicate n now) = _
    rw [hvisit]
    exact ih h

/-- A round without an expired slot: the next event of a descriptor that epoll knows is handled. -/
theorem round_unexpired (now : ℤ) (hturn : s.waiting = false ∧ s.pending = [])
    (h : ∀ k, ¬(s.slots k).expired now) (hinterest : (s.slots k).interest = some .epollIn) :
    ∃ i, (s.step (.sweep now)).step (.wait [(k, fun _ => true)]) =
      { s with checkpos := i, pending := [(k, (s.slots k).reported fun _ => true)] } := by
  obtain ⟨i, hsweep⟩ := visits_unexpired h 100
  have hfirst : s.step (.sweep now) = { s with checkpos := i, waiting := true } := by
    rw [step, if_pos hturn, sweep, hsweep]
  have hready : true = true ∧
      Reportable { s with checkpos := i, waiting := true } [(k, fun _ => true)] := by
    refine ⟨rfl, List.nodup_singleton k, fun p hp => ?_⟩
    rw [List.mem_singleton.1 hp]
    show (s.slots k).interest ≠ none
    rw [hinterest]
    exact Option.some_ne_none _
  refine ⟨i, ?_⟩
  rw [hfirst, step, if_pos hready]
  simp [hturn.1]

theorem not_expired (hactive : (s.slots k).ev.lastActive = now) : ¬(s.slots k).expired now := by
  rintro ⟨-, hduration⟩
  rw [hactive] at hduration
  omega

theorem start_lastActive {memory : ℕ → NtyEvent} (sockfd : ℕ) (now : ℤ)
    (hmemory : ∀ k, (memory k).lastActive = now) (k : ℕ) :
    ((start memory sockfd now).slots k).ev.lastActive = now := by
  unfold start
  dsimp only
  split
  · unfold Conn.added ntyEventAdd
    dsimp only
    split
    · rfl
    · rfl
  · exact hmemory k

/-- The slots when `malloc` gives memory that is zero. -/
def zeroed : ℕ → NtyEvent := fun _ => ⟨0, .none, .accept, 0, [], 0, 0⟩

/-- A message that fills the buffer: the terminator is written behind it. -/
theorem buffer_overrun : ¬((∀ access ∈ startAccesses 4, access.Safe) ∧
    Runs.Along step Bounded (start zeroed 4 0)
      [.sweep 0, .wait [(4, fun _ => true)], .event ⟨⟨none, 0, 0⟩, some 5, true⟩,
       .sweep 0, .wait [(5, fun _ => true)],
       .event ⟨⟨some (List.replicate 4096 97), 0, 0⟩, none, true⟩]) := by
  rintro ⟨-, -, -, haccept, -, -, hreceive, -⟩
  have hstart : (start zeroed 4 0).Known 4 := Known.start zeroed (by decide) 0
  have hactive := start_lastActive 4 0 (fun k => show (zeroed k).lastActive = 0 from rfl)
  -- the listener accepts the descriptor 5
  have hready := (hstart.step (.sweep 0) trivial).step (.wait [(4, fun _ => true)]) trivial
  obtain ⟨i, hround⟩ := round_unexpired (s := start zeroed 4 0) (k := 4) 0 ⟨rfl, rfl⟩
    (fun k => not_expired (hactive k)) rfl
  rw [hround] at hready haccept hreceive
  have haccepted := hready.step _ ((hready.bounded_iff _).1 haccept)
  rw [event_eq hready.orderly rfl, if_pos (Or.inl ⟨rfl, rfl⟩), callback_listener rfl,
    acceptCb_eq rfl ⟨0, by decide, rfl⟩ (by decide)] at haccepted hreceive
  -- and receives the message
  have hreceiving := (haccepted.step (.sweep 0) trivial).step (.wait [(5, fun _ => true)]) trivial
  let client : Conn := ⟨zeroed 5, true, none, [], [], none⟩
  let s : NtyReactor := setSlot
    (setSlot { start zeroed 4 0 with checkpos := i, pending := [] } 5 client) 5
    (client.added 5 .recv 0)
  have hactive' : ∀ k, (s.slots k).ev.lastActive = 0 := by
    intro k
    by_cases hk : k = 5
    · subst hk
      rfl
    · have hother : s.slots k = (start zeroed 4 0).slots k :=
        (Function.update_of_ne hk _ _).trans (Function.update_of_ne hk _ _)
      rw [hother]
      exact hactive k
  obtain ⟨j, hround⟩ := round_unexpired (s := s) (k := 5) 0 ⟨rfl, rfl⟩
    (fun k => not_expired (hactive' k)) rfl
  replace hreceiving := hround ▸ hreceiving
  replace hreceive := hround ▸ hreceive
  have hlength := (hreceiving.bounded_iff _).1 hreceive 5 _ [] rfl (Or.inl ⟨rfl, rfl⟩)
  change (List.replicate 4096 (97 : UInt8)).length < bufferLength at hlength
  rw [List.length_replicate] at hlength
  exact absurd hlength (by decide)

end NtyReactor

end CServer.Reactor
