import CServer.Reactor.Sweep

/-!
# The listener and the sweep

The sweep looks at the slot of the listener as at any other, and no callback of the listener sets the
time there. So the listener stays open and registered exactly as long as the sweep does not come to its
slot when it is sixty seconds old. A connection that the sweep closes had no event in that time: each
event sets the time of the slot.
-/
namespace CServer.Reactor

variable {c : Conn} {k sockfd fd : ℕ} {s : NtyReactor} {now : ℤ}

/-- The slot `k` of a connection: if epoll knows it then it is set for its descriptor, and its time is
that of the last event. -/
structure Conn.Regular (c : Conn) (k : ℕ) : Prop where
  status : c.interest ≠ none → c.ev.status = 1
  fd : c.interest ≠ none → c.ev.fd = k
  isOpen : c.interest ≠ none → c.isOpen = true
  callback : c.interest ≠ none → c.ev.callback ≠ .accept
  active : c.ev.status = 1 → c.ev.fd = k → ∀ t, c.handled = some t → c.ev.lastActive = t

/-- A slot that epoll does not know and that is not active is regular. -/
theorem Conn.Regular.of_none (hinterest : c.interest = none) (hstatus : c.ev.status = 0) :
    c.Regular k where
  status h := absurd hinterest h
  fd h := absurd hinterest h
  isOpen h := absurd hinterest h
  callback h := absurd hinterest h
  active h := absurd (hstatus.symm.trans h) (by decide)

/-- So is one of a new descriptor. -/
theorem Conn.Regular.of_fresh (hinterest : c.interest = none) (hhandled : c.handled = none) :
    c.Regular k where
  status h := absurd hinterest h
  fd h := absurd hinterest h
  isOpen h := absurd hinterest h
  callback h := absurd hinterest h
  active _ _ t ht := absurd (hhandled.symm.trans ht) (by simp)

theorem Conn.Regular.close (h : c.Regular k) : c.close.Regular k where
  status hsome := absurd rfl hsome
  fd hsome := absurd rfl hsome
  isOpen hsome := absurd rfl hsome
  callback hsome := absurd rfl hsome
  active := h.active

/-- A slot that is removed, set for the time of the call and added again. -/
theorem Conn.Regular.readded (hopen : c.isOpen = true) (hstatus : c.ev.status = 1)
    (hhandled : c.handled = some now) {ev : NtyEvent} (hzero : ev.status = 0) (hfd : ev.fd = k)
    (hcallback : ev.callback ≠ .accept) (hactive : ev.lastActive = now) (e : Events) :
    (ntyEventAdd ((ntyEventDel c).setEv ev) e).Regular k := by
  rw [add_del_eq hopen hstatus hzero]
  refine ⟨fun _ => rfl, fun _ => hfd, fun _ => hopen, fun _ => hcallback, fun _ _ t ht => ?_⟩
  exact hactive.trans (Option.some.inj (hhandled.symm.trans ht))

/-- `recv_cb` leaves the slot set for the time of the call, or closes the descriptor. -/
theorem Conn.Regular.recvCb (hopen : c.isOpen = true) (hstatus : c.ev.status = 1) (hfd : c.ev.fd = k)
    (hhandled : c.handled = some now) (result : Option (List UInt8)) :
    (recvCb c result now).Regular k := by
  rw [Reactor.recvCb]
  generalize (result.getD []).take bufferLength = bytes
  let c' : Conn := { c with
    ev := { c.ev with buffer := bytes ++ c.ev.buffer.drop bytes.length }
    received := c.received ++ bytes }
  have hdel := del_eq (c := c') hstatus
  dsimp only
  split
  · refine .readded (c := c') hopen hstatus hhandled ?_ ?_ (by simp [ntyEventSet]) rfl .epollOut
    · show (terminated (ntyEventDel c').ev _).status = 0
      rw [terminated_status, hdel]
    · show (ntyEventDel c').ev.fd = k
      rw [hdel]
      exact hfd
  · refine .of_none rfl ?_
    show (ntyEventDel c').ev.status = 0
    rw [hdel]

/-- `send_cb` does so as well. -/
theorem Conn.Regular.sendCb (hopen : c.isOpen = true) (hstatus : c.ev.status = 1) (hfd : c.ev.fd = k)
    (hhandled : c.handled = some now) (n : ℕ) : (sendCb c n now).Regular k := by
  rw [Reactor.sendCb]
  let c' : Conn := { c with sent := c.sent ++ c.ev.buffer.take (min n c.ev.length) }
  have hdel := del_eq (c := c') hstatus
  dsimp only
  split
  · refine .readded (c := c') hopen hstatus hhandled ?_ ?_ (by simp [ntyEventSet]) rfl .epollIn
    · show (ntyEventDel c').ev.status = 0
      rw [hdel]
    · show (ntyEventDel c').ev.fd = k
      rw [hdel]
      exact hfd
  · have hclose := del_eq (c := c.close) hstatus
    rw [hclose]
    exact .of_none rfl rfl

theorem Conn.Regular.call (h : c.Regular k) (hinterest : c.interest ≠ none) (io : Io) :
    (c.call io).Regular k := by
  have hopen := h.isOpen hinterest
  have hstatus := h.status hinterest
  have hfd := h.fd hinterest
  rw [Conn.call]
  dsimp only
  split
  · exact .recvCb (c := { c with handled := some io.now }) hopen hstatus hfd rfl io.recv
  · exact .sendCb (c := { c with handled := some io.now }) hopen hstatus hfd rfl io.send
  · rename_i hcallback
    exact absurd hcallback (h.callback hinterest)

/-- A slot that is set for a new descriptor. -/
theorem Conn.Regular.added (hopen : c.isOpen = true) (hinterest : c.interest = none)
    (hhandled : c.handled = none) (now : ℤ) : (c.added k .recv now).Regular k := by
  by_cases hstatus : c.ev.status = 1
  · refine .of_fresh (added_interest hstatus hinterest k .recv now) ?_
    simp [Conn.added, ntyEventAdd, Conn.setEv, hstatus, ntyEventSet, hhandled]
  · rw [added_eq hstatus hopen hinterest]
    refine ⟨fun _ => rfl, fun _ => rfl, fun _ => rfl, fun _ => by simp [ntyEventSet], fun _ _ t ht => ?_⟩
    exact absurd (hhandled.symm.trans ht) (by simp)

namespace NtyReactor

/-! ## The property and the invariant -/

/-- The descriptor of the listener is open and registered, and no connection was closed by the sweep less
than sixty seconds after an event of it. -/
structure Listens (sockfd : ℕ) (s : NtyReactor) : Prop where
  isOpen : (s.slots sockfd).isOpen = true
  interest : (s.slots sockfd).interest = some .epollIn
  idle : ∀ p ∈ s.swept, ∀ t, p.2 = some t → p.1 - t ≥ 60
  inside : s.overrun = false

/-- The connections are regular, and the events that are pending are those that epoll knows. -/
structure Orderly (sockfd : ℕ) (s : NtyReactor) : Prop where
  slots : ∀ k ≠ sockfd, (s.slots k).Regular k
  nodup : (s.pending.map Prod.fst).Nodup
  pending : ∀ p ∈ s.pending, (s.slots p.1).interest ≠ none
  reported : ∀ p ∈ s.pending, ∀ e, p.2 e = true → (s.slots p.1).interest = some e
  waiting : s.waiting = true → s.pending = []

/-- A slot whose events are handled can be changed. -/
theorem Orderly.setSlot (h : s.Orderly sockfd) (hpending : k ∉ s.pending.map Prod.fst)
    (hc : k ≠ sockfd → c.Regular k) : (s.setSlot k c).Orderly sockfd where
  slots j hj := by
    show ((Function.update s.slots k c) j).Regular j
    by_cases hjk : j = k
    · subst hjk
      rw [Function.update_self]
      exact hc hj
    · rw [Function.update_of_ne hjk]
      exact h.slots j hj
  nodup := h.nodup
  pending p hp := by
    have hne : p.1 ≠ k := fun heq => hpending (heq ▸ List.mem_map_of_mem hp)
    show ((Function.update s.slots k c) p.1).interest ≠ none
    rw [Function.update_of_ne hne]
    exact h.pending p hp
  reported p hp e he := by
    have hne : p.1 ≠ k := fun heq => hpending (heq ▸ List.mem_map_of_mem hp)
    show ((Function.update s.slots k c) p.1).interest = some e
    rw [Function.update_of_ne hne]
    exact h.reported p hp e he
  waiting := h.waiting

/-- A descriptor that is not open waits for no event. -/
theorem Orderly.notMem_pending (h : s.Orderly sockfd) (hfd : fd ≠ sockfd)
    (hclosed : (s.slots fd).isOpen = false) : fd ∉ s.pending.map Prod.fst := by
  intro hmem
  obtain ⟨p, hp, rfl⟩ := List.mem_map.mp hmem
  have hopen := (h.slots p.1 hfd).isOpen (h.pending p hp)
  rw [hclosed] at hopen
  exact absurd hopen (by decide)

/-- The next event that is pending is handled. -/
theorem Orderly.tail (h : s.Orderly sockfd) {p : ℕ × (Events → Bool)}
    {pending : List (ℕ × (Events → Bool))} (hpending : s.pending = p :: pending) :
    Orderly sockfd { s with pending := pending } ∧ p.1 ∉ pending.map Prod.fst := by
  have hnodup := h.nodup
  have hwaiting := h.waiting
  rw [hpending, List.map_cons, List.nodup_cons] at hnodup
  refine ⟨⟨h.slots, hnodup.2, fun q hq => h.pending q ?_, fun q hq => h.reported q ?_,
    fun hw => ?_⟩, hnodup.1⟩
  · exact hpending ▸ List.mem_cons_of_mem _ hq
  · exact hpending ▸ List.mem_cons_of_mem _ hq
  · rw [hpending] at hwaiting
    exact absurd (hwaiting hw) (by simp)

theorem Orderly.wait (h : s.Orderly sockfd) (events : List (ℕ × (Events → Bool))) :
    (s.step (.wait events)).Orderly sockfd := by
  rw [step]
  split
  · rename_i hready
    obtain ⟨-, hnodup, hknown⟩ := hready
    refine ⟨h.slots, ?_, ?_, ?_, fun hw => absurd hw (by simp)⟩
    · simpa [Function.comp_def] using hnodup
    · intro p hp
      obtain ⟨q, hq, rfl⟩ := List.mem_map.mp hp
      exact hknown q hq
    · intro p hp e he
      obtain ⟨q, hq, rfl⟩ := List.mem_map.mp hp
      have hboth : q.2 e = true ∧ (s.slots q.1).interest = some e := by
        simpa [Conn.reported] using he
      exact hboth.2
  · exact h

/-- The sweep closes a descriptor, and epoll does not know the expired slot any more. -/
theorem Orderly.closeExpired (h : s.Orderly sockfd) (hpending : s.pending = []) (k : ℕ) (now : ℤ) :
    (s.closeExpired k now).Orderly sockfd := by
  have hnone : ∀ j, j ∉ s.pending.map Prod.fst := by simp [hpending]
  have hlogged : Orderly sockfd { s with swept := if (s.slots (s.slots k).ev.fd).isOpen then
      (now, (s.slots (s.slots k).ev.fd).handled) :: s.swept else s.swept } :=
    ⟨h.slots, h.nodup, h.pending, h.reported, h.waiting⟩
  have hclosed := hlogged.setSlot (hnone _) fun hfd => (h.slots (s.slots k).ev.fd hfd).close
  refine hclosed.setSlot (hnone _) fun hk => .of_none ?_ rfl
  show (Function.update s.slots (s.slots k).ev.fd (s.slots (s.slots k).ev.fd).close k).interest = none
  by_cases hsame : k = (s.slots k).ev.fd
  · rw [← hsame, Function.update_self]
    rfl
  · rw [Function.update_of_ne hsame]
    by_contra hsome
    exact hsame ((h.slots k hk).fd hsome).symm

/-- An event is reported for input or for output. -/
theorem Orderly.once (h : s.Orderly sockfd) {reported : Events → Bool}
    {pending : List (ℕ × (Events → Bool))} (hpending : s.pending = (k, reported) :: pending)
    (hin : reported .epollIn = true) : reported .epollOut = false := by
  have hreported := h.reported (k, reported) (by simp [hpending])
  by_contra hout
  have hboth := (hreported _ hin).symm.trans (hreported .epollOut (by simpa using hout))
  exact absurd hboth (by simp)

theorem event_eq (h : s.Orderly sockfd) {reported : Events → Bool}
    {pending : List (ℕ × (Events → Bool))} (hpending : s.pending = (k, reported) :: pending)
    (calls : Calls) :
    s.step (.event calls) = if reported .epollIn ∧ (s.slots k).ev.events = .epollIn ∨
        reported .epollOut ∧ (s.slots k).ev.events = .epollOut then
      callback { s with pending := pending } k calls else { s with pending := pending } := by
  rw [step]
  simp only [hpending]
  exact dispatch_eq (fun s : NtyReactor => (s.slots k).ev.events) (fun s => s.callback k calls)
    (h.once hpending) _

structure Regular (sockfd : ℕ) (s : NtyReactor) : Prop where
  listener : (s.slots sockfd).Registered .epollIn .accept
  own : (s.slots sockfd).ev.fd = sockfd
  slots : ∀ k ≠ sockfd, (s.slots k).Regular k
  nodup : (s.pending.map Prod.fst).Nodup
  pending : ∀ p ∈ s.pending, (s.slots p.1).interest ≠ none
  reported : ∀ p ∈ s.pending, ∀ e, p.2 e = true → (s.slots p.1).interest = some e
  waiting : s.waiting = true → s.pending = []
  idle : ∀ p ∈ s.swept, ∀ t, p.2 = some t → p.1 - t ≥ 60
  inside : s.overrun = false

theorem Regular.orderly (h : s.Regular sockfd) : s.Orderly sockfd :=
  ⟨h.slots, h.nodup, h.pending, h.reported, h.waiting⟩

theorem Regular.listens (h : s.Regular sockfd) : s.Listens sockfd :=
  ⟨h.listener.isOpen, h.listener.interest, h.idle, h.inside⟩

/-- A slot off the listener whose events are handled can be changed. -/
theorem Regular.setSlot (h : s.Regular sockfd) (hk : k ≠ sockfd) (hpending : k ∉ s.pending.map Prod.fst)
    (hc : c.Regular k) : (s.setSlot k c).Regular sockfd := by
  have hslots := h.orderly.setSlot hpending fun _ => hc
  have hlistener : (s.setSlot k c).slots sockfd = s.slots sockfd := Function.update_of_ne hk.symm _ _
  refine ⟨?_, ?_, hslots.slots, hslots.nodup, hslots.pending, hslots.reported, hslots.waiting, h.idle,
    h.inside⟩
  · rw [hlistener]
    exact h.listener
  · rw [hlistener]
    exact h.own

/-! ## The sweep -/

/-- The sweep finds no expired slot with the descriptor of the listener, nor one that was never set and
holds by chance the number of a connection that had an event. -/
def Spared (sockfd : ℕ) (s : NtyReactor) (now : ℤ) : Prop :=
  let ev := (s.slots s.position).ev
  (s.slots s.position).expired now → ev.fd ≠ sockfd ∧
    (ev.fd ≠ s.position → (s.slots ev.fd).isOpen = true →
      ∀ t, (s.slots ev.fd).handled = some t → now - t ≥ 60)

/-- A sweep from the state spares the listener. -/
def Spares (sockfd : ℕ) (s : NtyReactor) (now : ℤ) : Prop :=
  Runs.Along visit (Spared sockfd) s (List.replicate 100 now)

/-- The state in a sweep. -/
structure Sweeping (sockfd : ℕ) (s : NtyReactor) : Prop where
  regular : s.Regular sockfd
  pending : s.pending = []

theorem Regular.closeExpired (h : s.Regular sockfd) (hpending : s.pending = [])
    (hexpired : (s.slots k).expired now) (hfd : (s.slots k).ev.fd ≠ sockfd)
    (hidle : (s.slots k).ev.fd ≠ k → (s.slots (s.slots k).ev.fd).isOpen = true →
      ∀ t, (s.slots (s.slots k).ev.fd).handled = some t → now - t ≥ 60) :
    (s.closeExpired k now).Regular sockfd := by
  have hk : k ≠ sockfd := by
    rintro rfl
    exact hfd h.own
  -- the connection had no event in the last sixty seconds
  have hlog : ∀ p ∈ (if (s.slots (s.slots k).ev.fd).isOpen then
      (now, (s.slots (s.slots k).ev.fd).handled) :: s.swept else s.swept), ∀ t, p.2 = some t →
      p.1 - t ≥ 60 := by
    intro p hp t ht
    split at hp
    · rename_i hopen
      obtain rfl | hp := List.mem_cons.mp hp
      · by_cases hsame : (s.slots k).ev.fd = k
        · rw [hsame] at ht
          have hactive := (h.slots k hk).active hexpired.1 hsame t ht
          have hduration := hexpired.2
          rw [hactive] at hduration
          exact hduration
        · exact hidle hsame hopen t ht
      · exact h.idle p hp t ht
    · exact h.idle p hp t ht
  have hclosed := h.orderly.closeExpired hpending k now
  have hlistener : (s.closeExpired k now).slots sockfd = s.slots sockfd :=
    (Function.update_of_ne hk.symm _ _).trans (Function.update_of_ne hfd.symm _ _)
  refine ⟨?_, ?_, hclosed.slots, hclosed.nodup, hclosed.pending, hclosed.reported, hclosed.waiting, hlog,
    h.inside⟩
  · rw [hlistener]
    exact h.listener
  · rw [hlistener]
    exact h.own

theorem Sweeping.visit (h : s.Sweeping sockfd) (hspared : s.Spared sockfd now) :
    (s.visit now).Sweeping sockfd := by
  have hregular := h.regular
  rw [NtyReactor.visit]
  dsimp only
  split
  · rename_i hexpired
    obtain ⟨hfd, hidle⟩ := hspared hexpired
    have hmoved : Regular sockfd { s with checkpos := s.position + 1 } :=
      ⟨hregular.listener, hregular.own, hregular.slots, hregular.nodup, hregular.pending,
        hregular.reported, hregular.waiting, hregular.idle, hregular.inside⟩
    exact ⟨hmoved.closeExpired h.pending hexpired hfd hidle, h.pending⟩
  · exact ⟨⟨hregular.listener, hregular.own, hregular.slots, hregular.nodup, hregular.pending,
      hregular.reported, hregular.waiting, hregular.idle, hregular.inside⟩, h.pending⟩

theorem Sweeping.visit_unspared (hspared : ¬s.Spared sockfd now) : ¬(s.visit now).Listens sockfd := by
  rw [Spared, Classical.not_imp] at hspared
  obtain ⟨hexpired, hbad⟩ := hspared
  rw [NtyReactor.visit]
  dsimp only
  rw [if_pos hexpired]
  intro hlistens
  by_cases hfd : (s.slots s.position).ev.fd = sockfd
  · have hopen := hlistens.isOpen
    simp only [NtyReactor.closeExpired, NtyReactor.setSlot, hfd] at hopen
    by_cases hk : sockfd = s.position
    · subst hk
      simp [Conn.setEv, Conn.close] at hopen
    · simp [Function.update_of_ne hk, Conn.close] at hopen
  · obtain ⟨-, hopen, t, ht, hrecent⟩ : (s.slots s.position).ev.fd ≠ s.position ∧
        (s.slots (s.slots s.position).ev.fd).isOpen = true ∧
        ∃ t, (s.slots (s.slots s.position).ev.fd).handled = some t ∧ ¬now - t ≥ 60 := by
      simpa [hfd] using hbad
    refine hrecent (hlistens.idle (now, _) ?_ t ht)
    simp [NtyReactor.closeExpired, NtyReactor.setSlot, hopen]

theorem setSlot_imp {P : Conn → Prop} (hP : P c → P (s.slots k)) {j : ℕ}
    (h : P ((s.setSlot k c).slots j)) : P (s.slots j) := by
  by_cases hj : j = k
  · subst hj
    change P (Function.update s.slots j c j) at h
    rw [Function.update_self] at h
    exact hP h
  · change P (Function.update s.slots k c j) at h
    rw [Function.update_of_ne hj] at h
    exact h

theorem closeExpired_imp {P : Conn → Prop} (now : ℤ) (hclose : ∀ c : Conn, P c.close → P c)
    (hev : ∀ (c : Conn) ev, P (c.setEv ev) → P c) {j : ℕ} (h : P ((s.closeExpired k now).slots j)) :
    P (s.slots j) := by
  have hclosed := setSlot_imp (hev _ _) h
  exact setSlot_imp (hclose _) hclosed

/-- The sweep opens and registers nothing, and forgets no connection. -/
theorem Listens.of_visit (h : (s.visit now).Listens sockfd) : s.Listens sockfd := by
  rw [NtyReactor.visit] at h
  dsimp only at h
  split at h
  · refine ⟨closeExpired_imp (P := fun c => c.isOpen = true) now ?_ (fun _ _ => id) h.isOpen,
      closeExpired_imp (P := fun c => c.interest = some .epollIn) now ?_ (fun _ _ => id) h.interest,
      fun p hp => h.idle p ?_, h.inside⟩
    · exact fun c hopen => absurd hopen (by simp [Conn.close])
    · exact fun c hinterest => absurd hinterest (by simp [Conn.close])
    · show p ∈ if _ then _ else _
      split
      · exact List.mem_cons_of_mem _ hp
      · exact hp
  · exact ⟨h.isOpen, h.interest, h.idle, h.inside⟩

/-- After the sweep the property holds exactly if each slot was spared. -/
theorem Sweeping.listens_sweep (h : s.Sweeping sockfd) (now : ℤ) :
    (s.sweep now).Listens sockfd ↔ s.Spares sockfd now := by
  rw [NtyReactor.sweep, Spares,
    ← Runs.throughout_iff_last (P := Listens sockfd) (fun s now => Listens.of_visit)]
  refine Runs.throughout_iff_along (A := fun _ _ => True)
    (fun s h => h.regular.listens) ?_ ?_ h (Runs.along_of_forall fun _ _ => trivial)
  · exact fun s now h _ hspared => h.visit hspared
  · exact fun s now h _ hspared => visit_unspared hspared

theorem Sweeping.sweep (h : s.Sweeping sockfd) (hspared : s.Spares sockfd now) :
    (s.sweep now).Sweeping sockfd := by
  have hall := (Runs.invariant_rule (fun s now h hspared => Sweeping.visit h hspared) h hspared).1
  exact (Runs.throughout_iff_initial _ _).mp hall _ [] (List.append_nil _).symm

end NtyReactor

end CServer.Reactor
