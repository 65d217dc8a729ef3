import CServer.Reactor.Listening

/-!
# When the reactor keeps listening

The callbacks keep the invariant as long as `accept_cb` finds a free slot and gets a descriptor that has
one, so only these calls and the sweeps decide.
-/
namespace CServer.Reactor.NtyReactor

variable {k sockfd : ℕ} {s : NtyReactor} {now : ℤ}

/-! ## The callbacks -/

/-- If a descriptor is accepted then there is a free slot, and one for the descriptor. -/
def Fits (s : NtyReactor) (clientfd : Option ℕ) (nonblocking : Bool) : Prop :=
  ∀ fd, clientfd = some fd → (s.slots fd).isOpen = false →
    s.hasFree ∧ (nonblocking = true → fd < maxEpollEvents)

theorem hasFree_setSlot {c : Conn} (hev : c.ev = (s.slots k).ev) : (s.setSlot k c).hasFree ↔ s.hasFree := by
  have hstatus : ∀ i, ((s.setSlot k c).slots i).ev.status = (s.slots i).ev.status := by
    intro i
    show ((Function.update s.slots k c) i).ev.status = _
    by_cases hi : i = k
    · rw [hi, Function.update_self, hev]
    · rw [Function.update_of_ne hi]
  simp only [hasFree, hstatus]

theorem Regular.acceptCb (h : s.Regular sockfd) {clientfd : Option ℕ} {nonblocking : Bool}
    (hfits : s.Fits clientfd nonblocking) (now : ℤ) :
    (s.acceptCb clientfd nonblocking now).Regular sockfd := by
  cases clientfd with
  | none => exact h
  | some fd =>
    rw [NtyReactor.acceptCb]
    by_cases hopen : (s.slots fd).isOpen = true
    · rw [if_pos hopen]
      exact h
    · have hclosed : (s.slots fd).isOpen = false := by simpa using hopen
      have hfd : fd ≠ sockfd := by
        rintro rfl
        exact hopen h.listener.isOpen
      have hpending := h.orderly.notMem_pending hfd hclosed
      have hclient := h.setSlot hfd hpending (c := ⟨(s.slots fd).ev, true, none, [], [], none⟩)
        (.of_fresh rfl rfl)
      obtain ⟨hfree, hlt⟩ := hfits fd rfl hclosed
      rw [if_neg hopen]
      dsimp only
      have hsame : (s.setSlot fd ⟨(s.slots fd).ev, true, none, [], [], none⟩).hasFree ↔ s.hasFree :=
        hasFree_setSlot rfl
      rw [if_neg (not_not.mpr (hsame.mpr hfree))]
      split
      · exact hclient
      · rename_i hnonblocking
        rw [if_neg (by simpa using hlt (by simpa using hnonblocking))]
        exact hclient.setSlot hfd hpending (.added rfl rfl rfl now)

theorem acceptCb_overrun {clientfd : Option ℕ} {nonblocking : Bool} (hfits : ¬s.Fits clientfd nonblocking)
    (now : ℤ) : (s.acceptCb clientfd nonblocking now).overrun = true := by
  obtain ⟨fd, rfl, hclosed, hbad⟩ : ∃ fd, clientfd = some fd ∧ (s.slots fd).isOpen = false ∧
      ¬(s.hasFree ∧ (nonblocking = true → fd < maxEpollEvents)) := by
    simpa only [Fits, not_forall, exists_prop] using hfits
  rw [NtyReactor.acceptCb, if_neg (by simp [hclosed])]
  dsimp only
  have hsame : (s.setSlot fd ⟨(s.slots fd).ev, true, none, [], [], none⟩).hasFree ↔ s.hasFree :=
    hasFree_setSlot rfl
  by_cases hfree : s.hasFree
  · obtain ⟨hnonblocking, hfd⟩ : nonblocking = true ∧ ¬fd < maxEpollEvents := by
      simpa only [hfree, true_and, Classical.not_imp] using hbad
    rw [if_neg (not_not.mpr (hsame.mpr hfree)), if_neg (not_not.mpr hnonblocking), if_pos (not_lt.mp hfd)]
  · rw [if_pos (hsame.not.mpr hfree)]

/-- The next event that is pending is handled. -/
theorem Regular.tail (h : s.Regular sockfd) {p : ℕ × (Events → Bool)} {pending : List (ℕ × (Events → Bool))}
    (hpending : s.pending = p :: pending) : Regular sockfd { s with pending := pending } ∧
      p.1 ∉ pending.map Prod.fst := by
  obtain ⟨hrest, hnot⟩ := h.orderly.tail hpending
  exact ⟨⟨h.listener, h.own, hrest.slots, hrest.nodup, hrest.pending, hrest.reported, hrest.waiting, h.idle,
    h.inside⟩, hnot⟩

theorem callback_listener (hlistener : (s.slots k).ev.callback = .accept) (calls : Calls) :
    s.callback k calls = s.acceptCb calls.clientfd calls.nonblocking calls.io.now := by
  rw [callback]
  simp only [hlistener]

/-- The callback of a connection changes its slot only. -/
theorem Regular.callback (h : s.Regular sockfd) (hk : k ≠ sockfd) (hinterest : (s.slots k).interest ≠ none)
    (hpending : k ∉ s.pending.map Prod.fst) (calls : Calls) : (s.callback k calls).Regular sockfd := by
  have hslot := h.slots k hk
  rw [NtyReactor.callback]
  split
  · rename_i haccept
    exact absurd haccept (hslot.callback hinterest)
  · dsimp only
    rw [hslot.fd hinterest]
    exact h.setSlot hk hpending (hslot.call hinterest calls.io)

/-! ## The steps -/

/-- What decides: a sweep spares the listener, and a descriptor that is accepted has a slot. -/
def Guard (sockfd : ℕ) (s : NtyReactor) : Action → Prop
  | .sweep now => s.waiting = false ∧ s.pending = [] → s.Spares sockfd now
  | .wait _ => True
  | .event calls => ∀ reported pending, s.pending = (sockfd, reported) :: pending →
      reported .epollIn = true → s.Fits calls.clientfd calls.nonblocking

theorem Regular.event (h : s.Regular sockfd) {calls : Calls} (hguard : s.Guard sockfd (.event calls)) :
    (s.step (.event calls)).Regular sockfd := by
  cases hpending : s.pending with
  | nil =>
    rw [step]
    simp only [hpending]
    exact h
  | cons p pending =>
    obtain ⟨k, reported⟩ := p
    obtain ⟨hrest, hnot⟩ := h.tail hpending
    rw [event_eq h.orderly hpending]
    split
    · rename_i htests
      by_cases hk : k = sockfd
      · subst hk
        have hin : reported .epollIn = true := by
          have hevents := h.listener.events
          rcases htests with hin | hout
          · exact hin.1
          · rw [hevents] at hout
            exact absurd hout.2 (by decide)
        rw [callback_listener hrest.listener.callback]
        exact hrest.acceptCb (hguard reported pending hpending hin) calls.io.now
      · exact hrest.callback hk (h.pending (k, reported) (by simp [hpending])) hnot calls
    · exact hrest

theorem Regular.event_unfit (h : s.Regular sockfd) {calls : Calls}
    (hguard : ¬s.Guard sockfd (.event calls)) : ¬(s.step (.event calls)).Listens sockfd := by
  obtain ⟨reported, pending, hpending, hin, hfits⟩ : ∃ reported pending,
      s.pending = (sockfd, reported) :: pending ∧ reported .epollIn = true ∧
        ¬s.Fits calls.clientfd calls.nonblocking := by
    simpa only [Guard, not_forall, exists_prop] using hguard
  have hrest := (h.tail hpending).1
  have hoverrun := acceptCb_overrun (s := { s with pending := pending }) hfits calls.io.now
  intro hlistens
  have hinside := hlistens.inside
  rw [event_eq h.orderly hpending, if_pos (.inl ⟨hin, h.listener.events⟩),
    callback_listener hrest.listener.callback, hoverrun] at hinside
  exact absurd hinside (by decide)

theorem Regular.wait (h : s.Regular sockfd) (events : List (ℕ × (Events → Bool))) :
    (s.step (.wait events)).Regular sockfd := by
  have hwait := h.orderly.wait events
  rw [step] at hwait ⊢
  split
  · rename_i hready
    rw [if_pos hready] at hwait
    exact ⟨h.listener, h.own, hwait.slots, hwait.nodup, hwait.pending, hwait.reported, hwait.waiting, h.idle,
      h.inside⟩
  · exact h

/-- After the sweep `epoll_wait` is next. -/
theorem Sweeping.toWait (h : s.Sweeping sockfd) : Regular sockfd { s with waiting := true } :=
  ⟨h.regular.listener, h.regular.own, h.regular.slots, h.regular.nodup, h.regular.pending,
    h.regular.reported, fun _ => h.pending, h.regular.idle, h.regular.inside⟩

theorem Listens.of_waiting (h : Listens sockfd { s with waiting := true }) : s.Listens sockfd :=
  ⟨h.isOpen, h.interest, h.idle, h.inside⟩

theorem Regular.step (h : s.Regular sockfd) (a : Action) (hguard : s.Guard sockfd a) :
    (s.step a).Regular sockfd := by
  cases a with
  | sweep now =>
    rw [NtyReactor.step]
    split
    · rename_i hturn
      have hafter := Sweeping.sweep ⟨h, hturn.2⟩ (hguard hturn)
      exact hafter.toWait
    · exact h
  | wait events => exact h.wait events
  | event calls => exact h.event hguard

theorem Regular.step_unguarded (h : s.Regular sockfd) (a : Action) (hguard : ¬s.Guard sockfd a) :
    ¬(s.step a).Listens sockfd := by
  cases a with
  | sweep now =>
    rw [Guard, Classical.not_imp] at hguard
    obtain ⟨hturn, hspared⟩ := hguard
    rw [NtyReactor.step, if_pos hturn]
    intro hlistens
    exact hspared ((Sweeping.listens_sweep ⟨h, hturn.2⟩ now).mp hlistens.of_waiting)
  | wait events => exact absurd trivial hguard
  | event calls => exact h.event_unfit hguard

/-- The listener gets a slot of the array, and `malloc` has left no active one there. -/
def Placed (memory : ℕ → NtyEvent) (sockfd : ℕ) : Prop :=
  sockfd < maxEpollEvents ∧ (memory sockfd).status ≠ 1

theorem Regular.start {memory : ℕ → NtyEvent} (hplaced : Placed memory sockfd) (now : ℤ) :
    (start memory sockfd now).Regular sockfd := by
  have hlistener : (NtyReactor.start memory sockfd now).slots sockfd =
      Conn.added ⟨memory sockfd, true, none, [], [], none⟩ sockfd .accept now := if_pos rfl
  rw [added_eq hplaced.2 rfl rfl] at hlistener
  refine ⟨?_, ?_, fun k hk => ?_, List.nodup_nil, by simp [NtyReactor.start], by simp [NtyReactor.start],
    fun _ => rfl, by simp [NtyReactor.start], by simpa [NtyReactor.start] using hplaced.1⟩
  · rw [hlistener]
    exact ⟨rfl, rfl, rfl, rfl, rfl⟩
  · rw [hlistener]
    rfl
  · have hother : (NtyReactor.start memory sockfd now).slots k = ⟨memory k, false, none, [], [], none⟩ :=
      if_neg hk
    rw [hother]
    exact .of_fresh rfl rfl

theorem Listens.placed {memory : ℕ → NtyEvent} (h : (start memory sockfd now).Listens sockfd) :
    Placed memory sockfd := by
  refine ⟨by simpa [NtyReactor.start] using h.inside, fun hstatus => ?_⟩
  have hinterest := h.interest
  rw [show (NtyReactor.start memory sockfd now).slots sockfd =
    Conn.added ⟨memory sockfd, true, none, [], [], none⟩ sockfd .accept now from if_pos rfl,
    added_interest hstatus rfl] at hinterest
  exact absurd hinterest (by simp)

/-- In a run of the reactor the descriptor of the listener stays open and registered, and a connection is
closed by the sweep only if it had no event in sixty seconds, exactly if the listener is placed, no
sweep finds it expired, and each descriptor that is accepted has a slot. -/
theorem listens_iff_guarded (memory : ℕ → NtyEvent) (sockfd : ℕ) (now : ℤ) (actions : List Action) :
    Runs.Throughout step (Listens sockfd) (start memory sockfd now) actions ↔
      Placed memory sockfd ∧ Runs.Along step (Guard sockfd) (start memory sockfd now) actions := by
  have hiff : Placed memory sockfd →
      (Runs.Throughout step (Listens sockfd) (start memory sockfd now) actions ↔
        Runs.Along step (Guard sockfd) (start memory sockfd now) actions) := by
    intro hplaced
    refine Runs.throughout_iff_along (A := fun _ _ => True) (fun s h => Regular.listens h) ?_ ?_
      (Regular.start hplaced now) (Runs.along_of_forall fun _ _ => trivial)
    · exact fun s a h _ hguard => h.step a hguard
    · exact fun s a h _ hguard => h.step_unguarded a hguard
  constructor
  · intro hall
    have hplaced := hall.first.placed
    exact ⟨hplaced, (hiff hplaced).mp hall⟩
  · rintro ⟨hplaced, halong⟩
    exact (hiff hplaced).mpr halong

/-- A minute after the start the first sweep closes the listener, at its fifth slot. -/
theorem listener_swept : ¬Runs.Throughout step (Listens 4)
    (start (fun _ => ⟨0, .none, .accept, 0, [], 0, 0⟩) 4 0) [.sweep 60] := by
  intro hall
  have hsweep : Runs.Throughout visit (Listens 4) _ (List.replicate 100 60) :=
    (Runs.throughout_iff_last (fun s now => Listens.of_visit) _ _).mpr hall.2.first.of_waiting
  have hfifth := (Runs.throughout_iff_initial _ _).mp hsweep (List.replicate 5 60) (List.replicate 95 60)
    (List.replicate_add 5 95 60)
  exact absurd hfifth.isOpen (by decide)

end CServer.Reactor.NtyReactor
