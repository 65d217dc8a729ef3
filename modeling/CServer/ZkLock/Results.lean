import CServer.ZkLock.Invariant

/-!
# Mutual exclusion, order and wake-ups

The invariant holds after any actions. Clients take the lock one after the other, in the order of
their numbers. No client waits for a node that is gone if each node was live when the server served
the call of `zoo_aexists` for it.
-/
namespace CServer.ZkLock

variable {Client : Type} [DecidableEq Client] {phase : Client → Phase} {σ : State Client} {i : Client}
  {c : Session} {p : Phase}

/-- Each client is in its phase, and the nodes and the takes agree with the phases. -/
structure Invariant (σ : State Client) (phase : Client → Phase) : Prop where
  sessions : ∀ i, (σ.sessions i).At (phase i)
  nodes : Nodes σ.live σ.next σ.takes phase

/-- The nodes for which clients wait are live. -/
def Attended (σ : State Client) (phase : Client → Phase) : Prop :=
  ∀ i s w, phase i = .waiting s w → ∃ j, (w, j) ∈ σ.live

/-- The node of a call of `zoo_aexists` is live. -/
def Request.Finds (live : List (ℕ × Client)) : Request → Prop
  | .exists path => ∃ node ∈ live, some node.1 = path
  | _ => True

instance decidableFinds (live : List (ℕ × Client)) : (r : Request) → Decidable (r.Finds live)
  | .exists path => inferInstanceAs (Decidable (∃ node ∈ live, some node.1 = path))
  | .create => .isTrue trivial
  | .getChildren => .isTrue trivial
  | .delete _ => .isTrue trivial

/-- If the server serves a call of `zoo_aexists`, the node is live. -/
def Regular (σ : State Client) : Action Client → Prop
  | .serve i _ => ∀ r ∈ (σ.sessions i).requests.head?, r.Finds σ.live
  | _ => True

instance decidableRegular (σ : State Client) : (a : Action Client) → Decidable (Regular σ a)
  | .serve i _ => inferInstanceAs (Decidable (∀ r ∈ (σ.sessions i).requests.head?, r.Finds σ.live))
  | .main _ => .isTrue trivial
  | .receive _ => .isTrue trivial
  | .reconnect _ => .isTrue trivial
  | .close _ => .isTrue trivial

/-- The invariant after a state, and that the clients are attended if they were. -/
def Kept (σ : State Client) (phase : Client → Phase) (a : Action Client) (σ' : State Client) : Prop :=
  ∃ phase', Invariant σ' phase' ∧ (Attended σ phase → Regular σ a → Attended σ' phase')

omit [DecidableEq Client] in
theorem Invariant.same (h : Invariant σ phase) {a : Action Client} : Kept σ phase a σ :=
  ⟨phase, h, fun hattended _ => hattended⟩

/-! ## One client changes -/

theorem sessions_set (h : ∀ j, j ≠ i → (σ.sessions j).At (phase j)) (hc : c.At p) (j : Client) :
    ((σ.set i c).sessions j).At (Function.update phase i p j) := by
  show (Function.update σ.sessions i c j).At _
  by_cases hj : j = i
  · rw [hj, Function.update_self, Function.update_self]
    exact hc
  · rw [Function.update_of_ne hj, Function.update_of_ne hj]
    exact h j hj

/-- No client but the one that changes waits for other nodes than before. -/
theorem Attended.go (h : Attended σ phase) (hp : ∀ s w, p = .waiting s w → ∃ j, (w, j) ∈ σ.live) :
    ∀ j s w, Function.update phase i p j = .waiting s w → ∃ j, (w, j) ∈ σ.live := by
  intro j s w hj
  by_cases heq : j = i
  · rw [heq, Function.update_self] at hj
    exact hp s w hj
  · rw [Function.update_of_ne heq] at hj
    exact h j s w hj

/-- A client goes to another phase, with the same nodes and takes. -/
theorem Invariant.go (h : Invariant σ phase) {a : Action Client} (hc : c.At p)
    (hseq : p.seq = (phase i).seq) (hnode : p.node = (phase i).node)
    (htaken : p.taken = (phase i).taken)
    (hlisted : ∀ s names, p = .listed s names →
      s ∈ names ∧ ∀ q j, (q, j) ∈ σ.live → q < s → q ∈ names)
    (hwaiting : Regular σ a → ∀ s w, p = .waiting s w → ∃ j, (w, j) ∈ σ.live) :
    Kept σ phase a (σ.set i c) :=
  ⟨Function.update phase i p, ⟨sessions_set (fun j _ => h.sessions j) hc,
    h.nodes.go hseq hnode htaken hlisted⟩, fun hattended hregular => hattended.go (hwaiting hregular)⟩

/-- The message is the only one outstanding that counts. -/
theorem Session.At.head (h : c.At p) {m : Message} {rest : List Message} (hinbox : c.inbox = m :: rest)
    (hm : m.counts = true) : p.messages = [m] ∧ rest.filter Message.counts = [] := by
  have hmessages := h.messages
  rw [hinbox, List.filter_cons_of_pos hm] at hmessages
  have hlength : p.messages.length ≤ 1 := by
    cases p <;> simp [Phase.messages]
  rw [← hmessages, List.length_cons] at hlength
  have hnone : rest.filter Message.counts = [] := List.eq_nil_of_length_eq_zero (by omega)
  rw [hnone] at hmessages
  exact ⟨hmessages.symm, hnone⟩

/-! ## A callback -/

/-- The client takes the lock. -/
theorem Invariant.take (h : Invariant σ phase) {a : Action Client} {s : ℕ} (hc : c.At (.taking s))
    (hnode : (phase i).node = some s) (hnot : (phase i).taken = none)
    (hfirst : ∀ q j, (q, j) ∈ σ.live → s ≤ q) :
    Kept σ phase a { σ.set i c with takes := σ.takes ++ [⟨i, some s, σ.live⟩] } := by
  refine ⟨Function.update phase i (.taking s), ⟨sessions_set (fun j _ => h.sessions j) hc,
    h.nodes.take hnode hnot hfirst⟩, fun hattended _ => hattended.go (by simp)⟩

theorem Invariant.receive (h : Invariant σ phase) (i : Client) :
    Kept σ phase (.receive i) (step σ (.receive i)) := by
  have hat := h.sessions i
  cases hinbox : (σ.sessions i).inbox with
  | nil =>
    simp only [step_receive, hinbox]
    exact h.same
  | cons m rest =>
    by_cases hm : m.counts = true
    · obtain ⟨hmessages, hrest⟩ := hat.head hinbox hm
      have hstarted := hat.started
      have hclosed := hat.isClosed
      have hquit := hat.quit
      have hrequests := hat.requests
      have hwatches := hat.watches
      have hseqMe := hat.seqMe
      have hwatch := hat.watch
      cases hphase : phase i with
      | created s =>
        rw [hphase] at hmessages hstarted hclosed hquit hrequests hwatches
        obtain rfl : Message.created s = m := by simpa [Phase.messages] using hmessages
        by_cases hs : s > 0
        · simp only [step_receive, hinbox, callback, zkCreateLockRes1Es, if_pos hs]
          refine h.go (p := .listing s)
            ⟨hstarted, hclosed, hquit, ?_, hrest, hwatches, ?_, by simp [Phase.watch]⟩
            (by rw [hphase]; rfl) (by rw [hphase]; rfl) (by rw [hphase]; rfl) (by simp) (by simp)
          · simp [Session.send, hrequests, Phase.requests]
          · simp [Session.send, Phase.seqMe]
        · simp only [step_receive, hinbox, callback, zkCreateLockRes1Es, if_neg hs]
          refine h.take ⟨hstarted, hclosed, hquit, ?_, hrest, hwatches, by simp [Phase.seqMe],
            by simp [Phase.watch]⟩ (by rw [hphase]; rfl) (by rw [hphase]; rfl) fun q j _ => by omega
          simp [Session.send, hrequests, Phase.requests]
      | listed s names =>
        rw [hphase] at hmessages hstarted hclosed hquit hrequests hwatches hseqMe
        obtain rfl : Message.children names = m := by simpa [Phase.messages] using hmessages
        have hme : (σ.sessions i).seqMe = s := hseqMe s rfl
        obtain ⟨hself, hall⟩ := h.nodes.listed i s names hphase
        have hscan := scanned s (σ.sessions i).seqWatch names
        by_cases hnone : (scan s (σ.sessions i).seqWatch names).n = 0
        · have hvalue := hscan.self hself
          simp only [step_receive, hinbox, callback, zkGetChildrenLockRes1, hme, if_pos hnone,
            hvalue]
          refine h.take ⟨hstarted, hclosed, hquit, ?_, hrest, hwatches, by simp [Phase.seqMe],
            by simp [Phase.watch]⟩ (by rw [hphase]; rfl) (by rw [hphase]; rfl) ?_
          · simp [Session.send, hrequests, Phase.requests]
          · intro q j hq
            by_contra hless
            exact hscan.none.mp hnone q (hall q j hq (by omega)) (by omega)
        · obtain ⟨hother, -, -, -⟩ := hscan.other hnone
          simp only [step_receive, hinbox, callback, zkGetChildrenLockRes1, hme, if_neg hnone,
            hother]
          refine h.go (p := .checking s (scan s (σ.sessions i).seqWatch names).seqWatch)
            ⟨hstarted, hclosed, hquit, ?_, hrest, hwatches, ?_, by simp [Session.send, Phase.watch]⟩
            (by rw [hphase]; rfl) (by rw [hphase]; rfl) (by rw [hphase]; rfl) (by simp) (by simp)
          · simp [Session.send, hrequests, Phase.requests]
          · simp [Session.send, Phase.seqMe]
      | notified s w =>
        rw [hphase] at hmessages hstarted hclosed hquit hrequests hwatches hseqMe hwatch
        obtain rfl : Message.event (some w) = m := by simpa [Phase.messages] using hmessages
        have hw : (σ.sessions i).watch = some w := hwatch w rfl
        simp only [step_receive, hinbox, callback, zkWatcherDisconnect, hw]
        refine h.go (p := .listing s)
          ⟨hstarted, hclosed, hquit, ?_, hrest, hwatches, ?_, by simp [Phase.watch]⟩
          (by rw [hphase]; rfl) (by rw [hphase]; rfl) (by rw [hphase]; rfl) (by simp) (by simp)
        · simp [Session.send, hrequests, Phase.requests]
        · exact hseqMe
      | removed s =>
        rw [hphase] at hmessages hstarted hclosed hquit hrequests hwatches
        obtain rfl : Message.deleted true = m := by simpa [Phase.messages] using hmessages
        simp only [step_receive, hinbox, callback]
        exact h.go (p := .finished s) ⟨hstarted, hclosed, rfl, hrequests, hrest, hwatches,
          by simp [Phase.seqMe], by simp [Phase.watch]⟩
          (by rw [hphase]; rfl) (by rw [hphase]; rfl) (by rw [hphase]; rfl) (by simp) (by simp)
      | _ =>
        rw [hphase] at hmessages
        exact absurd hmessages (by simp [Phase.messages])
    · -- a message that changes nothing
      have hfalse : m.counts = false := by simpa using hm
      have hcallback : callback { σ.sessions i with inbox := rest } m =
          ⟨{ σ.sessions i with inbox := rest }, none⟩ := by
        cases m with
        | stat found => rfl
        | event path =>
          cases path with
          | none =>
            by_cases hwatch : (σ.sessions i).watch = none
            · simp only [callback, zkWatcherDisconnect, if_pos hwatch]
            · simp only [callback, zkWatcherDisconnect, if_neg hwatch]
          | some w => exact absurd hfalse (by simp [Message.counts])
        | _ => exact absurd hfalse (by simp [Message.counts])
      have hmessages := hat.messages
      rw [hinbox, List.filter_cons_of_neg hm] at hmessages
      simp only [step_receive, hinbox, hcallback]
      refine ⟨Function.update phase i (phase i), ⟨sessions_set (fun j _ => h.sessions j)
        ⟨hat.started, hat.isClosed, hat.quit, hat.requests, hmessages, hat.watches, hat.seqMe,
          hat.watch⟩, ?_⟩, ?_⟩
      · rw [Function.update_eq_self]
        exact h.nodes
      · rw [Function.update_eq_self]
        exact fun hattended _ => hattended

/-! ## The server -/

/-- A client with a request is in the phase of this request. -/
theorem Session.At.request (h : c.At p) {r : Request} {rest : List Request}
    (hrequests : c.requests = r :: rest) :
    rest = [] ∧ p.messages = [] ∧ p.watches = [] ∧ (p = .creating ∧ r = .create ∨
      (∃ s, p = .listing s ∧ r = .getChildren) ∨ (∃ s w, p = .checking s w ∧ r = .exists (some w)) ∨
        ∃ s, p = .taking s ∧ r = .delete (some s)) := by
  have hphase := h.requests
  rw [hrequests] at hphase
  cases p with
  | creating =>
    rw [Phase.requests, List.cons.injEq] at hphase
    exact ⟨hphase.2, rfl, rfl, .inl ⟨rfl, hphase.1⟩⟩
  | listing s =>
    rw [Phase.requests, List.cons.injEq] at hphase
    exact ⟨hphase.2, rfl, rfl, .inr (.inl ⟨s, rfl, hphase.1⟩)⟩
  | checking s w =>
    rw [Phase.requests, List.cons.injEq] at hphase
    exact ⟨hphase.2, rfl, rfl, .inr (.inr (.inl ⟨s, w, rfl, hphase.1⟩))⟩
  | taking s =>
    rw [Phase.requests, List.cons.injEq] at hphase
    exact ⟨hphase.2, rfl, rfl, .inr (.inr (.inr ⟨s, rfl, hphase.1⟩))⟩
  | _ => exact absurd hphase (by simp [Phase.requests])

/-- The inbox of a client with nothing outstanding, after a reply. -/
theorem filter_reply {inbox : List Message} (h : inbox.filter Message.counts = []) (m : Message) :
    (inbox ++ [m]).filter Message.counts = [m].filter Message.counts := by
  rw [List.filter_append, h, List.nil_append]

/-- A client without watches gets no event. -/
theorem Session.fire_none (h : c.watches = []) (paths : List ℕ) : c.fire paths = c := by
  cases c
  simp only at h
  subst h
  simp [Session.fire]

/-- Watches of other clients fire, and the client gets a reply. -/
theorem sessions_fire_reply (h : ∀ j, j ≠ i → (σ.sessions j).At (phase j)) (paths : List ℕ) {m : Message}
    (hwatches : (σ.sessions i).watches = [])
    (hc : Session.At { σ.sessions i with inbox := (σ.sessions i).inbox ++ [m] } p) (j : Client) :
    (((σ.fire paths).reply i m).sessions j).At
      (Function.update (fun j => (phase j).fire paths) i p j) := by
  apply sessions_set
  · exact fun j hj => (h j hj).fire paths
  · have hsame : (σ.fire paths).sessions i = σ.sessions i := Session.fire_none hwatches paths
    rw [hsame]
    exact hc

theorem Invariant.serve (h : Invariant σ phase) (i : Client) (strings : List ℕ) :
    Kept σ phase (.serve i strings) (step σ (.serve i strings)) := by
  have hat := h.sessions i
  cases hrequests : (σ.sessions i).requests with
  | nil =>
    simp only [step_serve, hrequests]
    exact h.same
  | cons r rest =>
    obtain ⟨rfl, hmessages, hwatches, hcase⟩ := hat.request hrequests
    have hinbox : (σ.sessions i).inbox.filter Message.counts = [] := by
      rw [hat.messages, hmessages]
    have hnone : (σ.sessions i).watches = [] := by
      rw [hat.watches, hwatches]
    have hothers : ∀ c' : Session, ∀ j, j ≠ i → ((σ.set i c').sessions j).At (phase j) := by
      intro c' j hj
      show (Function.update σ.sessions i c' j).At _
      rw [Function.update_of_ne hj]
      exact h.sessions j
    have hstarted := hat.started
    have hclosed := hat.isClosed
    have hquit := hat.quit
    have hseqMe := hat.seqMe
    have hwatch := hat.watch
    have hset : ∀ c' : Session, (σ.set i c').sessions i = c' := fun c' => Function.update_self _ _ _
    obtain ⟨hphase, rfl⟩ | ⟨s, hphase, rfl⟩ | ⟨s, w, hphase, rfl⟩ | ⟨s, hphase, rfl⟩ := hcase
    · -- the node is made
      rw [hphase] at hstarted hclosed hquit
      simp only [step_serve, hrequests, ZkLock.serve]
      refine ⟨Function.update (fun j => (phase j).fire [σ.next]) i (.created σ.next), ⟨?_, ?_⟩, ?_⟩
      · apply sessions_fire_reply
        · exact hothers _
        · show ((σ.set i _).sessions i).watches = []
          rw [hset]
          exact hnone
        · show Session.At { (σ.set i _).sessions i with inbox := ((σ.set i _).sessions i).inbox ++ [_] } _
          rw [hset]
          exact ⟨hstarted, hclosed, hquit, rfl, filter_reply hinbox _, hnone, by simp [Phase.seqMe],
            by simp [Phase.watch]⟩
      · exact (h.nodes.fire [σ.next]).create (by rw [hphase]; rfl)
      · intro hattended _ j s w hj
        by_cases hji : j = i
        · rw [hji, Function.update_self] at hj
          exact absurd hj (by simp)
        · rw [Function.update_of_ne hji] at hj
          have hold : phase j = .waiting s w := by
            cases hwas : phase j with
            | waiting s' w' =>
              rw [hwas, Phase.fire] at hj
              split at hj
              · exact absurd hj (by simp)
              · exact hj
            | _ =>
              rw [hwas] at hj
              exact absurd hj (by simp [Phase.fire])
          obtain ⟨k, hk⟩ := hattended j s w hold
          exact ⟨k, List.mem_append_left _ hk⟩
    · -- the nodes are listed
      rw [hphase] at hstarted hclosed hquit hseqMe
      simp only [step_serve, hrequests]
      split
      · rename_i hperm
        simp only [ZkLock.serve, State.reply, hset]
        have hset' : ∀ c' c'' : Session, (σ.set i c').set i c'' = σ.set i c'' := by
          intro c' c''
          simp only [State.set, Function.update_idem]
        rw [hset']
        refine h.go (p := .listed s strings) ⟨hstarted, hclosed, hquit, rfl, filter_reply hinbox _, hnone,
          hseqMe, by simp [Phase.watch]⟩ (by rw [hphase]; rfl) (by rw [hphase]; rfl)
          (by rw [hphase]; rfl) ?_ (by simp)
        intro s' names hnames
        obtain ⟨rfl, rfl⟩ := Phase.listed.inj hnames
        have hlisted : ∀ q j, (q, j) ∈ σ.live → q ∈ strings := by
          intro q j hq
          rw [hperm.mem_iff]
          exact List.mem_map.mpr ⟨_, hq, rfl⟩
        refine ⟨hlisted s i ((h.nodes.owned s i).mpr (by rw [hphase]; rfl)), ?_⟩
        exact fun q j hq _ => hlisted q j hq
      · exact h.same
    · -- a node is looked for
      rw [hphase] at hstarted hclosed hquit hseqMe hwatch
      simp only [step_serve, hrequests, ZkLock.serve, State.reply, hset, hnone, List.not_mem_nil,
        if_false]
      have hset' : ∀ c' c'' : Session, (σ.set i c').set i c'' = σ.set i c'' := by
        intro c' c''
        simp only [State.set, Function.update_idem]
      rw [hset', hset']
      simp only [hset]
      refine h.go (p := .waiting s w) ⟨hstarted, hclosed, hquit, rfl, filter_reply hinbox _, rfl,
        hseqMe, hwatch⟩ (by rw [hphase]; rfl) (by rw [hphase]; rfl) (by rw [hphase]; rfl) (by simp) ?_
      intro hregular s' w' hw
      obtain ⟨-, rfl⟩ := Phase.waiting.inj hw
      obtain ⟨node, hnode, hpath⟩ := hregular (.exists (some w)) (by rw [hrequests]; rfl)
      obtain rfl := Option.some.inj hpath
      exact ⟨node.2, hnode⟩
    · -- a node is deleted
      rw [hphase] at hstarted hclosed hquit
      have hmem : (s, i) ∈ σ.live := (h.nodes.owned s i).mpr (by rw [hphase]; rfl)
      have hgone : ∀ q, q ∈ (σ.live.filter fun node => some node.1 = some s).map Prod.fst ↔ q = s := by
        intro q
        simp only [List.mem_map, List.mem_filter, decide_eq_true_eq, Option.some.injEq]
        constructor
        · rintro ⟨node, ⟨-, hnode⟩, rfl⟩
          exact hnode
        · rintro rfl
          exact ⟨(q, i), ⟨hmem, rfl⟩, rfl⟩
      have hfound : decide ((σ.live.filter fun node => some node.1 = some s).map Prod.fst ≠ []) = true := by
        rw [decide_eq_true_eq]
        exact List.ne_nil_of_mem ((hgone s).mpr rfl)
      simp only [step_serve, hrequests, ZkLock.serve]
      refine ⟨Function.update (fun j => (phase j).fire
        ((σ.live.filter fun node => some node.1 = some s).map Prod.fst)) i (.removed s), ⟨?_, ?_⟩, ?_⟩
      · apply sessions_fire_reply
        · exact hothers _
        · show ((σ.set i _).sessions i).watches = []
          rw [hset]
          exact hnone
        · show Session.At { (σ.set i _).sessions i with inbox := ((σ.set i _).sessions i).inbox ++ [_] } _
          rw [hset]
          refine ⟨hstarted, hclosed, hquit, rfl, ?_, hnone, by simp [Phase.seqMe], by simp [Phase.watch]⟩
          rw [filter_reply hinbox]
          show [Message.deleted (decide _)].filter Message.counts = _
          erw [hfound]
          rfl
      · exact (h.nodes.fire _).delete (by rw [hphase]; rfl)
      · intro hattended _ j s' w hj
        by_cases hji : j = i
        · rw [hji, Function.update_self] at hj
          exact absurd hj (by simp)
        · rw [Function.update_of_ne hji] at hj
          have hold : phase j = .waiting s' w ∧ w ≠ s := by
            cases hwas : phase j with
            | waiting s'' w' =>
              rw [hwas, Phase.fire] at hj
              split at hj
              · exact absurd hj (by simp)
              · rename_i hnot
                obtain ⟨rfl, rfl⟩ := Phase.waiting.inj hj
                exact ⟨rfl, fun heq => hnot ((hgone _).mpr heq)⟩
            | _ =>
              rw [hwas] at hj
              exact absurd hj (by simp [Phase.fire])
          obtain ⟨k, hk⟩ := hattended j s' w hold.1
          refine ⟨k, List.mem_filter.mpr ⟨hk, ?_⟩⟩
          simp [hold.2]

/-! ## All actions -/

theorem Invariant.main (h : Invariant σ phase) (i : Client) :
    Kept σ phase (.main i) (step σ (.main i)) := by
  have hat := h.sessions i
  by_cases hstarted : (σ.sessions i).started = true
  · rw [step_main, if_pos hstarted]
    exact h.same
  · have hphase : phase i = .idle := by
      have hnot := hat.started
      cases hwas : phase i with
      | idle => rfl
      | _ =>
        rw [hwas] at hnot
        exact absurd hnot hstarted
    rw [hphase] at hat
    rw [step_main, if_neg hstarted]
    refine h.go (p := .creating) ⟨rfl, hat.isClosed, hat.quit, ?_, hat.messages, hat.watches,
      by simp [Phase.seqMe], by simp [Phase.watch]⟩ (by rw [hphase]; rfl) (by rw [hphase]; rfl)
      (by rw [hphase]; rfl) (by simp) (by simp)
    rw [Session.send, hat.requests]
    rfl

theorem Invariant.reconnect (h : Invariant σ phase) (i : Client) :
    Kept σ phase (.reconnect i) (step σ (.reconnect i)) := by
  rw [step_reconnect]
  split
  · refine ⟨Function.update phase i (phase i), ⟨sessions_set (fun j _ => h.sessions j)
      ((h.sessions i).noise rfl), ?_⟩, ?_⟩
    · rw [Function.update_eq_self]
      exact h.nodes
    · rw [Function.update_eq_self]
      exact fun hattended _ => hattended
  · exact h.same

/-- A client that closes its session has no node any more. -/
theorem Invariant.close (h : Invariant σ phase) (i : Client) :
    Kept σ phase (.close i) (step σ (.close i)) := by
  have hat := h.sessions i
  by_cases hopen : (σ.sessions i).quit = true ∧ ¬(σ.sessions i).closed = true
  · obtain ⟨s, hphase⟩ : ∃ s, phase i = .finished s := by
      obtain ⟨hquit, hclosed⟩ := hopen
      rw [hat.quit] at hquit
      rw [hat.isClosed] at hclosed
      cases hwas : phase i with
      | finished s => exact ⟨s, rfl⟩
      | closed s =>
        rw [hwas] at hclosed
        exact absurd rfl hclosed
      | _ =>
        rw [hwas] at hquit
        exact absurd hquit (by simp [Phase.quit])
    have hnot : ∀ node ∈ σ.live, node.2 ≠ i := by
      rintro ⟨q, j⟩ hnode rfl
      have hq := (h.nodes.owned q j).mp hnode
      rw [hphase] at hq
      exact absurd hq (by simp [Phase.node])
    have hlive : (σ.live.filter fun node => ¬node.2 = i) = σ.live := by
      rw [List.filter_eq_self]
      exact fun node hnode => by simpa using hnot node hnode
    have hgone : (σ.live.filter fun node => node.2 = i) = [] := by
      rw [List.filter_eq_nil_iff]
      exact fun node hnode => by simpa using hnot node hnode
    have hfire : ∀ τ : State Client, τ.fire [] = τ := by
      intro τ
      simp [State.fire, Session.fire]
    simp only [step_close, if_pos hopen, hlive, hgone, List.map_nil, hfire]
    rw [hphase] at hat
    exact h.go (p := .closed s) ⟨hat.started, rfl, hat.quit, rfl, rfl, rfl, by simp [Phase.seqMe],
      by simp [Phase.watch]⟩ (by rw [hphase]; rfl) (by rw [hphase]; rfl) (by rw [hphase]; rfl) (by simp)
      (by simp)
  · rw [step_close, if_neg hopen]
    exact h.same

/-- Every action keeps the invariant. -/
theorem Invariant.step (h : Invariant σ phase) (a : Action Client) : Kept σ phase a (step σ a) := by
  cases a with
  | main i => exact h.main i
  | serve i strings => exact h.serve i strings
  | receive i => exact h.receive i
  | reconnect i => exact h.reconnect i
  | close i => exact h.close i

omit [DecidableEq Client] in
theorem invariant_start : Invariant (start : State Client) fun _ => .idle where
  sessions _ := ⟨rfl, rfl, rfl, rfl, rfl, rfl, by simp [Phase.seqMe], by simp [Phase.watch]⟩
  nodes := by
    refine ⟨?_, ?_, ?_, ?_, ?_, ?_, ?_, ?_, ?_⟩ <;> simp [start, Phase.node, Phase.seq, Phase.taken]

theorem invariant_run (actions : List (Action Client)) : ∃ phase, Invariant (run actions) phase := by
  have hrun : ∀ σ : State Client, (∃ phase, Invariant σ phase) →
      ∃ phase, Invariant (Runs.finalState ZkLock.step σ actions) phase := by
    induction actions with
    | nil => exact fun σ h => h
    | cons a rest ih =>
      rintro σ ⟨phase, h⟩
      obtain ⟨phase', h', -⟩ := h.step a
      exact ih _ ⟨phase', h'⟩
  exact hrun start ⟨_, invariant_start⟩

/-! ## The lock -/

/-- The client has taken the lock, and its node is still there. -/
def State.Holds (σ : State Client) (i : Client) : Prop :=
  (∃ τ ∈ σ.takes, τ.client = i) ∧ ∃ s, (s, i) ∈ σ.live

/-- Each take was by the owner of the smallest node, no two clients hold the lock, and the takes are
in the order of the numbers, one for each client at most. -/
structure State.Exclusive (σ : State Client) : Prop where
  first : ∀ τ ∈ σ.takes, τ.First
  one : ∀ i j, σ.Holds i → σ.Holds j → i = j
  ordered : σ.takes.Pairwise Take.Before
  once : (σ.takes.map Take.client).Nodup

theorem lock_exclusive (actions : List (Action Client)) : (run actions).Exclusive := by
  obtain ⟨phase, h⟩ := invariant_run actions
  refine ⟨h.nodes.sound, ?_, h.nodes.ordered, h.nodes.once⟩
  have hfirst : ∀ i, (run actions).Holds i → ∃ s, (s, i) ∈ (run actions).live ∧
      ∀ q j, (q, j) ∈ (run actions).live → s ≤ q := by
    rintro i ⟨⟨τ, hτ, rfl⟩, s, hs⟩
    obtain ⟨q, hpath, -⟩ := h.nodes.sound τ hτ
    have htaken := (h.nodes.taken τ.client q).mpr ⟨τ, hτ, rfl, hpath⟩
    have hseq := Phase.seq_of_taken htaken
    rw [Phase.seq_of_node ((h.nodes.owned s τ.client).mp hs)] at hseq
    obtain rfl := Option.some.inj hseq
    exact ⟨s, hs, h.nodes.first τ.client s htaken⟩
  intro i j hi hj
  obtain ⟨s, hs, hleast⟩ := hfirst i hi
  obtain ⟨s', hs', hleast'⟩ := hfirst j hj
  obtain rfl : s = s' := Nat.le_antisymm (hleast s' j hs') (hleast' s i hs)
  exact h.nodes.distinct i j s (Phase.seq_of_node ((h.nodes.owned s i).mp hs))
    (Phase.seq_of_node ((h.nodes.owned s j).mp hs'))

/-- The client waits for nothing that could still come: its node is live, it has not taken the lock,
nothing is outstanding, and the node that it watches is gone. -/
def State.Stuck (σ : State Client) (i : Client) : Prop :=
  (∃ s, (s, i) ∈ σ.live) ∧ (∀ τ ∈ σ.takes, τ.client ≠ i) ∧ (σ.sessions i).requests = [] ∧
    (σ.sessions i).inbox = [] ∧ ∃ w, (σ.sessions i).watch = some w ∧ ∀ j, (w, j) ∉ σ.live

omit [DecidableEq Client] in
theorem Attended.not_stuck (hattended : Attended σ phase) (h : Invariant σ phase) : ¬σ.Stuck i := by
  rintro ⟨⟨s, hs⟩, htakes, hrequests, hinbox, w, hw, hgone⟩
  have hat := h.sessions i
  have hnode := (h.nodes.owned s i).mp hs
  have hnone := hat.requests
  have hmessages := hat.messages
  rw [hrequests] at hnone
  rw [hinbox] at hmessages
  cases hphase : phase i with
  | waiting s' w' =>
    rw [hphase] at hat
    have hw' : (σ.sessions i).watch = some w' := hat.watch w' rfl
    obtain rfl : w = w' := Option.some.inj (hw.symm.trans hw')
    obtain ⟨j, hj⟩ := hattended i s' w hphase
    exact hgone j hj
  | taking s' =>
    obtain ⟨τ, hτ, hclient, -⟩ := (h.nodes.taken i s').mp (by rw [hphase]; rfl)
    exact htakes τ hτ hclient
  | _ =>
    rw [hphase] at hnode hnone hmessages
    simp [Phase.node, Phase.requests, Phase.messages] at hnode hnone hmessages

/-- No client is stuck in a run in which each node was live when `zoo_aexists` was served. -/
theorem regular_not_stuck (actions : List (Action Client))
    (hregular : Runs.Along step Regular start actions) :
    Runs.Throughout step (fun σ => ∀ i, ¬σ.Stuck i) (start : State Client) actions := by
  have hstep : ∀ (σ : State Client) a, (∃ phase, Invariant σ phase ∧ Attended σ phase) → Regular σ a →
      ∃ phase, Invariant (step σ a) phase ∧ Attended (step σ a) phase := by
    rintro σ a ⟨phase, h, hattended⟩ hregular
    obtain ⟨phase', h', hnext⟩ := h.step a
    exact ⟨phase', h', hnext hattended hregular⟩
  have hkept := Runs.invariant_rule hstep ⟨_, invariant_start, by simp [Attended]⟩ hregular
  refine hkept.1.mono ?_
  rintro σ ⟨phase, h, hattended⟩ i
  exact hattended.not_stuck h

/-- Two clients: the second one looks for the node of the first while it is live. -/
theorem regular_not_stuck_two : Runs.Throughout step (fun σ => ∀ i, ¬σ.Stuck i) (start : State ℕ)
    [.main 0, .main 1, .serve 0 [], .serve 1 [], .receive 1, .serve 1 [1, 0], .receive 1, .serve 1 [],
      .receive 0, .serve 0 [], .receive 1, .receive 1, .serve 1 [1], .receive 1] := by
  apply regular_not_stuck
  decide

/-- The node of client 0 is deleted after client 1 has listed it and before the server looks for it:
client 1 ignores the result and waits for ever. -/
theorem deleted_before_exists_stuck : (run [.main 0, .main 1, .serve 0 [], .serve 1 [], .receive 1,
    .serve 1 [0, 1], .receive 0, .serve 0 [], .receive 1, .serve 1 [], .receive 1] : State ℕ).Stuck 1 := by
  refine ⟨⟨1, by decide⟩, by decide, by decide, by decide, 0, by decide, ?_⟩
  intro j hj
  have hnone : ∀ node ∈ (run [.main 0, .main 1, .serve 0 [], .serve 1 [], .receive 1,
      .serve 1 [0, 1], .receive 0, .serve 0 [], .receive 1, .serve 1 [], .receive 1] : State ℕ).live,
      node.1 ≠ 0 := by decide
  exact hnone _ hj rfl

end CServer.ZkLock
