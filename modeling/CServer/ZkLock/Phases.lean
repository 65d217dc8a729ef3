import CServer.ZkLock.Model
import Mathlib.Data.List.Induction

/-!
# Where a client is

At each time a client has one request, reply or event outstanding that matters, or it waits for a
watch. The phase of a client says which, and the nodes and takes are told from the phases of all
clients.
-/
namespace CServer.ZkLock

inductive Phase where
  | idle
  | creating
  | created (s : ℕ)
  | listing (s : ℕ)
  | listed (s : ℕ) (names : List ℕ)
  | checking (s w : ℕ)
  | waiting (s w : ℕ)
  | notified (s w : ℕ)
  | taking (s : ℕ)
  | removed (s : ℕ)
  | finished (s : ℕ)
  | closed (s : ℕ)

namespace Phase

/-- The number of the node of the client, once it has one. -/
def seq : Phase → Path
  | idle | creating => none
  | created s | listing s | listed s _ | checking s _ | waiting s _ | notified s _ => some s
  | taking s | removed s | finished s | closed s => some s

/-- The node, while it is live. -/
def node : Phase → Path
  | idle | creating | removed _ | finished _ | closed _ => none
  | created s | listing s | listed s _ | checking s _ | waiting s _ | notified s _ => some s
  | taking s => some s

/-- The number with which the client has taken the lock. -/
def taken : Phase → Path
  | taking s | removed s | finished s | closed s => some s
  | _ => none

def requests : Phase → List Request
  | creating => [.create]
  | listing _ => [.getChildren]
  | checking _ w => [.exists (some w)]
  | taking s => [.delete (some s)]
  | _ => []

/-- The messages that the client has not received, without those that change nothing. -/
def messages : Phase → List Message
  | created s => [.created s]
  | listed _ names => [.children names]
  | notified _ w => [.event (some w)]
  | removed _ => [.deleted true]
  | _ => []

def watches : Phase → List ℕ
  | waiting _ w => [w]
  | _ => []

/-- The value of `zmt.seq_me`, where it is used again. -/
def seqMe : Phase → Path
  | listing s | listed s _ | checking s _ | waiting s _ | notified s _ => some s
  | _ => none

/-- The value of `zmt.watch`, where it is used again. -/
def watch : Phase → Path
  | checking _ w | waiting _ w | notified _ w => some w
  | _ => none

def started : Phase → Bool
  | idle => false
  | _ => true

def quit : Phase → Bool
  | finished _ | closed _ => true
  | _ => false

def isClosed : Phase → Bool
  | closed _ => true
  | _ => false

/-- The watches of the paths fire. -/
def fire (paths : List ℕ) : Phase → Phase
  | waiting s w => if w ∈ paths then notified s w else waiting s w
  | p => p

theorem fire_waiting (s w : ℕ) (paths : List ℕ) :
    (waiting s w).fire paths = if w ∈ paths then notified s w else waiting s w := rfl

variable {p : Phase} {paths : List ℕ}

theorem fire_node : (p.fire paths).node = p.node := by
  cases p with
  | waiting s w =>
    rw [fire_waiting]
    split <;> rfl
  | _ => rfl

theorem fire_seq : (p.fire paths).seq = p.seq := by
  cases p with
  | waiting s w =>
    rw [fire_waiting]
    split <;> rfl
  | _ => rfl

theorem fire_taken : (p.fire paths).taken = p.taken := by
  cases p with
  | waiting s w =>
    rw [fire_waiting]
    split <;> rfl
  | _ => rfl

theorem fire_listed {s : ℕ} {names : List ℕ} (h : p.fire paths = listed s names) :
    p = listed s names := by
  cases p with
  | waiting s w =>
    rw [fire_waiting] at h
    split at h <;> exact absurd h (by simp)
  | _ => exact h

/-- A client that has taken the lock has a number, and a client with a live node also. -/
theorem seq_of_taken {s : ℕ} (h : p.taken = some s) : p.seq = some s := by
  cases p <;> simp_all [taken, seq]

theorem seq_of_node {s : ℕ} (h : p.node = some s) : p.seq = some s := by
  cases p <;> simp_all [node, seq]

end Phase

/-- A message that changes the client. -/
def Message.counts : Message → Bool
  | .stat _ | .event none => false
  | _ => true

/-- The client is in the phase. -/
structure Session.At (c : Session) (p : Phase) : Prop where
  started : c.started = p.started
  isClosed : c.closed = p.isClosed
  quit : c.quit = p.quit
  requests : c.requests = p.requests
  messages : c.inbox.filter Message.counts = p.messages
  watches : c.watches = p.watches
  seqMe : ∀ s ∈ p.seqMe, c.seqMe = s
  watch : ∀ w ∈ p.watch, c.watch = some w

variable {c : Session} {p : Phase}

theorem Session.At.fire (h : c.At p) (paths : List ℕ) : (c.fire paths).At (p.fire paths) := by
  have hmessages : ((c.watches.filter (· ∈ paths)).map fun path => Message.event (some path)).filter
      Message.counts = (c.watches.filter (· ∈ paths)).map fun path => .event (some path) := by
    rw [List.filter_eq_self]
    intro m hm
    obtain ⟨path, -, rfl⟩ := List.mem_map.mp hm
    rfl
  cases p with
  | waiting s w =>
    have hw : c.watches = [w] := h.watches
    rw [Phase.fire_waiting]
    by_cases hin : w ∈ paths
    · rw [if_pos hin]
      refine ⟨h.started, h.isClosed, h.quit, h.requests, ?_, ?_, h.seqMe, h.watch⟩
      · rw [Session.fire, List.filter_append, hmessages, h.messages, hw]
        simp [hin, Phase.messages]
      · rw [Session.fire, hw]
        simp [hin, Phase.watches]
    · rw [if_neg hin]
      refine ⟨h.started, h.isClosed, h.quit, h.requests, ?_, ?_, h.seqMe, h.watch⟩
      · rw [Session.fire, List.filter_append, hmessages, h.messages, hw]
        simp [hin, Phase.messages]
      · rw [Session.fire, hw]
        simp [hin, Phase.watches]
  | _ =>
    have hw : c.watches = [] := h.watches
    refine ⟨h.started, h.isClosed, h.quit, h.requests, ?_, ?_, h.seqMe, h.watch⟩
    · rw [Session.fire, List.filter_append, hmessages, h.messages, hw]
      exact List.append_nil _
    · rw [Session.fire, hw]
      rfl

/-- A message that changes nothing comes. -/
theorem Session.At.noise (h : c.At p) {m : Message} (hm : m.counts = false) :
    Session.At { c with inbox := c.inbox ++ [m] } p := by
  refine ⟨h.started, h.isClosed, h.quit, h.requests, ?_, h.watches, h.seqMe, h.watch⟩
  rw [List.filter_append, h.messages, List.filter_cons_of_neg (by simp [hm])]
  exact List.append_nil _

/-! ## The scan -/

/-- What the loop knows of the names that it has read. -/
structure Scanned (seqMe : ℕ) (names : List ℕ) (s : Scan) : Prop where
  none : s.n = 0 ↔ ∀ q ∈ names, ¬q < seqMe
  self : seqMe ∈ names → s.valueSelf = some seqMe
  other : s.n ≠ 0 → s.valueOther = some s.seqWatch ∧ s.seqWatch ∈ names ∧ s.seqWatch < seqMe ∧
    ∀ q ∈ names, q < seqMe → q ≤ s.seqWatch

theorem Scanned.next {seqMe : ℕ} {names : List ℕ} {s : Scan} (h : Scanned seqMe names s) (v : ℕ) :
    Scanned seqMe (names ++ [v]) (scanName seqMe s v) := by
  obtain ⟨hnone, hself, hother⟩ := h
  unfold scanName
  by_cases hless : v < seqMe
  · have hfound : ¬∀ q, q ∈ names ∨ q = v → ¬q < seqMe := fun h => h v (.inr rfl) hless
    have hnew : seqMe ∈ names ++ [v] → seqMe ∈ names := by
      intro h
      rw [List.mem_append, List.mem_singleton] at h
      exact h.resolve_right (by omega)
    rw [if_pos hless]
    by_cases hzero : s.n = 0
    · rw [if_pos hzero]
      refine ⟨iff_of_false (Nat.succ_ne_zero s.n) (by simpa using hfound), fun h => hself (hnew h), ?_⟩
      intro _
      refine ⟨rfl, by simp, hless, ?_⟩
      intro q hq hq'
      simp only [List.mem_append, List.mem_singleton] at hq
      obtain hq | rfl := hq
      · exact absurd hq' (hnone.mp hzero q hq)
      · exact Nat.le_refl _
    · obtain ⟨hvalue, hmem, hlt, hlargest⟩ := hother hzero
      rw [if_neg hzero]
      by_cases hmore : s.n > 0 ∧ v > s.seqWatch
      · rw [if_pos hmore]
        refine ⟨iff_of_false (Nat.succ_ne_zero s.n) (by simpa using hfound), fun h => hself (hnew h), ?_⟩
        intro _
        refine ⟨rfl, by simp, hless, ?_⟩
        intro q hq hq'
        simp only [List.mem_append, List.mem_singleton] at hq
        obtain hq | rfl := hq
        · exact Nat.le_of_lt (Nat.lt_of_le_of_lt (hlargest q hq hq') hmore.2)
        · exact Nat.le_refl _
      · rw [if_neg hmore]
        refine ⟨iff_of_false hzero (by simpa using hfound), fun h => hself (hnew h), ?_⟩
        intro _
        refine ⟨hvalue, by simp [hmem], hlt, ?_⟩
        intro q hq hq'
        simp only [List.mem_append, List.mem_singleton] at hq
        obtain hq | rfl := hq
        · exact hlargest q hq hq'
        · omega
  · have hrest : ∀ t : Scan, t.n = s.n → t.seqWatch = s.seqWatch → t.valueOther = s.valueOther →
        (seqMe ∈ names ∨ seqMe = v → t.valueSelf = some seqMe) →
        Scanned seqMe (names ++ [v]) t := by
      intro t hn hwatch hvalue hvalueSelf
      refine ⟨?_, by simpa using hvalueSelf, ?_⟩
      · rw [hn, hnone]
        simp only [List.mem_append, List.mem_singleton]
        constructor
        · intro h q hq
          obtain hq | rfl := hq
          · exact h q hq
          · exact hless
        · exact fun h q hq => h q (.inl hq)
      · intro hsome
        rw [hn] at hsome
        obtain ⟨hold, hmem, hlt, hlargest⟩ := hother hsome
        rw [hvalue, hwatch]
        refine ⟨hold, by simp [hmem], hlt, ?_⟩
        intro q hq hq'
        simp only [List.mem_append, List.mem_singleton] at hq
        obtain hq | rfl := hq
        · exact hlargest q hq hq'
        · exact absurd hq' hless
    rw [if_neg hless]
    by_cases hme : v = seqMe
    · rw [if_pos hme]
      exact hrest _ rfl rfl rfl fun _ => by rw [hme]
    · rw [if_neg hme]
      exact hrest _ rfl rfl rfl fun h => hself (h.resolve_right fun h' => hme h'.symm)

/-- The scan finds the largest name below the own one. -/
theorem scanned (seqMe seqWatch : ℕ) (names : List ℕ) :
    Scanned seqMe names (scan seqMe seqWatch names) := by
  induction names using List.reverseRecOn with
  | nil => exact ⟨by simp [scan], by simp, by simp [scan]⟩
  | append_singleton names v ih =>
    rw [scan, List.foldl_append]
    exact ih.next v

end CServer.ZkLock
