import CServer.Foundation.Runs
import CServer.LuaChannels.Lists

/-!
# Searches of a list of waiting threads

Calls of `waitonlist` and of `searchmatch` in any order, next to the queues that they are meant to
keep. The loop of `searchmatch` looks for a null pointer, and a ring has none: a search returns only
when nobody waits or somebody waits on its channel.
-/
namespace CServer.LuaChannels

/-- The waiting threads and their channels, the longest-waiting one first. -/
abbrev Waiters := Operation → List (Thread × Bytes)

/-- `strcmp` finds no difference. -/
def wanted (channel : Bytes) (w : Thread × Bytes) : Bool :=
  cString channel = cString w.2

/-- A call of `searchmatch` or of `waitonlist`, under the lock. -/
inductive Access where
  | searchmatch (channel : Bytes) (list : Operation)
  | waitonlist (p : Thread) (channel : Bytes) (list : Operation)

def Access.exec (σ : State) (turns : ℕ) : Access → Option (State × Option Thread)
  | .searchmatch channel list => LuaChannels.searchmatch σ channel list turns
  | .waitonlist p channel list => (LuaChannels.waitonlist σ p channel list).map (fun σ => (σ, none))

/-- What a call is meant to make of the queues. -/
def Access.serve (queue : Waiters) : Access → Waiters
  | .searchmatch channel list =>
    Function.update queue list ((queue list).eraseP (wanted channel))
  | .waitonlist p channel list => Function.update queue list (queue list ++ [(p, channel)])

/-- A thread that waits calls nothing. -/
def Access.Free (queue : Waiters) : Access → Prop
  | .searchmatch _ _ => True
  | .waitonlist p _ _ => ∀ list, p ∉ (queue list).map Prod.fst

/-- The calls return one after the other. -/
def Ran : State → List Access → State → Prop
  | σ, [], τ => σ = τ
  | σ, access :: rest, τ =>
    ∃ turns σ' found, access.exec σ turns = some (σ', found) ∧ Ran σ' rest τ

/-- Who waits after some calls. -/
def waiters (accesses : List Access) : Waiters :=
  Runs.finalState Access.serve (fun _ => []) accesses

/-- Each list is the ring of its queue, and no thread is in both. -/
structure Keeps (σ : State) (queue : Waiters) : Prop where
  linked : ∀ list, Queued σ.procs ((queue list).map Prod.fst)
  head : ∀ list, σ.wait list = ((queue list).map Prod.fst).head?
  named : ∀ list, ∀ w ∈ queue list, (σ.procs w.1).channel = some w.2
  apart : ∀ list t, t ∈ (queue list).map Prod.fst → t ∉ (queue list.other).map Prod.fst

variable {σ σ' : State} {queue : Waiters} {channel : Bytes} {list : Operation} {turns : ℕ}
  {found : Option Thread}

theorem Keeps.matchesAt_eq (h : Keeps σ queue) {w : Thread × Bytes} (hw : w ∈ queue list) :
    matchesAt σ.procs channel w.1 = wanted channel w := by
  unfold matchesAt wanted
  rw [h.named list w hw]

theorem Keeps.channel_ne (h : Keeps σ queue) :
    ∀ t ∈ (queue list).map Prod.fst, (σ.procs t).channel ≠ none := by
  intro t ht
  obtain ⟨w, hw, rfl⟩ := List.mem_map.mp ht
  rw [h.named list w hw]
  exact Option.some_ne_none _

/-- The other list is as it was. -/
theorem Keeps.linked_other (h : Keeps σ queue) {procs : Thread → Proc} {l : List Thread}
    (hsame : ∀ t ∉ l, procs t = σ.procs t)
    (hother : ∀ t ∈ (queue list.other).map Prod.fst, t ∉ l) :
    Queued procs ((queue list.other).map Prod.fst) :=
  (h.linked list.other).congr (fun t ht => by rw [hsame t (hother t ht)])
    (fun t ht => by rw [hsame t (hother t ht)])

/-- A search of a list that returns. -/
theorem Keeps.searchmatch (h : Keeps σ queue)
    (hres : searchmatch σ channel list turns = some (σ', found)) :
    (queue list = [] ∧ found = none ∧ σ' = σ) ∨
      ∃ front w back, queue list = front ++ w :: back ∧ (∀ v ∈ front, wanted channel v = false) ∧
        wanted channel w = true ∧ found = some w.1 ∧
        Keeps σ' (Function.update queue list (front ++ back)) := by
  unfold LuaChannels.searchmatch at hres
  rw [h.head] at hres
  cases hloop : searchLoop σ.procs channel turns ((queue list).map Prod.fst).head? with
  | none =>
    rw [hloop] at hres
    exact absurd hres (by simp)
  | some result =>
    rw [hloop] at hres
    obtain ⟨hnil, rfl⟩ | ⟨fs, p, bs, hsplit, rfl, hpassed, hmatch⟩ :=
      searchLoop_spec (h.linked list) h.channel_ne hloop
    · obtain ⟨rfl, rfl⟩ := Prod.mk.inj (Option.some.inj hres)
      exact Or.inl ⟨List.map_eq_nil_iff.mp hnil, rfl, rfl⟩
    · right
      obtain ⟨front, back', hqueue, hfront, hrest⟩ := List.map_eq_append_iff.mp hsplit
      obtain ⟨w, back, rfl, rfl, rfl⟩ := List.map_eq_cons_iff.mp hrest
      subst hfront
      have hlinked := h.linked list
      have hhead := h.head list
      rw [hsplit] at hlinked hhead
      obtain ⟨procs, hunlink, hnew, hchannel, hsame⟩ := unlink_spec hlinked hhead
      simp only [hunlink, Option.map_some, Option.some.injEq, Prod.mk.injEq] at hres
      obtain ⟨rfl, rfl⟩ := hres
      have hkept : ∀ v ∈ front ++ back, v ∈ queue list := by
        intro v hv
        rw [hqueue]
        simp only [List.mem_append, List.mem_cons] at hv ⊢
        tauto
      have hrest : ∀ t ∈ (front ++ back).map Prod.fst, t ∈ (queue list).map Prod.fst := by
        intro t ht
        obtain ⟨v, hv, rfl⟩ := List.mem_map.mp ht
        exact List.mem_map_of_mem (hkept v hv)
      refine ⟨front, w, back, hqueue, ?_, ?_, rfl, ⟨?_, ?_, ?_, ?_⟩⟩
      · intro v hv
        rw [← h.matchesAt_eq (hkept v (List.mem_append_left back hv))]
        exact hpassed v.1 (List.mem_map_of_mem hv)
      · rw [← h.matchesAt_eq (hqueue ▸ List.mem_append_right front List.mem_cons_self)]
        exact hmatch
      · intro list'
        rcases list.eq_or_other list' with rfl | rfl
        · rw [Function.update_self, List.map_append]
          exact hnew
        · rw [Function.update_of_ne (Operation.other_ne _)]
          refine h.linked_other hsame (fun t ht hmem => ?_)
          rw [← hsplit] at hmem
          exact h.apart list t hmem ht
      · intro list'
        rcases list.eq_or_other list' with rfl | rfl
        · simp only [Function.update_self, List.map_append]
        · simp only [Function.update_of_ne (Operation.other_ne _)]
          exact h.head list.other
      · intro list' v hv
        show (procs v.1).channel = _
        rw [hchannel]
        rcases list.eq_or_other list' with rfl | rfl
        · rw [Function.update_self] at hv
          exact h.named list' v (hkept v hv)
        · rw [Function.update_of_ne (Operation.other_ne _)] at hv
          exact h.named list.other v hv
      · intro list' t
        rcases list.eq_or_other list' with rfl | rfl
        · rw [Function.update_self, Function.update_of_ne (Operation.other_ne _)]
          exact fun ht => h.apart list' t (hrest t ht)
        · rw [Function.update_of_ne (Operation.other_ne _), Operation.other_other,
            Function.update_self]
          exact fun ht hmem => h.apart list t (hrest t hmem) ht

/-- A search returns when nobody waits, or somebody on the channel. -/
theorem Keeps.searchmatch_returns_iff (h : Keeps σ queue) (channel : Bytes) (list : Operation) :
    (∃ turns result, LuaChannels.searchmatch σ channel list turns = some result) ↔
      queue list = [] ∨ ∃ w ∈ queue list, wanted channel w = true := by
  constructor
  · rintro ⟨turns, ⟨σ', found⟩, hres⟩
    obtain ⟨hnil, -⟩ | ⟨front, w, back, hqueue, -, hw, -⟩ := h.searchmatch hres
    · exact Or.inl hnil
    · refine Or.inr ⟨w, ?_, hw⟩
      rw [hqueue]
      exact List.mem_append_right front List.mem_cons_self
  · intro hcan
    have hthreads : (queue list).map Prod.fst = [] ∨
        ∃ t ∈ (queue list).map Prod.fst, matchesAt σ.procs channel t = true := by
      rcases hcan with hnil | ⟨w, hw, hwanted⟩
      · exact Or.inl (List.map_eq_nil_iff.mpr hnil)
      · exact Or.inr ⟨w.1, List.mem_map_of_mem hw, (h.matchesAt_eq hw).trans hwanted⟩
    obtain ⟨turns, result, hloop⟩ :=
      (searchLoop_returns_iff (h.linked list) h.channel_ne).mpr hthreads
    refine ⟨turns, ?_⟩
    unfold LuaChannels.searchmatch
    rw [h.head, hloop]
    obtain ⟨-, rfl⟩ | ⟨front, p, back, hsplit, rfl, -, -⟩ :=
      searchLoop_spec (h.linked list) h.channel_ne hloop
    · exact ⟨(σ, none), rfl⟩
    · have hlinked := h.linked list
      have hhead := h.head list
      rw [hsplit] at hlinked hhead
      obtain ⟨procs, hunlink, -⟩ := unlink_spec hlinked hhead
      simp only [hunlink]
      exact ⟨_, rfl⟩

/-- The search as it is meant: it returns, with the longest-waiting thread of those on the channel,
which leaves its list, or with none and nothing changed. -/
def Finds (σ : State) (queue : Waiters) (channel : Bytes) (list : Operation) : Prop :=
  ∃ turns σ' found, searchmatch σ channel list turns = some (σ', found) ∧
    found = ((queue list).find? (wanted channel)).map Prod.fst ∧
    Keeps σ' ((Access.searchmatch channel list).serve queue) ∧ (found = none → σ' = σ)

/-- A search that returns does what it is meant to do. -/
theorem Keeps.searchmatch_served (h : Keeps σ queue)
    (hres : LuaChannels.searchmatch σ channel list turns = some (σ', found)) :
    found = ((queue list).find? (wanted channel)).map Prod.fst ∧
      Keeps σ' ((Access.searchmatch channel list).serve queue) ∧ (found = none → σ' = σ) := by
  obtain ⟨hnil, rfl, rfl⟩ | ⟨front, w, back, hqueue, hfront, hw, rfl, hkeeps⟩ := h.searchmatch hres
  · refine ⟨?_, ?_, fun _ => rfl⟩
    · rw [hnil]
      rfl
    · rw [Access.serve, hnil, List.eraseP_nil, ← hnil, Function.update_eq_self]
      exact h
  · refine ⟨?_, ?_, fun hnone => absurd hnone (Option.some_ne_none _)⟩
    · have hfirst : (queue list).find? (wanted channel) = some w := by
        rw [List.find?_eq_some_iff_append]
        exact ⟨hw, front, back, hqueue, fun v hv => by simp [hfront v hv]⟩
      rw [hfirst]
      rfl
    · have herase : (queue list).eraseP (wanted channel) = front ++ back := by
        rw [hqueue, List.eraseP_append_right _ (fun v hv => by simp [hfront v hv]),
          List.eraseP_cons_of_pos hw]
      rw [Access.serve, herase]
      exact hkeeps

/-- A thread that waits is the last one of its queue. -/
theorem Keeps.waitonlist (h : Keeps σ queue) {p : Thread}
    (hfree : ∀ list, p ∉ (queue list).map Prod.fst)
    (hres : waitonlist σ p channel list = some σ') :
    Keeps σ' ((Access.waitonlist p channel list).serve queue) := by
  obtain ⟨procs, heq, hqueued, hchannel, hsame⟩ :=
    waitonlist_spec (h.linked list) (h.head list) (hfree list) channel
  rw [hres] at heq
  have hσ' := Option.some.inj heq
  have hprocs : σ'.procs = procs := by rw [hσ']
  have hnew : (queue list ++ [(p, channel)]).map Prod.fst = (queue list).map Prod.fst ++ [p] := by
    rw [List.map_append]
    rfl
  refine ⟨?_, ?_, ?_, ?_⟩
  · intro list'
    rw [hprocs, Access.serve]
    rcases list.eq_or_other list' with rfl | rfl
    · rw [Function.update_self, hnew]
      exact hqueued
    · rw [Function.update_of_ne (Operation.other_ne _)]
      refine h.linked_other hsame (fun t ht hmem => ?_)
      rcases List.mem_append.mp hmem with hold | hlast
      · exact h.apart list t hold ht
      · exact hfree list.other (List.mem_singleton.mp hlast ▸ ht)
  · intro list'
    rw [Access.serve, hσ']
    rcases list.eq_or_other list' with rfl | rfl
    · simp only [Function.update_self, hnew]
    · simp only [Function.update_of_ne (Operation.other_ne _)]
      exact h.head list.other
  · intro list' w hw
    rw [hprocs, hchannel]
    rw [Access.serve] at hw
    have hold : w ∈ queue list' → w.1 ≠ p := by
      intro hmem heq
      exact hfree list' (heq ▸ List.mem_map_of_mem hmem)
    rcases list.eq_or_other list' with rfl | rfl
    · rw [Function.update_self] at hw
      rcases List.mem_append.mp hw with hmem | hlast
      · rw [if_neg (hold hmem)]
        exact h.named list' w hmem
      · rw [List.mem_singleton.mp hlast, if_pos rfl]
    · rw [Function.update_of_ne (Operation.other_ne _)] at hw
      rw [if_neg (hold hw)]
      exact h.named list.other w hw
  · intro list' t ht
    rw [Access.serve] at ht ⊢
    rcases list.eq_or_other list' with rfl | rfl
    · rw [Function.update_self, hnew] at ht
      rw [Function.update_of_ne (Operation.other_ne _)]
      rcases List.mem_append.mp ht with hold | hlast
      · exact h.apart list' t hold
      · rw [List.mem_singleton.mp hlast]
        exact hfree list'.other
    · rw [Function.update_of_ne (Operation.other_ne _)] at ht
      rw [Operation.other_other, Function.update_self, hnew]
      intro hmem
      rcases List.mem_append.mp hmem with hold | hlast
      · exact h.apart list t hold ht
      · exact hfree list.other (List.mem_singleton.mp hlast ▸ ht)

theorem Keeps.exec (h : Keeps σ queue) {access : Access} (hfree : access.Free queue)
    (hres : access.exec σ turns = some (σ', found)) : Keeps σ' (access.serve queue) := by
  cases access with
  | searchmatch channel list => exact (h.searchmatch_served hres).2.1
  | waitonlist p channel list =>
    obtain ⟨τ, hwait, heq⟩ := Option.map_eq_some_iff.mp hres
    obtain ⟨rfl, -⟩ := Prod.mk.inj heq
    exact h.waitonlist hfree hwait

theorem Keeps.ran (h : Keeps σ queue) {accesses : List Access}
    (hfree : Runs.Along Access.serve Access.Free queue accesses) (hran : Ran σ accesses σ') :
    Keeps σ' (Runs.finalState Access.serve queue accesses) := by
  induction accesses generalizing σ queue with
  | nil => exact hran ▸ h
  | cons access rest ih =>
    obtain ⟨turns, τ, found, hexec, hrest⟩ := hran
    exact ih (h.exec hfree.1 hexec) hfree.2 hrest

/-- Both lists are empty; the memory of the control blocks holds anything. -/
theorem keeps_start (memory : Thread → Proc) : Keeps (start memory).1 (fun _ => []) :=
  ⟨fun _ => Linked.ring_nil, fun _ => rfl, fun _ _ hw => absurd hw List.not_mem_nil,
    fun _ _ ht => absurd ht List.not_mem_nil⟩

/-- On every list that calls have left, a search does what it is meant to do exactly when nobody
waits there or somebody waits on the channel. -/
theorem searchmatch_finds_iff (memory : Thread → Proc) (accesses : List Access)
    (hfree : Runs.Along Access.serve Access.Free (fun _ => []) accesses) (σ : State)
    (hran : Ran (start memory).1 accesses σ) (channel : Bytes) (list : Operation) :
    Finds σ (waiters accesses) channel list ↔
      waiters accesses list = [] ∨
        ∃ w ∈ waiters accesses list, cString channel = cString w.2 := by
  have h : Keeps σ (waiters accesses) := (keeps_start memory).ran hfree hran
  have hreturns := h.searchmatch_returns_iff channel list
  simp only [wanted, decide_eq_true_eq] at hreturns
  rw [← hreturns]
  constructor
  · rintro ⟨turns, σ', found, hres, -⟩
    exact ⟨turns, (σ', found), hres⟩
  · rintro ⟨turns, ⟨σ', found⟩, hres⟩
    exact ⟨turns, σ', found, hres, h.searchmatch_served hres⟩

/-- Two senders wait, on the channels `a` and `b`. -/
def twoSenders : List Access := [.waitonlist 0 [97] .send, .waitonlist 1 [98] .send]

theorem searchmatch_finds_iff_second : ∃ σ,
    Ran (start fun _ => ⟨none, none, none⟩).1 twoSenders σ ∧
      Finds σ (waiters twoSenders) [98] .send := by
  have hfree : Runs.Along Access.serve Access.Free (fun _ => []) twoSenders := by
    refine ⟨fun _ => List.not_mem_nil, fun list => ?_, trivial⟩
    cases list <;> decide
  obtain ⟨σ, hran⟩ : ∃ σ, Ran (start fun _ => ⟨none, none, none⟩).1 twoSenders σ :=
    ⟨_, 0, _, none, rfl, 0, _, none, rfl, rfl⟩
  exact ⟨σ, hran, (searchmatch_finds_iff _ twoSenders hfree σ hran [98] .send).mpr
    (Or.inr ⟨(1, [98]), by decide, rfl⟩)⟩

/-- One thread waits on `a`; a search for `b` goes round the ring. -/
theorem searchmatch_never_returns : ∃ σ,
    Ran (start fun _ => ⟨none, none, none⟩).1 [.waitonlist 0 [97] .send] σ ∧
      (∀ turns, searchmatch σ [98] .send turns = none) ∧
      ¬Finds σ (waiters [.waitonlist 0 [97] .send]) [98] .send := by
  obtain ⟨σ, hran⟩ : ∃ σ, Ran (start fun _ => ⟨none, none, none⟩).1 [.waitonlist 0 [97] .send] σ :=
    ⟨_, 0, _, none, rfl, rfl⟩
  have h : Keeps σ (waiters [.waitonlist 0 [97] .send]) :=
    (keeps_start _).ran ⟨fun _ => List.not_mem_nil, trivial⟩ hran
  have hnot : ¬∃ turns result, searchmatch σ [98] .send turns = some result := by
    rw [h.searchmatch_returns_iff]
    decide
  refine ⟨σ, hran, fun turns => ?_, ?_⟩
  · cases hres : searchmatch σ [98] .send turns with
    | none => rfl
    | some result => exact absurd ⟨turns, result, hres⟩ hnot
  · rintro ⟨turns, σ', found, hres, -⟩
    exact hnot ⟨turns, (σ', found), hres⟩

end CServer.LuaChannels
