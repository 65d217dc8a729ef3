import CServer.LuaChannels.Lists
import CServer.LuaChannels.Meetings
import Mathlib.Data.List.TakeWhile

/-!
# Orderly channels

Of the calls on a channel only those of one kind wait. They wait in the order of their arrival, and
the first of them is met next. A zero byte in a name makes two channels one, and a value with a zero
byte arrives without what follows it; without zero bytes every run is orderly.
-/
namespace CServer.LuaChannels

/-- No zero byte in the name of the channel and in what is sent. -/
def Call.Plain (call : Call) : Prop :=
  0 ∉ call.channel ∧ (call.operation = .send → ∀ v ∈ call.values, 0 ∉ v)

def Event.Plain : Event → Prop
  | .call c => c.Plain
  | _ => True

/-- The Lua stack at the search. -/
def Call.onStack (call : Call) : List Bytes :=
  match call.operation with
  | .send => call.channel :: call.values
  | .receive => (call.channel :: call.values).take 1

/-- The arguments of a call are put on the stack. -/
def Call.enter (call : Call) (σ : State) : State :=
  { σ with stack := Function.update σ.stack call.thread call.onStack }

def waitsOn (procs : Thread → Proc) (channel : Bytes) (t : Thread) : Bool :=
  (procs t).channel = some channel

/-- What holds between steps. A thread in a list is in a call that has met nobody, and those that
wait on a channel are in the calls that are left over there; a thread that has been served is in a
call that has met one. -/
structure Holds (σ : State) (ρ : Record) (queue : Operation → List Thread) : Prop where
  listed : Listed σ queue
  paired : ρ.Paired
  plain : ∀ call ∈ ρ.calls, call.Plain
  pending : ∀ operation t, t ∈ queue operation → ∃ call, ρ.calls[ρ.current t]? = some call ∧
    call.operation = operation ∧ (σ.procs t).channel = some call.channel ∧ σ.stack t = call.onStack
  order : ∀ operation channel, ((queue operation).filter (waitsOn σ.procs channel)).map ρ.current =
    (ρ.callsOn operation channel).drop (ρ.callsOn operation.other channel).length
  ended : ∀ t operation, σ.place t = .waiting operation → (σ.procs t).channel = none →
    ρ.Ends (ρ.current t) (σ.results operation t)
  completed : ∀ i results, (i, results) ∈ ρ.returned → ρ.Ends i results

variable {σ σ' : State} {ρ ρ' : Record} {queue : Operation → List Thread} {operation : Operation}
  {t u p : Thread} {call mate : Call} {channel name : Bytes} {front back : List Thread} {i turns : ℕ}
  {results : List Bytes}

theorem cString_of_plain (h : 0 ∉ name) : cString name = name := by
  unfold cString
  rw [List.takeWhile_eq_self_iff]
  intro b hb
  have hne : b ≠ 0 := fun heq => h (heq ▸ hb)
  simpa using hne

theorem map_cString_of_plain {values : List Bytes} (h : ∀ v ∈ values, 0 ∉ v) :
    values.map cString = values := by
  rw [List.map_congr_left (fun v hv => cString_of_plain (h v hv)), List.map_id']

theorem waitsOn_iff : waitsOn σ.procs channel t = true ↔ (σ.procs t).channel = some channel :=
  decide_eq_true_iff

theorem exec_eq (call : Call) (σ : State) (turns : ℕ) : call.exec σ turns =
    exchange (call.enter σ) call.operation call.thread call.channel turns := by
  unfold Call.exec Call.enter Call.onStack
  cases call.operation <;> rfl

theorem results_congr (h : σ'.stack t = σ.stack t) :
    σ'.results operation t = σ.results operation t := by
  unfold State.results
  rw [h]

theorem filter_waitsOn_congr {procs procs' : Thread → Proc} {l : List Thread}
    (h : ∀ u ∈ l, (procs' u).channel = (procs u).channel) (channel : Bytes) :
    l.filter (waitsOn procs' channel) = l.filter (waitsOn procs channel) := by
  apply List.filter_congr
  intro u hu
  unfold waitsOn
  rw [h u hu]

theorem map_current_arrive {l : List Thread} (call : Call) (h : call.thread ∉ l) :
    l.map (ρ.arrive call).current = l.map ρ.current := by
  apply List.map_congr_left
  intro u hu
  have hne : u ≠ call.thread := fun heq => h (heq ▸ hu)
  exact Function.update_of_ne hne _ _

theorem Holds.waits (h : Holds σ ρ queue) (ht : σ.place call.thread = .running) (hplain : call.Plain)
    (hw : Waits (call.enter σ) σ' queue call.operation call.thread call.channel) :
    Holds σ' (ρ.arrive call)
      (Function.update queue call.operation (queue call.operation ++ [call.thread])) := by
  have hne : ∀ operation u, u ∈ queue operation → u ≠ call.thread :=
    fun operation u hu heq => h.listed.not_running ht (heq ▸ hu)
  have hchannel : ∀ u, u ≠ call.thread → (σ'.procs u).channel = (σ.procs u).channel := by
    intro u hu
    rw [hw.channel_eq, if_neg hu]
    rfl
  have hstack : ∀ u, u ≠ call.thread → σ'.stack u = σ.stack u := by
    intro u hu
    rw [hw.stack_eq]
    exact Function.update_of_ne hu _ _
  have hcurrent : ∀ u, u ≠ call.thread → (ρ.arrive call).current u = ρ.current u :=
    fun u hu => Function.update_of_ne hu _ _
  have hself : (ρ.arrive call).current call.thread = ρ.calls.length := Function.update_self ..
  have hlen : ∀ channel, (ρ.callsOn call.operation.other channel).length ≤
      (ρ.callsOn call.operation channel).length := by
    intro channel
    have horder := h.order call.operation.other channel
    rw [hw.alone, Operation.other_other] at horder
    exact List.drop_eq_nil_iff.mp horder.symm
  refine ⟨hw.listed, h.paired.arrive call hlen, ?_, ?_, ?_, ?_, ?_⟩
  · intro call' hcall'
    rcases List.mem_append.mp hcall' with hold | hnew
    · exact h.plain call' hold
    · rw [List.mem_singleton.mp hnew]
      exact hplain
  · intro operation u hu
    rcases call.operation.eq_or_other operation with rfl | rfl
    · rw [Function.update_self, List.mem_append, List.mem_singleton] at hu
      rcases hu with hold | rfl
      · obtain ⟨call', hcall', hop, hch, hst⟩ := h.pending _ u hold
        have hu := hne _ u hold
        refine ⟨call', ?_, hop, (hchannel u hu).trans hch, (hstack u hu).trans hst⟩
        rw [hcurrent u hu]
        exact getElem?_arrive hcall' call
      · refine ⟨call, ?_, rfl, ?_, ?_⟩
        · rw [hself]
          exact getElem?_arrive_self call
        · rw [hw.channel_eq, if_pos rfl]
        · rw [hw.stack_eq]
          exact Function.update_self ..
    · rw [Function.update_of_ne (Operation.other_ne _), hw.alone] at hu
      exact absurd hu List.not_mem_nil
  · intro operation channel
    rcases call.operation.eq_or_other operation with rfl | rfl
    · rw [Function.update_self, List.filter_append, List.map_append, callsOn_arrive_self,
        callsOn_arrive_other, List.drop_append_of_le_length (hlen channel), ← h.order,
        filter_waitsOn_congr (fun u hu => hchannel u (hne _ u hu)),
        map_current_arrive call (fun hmem => hne _ _ (List.mem_of_mem_filter hmem) rfl)]
      congr 1
      by_cases hch : call.channel = channel
      · simp [waitsOn, hw.channel_eq, hch, hself]
      · simp [waitsOn, hw.channel_eq, hch]
    · rw [Function.update_of_ne (Operation.other_ne _), hw.alone, Operation.other_other,
        callsOn_arrive_other, callsOn_arrive_self]
      refine (List.drop_eq_nil_iff.mpr ?_).symm
      rw [List.length_append]
      exact le_trans (hlen channel) (Nat.le_add_right _ _)
  · intro u operation hplace hnone
    have hu : u ≠ call.thread := by
      intro heq
      rw [hw.channel_eq, if_pos heq] at hnone
      exact absurd hnone (by simp)
    rw [hw.place_eq, Function.update_of_ne hu] at hplace
    rw [hchannel u hu] at hnone
    rw [hcurrent u hu, results_congr (hstack u hu)]
    exact (h.ended u operation hplace hnone).arrive call
  · intro i results hmem
    exact (h.completed i results hmem).arrive call

theorem moveBetween_stack (hup : u ≠ p) (hut : u ≠ t) :
    (moveBetween σ operation t p).stack u = σ.stack u := by
  cases operation with
  | send => exact Function.update_of_ne hup _ _
  | receive => exact Function.update_of_ne hut _ _

theorem matchesAt_iff (hname : (σ.procs t).channel = some name) :
    matchesAt σ.procs channel t = true ↔ cString channel = cString name := by
  unfold matchesAt
  rw [hname]
  exact decide_eq_true_iff

/-- What the two calls of a meeting return. -/
theorem results_met (hmate : mate.operation = call.operation.other) (hplain : call.Plain)
    (hmplain : mate.Plain) (ht : σ.stack call.thread = call.onStack)
    (hp : σ.stack p = mate.onStack)
    (hstack : σ'.stack = (moveBetween σ call.operation call.thread p).stack) :
    (call.operation = .send →
        σ'.results .send call.thread = [] ∧ σ'.results .receive p = call.values) ∧
      (call.operation = .receive → σ'.results .receive call.thread = mate.values ∧
        σ'.results .send p = []) := by
  constructor
  · intro hop
    refine ⟨rfl, ?_⟩
    have hsends : σ.stack call.thread = call.channel :: call.values := by
      rw [ht, Call.onStack, hop]
    have htakes : σ.stack p = [mate.channel] := by
      rw [hp, Call.onStack, hmate, hop]
      rfl
    show (σ'.stack p).tail = call.values
    rw [hstack, hop]
    show (Function.update σ.stack p (σ.stack p ++ (σ.stack call.thread).tail.map cString) p).tail = _
    rw [Function.update_self, htakes, hsends]
    exact map_cString_of_plain (hplain.2 hop)
  · intro hop
    have hmop : mate.operation = .send := by
      rw [hmate, hop]
      rfl
    refine ⟨?_, rfl⟩
    have htakes : σ.stack call.thread = [call.channel] := by
      rw [ht, Call.onStack, hop]
      rfl
    have hsends : σ.stack p = mate.channel :: mate.values := by
      rw [hp, Call.onStack, hmop]
    show (σ'.stack call.thread).tail = mate.values
    rw [hstack, hop]
    show (Function.update σ.stack call.thread (σ.stack call.thread ++ (σ.stack p).tail.map cString)
      call.thread).tail = _
    rw [Function.update_self, htakes, hsends]
    exact map_cString_of_plain (hmplain.2 hmop)

/-- The thread that is met is in a call on the same channel. -/
theorem Holds.met_call (h : Holds σ ρ queue) (hplain : call.Plain)
    (hm : Met (call.enter σ) σ' queue call.operation call.thread call.channel front p back) :
    p ∈ queue call.operation.other ∧ ∃ mate, ρ.calls[ρ.current p]? = some mate ∧
      mate.operation = call.operation.other ∧ mate.channel = call.channel ∧
      (σ.procs p).channel = some call.channel ∧ σ.stack p = mate.onStack ∧ mate.Plain := by
  have hp : p ∈ queue call.operation.other := by
    rw [hm.split]
    simp
  obtain ⟨mate, hmate, hop, hchannel, hstack⟩ := h.pending _ p hp
  have hmplain : mate.Plain := h.plain mate (List.mem_of_getElem? hmate)
  have hfound : cString call.channel = cString mate.channel :=
    (matchesAt_iff (σ := σ) hchannel).mp hm.found
  rw [cString_of_plain hplain.1, cString_of_plain hmplain.1] at hfound
  exact ⟨hp, mate, hmate, hop, hfound.symm, by rw [hchannel, hfound], hstack, hmplain⟩

/-- The threads that have been passed wait on other channels. -/
theorem Met.front_eq
    (hm : Met (call.enter σ) σ' queue call.operation call.thread call.channel front p back) :
    front.filter (waitsOn σ.procs call.channel) = [] := by
  rw [List.filter_eq_nil_iff]
  intro u hu hwaits
  have hpassed := hm.passed u hu
  rw [(matchesAt_iff (σ := call.enter σ) (waitsOn_iff.mp hwaits)).mpr rfl] at hpassed
  exact absurd hpassed (by simp)

/-- The first call that is left over is the one of the thread that is met. -/
theorem Holds.first_left (h : Holds σ ρ queue) (hplain : call.Plain)
    (hm : Met (call.enter σ) σ' queue call.operation call.thread call.channel front p back) :
    (ρ.callsOn call.operation.other call.channel).drop
        (ρ.callsOn call.operation call.channel).length =
      ρ.current p :: (back.filter (waitsOn σ.procs call.channel)).map ρ.current := by
  obtain ⟨-, mate, -, -, -, hchannel, -⟩ := h.met_call hplain hm
  have horder := h.order call.operation.other call.channel
  rw [Operation.other_other] at horder
  rw [← horder, hm.split, List.filter_append, hm.front_eq,
    List.filter_cons_of_pos (waitsOn_iff.mpr hchannel)]
  rfl

/-- The record after a meeting: both calls end. -/
theorem Holds.ends_met (h : Holds σ ρ queue) (ht : σ.place call.thread = .running)
    (hplain : call.Plain)
    (hm : Met (call.enter σ) σ' queue call.operation call.thread call.channel front p back) :
    ((ρ.arrive call).meet call.operation call.thread p).Paired ∧
      ((ρ.arrive call).meet call.operation call.thread p).Ends ρ.calls.length
        (σ'.results call.operation call.thread) ∧
      ((ρ.arrive call).meet call.operation call.thread p).Ends (ρ.current p)
        (σ'.results call.operation.other p) := by
  obtain ⟨hp, mate, hmate, hmop, hch, -, hstack, hmplain⟩ := h.met_call hplain hm
  have hpt : p ≠ call.thread := fun heq => h.listed.not_running ht (heq ▸ hp)
  obtain ⟨hpaired, s, r, sent, taken, hmeets, hsend, hreceive⟩ :=
    h.paired.meet hmate hmop hch hpt (h.first_left hplain hm)
  obtain ⟨hressend, hresreceive⟩ := results_met (σ := call.enter σ) hmop hplain hmplain
    (Function.update_self ..) ((Function.update_of_ne hpt _ _).trans hstack) hm.stack_eq
  refine ⟨hpaired, ?_⟩
  cases hop : call.operation with
  | send =>
    obtain ⟨rfl, rfl, rfl, rfl⟩ := hsend hop
    rw [hop] at hmeets
    exact ⟨⟨_, _, _, _, hmeets, Or.inl ⟨rfl, (hressend hop).1⟩⟩,
      ⟨_, _, _, _, hmeets, Or.inr ⟨rfl, (hressend hop).2⟩⟩⟩
  | receive =>
    obtain ⟨rfl, rfl, rfl, rfl⟩ := hreceive hop
    rw [hop] at hmeets
    exact ⟨⟨_, _, _, _, hmeets, Or.inr ⟨rfl, (hresreceive hop).1⟩⟩,
      ⟨_, _, _, _, hmeets, Or.inl ⟨rfl, (hresreceive hop).2⟩⟩⟩

/-- The threads that still wait after a meeting: they have waited before and are not the one met. -/
theorem Holds.still_waits (h : Holds σ ρ queue)
    (hm : Met (call.enter σ) σ' queue call.operation call.thread call.channel front p back)
    (hu : u ∈ Function.update queue call.operation.other (front ++ back) operation) :
    u ∈ queue operation ∧ u ≠ p := by
  have hp : p ∈ queue call.operation.other := by
    rw [hm.split]
    simp
  rcases call.operation.eq_or_other operation with rfl | rfl
  · rw [Function.update_of_ne (Operation.other_ne _).symm] at hu
    exact ⟨hu, fun heq => h.listed.not_other hu (heq ▸ hp)⟩
  · rw [Function.update_self] at hu
    have hnodup := (h.listed.linked call.operation.other).1
    rw [hm.split] at hnodup ⊢
    have hnot := (List.nodup_cons.mp (List.nodup_middle.mp hnodup)).1
    refine ⟨?_, fun heq => hnot (heq ▸ hu)⟩
    simp only [List.mem_append, List.mem_cons] at hu ⊢
    tauto

theorem Holds.order_met (h : Holds σ ρ queue) (ht : σ.place call.thread = .running)
    (hplain : call.Plain)
    (hm : Met (call.enter σ) σ' queue call.operation call.thread call.channel front p back)
    (operation : Operation) (channel : Bytes) :
    ((Function.update queue call.operation.other (front ++ back) operation).filter
        (waitsOn σ'.procs channel)).map (ρ.arrive call).current =
      ((ρ.arrive call).callsOn operation channel).drop
        ((ρ.arrive call).callsOn operation.other channel).length := by
  have hfirst := h.first_left hplain hm
  obtain ⟨-, mate, -, -, -, hpchannel, -⟩ := h.met_call hplain hm
  have hsame : ∀ u ∈ Function.update queue call.operation.other (front ++ back) operation,
      (σ'.procs u).channel = (σ.procs u).channel := by
    intro u hu
    rw [hm.channel_eq, if_neg (h.still_waits hm hu).2]
    rfl
  rw [filter_waitsOn_congr hsame, map_current_arrive call
    (fun hmem => h.listed.not_running ht (h.still_waits hm (List.mem_of_mem_filter hmem)).1)]
  rcases call.operation.eq_or_other operation with rfl | rfl
  · rw [Function.update_of_ne (Operation.other_ne _).symm, callsOn_arrive_self,
      callsOn_arrive_other, h.order]
    by_cases hc : call.channel = channel
    · -- nobody of the caller's kind waits on the channel
      subst hc
      have hless := congrArg List.length hfirst
      rw [List.length_drop, List.length_cons] at hless
      rw [if_pos rfl, List.drop_eq_nil_iff.mpr (by omega), List.drop_eq_nil_iff.mpr]
      rw [List.length_append, List.length_singleton]
      omega
    · rw [if_neg hc, List.append_nil]
  · rw [Function.update_self, Operation.other_other, callsOn_arrive_self, callsOn_arrive_other]
    by_cases hc : call.channel = channel
    · subst hc
      rw [if_pos rfl, List.filter_append, hm.front_eq, List.nil_append, List.length_append,
        List.length_singleton, ← List.drop_drop, hfirst]
      rfl
    · have hpnot : ¬waitsOn σ.procs channel p = true := by
        rw [waitsOn_iff, hpchannel]
        simpa using hc
      have horder := h.order call.operation.other channel
      rw [Operation.other_other, hm.split, List.filter_append, List.filter_cons_of_neg hpnot,
        ← List.filter_append] at horder
      rw [if_neg hc, List.append_nil, horder]

theorem Holds.met (h : Holds σ ρ queue) (ht : σ.place call.thread = .running) (hplain : call.Plain)
    (hm : Met (call.enter σ) σ' queue call.operation call.thread call.channel front p back) :
    Holds σ' (((ρ.arrive call).meet call.operation call.thread p).finish call.thread
        (σ'.results call.operation call.thread))
      (Function.update queue call.operation.other (front ++ back)) := by
  have hchannel : ∀ u, u ≠ p → (σ'.procs u).channel = (σ.procs u).channel := by
    intro u hu
    rw [hm.channel_eq, if_neg hu]
    rfl
  have hstack : ∀ u, u ≠ p → u ≠ call.thread → σ'.stack u = σ.stack u := by
    intro u hup hut
    rw [hm.stack_eq, moveBetween_stack hup hut]
    exact Function.update_of_ne hut _ _
  have hcurrent : ∀ u, u ≠ call.thread →
      ((ρ.arrive call).meet call.operation call.thread p).current u = ρ.current u := by
    intro u hu
    rw [current_meet]
    exact Function.update_of_ne hu _ _
  have hself : ((ρ.arrive call).meet call.operation call.thread p).current call.thread =
      ρ.calls.length := by
    rw [current_meet]
    exact Function.update_self ..
  obtain ⟨hpaired, hends, hendsp⟩ := h.ends_met ht hplain hm
  refine ⟨hm.listed, hpaired.finish _ _, ?_, ?_, ?_, ?_, ?_⟩
  · intro call' hcall'
    have hmem : call' ∈ ((ρ.arrive call).meet call.operation call.thread p).calls := hcall'
    rw [calls_meet] at hmem
    rcases List.mem_append.mp hmem with hold | hnew
    · exact h.plain call' hold
    · rw [List.mem_singleton.mp hnew]
      exact hplain
  · intro operation u hu
    obtain ⟨hmem, hup⟩ := h.still_waits hm hu
    have hut : u ≠ call.thread := fun heq => h.listed.not_running ht (heq ▸ hmem)
    obtain ⟨call', hcall', hop, hch', hst⟩ := h.pending _ u hmem
    refine ⟨call', ?_, hop, (hchannel u hup).trans hch', (hstack u hup hut).trans hst⟩
    show ((ρ.arrive call).meet call.operation call.thread p).calls[
      ((ρ.arrive call).meet call.operation call.thread p).current u]? = some call'
    rw [hcurrent u hut, calls_meet]
    exact getElem?_arrive hcall' call
  · intro operation channel
    show List.map ((ρ.arrive call).meet call.operation call.thread p).current _ =
      List.drop
        (((ρ.arrive call).meet call.operation call.thread p).callsOn operation.other channel).length
        (((ρ.arrive call).meet call.operation call.thread p).callsOn operation channel)
    rw [current_meet, callsOn_meet, callsOn_meet]
    exact h.order_met ht hplain hm operation channel
  · intro u operation hplace hnone
    apply Record.Ends.finish
    show ((ρ.arrive call).meet call.operation call.thread p).Ends
      (((ρ.arrive call).meet call.operation call.thread p).current u) _
    rw [hm.place_eq] at hplace
    have hut : u ≠ call.thread := by
      rintro rfl
      exact absurd (ht.symm.trans hplace) (by simp)
    rw [hcurrent u hut]
    by_cases hup : u = p
    · have hpplace := ((h.listed.mem_iff _ p).mp (h.met_call hplain hm).1).1
      have hop : call.operation.other = operation := by
        rw [hup] at hplace
        exact Place.waiting.inj (hpplace.symm.trans hplace)
      rw [hup, ← hop]
      exact hendsp
    · rw [hchannel u hup] at hnone
      rw [results_congr (hstack u hup hut)]
      exact ((h.ended u operation hplace hnone).arrive call).meet _ _ _
  · intro i results hmem
    apply Record.Ends.finish
    rcases List.mem_append.mp (show (i, results) ∈ _ ++ [_] from hmem) with hold | hnew
    · rw [returned_meet] at hold
      exact ((h.completed i results hold).arrive call).meet _ _ _
    · obtain ⟨rfl, rfl⟩ := Prod.mk.inj (List.mem_singleton.mp hnew)
      rw [hself]
      exact hends

/-- A thread is outside of the functions before the step or after it. -/
theorem Holds.thread (h : Holds σ ρ queue) (place : Place)
    (hplace : ∀ operation, place ≠ .waiting operation) (ht : ∀ operation, ¬σ.Blocked operation t)
    (hlinks : ∀ u, (σ'.procs u).next = (σ.procs u).next ∧
      (σ'.procs u).previous = (σ.procs u).previous)
    (hchannel : ∀ u, u ≠ t → (σ'.procs u).channel = (σ.procs u).channel)
    (hstack : ∀ u, u ≠ t → σ'.stack u = σ.stack u) (hwait : σ'.wait = σ.wait)
    (hplaces : σ'.place = Function.update σ.place t place) : Holds σ' ρ queue := by
  have hne : ∀ operation u, u ∈ queue operation → u ≠ t := by
    intro operation u hu heq
    exact ht operation (heq ▸ (h.listed.mem_iff operation u).mp hu)
  refine ⟨⟨?_, ?_, ?_⟩, h.paired, h.plain, ?_, ?_, ?_, h.completed⟩
  · intro operation
    exact (h.listed.linked operation).congr (fun u _ => (hlinks u).1) (fun u _ => (hlinks u).2)
  · intro operation
    rw [hwait]
    exact h.listed.head operation
  · intro operation u
    rw [h.listed.mem_iff]
    by_cases hu : u = t
    · rw [hu]
      refine iff_of_false (ht operation) ?_
      rintro ⟨hwaiting, -⟩
      rw [hplaces, Function.update_self] at hwaiting
      exact hplace operation hwaiting
    · unfold State.Blocked
      rw [hplaces, Function.update_of_ne hu, hchannel u hu]
  · intro operation u hu
    obtain ⟨call, hcall, hop, hch, hst⟩ := h.pending operation u hu
    have hut := hne operation u hu
    exact ⟨call, hcall, hop, (hchannel u hut).trans hch, (hstack u hut).trans hst⟩
  · intro operation channel
    rw [filter_waitsOn_congr (fun u hu => hchannel u (hne operation u hu))]
    exact h.order operation channel
  · intro u operation hwaiting hnone
    by_cases hu : u = t
    · rw [hplaces, hu, Function.update_self] at hwaiting
      exact absurd hwaiting (hplace operation)
    · rw [hplaces, Function.update_of_ne hu] at hwaiting
      rw [hchannel u hu] at hnone
      rw [results_congr (hstack u hu)]
      exact h.ended u operation hwaiting hnone

theorem Holds.finish (h : Holds σ ρ queue) (hends : ρ.Ends (ρ.current t) results) :
    Holds σ (ρ.finish t results) queue := by
  refine ⟨h.listed, h.paired.finish t results, h.plain, h.pending, h.order, ?_, ?_⟩
  · intro u operation hplace hnone
    exact (h.ended u operation hplace hnone).finish t results
  · intro i results' hmem
    apply Record.Ends.finish
    rcases List.mem_append.mp (show (i, results') ∈ ρ.returned ++ [_] from hmem) with hold | hnew
    · exact h.completed i results' hold
    · obtain ⟨rfl, rfl⟩ := Prod.mk.inj (List.mem_singleton.mp hnew)
      exact hends

/-- A call that makes its step waits or meets a thread. -/
theorem Holds.called (h : Holds σ ρ queue) (hplain : call.Plain)
    (hstep : step turns (σ, ρ) (.call call) = some (σ', ρ')) : ∃ queue', Holds σ' ρ' queue' := by
  by_cases hplace : σ.place call.thread = .running
  · rw [LuaChannels.step, if_pos hplace] at hstep
    cases hexec : call.exec σ turns with
    | none => simp [hexec] at hstep
    | some result =>
      obtain ⟨τ, partner⟩ := result
      have hcall := hexec
      rw [exec_eq] at hcall
      have hlisted : Listed (call.enter σ) queue := ⟨h.listed.linked, h.listed.head, h.listed.mem_iff⟩
      obtain ⟨rfl, hw⟩ | ⟨front, p, back, rfl, hm⟩ := hlisted.exchange hplace hcall
      · simp only [hexec, Option.some.injEq, Prod.mk.injEq] at hstep
        obtain ⟨rfl, rfl⟩ := hstep
        exact ⟨_, h.waits hplace hplain hw⟩
      · simp only [hexec, Option.some.injEq, Prod.mk.injEq] at hstep
        obtain ⟨rfl, rfl⟩ := hstep
        exact ⟨_, h.met hplace hplain hm⟩
  · rw [LuaChannels.step, if_neg hplace] at hstep
    exact absurd hstep (by simp)

/-- A thread that wakes waits again, or it has been served and returns. -/
theorem Holds.woken (h : Holds σ ρ queue) (hstep : step turns (σ, ρ) (.wake t) = some (σ', ρ')) :
    Holds σ' ρ' queue := by
  cases hplace : σ.place t with
  | absent => simp [LuaChannels.step, hplace] at hstep
  | running => simp [LuaChannels.step, hplace] at hstep
  | waiting operation =>
    cases hchannel : (σ.procs t).channel with
    | some name =>
      simp only [LuaChannels.step, hplace, hchannel, Option.isSome_some, if_true, Option.some.injEq,
        Prod.mk.injEq] at hstep
      obtain ⟨rfl, rfl⟩ := hstep
      exact h
    | none =>
      simp only [LuaChannels.step, hplace, hchannel, Option.isSome_none, Bool.false_eq_true, if_false,
        Option.some.injEq, Prod.mk.injEq] at hstep
      obtain ⟨rfl, rfl⟩ := hstep
      have hnot : ∀ operation', ¬σ.Blocked operation' t :=
        fun operation' hblocked => hblocked.2 hchannel
      exact (h.finish (h.ended t operation hplace hchannel)).thread .running (by simp) hnot
        (fun _ => ⟨rfl, rfl⟩) (fun _ _ => rfl) (fun _ _ => rfl) rfl rfl

/-- A step keeps what holds between steps. -/
theorem Holds.step (h : Holds σ ρ queue) {event : Event} (hplain : event.Plain)
    (hstep : step turns (σ, ρ) event = some (σ', ρ')) : ∃ queue', Holds σ' ρ' queue' := by
  cases event with
  | start t =>
    by_cases hplace : σ.place t = .absent
    · rw [LuaChannels.step, if_pos hplace] at hstep
      obtain ⟨rfl, rfl⟩ := Prod.mk.inj (Option.some.inj hstep)
      refine ⟨queue, h.thread (t := t) .running (by simp) ?_ ?_ ?_ ?_ rfl rfl⟩
      · rintro operation ⟨hwaiting, -⟩
        exact absurd (hplace.symm.trans hwaiting) (by simp)
      · intro u
        exact ⟨setChannel_next none, setChannel_previous none⟩
      · intro u hu
        show (setChannel σ.procs t none u).channel = _
        rw [setChannel_channel, if_neg hu]
      · intro u hu
        exact Function.update_of_ne hu _ _
    · rw [LuaChannels.step, if_neg hplace] at hstep
      exact absurd hstep (by simp)
  | call call => exact h.called hplain hstep
  | wake t => exact ⟨queue, h.woken hstep⟩
  | finish t =>
    by_cases hplace : σ.place t = .running
    · rw [LuaChannels.step, if_pos hplace] at hstep
      obtain ⟨rfl, rfl⟩ := Prod.mk.inj (Option.some.inj hstep)
      refine ⟨queue, h.thread (t := t) .absent (by simp) ?_ (fun _ => ⟨rfl, rfl⟩)
        (fun _ _ => rfl) (fun _ _ => rfl) rfl rfl⟩
      rintro operation ⟨hwaiting, -⟩
      exact absurd (hplace.symm.trans hwaiting) (by simp)
    · rw [LuaChannels.step, if_neg hplace] at hstep
      exact absurd hstep (by simp)

theorem holds_start (memory : Thread → Proc) :
    Holds (start memory).1 (start memory).2 (fun _ => []) where
  listed :=
    { linked := fun _ => Linked.ring_nil
      head := fun _ => rfl
      mem_iff := fun operation t =>
        iff_of_false List.not_mem_nil (fun hblocked => absurd hblocked.1 (by simp [start])) }
  paired :=
    { meets := fun s r hp => absurd hp List.not_mem_nil
      pairs_eq := fun _ => rfl }
  plain := fun call hcall => absurd hcall List.not_mem_nil
  pending := fun operation t ht => absurd ht List.not_mem_nil
  order := fun _ _ => rfl
  ended := fun t operation hplace _ => absurd hplace (by simp [start])
  completed := fun i results hmem => absurd hmem List.not_mem_nil

/-- A run keeps what holds between steps. -/
theorem Holds.run {events : List Event} (h : Holds σ ρ queue) (hplain : ∀ event ∈ events, event.Plain)
    (hrun : events.foldlM (LuaChannels.step turns) (σ, ρ) = some (σ', ρ')) :
    ∃ queue', Holds σ' ρ' queue' := by
  induction events generalizing σ ρ queue with
  | nil =>
    obtain ⟨rfl, rfl⟩ := Prod.mk.inj (Option.some.inj hrun)
    exact ⟨queue, h⟩
  | cons event events ih =>
    rw [List.foldlM_cons] at hrun
    obtain ⟨⟨τ, θ⟩, hstep, hrest⟩ := Option.bind_eq_some_iff.mp hrun
    obtain ⟨queue', h'⟩ := h.step (hplain event (by simp)) hstep
    exact ih h' (fun event' hevent' => hplain event' (List.mem_cons_of_mem event hevent')) hrest

/-- A thread waits on a channel while there are more calls of its kind than of the other one. -/
theorem Holds.left_over (h : Holds σ ρ queue) (ht : t ∈ queue operation)
    (hchannel : (σ.procs t).channel = some channel) :
    (ρ.callsOn operation.other channel).length < (ρ.callsOn operation channel).length := by
  by_contra hle
  have horder := h.order operation channel
  rw [List.drop_eq_nil_iff.mpr (Nat.le_of_not_lt hle), List.map_eq_nil_iff,
    List.filter_eq_nil_iff] at horder
  exact horder t ht (waitsOn_iff.mpr hchannel)

theorem Holds.one_side (h : Holds σ ρ queue) (ht : σ.Blocked .send t) (hu : σ.Blocked .receive u) :
    (σ.procs t).channel ≠ (σ.procs u).channel := by
  intro heq
  have htmem := (h.listed.mem_iff .send t).mpr ht
  obtain ⟨call, -, -, hcall, -⟩ := h.pending .send t htmem
  have hsends := h.left_over htmem hcall
  have hreceives := h.left_over ((h.listed.mem_iff .receive u).mpr hu) (heq.symm.trans hcall)
  exact absurd hsends (Nat.lt_asymm hreceives)

/-- In every run without zero bytes the two lists are rings of the blocked threads, no channel has
both senders and receivers that wait, and the record is orderly. -/
theorem channels_orderly (memory : Thread → Proc) (events : List Event)
    (hplain : ∀ event ∈ events, event.Plain) (turns : ℕ) (σ : State) (ρ : Record)
    (hrun : run turns memory events = some (σ, ρ)) :
    (∃ queue, Listed σ queue) ∧
      (∀ t u, σ.Blocked .send t → σ.Blocked .receive u → (σ.procs t).channel ≠ (σ.procs u).channel) ∧
      ρ.Orderly := by
  obtain ⟨queue, h⟩ := (holds_start memory).run hplain hrun
  exact ⟨⟨queue, h.listed⟩, fun t u ht hu => h.one_side ht hu, h.paired.orderly h.completed⟩

/-- Two threads, a send that waits and a receive that meets it. -/
def sendReceive (value : Bytes) : List Event :=
  [.start 0, .start 1, .call ⟨0, .send, [99], [value]⟩, .call ⟨1, .receive, [99], []⟩, .wake 0]

theorem channels_orderly_two : ∃ σ ρ,
    run 1 (fun _ => ⟨none, none, none⟩) (sendReceive [97]) = some (σ, ρ) ∧
      ρ.returned = [(1, [[97]]), (0, [])] ∧ ρ.Orderly := by
  refine ⟨_, _, rfl, rfl, ?_⟩
  refine (channels_orderly (fun _ => ⟨none, none, none⟩) (sendReceive [97]) ?_ 1 _ _ rfl).2.2
  intro event hevent
  simp only [sendReceive, List.mem_cons, List.not_mem_nil, or_false] at hevent
  rcases hevent with rfl | rfl | rfl | rfl | rfl <;> simp [Event.Plain, Call.Plain]

/-- What follows a zero byte in a value is lost. -/
theorem zero_byte_cuts : ∃ σ ρ,
    run 1 (fun _ => ⟨none, none, none⟩) (sendReceive [97, 0, 98]) = some (σ, ρ) ∧
      ρ.returned = [(1, [[97]]), (0, [])] ∧ ¬ρ.Orderly := by
  refine ⟨_, _, rfl, rfl, ?_⟩
  intro horderly
  obtain ⟨s, r, sent, taken, hmeets, hresults⟩ := horderly.completed 1 [[97]] (by decide)
  obtain ⟨rfl, rfl⟩ := Prod.mk.inj (List.mem_singleton.mp (show (s, r) ∈ [(0, 1)] from hmeets.met))
  have hsent : (⟨0, .send, [99], [[97, 0, 98]]⟩ : Call) = sent := Option.some.inj hmeets.sent_at
  subst hsent
  simp at hresults

end CServer.LuaChannels
