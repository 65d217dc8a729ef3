import CServer.LuaChannels.Model
import Mathlib.Data.List.Enum
import Mathlib.Data.List.Nodup
import Mathlib.Data.List.Zip

/-!
# Who meets whom

The calls of one kind on one channel, in the order of their arrival, and the meetings of a channel.
The record is orderly when each call that has ended has met one call of the other kind on its channel,
no call has met two, and the calls that have been met are the first ones of their kind on the channel.
-/
namespace CServer.LuaChannels

variable {α β : Type*} {a : α} {b : β} {l k : List α} {m rest : List β}

/-- An element behind the shorter list is not met. -/
theorem zip_append_left (h : m.length ≤ l.length) : (l ++ k).zip m = l.zip m := by
  induction l generalizing m with
  | nil =>
    have hm : m = [] := List.eq_nil_of_length_eq_zero (Nat.le_zero.mp h)
    simp [hm]
  | cons a l ih =>
    cases m with
    | nil => simp
    | cons b m => simp [ih (Nat.le_of_succ_le_succ h)]

/-- One more element meets the first one that was left over. -/
theorem zip_append_single (h : m.drop l.length = b :: rest) :
    (l ++ [a]).zip m = l.zip m ++ [(a, b)] := by
  induction l generalizing m with
  | nil =>
    have hm : m = b :: rest := h
    simp [hm]
  | cons c l ih =>
    cases m with
    | nil => simp at h
    | cons d m => simp [ih h]

theorem zip_append_right (h : m.length ≤ l.length) : m.zip (l ++ k) = m.zip l := by
  rw [← List.zip_swap, zip_append_left h, List.zip_swap]

theorem zip_single_right (h : m.drop l.length = b :: rest) :
    m.zip (l ++ [a]) = m.zip l ++ [(b, a)] := by
  rw [← List.zip_swap, zip_append_single h, List.map_append, List.zip_swap]
  rfl

theorem map_fst_zip_prefix (l : List α) (m : List β) : (l.zip m).map Prod.fst <+: l := by
  induction l generalizing m with
  | nil => simp
  | cons a l ih =>
    cases m with
    | nil => simp
    | cons b m => simpa using ih m

theorem map_snd_zip_prefix (l : List α) (m : List β) : (l.zip m).map Prod.snd <+: m := by
  have hswap : (l.zip m).map Prod.snd = (m.zip l).map Prod.fst := by
    rw [← List.zip_swap m l, List.map_map]
    rfl
  rw [hswap]
  exact map_fst_zip_prefix m l

/-- The numbers of the calls of one kind on a channel. -/
def Record.callsOn (ρ : Record) (operation : Operation) (channel : Bytes) : List ℕ :=
  (ρ.calls.zipIdx.filter (fun c => c.1.operation = operation ∧ c.1.channel = channel)).map Prod.snd

/-- The calls of one kind that have met another one, in the order of the meetings. -/
def Record.served (ρ : Record) : Operation → List ℕ
  | .send => ρ.pairs.map Prod.fst
  | .receive => ρ.pairs.map Prod.snd

def Record.servedOn (ρ : Record) (operation : Operation) (channel : Bytes) : List ℕ :=
  (ρ.served operation).filter (· ∈ ρ.callsOn operation channel)

/-- The send `s` and the receive `r` have met, and they are on one channel. -/
structure Record.Meets (ρ : Record) (s r : ℕ) (sent taken : Call) : Prop where
  met : (s, r) ∈ ρ.pairs
  sent_at : ρ.calls[s]? = some sent
  taken_at : ρ.calls[r]? = some taken
  sends : sent.operation = .send
  receives : taken.operation = .receive
  channel_eq : sent.channel = taken.channel

/-- What a call returns: a send nothing, a receive the values of the send that it has met. -/
def Record.Ends (ρ : Record) (i : ℕ) (results : List Bytes) : Prop :=
  ∃ s r sent taken, ρ.Meets s r sent taken ∧
    ((i = s ∧ results = []) ∨ (i = r ∧ results = sent.values))

structure Record.Orderly (ρ : Record) : Prop where
  completed : ∀ i results, (i, results) ∈ ρ.returned → ρ.Ends i results
  once : ∀ operation, (ρ.served operation).Nodup
  inOrder : ∀ operation channel, ρ.servedOn operation channel <+: ρ.callsOn operation channel

variable {ρ : Record} {operation : Operation} {channel : Bytes} {i s r : ℕ} {call sent taken : Call}
  {results : List Bytes}

theorem mem_callsOn : i ∈ ρ.callsOn operation channel ↔
    ∃ call, ρ.calls[i]? = some call ∧ call.operation = operation ∧ call.channel = channel := by
  unfold Record.callsOn
  simp only [List.mem_map, List.mem_filter, decide_eq_true_eq, Prod.exists,
    List.mem_zipIdx_iff_getElem?]
  constructor
  · rintro ⟨call, j, ⟨hcall, hop⟩, rfl⟩
    exact ⟨call, hcall, hop⟩
  · rintro ⟨call, hcall, hop⟩
    exact ⟨call, i, ⟨hcall, hop⟩, rfl⟩

theorem nodup_callsOn : (ρ.callsOn operation channel).Nodup := by
  have hsub : List.Sublist (ρ.callsOn operation channel) (ρ.calls.zipIdx.map Prod.snd) :=
    List.filter_sublist.map Prod.snd
  rw [List.zipIdx_map_snd] at hsub
  exact hsub.nodup (List.nodup_range' ..)

theorem callsOn_arrive (call : Call) : (ρ.arrive call).callsOn operation channel =
    ρ.callsOn operation channel ++
      if call.operation = operation ∧ call.channel = channel then [ρ.calls.length] else [] := by
  show List.map Prod.snd (List.filter _ (ρ.calls ++ [call]).zipIdx) = _
  rw [List.zipIdx_append, List.filter_append, List.map_append]
  congr 1
  by_cases h : call.operation = operation ∧ call.channel = channel
  · simp [h]
  · simp [h]

theorem getElem?_arrive (h : ρ.calls[i]? = some sent) (call : Call) :
    (ρ.arrive call).calls[i]? = some sent := by
  have hlt := (List.getElem?_eq_some_iff.mp h).1
  exact (List.getElem?_append_left hlt).trans h

theorem getElem?_arrive_self (call : Call) : (ρ.arrive call).calls[ρ.calls.length]? = some call :=
  List.getElem?_concat_length

theorem Record.Meets.arrive (h : ρ.Meets s r sent taken) (call : Call) :
    (ρ.arrive call).Meets s r sent taken :=
  { h with sent_at := getElem?_arrive h.sent_at call, taken_at := getElem?_arrive h.taken_at call }

theorem Record.Ends.arrive (h : ρ.Ends i results) (call : Call) : (ρ.arrive call).Ends i results := by
  obtain ⟨s, r, sent, taken, hmeets, hres⟩ := h
  exact ⟨s, r, sent, taken, hmeets.arrive call, hres⟩

/-- The meetings of a channel. -/
def Record.pairsOn (ρ : Record) (channel : Bytes) : List (ℕ × ℕ) :=
  ρ.pairs.filter (fun p => p.1 ∈ ρ.callsOn .send channel)

/-- The meetings are between calls on one channel, and on each channel they follow the order of both
sides. -/
structure Record.Paired (ρ : Record) : Prop where
  meets : ∀ s r, (s, r) ∈ ρ.pairs → ∃ sent taken, ρ.Meets s r sent taken
  pairs_eq : ∀ channel, ρ.pairsOn channel =
    (ρ.callsOn .send channel).zip (ρ.callsOn .receive channel)

theorem Record.Paired.mem_iff (h : ρ.Paired) (hp : (s, r) ∈ ρ.pairs) :
    s ∈ ρ.callsOn .send channel ↔ r ∈ ρ.callsOn .receive channel := by
  obtain ⟨sent, taken, hmeets⟩ := h.meets s r hp
  rw [mem_callsOn, mem_callsOn]
  constructor
  · rintro ⟨call, hcall, -, hch⟩
    have hsent := Option.some.inj (hmeets.sent_at.symm.trans hcall)
    exact ⟨taken, hmeets.taken_at, hmeets.receives, by rw [← hmeets.channel_eq, hsent, hch]⟩
  · rintro ⟨call, hcall, -, hch⟩
    have htaken := Option.some.inj (hmeets.taken_at.symm.trans hcall)
    exact ⟨sent, hmeets.sent_at, hmeets.sends, by rw [hmeets.channel_eq, htaken, hch]⟩

theorem Record.Paired.servedOn_send (h : ρ.Paired) (channel : Bytes) :
    ρ.servedOn .send channel =
      ((ρ.callsOn .send channel).zip (ρ.callsOn .receive channel)).map Prod.fst := by
  rw [← h.pairs_eq channel]
  show List.filter _ (ρ.pairs.map Prod.fst) = _
  rw [List.filter_map]
  rfl

theorem Record.Paired.servedOn_receive (h : ρ.Paired) (channel : Bytes) :
    ρ.servedOn .receive channel =
      ((ρ.callsOn .send channel).zip (ρ.callsOn .receive channel)).map Prod.snd := by
  rw [← h.pairs_eq channel]
  show List.filter _ (ρ.pairs.map Prod.snd) = _
  rw [List.filter_map]
  unfold Record.pairsOn
  congr 1
  apply List.filter_congr
  rintro ⟨s, r⟩ hp
  exact decide_eq_decide.mpr (h.mem_iff hp).symm

theorem Record.Paired.inOrder (h : ρ.Paired) (operation : Operation) (channel : Bytes) :
    ρ.servedOn operation channel <+: ρ.callsOn operation channel := by
  cases operation with
  | send =>
    rw [h.servedOn_send]
    exact map_fst_zip_prefix _ _
  | receive =>
    rw [h.servedOn_receive]
    exact map_snd_zip_prefix _ _

theorem Record.Paired.served_mem (h : ρ.Paired) (hi : i ∈ ρ.served operation) :
    ∃ channel, i ∈ ρ.callsOn operation channel := by
  cases operation with
  | send =>
    obtain ⟨⟨s, r⟩, hp, rfl⟩ := List.mem_map.mp hi
    obtain ⟨sent, taken, hmeets⟩ := h.meets s r hp
    exact ⟨sent.channel, mem_callsOn.mpr ⟨sent, hmeets.sent_at, hmeets.sends, rfl⟩⟩
  | receive =>
    obtain ⟨⟨s, r⟩, hp, rfl⟩ := List.mem_map.mp hi
    obtain ⟨sent, taken, hmeets⟩ := h.meets s r hp
    exact ⟨taken.channel, mem_callsOn.mpr ⟨taken, hmeets.taken_at, hmeets.receives, rfl⟩⟩

/-- A call is served once, since it is so among the calls on its channel. -/
theorem Record.Paired.once (h : ρ.Paired) (operation : Operation) : (ρ.served operation).Nodup := by
  rw [List.nodup_iff_count_le_one]
  intro i
  by_cases hi : i ∈ ρ.served operation
  · obtain ⟨channel, hon⟩ := h.served_mem hi
    have hnd : (ρ.servedOn operation channel).Nodup :=
      (h.inOrder operation channel).sublist.nodup nodup_callsOn
    have hcount : List.count i (ρ.servedOn operation channel) = List.count i (ρ.served operation) :=
      List.count_filter (by simpa using hon)
    rw [← hcount]
    exact List.nodup_iff_count_le_one.mp hnd i
  · rw [List.count_eq_zero_of_not_mem hi]
    exact Nat.zero_le 1

theorem Record.Paired.orderly (h : ρ.Paired)
    (hcompleted : ∀ i results, (i, results) ∈ ρ.returned → ρ.Ends i results) : ρ.Orderly :=
  ⟨hcompleted, h.once, h.inOrder⟩

theorem Record.Paired.pairsOn_arrive (h : ρ.Paired) (call : Call) (channel : Bytes) :
    (ρ.arrive call).pairsOn channel = ρ.pairsOn channel := by
  show List.filter _ ρ.pairs = List.filter _ ρ.pairs
  apply List.filter_congr
  rintro ⟨s, r⟩ hp
  obtain ⟨sent, taken, hmeets⟩ := h.meets s r hp
  have hlt : s < ρ.calls.length := (List.getElem?_eq_some_iff.mp hmeets.sent_at).1
  apply decide_eq_decide.mpr
  rw [callsOn_arrive, List.mem_append]
  constructor
  · rintro (hold | hnew)
    · exact hold
    · split_ifs at hnew
      · exact absurd (List.mem_singleton.mp hnew) (Nat.ne_of_lt hlt)
      · exact absurd hnew List.not_mem_nil
  · exact Or.inl

theorem callsOn_arrive_other (call : Call) : (ρ.arrive call).callsOn call.operation.other channel =
    ρ.callsOn call.operation.other channel := by
  have hne : call.operation ≠ call.operation.other := by cases call.operation <;> decide
  rw [callsOn_arrive, if_neg (fun h => hne h.1), List.append_nil]

theorem callsOn_arrive_self (call : Call) : (ρ.arrive call).callsOn call.operation channel =
    ρ.callsOn call.operation channel ++ if call.channel = channel then [ρ.calls.length] else [] := by
  rw [callsOn_arrive]
  simp

theorem Record.Paired.arrive (h : ρ.Paired) (call : Call)
    (hlen : ∀ channel, (ρ.callsOn call.operation.other channel).length ≤
      (ρ.callsOn call.operation channel).length) : (ρ.arrive call).Paired := by
  constructor
  · intro s r hp
    obtain ⟨sent, taken, hmeets⟩ := h.meets s r hp
    exact ⟨sent, taken, hmeets.arrive call⟩
  · intro channel
    rw [h.pairsOn_arrive, h.pairs_eq]
    have hself : (ρ.arrive call).callsOn call.operation channel = _ := callsOn_arrive_self call
    have hother : (ρ.arrive call).callsOn call.operation.other channel = _ :=
      callsOn_arrive_other call
    have hle := hlen channel
    cases hop : call.operation with
    | send =>
      rw [hop] at hself hother hle
      have hother' : (ρ.arrive call).callsOn .receive channel = ρ.callsOn .receive channel := hother
      rw [hself, hother']
      exact (zip_append_left hle).symm
    | receive =>
      rw [hop] at hself hother hle
      have hother' : (ρ.arrive call).callsOn .send channel = ρ.callsOn .send channel := hother
      rw [hself, hother']
      exact (zip_append_right hle).symm

theorem Record.Meets.more {ρ' : Record} (h : ρ.Meets s r sent taken) (hcalls : ρ'.calls = ρ.calls)
    (hpairs : ρ.pairs ⊆ ρ'.pairs) : ρ'.Meets s r sent taken :=
  { h with
    met := hpairs h.met
    sent_at := by rw [hcalls]; exact h.sent_at
    taken_at := by rw [hcalls]; exact h.taken_at }

theorem Record.Ends.more {ρ' : Record} (h : ρ.Ends i results) (hcalls : ρ'.calls = ρ.calls)
    (hpairs : ρ.pairs ⊆ ρ'.pairs) : ρ'.Ends i results := by
  obtain ⟨s, r, sent, taken, hmeets, hres⟩ := h
  exact ⟨s, r, sent, taken, hmeets.more hcalls hpairs, hres⟩

theorem Record.Ends.finish (h : ρ.Ends i results) (t : Thread) (results' : List Bytes) :
    (ρ.finish t results').Ends i results :=
  h.more rfl (List.Subset.refl _)

theorem calls_meet (ρ : Record) (operation : Operation) (self other : Thread) :
    (ρ.meet operation self other).calls = ρ.calls := by
  cases operation <;> rfl

theorem current_meet (ρ : Record) (operation : Operation) (self other : Thread) :
    (ρ.meet operation self other).current = ρ.current := by
  cases operation <;> rfl

theorem returned_meet (ρ : Record) (operation : Operation) (self other : Thread) :
    (ρ.meet operation self other).returned = ρ.returned := by
  cases operation <;> rfl

theorem callsOn_meet (ρ : Record) (operation operation' : Operation) (self other : Thread)
    (channel : Bytes) :
    (ρ.meet operation self other).callsOn operation' channel = ρ.callsOn operation' channel := by
  unfold Record.callsOn
  rw [calls_meet]

theorem Record.Ends.meet (h : ρ.Ends i results) (operation : Operation) (self other : Thread) :
    (ρ.meet operation self other).Ends i results := by
  apply h.more (calls_meet ρ operation self other)
  cases operation <;> exact List.subset_append_left _ _

theorem Record.Paired.finish (h : ρ.Paired) (t : Thread) (results : List Bytes) :
    (ρ.finish t results).Paired := by
  refine ⟨?_, h.pairs_eq⟩
  intro s r hp
  obtain ⟨sent, taken, hmeets⟩ := h.meets s r hp
  exact ⟨sent, taken, hmeets.more rfl (List.Subset.refl _)⟩

/-- One more meeting, of the next calls on both sides of its channel. -/
theorem Record.Paired.add {ρ' : Record} (h : ρ.Paired) (call : Call)
    (hcalls : ρ'.calls = (ρ.arrive call).calls) (hpairs : ρ'.pairs = ρ.pairs ++ [(s, r)])
    (hmeets : ρ'.Meets s r sent taken)
    (hzip : ∀ channel,
      ((ρ.arrive call).callsOn .send channel).zip ((ρ.arrive call).callsOn .receive channel) =
      (ρ.callsOn .send channel).zip (ρ.callsOn .receive channel) ++
        if sent.channel = channel then [(s, r)] else []) : ρ'.Paired := by
  have hon : ∀ operation channel,
      ρ'.callsOn operation channel = (ρ.arrive call).callsOn operation channel := by
    intro operation channel
    unfold Record.callsOn
    rw [hcalls]
  constructor
  · intro s' r' hp
    rw [hpairs, List.mem_append, List.mem_singleton] at hp
    rcases hp with hold | hnew
    · obtain ⟨sent', taken', hmeets'⟩ := h.meets s' r' hold
      refine ⟨sent', taken', (hmeets'.arrive call).more hcalls ?_⟩
      rw [hpairs]
      exact List.subset_append_left _ _
    · obtain ⟨rfl, rfl⟩ := Prod.mk.inj hnew
      exact ⟨sent, taken, hmeets⟩
  · intro channel
    rw [hon, hon, hzip, ← h.pairs_eq, ← h.pairsOn_arrive call channel]
    unfold Record.pairsOn
    rw [hpairs, List.filter_append]
    have hmem : s ∈ ρ'.callsOn .send channel ↔ sent.channel = channel := by
      rw [mem_callsOn]
      constructor
      · rintro ⟨call', hcall', -, hch⟩
        rw [← hch, Option.some.inj (hmeets.sent_at.symm.trans hcall')]
      · intro hch
        exact ⟨sent, hmeets.sent_at, hmeets.sends, hch⟩
    congr 1
    · simp only [hon]
      rfl
    · by_cases hch : sent.channel = channel
      · simp [hmem, hch]
      · simp [hmem, hch]

variable {p : Thread} {mate : Call} {rest : List ℕ}

/-- A call meets the first one that is left over on the other side of its channel. -/
theorem Record.Paired.meet (h : ρ.Paired) (hmate : ρ.calls[ρ.current p]? = some mate)
    (hmop : mate.operation = call.operation.other) (hch : mate.channel = call.channel)
    (hpt : p ≠ call.thread)
    (hfirst : (ρ.callsOn call.operation.other call.channel).drop
      (ρ.callsOn call.operation call.channel).length = ρ.current p :: rest) :
    ((ρ.arrive call).meet call.operation call.thread p).Paired ∧
      ∃ s r sent taken, ((ρ.arrive call).meet call.operation call.thread p).Meets s r sent taken ∧
        (call.operation = .send →
          s = ρ.calls.length ∧ r = ρ.current p ∧ sent = call ∧ taken = mate) ∧
        (call.operation = .receive →
          s = ρ.current p ∧ r = ρ.calls.length ∧ sent = mate ∧ taken = call) := by
  have hself : ∀ channel, (ρ.arrive call).callsOn call.operation channel = _ :=
    fun _ => callsOn_arrive_self call
  have hother : ∀ channel, (ρ.arrive call).callsOn call.operation.other channel = _ :=
    fun _ => callsOn_arrive_other call
  have hcurrent : (ρ.arrive call).current call.thread = ρ.calls.length := Function.update_self ..
  have hcurrent' : (ρ.arrive call).current p = ρ.current p := Function.update_of_ne hpt _ _
  cases hop : call.operation with
  | send =>
    rw [hop] at hself hother hmop hfirst
    have hpairs : ((ρ.arrive call).meet .send call.thread p).pairs =
        ρ.pairs ++ [(ρ.calls.length, ρ.current p)] := by
      rw [← hcurrent, ← hcurrent']
      rfl
    have hmeets :
        ((ρ.arrive call).meet .send call.thread p).Meets ρ.calls.length (ρ.current p) call mate :=
      ⟨by rw [hpairs]; simp, getElem?_arrive_self call, getElem?_arrive hmate call, hop, hmop,
        hch.symm⟩
    refine ⟨h.add call rfl hpairs hmeets ?_, _, _, _, _, hmeets, fun _ => ⟨rfl, rfl, rfl, rfl⟩, ?_⟩
    · intro channel
      have hother' : (ρ.arrive call).callsOn .receive channel = ρ.callsOn .receive channel :=
        hother channel
      rw [hself, hother']
      by_cases hc : call.channel = channel
      · subst hc
        rw [if_pos rfl, if_pos rfl]
        exact zip_append_single hfirst
      · rw [if_neg hc, if_neg hc, List.append_nil, List.append_nil]
    · exact fun hop' => absurd hop' (by simp)
  | receive =>
    rw [hop] at hself hother hmop hfirst
    have hpairs : ((ρ.arrive call).meet .receive call.thread p).pairs =
        ρ.pairs ++ [(ρ.current p, ρ.calls.length)] := by
      rw [← hcurrent, ← hcurrent']
      rfl
    have hmeets :
        ((ρ.arrive call).meet .receive call.thread p).Meets (ρ.current p) ρ.calls.length mate call :=
      ⟨by rw [hpairs]; simp, getElem?_arrive hmate call, getElem?_arrive_self call, hmop, hop, hch⟩
    refine ⟨h.add call rfl hpairs hmeets ?_, _, _, _, _, hmeets, ?_, fun _ => ⟨rfl, rfl, rfl, rfl⟩⟩
    · intro channel
      have hother' : (ρ.arrive call).callsOn .send channel = ρ.callsOn .send channel := hother channel
      rw [hself, hother', hch]
      by_cases hc : call.channel = channel
      · subst hc
        rw [if_pos rfl, if_pos rfl]
        exact zip_single_right hfirst
      · rw [if_neg hc, if_neg hc, List.append_nil, List.append_nil]
    · exact fun hop' => absurd hop' (by simp)

end CServer.LuaChannels
