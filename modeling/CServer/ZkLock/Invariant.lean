import CServer.ZkLock.Phases

/-!
# The nodes, the takes and the phases of all clients

A name below the own one is in each listing as long as its node is live, since numbers only grow.
So a client that finds no smaller name has the smallest node, now and later.
-/
namespace CServer.ZkLock

variable {Client : Type} {phase : Client → Phase} {live : List (ℕ × Client)} {next : ℕ}
  {takes : List (Take Client)}

/-- The client owns a live node and has taken the lock with the smallest one there was. -/
def Take.First (τ : Take Client) : Prop :=
  ∃ s, τ.path = some s ∧ (s, τ.client) ∈ τ.live ∧ ∀ q j, (q, j) ∈ τ.live → s ≤ q

/-- The second take is one with a larger number. -/
def Take.Before (τ τ' : Take Client) : Prop := ∃ s s', τ.path = some s ∧ τ'.path = some s' ∧ s < s'

/-- What holds of the nodes and the takes when the clients are in these phases. -/
structure Nodes (live : List (ℕ × Client)) (next : ℕ) (takes : List (Take Client))
    (phase : Client → Phase) : Prop where
  owned : ∀ s i, (s, i) ∈ live ↔ (phase i).node = some s
  bound : ∀ i s, (phase i).seq = some s → s < next
  distinct : ∀ i j s, (phase i).seq = some s → (phase j).seq = some s → i = j
  listed : ∀ i s names, phase i = .listed s names →
    s ∈ names ∧ ∀ q j, (q, j) ∈ live → q < s → q ∈ names
  taken : ∀ i s, (phase i).taken = some s ↔ ∃ τ ∈ takes, τ.client = i ∧ τ.path = some s
  first : ∀ i s, (phase i).taken = some s → ∀ q j, (q, j) ∈ live → s ≤ q
  sound : ∀ τ ∈ takes, τ.First
  ordered : takes.Pairwise Take.Before
  once : (takes.map Take.client).Nodup

/-- The phases change, but neither the nodes nor the takes do. -/
theorem Nodes.relabel (h : Nodes live next takes phase) {phase' : Client → Phase}
    (hseq : ∀ i, (phase' i).seq = (phase i).seq) (hnode : ∀ i, (phase' i).node = (phase i).node)
    (htaken : ∀ i, (phase' i).taken = (phase i).taken)
    (hlisted : ∀ i s names, phase' i = .listed s names → phase i = .listed s names ∨
      s ∈ names ∧ ∀ q j, (q, j) ∈ live → q < s → q ∈ names) :
    Nodes live next takes phase' where
  owned s i := by rw [hnode, h.owned]
  bound i s := by rw [hseq]; exact h.bound i s
  distinct i j s := by rw [hseq, hseq]; exact h.distinct i j s
  listed i s names hphase := (hlisted i s names hphase).elim (h.listed i s names) id
  taken i s := by rw [htaken, h.taken]
  first i s := by rw [htaken]; exact h.first i s
  sound := h.sound
  ordered := h.ordered
  once := h.once

theorem Nodes.fire (h : Nodes live next takes phase) (paths : List ℕ) :
    Nodes live next takes fun i => (phase i).fire paths :=
  h.relabel (fun _ => Phase.fire_seq) (fun _ => Phase.fire_node) (fun _ => Phase.fire_taken)
    fun _ _ _ hphase => .inl (Phase.fire_listed hphase)

variable [DecidableEq Client] {i : Client} {p : Phase}

/-- One client goes to another phase with the same node. -/
theorem Nodes.go (h : Nodes live next takes phase) (hseq : p.seq = (phase i).seq)
    (hnode : p.node = (phase i).node) (htaken : p.taken = (phase i).taken)
    (hlisted : ∀ s names, p = .listed s names →
      s ∈ names ∧ ∀ q j, (q, j) ∈ live → q < s → q ∈ names) :
    Nodes live next takes (Function.update phase i p) := by
  have heither : ∀ j, Function.update phase i p j = phase j ∨ j = i ∧ Function.update phase i p j = p := by
    intro j
    by_cases hj : j = i
    · exact .inr ⟨hj, by rw [hj, Function.update_self]⟩
    · exact .inl (Function.update_of_ne hj _ _)
  refine h.relabel ?_ ?_ ?_ ?_
  · intro j
    obtain hj | ⟨rfl, hj⟩ := heither j
    · rw [hj]
    · rw [hj, hseq]
  · intro j
    obtain hj | ⟨rfl, hj⟩ := heither j
    · rw [hj]
    · rw [hj, hnode]
  · intro j
    obtain hj | ⟨rfl, hj⟩ := heither j
    · rw [hj]
    · rw [hj, htaken]
  · intro j s names hphase
    obtain hj | ⟨rfl, hj⟩ := heither j
    · exact .inl (hj ▸ hphase)
    · exact .inr (hlisted s names (hj ▸ hphase))

/-- The server makes the node of a client. -/
theorem Nodes.create (h : Nodes live next takes phase) (hi : phase i = .creating) :
    Nodes (live ++ [(next, i)]) (next + 1) takes (Function.update phase i (.created next)) := by
  have hold : ∀ j s, (phase j).seq = some s → s ≠ next ∧ j ≠ i := by
    intro j s hj
    refine ⟨Nat.ne_of_lt (h.bound j s hj), ?_⟩
    rintro rfl
    rw [hi] at hj
    exact absurd hj (by simp [Phase.seq])
  have hself : Function.update phase i (.created next) i = .created next := Function.update_self _ _ _
  have hother : ∀ j, j ≠ i → Function.update phase i (.created next) j = phase j :=
    fun j hj => Function.update_of_ne hj _ _
  have htaken : ∀ j, (Function.update phase i (.created next) j).taken = (phase j).taken := by
    intro j
    by_cases hj : j = i
    · rw [hj, hself, hi]
      rfl
    · rw [hother j hj]
  refine ⟨?_, ?_, ?_, ?_, ?_, ?_, h.sound, h.ordered, h.once⟩
  · intro s j
    rw [List.mem_append, List.mem_singleton]
    by_cases hj : j = i
    · subst hj
      rw [hself, h.owned, hi]
      simp [Phase.node, eq_comm]
    · rw [hother j hj, h.owned]
      simp [hj]
  · intro j s hs
    by_cases hj : j = i
    · rw [hj, hself] at hs
      rw [← Option.some.inj hs]
      exact Nat.lt_succ_self _
    · rw [hother j hj] at hs
      exact Nat.lt_succ_of_lt (h.bound j s hs)
  · intro j k s hjs hks
    by_cases hj : j = i
    · by_cases hk : k = i
      · rw [hj, hk]
      · rw [hj, hself] at hjs
        rw [hother k hk] at hks
        exact absurd (Option.some.inj hjs).symm (hold k s hks).1
    · rw [hother j hj] at hjs
      by_cases hk : k = i
      · rw [hk, hself] at hks
        exact absurd (Option.some.inj hks).symm (hold j s hjs).1
      · rw [hother k hk] at hks
        exact h.distinct j k s hjs hks
  · intro j s names hj
    have hne : j ≠ i := by
      rintro rfl
      rw [hself] at hj
      exact absurd hj (by simp)
    rw [hother j hne] at hj
    obtain ⟨hmem, hall⟩ := h.listed j s names hj
    refine ⟨hmem, ?_⟩
    intro q k hq hless
    rw [List.mem_append, List.mem_singleton] at hq
    obtain hq | hq := hq
    · exact hall q k hq hless
    · have hbound := h.bound j s (by rw [hj]; rfl)
      rw [Prod.mk.injEq] at hq
      omega
  · intro j s
    rw [htaken, h.taken]
  · intro j s hj q k hq
    rw [htaken] at hj
    rw [List.mem_append, List.mem_singleton] at hq
    obtain hq | hq := hq
    · exact h.first j s hj q k hq
    · have hbound := h.bound j s (Phase.seq_of_taken hj)
      rw [Prod.mk.injEq] at hq
      omega

/-- The server deletes the node of a client that has taken the lock. -/
theorem Nodes.delete (h : Nodes live next takes phase) {s : ℕ} (hi : phase i = .taking s) :
    Nodes (live.filter fun node => ¬some node.1 = some s) next takes
      (Function.update phase i (.removed s)) := by
  have hself : Function.update phase i (.removed s) i = .removed s := Function.update_self _ _ _
  have hother : ∀ j, j ≠ i → Function.update phase i (.removed s) j = phase j :=
    fun j hj => Function.update_of_ne hj _ _
  have hseq : ∀ j, (Function.update phase i (.removed s) j).seq = (phase j).seq := by
    intro j
    by_cases hj : j = i
    · rw [hj, hself, hi]
      rfl
    · rw [hother j hj]
  have htaken : ∀ j, (Function.update phase i (.removed s) j).taken = (phase j).taken := by
    intro j
    by_cases hj : j = i
    · rw [hj, hself, hi]
      rfl
    · rw [hother j hj]
  have hless : ∀ q j, (q, j) ∈ live.filter (fun node => ¬some node.1 = some s) → (q, j) ∈ live :=
    fun q j hq => (List.mem_filter.mp hq).1
  refine ⟨?_, ?_, ?_, ?_, ?_, ?_, h.sound, h.ordered, h.once⟩
  · intro q j
    rw [List.mem_filter, h.owned]
    by_cases hj : j = i
    · rw [hj, hself, hi]
      refine iff_of_false ?_ (by simp [Phase.node])
      rintro ⟨hq, hne⟩
      obtain rfl : s = q := Option.some.inj hq
      simp at hne
    · rw [hother j hj]
      constructor
      · exact fun hq => hq.1
      · intro hq
        refine ⟨hq, ?_⟩
        simp only [Option.some.injEq, decide_eq_true_eq]
        rintro rfl
        exact hj (h.distinct j i q (Phase.seq_of_node hq) (by rw [hi]; rfl))
  · intro j q
    rw [hseq]
    exact h.bound j q
  · intro j k q
    rw [hseq, hseq]
    exact h.distinct j k q
  · intro j q names hj
    have hne : j ≠ i := by
      rintro rfl
      rw [hself] at hj
      exact absurd hj (by simp)
    rw [hother j hne] at hj
    obtain ⟨hmem, hall⟩ := h.listed j q names hj
    exact ⟨hmem, fun r k hr => hall r k (hless r k hr)⟩
  · intro j q
    rw [htaken, h.taken]
  · intro j q hj r k hr
    rw [htaken] at hj
    exact h.first j q hj r k (hless r k hr)

/-- A client with the smallest node takes the lock. -/
theorem Nodes.take (h : Nodes live next takes phase) {s : ℕ} (hnode : (phase i).node = some s)
    (hnot : (phase i).taken = none) (hfirst : ∀ q j, (q, j) ∈ live → s ≤ q) :
    Nodes live next (takes ++ [⟨i, some s, live⟩]) (Function.update phase i (.taking s)) := by
  have hself : Function.update phase i (.taking s) i = .taking s := Function.update_self _ _ _
  have hother : ∀ j, j ≠ i → Function.update phase i (.taking s) j = phase j :=
    fun j hj => Function.update_of_ne hj _ _
  have hmem : (s, i) ∈ live := (h.owned s i).mpr hnode
  have hseq : ∀ j, (Function.update phase i (.taking s) j).seq = (phase j).seq := by
    intro j
    by_cases hj : j = i
    · rw [hj, hself, Phase.seq_of_node hnode]
      rfl
    · rw [hother j hj]
  have hlive : ∀ j, (Function.update phase i (.taking s) j).node = (phase j).node := by
    intro j
    by_cases hj : j = i
    · rw [hj, hself, hnode]
      rfl
    · rw [hother j hj]
  have hnew : ∀ τ ∈ takes, τ.client ≠ i := by
    intro τ hτ heq
    obtain ⟨q, hq, -⟩ := h.sound τ hτ
    have htaken := (h.taken i q).mpr ⟨τ, hτ, heq, hq⟩
    rw [hnot] at htaken
    exact absurd htaken (by simp)
  refine ⟨?_, ?_, ?_, ?_, ?_, ?_, ?_, ?_, ?_⟩
  · intro q j
    rw [hlive, h.owned]
  · intro j q
    rw [hseq]
    exact h.bound j q
  · intro j k q
    rw [hseq, hseq]
    exact h.distinct j k q
  · intro j q names hj
    have hne : j ≠ i := by
      rintro rfl
      rw [hself] at hj
      exact absurd hj (by simp)
    rw [hother j hne] at hj
    exact h.listed j q names hj
  · intro j q
    by_cases hj : j = i
    · rw [hj, hself]
      constructor
      · intro hq
        exact ⟨_, List.mem_append_right _ (List.mem_singleton_self _), rfl, hq⟩
      · rintro ⟨τ, hτ, hclient, hpath⟩
        rw [List.mem_append, List.mem_singleton] at hτ
        obtain hτ | rfl := hτ
        · exact absurd hclient (hnew τ hτ)
        · exact hpath
    · rw [hother j hj, h.taken]
      constructor
      · rintro ⟨τ, hτ, hclient, hpath⟩
        exact ⟨τ, List.mem_append_left _ hτ, hclient, hpath⟩
      · rintro ⟨τ, hτ, hclient, hpath⟩
        rw [List.mem_append, List.mem_singleton] at hτ
        obtain hτ | rfl := hτ
        · exact ⟨τ, hτ, hclient, hpath⟩
        · exact absurd hclient.symm hj
  · intro j q hq r k hr
    by_cases hj : j = i
    · rw [hj, hself] at hq
      rw [← Option.some.inj hq]
      exact hfirst r k hr
    · rw [hother j hj] at hq
      exact h.first j q hq r k hr
  · intro τ hτ
    rw [List.mem_append, List.mem_singleton] at hτ
    obtain hτ | rfl := hτ
    · exact h.sound τ hτ
    · exact ⟨s, rfl, hmem, hfirst⟩
  · rw [List.pairwise_append]
    refine ⟨h.ordered, List.pairwise_singleton _ _, ?_⟩
    intro τ hτ τ' hτ'
    rw [List.mem_singleton.mp hτ']
    obtain ⟨q, hpath, -⟩ := h.sound τ hτ
    have htaken := (h.taken τ.client q).mpr ⟨τ, hτ, rfl, hpath⟩
    have hle := h.first τ.client q htaken s i hmem
    refine ⟨q, s, hpath, rfl, Nat.lt_of_le_of_ne hle ?_⟩
    rintro rfl
    exact hnew τ hτ (h.distinct _ i q (Phase.seq_of_taken htaken) (Phase.seq_of_node hnode))
  · rw [List.map_append, List.nodup_append]
    refine ⟨h.once, List.pairwise_singleton _ _, ?_⟩
    intro j hj k hk
    obtain ⟨τ, hτ, rfl⟩ := List.mem_map.mp hj
    rw [List.map_singleton, List.mem_singleton] at hk
    rw [hk]
    exact hnew τ hτ

end CServer.ZkLock
