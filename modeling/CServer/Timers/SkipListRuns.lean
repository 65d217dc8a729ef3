import CServer.Timers.SkipListInvariant

/-!
# Runs of the skip list

Any sequence of insertions and deletions, with any outcome of `zslRandomLevel` and of
`malloc`, beside the multiset of scores it should leave.
-/
namespace CServer.Timers

open Linked

variable {H : Type}

/-- A call with what its environment answers. -/
inductive Call (H : Type) where
  | insert (score : ℕ) (func : H) (level : RandomLevel) (x : Addr)
  | deleteHead
  | delete (zn : Addr)

def Call.run (zsl : Zskiplist H) : Call H → Except Fault (Zskiplist H)
  | .insert score func level x => zslInsert zsl score func level x
  | .deleteHead => zslDeleteHead zsl
  | .delete zn => zslDelete zsl zn

/-- The node is currently in the list. -/
def InList (zsl : Zskiplist H) (zn : Addr) : Prop :=
  ∃ l, Chain (zsl.heap.next 0) zsl.header l ∧ zn ∈ l

/-- `malloc` returns an address that is not allocated; only a node of the list is deleted. -/
def Call.Admissible (zsl : Zskiplist H) : Call H → Prop
  | .insert _ _ _ x => zsl.heap x = none
  | .deleteHead => True
  | .delete zn => InList zsl zn

/-- What a call does to the multiset of scores: one score more, one occurrence of the score
of the deleted node less, or a minimum less where there is one. -/
inductive Call.Scores (zsl : Zskiplist H) : Call H → Multiset ℕ → Multiset ℕ → Prop
  | insert (score func level x m) : Scores zsl (.insert score func level x) m (score ::ₘ m)
  | deleteHeadEmpty : Scores zsl .deleteHead 0 0
  | deleteHead (s m) (least : ∀ t ∈ m, s ≤ t) : Scores zsl .deleteHead (s ::ₘ m) m
  | delete (zn n m) (node : zsl.heap zn = some n) : Scores zsl (.delete zn) (n.score ::ₘ m) m

/-- The states of all runs from an empty list, with the scores that are due to be in it. -/
inductive Reached : Zskiplist H → Multiset ℕ → Prop
  | create (header : Addr) (defaultHandler : H) : Reached (zslCreate header defaultHandler) 0
  | call {zsl zsl' : Zskiplist H} {m m' : Multiset ℕ} (c : Call H) (before : Reached zsl m)
      (admissible : c.Admissible zsl) (run : c.run zsl = .ok zsl') (scores : c.Scores zsl m m') :
      Reached zsl' m'

variable {zsl zsl' : Zskiplist H} {l : List (Entry H)} {m m' : Multiset ℕ} {c : Call H}

theorem Represents.mem_of_inList (r : Represents zsl l) {zn : Addr} (h : InList zsl zn) :
    ∃ e ∈ l, e.addr = zn := by
  obtain ⟨cells, chain, hmem⟩ := h
  rw [chain.unique r.chain_zero] at hmem
  exact List.mem_map.mp hmem

theorem Represents.inList (r : Represents zsl l) {e : Entry H} (he : e ∈ l) :
    InList zsl e.addr :=
  ⟨_, r.chain_zero, List.mem_map_of_mem he⟩

/-- The scores of the list, as a multiset. -/
def scoresOf (l : List (Entry H)) : Multiset ℕ := ↑(l.map Entry.score)

theorem scoresOf_insert (l : List (Entry H)) (e : Entry H) :
    scoresOf (l.orderedInsert Entry.Before e) = e.score ::ₘ scoresOf l := by
  have hperm := (List.perm_orderedInsert Entry.Before e l).map Entry.score
  exact Multiset.coe_eq_coe.mpr hperm

theorem scoresOf_middle (p q : List (Entry H)) (e : Entry H) :
    scoresOf (p ++ e :: q) = e.score ::ₘ scoresOf (p ++ q) := by
  have hperm : (p ++ e :: q).Perm (e :: (p ++ q)) := List.perm_middle
  exact Multiset.coe_eq_coe.mpr (hperm.map Entry.score)

/-- An admissible call returns, with a list that has the scores it should have. -/
theorem Represents.call (r : Represents zsl l) (admissible : c.Admissible zsl) :
    ∃ zsl' l', c.run zsl = .ok zsl' ∧ Represents zsl' l' ∧
      c.Scores zsl (scoresOf l) (scoresOf l') ∧
      ∀ m', c.Scores zsl (scoresOf l) m' → m' = scoresOf l' := by
  cases c with
  | insert score func level x =>
    obtain ⟨zsl', run, -, -, r'⟩ := r.zslInsert admissible score func level
    have hscores := scoresOf_insert l ⟨x, score, func, level.val⟩
    refine ⟨zsl', _, run, r', ?_, ?_⟩
    · rw [hscores]
      exact .insert score func level x _
    · intro m' h
      cases h
      exact hscores.symm
  | deleteHead =>
    obtain ⟨zsl', run, -, -, r'⟩ := r.zslDeleteHead
    refine ⟨zsl', _, run, r', ?_, ?_⟩
    · cases l with
      | nil => exact .deleteHeadEmpty
      | cons e l =>
        apply Call.Scores.deleteHead e.score (scoresOf l)
        intro t ht
        obtain ⟨d, hd, rfl⟩ := List.mem_map.mp (Multiset.mem_coe.mp ht)
        exact (List.pairwise_cons.mp r.sorted).1 d hd
    · intro m' h
      cases l with
      | nil =>
        generalize hm : scoresOf ([] : List (Entry H)) = m at h
        cases h with
        | deleteHeadEmpty => rfl
        | deleteHead s m least => exact absurd hm.symm (Multiset.cons_ne_zero)
      | cons e l =>
        generalize hm : scoresOf (e :: l) = m at h
        have hcons : m = e.score ::ₘ scoresOf l := hm.symm
        cases h with
        | deleteHeadEmpty => exact absurd hcons.symm (Multiset.cons_ne_zero)
        | deleteHead s m least =>
          -- both are least, so that the same score goes
          have hle : s ≤ e.score := by
            have hmem : e.score ∈ s ::ₘ m' := hcons ▸ Multiset.mem_cons_self _ _
            rcases Multiset.mem_cons.mp hmem with h | h
            · exact h.ge
            · exact least _ h
          have hge : e.score ≤ s := by
            have hmem : s ∈ e.score ::ₘ scoresOf l := hcons ▸ Multiset.mem_cons_self _ _
            rcases Multiset.mem_cons.mp hmem with h | h
            · exact h.ge
            · obtain ⟨d, hd, rfl⟩ := List.mem_map.mp (Multiset.mem_coe.mp h)
              exact (List.pairwise_cons.mp r.sorted).1 d hd
          rw [le_antisymm hle hge] at hcons
          exact (Multiset.cons_inj_right _).mp hcons
  | delete zn =>
    obtain ⟨e, he, rfl⟩ := r.mem_of_inList admissible
    obtain ⟨d, p, q, zsl', rfl, hscore, -, run, -, -, r'⟩ := r.zslDelete he
    obtain ⟨n, hn, -, hinfo⟩ := Heap.node_of_info (r.nodes e he)
    have hnscore : n.score = d.score := (congrArg NodeInfo.score hinfo).trans hscore.symm
    have hscores := scoresOf_middle p q d
    rw [← hnscore] at hscores
    refine ⟨zsl', _, run, r', ?_, ?_⟩
    · rw [hscores]
      exact .delete _ n _ hn
    · intro m' h
      rw [hscores] at h
      generalize hm : n.score ::ₘ scoresOf (p ++ q) = m at h
      cases h with
      | delete _ n' m node =>
        have hnn : n' = n := Option.some.inj (node.symm.trans hn)
        subst hnn
        exact ((Multiset.cons_inj_right _).mp hm).symm

theorem Reached.represents (h : Reached zsl m) : ∃ l, Represents zsl l ∧ scoresOf l = m := by
  induction h with
  | create header defaultHandler => exact ⟨[], represents_zslCreate header defaultHandler, rfl⟩
  | call c before admissible run scores ih =>
    obtain ⟨l, r, rfl⟩ := ih
    obtain ⟨zsl', l', run', r', -, unique⟩ := r.call admissible
    have hsame := Except.ok.inj (run'.symm.trans run)
    subst hsame
    exact ⟨l', r', (unique _ scores).symm⟩

end CServer.Timers
