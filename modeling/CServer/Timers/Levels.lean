import CServer.Foundation.Fallible
import CServer.Timers.SkipList
import Mathlib.Data.List.Sort

/-!
# Levels of the skip list

A heap is looked at through two views: `Heap.info` is what never changes in a node, and
`Heap.next` follows the pointers of one level. `Represents` says that a skip list holds the
given nodes in the given order, with the chain of every level in place. The loops of
skiplist.c are then described by what they do to the chains.
-/
namespace CServer.Timers

open Linked

variable {H : Type} {heap : Heap H} {a b x u : Addr} {i j : ℕ} {f : Option Addr}

/-- What a node keeps for life. -/
structure NodeInfo (H : Type) where
  score : ℕ
  handler : H
  height : ℕ

def ZskiplistNode.info (n : ZskiplistNode H) : NodeInfo H := ⟨n.score, n.handler, n.level.length⟩

def Heap.info (heap : Heap H) (a : Addr) : Option (NodeInfo H) :=
  (heap a).map ZskiplistNode.info

/-- The successor of a node on level `i`. -/
def Heap.next (heap : Heap H) (i : ℕ) (a : Addr) : Option Addr :=
  ((heap a).bind (fun n => n.level[i]?)).join

/-- The heap after `a->level[i].forward = f`. -/
def Heap.put (heap : Heap H) (a : Addr) (i : ℕ) (f : Option Addr) : Heap H :=
  Function.update heap a ((heap a).map (fun n => { n with level := n.level.set i f }))

/-- The node at `a` is allocated and takes part in level `i`. -/
def Heap.Reaches (heap : Heap H) (i : ℕ) (a : Addr) : Prop :=
  ∃ m, heap.info a = some m ∧ i < m.height

theorem Heap.node_of_info {m : NodeInfo H} (h : heap.info a = some m) :
    ∃ n, heap a = some n ∧ heap.node a = .ok n ∧ n.info = m := by
  unfold Heap.info at h
  obtain ⟨n, hn, hm⟩ := Option.map_eq_some_iff.mp h
  refine ⟨n, hn, ?_, hm⟩
  rw [Heap.node, hn]

theorem Heap.Reaches.forward (h : heap.Reaches i a) :
    heap.forward a i = .ok (heap.next i a) := by
  obtain ⟨m, hm, hi⟩ := h
  obtain ⟨n, hn, hnode, rfl⟩ := Heap.node_of_info hm
  have hlt : i < n.level.length := hi
  simp [Heap.forward, Heap.next, hn, hnode, ok_bind, hlt]

theorem Heap.Reaches.setForward (h : heap.Reaches i a) :
    heap.setForward a i f = .ok (heap.put a i f) := by
  obtain ⟨m, hm, hi⟩ := h
  obtain ⟨n, hn, hnode, rfl⟩ := Heap.node_of_info hm
  have hlt : i < n.level.length := hi
  simp [Heap.setForward, Heap.put, hn, hnode, ok_bind, hlt]

@[simp] theorem Heap.info_put : (heap.put a i f).info = heap.info := by
  ext c
  by_cases hc : c = a
  · subst hc
    simp [Heap.info, Heap.put, Function.comp_def, ZskiplistNode.info]
  · simp [Heap.info, Heap.put, Function.update_of_ne hc]

@[simp] theorem Heap.reaches_put : (heap.put a i f).Reaches j b ↔ heap.Reaches j b := by
  simp [Heap.Reaches]

theorem Heap.Reaches.next_put (h : heap.Reaches i a) :
    (heap.put a i f).next j b = if b = a ∧ j = i then f else heap.next j b := by
  obtain ⟨m, hm, hi⟩ := h
  obtain ⟨n, hn, hnode, rfl⟩ := Heap.node_of_info hm
  have hlt : i < n.level.length := hi
  by_cases hb : b = a
  · subst hb
    by_cases hj : j = i
    · subst hj
      simp [Heap.next, Heap.put, hn, hlt]
    · simp [Heap.next, Heap.put, hn, hj, List.getElem?_set_ne (Ne.symm hj)]
  · simp [Heap.next, Heap.put, hb]

theorem info_zslCreateNode (level score : ℕ) (func : H) :
    (zslCreateNode heap x level score func).info =
      Function.update heap.info x (some ⟨score, func, level⟩) := by
  ext c
  by_cases hc : c = x
  · subst hc
    simp [Heap.info, zslCreateNode, ZskiplistNode.info]
  · simp [Heap.info, zslCreateNode, Function.update_of_ne hc]

theorem next_zslCreateNode (level score : ℕ) (func : H) (hb : b ≠ x) :
    (zslCreateNode heap x level score func).next i b = heap.next i b := by
  simp [Heap.next, zslCreateNode, Function.update_of_ne hb]

theorem info_free (hb : b ≠ x) : Heap.info (Function.update heap x none) b = heap.info b := by
  simp [Heap.info, Function.update_of_ne hb]

theorem next_free (hb : b ≠ x) :
    Heap.next (Function.update heap x none) i b = heap.next i b := by
  simp [Heap.next, Function.update_of_ne hb]

/-! ## The walk along one level -/

/-- The `while` loop ends at the last node of the part with the smaller scores. -/
theorem zslWalk_eq {score steps : ℕ} {p q : List Addr} (chain : Chain (heap.next i) x (p ++ q))
    (reach : ∀ c ∈ x :: p, heap.Reaches i c)
    (below : ∀ c ∈ p, ∃ m, heap.info c = some m ∧ m.score < score)
    (above : ∀ c, q.head? = some c → ∃ m, heap.info c = some m ∧ score ≤ m.score)
    (enough : p.length < steps) : zslWalk heap score i steps x = .ok (p.getLastD x) := by
  induction p generalizing x steps with
  | nil =>
    obtain ⟨steps, rfl⟩ : ∃ n, steps = n + 1 := ⟨steps - 1, by simp at enough; omega⟩
    rw [zslWalk, (reach x (by simp)).forward, ok_bind, chain.head_eq]
    cases q with
    | nil => rfl
    | cons c q =>
      obtain ⟨m, hm, hscore⟩ := above c rfl
      obtain ⟨n, _, hnode, rfl⟩ := Heap.node_of_info hm
      have hge : ¬ n.score < score := not_lt.mpr hscore
      simp only [List.nil_append, List.head?_cons, hnode, ok_bind, if_neg hge,
        List.getLastD_nil]
  | cons c p ih =>
    obtain ⟨steps, rfl⟩ : ∃ n, steps = n + 1 := ⟨steps - 1, by simp at enough; omega⟩
    obtain ⟨m, hm, hscore⟩ := below c (by simp)
    obtain ⟨n, _, hnode, rfl⟩ := Heap.node_of_info hm
    have hlt : n.score < score := hscore
    rw [zslWalk, (reach x (by simp)).forward, ok_bind, chain.1]
    simp only [hnode, ok_bind, if_pos hlt]
    rw [List.getLastD_cons]
    apply ih chain.2
    · exact fun d hd => reach d (List.mem_cons_of_mem x hd)
    · exact fun d hd => below d (List.mem_cons_of_mem c hd)
    · simp at enough
      omega

/-! ## Linking and unlinking at several levels -/

theorem updateAt_eq {update : List Addr} (h : update[i]? = some u) :
    updateAt update i = .ok u := by
  simp [updateAt, h]

/-- `zslLink` puts `x` behind the node `u i` at every level `i` it is given. -/
theorem zslLink_eq {update : List Addr} {u : ℕ → Addr} {is : List ℕ} (distinct : is.Nodup)
    (known : ∀ i ∈ is, update[i]? = some (u i)) (other : ∀ i ∈ is, u i ≠ x)
    (reach : ∀ i ∈ is, heap.Reaches i (u i)) (reachNew : ∀ i ∈ is, heap.Reaches i x) :
    ∃ heap', zslLink x update is heap = .ok heap' ∧ heap'.info = heap.info ∧
      ∀ j c, heap'.next j c =
        if j ∈ is ∧ c = u j then some x
        else if j ∈ is ∧ c = x then heap.next j (u j) else heap.next j c := by
  induction is generalizing heap with
  | nil => exact ⟨heap, rfl, rfl, by simp⟩
  | cons i is ih =>
    obtain ⟨hi, distinct'⟩ := List.nodup_cons.mp distinct
    have ru := reach i (by simp)
    have rx := reachNew i (by simp)
    have ru' : (heap.put x i (heap.next i (u i))).Reaches i (u i) := by simpa using ru
    obtain ⟨heap', hrun, hinfo, hnext⟩ := @ih
      ((heap.put x i (heap.next i (u i))).put (u i) i (some x)) distinct'
      (fun k hk => known k (by simp [hk])) (fun k hk => other k (by simp [hk]))
      (fun k hk => by simpa using reach k (by simp [hk]))
      (fun k hk => by simpa using reachNew k (by simp [hk]))
    refine ⟨heap', ?_, by simpa using hinfo, ?_⟩
    · rw [zslLink, updateAt_eq (known i (by simp)), ok_bind, ru.forward, ok_bind,
        rx.setForward, ok_bind, ru'.setForward, ok_bind]
      exact hrun
    · intro j c
      have hne := other i (by simp)
      rw [hnext]
      simp only [ru'.next_put, rx.next_put, List.mem_cons]
      by_cases hji : j = i
      · subst hji
        by_cases hc : c = u j
        · simp [hi, hc]
        · by_cases hcx : c = x
          · subst hcx
            simp [hi, hc]
          · simp [hi, hc, hcx]
      · simp [hji]

/-- `zslUnlink` leads the node `u i` past `x` at every level `i` it is given where `x` follows. -/
theorem zslUnlink_eq {before : ℕ → Except Fault Addr} {u : ℕ → Addr} {is : List ℕ}
    (distinct : is.Nodup) (known : ∀ i ∈ is, before i = .ok (u i))
    (other : ∀ i ∈ is, u i ≠ x) (reach : ∀ i ∈ is, heap.Reaches i (u i))
    (reachOld : ∀ i ∈ is, heap.next i (u i) = some x → heap.Reaches i x) :
    ∃ heap', zslUnlink x before is heap = .ok heap' ∧ heap'.info = heap.info ∧
      ∀ j c, heap'.next j c =
        if j ∈ is ∧ c = u j ∧ heap.next j (u j) = some x then heap.next j x
        else heap.next j c := by
  induction is generalizing heap with
  | nil => exact ⟨heap, rfl, rfl, by simp⟩
  | cons i is ih =>
    obtain ⟨hi, distinct'⟩ := List.nodup_cons.mp distinct
    have ru := reach i (by simp)
    by_cases hhit : heap.next i (u i) = some x
    · have rx := reachOld i (by simp) hhit
      have hother : ∀ k ∈ is, ∀ c, (heap.put (u i) i (heap.next i x)).next k c =
          heap.next k c := by
        intro k hk c
        have hki : k ≠ i := fun h => hi (h ▸ hk)
        simp [ru.next_put, hki]
      obtain ⟨heap', hrun, hinfo, hnext⟩ := @ih
        (heap.put (u i) i (heap.next i x)) distinct'
        (fun k hk => known k (by simp [hk])) (fun k hk => other k (by simp [hk]))
        (fun k hk => by simpa using reach k (by simp [hk]))
        (fun k hk hn => by
          rw [hother k hk] at hn
          simpa using reachOld k (by simp [hk]) hn)
      refine ⟨heap', ?_, by simpa using hinfo, ?_⟩
      · rw [zslUnlink, known i (by simp), ok_bind, ru.forward, ok_bind, if_pos hhit,
          rx.forward, ok_bind, ru.setForward, ok_bind]
        exact hrun
      · intro j c
        rw [hnext]
        by_cases hji : j = i
        · subst hji
          have hne := other j (by simp)
          by_cases hc : c = u j
          · simp [hi, hc, hhit, ru.next_put]
          · simp [hi, hc, ru.next_put]
        · by_cases hj : j ∈ is
          · simp [hj, hother j hj]
          · simp [hj, hji, ru.next_put]
    · obtain ⟨heap', hrun, hinfo, hnext⟩ := @ih heap distinct'
        (fun k hk => known k (by simp [hk])) (fun k hk => other k (by simp [hk]))
        (fun k hk => reach k (by simp [hk]))
        (fun k hk => reachOld k (by simp [hk]))
      refine ⟨heap', ?_, hinfo, ?_⟩
      · rw [zslUnlink, known i (by simp), ok_bind, ru.forward, ok_bind, if_neg hhit]
        exact hrun
      · intro j c
        rw [hnext]
        by_cases hji : j = i
        · subst hji
          simp [hi, hhit]
        · simp [hji]

end CServer.Timers
