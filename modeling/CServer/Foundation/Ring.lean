import Mathlib.Data.List.Cycle
import Mathlib.Tactic.Cases

/-!
# Doubly linked rings

A circular list is read through two functions that give the successor and the predecessor of a
cell. `Ring` says that the cells of a list are linked in both directions and that the last one is
linked to the first one. A ring may be entered at any of its cells; the rules below put a cell in
at its end and take one out at any place.
-/
namespace CServer.Linked

variable {α : Type*} {next next' previous previous' : α → Option α} {x y first : α}
  {l front back rest : List α}

/-- One cell is in front of the other, by the links of both. -/
def Adjacent (next previous : α → Option α) (x y : α) : Prop :=
  next x = some y ∧ previous y = some x

/-- The cells of the list, each once, linked to a ring in this order. -/
def Ring (next previous : α → Option α) (l : List α) : Prop :=
  l.Nodup ∧ Cycle.Chain (Adjacent next previous) (l : Cycle α)

theorem ring_nil : Ring next previous [] := ⟨List.nodup_nil, trivial⟩

theorem ring_cons_iff :
    Ring next previous (first :: rest) ↔
      (first :: rest).Nodup ∧
        List.IsChain (Adjacent next previous) (first :: (rest ++ [first])) := Iff.rfl

/-- A ring is the same ring from any of its cells on. -/
theorem Ring.rotate (h : Ring next previous (front ++ back)) :
    Ring next previous (back ++ front) := by
  refine ⟨(List.perm_append_comm.nodup_iff).mp h.1, ?_⟩
  rw [Cycle.coe_eq_coe.mpr (List.isRotated_append : back ++ front ~r front ++ back)]
  exact h.2

/-- A ring in which every link is the same or is not the ring's. -/
theorem Ring.congr (h : Ring next previous l) (hnext : ∀ c ∈ l, next' c = next c)
    (hprevious : ∀ c ∈ l, previous' c = previous c) : Ring next' previous' l := by
  cases l with
  | nil => exact ring_nil
  | cons first rest =>
    refine ⟨h.1, h.2.imp_of_mem_imp ?_⟩
    intro c d hc hd hcd
    have mem : ∀ e ∈ first :: (rest ++ [first]), e ∈ first :: rest := by
      intro e he
      simp only [List.mem_cons, List.mem_append, List.not_mem_nil, or_false] at he ⊢
      tauto
    exact ⟨(hnext c (mem c hc)).trans hcd.1, (hprevious d (mem d hd)).trans hcd.2⟩

/-- The cell behind a cell of the ring, and the one in front of it. -/
theorem Ring.neighbours (h : Ring next previous l) (hx : x ∈ l) :
    (∃ y ∈ l, Adjacent next previous x y) ∧ ∃ y ∈ l, Adjacent next previous y x := by
  obtain ⟨front, back, rfl⟩ := List.append_of_mem hx
  have hring : Ring next previous (x :: (back ++ front)) := h.rotate
  have hchain := (ring_cons_iff.mp hring).2
  cases hl : back ++ front with
  | nil =>
    rw [hl] at hchain
    have hself := List.isChain_pair.mp hchain
    exact ⟨⟨x, hx, hself⟩, ⟨x, hx, hself⟩⟩
  | cons y m =>
    have hmem : ∀ c ∈ y :: m, c ∈ front ++ x :: back := by
      intro c hc
      rw [← hl] at hc
      simp only [List.mem_append, List.mem_cons] at hc ⊢
      tauto
    rw [hl] at hchain
    constructor
    · exact ⟨y, hmem y (by simp), (List.isChain_cons_cons.mp hchain).1⟩
    · refine ⟨(y :: m).getLast (by simp), hmem _ (List.getLast_mem _), ?_⟩
      have hlast := List.isChain_append.mp
        (show List.IsChain _ ((y :: m) ++ [x]) from (List.isChain_cons_cons.mp hchain).2)
      exact hlast.2.2 _ (List.getLast?_eq_getLast_of_ne_nil (by simp)) x rfl

theorem Ring.next_eq_iff (h : Ring next previous l) (hx : x ∈ l) (hy : y ∈ l) :
    next x = some y ↔ previous y = some x := by
  constructor
  · intro hnext
    obtain ⟨z, -, hz⟩ := (h.neighbours hx).1
    have hzy : z = y := Option.some.inj (hz.1.symm.trans hnext)
    rw [← hzy]
    exact hz.2
  · intro hprevious
    obtain ⟨z, -, hz⟩ := (h.neighbours hy).2
    have hzx : z = x := Option.some.inj (hz.2.symm.trans hprevious)
    rw [← hzx]
    exact hz.1

/-- The cell in front of the first one is the last one. -/
theorem Ring.previous_first (h : Ring next previous (first :: rest)) :
    previous first = some ((first :: rest).getLast (by simp)) := by
  have hlast := List.isChain_append.mp (show List.IsChain _ ((first :: rest) ++ [first]) from h.2)
  exact (hlast.2.2 _ (List.getLast?_eq_getLast_of_ne_nil (by simp)) first rfl).2

/-- A cell in a ring of its own. -/
theorem ring_singleton (hnext : next x = some x) (hprevious : previous x = some x) :
    Ring next previous [x] :=
  ⟨List.nodup_singleton x, (Cycle.chain_singleton _ x).mpr ⟨hnext, hprevious⟩⟩

/-- A new cell goes in behind the last one and in front of the first one. -/
theorem Ring.push [DecidableEq α] (h : Ring next previous (first :: rest)) (hx : x ∉ first :: rest)
    (hnew : next' x = some first ∧ previous' x = previous first)
    (hnext : ∀ c ∈ first :: rest, next' c = if next c = some first then some x else next c)
    (hprevious : ∀ c ∈ first :: rest, previous' c = if c = first then some x else previous c) :
    Ring next' previous' (first :: rest ++ [x]) := by
  have hlast := h.previous_first
  have hend := List.isChain_append.mp (show List.IsChain _ ((first :: rest) ++ [first]) from h.2)
  have hnd := h.1
  refine ⟨List.nodup_append.mpr ⟨hnd, List.nodup_singleton x, ?_⟩, ?_⟩
  · intro c hc d hd hcd
    rw [List.mem_singleton] at hd
    exact hx (hd ▸ hcd ▸ hc)
  · show List.IsChain _ ((first :: rest ++ [x]) ++ [first])
    rw [List.append_assoc, List.isChain_append]
    refine ⟨hend.1.imp_of_mem_tail_imp ?_, ?_, ?_⟩
    · -- no link between two old cells goes to the first one
      intro c d hc hd hcd
      have hdl : d ∈ first :: rest := List.mem_of_mem_tail hd
      have hne : d ≠ first := fun heq => (List.nodup_cons.mp hnd).1 (heq ▸ hd)
      constructor
      · rw [hnext c hc, if_neg (by rw [hcd.1]; simpa using hne)]
        exact hcd.1
      · rw [hprevious d hdl, if_neg hne]
        exact hcd.2
    · refine List.isChain_pair.mpr ⟨hnew.1, ?_⟩
      rw [hprevious first (by simp), if_pos rfl]
    · intro z hz d hd
      have hzl : (first :: rest).getLast (by simp) = z := by
        rw [List.getLast?_eq_getLast_of_ne_nil (by simp)] at hz
        exact Option.some.inj hz
      have hdx : x = d := Option.some.inj hd
      subst hdx hzl
      have hmem : (first :: rest).getLast (by simp) ∈ first :: rest := List.getLast_mem _
      constructor
      · rw [hnext _ hmem, if_pos ((h.next_eq_iff hmem (by simp)).mpr hlast)]
      · rw [hnew.2, hlast]

/-- A cell goes out: the cells around it are linked to each other. -/
theorem Ring.unlink [DecidableEq α] (h : Ring next previous (front ++ x :: back))
    (hnext : ∀ c ∈ front ++ back, next' c = if next c = some x then next x else next c)
    (hprevious : ∀ c ∈ front ++ back,
      previous' c = if previous c = some x then previous x else previous c) :
    Ring next' previous' (front ++ back) := by
  apply Ring.rotate
  have hring : Ring next previous (x :: (back ++ front)) := h.rotate
  have hmem : ∀ c, c ∈ back ++ front → c ∈ front ++ back := by
    intro c hc
    simp only [List.mem_append] at hc ⊢
    tauto
  cases hl : back ++ front with
  | nil => exact ring_nil
  | cons first rest =>
    rw [hl] at hring hmem
    have hnd := List.nodup_cons.mp hring.1
    have hne : ∀ c ∈ first :: rest, c ≠ x := fun c hc heq => hnd.1 (heq ▸ hc)
    obtain ⟨hxf, hin⟩ := List.isChain_cons_cons.mp hring.2
    obtain ⟨hold, -, hend⟩ :=
      List.isChain_append.mp (show List.IsChain _ ((first :: rest) ++ [x]) from hin)
    refine ⟨hnd.2, ?_⟩
    show List.IsChain _ ((first :: rest) ++ [first])
    rw [List.isChain_append]
    refine ⟨hold.imp_of_mem_imp ?_, List.isChain_singleton first, ?_⟩
    · -- no link between two other cells goes to the cell that goes out
      intro c d hc hd hcd
      constructor
      · rw [hnext c (hmem c hc), hcd.1, if_neg (by simpa using hne d hd)]
      · rw [hprevious d (hmem d hd), hcd.2, if_neg (by simpa using hne c hc)]
    · intro z hz d hd
      have hdf : first = d := Option.some.inj hd
      subst hdf
      have hzx := hend z hz x rfl
      have hzl : z ∈ first :: rest := List.mem_of_mem_getLast? hz
      constructor
      · rw [hnext z (hmem z hzl), if_pos hzx.1]
        exact hxf.1
      · rw [hprevious first (hmem first (by simp)), if_pos hxf.2]
        exact hzx.2

/-- Following the ring from its first cell leads to each of its cells. -/
theorem Ring.isChain (h : Ring next previous l) : List.IsChain (Adjacent next previous) l := by
  cases l with
  | nil => exact List.isChain_nil
  | cons first rest =>
    exact (List.isChain_append.mp (show List.IsChain _ ((first :: rest) ++ [first]) from h.2)).1

end CServer.Linked
