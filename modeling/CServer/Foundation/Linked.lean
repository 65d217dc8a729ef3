import Mathlib.Data.List.Basic
import Mathlib.Data.List.Nodup
import Mathlib.Tactic.Cases

/-!
# Linked chains

A singly linked chain is read through a function that gives the successor of a cell.
`Chain` says that following it from a cell visits exactly the cells of a list and then ends;
`Path` says the same without the end. The rules below put a cell into a chain and take one
out by changing the successor of the cell before it.
-/
namespace CServer.Linked

variable {α : Type*} {next next' : α → Option α} {a b x : α} {p q l l' : List α}

/-- Following `next` from `a` visits the cells of the list, in this order. -/
def Path (next : α → Option α) : α → List α → Prop
  | _, [] => True
  | a, b :: l => next a = some b ∧ Path next b l

/-- Following `next` from `a` visits the cells of the list and ends there. -/
def Chain (next : α → Option α) : α → List α → Prop
  | a, [] => next a = none
  | a, b :: l => next a = some b ∧ Chain next b l

theorem Chain.head_eq (h : Chain next a l) : next a = l.head? := by
  cases l with
  | nil => exact h
  | cons b l => exact h.1

/-- A chain in two parts: the second one starts at the last cell of the first. -/
theorem chain_append_iff :
    Chain next a (p ++ q) ↔ Path next a p ∧ Chain next (p.getLastD a) q := by
  induction p generalizing a with
  | nil => simp [Path]
  | cons b p ih =>
    rw [List.cons_append, List.getLastD_cons]
    show (_ ∧ Chain next b (p ++ q)) ↔ (_ ∧ Path next b p) ∧ _
    rw [ih, and_assoc]

theorem Path.chain_append (hp : Path next a p) (hq : Chain next (p.getLastD a) q) :
    Chain next a (p ++ q) :=
  chain_append_iff.mpr ⟨hp, hq⟩

/-- A path reads the successors of its cells, its last one apart. -/
theorem Path.congr (h : Path next a p) (hnd : (a :: p).Nodup)
    (same : ∀ c ∈ a :: p, c ≠ p.getLastD a → next' c = next c) : Path next' a p := by
  induction p generalizing a with
  | nil => trivial
  | cons b p ih =>
    rw [List.getLastD_cons] at same
    have hne : a ≠ p.getLastD b := by
      intro heq
      exact (List.nodup_cons.mp hnd).1 (heq ▸ List.getLastD_mem_cons)
    refine ⟨?_, ih h.2 (List.nodup_cons.mp hnd).2 ?_⟩
    · rw [same a (by simp) hne]
      exact h.1
    · intro c hc
      exact same c (List.mem_cons_of_mem a hc)

theorem Chain.congr (h : Chain next a l) (same : ∀ c ∈ a :: l, next' c = next c) :
    Chain next' a l := by
  induction l generalizing a with
  | nil =>
    show next' a = none
    rw [same a (by simp)]
    exact h
  | cons b l ih =>
    refine ⟨?_, ih h.2 (fun c hc => same c (List.mem_cons_of_mem a hc))⟩
    rw [same a (by simp)]
    exact h.1

/-- A cell has one chain. -/
theorem Chain.unique (h : Chain next a l) (h' : Chain next a l') : l = l' := by
  induction l generalizing a l' with
  | nil =>
    cases l' with
    | nil => rfl
    | cons b l' => exact absurd (h.symm.trans h'.1) (by simp)
  | cons b l ih =>
    cases l' with
    | nil => exact absurd (h.1.symm.trans h') (by simp)
    | cons c l' =>
      have hbc : b = c := Option.some.inj (h.1.symm.trans h'.1)
      subst hbc
      rw [ih h.2 h'.2]

/-- From a cell of the first part, the rest of that part is still in front of the second. -/
theorem Chain.from_mem (h : Chain next a (p ++ q)) (hx : x ∈ a :: p) :
    ∃ r, Chain next x (r ++ q) ∧ r <:+ p ∧ r.getLastD x = p.getLastD a := by
  induction p generalizing a with
  | nil =>
    have hxa : x = a := by simpa using hx
    subst hxa
    exact ⟨[], h, List.suffix_rfl, rfl⟩
  | cons b p ih =>
    rcases List.mem_cons.mp hx with hxa | hxp
    · subst hxa
      exact ⟨b :: p, h, List.suffix_rfl, rfl⟩
    · obtain ⟨r, hr, hsuf, hlast⟩ := ih h.2 hxp
      refine ⟨r, hr, hsuf.trans (List.suffix_cons b p), ?_⟩
      rw [hlast, List.getLastD_cons]

/-- A new cell goes in behind the last cell of the first part. -/
theorem Chain.insert (h : Chain next a (p ++ q)) (hnd : (a :: (p ++ q)).Nodup)
    (hx : x ∉ a :: (p ++ q)) (hlast : next' (p.getLastD a) = some x)
    (hnew : next' x = next (p.getLastD a))
    (same : ∀ c, c ≠ p.getLastD a → c ≠ x → next' c = next c) :
    Chain next' a (p ++ x :: q) := by
  obtain ⟨hp, hq⟩ := chain_append_iff.mp h
  have hsplit : ((a :: p) ++ q).Nodup := by simpa using hnd
  have fresh : ∀ c ∈ a :: (p ++ q), c ≠ x := fun c hc heq => hx (heq ▸ hc)
  apply Path.chain_append
  · apply hp.congr (List.nodup_append.mp hsplit).1
    intro c hc hne
    apply same c hne (fresh c _)
    simp only [List.mem_cons, List.mem_append] at hc ⊢
    tauto
  · refine ⟨hlast, ?_⟩
    cases q with
    | nil =>
      show next' x = none
      rw [hnew]
      exact hq
    | cons b q =>
      refine ⟨by rw [hnew]; exact hq.1, hq.2.congr ?_⟩
      intro c hc
      apply same c
      · intro heq
        have hmem : c ∈ a :: p := by rw [heq]; exact List.getLastD_mem_cons
        exact (List.nodup_append.mp hsplit).2.2 c hmem c hc rfl
      · apply fresh c
        simp only [List.mem_cons, List.mem_append] at hc ⊢
        tauto

/-- The cell behind the first part goes out. -/
theorem Chain.unlink (h : Chain next a (p ++ x :: q)) (hnd : (a :: (p ++ x :: q)).Nodup)
    (hlast : next' (p.getLastD a) = next x)
    (same : ∀ c, c ≠ p.getLastD a → c ≠ x → next' c = next c) : Chain next' a (p ++ q) := by
  obtain ⟨hp, hq⟩ := chain_append_iff.mp h
  have hsplit : ((a :: p) ++ x :: q).Nodup := by simpa using hnd
  obtain ⟨hnp, hnq, hdis⟩ := List.nodup_append.mp hsplit
  apply Path.chain_append
  · apply hp.congr hnp
    intro c hc hne
    exact same c hne (hdis c hc x (by simp))
  · have hrest : Chain next x q := hq.2
    cases q with
    | nil =>
      show next' _ = none
      rw [hlast]
      exact hrest
    | cons b q =>
      refine ⟨by rw [hlast]; exact hrest.1, hrest.2.congr ?_⟩
      intro c hc
      apply same c
      · intro heq
        have hmem : c ∈ a :: p := by rw [heq]; exact List.getLastD_mem_cons
        exact hdis c hmem c (List.mem_cons_of_mem x hc) rfl
      · intro heq
        exact (List.nodup_cons.mp hnq).1 (heq ▸ hc)

end CServer.Linked
