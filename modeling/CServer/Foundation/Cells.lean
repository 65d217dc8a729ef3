import CServer.Foundation.Interleaving
import Mathlib.Logic.Function.Basic

/-!
# Commands that act on one cell

A view shows a state as a family of cells. Most commands read and write one cell
only: the reply and the new value come from the value it has, and the other
cells stay. Such commands respect the view, and two of them commute when their
cells differ, or when neither changes the state.
-/
namespace CServer.Program

variable {F : Type → Type} {β γ σ ι : Type} {V : ι → Type}

/-- Two states look alike. -/
def SameView (view : σ → (i : ι) → V i) (s t : σ) : Prop := view s = view t

theorem sameView_equivalence {view : σ → (i : ι) → V i} : Equivalence (SameView view) where
  refl _ := rfl
  symm h := h.symm
  trans h h' := h.trans h'

variable [DecidableEq ι]

/-- The command acts on the cell only, or on none and always replies alike. -/
def OnCell (m : Machine F σ) (view : σ → (i : ι) → V i) (c : F β) : Option ι → Prop
  | none => ∃ reply, ∀ s, (m.exec c s).1 = reply ∧ view (m.exec c s).2 = view s
  | some i => ∃ f : V i → β × V i, ∀ s, (m.exec c s).1 = (f (view s i)).1 ∧
      view (m.exec c s).2 = Function.update (view s) i (f (view s i)).2

variable {m : Machine F σ} {view : σ → (i : ι) → V i} {c : F β} {d : F γ}

theorem OnCell.congr {cell : Option ι} (h : OnCell m view c cell) {s t : σ}
    (hs : SameView view s t) :
    (m.exec c s).1 = (m.exec c t).1 ∧ SameView view (m.exec c s).2 (m.exec c t).2 := by
  have hview : view s = view t := hs
  cases cell with
  | none =>
    obtain ⟨reply, h⟩ := h
    exact ⟨(h s).1.trans (h t).1.symm, (h s).2.trans (hview.trans (h t).2.symm)⟩
  | some i =>
    obtain ⟨f, h⟩ := h
    refine ⟨?_, ?_⟩
    · rw [(h s).1, (h t).1, hview]
    · rw [SameView, (h s).2, (h t).2, hview]

/-- Commands that act on cells respect the view. -/
theorem congruence_of_cells {K : (β : Type) → F β → Prop} {cell : (β : Type) → F β → Option ι}
    (h : ∀ (β : Type) (c : F β), K β c → OnCell m view c (cell β c)) :
    Congruence m K (SameView view) where
  equivalence := sameView_equivalence
  reply hc hs := ((h _ _ hc).congr hs).1
  state hc hs := ((h _ _ hc).congr hs).2

/-- A command on no cell commutes with every command that respects the view. -/
theorem commute_of_no_cell {cell : Option ι} (hc : OnCell m view c none)
    (hd : OnCell m view d cell) : Commute m (SameView view) ⟨β, c⟩ ⟨γ, d⟩ := by
  obtain ⟨reply, h⟩ := hc
  intro s
  have hcd := hd.congr (s := (m.exec c s).2) (t := s) (h s).2
  exact ⟨(h _).1.trans (h s).1.symm, hcd.1, hcd.2.trans (h _).2.symm⟩

/-- Commands on different cells commute. -/
theorem commute_of_cells_ne {i j : ι} (hij : i ≠ j) (hc : OnCell m view c (some i))
    (hd : OnCell m view d (some j)) : Commute m (SameView view) ⟨β, c⟩ ⟨γ, d⟩ := by
  obtain ⟨f, hf⟩ := hc
  obtain ⟨g, hg⟩ := hd
  intro s
  have hi : view (m.exec d s).2 i = view s i := by
    rw [(hg s).2, Function.update_of_ne hij]
  have hj : view (m.exec c s).2 j = view s j := by
    rw [(hf s).2, Function.update_of_ne (Ne.symm hij)]
  refine ⟨?_, ?_, ?_⟩
  · show (m.exec c (m.exec d s).2).1 = _
    rw [(hf _).1, (hf s).1, hi]
  · show (m.exec d (m.exec c s).2).1 = _
    rw [(hg _).1, (hg s).1, hj]
  · calc view (m.exec d (m.exec c s).2).2
        = Function.update (Function.update (view s) i (f (view s i)).2) j (g (view s j)).2 := by
          rw [(hg (m.exec c s).2).2, hj, (hf s).2]
      _ = Function.update (Function.update (view s) j (g (view s j)).2) i (f (view s i)).2 :=
          Function.update_comm hij _ _ _
      _ = view (m.exec c (m.exec d s).2).2 := by
          rw [(hf (m.exec d s).2).2, hi, (hg s).2]

end CServer.Program
