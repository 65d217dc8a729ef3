import Mathlib.Data.List.Nodup
import Mathlib.Data.List.Perm.Basic
import Mathlib.Logic.Function.Basic

/-!
# The cells of a heap, each in one hand

A list of addresses owns a heap when each cell that is allocated is in it once and no other. How the
list is arranged does not matter, so that a cell goes from one hand to another by a permutation.
-/
namespace CServer

structure Owns {ι α : Type*} (heap : ι → Option α) (held : List ι) : Prop where
  nodup : held.Nodup
  allocated : ∀ p, heap p ≠ none ↔ p ∈ held

namespace Owns

variable {ι α : Type*} {heap : ι → Option α} {held all rest : List ι} {p : ι}

theorem of_perm (h : Owns heap held) (hperm : held.Perm all) : Owns heap all where
  nodup := hperm.nodup h.nodup
  allocated p := (h.allocated p).trans hperm.mem_iff

theorem exists_of_mem (h : Owns heap held) (hp : p ∈ held) : ∃ a, heap p = some a :=
  Option.ne_none_iff_exists'.mp ((h.allocated p).mpr hp)

theorem notMem_of_none (h : Owns heap held) (hp : heap p = none) : p ∉ held :=
  fun hmem => (h.allocated p).mpr hmem hp

theorem append_left (h : Owns heap (held ++ rest)) : held.Nodup := (List.nodup_append.mp h.nodup).1

/-- What is in two hands is two cells. -/
theorem ne_of_mem (h : Owns heap (held ++ rest)) {q : ι} (hp : p ∈ held) (hq : q ∈ rest) : p ≠ q :=
  (List.nodup_append.mp h.nodup).2.2 p hp q hq

variable [DecidableEq ι]

/-- A cell gets another content. -/
theorem update (h : Owns heap held) (hp : p ∈ held) (a : α) :
    Owns (Function.update heap p (some a)) held where
  nodup := h.nodup
  allocated q := by
    by_cases hq : q = p
    · rw [hq, Function.update_self]
      exact iff_of_true (Option.some_ne_none a) hp
    · rw [Function.update_of_ne hq]
      exact h.allocated q

/-- A cell is allocated. -/
theorem acquire (h : Owns heap held) (hp : heap p = none) (a : α) :
    Owns (Function.update heap p (some a)) (p :: held) where
  nodup := List.nodup_cons.mpr ⟨h.notMem_of_none hp, h.nodup⟩
  allocated q := by
    by_cases hq : q = p
    · rw [hq, Function.update_self]
      exact iff_of_true (Option.some_ne_none a) List.mem_cons_self
    · rw [Function.update_of_ne hq, h.allocated q, List.mem_cons, or_iff_right hq]

/-- A cell is released. -/
theorem release (h : Owns heap (p :: held)) : Owns (Function.update heap p none) held where
  nodup := (List.nodup_cons.mp h.nodup).2
  allocated q := by
    have hnot := (List.nodup_cons.mp h.nodup).1
    by_cases hq : q = p
    · rw [hq, Function.update_self]
      exact iff_of_false (not_not.mpr rfl) hnot
    · rw [Function.update_of_ne hq, h.allocated q, List.mem_cons, or_iff_right hq]

end Owns

end CServer
