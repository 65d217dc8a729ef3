import Mathlib.Data.List.Basic
import Mathlib.Data.List.Perm.Basic

/-!
# What is held

A ledger lists the things that were acquired and not released, and notes when something is released that
is not held. A list of releases settles it when the list is an arrangement of what is held.
-/
namespace CServer

structure Ledger (α : Type) where
  held : List α
  fault : Bool
  deriving DecidableEq

namespace Ledger

variable {α : Type} {l : Ledger α} {a : α} {held all rest : List α}

def acquire (l : Ledger α) (a : α) : Ledger α := { l with held := a :: l.held }

/-- The ledger holds these things, and nothing went wrong. -/
structure Holds (l : Ledger α) (held : List α) : Prop where
  perm : l.held.Perm held
  sound : l.fault = false

theorem Holds.of_perm (h : l.Holds held) (hperm : held.Perm all) : l.Holds all :=
  ⟨h.perm.trans hperm, h.sound⟩

theorem Holds.acquire (h : l.Holds held) (a : α) : (l.acquire a).Holds (a :: held) :=
  ⟨h.perm.cons a, h.sound⟩

variable [DecidableEq α]

def release (l : Ledger α) (a : α) : Ledger α :=
  if a ∈ l.held then { l with held := l.held.erase a } else { l with fault := true }

def releaseAll (l : Ledger α) (all : List α) : Ledger α := all.foldl release l

theorem Holds.release (h : l.Holds (a :: held)) : (l.release a).Holds held := by
  have hmem : a ∈ l.held := h.perm.mem_iff.mpr List.mem_cons_self
  rw [Ledger.release, if_pos hmem]
  refine ⟨?_, h.sound⟩
  have herase := h.perm.erase a
  rw [List.erase_cons_head] at herase
  exact herase

/-- What was just acquired is released. -/
theorem release_acquire (l : Ledger α) (a : α) : (l.acquire a).release a = l := by
  rw [Ledger.acquire, Ledger.release, if_pos List.mem_cons_self, List.erase_cons_head]

theorem Holds.releaseAll (h : l.Holds (all ++ rest)) : (l.releaseAll all).Holds rest := by
  induction all generalizing l with
  | nil => exact h
  | cons a all ih => exact ih (Holds.release h)

/-- All that is held is released, each thing once. -/
theorem Holds.settled (h : l.Holds all) : l.releaseAll all = ⟨[], false⟩ := by
  have hnone : (l.releaseAll all).Holds [] := Holds.releaseAll (h.of_perm (by rw [List.append_nil]))
  have hheld := hnone.perm.eq_nil
  have hsound := hnone.sound
  cases hl : l.releaseAll all with
  | mk held fault =>
    rw [hl] at hheld hsound
    rw [show held = [] from hheld, show fault = false from hsound]

end Ledger

end CServer
