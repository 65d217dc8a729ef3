import Mathlib.Data.List.Basic

/-!
# Code that may fail

A step that returns an error ends the run, and a step that returns a value hands it on.
-/
namespace CServer

variable {ε α β : Type}

theorem ok_bind (a : α) (k : α → Except ε β) : ((Except.ok a : Except ε α) >>= k) = k a := rfl

theorem error_bind (e : ε) (k : α → Except ε β) :
    ((Except.error e : Except ε α) >>= k) = .error e := rfl

/-- A run that returns a value has returned one at each step. -/
theorem bind_eq_ok {x : Except ε α} {k : α → Except ε β} {b : β} (h : (x >>= k) = .ok b) :
    ∃ a, x = .ok a ∧ k a = .ok b := by
  cases x with
  | error e =>
    rw [error_bind] at h
    exact absurd h (by simp)
  | ok a => exact ⟨a, rfl, h⟩

/-- Code with loops that make at most so many turns returns a value when all larger numbers of
turns give it. -/
def Returns (run : ℕ → Except ε α) (a : α) : Prop :=
  ∃ enough, ∀ turns, enough ≤ turns → run turns = .ok a

variable {run : ℕ → Except ε α} {a : α} {b : β}

theorem Returns.of_eq {f : ℕ → Except ε α} (h : ∀ turns, f turns = .ok a) : Returns f a :=
  ⟨0, fun turns _ => h turns⟩

theorem Returns.congr {run' : ℕ → Except ε α} (h : Returns run' a)
    (heq : ∀ turns, run turns = run' turns) : Returns run a := by
  obtain ⟨enough, h⟩ := h
  exact ⟨enough, fun turns hturns => (heq turns).trans (h turns hturns)⟩

/-- The first turn is made. -/
theorem Returns.succ {run' : ℕ → Except ε α} (h : Returns run' a)
    (heq : ∀ turns, run (turns + 1) = run' turns) : Returns run a := by
  obtain ⟨enough, h⟩ := h
  refine ⟨enough + 1, fun turns hturns => ?_⟩
  obtain ⟨turns, rfl⟩ : ∃ before, turns = before + 1 := ⟨turns - 1, by omega⟩
  exact (heq turns).trans (h turns (by omega))

/-- The first turn is the last one. -/
theorem Returns.of_succ (h : ∀ turns, run (turns + 1) = .ok a) : Returns run a :=
  (Returns.of_eq (f := fun _ : ℕ => .ok a) (fun _ => rfl)).succ h

/-- So many turns, and any number more. -/
theorem Returns.of_add {enough : ℕ} (h : ∀ more, run (more + enough) = .ok a) : Returns run a := by
  refine ⟨enough, fun turns hturns => ?_⟩
  obtain ⟨more, rfl⟩ := Nat.exists_eq_add_of_le' hturns
  exact h more

/-- Code goes on after a first part has returned. -/
theorem Returns.after {run' run'' : ℕ → Except ε β} (h : Returns run a) (h' : Returns run' b)
    (heq : ∀ turns, run turns = .ok a → run'' turns = run' turns) : Returns run'' b := by
  obtain ⟨enough, h⟩ := h
  obtain ⟨enough', h'⟩ := h'
  refine ⟨max enough enough', fun turns hturns => ?_⟩
  rw [heq turns (h turns (by omega))]
  exact h' turns (by omega)

theorem Returns.bind {k : ℕ → α → Except ε β} (h : Returns run a)
    (hk : Returns (fun turns => k turns a) b) : Returns (fun turns => run turns >>= k turns) b := by
  obtain ⟨enough, h⟩ := h
  obtain ⟨enough', hk⟩ := hk
  refine ⟨max enough enough', fun turns hturns => ?_⟩
  show (run turns >>= k turns) = .ok b
  rw [h turns (by omega), ok_bind]
  exact hk turns (by omega)

theorem Returns.unique {a' : α} (h : Returns run a) (h' : Returns run a') : a = a' := by
  obtain ⟨enough, h⟩ := h
  obtain ⟨enough', h'⟩ := h'
  have hboth := (h (max enough enough') (by omega)).symm.trans (h' (max enough enough') (by omega))
  exact Except.ok.inj hboth

end CServer
