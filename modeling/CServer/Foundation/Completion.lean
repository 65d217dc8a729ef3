import CServer.Foundation.Fallible
import CServer.Foundation.Runs
import Mathlib.Tactic.Cases

/-!
# Calls that may not return

Code with loops and recursion is called one time after the other on a state. A call may run on
without an end, or end in an error, and then no later call is made. `Completes` says that each call
returns and that a property holds in each state; `Arrives` says that each call that is made meets a
guard.
-/
namespace CServer

variable {σ ι ε α β : Type} {run : ℕ → σ → ι → Except ε σ} {P Inv : σ → Prop}
  {A G : σ → ι → Prop} {s : σ}

/-- Code that returns some value with all large numbers of turns. -/
def Halts (run : ℕ → Except ε α) : Prop :=
  ∃ enough, ∀ turns, enough ≤ turns → ∃ a, run turns = .ok a

theorem Returns.halts {run : ℕ → Except ε α} {a : α} (h : Returns run a) : Halts run := by
  obtain ⟨enough, h⟩ := h
  exact ⟨enough, fun turns hturns => ⟨a, h turns hturns⟩⟩

theorem Halts.congr {run run' : ℕ → Except ε α} (h : Halts run)
    (heq : ∀ turns, run turns = run' turns) : Halts run' := by
  rw [← funext heq]
  exact h

/-- What ends with a first turn ends on its own. -/
theorem Halts.pred {run run' : ℕ → Except ε α} (h : Halts run)
    (heq : ∀ turns, run (turns + 1) = run' turns) : Halts run' := by
  obtain ⟨enough, h⟩ := h
  refine ⟨enough, fun turns hturns => ?_⟩
  rw [← heq]
  exact h (turns + 1) (by omega)

theorem Halts.of_bind {first : ℕ → Except ε α} {k : ℕ → α → Except ε β}
    (h : Halts fun turns => first turns >>= k turns) : Halts first := by
  obtain ⟨enough, h⟩ := h
  refine ⟨enough, fun turns hturns => ?_⟩
  obtain ⟨b, hb⟩ := h turns hturns
  obtain ⟨a, ha, -⟩ := bind_eq_ok hb
  exact ⟨a, ha⟩

/-- When the first part returns, the second part ends with what it returns. -/
theorem Halts.bind_right {first : ℕ → Except ε α} {k : ℕ → α → Except ε β} {a : α}
    (h : Halts fun turns => first turns >>= k turns) (hfirst : Returns first a) :
    Halts fun turns => k turns a := by
  obtain ⟨enough, h⟩ := h
  obtain ⟨enough', hfirst⟩ := hfirst
  refine ⟨max enough enough', fun turns hturns => ?_⟩
  obtain ⟨b, hb⟩ := h turns (by omega)
  change (first turns >>= k turns) = .ok b at hb
  rw [hfirst turns (by omega), ok_bind] at hb
  exact ⟨b, hb⟩

theorem not_halts_error (e : ε) : ¬Halts fun _ => (Except.error e : Except ε α) := by
  rintro ⟨enough, h⟩
  obtain ⟨a, ha⟩ := h enough (Nat.le_refl _)
  exact absurd ha nofun

/-- The property holds before the first call, and each call returns in a state that has it. -/
def Completes (run : ℕ → σ → ι → Except ε σ) (P : σ → Prop) : σ → List ι → Prop
  | s, [] => P s
  | s, i :: inputs =>
    P s ∧ ∃ s', Returns (fun turns => run turns s i) s' ∧ Completes run P s' inputs

theorem Completes.first {inputs : List ι} (h : Completes run P s inputs) : P s := by
  cases inputs with
  | nil => exact h
  | cons i inputs => exact h.1

/-- Each call that is made meets the guard in the state in which it is made. -/
def Arrives (run : ℕ → σ → ι → Except ε σ) (G : σ → ι → Prop) : σ → List ι → Prop
  | _, [] => True
  | s, i :: inputs =>
    G s i ∧ ∀ s', Returns (fun turns => run turns s i) s' → Arrives run G s' inputs

/-- If guarded calls return and keep an invariant, and no other call returns, then the calls of a
run return if and only if they are guarded. `A` is what is assumed of the calls in any case. -/
theorem completes_iff_arrives (hP : ∀ s, Inv s → P s)
    (hkeeps : ∀ s i, Inv s → A s i → G s i → ∃ s', Returns (fun turns => run turns s i) s' ∧ Inv s')
    (hbreaks : ∀ s i, Inv s → A s i → ¬G s i → ∀ s', ¬Returns (fun turns => run turns s i) s')
    (hs : Inv s) {inputs : List ι} (hA : Arrives run A s inputs) :
    Completes run P s inputs ↔ Arrives run G s inputs := by
  induction inputs generalizing s with
  | nil => exact iff_of_true (hP s hs) trivial
  | cons i inputs ih =>
    obtain ⟨hassumed, hrest⟩ := hA
    constructor
    · rintro ⟨-, s', hreturns, hcompletes⟩
      have hguard : G s i := by
        by_contra hguard
        exact hbreaks s i hs hassumed hguard s' hreturns
      refine ⟨hguard, fun t hreturns' => ?_⟩
      obtain ⟨t', hkept, hinv⟩ := hkeeps s i hs hassumed hguard
      rw [hkept.unique hreturns'] at hinv
      rw [hreturns.unique hreturns'] at hcompletes
      exact (ih hinv (hrest t hreturns')).1 hcompletes
    · rintro ⟨hguard, harrives⟩
      obtain ⟨s', hreturns, hinv⟩ := hkeeps s i hs hassumed hguard
      exact ⟨hP s hs, s', hreturns, (ih hinv (hrest s' hreturns)).2 (harrives s' hreturns)⟩

/-- The calls return one after the other, the last one in the state `t`. -/
def Ends (run : ℕ → σ → ι → Except ε σ) : σ → List ι → σ → Prop
  | s, [], t => s = t
  | s, i :: inputs, t => ∃ s', Returns (fun turns => run turns s i) s' ∧ Ends run s' inputs t

/-- If a guarded call returns and does what a step of a machine does, then a run of guarded calls
ends in a state that belongs to the last one of the machine. -/
theorem Arrives.simulates {τ : Type} {R : σ → τ → Prop} {step : τ → ι → τ} {t : τ}
    {inputs : List ι} (h : Arrives run G s inputs)
    (hstep : ∀ s t i, R s t → G s i →
      ∃ s', Returns (fun turns => run turns s i) s' ∧ R s' (step t i)) (hrelated : R s t) :
    ∃ s', Ends run s inputs s' ∧ R s' (Runs.finalState step t inputs) := by
  induction inputs generalizing s t with
  | nil => exact ⟨s, rfl, hrelated⟩
  | cons i inputs ih =>
    obtain ⟨hguard, hrest⟩ := h
    obtain ⟨s', hreturns, hrelated'⟩ := hstep s t i hrelated hguard
    obtain ⟨last, hends, hlast⟩ := ih (hrest s' hreturns) hrelated'
    exact ⟨last, ⟨s', hreturns, hends⟩, hlast⟩

end CServer
