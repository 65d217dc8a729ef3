import Mathlib.Data.List.Basic
import Mathlib.Tactic.Cases

/-!
# Guarded runs of a state machine

A machine is a step function on states and inputs. `Throughout` says that a
property holds in every state a run visits, its first and last included;
`Along` says that every input of a run meets a guard in the state it arrives
in. The rules below pass between the two: an invariant kept by guarded steps
holds throughout, and a property broken by every unguarded step forces the guard.
-/
namespace CServer.Runs

variable {σ ι : Type*}

/-- The state after a list of inputs, served one after another. -/
def finalState (step : σ → ι → σ) (s : σ) (inputs : List ι) : σ :=
  inputs.foldl step s

/-- `P` holds in every state the run visits. -/
def Throughout (step : σ → ι → σ) (P : σ → Prop) : σ → List ι → Prop
  | s, [] => P s
  | s, i :: inputs => P s ∧ Throughout step P (step s i) inputs

/-- Every input of the run meets the guard `G` in the state it arrives in. -/
def Along (step : σ → ι → σ) (G : σ → ι → Prop) : σ → List ι → Prop
  | _, [] => True
  | s, i :: inputs => G s i ∧ Along step G (step s i) inputs

instance decidableAlong (step : σ → ι → σ) (G : σ → ι → Prop) [∀ s i, Decidable (G s i)] :
    (s : σ) → (inputs : List ι) → Decidable (Along step G s inputs)
  | _, [] => .isTrue trivial
  | s, i :: inputs =>
      have := decidableAlong step G (step s i) inputs
      inferInstanceAs (Decidable (G s i ∧ Along step G (step s i) inputs))

variable {step : σ → ι → σ} {P Inv : σ → Prop} {G H : σ → ι → Prop}

@[simp] theorem throughout_nil (s : σ) : Throughout step P s [] ↔ P s := Iff.rfl

@[simp] theorem throughout_cons (s : σ) (i : ι) (inputs : List ι) :
    Throughout step P s (i :: inputs) ↔ P s ∧ Throughout step P (step s i) inputs := Iff.rfl

@[simp] theorem along_nil (s : σ) : Along step G s [] := trivial

@[simp] theorem along_cons (s : σ) (i : ι) (inputs : List ι) :
    Along step G s (i :: inputs) ↔ G s i ∧ Along step G (step s i) inputs := Iff.rfl

/-- A property holds throughout a run exactly when it holds after every prefix. -/
theorem throughout_iff_initial (s : σ) (inputs : List ι) :
    Throughout step P s inputs ↔
      ∀ done rest, inputs = done ++ rest → P (finalState step s done) := by
  induction inputs generalizing s with
  | nil =>
    constructor
    · intro h done rest he
      obtain ⟨rfl, -⟩ := List.append_eq_nil_iff.mp he.symm
      exact h
    · intro h
      exact h [] [] rfl
  | cons i inputs ih =>
    rw [throughout_cons, ih]
    constructor
    · rintro ⟨hs, h⟩ done rest he
      cases done with
      | nil => exact hs
      | cons j done =>
        rw [List.cons_append, List.cons.injEq] at he
        obtain ⟨rfl, he⟩ := he
        exact h done rest he
    · intro h
      refine ⟨h [] _ rfl, fun done rest he => ?_⟩
      exact h (i :: done) rest (by rw [he, List.cons_append])

theorem Throughout.first {s : σ} {inputs : List ι} (h : Throughout step P s inputs) : P s := by
  cases inputs with
  | nil => exact h
  | cons i inputs => exact h.1

theorem Along.mono {s : σ} {inputs : List ι} (h : Along step G s inputs)
    (hGH : ∀ s i, G s i → H s i) : Along step H s inputs := by
  induction inputs generalizing s with
  | nil => trivial
  | cons i inputs ih => exact ⟨hGH s i h.1, ih h.2⟩

theorem along_of_forall {K : ι → Prop} {s : σ} {inputs : List ι} (h : ∀ i ∈ inputs, K i) :
    Along step (fun _ => K) s inputs := by
  induction inputs generalizing s with
  | nil => trivial
  | cons i inputs ih =>
    exact ⟨h i List.mem_cons_self, ih (fun j hj => h j (List.mem_cons_of_mem i hj))⟩

/-- A guard that does not look at the state. -/
theorem along_iff_forall {K : ι → Prop} {s : σ} {inputs : List ι} :
    Along step (fun _ => K) s inputs ↔ ∀ i ∈ inputs, K i := by
  refine ⟨fun h => ?_, along_of_forall⟩
  induction inputs generalizing s with
  | nil => simp
  | cons i inputs ih => exact List.forall_mem_cons.mpr ⟨h.1, ih h.2⟩

theorem along_append {s : σ} {first second : List ι} :
    Along step G s (first ++ second) ↔
      Along step G s first ∧ Along step G (finalState step s first) second := by
  induction first generalizing s with
  | nil => simp [finalState]
  | cons i first ih => simp only [List.cons_append, along_cons, ih, finalState, List.foldl_cons, and_assoc]

theorem along_and {s : σ} {inputs : List ι} :
    Along step (fun s i => G s i ∧ H s i) s inputs ↔
      Along step G s inputs ∧ Along step H s inputs := by
  induction inputs generalizing s with
  | nil => simp
  | cons i inputs ih => simp only [along_cons, ih]; tauto

/-- The invariant rule: guarded steps keep `Inv`, so a guarded run that starts
in `Inv` stays in it, and each of its inputs arrives in a state of `Inv`. -/
theorem invariant_rule (hstep : ∀ s i, Inv s → G s i → Inv (step s i))
    {s : σ} {inputs : List ι} (hs : Inv s) (h : Along step G s inputs) :
    Throughout step Inv s inputs ∧ Along step (fun s i => Inv s ∧ G s i) s inputs := by
  induction inputs generalizing s with
  | nil => exact ⟨hs, trivial⟩
  | cons i inputs ih =>
    obtain ⟨hl, hr⟩ := ih (hstep s i hs h.1) h.2
    exact ⟨⟨hs, hl⟩, ⟨⟨hs, h.1⟩, hr⟩⟩

/-- Two guards that agree in the states of an invariant are met by the same runs. -/
theorem along_iff_along (hiff : ∀ s i, Inv s → (G s i ↔ H s i))
    (hstep : ∀ s i, Inv s → H s i → Inv (step s i)) {s : σ} {inputs : List ι} (hs : Inv s) :
    Along step G s inputs ↔ Along step H s inputs := by
  induction inputs generalizing s with
  | nil => rfl
  | cons i inputs ih =>
    rw [along_cons, along_cons, hiff s i hs]
    exact and_congr_right fun hguard => ih (hstep s i hs hguard)

theorem Throughout.mono {Q : σ → Prop} {s : σ} {inputs : List ι}
    (h : Throughout step P s inputs) (hPQ : ∀ s, P s → Q s) : Throughout step Q s inputs := by
  induction inputs generalizing s with
  | nil => exact hPQ s h
  | cons i inputs ih => exact ⟨hPQ s h.1, ih h.2⟩

/-- A property that no step brings back holds throughout a run if it holds at the end. -/
theorem throughout_iff_last (hback : ∀ s i, P (step s i) → P s) (s : σ) (inputs : List ι) :
    Throughout step P s inputs ↔ P (finalState step s inputs) := by
  induction inputs generalizing s with
  | nil => rfl
  | cons i inputs ih =>
    rw [throughout_cons, ih]
    constructor
    · exact And.right
    · intro hlast
      exact ⟨hback s i ((ih (step s i)).mpr hlast).first, hlast⟩

/-- The converse rule: a property that every unguarded step out of `Inv` breaks
can hold throughout only if every step was guarded. `A` collects what is assumed
of the inputs in any case. -/
theorem guard_rule {A : σ → ι → Prop}
    (hkeep : ∀ s i, Inv s → A s i → G s i → Inv (step s i))
    (hbreak : ∀ s i, Inv s → A s i → ¬ G s i → ¬ P (step s i))
    {s : σ} {inputs : List ι} (hs : Inv s) (hA : Along step A s inputs)
    (h : Throughout step P s inputs) : Along step G s inputs := by
  induction inputs generalizing s with
  | nil => trivial
  | cons i inputs ih =>
    have hG : G s i := by
      by_contra hG
      exact hbreak s i hs hA.1 hG h.2.first
    exact ⟨hG, ih (hkeep s i hs hA.1 hG) hA.2 h.2⟩

/-- Both rules together: the property holds in every state of a run exactly
when every step of the run meets the guard. -/
theorem throughout_iff_along {A : σ → ι → Prop} (hP : ∀ s, Inv s → P s)
    (hkeep : ∀ s i, Inv s → A s i → G s i → Inv (step s i))
    (hbreak : ∀ s i, Inv s → A s i → ¬ G s i → ¬ P (step s i))
    {s : σ} {inputs : List ι} (hs : Inv s) (hA : Along step A s inputs) :
    Throughout step P s inputs ↔ Along step G s inputs := by
  constructor
  · exact guard_rule hkeep hbreak hs hA
  · intro hG
    have hboth := along_and.mpr ⟨hA, hG⟩
    have hinv := invariant_rule (G := fun s i => A s i ∧ G s i)
      (fun s i hs h => hkeep s i hs h.1 h.2) hs hboth
    exact hinv.1.mono hP

end CServer.Runs
