import CServer.Foundation.Program

/-!
# What a program leaves alone

`Issues` says that every command a program can issue, whatever the replies it
gets, is of some kind. When the commands of a kind keep a view of the state, so
does every reading of the program.
-/
namespace CServer.Program

variable {F : Type → Type} {ε α β σ ω : Type}

/-- Every command the program can issue satisfies `K`. -/
def Issues (K : (β : Type) → F β → Prop) : Program F ε α → Prop
  | done _ => True
  | exit _ => True
  | call c k => K _ c ∧ ∀ r, Issues K (k r)

variable {K : (β : Type) → F β → Prop}

@[simp] theorem issues_done (a : α) : Issues K (done a : Program F ε α) := trivial

@[simp] theorem issues_exit (e : ε) : Issues K (exit e : Program F ε α) := trivial

theorem issues_call (c : F β) (k : β → Program F ε α) :
    Issues K (call c k) ↔ K _ c ∧ ∀ r, Issues K (k r) := Iff.rfl

@[simp] theorem issues_issue (c : F α) : Issues K (issue c : Program F ε α) ↔ K _ c := by
  simp [issue, issues_call]

theorem Issues.bind {p : Program F ε α} {f : α → Program F ε β} (hp : Issues K p)
    (hf : ∀ a, Issues K (f a)) : Issues K (p >>= f) := by
  induction p with
  | done a => exact hf a
  | exit e => trivial
  | call c k ih => exact ⟨hp.1, fun r => ih r (hp.2 r)⟩

theorem Issues.mono {L : (β : Type) → F β → Prop} {p : Program F ε α} (hp : Issues K p)
    (h : ∀ (β : Type) (c : F β), K β c → L β c) : Issues L p := by
  induction p with
  | done a => trivial
  | exit e => trivial
  | call c k ih => exact ⟨h _ c hp.1, fun r => ih r (hp.2 r)⟩

theorem Issues.ite {c : Prop} [Decidable c] {p q : Program F ε α} (hp : Issues K p)
    (hq : Issues K q) : Issues K (if c then p else q) := by
  by_cases h : c
  · rw [if_pos h]
    exact hp
  · rw [if_neg h]
    exact hq

/-- A view that every command of the kind keeps is kept by the program, also when
commands fail. -/
theorem runFaulty_frame {m : Machine F σ} (view : σ → ω)
    (hK : ∀ (β : Type) (c : F β) s, K β c → view (m.exec c s).2 = view s) {fails : ℕ → Bool}
    {p : Program F ε α} (hp : Issues K p) (n : ℕ) (s : σ) :
    view (runFaulty m fails n p s).2.1 = view s := by
  induction p generalizing n s with
  | done a => rfl
  | exit e => rfl
  | call c k ih =>
    rw [runFaulty_call]
    split_ifs
    · exact ih _ (hp.2 _) _ _
    · exact (ih _ (hp.2 _) _ _).trans (hK _ c s hp.1)

theorem run_frame {m : Machine F σ} (view : σ → ω)
    (hK : ∀ (β : Type) (c : F β) s, K β c → view (m.exec c s).2 = view s)
    {p : Program F ε α} (hp : Issues K p) (s : σ) : view (run m p s).2 = view s := by
  obtain ⟨i, hrun⟩ := runFaulty_none m 0 p s
  have hframe : view (runFaulty m (fun _ => false) 0 p s).2.1 = view s :=
    runFaulty_frame view hK hp 0 s
  rw [hrun] at hframe
  exact hframe

end CServer.Program
