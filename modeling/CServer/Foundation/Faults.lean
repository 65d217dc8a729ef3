import CServer.Foundation.Program

/-!
# Programs whose commands may fail

What must hold before a program so that a condition holds at its end, when the
commands at the positions `fails` fail. The condition speaks of the exit, the
state and the position reached. The rules follow the program text; each issued
command splits on whether it fails.
-/
namespace CServer.Program

variable {F : Type → Type} {ε α β σ : Type} (m : Machine F σ) (fails : ℕ → Bool)

/-- The condition `Q` holds when `p`, started at position `n` in state `s`, has ended. -/
def wp (n : ℕ) (p : Program F ε α) (s : σ) (Q : Except ε α → σ → ℕ → Prop) : Prop :=
  Q (runFaulty m fails n p s).1 (runFaulty m fails n p s).2.1 (runFaulty m fails n p s).2.2

variable {m fails} {n : ℕ} {s : σ}

theorem wp_done {a : α} {Q : Except ε α → σ → ℕ → Prop} :
    wp m fails n (done a) s Q ↔ Q (.ok a) s n := Iff.rfl

theorem wp_exit {e : ε} {Q : Except ε α → σ → ℕ → Prop} :
    wp m fails n (exit e) s Q ↔ Q (.error e) s n := Iff.rfl

/-- The condition at the end of the first part is what the second part needs, or
the condition itself after an early exit. -/
theorem wp_bind {p : Program F ε α} {f : α → Program F ε β} {Q : Except ε β → σ → ℕ → Prop} :
    wp m fails n (p >>= f) s Q ↔
      wp m fails n p s (fun r t i => match r with
        | .ok a => wp m fails i (f a) t Q
        | .error e => Q (.error e) t i) := by
  unfold wp
  rw [runFaulty_bind]
  rcases runFaulty m fails n p s with ⟨r, t, i⟩
  cases r <;> rfl

theorem wp_issue {c : F α} {Q : Except ε α → σ → ℕ → Prop} :
    wp m fails n (issue c) s Q ↔
      if fails n then Q (.ok (m.failed c)) s (n + 1)
      else Q (.ok (m.exec c s).1) (m.exec c s).2 (n + 1) := by
  unfold wp issue
  rw [runFaulty_call]
  split_ifs <;> rfl

end CServer.Program
