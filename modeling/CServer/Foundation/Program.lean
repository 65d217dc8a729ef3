import Mathlib.Tactic.Cases
import Mathlib.Tactic.Basic
import Mathlib.Data.Nat.Basic

/-!
# Sequential programs over a set of commands

A program issues one command at a time and continues on its reply. It ends
normally with a value, or early with an exit code, as C code does that jumps to
its cleanup label. A machine says what each command does to a shared state and
what it replies when it fails. Three readings of one program are given: alone,
with chosen commands failing, and interleaved with a second program.
-/
namespace CServer

/-- Programs over commands `F β` with replies of type `β`, exit codes `ε` and
results `α`. -/
inductive Program (F : Type → Type) (ε α : Type) : Type 1 where
  | done (a : α) : Program F ε α
  | exit (e : ε) : Program F ε α
  | call {β : Type} (c : F β) (k : β → Program F ε α) : Program F ε α

namespace Program

variable {F : Type → Type} {ε δ α β σ : Type}

def bind : Program F ε α → (α → Program F ε β) → Program F ε β
  | done a, f => f a
  | exit e, _ => exit e
  | call c k, f => call c (fun r => bind (k r) f)

instance : Monad (Program F ε) where
  pure := done
  bind := bind

@[simp] theorem pure_eq (a : α) : (pure a : Program F ε α) = done a := rfl

@[simp] theorem done_bind (a : α) (f : α → Program F ε β) : (done a >>= f) = f a := rfl

@[simp] theorem exit_bind (e : ε) (f : α → Program F ε β) :
    (exit e >>= f : Program F ε β) = exit e := rfl

@[simp] theorem call_bind {γ : Type} (c : F γ) (k : γ → Program F ε α)
    (f : α → Program F ε β) : (call c k >>= f) = call c (fun r => k r >>= f) := rfl

/-- Issue one command and return its reply. -/
def issue (c : F α) : Program F ε α := call c done

end Program

/-- What the commands do: their effect and reply on a state, and the reply of a
command that fails and changes nothing. -/
structure Machine (F : Type → Type) (σ : Type) where
  exec : {β : Type} → F β → σ → β × σ
  failed : {β : Type} → F β → β

namespace Program

variable {F : Type → Type} {ε δ α β σ : Type} (m : Machine F σ)

/-- The program alone, every command succeeding. -/
def run : Program F ε α → σ → Except ε α × σ
  | done a, s => (.ok a, s)
  | exit e, s => (.error e, s)
  | call c k, s => run (k (m.exec c s).1) (m.exec c s).2

@[simp] theorem run_done (a : α) (s : σ) :
    run m (done a : Program F ε α) s = (.ok a, s) := rfl

@[simp] theorem run_exit (e : ε) (s : σ) :
    run m (exit e : Program F ε α) s = (.error e, s) := rfl

theorem run_call {γ : Type} (c : F γ) (k : γ → Program F ε α) (s : σ) :
    run m (call c k) s = run m (k (m.exec c s).1) (m.exec c s).2 := rfl

theorem run_issue (c : F α) (s : σ) :
    run m (issue c : Program F ε α) s = (.ok (m.exec c s).1, (m.exec c s).2) := rfl

/-- Sequencing: the second part starts where the first ended, or is skipped. -/
theorem run_bind (p : Program F ε α) (f : α → Program F ε β) (s : σ) :
    run m (p >>= f) s =
      match run m p s with
      | (.ok a, t) => run m (f a) t
      | (.error e, t) => (.error e, t) := by
  induction p generalizing s with
  | done a => rfl
  | exit e => rfl
  | call c k ih => simp only [call_bind, run_call, ih]

/-- The program with the commands at the positions `fails` failing; `n` is the
position of the next command. Also returns the position after the last one. -/
def runFaulty (fails : ℕ → Bool) : ℕ → Program F ε α → σ → Except ε α × σ × ℕ
  | n, done a, s => (.ok a, s, n)
  | n, exit e, s => (.error e, s, n)
  | n, call c k, s =>
      if fails n then runFaulty fails (n + 1) (k (m.failed c)) s
      else runFaulty fails (n + 1) (k (m.exec c s).1) (m.exec c s).2

section Faulty

variable (fails : ℕ → Bool) (n : ℕ)

@[simp] theorem runFaulty_done (a : α) (s : σ) :
    runFaulty m fails n (done a : Program F ε α) s = (.ok a, s, n) := rfl

@[simp] theorem runFaulty_exit (e : ε) (s : σ) :
    runFaulty m fails n (exit e : Program F ε α) s = (.error e, s, n) := rfl

theorem runFaulty_call {γ : Type} (c : F γ) (k : γ → Program F ε α) (s : σ) :
    runFaulty m fails n (call c k) s =
      if fails n then runFaulty m fails (n + 1) (k (m.failed c)) s
      else runFaulty m fails (n + 1) (k (m.exec c s).1) (m.exec c s).2 := rfl

theorem runFaulty_bind (p : Program F ε α) (f : α → Program F ε β) (s : σ) :
    runFaulty m fails n (p >>= f) s =
      match runFaulty m fails n p s with
      | (.ok a, t, i) => runFaulty m fails i (f a) t
      | (.error e, t, i) => (.error e, t, i) := by
  induction p generalizing n s with
  | done a => rfl
  | exit e => rfl
  | call c k ih =>
    simp only [call_bind, runFaulty_call]
    split_ifs
    · exact ih _ _ _
    · exact ih _ _ _

end Faulty

/-- When nothing fails, the faulty reading is the program alone. -/
theorem runFaulty_none (n : ℕ) (p : Program F ε α) (s : σ) :
    ∃ i, runFaulty m (fun _ => false) n p s = ((run m p s).1, (run m p s).2, i) := by
  induction p generalizing n s with
  | done a => exact ⟨n, rfl⟩
  | exit e => exact ⟨n, rfl⟩
  | call c k ih => exact ih _ _ _

/-- The single commands of `p` and `q` interleaved by a schedule: `true` lets `p`
issue its next command, `false` lets `q`. A turn of an ended program is lost;
what is left when the schedule ends runs `p` first. Every interleaving of the
two programs is the result of some schedule. -/
def interleave : List Bool → Program F ε α → Program F δ β → σ → Except ε α × Except δ β × σ
  | [], p, q, s => ((run m p s).1, run m q (run m p s).2)
  | true :: w, call c k, q, s => interleave w (k (m.exec c s).1) q (m.exec c s).2
  | true :: w, done a, q, s => interleave w (done a) q s
  | true :: w, exit e, q, s => interleave w (exit e) q s
  | false :: w, p, call c k, s => interleave w p (k (m.exec c s).1) (m.exec c s).2
  | false :: w, p, done b, s => interleave w p (done b) s
  | false :: w, p, exit e, s => interleave w p (exit e) s

end Program

end CServer
