import Mathlib.Data.Prod.Basic
import Mathlib.Tactic.Cases

/-!
# Feistel rounds

A round hands one half on and combines the other one with a function of it. The rounds are undone
by themselves, with the functions in the other order and the halves exchanged, whatever the
functions are.
-/
namespace CServer.Feistel

variable {α : Type} {combine : α → α → α} {F G : ℕ → α → α} {P : α → Prop} {start : α × α}

/-- The halves after some rounds; round `i` uses the function `F i`. -/
def rounds (combine : α → α → α) (F : ℕ → α → α) (start : α × α) : ℕ → α × α
  | 0 => start
  | i + 1 =>
    let before := rounds combine F start i
    (before.2, combine before.1 (F i before.2))

/-- Halves of one kind `P`, on which the second combination takes the first one back. -/
structure Cancels (combine : α → α → α) (P : α → Prop) : Prop where
  closed : ∀ a b, P a → P b → P (combine a b)
  cancel : ∀ a b, P a → P b → combine (combine a b) b = a

theorem Cancels.rounds (h : Cancels combine P) (hF : ∀ i a, P a → P (F i a)) (hleft : P start.1)
    (hright : P start.2) (n : ℕ) :
    P (rounds combine F start n).1 ∧ P (rounds combine F start n).2 := by
  induction n with
  | zero => exact ⟨hleft, hright⟩
  | succ n ih => exact ⟨ih.2, h.closed _ _ ih.1 (hF n _ ih.2)⟩

/-- After `k` rounds of the way back the halves are those before the last `k` rounds. -/
theorem Cancels.rounds_back (h : Cancels combine P) (hF : ∀ i a, P a → P (F i a))
    (hleft : P start.1) (hright : P start.2) (n : ℕ) (hG : ∀ i < n, G i = F (n - 1 - i)) :
    ∀ k ≤ n, Feistel.rounds combine G (Feistel.rounds combine F start n).swap k =
      (Feistel.rounds combine F start (n - k)).swap := by
  intro k hk
  induction k with
  | zero => rfl
  | succ k ih =>
    obtain ⟨m, hm⟩ : ∃ m, n - k = m + 1 := ⟨n - k - 1, by omega⟩
    have hlast : n - (k + 1) = m := by omega
    have hfunction : G k = F m := by
      rw [hG k (by omega)]
      congr 1
      omega
    obtain ⟨hl, hr⟩ := h.rounds hF hleft hright m
    have hback := ih (by omega)
    rw [hm] at hback
    rw [hlast, Feistel.rounds, hback, hfunction]
    exact Prod.ext rfl (h.cancel _ _ hl (hF m _ hr))

/-- All rounds back. -/
theorem Cancels.rounds_undo (h : Cancels combine P) (hF : ∀ i a, P a → P (F i a))
    (hleft : P start.1) (hright : P start.2) (n : ℕ) (hG : ∀ i < n, G i = F (n - 1 - i)) :
    Feistel.rounds combine G (Feistel.rounds combine F start n).swap n = start.swap := by
  have hback := h.rounds_back hF hleft hright n hG n (Nat.le_refl n)
  rw [Nat.sub_self] at hback
  exact hback

end CServer.Feistel
