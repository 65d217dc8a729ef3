import CServer.Foundation.Fallible
import CServer.Foundation.Runs

/-!
# Replies to calls

Code is called one time after the other, and each call changes a state and has a reply. What is meant
is a machine of the same calls with replies of its own. When the two agree as long as the calls are
allowed, and no other call has the reply that is meant, then a list of calls has the replies that are
meant if and only if all of them are allowed.
-/
namespace CServer

variable {σ τ ι ρ ε : Type}

/-- The replies to a list of calls. -/
def replies (call : σ → ι → Except ε (σ × ρ)) : σ → List ι → Except ε (List ρ)
  | _, [] => .ok []
  | q, c :: calls => do
    let after ← call q c
    let rest ← replies call after.1 calls
    return after.2 :: rest

/-- The replies of a machine that cannot fail. -/
def meant (step : τ → ι → τ) (reply : τ → ι → ρ) : τ → List ι → List ρ
  | _, [] => []
  | s, c :: calls => reply s c :: meant step reply (step s c) calls

variable {call : σ → ι → Except ε (σ × ρ)} {step : τ → ι → τ} {reply : τ → ι → ρ} {q : σ} {s : τ}

theorem replies_eq_iff {agrees : σ → τ → Prop} {allowed : τ → ι → Prop}
    (hkeeps : ∀ q s c, agrees q s → allowed s c →
      ∃ q', call q c = .ok (q', reply s c) ∧ agrees q' (step s c))
    (hbreaks : ∀ q s c, agrees q s → ¬allowed s c → ∀ q', call q c ≠ .ok (q', reply s c))
    (h : agrees q s) (calls : List ι) :
    replies call q calls = .ok (meant step reply s calls) ↔ Runs.Along step allowed s calls := by
  induction calls generalizing q s with
  | nil => exact iff_of_true rfl trivial
  | cons c calls ih =>
    rw [Runs.along_cons]
    by_cases hc : allowed s c
    · obtain ⟨q', hcall, hq'⟩ := hkeeps q s c h hc
      rw [and_iff_right hc, ← ih hq', replies, hcall, ok_bind, meant]
      constructor
      · intro hrun
        obtain ⟨rest, hrest, heq⟩ := bind_eq_ok hrun
        have hsame := (List.cons.inj (Except.ok.inj heq)).2
        rw [hrest, hsame]
      · intro hrun
        show (replies call q' calls >>= _) = _
        rw [hrun]
        rfl
    · refine iff_of_false (fun hrun => ?_) fun hboth => hc hboth.1
      obtain ⟨⟨q', first⟩, hcall, hrest⟩ := bind_eq_ok hrun
      obtain ⟨rest, _, heq⟩ := bind_eq_ok hrest
      obtain rfl : first = reply s c := (List.cons.inj (Except.ok.inj heq)).1
      exact hbreaks q s c h hc q' hcall

end CServer
