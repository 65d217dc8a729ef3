import Mathlib.Data.List.Basic

/-!
# Data in pieces

A coder takes one buffer at a time and keeps a state between the calls. It is sequential when it does
not matter where the data is cut. Then the calls for the pieces are one call for the whole.
-/
namespace CServer.Streams

variable {σ α β : Type} {f : σ → List α → List β × σ}

/-- The calls for some buffers in turn: what each puts out, and the state after the last one. -/
def calls (f : σ → List α → List β × σ) : σ → List (List α) → List (List β) × σ
  | s, [] => ([], s)
  | s, xs :: xss =>
    let (ys, s) := f s xs
    let (yss, s) := calls f s xss
    (ys :: yss, s)

structure Sequential (f : σ → List α → List β × σ) : Prop where
  nil : ∀ s, f s [] = ([], s)
  append : ∀ s xs ys, f s (xs ++ ys) = ((f s xs).1 ++ (f (f s xs).2 ys).1, (f (f s xs).2 ys).2)

theorem Sequential.calls_eq (h : Sequential f) (xss : List (List α)) :
    ∀ s, f s xss.flatten = ((calls f s xss).1.flatten, (calls f s xss).2) := by
  induction xss with
  | nil => exact h.nil
  | cons xs xss ih =>
    intro s
    rw [List.flatten_cons, h.append, ih]
    rfl

end CServer.Streams
