import Mathlib.Data.List.Basic
import Mathlib.Tactic.Cases

/-!
# Steps taken back

A sequence of steps is undone by their inverses in the other order, whatever the steps are.
-/
namespace CServer

variable {ι σ : Type*} {f g : ι → σ → σ}

/-- The steps of a list, one after the other. -/
def steps (f : ι → σ → σ) (l : List ι) (s : σ) : σ := l.foldl (fun s i => f i s) s

@[simp] theorem steps_nil (s : σ) : steps f [] s = s := rfl

@[simp] theorem steps_cons (i : ι) (l : List ι) (s : σ) : steps f (i :: l) s = steps f l (f i s) := rfl

@[simp] theorem steps_append (l l' : List ι) (s : σ) :
    steps f (l ++ l') s = steps f l' (steps f l s) := List.foldl_append

/-- Each step is taken back, so all are. -/
theorem steps_undo {l : List ι} (h : ∀ i ∈ l, ∀ s, g i (f i s) = s) (s : σ) :
    steps g l.reverse (steps f l s) = s := by
  induction l generalizing s with
  | nil => rfl
  | cons i l ih =>
    have hrest := ih (fun j hj => h j (List.mem_cons_of_mem i hj)) (f i s)
    rw [List.reverse_cons, steps_append]
    show g i (steps g l.reverse (steps f l (f i s))) = s
    rw [hrest]
    exact h i List.mem_cons_self s

end CServer
