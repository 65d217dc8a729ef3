import Mathlib.Data.List.Basic
import Mathlib.Tactic.Cases

/-!
# Frames of a stream

A framing recognises the first frame of a list as soon as the list reaches far enough. What
follows in the list does not change that frame, so the frames of a stream do not depend on the
pieces in which it arrives.
-/
namespace CServer

/-- `next` gives the first frame and the number of entries that it takes up. -/
structure Framing (α β : Type*) where
  next : List α → Option (β × ℕ)
  pos : ∀ {l x n}, next l = some (x, n) → 0 < n
  le : ∀ {l x n}, next l = some (x, n) → n ≤ l.length
  append : ∀ {l x n} (more), next l = some (x, n) → next (l ++ more) = some (x, n)

namespace Framing

variable {α β : Type*} (F : Framing α β)

/-- The frames of a list, one after the other. -/
def frames (l : List α) : List β :=
  match _h : F.next l with
  | none => []
  | some (x, n) => x :: frames (l.drop n)
termination_by l.length
decreasing_by
  rw [List.length_drop]
  have := F.pos _h
  have := F.le _h
  omega

/-- What is left behind the frames. -/
def rest (l : List α) : List α :=
  match _h : F.next l with
  | none => l
  | some (_, n) => rest (l.drop n)
termination_by l.length
decreasing_by
  rw [List.length_drop]
  have := F.pos _h
  have := F.le _h
  omega

variable {F} {l more : List α} {x : β} {n : ℕ}

theorem frames_of_none (h : F.next l = none) : F.frames l = [] := by
  rw [frames]
  split
  · rfl
  · rename_i hsome
    exact absurd (h.symm.trans hsome) (by simp)

theorem frames_of_some (h : F.next l = some (x, n)) : F.frames l = x :: F.frames (l.drop n) := by
  rw [frames]
  split
  · rename_i hnone
    exact absurd (hnone.symm.trans h) (by simp)
  · rename_i hsome
    obtain ⟨rfl, rfl⟩ := Prod.mk.inj (Option.some.inj (hsome.symm.trans h))
    rfl

theorem rest_of_none (h : F.next l = none) : F.rest l = l := by
  rw [rest]
  split
  · rfl
  · rename_i hsome
    exact absurd (h.symm.trans hsome) (by simp)

theorem rest_of_some (h : F.next l = some (x, n)) : F.rest l = F.rest (l.drop n) := by
  rw [rest]
  split
  · rename_i hnone
    exact absurd (hnone.symm.trans h) (by simp)
  · rename_i hsome
    obtain ⟨rfl, rfl⟩ := Prod.mk.inj (Option.some.inj (hsome.symm.trans h))
    rfl

/-- An induction along the frames of a list. -/
theorem rec_frames {motive : List α → Prop} (l : List α)
    (none : ∀ l, F.next l = none → motive l)
    (some : ∀ l x n, F.next l = some (x, n) → motive (l.drop n) → motive l) : motive l := by
  induction hlength : l.length using Nat.strongRecOn generalizing l with
  | ind size ih =>
    cases h : F.next l with
    | none => exact none l h
    | some found =>
      obtain ⟨x, n⟩ := found
      have hpos := F.pos h
      have hle := F.le h
      exact some l x n h (ih (l.drop n).length (by rw [List.length_drop]; omega) _ rfl)

theorem next_rest (l : List α) : F.next (F.rest l) = none := by
  induction l using rec_frames (F := F) with
  | none l h => rwa [rest_of_none h]
  | some l x n h ih => rwa [rest_of_some h]

/-- The frames of a stream are those of its first part, and then those of what is left of it
together with what follows. -/
theorem frames_append (l more : List α) :
    F.frames (l ++ more) = F.frames l ++ F.frames (F.rest l ++ more) := by
  induction l using rec_frames (F := F) with
  | none l h => rw [frames_of_none h, rest_of_none h, List.nil_append]
  | some l x n h ih =>
    rw [frames_of_some h, rest_of_some h, frames_of_some (F.append more h),
      List.drop_append_of_le_length (F.le h), ih, List.cons_append]

theorem rest_append (l more : List α) : F.rest (l ++ more) = F.rest (F.rest l ++ more) := by
  induction l using rec_frames (F := F) with
  | none l h => rw [rest_of_none h]
  | some l x n h ih =>
    rw [rest_of_some h, rest_of_some (F.append more h), List.drop_append_of_le_length (F.le h), ih]

theorem length_rest_le (l : List α) : (F.rest l).length ≤ l.length := by
  induction l using rec_frames (F := F) with
  | none l h => exact Nat.le_of_eq (congrArg List.length (rest_of_none h))
  | some l x n h ih =>
    rw [rest_of_some h]
    exact Nat.le_trans ih (by rw [List.length_drop]; omega)

/-! ## Whole frames one after the other -/

variable {f : List α → β}

/-- The lists, each a frame of its own, and a last one without a whole frame. -/
theorem frames_flatten {ls : List (List α)} (h : ∀ l ∈ ls, F.next l = some (f l, l.length))
    (hmore : F.next more = none) : F.frames (ls.flatten ++ more) = ls.map f := by
  induction ls with
  | nil => rw [List.flatten_nil, List.nil_append, frames_of_none hmore, List.map_nil]
  | cons l ls ih =>
    rw [List.flatten_cons, List.append_assoc,
      frames_of_some (F.append _ (h l List.mem_cons_self)), List.drop_left,
      ih fun l hl => h l (List.mem_cons_of_mem _ hl), List.map_cons]

theorem rest_flatten {ls : List (List α)} (h : ∀ l ∈ ls, F.next l = some (f l, l.length))
    (hmore : F.next more = none) : F.rest (ls.flatten ++ more) = more := by
  induction ls with
  | nil => rw [List.flatten_nil, List.nil_append, rest_of_none hmore]
  | cons l ls ih =>
    rw [List.flatten_cons, List.append_assoc, rest_of_some (F.append _ (h l List.mem_cons_self)),
      List.drop_left, ih fun l hl => h l (List.mem_cons_of_mem _ hl)]

/-- A first part of the stream of some lists holds those of `whole`, and `part` of the next one. -/
def Reaches (ls : List (List α)) (l : List α) (whole : List (List α)) (part : List α) : Prop :=
  l = whole.flatten ++ part ∧ (ls = whole ∧ part = [] ∨
    ∃ next later, ls = whole ++ next :: later ∧ part <+: next ∧ part.length < next.length)

theorem exists_reaches {ls : List (List α)} (h : l <+: ls.flatten) :
    ∃ whole part, Reaches ls l whole part := by
  induction ls generalizing l with
  | nil =>
    rw [List.flatten_nil, List.prefix_nil] at h
    exact ⟨[], [], h, .inl ⟨rfl, rfl⟩⟩
  | cons first ls ih =>
    rw [List.flatten_cons] at h
    by_cases hlength : l.length < first.length
    · have hpart := List.prefix_of_prefix_length_le h (List.prefix_append first _)
        (Nat.le_of_lt hlength)
      exact ⟨[], l, rfl, .inr ⟨first, ls, rfl, hpart, hlength⟩⟩
    · obtain ⟨l', rfl⟩ := List.prefix_of_prefix_length_le (List.prefix_append first _) h
        (Nat.le_of_not_lt hlength)
      obtain ⟨whole, part, rfl, hreached⟩ := ih ((List.prefix_append_right_inj first).mp h)
      refine ⟨first :: whole, part, by rw [List.flatten_cons, List.append_assoc], ?_⟩
      rcases hreached with ⟨rfl, rfl⟩ | ⟨next, later, rfl, hnext⟩
      · exact .inl ⟨rfl, rfl⟩
      · exact .inr ⟨next, later, rfl, hnext⟩

end Framing

end CServer
