import CServer.Foundation.Interleave
import Mathlib.Data.List.Perm.Basic

/-!
# A key taken out of a sorted sequence

One occurrence of a key goes, if there is one. The rules below take a key out of a part of a
sequence, and out of a place whose neighbour takes it.
-/
namespace CServer.Interleave

variable {α : Type*} {k m : α} {before c c' behind : List α}

/-- Of the keys of `l` one `k` is missing in `l'`, or none if there was none. -/
def Removed (k : α) (l l' : List α) : Prop :=
  (k ∈ l → l.Perm (k :: l')) ∧ (k ∉ l → l.Perm l')

/-- What is left was there before. -/
theorem Removed.mem {l l' : List α} (h : Removed k l l') {x : α} (hx : x ∈ l') : x ∈ l := by
  by_cases hk : k ∈ l
  · exact (h.1 hk).mem_iff.mpr (List.mem_cons_of_mem k hx)
  · exact (h.2 hk).mem_iff.mpr hx

/-- The key is taken out of a part that has it if the whole has. -/
theorem Removed.part (h : Removed k c c') (hin : k ∈ before ++ behind → k ∈ c) :
    Removed k (before ++ c ++ behind) (before ++ c' ++ behind) := by
  constructor
  · intro hk
    have hkc : k ∈ c := by
      simp only [List.mem_append] at hk hin
      tauto
    calc (before ++ c ++ behind).Perm (before ++ (k :: c') ++ behind) :=
          ((h.1 hkc).append_left before).append_right behind
      _ |>.Perm (k :: (before ++ c' ++ behind)) := by
          rw [List.append_assoc, List.append_assoc]
          exact List.perm_middle
  · intro hk
    have hkc : k ∉ c := by
      simp only [List.mem_append, not_or] at hk
      exact hk.1.2
    exact ((h.2 hkc).append_left before).append_right behind

/-- A key is replaced by one of the part before it, from which that one is taken out. -/
theorem Removed.left (h : Removed m c c') (hm : m ∈ c) :
    Removed k (before ++ c ++ k :: behind) (before ++ c' ++ m :: behind) := by
  have hperm : (before ++ c ++ k :: behind).Perm (k :: (before ++ c' ++ m :: behind)) := by
    calc (before ++ c ++ k :: behind).Perm (k :: (before ++ c ++ behind)) := List.perm_middle
      _ |>.Perm (k :: (before ++ (m :: c') ++ behind)) :=
          (((h.1 hm).append_left before).append_right behind).cons k
      _ |>.Perm (k :: (m :: (before ++ c' ++ behind))) := by
          rw [List.append_assoc, List.append_assoc]
          exact List.perm_middle.cons k
      _ |>.Perm (k :: (before ++ c' ++ m :: behind)) := List.perm_middle.symm.cons k
  exact ⟨fun _ => hperm, fun hk => absurd (by simp) hk⟩

/-- A key is replaced by one of the part behind it, from which that one is taken out. -/
theorem Removed.right (h : Removed m c c') (hm : m ∈ c) :
    Removed k (before ++ k :: (c ++ behind)) (before ++ m :: (c' ++ behind)) := by
  have hperm : (before ++ k :: (c ++ behind)).Perm (k :: (before ++ m :: (c' ++ behind))) := by
    calc (before ++ k :: (c ++ behind)).Perm (k :: (before ++ (c ++ behind))) := List.perm_middle
      _ |>.Perm (k :: (before ++ m :: (c' ++ behind))) :=
          ((((h.1 hm).append_right behind)).append_left before).cons k
  exact ⟨fun _ => hperm, fun hk => absurd (by simp) hk⟩

/-! ## Order -/

variable [LinearOrder α]

/-- A sorted sequence in which a part loses elements is sorted if the part still is. -/
theorem pairwise_part_iff (hsorted : (before ++ c ++ behind).Pairwise (· ≤ ·))
    (hmem : ∀ x ∈ c', x ∈ c) :
    (before ++ c' ++ behind).Pairwise (· ≤ ·) ↔ c'.Pairwise (· ≤ ·) := by
  rw [List.pairwise_append, List.pairwise_append] at hsorted ⊢
  obtain ⟨⟨hfirst, -, hcross⟩, hlast, hall⟩ := hsorted
  constructor
  · exact fun h => h.1.2.1
  · intro h
    refine ⟨⟨hfirst, h, fun x hx y hy => hcross x hx y (hmem y hy)⟩, hlast, ?_⟩
    intro x hx y hy
    apply hall x _ y hy
    obtain hx | hx := List.mem_append.mp hx
    · exact List.mem_append_left _ hx
    · exact List.mem_append_right _ (hmem x hx)

/-- The sequence is sorted after that if the key that was taken was the largest of the part. -/
theorem pairwise_left_iff (hsorted : (before ++ c ++ k :: behind).Pairwise (· ≤ ·))
    (h : Removed m c c') (hm : m ∈ c) :
    (before ++ c' ++ m :: behind).Pairwise (· ≤ ·) ↔ (∀ x ∈ c, x ≤ m) ∧ c'.Pairwise (· ≤ ·) := by
  have hperm := h.1 hm
  rw [List.pairwise_append, List.pairwise_append, List.pairwise_cons] at hsorted ⊢
  obtain ⟨⟨hfirst, -, hcross⟩, ⟨hk, hlast⟩, hall⟩ := hsorted
  constructor
  · rintro ⟨⟨-, hc', -⟩, -, hle⟩
    refine ⟨?_, hc'⟩
    intro x hx
    obtain rfl | hx := List.mem_cons.mp (hperm.mem_iff.mp hx)
    · exact le_rfl
    · exact hle x (List.mem_append_right _ hx) m List.mem_cons_self
  · rintro ⟨hmax, hc'⟩
    have hmk : m ≤ k := hall m (List.mem_append_right _ hm) k List.mem_cons_self
    refine ⟨⟨hfirst, hc', fun x hx y hy => hcross x hx y (h.mem hy)⟩,
      ⟨fun y hy => le_trans hmk (hk y hy), hlast⟩, ?_⟩
    intro x hx y hy
    have hxm : x ≤ m := by
      obtain hx | hx := List.mem_append.mp hx
      · exact hcross x hx m hm
      · exact hmax x (h.mem hx)
    obtain rfl | hy := List.mem_cons.mp hy
    · exact hxm
    · exact le_trans hxm (le_trans hmk (hk y hy))

/-- The sequence is sorted after that if the key that was taken was the smallest of the part. -/
theorem pairwise_right_iff (hsorted : (before ++ k :: (c ++ behind)).Pairwise (· ≤ ·))
    (h : Removed m c c') (hm : m ∈ c) :
    (before ++ m :: (c' ++ behind)).Pairwise (· ≤ ·) ↔
      (∀ x ∈ c, m ≤ x) ∧ c'.Pairwise (· ≤ ·) := by
  have hperm := h.1 hm
  rw [List.pairwise_append, List.pairwise_cons, List.pairwise_append] at hsorted ⊢
  obtain ⟨hfirst, ⟨hk, -, hlast, hcross⟩, hall⟩ := hsorted
  constructor
  · rintro ⟨-, ⟨hle, hc', -⟩, -⟩
    refine ⟨?_, hc'⟩
    intro x hx
    obtain rfl | hx := List.mem_cons.mp (hperm.mem_iff.mp hx)
    · exact le_rfl
    · exact hle x (List.mem_append_left _ hx)
  · rintro ⟨hmin, hc'⟩
    have hkm : k ≤ m := hk m (List.mem_append_left _ hm)
    refine ⟨hfirst, ⟨?_, hc', hlast, fun x hx y hy => hcross x (h.mem hx) y hy⟩, ?_⟩
    · intro x hx
      obtain hx | hx := List.mem_append.mp hx
      · exact hmin x (h.mem hx)
      · exact hcross m hm x hx
    · intro x hx y hy
      have hxk : x ≤ k := hall x hx k List.mem_cons_self
      obtain rfl | hy := List.mem_cons.mp hy
      · exact le_trans hxk hkm
      · obtain hy | hy := List.mem_append.mp hy
        · exact hall x hx y (List.mem_cons_of_mem k (List.mem_append_left _ (h.mem hy)))
        · exact hall x hx y (List.mem_cons_of_mem k (List.mem_append_right _ hy))

end CServer.Interleave
