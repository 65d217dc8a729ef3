import CServer.Foundation.Rows
import Mathlib.Data.List.Count
import Mathlib.Data.Int.Basic
import Mathlib.Algebra.Order.Ring.Int

/-!
# Counted references

A table of counted rows and a list of references. A row has a key `k` and stores
a count `n`; a reference points to the key `g`. The stored counts are exact when
every key with a reference has one row, no other key has one, and each row
stores the number of references to its key. The rules below are the operations
that keep them exact: the first reference to a key, another one, a release, and
the release of the last one.
-/
namespace CServer.References

open Rows

variable {α ρ κ ι : Type*} [DecidableEq κ] [DecidableEq ι]

/-- The number of references to a key. -/
def count (g : ρ → κ) (key : κ) (refs : List ρ) : ℕ := refs.countP (fun x => g x = key)

section Count

variable {g : ρ → κ} {key : κ} {refs : List ρ}

@[simp] theorem count_nil : count g key [] = 0 := rfl

theorem count_pos : 0 < count g key refs ↔ ∃ x ∈ refs, g x = key := by
  simp [count, List.countP_pos_iff]

theorem count_append_one (x : ρ) :
    count g key (refs ++ [x]) = count g key refs + if g x = key then 1 else 0 := by
  simp [count, List.countP_append, List.countP_cons]

/-- Deleting the reference with one identity lowers the count of its key by one. -/
theorem count_deleteWhere_of_mem (i : ρ → ι) (hi : (refs.map i).Nodup) {x : ρ} (hx : x ∈ refs) :
    count g key refs =
      count g key (deleteWhere (fun y => i y = i x) refs) + if g x = key then 1 else 0 := by
  have hsplit := List.countP_eq_countP_filter_add refs (fun y => decide (g y = key))
    (fun y => decide (i y = i x))
  rw [filter_key_of_mem i hi hx] at hsplit
  simp only [count, deleteWhere]
  rw [hsplit, Nat.add_comm]
  congr 1
  simp [List.countP_cons]

end Count

/-- Every key has a row exactly when it has references, one row, with their number. -/
structure Exact (k : α → κ) (n : α → ℤ) (g : ρ → κ) (rows : List α) (refs : List ρ) : Prop where
  key_nodup : (rows.map k).Nodup
  stored_iff : ∀ key, (∃ r ∈ rows, k r = key) ↔ 0 < count g key refs
  count_eq : ∀ r ∈ rows, n r = count g (k r) refs

namespace Exact

variable {k : α → κ} {n : α → ℤ} {g : ρ → κ} {rows : List α} {refs : List ρ}

theorem nil : Exact k n g [] [] := ⟨by simp, by simp, by simp⟩

/-- A new key, with its first reference. -/
theorem first (h : Exact k n g rows refs) {r : α} {x : ρ} (hnew : ∀ r' ∈ rows, k r' ≠ k r)
    (hx : g x = k r) (hn : n r = 1) : Exact k n g (rows ++ [r]) (refs ++ [x]) where
  key_nodup := nodup_map_append_one h.key_nodup hnew
  stored_iff key := by
    rw [count_append_one]
    by_cases hk : k r = key
    · rw [if_pos (hx.trans hk)]
      exact ⟨fun _ => Nat.succ_pos _, fun _ => ⟨r, by simp, hk⟩⟩
    · rw [if_neg (by rw [hx]; exact hk), Nat.add_zero, ← h.stored_iff key]
      simp [or_and_right, exists_or, hk]
  count_eq r' hr' := by
    rw [count_append_one]
    rcases List.mem_append.mp hr' with hr' | hr'
    · rw [if_neg (by rw [hx]; exact (hnew r' hr').symm), Nat.add_zero]
      exact h.count_eq r' hr'
    · obtain rfl := List.mem_singleton.mp hr'
      have hzero : count g (k r') refs = 0 := by
        by_contra hpos
        obtain ⟨r'', hr'', he⟩ := (h.stored_iff (k r')).mpr (Nat.pos_of_ne_zero hpos)
        exact hnew r'' hr'' he
      rw [if_pos hx, hn, hzero]
      rfl

/-- The rule for a changed count: the references to `key` become `refs'`, others
stay, and the row of `key` is set to their number, which is not 0. -/
theorem recount (h : Exact k n g rows refs) {key : κ} {refs' : List ρ} {f : α → α}
    (hkey : ∀ r, k (f r) = k r) (hstored : ∃ r ∈ rows, k r = key)
    (hpos : 0 < count g key refs')
    (hother : ∀ key', key' ≠ key → count g key' refs' = count g key' refs)
    (hn : ∀ r ∈ rows, k r = key → n (f r) = count g key refs') :
    Exact k n g (updateWhere (fun r => k r = key) f rows) refs' where
  key_nodup := by
    rw [map_updateWhere k (by exact fun r _ => hkey r)]
    exact h.key_nodup
  stored_iff key' := by
    have hmap : (updateWhere (fun r => decide (k r = key)) f rows).map k = rows.map k :=
      map_updateWhere k (by exact fun r _ => hkey r)
    have hex : (∃ r ∈ updateWhere (fun r => decide (k r = key)) f rows, k r = key') ↔
        ∃ r ∈ rows, k r = key' := by
      rw [← List.mem_map, ← List.mem_map, hmap]
    rw [hex]
    by_cases hk : key' = key
    · subst hk
      exact ⟨fun _ => hpos, fun _ => hstored⟩
    · rw [h.stored_iff, hother key' hk]
  count_eq r hr := by
    rcases mem_updateWhere.mp hr with ⟨r', hr', hp, rfl⟩ | ⟨hr', hp⟩
    · have hk : k r' = key := by simpa using hp
      rw [hkey, hn r' hr' hk, hk]
    · have hk : k r ≠ key := by simpa using hp
      rw [h.count_eq r hr', hother _ hk]

/-- Another reference to a key that has a row. -/
theorem another (h : Exact k n g rows refs) {x : ρ} {f : α → α} (hkey : ∀ r, k (f r) = k r)
    (hstored : ∃ r ∈ rows, k r = g x) (hn : ∀ r ∈ rows, k r = g x → n (f r) = n r + 1) :
    Exact k n g (updateWhere (fun r => k r = g x) f rows) (refs ++ [x]) := by
  refine h.recount hkey hstored (by simp [count_append_one]) (fun key' hk => ?_) (fun r hr hk => ?_)
  · rw [count_append_one, if_neg (fun he => hk he.symm), Nat.add_zero]
  · rw [hn r hr hk, h.count_eq r hr, hk, count_append_one, if_pos rfl]
    push_cast
    rfl

section Release

variable {key : κ} {refs' : List ρ}

/-- A reference goes and others to its key remain. -/
theorem release (h : Exact k n g rows refs) {f : α → α} (hkey : ∀ r, k (f r) = k r)
    (hrefs : ∀ key', count g key' refs = count g key' refs' + if key = key' then 1 else 0)
    (hmore : 0 < count g key refs') (hn : ∀ r ∈ rows, k r = key → n (f r) = n r - 1) :
    Exact k n g (updateWhere (fun r => k r = key) f rows) refs' := by
  have hself := hrefs key
  rw [if_pos rfl] at hself
  refine h.recount hkey ((h.stored_iff key).mpr (by omega)) hmore (fun key' hk => ?_)
    (fun r hr hk => ?_)
  · rw [hrefs key', if_neg (fun he => hk he.symm), Nat.add_zero]
  · rw [hn r hr hk, h.count_eq r hr, hk, hself]
    push_cast
    omega

/-- The last reference goes, and the row with it. -/
theorem release_last (h : Exact k n g rows refs)
    (hrefs : ∀ key', count g key' refs = count g key' refs' + if key = key' then 1 else 0)
    (hlast : count g key refs' = 0) : Exact k n g (deleteWhere (fun r => k r = key) rows) refs' where
  key_nodup := nodup_map_deleteWhere h.key_nodup
  stored_iff key' := by
    by_cases hk : key' = key
    · subst hk
      rw [hlast]
      simp [mem_deleteWhere]
    · have hsame : count g key' refs = count g key' refs' := by
        rw [hrefs key', if_neg (fun he => hk he.symm), Nat.add_zero]
      rw [← hsame, ← h.stored_iff key']
      constructor
      · rintro ⟨r, hr, he⟩
        exact ⟨r, (mem_deleteWhere.mp hr).1, he⟩
      · rintro ⟨r, hr, he⟩
        exact ⟨r, mem_deleteWhere.mpr ⟨hr, by simp [he, hk]⟩, he⟩
  count_eq r hr := by
    obtain ⟨hr, hp⟩ := mem_deleteWhere.mp hr
    have hk : k r ≠ key := by simpa using hp
    rw [h.count_eq r hr, hrefs (k r), if_neg (fun he => hk he.symm), Nat.add_zero]

end Release

end Exact

end CServer.References
