import Mathlib.Data.List.Basic
import Mathlib.Data.Nat.ModEq

/-!
# Cells in a row of blocks

A row of blocks of `n` cells each numbers all its cells: cell `i` is at place `i % n` of block
`i / n`. Blocks come at the end and go there again, and those of the front that are given up keep
their numbers.
-/
namespace CServer.Blocks

variable {ι : Type*} {n i j k : ℕ} {blocks more : List ι} {b : ι} {p : ι × ℕ}

/-- Where cell `i` is. -/
def place (n : ℕ) (blocks : List ι) (i : ℕ) : Option (ι × ℕ) :=
  (blocks[i / n]?).map fun b => (b, i % n)

theorem place_eq_some : place n blocks i = some p ↔ blocks[i / n]? = some p.1 ∧ i % n = p.2 := by
  rw [place, Option.map_eq_some_iff]
  constructor
  · rintro ⟨b, hb, rfl⟩
    exact ⟨hb, rfl⟩
  · rintro ⟨hb, hmod⟩
    exact ⟨p.1, hb, by rw [hmod]⟩

theorem place_append (h : place n blocks i = some p) : place n (blocks ++ more) i = some p := by
  rw [place_eq_some] at h ⊢
  obtain ⟨hlt, -⟩ := List.getElem?_eq_some_iff.mp h.1
  rw [List.getElem?_append_left hlt]
  exact h

/-- A cell is in the blocks that are left when the last one goes. -/
theorem place_of_append (hi : i / n < blocks.length) :
    place n (blocks ++ more) i = place n blocks i := by
  rw [place, place, List.getElem?_append_left hi]

theorem div_lt_length (h : place n blocks i = some p) : i / n < blocks.length := by
  obtain ⟨hlt, -⟩ := List.getElem?_eq_some_iff.mp (place_eq_some.mp h).1
  exact hlt

theorem mem_drop_of_place (h : place n blocks i = some p) (hk : k ≤ i / n) :
    p.1 ∈ blocks.drop k := by
  obtain ⟨hlt, hget⟩ := List.getElem?_eq_some_iff.mp (place_eq_some.mp h).1
  rw [List.mem_iff_getElem?]
  refine ⟨i / n - k, ?_⟩
  rw [List.getElem?_drop, Nat.add_sub_cancel' hk]
  exact (place_eq_some.mp h).1

/-- Blocks that are all different have a number each. -/
theorem number_unique (hnodup : (blocks.drop k).Nodup) (hi : k ≤ i) (hj : k ≤ j)
    (h : blocks[i]? = some b) (h' : blocks[j]? = some b) : i = j := by
  have hat : ∀ m, k ≤ m → blocks[m]? = some b → (blocks.drop k)[m - k]? = some b := by
    intro m hm hget
    rw [List.getElem?_drop, Nat.add_sub_cancel' hm, hget]
  have hlt : i - k < (blocks.drop k).length := by
    obtain ⟨hlt, -⟩ := List.getElem?_eq_some_iff.mp (hat i hi h)
    exact hlt
  have heq := (List.getElem?_inj hlt hnodup).mp ((hat i hi h).trans (hat j hj h').symm)
  omega

/-- Two cells that are kept are not at the same place. -/
theorem place_unique (hnodup : (blocks.drop k).Nodup) (hi : k ≤ i / n) (hj : k ≤ j / n)
    (h : place n blocks i = some p) (h' : place n blocks j = some p) : i = j := by
  rw [place_eq_some] at h h'
  have hdiv := number_unique hnodup hi hj h.1 h'.1
  rw [← Nat.div_add_mod i n, ← Nat.div_add_mod j n, hdiv, h.2, h'.2]

theorem div_succ_of_inner (h : i % n + 1 < n) : (i + 1) / n = i / n := by
  have hi := Nat.div_add_mod i n
  have hdecomp : i + 1 = n * (i / n) + (i % n + 1) := by omega
  rw [hdecomp, Nat.mul_add_div (by omega), Nat.div_eq_of_lt h, Nat.add_zero]

/-- The cell behind another one, in the same block. -/
theorem place_succ (h : place n blocks i = some p) (hn : p.2 + 1 < n) :
    place n blocks (i + 1) = some (p.1, p.2 + 1) := by
  rw [place_eq_some] at h ⊢
  rw [← h.2] at hn ⊢
  have hmod : (i + 1) % n = i % n + 1 := by
    rw [Nat.add_mod, Nat.mod_eq_of_lt (show 1 < n by omega)]
    exact Nat.mod_eq_of_lt hn
  rw [div_succ_of_inner hn, hmod]
  exact ⟨h.1, rfl⟩

theorem place_of_decomp {q m : ℕ} (hm : m < n) (hb : blocks[q]? = some b) :
    place n blocks (n * q + m) = some (b, m) := by
  have hn : 0 < n := by omega
  rw [place_eq_some, Nat.mul_add_div hn, Nat.div_eq_of_lt hm, Nat.add_zero, Nat.mul_add_mod,
    Nat.mod_eq_of_lt hm]
  exact ⟨hb, rfl⟩

/-- The cell before another one, in the same block. -/
theorem place_pred {m : ℕ} (hn : 0 < n) (h : place n blocks (i + 1) = some (b, m + 1)) :
    place n blocks i = some (b, m) := by
  rw [place_eq_some] at h
  have hlt := Nat.mod_lt (i + 1) hn
  have hi := Nat.div_add_mod (i + 1) n
  rw [h.2] at hlt hi
  have hdecomp : i = n * ((i + 1) / n) + m := by omega
  rw [hdecomp]
  exact place_of_decomp (by omega) h.1

end CServer.Blocks
