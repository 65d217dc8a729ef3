import Mathlib.Data.List.Basic
import Mathlib.Tactic.Cases

/-!
# Overwriting a part of a list

`put` replaces as many entries as the new part has. `overwrite` writes at any position: what lies
between the end of the list and the position is filled.
-/
namespace CServer.Extents

variable {α : Type*}

/-- The entries from position `k` on are replaced by the new ones. -/
def put (l : List α) (k : ℕ) (new : List α) : List α :=
  l.take k ++ (new ++ l.drop (k + new.length))

theorem length_put {l new : List α} {k : ℕ} (h : k + new.length ≤ l.length) :
    (put l k new).length = l.length := by
  simp only [put, List.length_append, List.length_take, List.length_drop]
  omega

/-- The new entries reach to the end. -/
theorem put_of_length_le {l new : List α} {k : ℕ} (h : l.length ≤ k + new.length) :
    put l k new = l.take k ++ new := by
  rw [put, List.drop_eq_nil_of_le h, List.append_nil]

/-- The new entries replace a middle part. -/
theorem put_append {front old back new : List α} (h : old.length = new.length) :
    put (front ++ (old ++ back)) front.length new = front ++ (new ++ back) := by
  rw [put, List.take_left, ← List.drop_drop, List.drop_left, ← h, List.drop_left]

/-- The entries from position `k` on are replaced, with the gap before it filled. -/
def overwrite (fill : α) (l : List α) (k : ℕ) (new : List α) : List α :=
  put (l.rightpad k fill) k new

variable {fill : α} {l new : List α} {k : ℕ}

theorem length_rightpad_eq : (l.rightpad k fill).length = max k l.length :=
  List.length_rightpad

theorem overwrite_of_le (h : k ≤ l.length) : overwrite fill l k new = put l k new := by
  rw [overwrite, List.rightpad, Nat.sub_eq_zero_of_le h, List.replicate_zero, List.append_nil]

theorem length_overwrite : (overwrite fill l k new).length = max l.length (k + new.length) := by
  simp only [overwrite, put, List.length_append, List.length_take, List.length_drop,
    length_rightpad_eq]
  omega

/-- Growing the list to the end of the new part with fill, and writing into it. -/
theorem put_fill_eq_overwrite {n : ℕ} (h : l.length + n = k + new.length) :
    put (l ++ List.replicate n fill) k new = overwrite fill l k new := by
  have hlength : (l ++ List.replicate n fill).length = k + new.length := by
    rw [List.length_append, List.length_replicate, h]
  have hpadded : (l.rightpad k fill).length ≤ k + new.length := by
    rw [length_rightpad_eq]
    omega
  rw [overwrite, put_of_length_le (Nat.le_of_eq hlength), put_of_length_le hpadded, List.rightpad,
    List.take_append, List.take_append, List.take_replicate, List.take_replicate]
  congr 3
  omega

/-- In front of the new part stands what stood there, or fill. -/
theorem getElem?_overwrite_before {i : ℕ} (h : i < k) :
    (overwrite fill l k new)[i]? = some (l.getD i fill) := by
  have htake : i < ((l.rightpad k fill).take k).length := by
    rw [List.length_take, length_rightpad_eq]
    omega
  rw [overwrite, put, List.getElem?_append_left htake, List.getElem?_take_of_lt h, List.rightpad]
  by_cases hi : i < l.length
  · rw [List.getElem?_append_left hi, List.getD_eq_getElem?_getD, List.getElem?_eq_getElem hi]
    rfl
  · rw [List.getElem?_append_right (by omega), List.getElem?_replicate, if_pos (by omega),
      List.getD_eq_getElem?_getD, List.getElem?_eq_none (by omega), Option.getD_none]

theorem getElem?_overwrite_new {i : ℕ} (h : i < new.length) :
    (overwrite fill l k new)[k + i]? = new[i]? := by
  have htake : ((l.rightpad k fill).take k).length = k := by
    rw [List.length_take, length_rightpad_eq]
    omega
  rw [overwrite, put, List.getElem?_append_right (by omega), htake, Nat.add_sub_cancel_left,
    List.getElem?_append_left h]

/-- Behind the new part nothing changes. -/
theorem getElem?_overwrite_behind (i : ℕ) :
    (overwrite fill l k new)[k + new.length + i]? = l[k + new.length + i]? := by
  have htake : ((l.rightpad k fill).take k).length = k := by
    rw [List.length_take, length_rightpad_eq]
    omega
  rw [overwrite, put, List.getElem?_append_right (by omega), htake,
    List.getElem?_append_right (by omega), List.getElem?_drop, List.rightpad]
  have hplace : k + new.length + (k + new.length + i - k - new.length) = k + new.length + i := by
    omega
  rw [hplace]
  by_cases hi : k + new.length + i < l.length
  · rw [List.getElem?_append_left hi]
  · rw [List.getElem?_eq_none (by simp; omega), List.getElem?_eq_none (by omega)]

end CServer.Extents
