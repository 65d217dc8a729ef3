import CServer.Foundation.Rows
import Mathlib.Data.List.Perm.Basic

/-!
# A table and a partial copy of it

A column of a keyed table is read as a partial function of the key. A copy is
coherent when each of its entries is that of the table; entries may be missing.
A request usually changes table and copy at one key, and then coherence is a
question about that key only. A coherent copy that misses nothing is complete.
-/
namespace CServer.Mirror

open Rows

variable {α β κ : Type*}

section Column

variable [DecidableEq κ]

/-- The value of the first row with a key. -/
def column (k : α → κ) (v : α → β) (rows : List α) (key : κ) : Option β :=
  (rows.find? (fun r => k r = key)).map v

variable {k : α → κ} {v : α → β} {rows : List α} {key : κ}

@[simp] theorem column_nil : column k v ([] : List α) key = none := rfl

theorem column_cons (r : α) :
    column k v (r :: rows) key = if k r = key then some (v r) else column k v rows key := by
  by_cases h : k r = key <;> simp [column, h]

theorem column_eq_none : column k v rows key = none ↔ ∀ r ∈ rows, k r ≠ key := by
  simp [column]

/-- With distinct keys, the column is the graph of the rows. -/
theorem column_eq_some (hk : (rows.map k).Nodup) {b : β} :
    column k v rows key = some b ↔ ∃ r ∈ rows, k r = key ∧ v r = b := by
  induction rows with
  | nil => simp
  | cons r rows ih =>
    rw [List.map_cons, List.nodup_cons] at hk
    rw [column_cons]
    by_cases h : k r = key
    · have hnone : ∀ r' ∈ rows, k r' ≠ key := by
        intro r' hr' he
        exact hk.1 (List.mem_map.mpr ⟨r', hr', he.trans h.symm⟩)
      rw [if_pos h]
      constructor
      · intro hb
        exact ⟨r, List.mem_cons_self, h, Option.some.inj hb⟩
      · rintro ⟨r', hr', hk', rfl⟩
        rcases List.mem_cons.mp hr' with rfl | hr'
        · rfl
        · exact absurd hk' (hnone r' hr')
    · rw [if_neg h, ih hk.2]
      simp [h]

theorem column_of_mem (hk : (rows.map k).Nodup) {r : α} (hr : r ∈ rows) :
    column k v rows (k r) = some (v r) := (column_eq_some hk).mpr ⟨r, hr, rfl, rfl⟩

theorem column_append_one (r : α) :
    column k v (rows ++ [r]) key =
      (column k v rows key).or (if k r = key then some (v r) else none) := by
  induction rows with
  | nil => simp [column_cons]
  | cons r' rows ih =>
    rw [List.cons_append, column_cons, column_cons, ih]
    split_ifs <;> simp

/-- Deleting rows changes the column at their keys only. -/
theorem column_deleteWhere {p : α → Bool} (h : ∀ r ∈ rows, p r = true → k r ≠ key) :
    column k v (deleteWhere p rows) key = column k v rows key := by
  induction rows with
  | nil => rfl
  | cons r rows ih =>
    have htail := ih (fun r' hr' => h r' (List.mem_cons_of_mem r hr'))
    rw [deleteWhere] at htail ⊢
    by_cases hp : p r = true
    · rw [List.filter_cons_of_neg (by simp [hp]), column_cons,
        if_neg (h r List.mem_cons_self hp), htail]
    · rw [List.filter_cons_of_pos (by simp [hp]), column_cons, column_cons, htail]

/-- Updating rows in place changes the column at their keys only. -/
theorem column_updateWhere {p : α → Bool} {f : α → α} (hf : ∀ r, k (f r) = k r)
    (h : ∀ r ∈ rows, p r = true → k r ≠ key ∨ v (f r) = v r) :
    column k v (updateWhere p f rows) key = column k v rows key := by
  induction rows with
  | nil => rfl
  | cons r rows ih =>
    have htail := ih (fun r' hr' => h r' (List.mem_cons_of_mem r hr'))
    rw [updateWhere] at htail ⊢
    rw [List.map_cons, column_cons, column_cons, htail]
    by_cases hp : p r = true
    · rw [if_pos hp, hf]
      rcases h r List.mem_cons_self hp with hne | hv
      · rw [if_neg hne, if_neg hne]
      · rw [hv]
    · rw [if_neg hp]

omit [DecidableEq κ] in
/-- Keys of rows are the keys of a list of rows. -/
theorem exists_rows_of_keys {keys : List κ} (h : ∀ key ∈ keys, ∃ r ∈ rows, k r = key) :
    ∃ list : List α, list.map k = keys ∧ ∀ r ∈ list, r ∈ rows := by
  induction keys with
  | nil => exact ⟨[], rfl, by simp⟩
  | cons key keys ih =>
    obtain ⟨list, hlist, hmem⟩ := ih (fun key' hkey' => h key' (List.mem_cons_of_mem key hkey'))
    obtain ⟨r, hr, hk⟩ := h key List.mem_cons_self
    refine ⟨r :: list, by rw [List.map_cons, hlist, hk], fun r' hr' => ?_⟩
    rcases List.mem_cons.mp hr' with rfl | hr'
    · exact hr
    · exact hmem r' hr'

end Column

/-- Every entry of the copy is the table's. -/
def Coherent (copy table : κ → Option β) : Prop := ∀ key b, copy key = some b → table key = some b

namespace Coherent

variable {copy copy' table table' : κ → Option β}

theorem of_none (h : ∀ key, copy key = none) : Coherent copy table := by
  intro key b hb
  rw [h key] at hb
  cases hb

/-- Table and copy change at one key: coherence there is enough. -/
theorem at_key (h : Coherent copy table) (key : κ)
    (hcopy : ∀ key', key' ≠ key → copy' key' = copy key')
    (htable : ∀ key', key' ≠ key → table' key' = table key')
    (hkey : ∀ b, copy' key = some b → table' key = some b) : Coherent copy' table' := by
  intro key' b hb
  by_cases he : key' = key
  · subst he
    exact hkey b hb
  · rw [htable key' he]
    exact h key' b (hcopy key' he ▸ hb)

/-- A coherent copy with an entry for every row is complete. -/
theorem complete [DecidableEq κ] {k : α → κ} {v : α → β} {rows : List α}
    (h : Coherent copy (column k v rows)) (hall : ∀ r ∈ rows, ∃ b, copy (k r) = some b)
    (key : κ) : copy key = column k v rows key := by
  cases hc : copy key with
  | some b => exact (h key b hc).symm
  | none =>
    symm
    rw [column_eq_none]
    rintro r hr rfl
    obtain ⟨b, hb⟩ := hall r hr
    rw [hc] at hb
    cases hb

/-- So is one with as many entries as the table has rows. -/
theorem complete_of_length [DecidableEq κ] {k : α → κ} {v : α → β} {rows : List α}
    (h : Coherent copy (column k v rows)) {members : List κ} (hm : members.Nodup)
    (hmem : ∀ key ∈ members, ∃ b, copy key = some b) (hlen : rows.length ≤ members.length)
    (key : κ) : copy key = column k v rows key := by
  have hsub : members ⊆ rows.map k := by
    intro key' hkey'
    obtain ⟨b, hb⟩ := hmem key' hkey'
    by_contra hnot
    have hnone : column k v rows key' = none :=
      column_eq_none.mpr (fun r hr he => hnot (List.mem_map.mpr ⟨r, hr, he⟩))
    have hsome := h key' b hb
    rw [hnone] at hsome
    cases hsome
  have hperm : members.Perm (rows.map k) :=
    (List.subperm_of_subset hm hsub).perm_of_length_le (by rw [List.length_map]; exact hlen)
  refine h.complete (fun r hr => hmem (k r) ?_) key
  exact hperm.mem_iff.mpr (List.mem_map_of_mem hr)

end Coherent

end CServer.Mirror
