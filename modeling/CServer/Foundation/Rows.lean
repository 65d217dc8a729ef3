import Mathlib.Data.List.Basic
import Mathlib.Data.List.Nodup
import Mathlib.Tactic.Cases

/-!
# Tables as lists of rows

A table without a unique key is a list of rows in insertion order. The three
statements that change one are an append, `updateWhere` and `deleteWhere`; the
lemmas say what they do to membership, to the rows of another condition, and to
a projection of every row.
-/
namespace CServer.Rows

variable {α β : Type*}

/-- UPDATE: apply `f` to the rows that meet the condition. -/
def updateWhere (p : α → Bool) (f : α → α) (rows : List α) : List α :=
  rows.map (fun r => if p r then f r else r)

/-- DELETE: drop the rows that meet the condition. -/
def deleteWhere (p : α → Bool) (rows : List α) : List α := rows.filter (fun r => !p r)

variable {p q : α → Bool} {f : α → α} {rows : List α}

theorem mem_updateWhere {x : α} :
    x ∈ updateWhere p f rows ↔ (∃ r ∈ rows, p r = true ∧ f r = x) ∨ (x ∈ rows ∧ p x = false) := by
  simp only [updateWhere, List.mem_map]
  constructor
  · rintro ⟨r, hr, hx⟩
    cases hp : p r
    · rw [if_neg (by simp [hp])] at hx
      subst hx
      exact .inr ⟨hr, hp⟩
    · rw [if_pos hp] at hx
      exact .inl ⟨r, hr, hp, hx⟩
  · rintro (⟨r, hr, hp, hx⟩ | ⟨hr, hp⟩)
    · exact ⟨r, hr, by rw [if_pos hp, hx]⟩
    · exact ⟨x, hr, by simp [hp]⟩

theorem mem_deleteWhere {x : α} : x ∈ deleteWhere p rows ↔ x ∈ rows ∧ p x = false := by
  simp [deleteWhere]

theorem updateWhere_of_none (h : ∀ r ∈ rows, p r = false) : updateWhere p f rows = rows := by
  rw [updateWhere, List.map_congr_left (g := id) (fun r hr => by simp [h r hr]), List.map_id]

theorem updateWhere_eq_self_iff : updateWhere p f rows = rows ↔ ∀ r ∈ rows, p r = true → f r = r := by
  induction rows with
  | nil => simp [updateWhere]
  | cons r rows ih =>
    rw [updateWhere] at ih ⊢
    rw [List.map_cons, List.cons.injEq, ih, List.forall_mem_cons]
    by_cases hp : p r = true <;> simp [hp]

theorem deleteWhere_of_none (h : ∀ r ∈ rows, p r = false) : deleteWhere p rows = rows := by
  rw [deleteWhere, List.filter_eq_self]
  intro r hr
  simp [h r hr]

/-- A projection that the update leaves alone has the same column as before. -/
theorem map_updateWhere (k : α → β) (h : ∀ r, p r = true → k (f r) = k r) :
    (updateWhere p f rows).map k = rows.map k := by
  rw [updateWhere, List.map_map]
  refine List.map_congr_left (fun r _ => ?_)
  by_cases hp : p r = true <;> simp [hp, h]

/-- The update acts on the rows of a condition that it does not affect. -/
theorem filter_updateWhere (h : ∀ r, p r = true → q (f r) = q r) :
    (updateWhere p f rows).filter q = updateWhere p f (rows.filter q) := by
  rw [updateWhere, updateWhere, List.filter_map]
  congr 1
  refine List.filter_congr (fun r _ => ?_)
  by_cases hp : p r = true <;> simp [hp, h]

/-- The rows of a condition that excludes the update's are left as they are. -/
theorem filter_updateWhere_of_disjoint (hf : ∀ r, p r = true → q (f r) = q r)
    (h : ∀ r, q r = true → p r = false) : (updateWhere p f rows).filter q = rows.filter q := by
  rw [filter_updateWhere hf]
  exact updateWhere_of_none (fun r hr => h r (List.mem_filter.mp hr).2)

theorem filter_append_one_of_pos {x : α} (h : p x = true) :
    (rows ++ [x]).filter p = rows.filter p ++ [x] := by
  rw [List.filter_append, List.filter_cons_of_pos h, List.filter_nil]

theorem filter_append_one_of_neg {x : α} (h : p x = false) :
    (rows ++ [x]).filter p = rows.filter p := by
  rw [List.filter_append, List.filter_cons_of_neg (by simp [h]), List.filter_nil, List.append_nil]

theorem length_updateWhere : (updateWhere p f rows).length = rows.length := by
  simp [updateWhere]

theorem filter_deleteWhere :
    (deleteWhere p rows).filter q = deleteWhere p (rows.filter q) := by
  simp only [deleteWhere, List.filter_filter, Bool.and_comm]

/-- The rows of a condition implied by the deleted one's negation all stay. -/
theorem filter_deleteWhere_of_disjoint (h : ∀ r ∈ rows, q r = true → p r = false) :
    (deleteWhere p rows).filter q = rows.filter q := by
  rw [filter_deleteWhere]
  refine deleteWhere_of_none (fun r hr => ?_)
  rw [List.mem_filter] at hr
  exact h r hr.1 hr.2

/-- Rows about to be deleted may as well not be updated. -/
theorem deleteWhere_updateWhere (h : ∀ r, p r = true → p (f r) = true) :
    deleteWhere p (updateWhere p f rows) = deleteWhere p rows := by
  induction rows with
  | nil => rfl
  | cons r rows ih =>
    simp only [deleteWhere, updateWhere, List.map_cons] at ih ⊢
    by_cases hp : p r = true
    · rw [if_pos hp, List.filter_cons_of_neg (by simp [h r hp]), ih,
        List.filter_cons_of_neg (by simp [hp])]
    · rw [if_neg hp, List.filter_cons_of_pos (by simp [hp]), ih,
        List.filter_cons_of_pos (by simp [hp])]

/-- Keys stay distinct when a row with a new key is appended. -/
theorem nodup_map_append_one {k : α → β} (hk : (rows.map k).Nodup) {x : α}
    (hx : ∀ r ∈ rows, k r ≠ k x) : ((rows ++ [x]).map k).Nodup := by
  rw [List.map_append, List.map_singleton, ← List.concat_eq_append]
  refine hk.concat ?_
  rw [List.mem_map]
  rintro ⟨r, hr, he⟩
  exact hx r hr he

theorem nodup_map_deleteWhere {k : α → β} (hk : (rows.map k).Nodup) :
    ((deleteWhere p rows).map k).Nodup :=
  hk.sublist (List.filter_sublist.map k)

/-- With distinct keys, at most one row has a given key. -/
theorem filter_key_of_mem [DecidableEq β] (k : α → β) (hk : (rows.map k).Nodup) {x : α}
    (hx : x ∈ rows) : rows.filter (fun r => k r = k x) = [x] := by
  induction rows with
  | nil => simp at hx
  | cons r rows ih =>
    rw [List.map_cons, List.nodup_cons] at hk
    rcases List.mem_cons.mp hx with rfl | hx
    · rw [List.filter_cons_of_pos (by simp)]
      congr 1
      refine List.filter_eq_nil_iff.mpr (fun y hy => ?_)
      have hne : k y ≠ k x := fun h => hk.1 (h ▸ List.mem_map_of_mem hy)
      simpa using hne
    · have hne : k r ≠ k x := fun h => hk.1 (h ▸ List.mem_map_of_mem hx)
      rw [List.filter_cons_of_neg (by simpa using hne), ih hk.2 hx]

/-- Deleting one row takes its value out of a column of distinct values. -/
theorem mem_map_deleteWhere_one {k : α → β} (hk : (rows.map k).Nodup) {r : α} (hr : r ∈ rows)
    (hp : ∀ r' ∈ rows, p r' = true ↔ r' = r) (x : β) :
    x ∈ (deleteWhere p rows).map k ↔ x ≠ k r ∧ x ∈ rows.map k := by
  rw [List.mem_map, List.mem_map]
  constructor
  · rintro ⟨r', hr', rfl⟩
    obtain ⟨hr', hno⟩ := mem_deleteWhere.mp hr'
    refine ⟨fun he => ?_, r', hr', rfl⟩
    have hsame : r' = r := List.inj_on_of_nodup_map hk hr' hr he
    rw [(hp r' hr').mpr hsame] at hno
    cases hno
  · rintro ⟨hne, r', hr', rfl⟩
    refine ⟨r', mem_deleteWhere.mpr ⟨hr', ?_⟩, rfl⟩
    rw [← Bool.not_eq_true, hp r' hr']
    exact fun he => hne (congrArg k he)

/-- Deleting the rows of one key, when it has exactly one, shortens by one every
list of rows that contains it. -/
theorem length_deleteWhere_key [DecidableEq β] (k : α → β) (hk : (rows.map k).Nodup) {x : α}
    (hx : x ∈ rows) : (deleteWhere (fun r => k r = k x) rows).length + 1 = rows.length := by
  have hsplit := List.length_eq_length_filter_add (l := rows) (fun r => decide (k r = k x))
  rw [filter_key_of_mem k hk hx] at hsplit
  simp only [deleteWhere]
  simpa [Nat.add_comm] using hsplit.symm

theorem length_deleteWhere_one {k : α → β} (hk : (rows.map k).Nodup) {r : α} (hr : r ∈ rows)
    (hp : ∀ r' ∈ rows, p r' = true ↔ r' = r) : (deleteWhere p rows).length + 1 = rows.length := by
  classical
  have hsame : deleteWhere p rows = deleteWhere (fun r' => k r' = k r) rows := by
    refine List.filter_congr (fun r' hr' => ?_)
    have hkey : (k r' = k r) ↔ p r' = true := by
      rw [hp r' hr']
      exact ⟨fun he => List.inj_on_of_nodup_map hk hr' hr he, congrArg k⟩
    by_cases hpr : p r' = true <;> simp [hkey, hpr]
  rw [hsame]
  exact length_deleteWhere_key k hk hr

/-- Tables with the same rows under every key have the same rows. -/
theorem perm_of_filter_key [DecidableEq α] [DecidableEq β] (k : α → β) {rows' : List α}
    (h : ∀ x, rows.filter (fun r => k r = x) = rows'.filter (fun r => k r = x)) :
    rows.Perm rows' := by
  rw [List.perm_iff_count]
  intro a
  have hcount : ∀ l : List α, l.count a = (l.filter (fun r => k r = k a)).count a :=
    fun l => (List.count_filter (by simp)).symm
  rw [hcount rows, hcount rows', h (k a)]

/-- A join with exactly one partner for each row has as many rows. -/
theorem length_flatMap_of_one {g : α → List β} (h : ∀ r ∈ rows, (g r).length = 1) :
    (rows.flatMap g).length = rows.length := by
  rw [List.length_flatMap, List.map_congr_left h]
  simp

/-- A join with a partner for each row, and two for one of them, has more. -/
theorem length_lt_flatMap {g : α → List β} (h : ∀ r ∈ rows, 1 ≤ (g r).length) {x : α}
    (hx : x ∈ rows) (htwo : 2 ≤ (g x).length) : rows.length < (rows.flatMap g).length := by
  have hle : ∀ l : List α, (∀ r ∈ l, 1 ≤ (g r).length) → l.length ≤ (l.flatMap g).length := by
    intro l hl
    induction l with
    | nil => simp
    | cons r l ih =>
      have htail := ih (fun r' hr' => hl r' (List.mem_cons_of_mem r hr'))
      have hhead := hl r List.mem_cons_self
      rw [List.flatMap_cons, List.length_append, List.length_cons]
      omega
  obtain ⟨before, after, rfl⟩ := List.append_of_mem hx
  have hbefore := hle before (fun r hr => h r (List.mem_append_left _ hr))
  have hafter := hle after (fun r hr => h r (by simp [hr]))
  rw [List.flatMap_append, List.flatMap_cons]
  simp only [List.length_append, List.length_cons]
  omega

end CServer.Rows
