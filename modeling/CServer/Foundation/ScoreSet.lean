import Mathlib.Data.List.Sort
import Mathlib.Data.Prod.Lex
import Mathlib.Data.Int.Order.Basic
import Mathlib.Order.Basic

/-!
# Sorted sets: members with a score

A sorted set keeps its entries in the order of score and member, each member
once. The order is part of the value, so two sorted sets with the same scores
are equal, and a range by rank is a slice of the stored list.
-/
namespace CServer

/-- The entries in ascending order of score, then member; members are distinct. -/
structure ScoreSet (α : Type) [LinearOrder α] where
  entries : List (ℤ × α)
  ordered : entries.Pairwise (fun a b => toLex a ≤ toLex b)
  distinct : (entries.map Prod.snd).Nodup

namespace ScoreSet

variable {α : Type} [LinearOrder α]

/-- The order of the stored list. -/
abbrev below (a b : ℤ × α) : Prop := toLex a ≤ toLex b

def empty : ScoreSet α := ⟨[], .nil, .nil⟩

/-- The score of a member, if it is there. -/
def score (z : ScoreSet α) (m : α) : Option ℤ :=
  (z.entries.find? (fun e => e.2 = m)).map Prod.fst

instance : Membership α (ScoreSet α) := ⟨fun z m => m ∈ z.entries.map Prod.snd⟩

instance (z : ScoreSet α) (m : α) : Decidable (m ∈ z) :=
  inferInstanceAs (Decidable (m ∈ z.entries.map Prod.snd))

instance : DecidableEq (ScoreSet α) := fun z w =>
  decidable_of_iff (z.entries = w.entries) (by cases z; cases w; simp)

theorem mem_def (z : ScoreSet α) (m : α) : m ∈ z ↔ ∃ c, (c, m) ∈ z.entries := by
  change m ∈ z.entries.map Prod.snd ↔ _
  simp

theorem unique_score (z : ScoreSet α) {m : α} {c d : ℤ} (hc : (c, m) ∈ z.entries)
    (hd : (d, m) ∈ z.entries) : c = d := by
  have h := List.inj_on_of_nodup_map z.distinct hc hd rfl
  exact congrArg Prod.fst h

@[simp] theorem score_eq_some (z : ScoreSet α) (m : α) (c : ℤ) :
    z.score m = some c ↔ (c, m) ∈ z.entries := by
  constructor
  · intro h
    obtain ⟨e, he, rfl⟩ := Option.map_eq_some_iff.mp h
    have hm : e.2 = m := by simpa using List.find?_some he
    rw [← hm]
    exact List.mem_of_find?_eq_some he
  · intro h
    cases hf : z.entries.find? (fun e => e.2 = m) with
    | none =>
      have hn := List.find?_eq_none.mp hf (c, m) h
      simp at hn
    | some e =>
      have hm : e.2 = m := by simpa using List.find?_some hf
      have he : (e.1, m) ∈ z.entries := by
        rw [← hm]
        exact List.mem_of_find?_eq_some hf
      simp [score, hf, z.unique_score he h]

theorem score_eq_none (z : ScoreSet α) (m : α) : z.score m = none ↔ m ∉ z := by
  rw [mem_def, Option.eq_none_iff_forall_not_mem]
  simp

theorem mem_iff_score (z : ScoreSet α) (m : α) : m ∈ z ↔ ∃ c, z.score m = some c := by
  simp [mem_def]

/-- Two sorted sets with the same scores are the same list. -/
theorem ext_score {z w : ScoreSet α} (h : ∀ m, z.score m = w.score m) : z = w := by
  have hmem : ∀ e, e ∈ z.entries ↔ e ∈ w.entries := by
    rintro ⟨c, m⟩
    rw [← score_eq_some, ← score_eq_some, h m]
  have hp : z.entries.Perm w.entries :=
    (List.perm_ext_iff_of_nodup (List.Nodup.of_map _ z.distinct)
      (List.Nodup.of_map _ w.distinct)).mpr hmem
  have he : z.entries = w.entries :=
    hp.eq_of_pairwise (fun a b _ _ hab hba => toLex.injective (le_antisymm hab hba))
      z.ordered w.ordered
  cases z
  cases w
  simp_all

/-- ZREM: drop a member. -/
def erase (z : ScoreSet α) (m : α) : ScoreSet α where
  entries := z.entries.filter (fun e => e.2 ≠ m)
  ordered := z.ordered.filter _
  distinct := z.distinct.sublist (List.filter_sublist.map _)

/-- ZADD: give a member a score, replacing the one it had. -/
def add (z : ScoreSet α) (m : α) (c : ℤ) : ScoreSet α where
  entries := (z.erase m).entries.orderedInsert below (c, m)
  ordered := List.Pairwise.orderedInsert _ _ (z.erase m).ordered
  distinct := by
    have hp := (List.perm_orderedInsert below (c, m) (z.erase m).entries).map Prod.snd
    rw [hp.nodup_iff, List.map_cons, List.nodup_cons]
    refine ⟨?_, (z.erase m).distinct⟩
    simp [erase]

/-- ZCARD. -/
def card (z : ScoreSet α) : ℕ := z.entries.length

/-- The members by descending score, ties by descending member. -/
def ranking (z : ScoreSet α) : List α := z.entries.reverse.map Prod.snd

theorem mem_entries_erase (z : ScoreSet α) (m : α) (e : ℤ × α) :
    e ∈ (z.erase m).entries ↔ e ∈ z.entries ∧ e.2 ≠ m := by
  simp [erase]

theorem mem_entries_add (z : ScoreSet α) (m : α) (c : ℤ) (e : ℤ × α) :
    e ∈ (z.add m c).entries ↔ e = (c, m) ∨ (e ∈ z.entries ∧ e.2 ≠ m) := by
  simp only [add, List.mem_orderedInsert, mem_entries_erase]

@[simp] theorem score_empty (m : α) : (empty : ScoreSet α).score m = none := rfl

@[simp] theorem score_erase (z : ScoreSet α) (m k : α) :
    (z.erase m).score k = if k = m then none else z.score k := by
  ext c
  simp only [score_eq_some, mem_entries_erase]
  split_ifs with h
  · simp [h]
  · simp [h]

@[simp] theorem score_add (z : ScoreSet α) (m k : α) (c : ℤ) :
    (z.add m c).score k = if k = m then some c else z.score k := by
  ext d
  simp only [score_eq_some, mem_entries_add]
  split_ifs with h
  · subst h
    simp [eq_comm]
  · simp [h]

@[simp] theorem mem_erase (z : ScoreSet α) (m k : α) : k ∈ z.erase m ↔ k ≠ m ∧ k ∈ z := by
  simp only [mem_iff_score, score_erase]
  split_ifs with h <;> simp [h]

@[simp] theorem mem_add (z : ScoreSet α) (m k : α) (c : ℤ) :
    k ∈ z.add m c ↔ k = m ∨ k ∈ z := by
  simp only [mem_iff_score, score_add]
  split_ifs with h <;> simp [h]

@[simp] theorem not_mem_empty (m : α) : m ∉ (empty : ScoreSet α) := by
  simp [mem_def, empty]

theorem erase_of_not_mem (z : ScoreSet α) {m : α} (h : m ∉ z) : z.erase m = z := by
  apply ext_score
  intro k
  rw [score_erase]
  split_ifs with hk
  · rw [hk, (z.score_eq_none m).mpr h]
  · rfl

theorem add_of_score (z : ScoreSet α) {m : α} {c : ℤ} (h : z.score m = some c) :
    z.add m c = z := by
  apply ext_score
  intro k
  rw [score_add]
  split_ifs with hk
  · rw [hk, h]
  · rfl

theorem ranking_nodup (z : ScoreSet α) : z.ranking.Nodup := by
  rw [ranking, List.map_reverse, List.nodup_reverse]
  exact z.distinct

@[simp] theorem mem_ranking (z : ScoreSet α) (m : α) : m ∈ z.ranking ↔ m ∈ z := by
  rw [ranking, List.map_reverse, List.mem_reverse]
  rfl

@[simp] theorem ranking_length (z : ScoreSet α) : z.ranking.length = z.card := by
  simp [ranking, card]

/-- Along the ranking the scores do not increase. -/
theorem ranking_descending (z : ScoreSet α) :
    z.ranking.Pairwise (fun a b => ∀ c d, z.score a = some c → z.score b = some d → d ≤ c) := by
  rw [ranking, List.pairwise_map, List.pairwise_reverse]
  refine z.ordered.imp_of_mem ?_
  rintro ⟨c, a⟩ ⟨d, b⟩ ha hb hab c' d' hc hd
  rw [score_eq_some] at hc hd
  rw [z.unique_score hc hb, z.unique_score hd ha]
  exact (Prod.Lex.toLex_le_toLex.mp hab).elim le_of_lt (fun h => h.1.le)

end ScoreSet

end CServer
