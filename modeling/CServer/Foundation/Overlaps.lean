import Mathlib.Data.List.Infix
import Mathlib.Data.List.TakeDrop
import Mathlib.Order.Bounds.Basic
import Mathlib.Data.Nat.Find

/-!
# Overlaps

A text overlaps a pattern by `k` elements when its last `k` elements are the first `k` of the
pattern. The longest overlap of a text that grows by one element is found among the overlaps of the
text before, and these are the borders of the longest one: the borders of the longest border, and so
on. The search for a pattern and the table of its borders follow from this alone.
-/
namespace CServer

variable {α : Type}

/-- The first `k` elements of the pattern are the last ones of the text. -/
def Overlaps (pattern text : List α) (k : ℕ) : Prop := k ≤ pattern.length ∧ pattern.take k <:+ text

/-- A prefix of the first `n` elements that is shorter than they are, and a suffix of them. -/
def Border (pattern : List α) (n k : ℕ) : Prop := k < n ∧ pattern.take k <:+ pattern.take n

/-- The pattern stands in the text with its first element at `s`. -/
def OccursAt (pattern text : List α) (s : ℕ) : Prop := pattern <+: text.drop s

/-- The longest overlap. -/
def LongestOverlap (pattern text : List α) (k : ℕ) : Prop :=
  IsGreatest {k | Overlaps pattern text k} k

/-- The place where the pattern stands first. -/
def FirstOccurrence (pattern text : List α) (s : ℕ) : Prop := IsLeast {s | OccursAt pattern text s} s

/-- No occurrence ends in the first `n` elements. -/
def EndsBehind (pattern text : List α) (n : ℕ) : Prop :=
  ∀ s, OccursAt pattern text s → n < s + pattern.length

/-- The longest border. -/
def LongestBorder (pattern : List α) (n k : ℕ) : Prop := IsGreatest {k | Border pattern n k} k

variable {pattern text : List α} {c : α} {i j k n s : ℕ}

/-! ## Overlaps and borders -/

theorem overlaps_zero : Overlaps pattern text 0 := ⟨Nat.zero_le _, List.nil_suffix⟩

theorem Overlaps.le_length (h : Overlaps pattern text k) : k ≤ text.length := by
  have hle := h.2.length_le
  rw [List.length_take_of_le h.1] at hle
  exact hle

theorem concat_suffix_concat {l l' : List α} {x y : α} :
    l ++ [x] <:+ l' ++ [y] ↔ l <:+ l' ∧ x = y := by
  constructor
  · intro ⟨front, h⟩
    rw [← List.append_assoc] at h
    obtain ⟨h, hxy⟩ := List.append_inj' h rfl
    exact ⟨⟨front, h⟩, List.singleton_inj.1 hxy⟩
  · rintro ⟨⟨front, rfl⟩, rfl⟩
    exact ⟨front, (List.append_assoc front l [x]).symm⟩

/-- An overlap of a text that grows is one of the text before. -/
theorem overlaps_succ :
    Overlaps pattern (text ++ [c]) (k + 1) ↔ Overlaps pattern text k ∧ pattern[k]? = some c := by
  constructor
  · intro ⟨hk, hsuffix⟩
    rw [List.take_add_one, List.getElem?_eq_getElem hk, Option.toList_some,
      concat_suffix_concat] at hsuffix
    exact ⟨⟨Nat.le_of_succ_le hk, hsuffix.1⟩, by rw [List.getElem?_eq_getElem hk, hsuffix.2]⟩
  · intro ⟨⟨_, hsuffix⟩, hc⟩
    have hk : k < pattern.length := (List.getElem?_eq_some_iff.1 hc).1
    refine ⟨hk, ?_⟩
    rw [List.take_add_one, hc, Option.toList_some, concat_suffix_concat]
    exact ⟨hsuffix, rfl⟩

/-- The shorter of two overlaps is an overlap of the longer one. -/
theorem Overlaps.lower (hk : Overlaps pattern text k) (hj : Overlaps pattern text j) (hkj : k ≤ j) :
    Overlaps pattern (pattern.take j) k := by
  refine ⟨hk.1, List.suffix_of_suffix_length_le hk.2 hj.2 ?_⟩
  rw [List.length_take_of_le hk.1, List.length_take_of_le hj.1]
  exact hkj

theorem Overlaps.border (hk : Overlaps pattern text k) (hj : Overlaps pattern text j) (hkj : k < j) :
    Border pattern j k := ⟨hkj, (hk.lower hj hkj.le).2⟩

/-- A border of an overlap is an overlap. -/
theorem Border.overlaps (hk : Border pattern j k) (hj : Overlaps pattern text j) :
    Overlaps pattern text k := ⟨hk.1.le.trans hj.1, hk.2.trans hj.2⟩

/-- The borders of a prefix are the overlaps of what stands in it behind the first element. -/
theorem border_iff_overlaps (hi : i < pattern.length) :
    Border pattern (i + 1) k ↔ Overlaps pattern (pattern.tail.take i) k := by
  obtain _ | ⟨first, rest⟩ := pattern
  · exact absurd hi (Nat.not_lt_zero i)
  have hlength : (rest.take i).length = i := List.length_take_of_le (Nat.le_of_lt_succ hi)
  constructor
  · intro ⟨hk, hsuffix⟩
    refine ⟨by omega, ?_⟩
    rw [List.take_succ_cons, List.suffix_cons_iff] at hsuffix
    obtain heq | hsuffix := hsuffix
    · have hlengths := congrArg List.length heq
      rw [List.length_take, List.length_cons, List.length_cons, hlength] at hlengths
      omega
    · exact hsuffix
  · intro h
    have hk := h.le_length
    rw [List.tail_cons, hlength] at hk
    exact ⟨by omega, by rw [List.take_succ_cons]; exact h.2.trans (List.suffix_cons _ _)⟩

theorem longestBorder_iff (hi : i < pattern.length) :
    LongestBorder pattern (i + 1) k ↔ LongestOverlap pattern (pattern.tail.take i) k := by
  have hsets : {k | Border pattern (i + 1) k} = {k | Overlaps pattern (pattern.tail.take i) k} := by
    ext k
    exact border_iff_overlaps hi
  unfold LongestBorder LongestOverlap
  rw [hsets]

/-! ## A text that grows -/

/-- The overlaps that go on with the element are not longer than this one. -/
def Candidate (pattern text : List α) (c : α) (j : ℕ) : Prop :=
  Overlaps pattern text j ∧ ∀ k, Overlaps pattern text k → pattern[k]? = some c → k ≤ j

theorem LongestOverlap.candidate (h : LongestOverlap pattern text j) : Candidate pattern text c j :=
  ⟨h.1, fun _ hk _ => h.2 hk⟩

/-- A candidate that does not go on gives way to its longest border. -/
theorem Candidate.fall (h : Candidate pattern text c j) (hc : pattern[j]? ≠ some c)
    (hk : LongestBorder pattern j k) : Candidate pattern text c k := by
  refine ⟨hk.1.overlaps h.1, fun l hl hgoes => ?_⟩
  have hne : l ≠ j := by
    rintro rfl
    exact hc hgoes
  exact hk.2 (hl.border h.1 (lt_of_le_of_ne (h.2 l hl hgoes) hne))

/-- A candidate that goes on is the longest overlap but one. -/
theorem Candidate.grow (h : Candidate pattern text c j) (hc : pattern[j]? = some c) :
    LongestOverlap pattern (text ++ [c]) (j + 1) := by
  refine ⟨overlaps_succ.2 ⟨h.1, hc⟩, fun k hk => ?_⟩
  obtain _ | k := k
  · exact Nat.zero_le _
  · obtain ⟨hk, hgoes⟩ := overlaps_succ.1 hk
    exact Nat.succ_le_succ (h.2 k hk hgoes)

theorem Candidate.none (h : Candidate pattern text c 0) (hc : pattern[0]? ≠ some c) :
    LongestOverlap pattern (text ++ [c]) 0 := by
  refine ⟨overlaps_zero, fun k hk => ?_⟩
  obtain _ | k := k
  · exact le_refl 0
  · obtain ⟨hk, hgoes⟩ := overlaps_succ.1 hk
    have hzero : k = 0 := Nat.le_zero.1 (h.2 k hk hgoes)
    exact absurd (hzero ▸ hgoes) hc

theorem longestOverlap_nil : LongestOverlap pattern ([] : List α) 0 :=
  ⟨overlaps_zero, fun _ hk => hk.le_length⟩

/-! ## Occurrences -/

theorem OccursAt.le_length (h : OccursAt pattern text s) (hpattern : pattern ≠ []) :
    s + pattern.length ≤ text.length := by
  have hle := h.length_le
  have hpos := List.length_pos_iff.2 hpattern
  rw [List.length_drop] at hle
  omega

/-- The pattern stands where it ends. -/
theorem occursAt_iff (hs : s + pattern.length ≤ text.length) :
    OccursAt pattern text s ↔ Overlaps pattern (text.take (s + pattern.length)) pattern.length := by
  have hlength : (text.take (s + pattern.length)).length = s + pattern.length :=
    List.length_take_of_le hs
  unfold OccursAt Overlaps
  rw [List.take_length, List.suffix_iff_eq_drop, List.prefix_iff_eq_take, hlength, List.drop_take,
    Nat.add_sub_cancel, Nat.add_sub_cancel_left]
  exact (and_iff_right (le_refl _)).symm

theorem OccursAt.exists_first (h : OccursAt pattern text s) :
    ∃ s', FirstOccurrence pattern text s' := by
  classical
  have hex : ∃ s, OccursAt pattern text s := ⟨s, h⟩
  exact ⟨Nat.find hex, Nat.find_spec hex, fun _ hs => Nat.find_min' hex hs⟩

theorem endsBehind_zero (hpattern : pattern ≠ []) : EndsBehind pattern text 0 := by
  intro s _
  have hpos := List.length_pos_iff.2 hpattern
  omega

theorem EndsBehind.mono (h : EndsBehind pattern text n) (hi : i ≤ n) : EndsBehind pattern text i :=
  fun s hs => hi.trans_lt (h s hs)

/-- The pattern does not occur if no occurrence ends in the text. -/
theorem EndsBehind.absent (h : EndsBehind pattern text text.length) (hpattern : pattern ≠ []) :
    ¬OccursAt pattern text s := by
  intro hs
  have hlt := h s hs
  have hle := hs.le_length hpattern
  omega

/-- The first occurrence ends where the whole pattern overlaps for the first time. -/
theorem EndsBehind.found (h : EndsBehind pattern text i) (hi : i < text.length)
    (hfull : Overlaps pattern (text.take (i + 1)) pattern.length) :
    ∃ s, s + pattern.length = i + 1 ∧ FirstOccurrence pattern text s := by
  have hle := hfull.le_length
  rw [List.length_take_of_le (show i + 1 ≤ text.length from hi)] at hle
  obtain ⟨s, hs⟩ := Nat.exists_eq_add_of_le' hle
  rw [hs] at hfull
  refine ⟨s, hs.symm, (occursAt_iff (by omega)).2 hfull, fun s' hs' => ?_⟩
  have hlt := h s' hs'
  omega

/-- A longest overlap that is not the whole pattern: no occurrence ends here. -/
theorem EndsBehind.succ (h : EndsBehind pattern text i) (hi : i < text.length)
    (hj : LongestOverlap pattern (text.take (i + 1)) j) (hne : j ≠ pattern.length) :
    EndsBehind pattern text (i + 1) := by
  intro s hs
  have hlt := h s hs
  have hends : s + pattern.length ≠ i + 1 := by
    intro heq
    have hfull := (occursAt_iff (by omega)).1 hs
    rw [heq] at hfull
    exact hne (le_antisymm hj.1.1 (hj.2 hfull))
  omega

/-- An occurrence agrees with the pattern at each place. -/
theorem OccursAt.getElem? (h : OccursAt pattern text s) (hk : k < pattern.length) :
    text[s + k]? = pattern[k]? := by
  rw [← List.getElem?_drop]
  obtain ⟨rest, hrest⟩ := h
  rw [← hrest, List.getElem?_append_left hk]

/-- The parts of an occurrence are overlaps. -/
theorem OccursAt.overlaps (h : OccursAt pattern text s) (hk : k ≤ pattern.length) :
    Overlaps pattern (text.take (s + k)) k := by
  refine ⟨hk, ?_⟩
  obtain ⟨rest, hrest⟩ := h
  rw [List.take_add, ← hrest, List.take_append_of_le_length hk]
  exact List.suffix_append _ _

/-- An overlap goes on as long as the text agrees with the pattern. -/
theorem Overlaps.extend (h : Overlaps pattern (text.take i) j) (hpattern : j + n ≤ pattern.length)
    (hagree : ∀ k < n, text[i + k]? = pattern[j + k]?) :
    Overlaps pattern (text.take (i + n)) (j + n) := by
  induction n with
  | zero => exact h
  | succ n ih =>
    have hlt : j + n < pattern.length := by omega
    have hpattern' := List.getElem?_eq_getElem hlt
    have hget := (hagree n (Nat.lt_succ_self n)).trans hpattern'
    have htake : text.take (i + n + 1) = text.take (i + n) ++ [pattern[j + n]] := by
      rw [List.take_add_one, hget]
      rfl
    show Overlaps pattern (text.take (i + n + 1)) (j + n + 1)
    rw [htake, overlaps_succ]
    exact ⟨ih (by omega) fun k hk => hagree k (by omega), hpattern'⟩

end CServer
