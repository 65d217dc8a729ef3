import CServer.Foundation.Overlaps
import CServer.Kmp.Model

/-!
# The table of a pattern

What stands in the table for a place is the longest border of the pattern up to there. With the
entries below, the loop that falls back ends at the longest overlap that goes on with the character,
so the linear loops fill the table as the quadratic one does.
-/
namespace CServer.Kmp

variable {pattern : CString} {next table : List ℤ} {text : List Int8} {c : Int8} {i j k l : ℕ}

/-! ## Reads and writes -/

theorem charAt_natCast (s : CString) (hi : i ≤ s.chars.length) :
    charAt s (i : ℤ) = .ok (s.chars.getD i 0) := if_pos ⟨Int.natCast_nonneg i, Int.ofNat_le.2 hi⟩

/-- A character that is not the terminator is read where it stands. -/
theorem getD_eq_iff {chars : List Int8} (hc : c ≠ 0) : chars.getD k 0 = c ↔ chars[k]? = some c := by
  rw [List.getD_eq_getElem?_getD]
  cases hk : chars[k]? with
  | none => simp [hc.symm]
  | some d => simp

theorem charAt_of_getElem? (s : CString) (hi : s.chars[i]? = some c) : charAt s (i : ℤ) = .ok c := by
  rw [charAt_natCast s (List.getElem?_eq_some_iff.1 hi).1.le, List.getD_eq_getElem?_getD, hi]
  rfl

theorem lt_strlen (s : CString) : (i : ℤ) < strlen s ↔ i < s.chars.length := Int.ofNat_lt

theorem getElem?_ne_zero (s : CString) (hc : s.chars[k]? = some c) : c ≠ 0 := by
  rintro rfl
  exact s.visible (List.mem_of_getElem? hc)

theorem entry_natCast {value : ℤ} (h : next[i]? = some value) :
    entry next (i : ℤ) = .ok value := by
  have hi : i < next.length := (List.getElem?_eq_some_iff.1 h).1
  unfold entry
  rw [if_pos ⟨Int.natCast_nonneg i, Int.ofNat_lt.2 hi⟩, Int.toNat_natCast,
    List.getD_eq_getElem?_getD, h]
  rfl

theorem store_natCast (value : ℤ) (hi : i < next.length) :
    store next (i : ℤ) value = .ok (next.set i value) :=
  if_pos ⟨Int.natCast_nonneg i, Int.ofNat_lt.2 hi⟩

/-! ## Entries -/

/-- The entries below `i` are the longest borders. -/
def Filled (pattern : List Int8) (table : List ℤ) (i : ℕ) : Prop :=
  ∀ k < i, ∃ border : ℕ, table[k]? = some (border : ℤ) ∧ LongestBorder pattern (k + 1) border

/-- The table of a pattern in an array that may be longer. -/
structure Tabulates (pattern : List Int8) (next table : List ℤ) : Prop where
  filled : Filled pattern table pattern.length
  rest : ∀ k, pattern.length ≤ k → table[k]? = next[k]?

theorem Filled.mono (h : Filled pattern.chars table i) (hj : j ≤ i) :
    Filled pattern.chars table j := fun k hk => h k (by omega)

/-- One entry more. -/
theorem Filled.set (h : Filled pattern.chars table i) (hi : i < table.length)
    (hk : LongestBorder pattern.chars (i + 1) k) :
    Filled pattern.chars (table.set i (k : ℤ)) (i + 1) := by
  intro l hl
  by_cases heq : i = l
  · subst heq
    exact ⟨k, List.getElem?_set_self hi, hk⟩
  · rw [List.getElem?_set_ne heq]
    exact h l (by omega)

/-- The table is determined by the pattern and what stood behind it. -/
theorem Tabulates.unique {table' : List ℤ} (h : Tabulates pattern.chars next table)
    (h' : Tabulates pattern.chars next table') : table = table' := by
  ext1 k
  by_cases hk : k < pattern.chars.length
  · obtain ⟨border, hentry, hborder⟩ := h.filled k hk
    obtain ⟨border', hentry', hborder'⟩ := h'.filled k hk
    rw [hentry, hentry', hborder.unique hborder']
  · rw [h.rest k (by omega), h'.rest k (by omega)]

/-! ## Falling back -/

/-- The loop ends at a candidate that goes on, or at none. -/
theorem fallBack_returns (hc : c ≠ 0) (hfilled : Filled pattern.chars table j)
    (hj : Candidate pattern.chars text c j) :
    ∃ k : ℕ, Returns (fun turns => fallBack pattern table c turns j) (k : ℤ) ∧
      Candidate pattern.chars text c k ∧ (pattern.chars[k]? = some c ∨ k = 0) := by
  induction j using Nat.strong_induction_on with
  | _ j ih =>
    by_cases hpos : 0 < j
    · have hread := charAt_natCast pattern hj.1.1
      by_cases hgoes : pattern.chars[j]? = some c
      · refine ⟨j, Returns.of_succ fun turns => ?_, hj, Or.inl hgoes⟩
        have heq := (getD_eq_iff hc).2 hgoes
        rw [fallBack, if_pos (Int.natCast_pos.2 hpos), hread, ok_bind, heq, if_neg (not_not.2 rfl)]
        rfl
      · obtain ⟨border, hentry, hborder⟩ := hfilled (j - 1) (by omega)
        rw [Nat.sub_add_cancel hpos] at hborder
        have hlt : border < j := hborder.1.1
        obtain ⟨k, hreturns, hk⟩ := ih border hlt (hfilled.mono hlt.le) (hj.fall hgoes hborder)
        refine ⟨k, hreturns.succ fun turns => ?_, hk⟩
        have hne : c ≠ pattern.chars.getD j 0 := fun h => hgoes ((getD_eq_iff hc).1 h.symm)
        have hread' := entry_natCast hentry
        rw [Int.natCast_sub hpos] at hread'
        rw [fallBack, if_pos (Int.natCast_pos.2 hpos), hread, ok_bind, if_pos hne]
        exact (congrArg (· >>= fun j => fallBack pattern table c turns j) hread').trans (ok_bind _ _)
    · have hzero : j = 0 := by omega
      subst hzero
      exact ⟨0, Returns.of_succ fun turns => rfl, hj, Or.inr rfl⟩

/-- The longest overlap with one character more. -/
theorem advance_returns (hc : c ≠ 0) (hfilled : Filled pattern.chars table j)
    (hj : LongestOverlap pattern.chars text j) :
    ∃ k : ℕ, Returns (fun turns => advance pattern table c turns j) (k : ℤ) ∧
      LongestOverlap pattern.chars (text ++ [c]) k := by
  obtain ⟨k, hreturns, hk, hends⟩ := fallBack_returns hc hfilled hj.candidate
  have hread := charAt_natCast pattern hk.1.1
  by_cases hgoes : pattern.chars[k]? = some c
  · refine ⟨k + 1, hreturns.bind (Returns.of_eq fun turns => ?_), hk.grow hgoes⟩
    rw [hread, ok_bind, if_pos ((getD_eq_iff hc).2 hgoes)]
    rfl
  · obtain rfl : k = 0 := hends.resolve_left hgoes
    refine ⟨0, hreturns.bind (Returns.of_eq fun turns => ?_), hk.none hgoes⟩
    rw [hread, ok_bind, if_neg fun h => hgoes ((getD_eq_iff hc).1 h)]
    rfl

/-! ## The linear loop -/

theorem tail_take_succ (hi : pattern.chars[i + 1]? = some c) :
    pattern.chars.tail.take (i + 1) = pattern.chars.tail.take i ++ [c] := by
  rw [List.take_add_one, List.getElem?_tail, hi]
  rfl

/-- The loop from the place `i + 1` on, behind entries that are filled. -/
theorem fillFrom_returns (hi : i < pattern.chars.length)
    (hlength : pattern.chars.length ≤ table.length)
    (hfilled : Filled pattern.chars table (i + 1)) (hrest : ∀ k, i + 1 ≤ k → table[k]? = next[k]?)
    (hj : LongestOverlap pattern.chars (pattern.chars.tail.take i) j) :
    ∃ table', Returns (fun turns => fillFrom pattern turns ((i + 1 : ℕ) : ℤ) j table) table' ∧
      Tabulates pattern.chars next table' := by
  obtain ⟨left, hleft⟩ : ∃ left, pattern.chars.length = i + 1 + left :=
    ⟨_, (Nat.add_sub_of_le hi).symm⟩
  induction left generalizing i j table with
  | zero =>
    refine ⟨table, Returns.of_succ fun turns => ?_, ?_, ?_⟩
    · rw [fillFrom, if_neg (by rw [lt_strlen]; omega)]
      rfl
    · rw [hleft]
      exact hfilled
    · intro k hk
      exact hrest k (by omega)
  | succ left ih =>
    have hlt : i + 1 < pattern.chars.length := by omega
    have hget := List.getElem?_eq_getElem hlt
    have hc := getElem?_ne_zero pattern hget
    have hread := charAt_of_getElem? pattern hget
    have hle : j < i + 1 := ((border_iff_overlaps hi).2 hj.1).1
    obtain ⟨k, hadvance, hk⟩ := advance_returns hc (hfilled.mono hle.le) hj
    rw [← tail_take_succ hget] at hk
    have hstore := store_natCast (k : ℤ) (show i + 1 < table.length by omega)
    obtain ⟨table', hreturns, htable'⟩ := ih hlt (by rw [List.length_set]; exact hlength)
      (hfilled.set (by omega) ((longestBorder_iff hlt).2 hk))
      (fun l hl => by rw [List.getElem?_set_ne (by omega)]; exact hrest l (by omega)) hk (by omega)
    have hbody : Returns (fun turns => fillFrom pattern (turns + 1) ((i + 1 : ℕ) : ℤ) j table)
        table' :=
      hadvance.after hreturns fun turns hturns => by
        rw [fillFrom, if_pos ((lt_strlen pattern).2 hlt), hread, ok_bind, hturns, ok_bind, hstore,
          ok_bind]
        rfl
    exact ⟨table', hbody.succ fun _ => rfl, htable'⟩

/-- The first entry is zero, and the longest border of one character. -/
theorem filled_one (hpattern : pattern.chars ≠ []) (hnext : pattern.chars.length ≤ next.length) :
    Filled pattern.chars (next.set 0 0) 1 := by
  have hpos := List.length_pos_iff.2 hpattern
  refine Filled.set (fun k hk => absurd hk (Nat.not_lt_zero k)) (by omega) ?_
  rw [longestBorder_iff hpos]
  exact longestOverlap_nil

theorem store_first (hpattern : pattern.chars ≠ []) (hnext : pattern.chars.length ≤ next.length) :
    store next 0 0 = .ok (next.set 0 0) := by
  have hpos := List.length_pos_iff.2 hpattern
  exact store_natCast (i := 0) 0 (by omega)

theorem getNext2_returns (hpattern : pattern.chars ≠ [])
    (hnext : pattern.chars.length ≤ next.length) :
    ∃ table, Returns (getNext2 pattern next) table ∧ Tabulates pattern.chars next table := by
  have hpos := List.length_pos_iff.2 hpattern
  obtain ⟨table, hreturns, htable⟩ := fillFrom_returns hpos (by rw [List.length_set]; exact hnext)
    (filled_one hpattern hnext) (fun k hk => List.getElem?_set_ne (by omega)) longestOverlap_nil
  refine ⟨table, hreturns.congr fun turns => ?_, htable⟩
  rw [getNext2, store_first hpattern hnext, ok_bind]
  rfl

/-! ## The quadratic loop -/

/-- The comparison gives zero if and only if the pieces are equal. -/
theorem compareFrom_returns (pattern : CString) {a b l : ℕ} {i : ℤ}
    (ha : a + l ≤ pattern.chars.length) (hb : b + l ≤ pattern.chars.length) :
    ∃ order, Returns (fun turns => compareFrom pattern (i + l) turns a b i) order ∧
      (order = 0 ↔ (pattern.chars.drop a).take l = (pattern.chars.drop b).take l) := by
  induction l generalizing a b i with
  | zero =>
    refine ⟨0, Returns.of_succ fun turns => ?_, by simp⟩
    rw [compareFrom, if_neg (by omega)]
    rfl
  | succ l ih =>
    have hla : a < pattern.chars.length := by omega
    have hlb : b < pattern.chars.length := by omega
    have hin : i < i + (l + 1 : ℕ) := by omega
    have hread := charAt_of_getElem? pattern (List.getElem?_eq_getElem hla)
    have hread' := charAt_of_getElem? pattern (List.getElem?_eq_getElem hlb)
    rw [List.drop_eq_getElem_cons hla, List.drop_eq_getElem_cons hlb, List.take_succ_cons,
      List.take_succ_cons, List.cons.injEq]
    by_cases hlt : pattern.chars[a] < pattern.chars[b]
    · refine ⟨-1, Returns.of_succ fun turns => ?_, ?_⟩
      · rw [compareFrom, if_pos hin, hread, ok_bind, hread', ok_bind, if_pos hlt]
        rfl
      · simp [Int8.ne_of_lt hlt]
    by_cases hgt : pattern.chars[b] < pattern.chars[a]
    · refine ⟨1, Returns.of_succ fun turns => ?_, ?_⟩
      · rw [compareFrom, if_pos hin, hread, ok_bind, hread', ok_bind, if_neg hlt, if_pos hgt]
        rfl
      · simp [(Int8.ne_of_lt hgt).symm]
    have heq : pattern.chars[a] = pattern.chars[b] :=
      Int8.le_antisymm (Int8.not_lt.1 hgt) (Int8.not_lt.1 hlt)
    obtain ⟨order, hreturns, horder⟩ :=
      ih (a := a + 1) (b := b + 1) (i := i + 1) (by omega) (by omega)
    refine ⟨order, hreturns.succ fun turns => ?_, by rw [horder, and_iff_right heq]⟩
    rw [compareFrom, if_pos hin, hread, ok_bind, hread', ok_bind, if_neg hlt, if_neg hgt,
      Nat.cast_add, Nat.cast_one, Nat.cast_add, Nat.cast_add, Nat.cast_one, add_assoc i 1,
      add_comm 1 (l : ℤ)]

/-- A border is what the prefix and the piece at the end have in common. -/
theorem border_iff_pieces (hi : i < pattern.chars.length) (hk : k ≤ i) :
    Border pattern.chars (i + 1) k ↔
      (pattern.chars.drop 0).take k = (pattern.chars.drop (i + 1 - k)).take k := by
  have hkeeps : i + 1 - (i + 1 - k) = k := by omega
  have hlong : (pattern.chars.take (i + 1)).length = i + 1 := List.length_take_of_le hi
  unfold Border
  rw [and_iff_right (by omega), List.suffix_iff_eq_drop, hlong, List.length_take_of_le (by omega),
    List.drop_take, List.drop_zero, hkeeps]

/-- The inner loop ends where the longest border begins. -/
theorem getNextShift_returns (hi : i < pattern.chars.length) (hk : k ≤ i)
    (hbefore : ∀ l, Border pattern.chars (i + 1) l → l ≤ k) :
    ∃ l : ℕ, Returns (fun turns => getNextShift pattern i turns (i + 1 - k)) (i + 1 - l : ℤ) ∧
      LongestBorder pattern.chars (i + 1) l := by
  induction k with
  | zero =>
    refine ⟨0, Returns.of_succ fun turns => ?_, ⟨by omega, List.nil_suffix⟩, hbefore⟩
    rw [getNextShift, if_neg (by omega)]
    rfl
  | succ k ih =>
    have hstart : ((i + 1 - (k + 1) : ℕ) : ℤ) = i + 1 - (k + 1 : ℕ) := by omega
    have hn : (0 : ℤ) + (k + 1 : ℕ) = i + 1 - (i + 1 - (k + 1 : ℕ)) := by omega
    obtain ⟨order, hcompare, horder⟩ := compareFrom_returns pattern (i := 0) (a := 0)
      (b := i + 1 - (k + 1)) (l := k + 1) (by omega) (by omega)
    rw [← border_iff_pieces hi hk] at horder
    rw [hstart, hn, Nat.cast_zero] at hcompare
    by_cases hborder : Border pattern.chars (i + 1) (k + 1)
    · have hbody : Returns (fun turns => getNextShift pattern i (turns + 1) (i + 1 - (k + 1 : ℕ)))
          (i + 1 - (k + 1 : ℕ) : ℤ) :=
        hcompare.bind (Returns.of_eq fun turns => if_pos (horder.2 hborder)) |>.congr fun turns => by
          rw [getNextShift, if_pos (by omega)]
          rfl
      exact ⟨k + 1, hbody.succ fun _ => rfl, hborder, hbefore⟩
    · have hbefore' : ∀ l, Border pattern.chars (i + 1) l → l ≤ k := by
        intro l hl
        have hne : l ≠ k + 1 := fun h => hborder (h ▸ hl)
        have hle := hbefore l hl
        omega
      obtain ⟨l, hreturns, hl⟩ := ih (by omega) hbefore'
      have hnext : (i + 1 - (k + 1 : ℕ) + 1 : ℤ) = i + 1 - k := by omega
      have hbody : Returns (fun turns => getNextShift pattern i (turns + 1) (i + 1 - (k + 1 : ℕ)))
          (i + 1 - l : ℤ) :=
        hcompare.after hreturns fun turns hturns => by
          rw [getNextShift, if_pos (by omega)]
          unfold compare
          rw [hturns, ok_bind, if_neg fun h => hborder (horder.1 h), hnext]
      exact ⟨l, hbody.succ fun _ => rfl, hl⟩

/-- The outer loop from the place `i` on, behind entries that are filled. -/
theorem getNextFrom_returns (hi : i ≤ pattern.chars.length)
    (hlength : pattern.chars.length ≤ table.length) (hfilled : Filled pattern.chars table i)
    (hrest : ∀ k, i ≤ k → table[k]? = next[k]?) (hpos : 0 < i) :
    ∃ table', Returns (fun turns => getNextFrom pattern turns i table) table' ∧
      Tabulates pattern.chars next table' := by
  obtain ⟨left, hleft⟩ : ∃ left, pattern.chars.length = i + left := ⟨_, (Nat.add_sub_of_le hi).symm⟩
  induction left generalizing i table with
  | zero =>
    refine ⟨table, Returns.of_succ fun turns => ?_, ?_, ?_⟩
    · rw [getNextFrom, if_neg (by rw [lt_strlen]; omega)]
      rfl
    · rw [hleft]
      exact hfilled
    · intro k hk
      exact hrest k (by omega)
  | succ left ih =>
    have hlt : i < pattern.chars.length := by omega
    obtain ⟨k, hshift, hk⟩ :=
      getNextShift_returns hlt (le_refl i) fun l hl => Nat.le_of_lt_succ hl.1
    have hone : ((i : ℤ) + 1 - i) = 1 := by omega
    have hvalue : ((i : ℤ) + 1 - (i + 1 - k)) = k := by omega
    have hstore := store_natCast (k : ℤ) (show i < table.length by omega)
    rw [hone] at hshift
    obtain ⟨table', hreturns, htable'⟩ := ih hlt (by rw [List.length_set]; exact hlength)
      (hfilled.set (by omega) hk)
      (fun l hl => by rw [List.getElem?_set_ne (by omega)]; exact hrest l (by omega))
      (Nat.succ_pos i) (by omega)
    have hbody : Returns (fun turns => getNextFrom pattern (turns + 1) i table) table' :=
      hshift.after hreturns fun turns hturns => by
        rw [getNextFrom, if_pos ((lt_strlen pattern).2 hlt), hturns, ok_bind, hvalue, hstore, ok_bind]
        rfl
    exact ⟨table', hbody.succ fun _ => rfl, htable'⟩

theorem getNext_returns (hpattern : pattern.chars ≠ [])
    (hnext : pattern.chars.length ≤ next.length) :
    ∃ table, Returns (getNext pattern next) table ∧ Tabulates pattern.chars next table := by
  have hpos := List.length_pos_iff.2 hpattern
  obtain ⟨table, hreturns, htable⟩ := getNextFrom_returns hpos (by rw [List.length_set]; exact hnext)
    (filled_one hpattern hnext) (fun k hk => List.getElem?_set_ne (by omega)) Nat.one_pos
  refine ⟨table, hreturns.congr fun turns => ?_, htable⟩
  rw [getNext, store_first hpattern hnext, ok_bind]
  rfl

end CServer.Kmp
