import CServer.Kmp.Tables

/-!
# The searches that follow the table

`kmp` and `kmp_my2`. Both keep the longest overlap of the text read so far, so they stop at the end of
the first occurrence. `kmp` reads the whole text; `kmp_my2` reads the first places only, where an
occurrence may begin, and an occurrence that ends behind them is not seen.
-/
namespace CServer.Kmp

variable {text pattern : CString} {next table : List ℤ} {c : Int8} {i j k s : ℕ}

/-- The state of a search before the place `i`: the overlap there, and no occurrence so far. -/
structure Searching (text pattern : CString) (i j : ℕ) : Prop where
  overlap : LongestOverlap pattern.chars (text.chars.take i) j
  behind : EndsBehind pattern.chars text.chars i

theorem searching_zero (text : CString) (hpattern : pattern.chars ≠ []) :
    Searching text pattern 0 0 where
  overlap := longestOverlap_nil
  behind := endsBehind_zero hpattern

/-- The pattern is not complete before an occurrence ends. -/
theorem Searching.lt_length (h : Searching text pattern i j) (hi : i ≤ text.chars.length) :
    j < pattern.chars.length := by
  refine lt_of_le_of_ne h.overlap.1.1 ?_
  rintro rfl
  have hle := h.overlap.1.le_length
  rw [List.length_take_of_le hi] at hle
  obtain ⟨s, hs⟩ := Nat.exists_eq_add_of_le' hle
  have hfull := h.overlap.1
  rw [hs] at hfull
  have hlt := h.behind s ((occursAt_iff (by omega)).2 hfull)
  omega

/-- One character is read: the first occurrence ends there, or the search goes on. -/
theorem Searching.step (h : Searching text pattern i j)
    (hfilled : Filled pattern.chars table pattern.chars.length) (hi : i < text.chars.length) :
    ∃ c, charAt text (i : ℤ) = .ok c ∧
      ∃ k : ℕ, Returns (fun turns => advance pattern table c turns j) (k : ℤ) ∧
        ((k = pattern.chars.length ∧ ∃ s, s + pattern.chars.length = i + 1 ∧
            FirstOccurrence pattern.chars text.chars s) ∨
          (k ≠ pattern.chars.length ∧ Searching text pattern (i + 1) k)) := by
  have hget := List.getElem?_eq_getElem hi
  obtain ⟨k, hreturns, hk⟩ := advance_returns (getElem?_ne_zero text hget)
    (hfilled.mono (h.lt_length hi.le).le) h.overlap
  have htake : text.chars.take i ++ [text.chars[i]] = text.chars.take (i + 1) := by
    rw [List.take_add_one, hget]
    rfl
  rw [htake] at hk
  refine ⟨_, charAt_of_getElem? text hget, k, hreturns, ?_⟩
  by_cases hfull : k = pattern.chars.length
  · rw [hfull] at hk
    exact Or.inl ⟨hfull, h.behind.found hi hk.1⟩
  · exact Or.inr ⟨hfull, hk, h.behind.succ hi hk hfull⟩

/-! ## The search over the whole text -/

/-- From any place, the loop finds the first occurrence, or leaves the text behind. -/
theorem Searching.kmpFrom_returns (h : Searching text pattern i j)
    (hfilled : Filled pattern.chars table pattern.chars.length) (hi : i ≤ text.chars.length) :
    ∃ shift : ℤ, Returns (fun turns => kmpFrom text pattern table turns i j) shift ∧
      ((∃ s : ℕ, shift = s ∧ FirstOccurrence pattern.chars text.chars s) ∨
        (EndsBehind pattern.chars text.chars text.chars.length ∧
          strlen text - strlen pattern < shift)) := by
  obtain ⟨left, hleft⟩ : ∃ left, text.chars.length = i + left := ⟨_, (Nat.add_sub_of_le hi).symm⟩
  induction left generalizing i j with
  | zero =>
    refine ⟨i - j + 1, Returns.of_succ fun turns => ?_, Or.inr ⟨?_, ?_⟩⟩
    · rw [kmpFrom, if_neg (by rw [lt_strlen]; omega)]
      rfl
    · rw [hleft]
      exact h.behind
    · have hlt := h.lt_length hi
      unfold strlen
      omega
  | succ left ih =>
    have hlt : i < text.chars.length := by omega
    obtain ⟨c, hread, k, hadvance, hstep⟩ := h.step hfilled hlt
    obtain ⟨hfull, s, hs, hfirst⟩ | ⟨hfull, hsearching⟩ := hstep
    · have hshift : ((i : ℤ) - k + 1) = s := by omega
      have heq : (k : ℤ) = strlen pattern := congrArg Nat.cast hfull
      have hbody : Returns (fun turns => kmpFrom text pattern table (turns + 1) i j) (s : ℤ) :=
        hadvance.after (Returns.of_eq fun _ => rfl) fun turns hturns => by
          rw [kmpFrom, if_pos ((lt_strlen text).2 hlt), hread, ok_bind, hturns, ok_bind,
            if_pos heq, hshift]
          rfl
      exact ⟨s, hbody.succ fun _ => rfl, Or.inl ⟨s, rfl, hfirst⟩⟩
    · obtain ⟨shift, hreturns, hshift⟩ := ih hsearching hlt (by omega)
      have hne : (k : ℤ) ≠ strlen pattern := fun heq => hfull (Int.ofNat.inj heq)
      have hbody : Returns (fun turns => kmpFrom text pattern table (turns + 1) i j) shift :=
        hadvance.after hreturns fun turns hturns => by
          rw [kmpFrom, if_pos ((lt_strlen text).2 hlt), hread, ok_bind, hturns, ok_bind, if_neg hne]
          rfl
      exact ⟨shift, hbody.succ fun _ => rfl, hshift⟩

/-- The result of a search: the first place where the pattern stands, or -1 if there is none. -/
def Finds (text pattern : CString) (shift : ℤ) : Prop :=
  (∃ s : ℕ, shift = s ∧ FirstOccurrence pattern.chars text.chars s) ∨
    (shift = -1 ∧ ¬∃ s, OccursAt pattern.chars text.chars s)

/-- The places that the bound of the loops leaves contain the first occurrence, if there is one. -/
def EndsEarly (text pattern : CString) : Prop :=
  ∀ s, FirstOccurrence pattern.chars text.chars s →
    s + 2 * pattern.chars.length ≤ text.chars.length + 1

theorem le_places : (i : ℤ) ≤ strlen text - strlen pattern ↔
    i + pattern.chars.length ≤ text.chars.length := by
  unfold strlen
  omega

theorem finds_natCast (hs : FirstOccurrence pattern.chars text.chars s) : Finds text pattern s :=
  Or.inl ⟨s, rfl, hs⟩

theorem finds_none : Finds text pattern (-1) ↔ ¬∃ s, OccursAt pattern.chars text.chars s := by
  constructor
  · rintro (⟨s, hs, _⟩ | ⟨_, hnone⟩)
    · omega
    · exact hnone
  · exact fun hnone => Or.inr ⟨rfl, hnone⟩

/-- From any place, the loop finds the first occurrence if it ends in the first places. -/
theorem Searching.kmpMy2From_returns (h : Searching text pattern i j)
    (hfilled : Filled pattern.chars table pattern.chars.length)
    (hi : i ≤ text.chars.length + 1 - pattern.chars.length) :
    ∃ shift : ℤ, Returns (fun turns => kmpMy2From text pattern table turns i j) shift ∧
      ((∃ s : ℕ, shift = s ∧ FirstOccurrence pattern.chars text.chars s ∧
          s + 2 * pattern.chars.length ≤ text.chars.length + 1) ∨
        (shift = -1 ∧ EndsBehind pattern.chars text.chars
          (text.chars.length + 1 - pattern.chars.length))) := by
  obtain ⟨left, hleft⟩ : ∃ left, text.chars.length + 1 - pattern.chars.length = i + left :=
    ⟨_, (Nat.add_sub_of_le hi).symm⟩
  induction left generalizing i j with
  | zero =>
    refine ⟨-1, Returns.of_succ fun turns => ?_, Or.inr ⟨rfl, ?_⟩⟩
    · rw [kmpMy2From, if_neg (by rw [le_places]; omega)]
      rfl
    · rw [hleft]
      exact h.behind
  | succ left ih =>
    have hplace : i + pattern.chars.length ≤ text.chars.length := by omega
    have hlength := h.lt_length (by omega)
    obtain ⟨c, hread, k, hadvance, hstep⟩ := h.step hfilled (by omega)
    obtain ⟨hfull, s, hs, hfirst⟩ | ⟨hfull, hsearching⟩ := hstep
    · have hshift : (i : ℤ) + 1 - strlen pattern = s := by
        unfold strlen
        omega
      have heq : (k : ℤ) = strlen pattern := congrArg Nat.cast hfull
      have hbody : Returns (fun turns => kmpMy2From text pattern table (turns + 1) i j) (s : ℤ) :=
        hadvance.after (Returns.of_eq fun _ => rfl) fun turns hturns => by
          rw [kmpMy2From, if_pos (le_places.2 hplace), hread, ok_bind, hturns, ok_bind, if_pos heq,
            hshift]
          rfl
      exact ⟨s, hbody.succ fun _ => rfl, Or.inl ⟨s, rfl, hfirst, by omega⟩⟩
    · obtain ⟨shift, hreturns, hshift⟩ := ih hsearching (by omega) (by omega)
      have hne : (k : ℤ) ≠ strlen pattern := fun heq => hfull (Int.ofNat.inj heq)
      have hbody : Returns (fun turns => kmpMy2From text pattern table (turns + 1) i j) shift :=
        hadvance.after hreturns fun turns hturns => by
          rw [kmpMy2From, if_pos (le_places.2 hplace), hread, ok_bind, hturns, ok_bind, if_neg hne]
          rfl
      exact ⟨shift, hbody.succ fun _ => rfl, hshift⟩

/-- `kmp_my2` ends in any case, with the right result if and only if the first occurrence ends in the
first places. -/
theorem kmpMy2_returns (text : CString) (hpattern : pattern.chars ≠ [])
    (hfilled : Filled pattern.chars table pattern.chars.length) :
    ∃ shift, Returns (kmpMy2 text pattern table) shift ∧
      (Finds text pattern shift ↔ EndsEarly text pattern) := by
  obtain ⟨shift, hreturns, hshift⟩ := (searching_zero text hpattern).kmpMy2From_returns
    hfilled (Nat.zero_le _)
  refine ⟨shift, hreturns, ?_⟩
  obtain ⟨s, rfl, hfirst, hs⟩ | ⟨rfl, hbehind⟩ := hshift
  · refine iff_of_true (finds_natCast hfirst) fun s' hs' => ?_
    rw [← hfirst.unique hs']
    exact hs
  · rw [finds_none]
    constructor
    · exact fun hnone s hs => absurd ⟨s, hs.1⟩ hnone
    · intro hearly ⟨s, hs⟩
      obtain ⟨s, hfirst⟩ := hs.exists_first
      have hends := hearly s hfirst
      have hlt := hbehind s hfirst.1
      omega

end CServer.Kmp
