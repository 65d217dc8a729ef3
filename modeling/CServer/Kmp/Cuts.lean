import CServer.Kmp.OwnSearches

/-!
# Where the pattern is tried anew

The turns of `kmp_my1` that begin with a mismatch can be read off the text and the pattern. They are
the places where neither the longest overlap nor its longest border goes on. The text is cut behind
each of them, and only what stands behind the cut is compared from there on.
-/
namespace CServer.Kmp

section breaks

variable {α : Type} {pattern text : List α} {d j k l q : ℕ}

/-- The element at `d` goes on neither with the longest overlap before it nor with the longest border
of this overlap. -/
def Breaks (pattern text : List α) (d : ℕ) : Prop :=
  ∃ q, LongestOverlap pattern (text.take d) q ∧ text[d]? ≠ pattern[q]? ∧
    ∀ b, LongestBorder pattern q b → text[d]? ≠ pattern[b]?

/-- The first such place, if no occurrence ends before it, and if one may begin there. -/
structure FirstBreak (pattern text : List α) (d : ℕ) : Prop where
  breaks : Breaks pattern text d
  first : ∀ y < d, ¬Breaks pattern text y
  behind : EndsBehind pattern text d
  place : d + pattern.length ≤ text.length

/-- The text is unbroken before `d`, where the overlap is `q`. -/
structure Unbroken (pattern text : List α) (d q : ℕ) : Prop where
  overlap : LongestOverlap pattern (text.take d) q
  first : ∀ y < d, ¬Breaks pattern text y
  behind : EndsBehind pattern text d
  lt_length : q < pattern.length

/-- The overlap `j` before `d` is the one to go on with if any does, and if it does, then there is no
break at `d`. -/
structure Ready (pattern text : List α) (d j : ℕ) : Prop where
  candidate : ∀ c, text[d]? = some c → Candidate pattern (text.take d) c j
  first : ∀ y < d, ¬Breaks pattern text y
  unbroken : text[d]? = pattern[j]? → ¬Breaks pattern text d
  behind : EndsBehind pattern text d
  lt_length : j < pattern.length

/-- The longest overlap itself. -/
theorem Unbroken.ready (h : Unbroken pattern text d q) : Ready pattern text d q where
  candidate _ _ := h.overlap.candidate
  first := h.first
  unbroken heq := by
    rintro ⟨q', hq', hne, -⟩
    rw [← IsGreatest.unique h.overlap hq'] at hne
    exact hne heq
  behind := h.behind
  lt_length := h.lt_length

/-- And its longest border behind a mismatch. -/
theorem Unbroken.fall (h : Unbroken pattern text d q) (hne : text[d]? ≠ pattern[q]?)
    (hk : LongestBorder pattern q k) : Ready pattern text d k where
  candidate c hc := by
    rw [hc] at hne
    exact h.overlap.candidate.fall (fun heq => hne heq.symm) hk
  first := h.first
  unbroken heq := by
    rintro ⟨q', hq', -, hborder⟩
    rw [← IsGreatest.unique h.overlap hq'] at hborder
    exact hborder k hk heq
  behind := h.behind
  lt_length := hk.1.1.trans h.lt_length

theorem unbroken_zero (hpattern : pattern ≠ []) : Unbroken pattern text 0 0 where
  overlap := longestOverlap_nil
  first y hy := absurd hy (Nat.not_lt_zero y)
  behind := endsBehind_zero hpattern
  lt_length := List.length_pos_iff.2 hpattern

/-- One more element agrees. -/
theorem Ready.grow (h : Ready pattern text d j) (heq : text[d]? = pattern[j]?) :
    LongestOverlap pattern (text.take (d + 1)) (j + 1) := by
  obtain ⟨c, hget⟩ : ∃ c, pattern[j]? = some c := ⟨_, List.getElem?_eq_getElem h.lt_length⟩
  rw [hget] at heq
  have htake : text.take (d + 1) = text.take d ++ [c] := by
    rw [List.take_add_one, heq]
    rfl
  rw [htake]
  exact (h.candidate c heq).grow hget

theorem Ready.succ (h : Ready pattern text d j) (heq : text[d]? = pattern[j]?)
    (hj : j + 1 < pattern.length) : Unbroken pattern text (d + 1) (j + 1) where
  overlap := h.grow heq
  first y hy := by
    obtain hlt | rfl := Nat.lt_succ_iff_lt_or_eq.1 hy
    · exact h.first y hlt
    · exact h.unbroken heq
  behind := by
    have hget := List.getElem?_eq_getElem h.lt_length
    rw [hget] at heq
    exact h.behind.succ (List.getElem?_eq_some_iff.1 heq).1 (h.grow (heq.trans hget.symm)) (by omega)
  lt_length := hj

/-- So many elements more agree. -/
theorem Ready.extend (h : Ready pattern text d j) (hl : 0 < l) (hlt : j + l < pattern.length)
    (hagree : ∀ x < l, text[d + x]? = pattern[j + x]?) :
    Unbroken pattern text (d + l) (j + l) := by
  induction l with
  | zero => exact absurd hl (lt_irrefl 0)
  | succ l ih =>
    have heq := hagree l (Nat.lt_succ_self l)
    by_cases hzero : l = 0
    · subst hzero
      exact h.succ heq hlt
    · have hbefore := ih (Nat.pos_of_ne_zero hzero) (by omega) fun x hx => hagree x (by omega)
      exact hbefore.ready.succ heq hlt

/-- Elements that agree do not reach over a break, nor the end of the pattern before it. -/
theorem FirstBreak.le {e : ℕ} (hbreak : FirstBreak pattern text e) (h : Ready pattern text d j)
    (hd : d ≤ e) (hl : j + l ≤ pattern.length)
    (hagree : ∀ x < l, text[d + x]? = pattern[j + x]?) : d + l ≤ e ∧ j + l < pattern.length := by
  induction l with
  | zero => exact ⟨hd, h.lt_length⟩
  | succ l ih =>
    obtain ⟨hle, hlt⟩ := ih (by omega) fun x hx => hagree x (by omega)
    have heq := hagree l (Nat.lt_succ_self l)
    have hready : Ready pattern text (d + l) (j + l) := by
      by_cases hzero : l = 0
      · subst hzero
        exact h
      · exact (h.extend (Nat.pos_of_ne_zero hzero) hlt fun x hx => hagree x (by omega)).ready
    have hne : d + l ≠ e := by
      rintro rfl
      exact hready.unbroken heq hbreak.breaks
    refine ⟨by omega, lt_of_le_of_ne hl fun hfull => ?_⟩
    have hgrown := hready.grow heq
    have hin : d + l < text.length := by
      have hplace := hbreak.place
      omega
    have hends := hgrown.1
    rw [show j + l + 1 = pattern.length from hfull] at hends
    obtain ⟨s, hs, hfirst⟩ := hready.behind.found hin hends
    have hbehind := hbreak.behind s hfirst.1
    omega

end breaks

variable {text pattern : CString} {table : List ℤ} {d i j k l r : ℕ}

/-- Where the pattern is tried anew: at the beginning of the text, and behind each break of what
stands behind the last of these places. -/
inductive Cut (text pattern : CString) : ℕ → Prop
  | start : Cut text pattern 0
  | behind {r d : ℕ} (h : Cut text pattern r)
      (hbreak : FirstBreak pattern.chars (text.chars.drop r) d) : Cut text pattern (r + d + 1)

/-- Behind each break it may begin anew. -/
def MayCut (text pattern : CString) : Prop :=
  ∀ r d, Cut text pattern r → FirstBreak pattern.chars (text.chars.drop r) d →
    Restarts text pattern (r + d)

/-- What is known before a turn: nothing has been read behind the cut, or the overlap before `i` does
not go on and `j` is its longest border. -/
def Before (text pattern : CString) (r d j : ℕ) : Prop :=
  ∃ q, Unbroken pattern.chars (text.chars.drop r) d q ∧
    ((q = 0 ∧ j = 0) ∨ ((text.chars.drop r)[d]? ≠ pattern.chars[q]? ∧
      LongestBorder pattern.chars q j))

theorem Before.ready (h : Before text pattern r d j) :
    Ready pattern.chars (text.chars.drop r) d j := by
  obtain ⟨q, hunbroken, ⟨rfl, rfl⟩ | ⟨hne, hborder⟩⟩ := h
  · exact hunbroken.ready
  · exact hunbroken.fall hne hborder

theorem not_border_zero : ¬LongestBorder pattern.chars 0 k :=
  fun h => absurd h.1.1 (Nat.not_lt_zero k)

/-- A turn begins with a mismatch exactly at a break. -/
theorem Before.breaks_iff (h : Before text pattern r d j) :
    Breaks pattern.chars (text.chars.drop r) d ↔ text.chars[r + d]? ≠ pattern.chars[j]? := by
  have hready := h.ready
  rw [← List.getElem?_drop]
  constructor
  · exact fun hbreaks heq => hready.unbroken heq hbreaks
  · intro hne
    obtain ⟨q, hunbroken, ⟨rfl, rfl⟩ | ⟨hneq, hborder⟩⟩ := h
    · exact ⟨0, hunbroken.overlap, hne, fun b hb => absurd hb not_border_zero⟩
    · refine ⟨q, hunbroken.overlap, hneq, fun b hb => ?_⟩
      rw [IsGreatest.unique hb hborder]
      exact hne

theorem before_cut (text : CString) (hpattern : pattern.chars ≠ []) (r : ℕ) :
    Before text pattern r 0 0 :=
  ⟨0, unbroken_zero hpattern, .inl ⟨rfl, rfl⟩⟩

/-- What the inner loop compares agrees behind the cut. -/
theorem Matches.agree_drop (hl : Matches text pattern (r + d) j l) :
    ∀ x < l, (text.chars.drop r)[d + x]? = pattern.chars[j + x]? := by
  intro x hx
  rw [List.getElem?_drop, ← Nat.add_assoc]
  exact hl.agree x hx

/-- Behind the inner loop, when the pattern is not complete and the loop goes on. -/
theorem Ready.before (h : Ready pattern.chars (text.chars.drop r) d j)
    (hl : Matches text pattern (r + d) j l) (hpos : 0 < l) (hlt : j + l < pattern.chars.length)
    (hplace : r + d + l + pattern.chars.length ≤ text.chars.length)
    (hborder : LongestBorder pattern.chars (j + l) k) : Before text pattern r (d + l) k := by
  have hstops := hl.stops hplace hlt
  rw [Nat.add_assoc, ← List.getElem?_drop] at hstops
  exact ⟨j + l, h.extend hpos hlt hl.agree_drop, .inr ⟨hstops, hborder⟩⟩

theorem Before.firstBreak (h : Before text pattern r d j)
    (hplace : r + d + pattern.chars.length ≤ text.chars.length)
    (hne : text.chars[r + d]? ≠ pattern.chars[j]?) :
    FirstBreak pattern.chars (text.chars.drop r) d where
  breaks := h.breaks_iff.2 hne
  first := h.ready.first
  behind := h.ready.behind
  place := by
    rw [List.length_drop]
    omega

/-- The turns stay behind the cuts. -/
theorem Visits.before (h : Visits text pattern table i j) (hpattern : pattern.chars ≠ [])
    (hfilled : Filled pattern.chars table pattern.chars.length)
    (hplace : i + pattern.chars.length ≤ text.chars.length) :
    ∃ r d, i = r + d ∧ Cut text pattern r ∧ Before text pattern r d j := by
  induction h with
  | start => exact ⟨0, 0, rfl, .start, before_cut text hpattern 0⟩
  | turn h hi hturn ih =>
    obtain ⟨r, d, rfl, hcut, hbefore⟩ := ih hi
    obtain ⟨start, matched, l, hstarts, hl, hpos, hlt, hborder, rfl⟩ :=
      kmpMy1Turn_falls hfilled hi hbefore.ready.lt_length hturn
    obtain ⟨heq, rfl, rfl⟩ | ⟨hne, rfl, rfl⟩ := hstarts
    · have hl' := hl.pos_of_eq heq hi hbefore.ready.lt_length
      exact ⟨r, d + l, Nat.add_assoc r d l, hcut, hbefore.ready.before hl hl' hlt hplace hborder⟩
    · refine ⟨r + d + 1, 0 + l, by omega, hcut.behind (hbefore.firstBreak hi hne), ?_⟩
      exact (before_cut text hpattern (r + d + 1)).ready.before hl (by omega) hlt hplace hborder

/-- A turn that begins to match before a break leads to the next one. -/
theorem Ready.next {e : ℕ} (h : Ready pattern.chars (text.chars.drop r) d k)
    (hbreak : FirstBreak pattern.chars (text.chars.drop r) e) (hd : d ≤ e)
    (hl : Matches text pattern (r + d) k l) (hpos : 0 < l)
    (houtcome : Outcome text pattern table i j (r + d) k l)
    (hvisits : Visits text pattern table i j)
    (hi : i + pattern.chars.length ≤ text.chars.length) :
    d + l ≤ e ∧ ∃ j', Before text pattern r (d + l) j' ∧
      Visits text pattern table (r + (d + l)) j' := by
  obtain ⟨hle, hlt⟩ := hbreak.le h hd hl.pattern_le hl.agree_drop
  have hplace := hbreak.place
  rw [List.length_drop] at hplace
  cases houtcome with
  | full hfull _ => omega
  | falls j' _ _ hborder hreturns =>
    refine ⟨hle, j', h.before hl hpos hlt (by omega) hborder, ?_⟩
    rw [← Nat.add_assoc]
    exact hvisits.turn hi hreturns
  | faults hzero _ _ => omega

/-- From a turn before a break, the loop reaches the break. -/
theorem Before.reaches {e : ℕ} (h : Before text pattern r d j)
    (hfilled : Filled pattern.chars table pattern.chars.length)
    (hvisits : Visits text pattern table (r + d) j)
    (hbreak : FirstBreak pattern.chars (text.chars.drop r) e) (hd : d ≤ e) :
    ∃ j', Visits text pattern table (r + e) j' ∧
      text.chars[r + e]? ≠ pattern.chars[j']? := by
  obtain ⟨left, hleft⟩ : ∃ left, e - d = left := ⟨_, rfl⟩
  induction left using Nat.strong_induction_on generalizing d j with
  | _ left ih =>
    obtain rfl | hlt := Nat.eq_or_lt_of_le hd
    · exact ⟨j, hvisits, h.breaks_iff.1 hbreak.breaks⟩
    · have heq : text.chars[r + d]? = pattern.chars[j]? := by
        by_contra hne
        exact hbreak.first d hlt (h.breaks_iff.2 hne)
      have hplace := hbreak.place
      rw [List.length_drop] at hplace
      have hi : r + d + pattern.chars.length ≤ text.chars.length := by omega
      have hj := h.ready.lt_length
      obtain ⟨start, matched, l, hstarts, hl, houtcome⟩ := kmpMy1Turn_cases hfilled hi hj
      obtain ⟨_, rfl, rfl⟩ | ⟨hne, _, _⟩ := hstarts
      · have hpos := hl.pos_of_eq heq hi hj
        obtain ⟨hle, j', hbefore, hvisits'⟩ := h.ready.next hbreak hd hl hpos houtcome hvisits hi
        exact ih (e - (d + l)) (by omega) hbefore hvisits' hle rfl
      · exact absurd heq hne

/-- Each break is met, as long as the loop may begin anew. -/
theorem Cut.visits (h : Cut text pattern r) (hpattern : pattern.chars ≠ [])
    (hfilled : Filled pattern.chars table pattern.chars.length)
    (hrestart : MayRestart text pattern table)
    (hbreak : FirstBreak pattern.chars (text.chars.drop r) d) :
    ∃ j, Visits text pattern table (r + d) j ∧ text.chars[r + d]? ≠ pattern.chars[j]? := by
  induction h generalizing d with
  | start => exact (before_cut text hpattern 0).reaches hfilled .start hbreak (Nat.zero_le d)
  | @behind r c h hbreak' ih =>
    obtain ⟨j, hvisits, hne⟩ := ih hbreak'
    have hplace := hbreak'.place
    rw [List.length_drop] at hplace
    have hlength := List.length_pos_iff.2 hpattern
    have hi : r + c + pattern.chars.length ≤ text.chars.length := by omega
    have hahead := hrestart _ j hvisits hi hne
    obtain ⟨start, matched, l, hstarts, hl, houtcome⟩ :=
      kmpMy1Turn_cases hfilled hi (hvisits.lt_length hpattern hfilled)
    obtain ⟨heq, _, _⟩ | ⟨_, rfl, rfl⟩ := hstarts
    · exact absurd heq hne
    · have hpos := hl.pos_of_eq hahead.2.1 hahead.1 hlength
      have hready := (before_cut text hpattern (r + c + 1)).ready
      obtain ⟨hle, j', hbefore, hvisits'⟩ :=
        hready.next hbreak (Nat.zero_le d) hl hpos houtcome hvisits hi
      exact hbefore.reaches hfilled hvisits' hbreak hle

/-- The turns that begin with a mismatch are those at the breaks. -/
theorem mayRestart_iff (hpattern : pattern.chars ≠ [])
    (hfilled : Filled pattern.chars table pattern.chars.length) :
    MayRestart text pattern table ↔ MayCut text pattern := by
  constructor
  · intro hrestart r d hcut hbreak
    obtain ⟨j, hvisits, hne⟩ := hcut.visits hpattern hfilled hrestart hbreak
    have hplace := hbreak.place
    have hlength := List.length_pos_iff.2 hpattern
    rw [List.length_drop] at hplace
    exact hrestart (r + d) j hvisits (by omega) hne
  · intro hcut i j hvisits hi hne
    obtain ⟨r, d, rfl, hr, hbefore⟩ := hvisits.before hpattern hfilled hi
    exact hcut r d hr (hbefore.firstBreak hi hne)

/-- Both searches end, without a read outside, and find the pattern. -/
def BothFind (text pattern : CString) (table : List ℤ) : Prop :=
  (∃ shift, Returns (kmpMy1 text pattern table) shift ∧ Finds text pattern shift) ∧
    ∃ shift, Returns (kmpMy2 text pattern table) shift ∧ Finds text pattern shift

end CServer.Kmp
