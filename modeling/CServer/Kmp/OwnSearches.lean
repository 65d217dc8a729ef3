import CServer.Kmp.Search

/-!
# The search that starts anew

`kmp_my1` matches as far as it can, and begins each turn with the entry of the table for what it has
matched. A turn that begins with a mismatch does not follow the table: it drops what has been
matched, begins behind the mismatch, and reads the table before its first entry when that place does
not match either. The search is right if what such a turn drops is not missed.
-/
namespace CServer.Kmp

variable {text pattern : CString} {next table : List ℤ} {c : Int8} {i j k l s : ℕ}

/-! ## Matching -/

/-- The characters that `l` turns of the inner loop have compared are the same. -/
def Agree (text pattern : CString) (i j l : ℕ) : Prop :=
  ∀ x < l, text.chars[i + x]? = pattern.chars[j + x]?

/-- What the inner loop does from `i` and `j` on, in `l` turns. -/
structure Matches (text pattern : CString) (i j l : ℕ) : Prop where
  agree : Agree text pattern i j l
  pattern_le : j + l ≤ pattern.chars.length
  place : 0 < l → i + l + pattern.chars.length ≤ text.chars.length + 1
  stops : i + l + pattern.chars.length ≤ text.chars.length → j + l < pattern.chars.length →
    text.chars[i + l]? ≠ pattern.chars[j + l]?

theorem Matches.zero (hj : j ≤ pattern.chars.length)
    (hstops : i + pattern.chars.length ≤ text.chars.length → j < pattern.chars.length →
      text.chars[i]? ≠ pattern.chars[j]?) : Matches text pattern i j 0 where
  agree x hx := absurd hx (Nat.not_lt_zero x)
  pattern_le := hj
  place h := absurd h (lt_irrefl 0)
  stops := hstops

/-- The first character agrees. -/
theorem Matches.succ (h : Matches text pattern (i + 1) (j + 1) l)
    (hget : text.chars[i]? = pattern.chars[j]?)
    (hi : i + pattern.chars.length ≤ text.chars.length) : Matches text pattern i j (l + 1) where
  agree x hx := by
    obtain _ | x := x
    · exact hget
    · have hagree := h.agree x (by omega)
      rw [Nat.add_assoc, Nat.add_assoc, Nat.add_comm 1 x] at hagree
      exact hagree
  pattern_le := by
    have hle := h.pattern_le
    omega
  place _ := by
    obtain _ | l := l
    · omega
    · have hplace := h.place (Nat.succ_pos l)
      omega
  stops hplace hlt := by
    have hstops := h.stops (by omega) (by omega)
    rw [Nat.add_assoc, Nat.add_assoc, Nat.add_comm 1 l] at hstops
    exact hstops

/-- The loop does not stop where the characters are the same. -/
theorem Matches.pos_of_eq (h : Matches text pattern i j l)
    (heq : text.chars[i]? = pattern.chars[j]?)
    (hi : i + pattern.chars.length ≤ text.chars.length) (hj : j < pattern.chars.length) : 0 < l := by
  refine Nat.pos_of_ne_zero ?_
  rintro rfl
  exact h.stops hi hj heq

theorem matchFrom_returns (text : CString) (i : ℕ) (hj : j ≤ pattern.chars.length) :
    ∃ l, Matches text pattern i j l ∧
      Returns (fun turns => matchFrom text pattern turns i j)
        (((i + l : ℕ) : ℤ), ((j + l : ℕ) : ℤ)) := by
  obtain ⟨left, hleft⟩ : ∃ left, pattern.chars.length = j + left := ⟨_, (Nat.add_sub_of_le hj).symm⟩
  induction left generalizing i j with
  | zero =>
    refine ⟨0, Matches.zero hj fun _ hlt => by omega, Returns.of_succ fun turns => ?_⟩
    rw [matchFrom, if_neg (by rw [lt_strlen]; omega)]
    rfl
  | succ left ih =>
    by_cases hplace : i + pattern.chars.length ≤ text.chars.length
    · have hlt : j < pattern.chars.length := by omega
      have hget := List.getElem?_eq_getElem (show i < text.chars.length by omega)
      have hget' := List.getElem?_eq_getElem hlt
      have hread := charAt_of_getElem? text hget
      have hread' := charAt_of_getElem? pattern hget'
      have hin := And.intro (le_places.2 hplace) ((lt_strlen pattern).2 hlt)
      by_cases heq : text.chars[i] = pattern.chars[j]
      · obtain ⟨l, hl, hreturns⟩ := ih (i + 1) (j := j + 1) hlt (by omega)
        rw [← heq] at hget'
        have hi : i + 1 + l = i + (l + 1) := by omega
        have hj' : j + 1 + l = j + (l + 1) := by omega
        rw [hi, hj'] at hreturns
        refine ⟨l + 1, hl.succ (hget.trans hget'.symm) hplace, hreturns.succ fun turns => ?_⟩
        rw [matchFrom, if_pos hin, hread, ok_bind, hread', ok_bind, if_pos heq]
        rfl
      · refine ⟨0, Matches.zero hj fun _ _ => ?_, Returns.of_succ fun turns => ?_⟩
        · rw [hget, hget']
          exact fun h => heq (Option.some.inj h)
        · rw [matchFrom, if_pos hin, hread, ok_bind, hread', ok_bind, if_neg heq]
          rfl
    · refine ⟨0, Matches.zero hj fun h => absurd h hplace, Returns.of_succ fun turns => ?_⟩
      rw [matchFrom, if_neg fun h => hplace (le_places.1 h.1)]
      rfl

/-! ## A turn -/

/-- Where the inner loop of a turn starts. -/
def Starts (text pattern : CString) (i j i' j' : ℕ) : Prop :=
  (text.chars[i]? = pattern.chars[j]? ∧ i' = i ∧ j' = j) ∨
    (text.chars[i]? ≠ pattern.chars[j]? ∧ i' = i + 1 ∧ j' = 0)

/-- What a turn comes to: the result, the next turn, or a read before the table. -/
inductive Outcome (text pattern : CString) (next : List ℤ) (i j i' j' l : ℕ) : Prop
  | full (hfull : j' + l = pattern.chars.length)
      (hreturns : Returns (fun turns => kmpMy1Turn text pattern next turns i j) (.inl (i' - j' : ℤ)))
  | falls (k : ℕ) (hpos : 0 < j' + l) (hlt : j' + l < pattern.chars.length)
      (hborder : LongestBorder pattern.chars (j' + l) k)
      (hreturns : Returns (fun turns => kmpMy1Turn text pattern next turns i j)
        (.inr (((i' + l : ℕ) : ℤ), (k : ℤ))))
  | faults (hzero : j' + l = 0) (enough : ℕ)
      (herror : ∀ turns, enough ≤ turns → kmpMy1Turn text pattern next turns i j = .error .read)

theorem outcome_of_matches {i' j' : ℕ} (hfilled : Filled pattern.chars table pattern.chars.length)
    (hl : Matches text pattern i' j' l)
    (hmatch : Returns (fun turns => matchFrom text pattern turns i' j')
      (((i' + l : ℕ) : ℤ), ((j' + l : ℕ) : ℤ)))
    (hturn : ∀ turns, kmpMy1Turn text pattern table turns i j =
      matchFrom text pattern turns i' j' >>= fun reached =>
        if reached.2 = strlen pattern then return .inl (reached.1 - strlen pattern)
        else do
          let j ← entry table (reached.2 - 1)
          return .inr (reached.1, j)) :
    Outcome text pattern table i j i' j' l := by
  by_cases hfull : j' + l = pattern.chars.length
  · refine .full hfull (hmatch.after (Returns.of_eq fun _ => rfl) fun turns hturns => ?_)
    have heq : ((j' + l : ℕ) : ℤ) = strlen pattern := congrArg Nat.cast hfull
    have hshift : ((i' + l : ℕ) : ℤ) - ((j' + l : ℕ) : ℤ) = i' - j' := by omega
    rw [hturn, hturns, ok_bind, if_pos heq, ← heq, hshift]
    rfl
  have hne : ((j' + l : ℕ) : ℤ) ≠ strlen pattern := fun heq => hfull (Int.ofNat.inj heq)
  by_cases hzero : j' + l = 0
  · obtain ⟨enough, hmatch⟩ := hmatch
    refine .faults hzero enough fun turns hturns => ?_
    have hread : entry table (((j' + l : ℕ) : ℤ) - 1) = .error .read := if_neg (by omega)
    have hreached : matchFrom text pattern turns i' j' =
        .ok (((i' + l : ℕ) : ℤ), ((j' + l : ℕ) : ℤ)) :=
      hmatch turns hturns
    rw [hturn, hreached, ok_bind, if_neg hne, hread]
    rfl
  · have hpos : 0 < j' + l := Nat.pos_of_ne_zero hzero
    have hlt : j' + l < pattern.chars.length := lt_of_le_of_ne hl.pattern_le hfull
    obtain ⟨k, hentry, hborder⟩ := hfilled (j' + l - 1) (by omega)
    have hread := entry_natCast hentry
    rw [Nat.sub_add_cancel hpos] at hborder
    rw [Int.natCast_sub hpos] at hread
    refine .falls k hpos hlt hborder
      (hmatch.after (Returns.of_eq fun _ => rfl) fun turns hturns => ?_)
    rw [hturn, hturns, ok_bind, if_neg hne]
    exact (congrArg (· >>= fun j => pure (Sum.inr (((i' + l : ℕ) : ℤ), j))) hread).trans (ok_bind _ _)

theorem kmpMy1Turn_cases (hfilled : Filled pattern.chars table pattern.chars.length)
    (hi : i + pattern.chars.length ≤ text.chars.length) (hj : j < pattern.chars.length) :
    ∃ i' j' l, Starts text pattern i j i' j' ∧ Matches text pattern i' j' l ∧
      Outcome text pattern table i j i' j' l := by
  have hget := List.getElem?_eq_getElem (show i < text.chars.length by omega)
  have hget' := List.getElem?_eq_getElem hj
  have hread := charAt_of_getElem? text hget
  have hread' := charAt_of_getElem? pattern hget'
  by_cases heq : text.chars[i] = pattern.chars[j]
  · obtain ⟨l, hl, hreturns⟩ := matchFrom_returns text i hj.le
    refine ⟨i, j, l, Or.inl ⟨?_, rfl, rfl⟩, hl,
      outcome_of_matches hfilled hl hreturns fun turns => ?_⟩
    · rw [hget, hget', heq]
    · rw [kmpMy1Turn, hread, ok_bind, hread', ok_bind, if_neg (not_not.2 heq)]
  · obtain ⟨l, hl, hreturns⟩ := matchFrom_returns text (i + 1) (Nat.zero_le pattern.chars.length)
    refine ⟨i + 1, 0, l, Or.inr ⟨?_, rfl, rfl⟩, hl,
      outcome_of_matches hfilled hl hreturns fun turns => ?_⟩
    · rw [hget, hget']
      exact fun h => heq (Option.some.inj h)
    · rw [kmpMy1Turn, hread, ok_bind, hread', ok_bind, if_pos heq]
      rfl

/-- A turn that is followed by another one. -/
theorem kmpMy1Turn_falls {i' j' : ℕ} (hfilled : Filled pattern.chars table pattern.chars.length)
    (hi : i + pattern.chars.length ≤ text.chars.length) (hj : j < pattern.chars.length)
    (hturn : Returns (fun turns => kmpMy1Turn text pattern table turns i j)
      (.inr ((i' : ℤ), (j' : ℤ)))) :
    ∃ start matched l, Starts text pattern i j start matched ∧
      Matches text pattern start matched l ∧ 0 < matched + l ∧
      matched + l < pattern.chars.length ∧ LongestBorder pattern.chars (matched + l) j' ∧
      i' = start + l := by
  obtain ⟨start, matched, l, hstarts, hl, houtcome⟩ := kmpMy1Turn_cases hfilled hi hj
  cases houtcome with
  | full _ hreturns => exact absurd (hturn.unique hreturns) (by simp)
  | falls k hpos hlt hborder hreturns =>
    obtain ⟨hplace, hentry⟩ := Prod.mk.inj (Sum.inr.inj (hturn.unique hreturns))
    obtain rfl := Int.ofNat.inj hentry
    exact ⟨start, matched, l, hstarts, hl, hpos, hlt, hborder, Int.ofNat.inj hplace⟩
  | faults _ enough herror =>
    obtain ⟨enough', hturn⟩ := hturn
    have hboth := (hturn (max enough enough') (by omega)).symm.trans (herror _ (by omega))
    exact absurd hboth (by simp)

/-! ## The condition -/

/-- The values of `i` and `j` before the turns that the loop makes. -/
inductive Visits (text pattern : CString) (next : List ℤ) : ℕ → ℕ → Prop
  | start : Visits text pattern next 0 0
  | turn {i j i' j' : ℕ} (h : Visits text pattern next i j)
      (hi : i + pattern.chars.length ≤ text.chars.length)
      (hturn : Returns (fun turns => kmpMy1Turn text pattern next turns i j)
        (.inr ((i' : ℤ), (j' : ℤ)))) :
      Visits text pattern next i' j'

/-- Behind the mismatch with which a turn begins, the first character of the pattern is ahead at a
place that the loop reaches, and no occurrence begins before. -/
def Restarts (text pattern : CString) (i : ℕ) : Prop :=
  i + 1 + pattern.chars.length ≤ text.chars.length ∧
    text.chars[i + 1]? = pattern.chars[0]? ∧ ∀ s, OccursAt pattern.chars text.chars s → i < s

/-- Each turn that begins with a mismatch may begin anew. -/
def MayRestart (text pattern : CString) (next : List ℤ) : Prop :=
  ∀ i j, Visits text pattern next i j → i + pattern.chars.length ≤ text.chars.length →
    text.chars[i]? ≠ pattern.chars[j]? → Restarts text pattern i

/-- What holds before a turn of a search that has lost nothing. -/
structure Matched (text pattern : CString) (i j : ℕ) : Prop where
  overlap : Overlaps pattern.chars (text.chars.take i) j
  lt_length : j < pattern.chars.length
  before : ∀ s, OccursAt pattern.chars text.chars s → i ≤ s + j

theorem matched_zero (hpattern : pattern.chars ≠ []) : Matched text pattern 0 0 where
  overlap := overlaps_zero
  lt_length := List.length_pos_iff.2 hpattern
  before _ _ := Nat.zero_le _

theorem Matched.starts {i' j' : ℕ} (h : Matched text pattern i j)
    (hstarts : Starts text pattern i j i' j')
    (hrestarts : text.chars[i]? ≠ pattern.chars[j]? → Restarts text pattern i) :
    Matched text pattern i' j' := by
  obtain ⟨_, rfl, rfl⟩ | ⟨hne, rfl, rfl⟩ := hstarts
  · exact h
  · exact ⟨overlaps_zero, (Nat.zero_le j).trans_lt h.lt_length, (hrestarts hne).2.2⟩

/-- The inner loop leaves an overlap. -/
theorem Matched.reaches (h : Matched text pattern i j) (hl : Matches text pattern i j l) :
    Overlaps pattern.chars (text.chars.take (i + l)) (j + l) :=
  h.overlap.extend hl.pattern_le hl.agree

/-- With the whole pattern matched, the first occurrence begins where the matching began. -/
theorem Matched.found (h : Matched text pattern i j) (hl : Matches text pattern i j l)
    (hfull : j + l = pattern.chars.length) (hi : i + l ≤ text.chars.length) :
    ∃ s : ℕ, (i - j : ℤ) = s ∧ FirstOccurrence pattern.chars text.chars s := by
  have hoverlap := h.reaches hl
  have hle := hoverlap.le_length
  rw [List.length_take_of_le hi, hfull] at hle
  obtain ⟨s, hs⟩ := Nat.exists_eq_add_of_le' hle
  rw [hfull, hs] at hoverlap
  refine ⟨s, by omega, (occursAt_iff (by omega)).2 hoverlap, fun s' hs' => ?_⟩
  have hbefore := h.before s' hs'
  omega

/-- No occurrence begins between a mismatch and the longest border. -/
theorem Matched.falls (h : Matched text pattern i j) (hl : Matches text pattern i j l)
    (hearly : EndsEarly text pattern) (hlt : j + l < pattern.chars.length)
    (hk : LongestBorder pattern.chars (j + l) k) : Matched text pattern (i + l) k where
  overlap := hk.1.overlaps (h.reaches hl)
  lt_length := hk.1.1.trans hlt
  before s hs := by
    have hbefore := h.before s hs
    by_cases hstart : s + j = i
    · have hends : s + (j + l) = i + l := by omega
      by_cases hplace : i + l + pattern.chars.length ≤ text.chars.length
      · have hget := hs.getElem? hlt
        rw [hends] at hget
        exact absurd hget (hl.stops hplace hlt)
      · obtain ⟨first, hfirst⟩ := hs.exists_first
        have hle := hearly first hfirst
        have hbefore' := h.before first hfirst.1
        omega
    · by_cases hin : i + l ≤ s
      · omega
      · obtain ⟨n, hn⟩ := Nat.exists_eq_add_of_le (Nat.le_of_not_le hin)
        have hpart := hs.overlaps (k := n) (by omega)
        rw [← hn] at hpart
        have hle := hk.2 (hpart.border (h.reaches hl) (by omega))
        omega

/-- A turn makes progress if it may begin anew. -/
theorem Matches.pos {i' j' : ℕ} (hl : Matches text pattern i' j' l)
    (hstarts : Starts text pattern i j i' j')
    (hi : i + pattern.chars.length ≤ text.chars.length) (hj : j < pattern.chars.length)
    (hrestarts : text.chars[i]? ≠ pattern.chars[j]? → Restarts text pattern i) : 0 < l := by
  obtain ⟨heq, rfl, rfl⟩ | ⟨hne, rfl, rfl⟩ := hstarts
  · exact hl.pos_of_eq heq hi hj
  · have hahead := hrestarts hne
    exact hl.pos_of_eq hahead.2.1 hahead.1 (by omega)

theorem kmpMy1From_succ (text pattern : CString) (next : List ℤ) (turns : ℕ) (i j : ℤ) :
    kmpMy1From text pattern next (turns + 1) i j =
      if i ≤ strlen text - strlen pattern then do
        match ← kmpMy1Turn text pattern next turns i j with
        | .inl shift => return shift
        | .inr (i, j) => kmpMy1From text pattern next turns i j
      else return -1 := rfl

/-- From any turn on, the loop ends with the right result. -/
theorem Matched.kmpMy1From_returns (h : Matched text pattern i j)
    (hfilled : Filled pattern.chars table pattern.chars.length) (hearly : EndsEarly text pattern)
    (hrestart : MayRestart text pattern table) (hvisits : Visits text pattern table i j) :
    ∃ shift, Returns (fun turns => kmpMy1From text pattern table turns i j) shift ∧
      Finds text pattern shift := by
  obtain ⟨left, hleft⟩ : ∃ left, text.chars.length + 1 - i = left := ⟨_, rfl⟩
  induction left using Nat.strong_induction_on generalizing i j with
  | _ left ih =>
    by_cases hi : i + pattern.chars.length ≤ text.chars.length
    · have hrestarts := hrestart i j hvisits hi
      obtain ⟨i', j', l, hstarts, hl, houtcome⟩ := kmpMy1Turn_cases hfilled hi h.lt_length
      have hmatched := h.starts hstarts hrestarts
      have hpos := hl.pos hstarts hi h.lt_length hrestarts
      have hplace := hl.place hpos
      have hin := le_places.2 hi
      cases houtcome with
      | full hfull hreturns =>
        obtain ⟨s, hs, hfirst⟩ := hmatched.found hl hfull (by omega)
        rw [hs] at hreturns
        have hbody : Returns (fun turns => kmpMy1From text pattern table (turns + 1) i j) (s : ℤ) :=
          hreturns.after (Returns.of_eq fun _ => rfl) fun turns hturns => by
            rw [kmpMy1From_succ, if_pos hin, hturns]
            rfl
        exact ⟨s, hbody.succ fun _ => rfl, finds_natCast hfirst⟩
      | falls k _ hlt hborder hreturns =>
        have hle : i ≤ i' := by
          obtain ⟨_, rfl, _⟩ | ⟨_, rfl, _⟩ := hstarts <;> omega
        obtain ⟨shift, hrest, hshift⟩ := ih (text.chars.length + 1 - (i' + l)) (by omega)
          (hmatched.falls hl hearly hlt hborder) (hvisits.turn hi hreturns) rfl
        have hbody : Returns (fun turns => kmpMy1From text pattern table (turns + 1) i j) shift :=
          hreturns.after hrest fun turns hturns => by
            rw [kmpMy1From_succ, if_pos hin, hturns]
            rfl
        exact ⟨shift, hbody.succ fun _ => rfl, hshift⟩
      | faults hzero _ _ => omega
    · refine ⟨-1, Returns.of_succ fun turns => ?_, finds_none.2 fun ⟨s, hs⟩ => ?_⟩
      · rw [kmpMy1From_succ, if_neg fun hle => hi (le_places.1 hle)]
        rfl
      · obtain ⟨first, hfirst⟩ := hs.exists_first
        have hle := hearly first hfirst
        have hbefore := h.before first hfirst.1
        have hlt := h.lt_length
        omega

/-! ## The other direction -/

/-- The rest of a run that returns gives the same result. -/
theorem returns_of_turn {i' j' shift : ℤ} (hi : i ≤ strlen text - strlen pattern)
    (hturn : Returns (fun turns => kmpMy1Turn text pattern table turns i j) (.inr (i', j')))
    (h : Returns (fun turns => kmpMy1From text pattern table turns i j) shift) :
    Returns (fun turns => kmpMy1From text pattern table turns i' j') shift := by
  obtain ⟨enough, h⟩ := h
  obtain ⟨enough', hturn⟩ := hturn
  refine ⟨max enough enough', fun turns hturns => ?_⟩
  have hreached : kmpMy1Turn text pattern table turns i j = .ok (.inr (i', j')) :=
    hturn turns (by omega)
  have hwhole : kmpMy1From text pattern table (turns + 1) i j = .ok shift := h (turns + 1) (by omega)
  rw [kmpMy1From_succ, if_pos hi, hreached] at hwhole
  exact hwhole

theorem Visits.returns {shift : ℤ} (h : Visits text pattern table i j)
    (hreturns : Returns (kmpMy1 text pattern table) shift) :
    Returns (fun turns => kmpMy1From text pattern table turns i j) shift := by
  induction h with
  | start => exact hreturns
  | turn _ hi hturn ih => exact returns_of_turn (le_places.2 hi) hturn ih

/-- A turn whose result is an error ends the run. -/
theorem not_returns_of_fault {shift : ℤ} {enough : ℕ}
    (hi : i + pattern.chars.length ≤ text.chars.length)
    (herror : ∀ turns, enough ≤ turns → kmpMy1Turn text pattern table turns i j = .error .read) :
    ¬Returns (fun turns => kmpMy1From text pattern table turns i j) shift := by
  rintro ⟨enough', h⟩
  have hwhole : kmpMy1From text pattern table (max enough enough' + 1) i j = .ok shift :=
    h _ (by omega)
  rw [kmpMy1From_succ, if_pos (le_places.2 hi), herror _ (by omega)] at hwhole
  exact absurd hwhole (by simp [error_bind])

theorem Visits.lt_length (h : Visits text pattern table i j) (hpattern : pattern.chars ≠ [])
    (hfilled : Filled pattern.chars table pattern.chars.length) : j < pattern.chars.length := by
  induction h with
  | start => exact List.length_pos_iff.2 hpattern
  | turn _ hi hturn ih =>
    obtain ⟨start, matched, l, _, _, _, hlt, hborder, _⟩ := kmpMy1Turn_falls hfilled hi ih hturn
    exact hborder.1.1.trans hlt

/-- A run that returns does so in this turn, or goes on with the border of what it has matched. -/
theorem Outcome.result {i' j' : ℕ} {shift : ℤ} (houtcome : Outcome text pattern table i j i' j' l)
    (hi : i + pattern.chars.length ≤ text.chars.length)
    (h : Returns (fun turns => kmpMy1From text pattern table turns i j) shift) :
    shift = i' - j' ∨ ∃ k < j' + l, j' + l < pattern.chars.length ∧
      Returns (fun turns => kmpMy1From text pattern table turns ((i' + l : ℕ) : ℤ) k) shift := by
  cases houtcome with
  | full hfull hreturns =>
    have hbody : Returns (fun turns => kmpMy1From text pattern table (turns + 1) i j) (i' - j' : ℤ) :=
      hreturns.after (Returns.of_eq fun _ => rfl) fun turns hturns => by
        rw [kmpMy1From_succ, if_pos (le_places.2 hi), hturns]
        rfl
    exact Or.inl (h.unique (hbody.succ fun _ => rfl))
  | falls k hpos hlt hborder hreturns =>
    exact Or.inr ⟨k, hborder.1.1, hlt, returns_of_turn (le_places.2 hi) hreturns h⟩
  | faults _ enough herror => exact absurd h (not_returns_of_fault hi herror)

/-- No result lies before the place where a turn has begun to match. -/
theorem start_le_result {shift : ℤ} (hfilled : Filled pattern.chars table pattern.chars.length)
    (hj : j < pattern.chars.length)
    (h : Returns (fun turns => kmpMy1From text pattern table turns i j) shift) :
    shift = -1 ∨ (i - j : ℤ) ≤ shift := by
  obtain ⟨left, hleft⟩ : ∃ left, text.chars.length + 1 - i = left := ⟨_, rfl⟩
  induction left using Nat.strong_induction_on generalizing i j with
  | _ left ih =>
    by_cases hi : i + pattern.chars.length ≤ text.chars.length
    · obtain ⟨i', j', l, hstarts, hl, houtcome⟩ := kmpMy1Turn_cases hfilled hi hj
      have hstart : i ≤ i' ∧ (i - j : ℤ) ≤ i' - j' ∧ (l = 0 → j' = 0) := by
        obtain ⟨heq, rfl, rfl⟩ | ⟨_, rfl, rfl⟩ := hstarts
        · refine ⟨le_refl i', le_refl _, ?_⟩
          rintro rfl
          exact absurd heq (hl.stops hi hj)
        · exact ⟨Nat.le_succ i, by omega, fun _ => rfl⟩
      obtain rfl | ⟨k, hk, hlt, hrest⟩ := houtcome.result hi h
      · exact Or.inr hstart.2.1
      · obtain hnone | hge :=
          ih (text.chars.length + 1 - (i' + l)) (by omega) (hk.trans hlt) hrest rfl
        · exact Or.inl hnone
        · exact Or.inr (by omega)
    · have hreturns : Returns (fun turns => kmpMy1From text pattern table turns i j) (-1) :=
        Returns.of_succ fun turns => by
          rw [kmpMy1From_succ, if_neg fun hle => hi (le_places.1 hle)]
          rfl
      exact Or.inl (h.unique hreturns)

/-- A run with the right result has begun anew only where it may. -/
theorem mayRestart_of_finds {shift : ℤ} (hpattern : pattern.chars ≠ [])
    (hfilled : Filled pattern.chars table pattern.chars.length)
    (hreturns : Returns (kmpMy1 text pattern table) shift) (hfinds : Finds text pattern shift) :
    MayRestart text pattern table := by
  intro i j hvisits hi hne
  have hrest := hvisits.returns hreturns
  obtain ⟨i', j', l, hstarts, hl, houtcome⟩ :=
    kmpMy1Turn_cases hfilled hi (hvisits.lt_length hpattern hfilled)
  obtain ⟨heq, _⟩ | ⟨_, rfl, rfl⟩ := hstarts
  · exact absurd heq hne
  have hlength := List.length_pos_iff.2 hpattern
  have hpos : 0 < l := by
    cases houtcome with
    | full hfull _ => omega
    | falls _ hpos _ _ _ => omega
    | faults _ enough herror => exact absurd hrest (not_returns_of_fault hi herror)
  have hplace := hl.place hpos
  refine ⟨by omega, hl.agree 0 hpos, fun s hs => ?_⟩
  have hafter : shift = -1 ∨ (i : ℤ) + 1 ≤ shift := by
    obtain hshift | ⟨k, hk, hlt, hnext⟩ := houtcome.result hi hrest
    · exact Or.inr (by omega)
    · obtain hnone | hge := start_le_result hfilled (hk.trans hlt) hnext
      · exact Or.inl hnone
      · exact Or.inr (by omega)
  obtain ⟨first, hshift, hfirst⟩ | ⟨_, hnone⟩ := hfinds
  · have hle := hfirst.2 hs
    omega
  · exact absurd ⟨s, hs⟩ hnone

end CServer.Kmp
