import Mathlib.Data.List.Basic
import Mathlib.Data.List.Infix
import Mathlib.Tactic.Cases

/-!
# Searching a buffer

A pointer into a buffer is the part of the buffer that starts at it. `search`
looks for a key up to a terminator, as for a text that should end in one: it finds
the key, meets the terminator first, or runs off the buffer. `scan` tries a number of
starting places and minds no terminator. Both find the first occurrence,
which `FirstHit` describes without an algorithm.
-/
namespace CServer.Search

variable {α : Type*}

/-- The first occurrence of `key` in `text` is at `rest`, after `before`. -/
structure FirstHit (key text before rest : List α) : Prop where
  split : text = before ++ rest
  hit : key <+: rest
  first : ∀ i < before.length, ¬ key <+: text.drop i

/-- The terminator comes before any occurrence of `key`. -/
def Stopped (stop : α) (key text : List α) : Prop :=
  ∃ before rest, text = before ++ stop :: rest ∧ ∀ i ≤ before.length, ¬ key <+: text.drop i

namespace FirstHit

variable {key text before rest before' rest' : List α} {c : α}

theorem here (h : key <+: text) : FirstHit key text [] text := ⟨rfl, h, by simp⟩

theorem later (hc : ¬ key <+: c :: text) (h : FirstHit key text before rest) :
    FirstHit key (c :: text) (c :: before) rest := by
  refine ⟨by rw [h.split, List.cons_append], h.hit, ?_⟩
  intro i hi
  cases i with
  | zero => exact hc
  | succ i => exact h.first i (by simpa using hi)

theorem drop_before (h : FirstHit key text before rest) : text.drop before.length = rest := by
  rw [h.split, List.drop_left]

theorem length_eq (h : FirstHit key text before rest) :
    text.length = before.length + rest.length := by
  rw [h.split, List.length_append]

/-- A text has one first occurrence. -/
theorem unique (h : FirstHit key text before rest) (h' : FirstHit key text before' rest') :
    before = before' ∧ rest = rest' := by
  have hlen : before.length = before'.length := by
    rcases Nat.lt_trichotomy before.length before'.length with hl | hl | hl
    · have hno := h'.first _ hl
      rw [h.drop_before] at hno
      exact absurd h.hit hno
    · exact hl
    · have hno := h.first _ hl
      rw [h'.drop_before] at hno
      exact absurd h'.hit hno
  exact List.append_inj (h.split.symm.trans h'.split) hlen

/-- A key is found at its first letter when the text before has no such letter. -/
theorem of_head_notMem {a : α} {key : List α} (hb : a ∉ before) (h : a :: key <+: rest) :
    FirstHit (a :: key) (before ++ rest) before rest := by
  refine ⟨rfl, h, ?_⟩
  intro i hi hpre
  rw [List.drop_append_of_le_length hi.le, List.drop_eq_getElem_cons hi, List.cons_append,
    List.cons_prefix_cons] at hpre
  apply hb
  rw [hpre.1]
  exact List.getElem_mem hi

/-- A key that is not in the content is not found across letters it does not have. -/
theorem of_separated {content seps tail : List α} (hc : ¬ key <:+: content) (hs : seps ≠ [])
    (hk : ∀ x ∈ seps, x ∉ key) :
    FirstHit key (content ++ seps ++ (key ++ tail)) (content ++ seps) (key ++ tail) := by
  refine ⟨rfl, List.prefix_append key tail, ?_⟩
  intro i hi hpre
  have hne : key ≠ [] := by
    rintro rfl
    exact hc (List.nil_infix)
  by_cases hic : i < content.length
  · by_cases hin : i + key.length ≤ content.length
    · apply hc
      have hcd : key <+: content.drop i := by
        rw [List.append_assoc, List.drop_append_of_le_length hic.le] at hpre
        refine List.prefix_of_prefix_length_le hpre (List.prefix_append _ _) ?_
        rw [List.length_drop]
        omega
      exact hcd.isInfix.trans (List.drop_suffix i content).isInfix
    · -- the letter of the key that would lie on the first separator
      obtain ⟨s, seps', rfl⟩ := List.exists_cons_of_ne_nil hs
      have hj : content.length - i < key.length := by omega
      have hget := hpre.getElem hj
      rw [List.getElem_drop, List.getElem_append_left (by simp; omega),
        List.getElem_append_right (by omega)] at hget
      have hsk : s ∈ key := by
        have hmem := List.getElem_mem hj
        rw [hget] at hmem
        simpa [show i + (content.length - i) - content.length = 0 by omega] using hmem
      exact hk s List.mem_cons_self hsk
  · have hpos : 0 < key.length := List.length_pos_iff.mpr hne
    have hget := hpre.getElem hpos
    rw [List.getElem_drop, List.getElem_append_left (by simpa using hi),
      List.getElem_append_right (by omega)] at hget
    have hmem := List.getElem_mem hpos
    rw [hget] at hmem
    exact hk _ (List.getElem_mem _) hmem

end FirstHit

section Stopped

variable {stop c : α} {key text : List α}

theorem Stopped.here (h : ¬ key <+: stop :: text) : Stopped stop key (stop :: text) :=
  ⟨[], text, rfl, by simpa using h⟩

theorem Stopped.later (hc : ¬ key <+: c :: text) (h : Stopped stop key text) :
    Stopped stop key (c :: text) := by
  obtain ⟨before, rest, rfl, hno⟩ := h
  refine ⟨c :: before, rest, rfl, ?_⟩
  intro i hi
  cases i with
  | zero => exact hc
  | succ i => exact hno i (by simpa using hi)

/-- A text whose terminator comes first has no occurrence before the terminator. -/
theorem Stopped.not_firstHit (h : Stopped stop key text) {before rest : List α}
    (hit : FirstHit key text before rest) : stop ∈ before := by
  obtain ⟨b, r, heq, hno⟩ := h
  by_contra hmem
  have hle : before.length ≤ b.length := by
    by_contra hlt
    apply hmem
    have hget : (before ++ rest)[b.length]? = some stop := by
      rw [← hit.split, heq]
      simp
    rw [List.getElem?_append_left (by omega)] at hget
    exact List.mem_of_getElem? hget
  apply hno before.length hle
  rw [hit.drop_before]
  exact hit.hit

end Stopped

variable [DecidableEq α]

/-- The outcome of a search: the text before the occurrence and the text from it on. -/
inductive Hit (α : Type*) where
  | found (before rest : List α)
  | absent
  | overrun

def Hit.after (c : α) : Hit α → Hit α
  | .found before rest => .found (c :: before) rest
  | .absent => .absent
  | .overrun => .overrun

/-- Look for `key` up to `stop`. -/
def search (stop : α) (key : List α) : List α → Hit α
  | [] => if key = [] then .found [] [] else .overrun
  | c :: text =>
    if key <+: c :: text then .found [] (c :: text)
    else if c = stop then .absent
    else (search stop key text).after c

/-- Look for `key` at `n` places. -/
def scan (key : List α) : ℕ → List α → Option (List α × List α)
  | 0, _ => none
  | n + 1, text =>
    if key <+: text then some ([], text)
    else match text with
      | [] => none
      | c :: text => (scan key n text).map (fun hit => (c :: hit.1, hit.2))

section search

variable {stop : α} {key text : List α}

/-- What each outcome of a search says about the text. -/
def Hit.Holds (stop : α) (key text : List α) : Hit α → Prop
  | .found before rest => FirstHit key text before rest ∧ stop ∉ before
  | .absent => Stopped stop key text
  | .overrun => stop ∉ text ∧ ∀ i, ¬ key <+: text.drop i

theorem search_holds : (search stop key text).Holds stop key text := by
  induction text with
  | nil =>
    rw [search]
    by_cases hk : key = []
    · subst hk
      exact ⟨.here List.nil_prefix, by simp⟩
    · rw [if_neg hk]
      exact ⟨by simp, by simpa using hk⟩
  | cons c text ih =>
    rw [search]
    by_cases hk : key <+: c :: text
    · rw [if_pos hk]
      exact ⟨.here hk, by simp⟩
    · rw [if_neg hk]
      by_cases hc : c = stop
      · subst hc
        rw [if_pos rfl]
        exact Stopped.here hk
      · rw [if_neg hc]
        cases hs : search stop key text with
        | found before rest =>
          rw [hs] at ih
          exact ⟨ih.1.later hk, by simp [Ne.symm hc, ih.2]⟩
        | absent =>
          rw [hs] at ih
          exact Stopped.later hk ih
        | overrun =>
          rw [hs] at ih
          refine ⟨by simp [Ne.symm hc, ih.1], ?_⟩
          intro i
          cases i with
          | zero => exact hk
          | succ i => exact ih.2 i

theorem search_eq_found_iff {before rest : List α} :
    search stop key text = .found before rest ↔
      FirstHit key text before rest ∧ stop ∉ before := by
  have hholds : (search stop key text).Holds stop key text := search_holds
  constructor
  · intro h
    rwa [h] at hholds
  · rintro ⟨hit, hstop⟩
    cases hs : search stop key text with
    | found before' rest' =>
      rw [hs] at hholds
      obtain ⟨rfl, rfl⟩ := hit.unique hholds.1
      rfl
    | absent =>
      rw [hs] at hholds
      exact absurd (hholds.not_firstHit hit) hstop
    | overrun =>
      rw [hs] at hholds
      have hno := hholds.2 before.length
      rw [hit.drop_before] at hno
      exact absurd hit.hit hno

theorem search_eq_absent_iff : search stop key text = .absent ↔ Stopped stop key text := by
  have hholds : (search stop key text).Holds stop key text := search_holds
  constructor
  · intro h
    rwa [h] at hholds
  · intro h
    cases hs : search stop key text with
    | found before rest =>
      rw [hs] at hholds
      exact absurd (h.not_firstHit hholds.1) hholds.2
    | absent => rfl
    | overrun =>
      rw [hs] at hholds
      obtain ⟨before, rest, rfl, -⟩ := h
      exact absurd (by simp) hholds.1

end search

section scan

variable {key text : List α} {n : ℕ}

theorem scan_eq_some_iff {before rest : List α} :
    scan key n text = some (before, rest) ↔
      FirstHit key text before rest ∧ before.length < n := by
  induction n generalizing text before rest with
  | zero => simp [scan]
  | succ n ih =>
    rw [scan.eq_def]
    by_cases hk : key <+: text
    · simp only [if_pos hk, Option.some.injEq, Prod.mk.injEq]
      constructor
      · rintro ⟨rfl, rfl⟩
        exact ⟨.here hk, Nat.succ_pos n⟩
      · rintro ⟨hit, -⟩
        exact (FirstHit.here hk).unique hit
    · simp only [if_neg hk]
      cases text with
      | nil =>
        constructor
        · intro h
          cases h
        · rintro ⟨hit, -⟩
          obtain ⟨rfl, rfl⟩ := List.append_eq_nil_iff.mp hit.split.symm
          exact absurd hit.hit hk
      | cons c text =>
        simp only [Option.map_eq_some_iff, Prod.mk.injEq, Prod.exists, ih]
        constructor
        · rintro ⟨b, r, ⟨hit, hlen⟩, rfl, rfl⟩
          exact ⟨hit.later hk, by simpa using hlen⟩
        · rintro ⟨hit, hlen⟩
          cases before with
          | nil =>
            have hrest : c :: text = rest := hit.split
            exact absurd (hrest ▸ hit.hit) hk
          | cons d before =>
            obtain ⟨rfl, hsplit⟩ := List.cons_eq_cons.mp hit.split
            refine ⟨before, rest, ⟨⟨hsplit, hit.hit, ?_⟩, by simpa using hlen⟩, rfl, rfl⟩
            intro i hi
            exact hit.first (i + 1) (by simpa using hi)

theorem scan_eq_none_iff :
    scan key n text = none ↔ ∀ i < n, i ≤ text.length → ¬ key <+: text.drop i := by
  induction n generalizing text with
  | zero => simp [scan]
  | succ n ih =>
    rw [scan.eq_def]
    by_cases hk : key <+: text
    · simp only [if_pos hk]
      constructor
      · intro h
        cases h
      · intro h
        exact absurd hk (h 0 (Nat.succ_pos n) (Nat.zero_le _))
    · simp only [if_neg hk]
      cases text with
      | nil =>
        constructor
        · intro _ i _ hi
          have hi0 : i = 0 := by simpa using hi
          subst hi0
          exact hk
        · intro _
          rfl
      | cons c text =>
        simp only [Option.map_eq_none_iff, ih]
        constructor
        · intro h i hi hlen
          cases i with
          | zero => exact hk
          | succ i => exact h i (by omega) (by simpa using hlen)
        · intro h i hi hlen
          exact h (i + 1) (by omega) (by simpa using hlen)

end scan

end CServer.Search
