import CServer.Foundation.CStrings
import Mathlib.Tactic.Cases

/-!
# Replacing in place

`str_replace` of util_cgi.c on a buffer. An `int` holds the length of every text, and `malloc` gives
memory. At each hit the rest of the text is put aside, so that the buffer holds the part that is done,
with its replacements, and then what is still to be searched.
-/
namespace CServer.CgiStrings

open CStrings

/-- The loop of `str_replace` with the pointer at `strSrc`. -/
def strReplaceFrom (strFind strReplace : Bytes) : ℕ → Bytes → ℕ → Except Fault Bytes
  | 0, _, _ => .error .endless
  | turns + 1, b, strSrc => do
    let c ← load b strSrc
    if c ≠ 0 then
      if c = strFind.headD 0 then
        -- `strncmp` of as many characters as `strFind` has
        if strFind.isPrefixOf (b.drop strSrc) then
          let temp ← textAt b (strSrc + strFind.length)
          let b ← copyTo strReplace b strSrc
          let strSrc := strSrc + strReplace.length
          let b ← copyTo temp b strSrc
          let b ← store b (strSrc + temp.length) 0
          strReplaceFrom strFind strReplace turns b strSrc
        else strReplaceFrom strFind strReplace turns b (strSrc + 1)
      else strReplaceFrom strFind strReplace turns b (strSrc + 1)
    else .ok b

def strReplace (turns : ℕ) (b strFind strReplace : Bytes) : Except Fault Bytes :=
  strReplaceFrom strFind strReplace turns b 0

/-- Every leftmost occurrence that does not overlap an earlier one is replaced. -/
def replaceAll (find repl : Bytes) : Bytes → Bytes
  | [] => []
  | c :: rest =>
    if find ≠ [] ∧ find <+: c :: rest then
      repl ++ replaceAll find repl ((c :: rest).drop find.length)
    else c :: replaceAll find repl rest
termination_by text => text.length
decreasing_by
  · rename_i h
    have hpos := List.length_pos_iff.mpr h.1
    simp only [List.length_drop, List.length_cons]
    omega
  · simp

variable {find repl text rest done junk b : Bytes} {c : UInt8}

theorem replaceAll_cons (find repl : Bytes) (c : UInt8) (rest : Bytes) :
    replaceAll find repl (c :: rest) =
      if find ≠ [] ∧ find <+: c :: rest then
        repl ++ replaceAll find repl ((c :: rest).drop find.length)
      else c :: replaceAll find repl rest := by
  rw [replaceAll]

theorem replaceAll_hit (h : find ≠ []) :
    replaceAll find repl (find ++ rest) = repl ++ replaceAll find repl rest := by
  obtain ⟨c, tail, rfl⟩ := List.exists_cons_of_ne_nil h
  rw [List.cons_append, replaceAll_cons, if_pos ⟨h, List.prefix_append _ _⟩, ← List.cons_append,
    List.drop_left]

theorem replaceAll_miss (repl : Bytes) (h : ¬(find ≠ [] ∧ find <+: c :: rest)) :
    replaceAll find repl (c :: rest) = c :: replaceAll find repl rest := by
  rw [replaceAll_cons, if_neg h]

/-- Nothing is replaced for an empty text. -/
theorem replaceAll_nil (repl text : Bytes) : replaceAll [] repl text = text := by
  induction text with
  | nil => simp [replaceAll]
  | cons c rest ih => rw [replaceAll_miss repl (by simp), ih]

/-- A replacement that is not shorter does not make a text shorter. -/
theorem length_le_replaceAll (h : find.length ≤ repl.length) (text : Bytes) :
    text.length ≤ (replaceAll find repl text).length := by
  induction text using replaceAll.induct find with
  | case1 => simp
  | case2 c rest hit ih =>
    rw [replaceAll_cons, if_pos hit, List.length_append]
    rw [List.length_drop] at ih
    omega
  | case3 c rest miss ih =>
    rw [replaceAll_miss repl miss, List.length_cons, List.length_cons]
    omega

/-- A hit: the replacement stands where the text to find was, and the rest follows it. -/
theorem hit_writes (hzero : 0 ∉ rest) (hroom : done.length + repl.length + rest.length <
      (done ++ (find ++ (rest ++ 0 :: junk))).length) :
    ∃ junk', (∀ next : Bytes → Except Fault Bytes, (do
        let temp ← textAt (done ++ (find ++ (rest ++ 0 :: junk))) (done.length + find.length)
        let b ← copyTo repl (done ++ (find ++ (rest ++ 0 :: junk))) done.length
        let b ← copyTo temp b (done.length + repl.length)
        let b ← store b (done.length + repl.length + temp.length) 0
        next b) = next (done ++ repl ++ (rest ++ 0 :: junk'))) ∧
      (done ++ repl ++ (rest ++ 0 :: junk')).length =
        (done ++ (find ++ (rest ++ 0 :: junk))).length := by
  have hread : textAt (done ++ (find ++ (rest ++ 0 :: junk))) (done.length + find.length) =
      .ok rest := by
    rw [← List.append_assoc, ← List.length_append]
    exact textAt_append hzero
  generalize find ++ (rest ++ 0 :: junk) = tail at hread hroom ⊢
  rw [List.length_append] at hroom
  have hfirst := copyTo_append done (show repl.length ≤ tail.length by omega)
  have hsecond := copyTo_append (done ++ repl)
    (show rest.length ≤ (tail.drop repl.length).length by rw [List.length_drop]; omega)
  have hlonger : 0 < ((tail.drop repl.length).drop rest.length).length := by
    rw [List.length_drop, List.length_drop]
    omega
  obtain ⟨y, junk', hleft⟩ := List.exists_cons_of_length_pos hlonger
  rw [hleft, List.length_append] at hsecond
  have hlast := store_append (done ++ repl ++ rest) junk' 0 y
  rw [List.length_append, List.length_append] at hlast
  refine ⟨junk', fun next => ?_, ?_⟩
  · rw [hread, ok_bind, hfirst, ok_bind, hsecond, ok_bind, hlast, ok_bind, List.append_assoc _ rest]
  · have hlength := congrArg List.length hleft
    rw [List.length_drop, List.length_drop, List.length_cons] at hlength
    simp only [List.length_append, List.length_cons]
    omega

/-- A text without a zero is not found across the end of another one. -/
theorem prefix_of_prefix_terminated (hfind : 0 ∉ find) (h : find <+: text ++ 0 :: junk) :
    find <+: text := by
  rcases List.prefix_or_prefix_of_prefix h (List.prefix_append text (0 :: junk)) with hin | hout
  · exact hin
  · obtain ⟨t, rfl⟩ := hout
    cases t with
    | nil => simp
    | cons c t =>
      have hhead : c :: t <+: 0 :: junk := (List.prefix_append_right_inj text).mp h
      obtain ⟨rfl, -⟩ := List.cons_prefix_cons.mp hhead
      exact absurd (by simp) hfind

/-- What is done, and what is still to be searched, in a buffer that has room for the result. -/
theorem strReplaceFrom_spec (find repl : Bytes) (hfind : 0 ∉ find) (rest : Bytes)
    (hrest : 0 ∉ rest) (done junk : Bytes)
    (hroom : done.length + (replaceAll find repl rest).length <
      (done ++ (rest ++ 0 :: junk)).length) :
    ∃ junk', Returns (fun turns => strReplaceFrom find repl turns (done ++ (rest ++ 0 :: junk))
        done.length) (done ++ replaceAll find repl rest ++ 0 :: junk') ∧
      (done ++ replaceAll find repl rest ++ 0 :: junk').length =
        (done ++ (rest ++ 0 :: junk)).length := by
  induction rest using replaceAll.induct find generalizing done junk with
  | case1 =>
    refine ⟨junk, Returns.of_succ fun turns => ?_, by simp [replaceAll]⟩
    rw [strReplaceFrom, List.nil_append, load_append, ok_bind]
    simp [replaceAll]
  | case2 c rest hit ih =>
    obtain ⟨hne, behind, hsplit⟩ := hit
    have hbehind : (c :: rest).drop find.length = behind := by rw [← hsplit, List.drop_left]
    rw [hbehind] at ih
    have hresult : replaceAll find repl (c :: rest) = repl ++ replaceAll find repl behind := by
      rw [← hsplit, replaceAll_hit hne]
    have hzero : 0 ∉ behind := by
      intro hmem
      exact hrest (hsplit ▸ List.mem_append_right find hmem)
    have hbuffer : done ++ (c :: rest ++ 0 :: junk) = done ++ (find ++ (behind ++ 0 :: junk)) := by
      rw [← hsplit, List.append_assoc]
    have hbetween : done.length + repl.length + behind.length <
        (done ++ (find ++ (behind ++ 0 :: junk))).length := by
      rw [hresult, hbuffer, List.length_append] at hroom
      by_cases hshort : find.length ≤ repl.length
      · have hle := length_le_replaceAll hshort behind
        omega
      · simp only [List.length_append, List.length_cons]
        omega
    obtain ⟨junk₁, hwrites, hlength⟩ := hit_writes hzero hbetween
    obtain ⟨junk₂, hreturns, hkept⟩ := ih hzero (done ++ repl) junk₁ (by
      rw [hlength, ← hbuffer, List.length_append, Nat.add_assoc, ← List.length_append, ← hresult]
      exact hroom)
    have hjoin : done ++ repl ++ replaceAll find repl behind =
        done ++ replaceAll find repl (c :: rest) := by rw [hresult, List.append_assoc]
    rw [hjoin] at hreturns hkept
    have hc : c ≠ 0 := fun heq => hrest (heq ▸ List.mem_cons_self)
    have hhead : c = find.headD 0 := by
      obtain ⟨f, fs, rfl⟩ := List.exists_cons_of_ne_nil hne
      exact (List.cons.inj hsplit).1.symm
    refine ⟨junk₂, hreturns.succ fun turns => ?_, ?_⟩
    · have hload : load (done ++ (c :: rest ++ 0 :: junk)) done.length = .ok c := load_append
      have hprefix :
          find.isPrefixOf ((done ++ (c :: rest ++ 0 :: junk)).drop done.length) = true := by
        rw [List.drop_left, ← hsplit, List.append_assoc]
        exact List.isPrefixOf_iff_prefix.mpr (List.prefix_append _ _)
      rw [strReplaceFrom, hload, ok_bind, if_pos hc, if_pos hhead, if_pos hprefix, hbuffer,
        List.length_append]
      exact hwrites _
    · rw [hkept, hlength, hbuffer]
  | case3 c rest miss ih =>
    have hresult := replaceAll_miss repl miss
    obtain ⟨junk', hreturns, hkept⟩ := ih (fun hmem => hrest (List.mem_cons_of_mem c hmem))
      (done ++ [c]) junk (by
        rw [hresult] at hroom
        simp only [List.length_append, List.length_cons, List.length_nil] at hroom ⊢
        omega)
    have hc : c ≠ 0 := fun heq => hrest (heq ▸ List.mem_cons_self)
    have hload : load (done ++ (c :: rest ++ 0 :: junk)) done.length = .ok c := load_append
    have hshift : done ++ [c] ++ (rest ++ 0 :: junk) = done ++ (c :: rest ++ 0 :: junk) := by simp
    have hmoved : done ++ [c] ++ replaceAll find repl rest =
        done ++ replaceAll find repl (c :: rest) := by simp [hresult]
    rw [hshift, hmoved] at hkept
    rw [hshift, hmoved, List.length_append] at hreturns
    refine ⟨junk', hreturns.succ fun turns => ?_, hkept⟩
    rw [strReplaceFrom, hload, ok_bind, if_pos hc]
    by_cases hhead : c = find.headD 0
    · have hprefix :
          ¬find.isPrefixOf ((done ++ (c :: rest ++ 0 :: junk)).drop done.length) = true := by
        rw [List.drop_left, List.isPrefixOf_iff_prefix]
        intro hfound
        refine miss ⟨?_, prefix_of_prefix_terminated hfind hfound⟩
        rintro rfl
        exact hc hhead
      rw [if_pos hhead, if_neg hprefix]
      rfl
    · rw [if_neg hhead]
      rfl

theorem zero_notMem_replaceAll (hrepl : 0 ∉ repl) (h : 0 ∉ text) :
    0 ∉ replaceAll find repl text := by
  induction text using replaceAll.induct find with
  | case1 => simp [replaceAll]
  | case2 c rest hit ih =>
    rw [replaceAll_cons, if_pos hit, List.mem_append, not_or]
    exact ⟨hrepl, ih fun hmem => h (List.mem_of_mem_drop hmem)⟩
  | case3 c rest miss ih =>
    rw [replaceAll_miss repl miss, List.mem_cons, not_or]
    rw [List.mem_cons, not_or] at h
    exact ⟨h.1, ih h.2⟩

/-- An empty text is found nowhere. -/
theorem strReplaceFrom_nil (repl rest : Bytes) (hrest : 0 ∉ rest) (done junk : Bytes) :
    Returns (fun turns => strReplaceFrom [] repl turns (done ++ (rest ++ 0 :: junk)) done.length)
      (done ++ (rest ++ 0 :: junk)) := by
  induction rest generalizing done with
  | nil =>
    refine Returns.of_succ fun turns => ?_
    rw [strReplaceFrom, List.nil_append, load_append, ok_bind]
    rfl
  | cons c rest ih =>
    have hreturns := ih (fun hmem => hrest (List.mem_cons_of_mem c hmem)) (done ++ [c])
    have hshift : done ++ [c] ++ (rest ++ 0 :: junk) = done ++ (c :: rest ++ 0 :: junk) := by simp
    have hload : load (done ++ (c :: rest ++ 0 :: junk)) done.length = .ok c := load_append
    have hc : c ≠ 0 := fun heq => hrest (heq ▸ List.mem_cons_self)
    rw [hshift, List.length_append] at hreturns
    refine hreturns.succ fun turns => ?_
    rw [strReplaceFrom, hload, ok_bind, if_pos hc, if_neg (show ¬c = List.headD [] 0 from hc)]
    rfl

end CServer.CgiStrings
