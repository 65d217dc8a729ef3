import CServer.CgiStrings.HmsetCommand
import CServer.CgiStrings.Query
import CServer.CloudDisk.Handlers
import CServer.CloudDisk.Upload

/-!
# The suffix of a file name

`get_file_suffix` of util_cgi.c. The memory of a name ends with its terminator, so that every read
behind it is a fault, and `len` holds every length.
-/
namespace CServer.CgiStrings

open CStrings

def suffixLen : ℕ := 8

/-- At most so many characters are copied, and zeros up to this number follow them. -/
def strncpy (dest src : Bytes) (n : ℕ) : Except Fault Bytes := do
  let part ← readAtMost n src
  copyTo (part ++ List.replicate (n - part.length) 0) dest 0

/-- The loop that looks for the end, on the part of the name from `q` on. -/
def scanEnd : Bytes → ℕ → Except Fault ℕ
  | [], _ => .error .outside
  | c :: rest, q => if c ≠ 0 then scanEnd rest (q + 1) else .ok q

/-- The loop that goes back to a dot, or to `p`, which is the place 0. -/
def scanDot (p : Bytes) : ℕ → Except Fault ℕ
  | 0 => do
    let _ ← load p 0
    .ok 0
  | k + 1 => do
    let c ← load p (k + 1)
    if c ≠ 46 then scanDot p k else .ok (k + 1)

/-- The letters of `null`, and a terminator. -/
def null : Bytes := [110, 117, 108, 108, 0]

def getFileSuffix (fileName : Option Bytes) (suffix : Bytes) : Except Fault (ℤ × Bytes) :=
  match fileName with
  | none => .ok (-1, suffix)
  | some p => do
    let q ← scanEnd p 0
    let k ← scanDot p q
    let c ← load p k
    if c = 46 then
      let k := k + 1
      let len := q - k
      if len ≠ 0 then
        let suffix ← strncpy suffix (p.drop k) len
        let suffix ← store suffix len 0
        .ok (0, suffix)
      else
        let suffix ← strncpy suffix null 5
        .ok (0, suffix)
    else
      let suffix ← strncpy suffix null 5
      .ok (0, suffix)

/-- What follows the last dot, or the whole name if there is none. -/
def lastPart (name : Bytes) : Bytes := name.rtakeWhile (· ≠ 46)

/-- The text after the last dot, `null` when there is no dot or nothing follows it. -/
def suffixOf (name : Bytes) : Bytes :=
  if 46 ∈ name ∧ lastPart name ≠ [] then lastPart name else textOf null

/-- The call reads inside the name and leaves its suffix in the buffer. -/
def Writes (name suffix : Bytes) : Prop :=
  ∃ behind, getFileSuffix (some (name ++ [0])) suffix = .ok (0, suffixOf name ++ 0 :: behind)

variable {p name front tail suffix : Bytes} {k n : ℕ}

/-! ## The two loops -/

theorem scanEnd_eq (hname : 0 ∉ name) (q : ℕ) : scanEnd (name ++ [0]) q = .ok (q + name.length) := by
  induction name generalizing q with
  | nil => rfl
  | cons c name ih =>
    rw [List.mem_cons, not_or] at hname
    rw [List.cons_append, scanEnd, if_pos (Ne.symm hname.1), ih hname.2, List.length_cons,
      Nat.add_right_comm, Nat.add_assoc]

/-- The scan goes back over what is not a dot. -/
theorem scanDot_add (h : ∀ i, k < i → i ≤ k + n → ∃ c, load p i = .ok c ∧ c ≠ 46) :
    scanDot p (k + n) = scanDot p k := by
  induction n with
  | zero => rfl
  | succ n ih =>
    obtain ⟨c, hload, hc⟩ := h (k + n + 1) (by omega) (by omega)
    rw [← Nat.add_assoc, scanDot, hload, ok_bind, if_pos hc]
    exact ih fun i hk hi => h i hk (by omega)

theorem scanDot_stop (h : load p k = .ok 46) : scanDot p k = .ok k := by
  cases k with
  | zero => rw [scanDot, h, ok_bind]
  | succ k =>
    rw [scanDot, h, ok_bind]
    rfl

theorem load_mem {back : Bytes} {i : ℕ} (hfirst : front.length ≤ i)
    (hlast : i < front.length + back.length) : ∃ c ∈ back, load (front ++ back) i = .ok c := by
  have hlt : i - front.length < back.length := by omega
  refine ⟨_, List.getElem_mem hlt, ?_⟩
  rw [load, List.getElem?_append_right hfirst, List.getElem?_eq_getElem hlt]

theorem ne_dot_of_mem {c : UInt8} (h : 46 ∉ tail) (hc : c ∈ tail ++ [0]) : c ≠ 46 := by
  rintro rfl
  rcases List.mem_append.mp hc with hmem | hmem
  · exact h hmem
  · exact absurd (List.mem_singleton.mp hmem) (by decide)

/-- The last dot is found. -/
theorem scanDot_dot (h : 46 ∉ tail) :
    scanDot (front ++ 46 :: tail ++ [0]) (front ++ 46 :: tail).length = .ok front.length := by
  have hsplit : front ++ 46 :: tail ++ [0] = (front ++ [46]) ++ (tail ++ [0]) := by simp
  have hplace : (front ++ 46 :: tail).length = front.length + (tail.length + 1) := by simp
  have hback : ∀ i, front.length < i → i ≤ front.length + (tail.length + 1) →
      ∃ c, load ((front ++ [46]) ++ (tail ++ [0])) i = .ok c ∧ c ≠ 46 := by
    intro i hfirst hlast
    obtain ⟨c, hmem, hload⟩ := @load_mem (front ++ [46]) (tail ++ [0]) i
      (by simp; omega) (by simp; omega)
    exact ⟨c, hload, ne_dot_of_mem h hmem⟩
  have hload : load (front ++ [46] ++ (tail ++ [0])) front.length = .ok 46 := by
    rw [List.append_assoc]
    exact load_append
  rw [hsplit, hplace, scanDot_add hback, scanDot_stop hload]

/-- Without a dot the scan goes back to the first character. -/
theorem scanDot_none (h : 46 ∉ name) : scanDot (name ++ [0]) name.length = .ok 0 := by
  have hback : ∀ i, i < name.length + 1 → ∃ c, load (name ++ [0]) i = .ok c ∧ c ≠ 46 := by
    intro i hi
    obtain ⟨c, hmem, hload⟩ := @load_mem [] (name ++ [0]) i (Nat.zero_le i) (by simp; omega)
    exact ⟨c, hload, ne_dot_of_mem h hmem⟩
  obtain ⟨c, hload, -⟩ := hback 0 (Nat.succ_pos _)
  rw [← Nat.zero_add name.length, scanDot_add fun i _ hi => hback i (by omega), scanDot, hload]
  rfl

/-! ## The copies -/

theorem strncpy_null (h : 5 ≤ suffix.length) :
    ∃ behind, strncpy suffix null 5 = .ok (textOf null ++ 0 :: behind) := by
  have hcopy := copyTo_append [] (show null.length ≤ suffix.length from h)
  exact ⟨suffix.drop 5, hcopy⟩

/-- The characters behind the dot, up to the terminator. -/
theorem strncpy_tail (h : 0 ∉ tail) (suffix : Bytes) :
    strncpy suffix (tail ++ [0]) tail.length = copyTo tail suffix 0 := by
  have htext : textOf (tail ++ [0]) = tail := textOf_append_zero h
  have hread : readAtMost tail.length (tail ++ [0]) = .ok (textOf (tail ++ [0])) :=
    readAtMost_eq (by simp) (by rw [htext])
  rw [strncpy, hread, ok_bind, htext, Nat.sub_self, List.replicate_zero, List.append_nil]

/-! ## The call -/

theorem getFileSuffix_none (hname : 0 ∉ name) (h : 46 ∉ name) (suffix : Bytes) :
    getFileSuffix (some (name ++ [0])) suffix =
      strncpy suffix null 5 >>= fun suffix => .ok (0, suffix) := by
  obtain ⟨c, hmem, hload⟩ := @load_mem [] (name ++ [0]) 0 (Nat.zero_le 0) (by simp)
  have hc := ne_dot_of_mem h hmem
  rw [List.nil_append] at hload
  rw [getFileSuffix]
  simp only [scanEnd_eq hname, Nat.zero_add, scanDot_none h, hload, ok_bind, if_neg hc]

theorem getFileSuffix_dot (hname : 0 ∉ front ++ 46 :: tail) (h : 46 ∉ tail) (suffix : Bytes) :
    getFileSuffix (some (front ++ 46 :: tail ++ [0])) suffix =
      if tail ≠ [] then
        (copyTo tail suffix 0 >>= fun suffix => store suffix tail.length 0) >>=
          fun suffix => .ok (0, suffix)
      else strncpy suffix null 5 >>= fun suffix => .ok (0, suffix) := by
  have htail : 0 ∉ tail := fun hmem => hname (by simp [hmem])
  have hload : load (front ++ 46 :: tail ++ [0]) front.length = .ok 46 := by
    rw [List.append_assoc]
    exact load_append
  have hdrop : (front ++ 46 :: tail ++ [0]).drop (front.length + 1) = tail ++ [0] := by simp
  have hlen : (front ++ 46 :: tail).length - (front.length + 1) = tail.length := by
    rw [List.length_append, List.length_cons]
    omega
  rw [getFileSuffix]
  simp only [scanEnd_eq hname, Nat.zero_add, scanDot_dot h, hload, ok_bind, if_true, hdrop, hlen,
    strncpy_tail htail, ne_eq, List.length_eq_zero_iff, bind_assoc]

/-! ## The result -/

theorem lastPart_dot (h : 46 ∉ tail) : lastPart (front ++ 46 :: tail) = tail := by
  have hreverse : (front ++ 46 :: tail).reverse = tail.reverse ++ 46 :: front.reverse := by simp
  have hnot : 46 ∉ tail.reverse := fun hmem => h (List.mem_reverse.mp hmem)
  rw [lastPart, List.rtakeWhile, hreverse, takeWhile_ne_append hnot, List.reverse_reverse]

theorem exists_last_dot (h : 46 ∈ name) : ∃ front tail, name = front ++ 46 :: tail ∧ 46 ∉ tail := by
  obtain ⟨tail, front, hreverse, hnot⟩ := List.eq_append_cons_of_mem (List.mem_reverse.mpr h)
  refine ⟨front.reverse, tail.reverse, ?_, fun hmem => hnot (List.mem_reverse.mp hmem)⟩
  rw [← List.reverse_reverse name, hreverse]
  simp

theorem writes_null (h : 5 ≤ suffix.length) (hsuffix : suffixOf name = textOf null)
    (hcall : getFileSuffix (some (name ++ [0])) suffix =
      strncpy suffix null 5 >>= fun suffix => .ok (0, suffix)) : Writes name suffix := by
  obtain ⟨behind, hcopy⟩ := strncpy_null h
  refine ⟨behind, ?_⟩
  rw [hcall, hcopy, ok_bind, hsuffix]

/-- The suffix is written exactly when the buffer has room for it. -/
theorem writes_iff (hname : 0 ∉ name) (hsuffix : 5 ≤ suffix.length) :
    Writes name suffix ↔ (46 ∈ name → (lastPart name).length < suffix.length) := by
  by_cases hdot : 46 ∈ name
  · obtain ⟨front, tail, rfl, htail⟩ := exists_last_dot hdot
    have hcall := getFileSuffix_dot hname htail suffix
    rw [lastPart_dot htail, forall_prop_of_true hdot]
    by_cases hempty : tail = []
    · rw [if_neg (not_not.mpr hempty)] at hcall
      refine iff_of_true (writes_null hsuffix ?_ hcall) (by rw [hempty, List.length_nil]; omega)
      rw [suffixOf, if_neg (fun h => h.2 ((lastPart_dot htail).trans hempty))]
    · have hmeant : suffixOf (front ++ 46 :: tail) = tail := by
        rw [suffixOf, lastPart_dot htail, if_pos ⟨hdot, hempty⟩]
      rw [if_pos hempty] at hcall
      rw [Writes, hcall, hmeant]
      rcases copy_terminated tail suffix with ⟨behind, hlt, hcopy⟩ | ⟨hle, hcopy⟩
      · exact iff_of_true ⟨behind, by rw [hcopy, ok_bind]⟩ hlt
      · refine iff_of_false ?_ (Nat.not_lt.mpr hle)
        rintro ⟨behind, hreturns⟩
        rw [hcopy, error_bind] at hreturns
        simp at hreturns
  · refine iff_of_true ?_ fun h => absurd h hdot
    refine writes_null hsuffix ?_ (getFileSuffix_none hname hdot suffix)
    rw [suffixOf, if_neg fun h => hdot h.1]

/-! ## The suffix in the tables -/

/-- A dot among the characters below 256 is a dot among their bytes. -/
theorem byte_eq_dot {c : Char} (hc : c.toNat < 256) : UInt8.ofNat c.toNat = 46 ↔ c = '.' := by
  have hbyte : (UInt8.ofNat c.toNat).toNat = c.toNat := UInt8.toNat_ofNat_of_lt' hc
  rw [← UInt8.toNat_inj, hbyte, ← Char.toNat_inj]
  rfl

theorem dot_mem_bytes {cs : List Char} (hcs : ∀ c ∈ cs, c.toNat < 256) :
    46 ∈ cs.map (fun c => UInt8.ofNat c.toNat) ↔ '.' ∈ cs := by
  rw [List.mem_map]
  constructor
  · rintro ⟨c, hc, hbyte⟩
    rwa [← (byte_eq_dot (hcs c hc)).mp hbyte]
  · intro h
    exact ⟨'.', h, rfl⟩

theorem takeWhile_bytes {cs : List Char} (hcs : ∀ c ∈ cs, c.toNat < 256) :
    (cs.map fun c => UInt8.ofNat c.toNat).takeWhile (· ≠ 46) =
      (cs.takeWhile (· ≠ '.')).map fun c => UInt8.ofNat c.toNat := by
  induction cs with
  | nil => rfl
  | cons c cs ih =>
    obtain ⟨hc, hrest⟩ := List.forall_mem_cons.mp hcs
    by_cases hdot : c = '.'
    · rw [List.map_cons, List.takeWhile_cons_of_neg (by simpa using (byte_eq_dot hc).mpr hdot),
        List.takeWhile_cons_of_neg (by simpa using hdot), List.map_nil]
    · have hbyte : UInt8.ofNat c.toNat ≠ 46 := fun h => hdot ((byte_eq_dot hc).mp h)
      rw [List.map_cons, List.takeWhile_cons_of_pos (by simpa using hbyte),
        List.takeWhile_cons_of_pos (by simpa using hdot), List.map_cons, ih hrest]

theorem lastPart_bytes {cs : List Char} (hcs : ∀ c ∈ cs, c.toNat < 256) :
    lastPart (cs.map fun c => UInt8.ofNat c.toNat) =
      ((cs.reverse.takeWhile (· ≠ '.')).reverse.map fun c => UInt8.ofNat c.toNat) := by
  have hreverse : ∀ c ∈ cs.reverse, c.toNat < 256 := fun c hc => hcs c (List.mem_reverse.mp hc)
  rw [lastPart, List.rtakeWhile, ← List.map_reverse, takeWhile_bytes hreverse, ← List.map_reverse]

/-- The scan from the end goes over the whole name exactly when there is no dot. -/
theorem whole_iff (cs : List Char) :
    (cs.reverse.takeWhile (· ≠ '.')).length = cs.length ↔ '.' ∉ cs := by
  have hsame : cs.length = cs.reverse.length := List.length_reverse.symm
  rw [hsame, ← List.mem_reverse]
  constructor
  · intro hlength hmem
    have hall := (List.takeWhile_prefix _).eq_of_length hlength
    have hpass := List.takeWhile_eq_self_iff.mp hall '.' hmem
    exact absurd hpass (by decide)
  · intro hnot
    rw [List.takeWhile_eq_self_iff.mpr (passes_of_notMem hnot)]

/-- The type that is stored with a file is the suffix of its name. -/
theorem suffixOf_bytes {s : String} (hs : ∀ c ∈ s.toList, c.toNat < 256) :
    suffixOf (CloudDisk.bytes s) = CloudDisk.bytes (CloudDisk.getFileSuffix s) := by
  have hnull : textOf null = CloudDisk.bytes "null" := by decide
  have hpart := lastPart_bytes hs
  have hdot := dot_mem_bytes hs
  have hwhole := whole_iff s.toList
  rw [CloudDisk.getFileSuffix, suffixOf, CloudDisk.bytes]
  by_cases h : (s.toList.reverse.takeWhile (· ≠ '.')).length = s.toList.length ∨
      s.toList.reverse.takeWhile (· ≠ '.') = []
  · rw [if_pos h, if_neg, hnull]
    rintro ⟨hmem, hnonempty⟩
    rcases h with hlength | hempty
    · exact hwhole.mp hlength (hdot.mp hmem)
    · rw [hpart, hempty] at hnonempty
      exact hnonempty rfl
  · obtain ⟨hlength, hnonempty⟩ := not_or.mp h
    have hmem : '.' ∈ s.toList := not_not.mp fun hnot => hlength (hwhole.mpr hnot)
    rw [if_neg h, if_pos, hpart, CloudDisk.bytes, String.toList_ofList]
    rw [hpart]
    exact ⟨hdot.mpr hmem, by simpa using hnonempty⟩

/-! ## In the buffer -/

/-- In the buffer of `store_fileinfo_to_mysql` the suffix is written exactly when fewer than 8
characters follow the last dot. In a buffer that is large enough it is written always. -/
theorem get_file_suffix_writes_iff (name : Bytes) (hname : 0 ∉ name) :
    (∀ suffix : Bytes, suffix.length = suffixLen →
      (Writes name suffix ↔ (46 ∈ name → (lastPart name).length < suffixLen))) ∧
    ∀ suffix : Bytes, name.length + 4 < suffix.length → Writes name suffix := by
  constructor
  · intro suffix hsuffix
    have hroom : 5 ≤ suffix.length := by
      rw [hsuffix]
      decide
    have hiff := writes_iff hname hroom
    rwa [hsuffix] at hiff
  · intro suffix hlarge
    refine (writes_iff hname (by omega)).mpr fun _ => ?_
    have hpart : (lastPart name).length ≤ name.length := (List.rtakeWhile_suffix _ _).length_le
    omega

/-- The name `mike.doc.png`. -/
theorem get_file_suffix_writes_png :
    Writes [109, 105, 107, 101, 46, 100, 111, 99, 46, 112, 110, 103] (List.replicate 8 0) := by
  have hiff := (get_file_suffix_writes_iff [109, 105, 107, 101, 46, 100, 111, 99, 46, 112, 110, 103]
    (by decide)).1 (List.replicate 8 0) rfl
  exact hiff.mpr fun _ => by decide

/-- The name `a.properties`: the last two letters of the suffix and its terminator are written
behind the buffer. -/
theorem long_suffix_overruns :
    ¬Writes [97, 46, 112, 114, 111, 112, 101, 114, 116, 105, 101, 115] (List.replicate 8 0) := by
  rw [writes_iff (by decide) (by decide)]
  intro h
  exact absurd (h (by decide)) (by decide)

end CServer.CgiStrings
