import CServer.Foundation.CStrings
import Mathlib.Algebra.Ring.Nat
import Mathlib.Tactic.Cases

/-!
# Building an HMSET command

`make_hmset_command` of redis_op.c. `malloc` and `realloc` give memory, and what lies behind the
bytes that `realloc` keeps is arbitrary. The two counters are of 32 bits.
-/
namespace CServer.CgiStrings

open CStrings

def fieldIdSize : ℕ := 100

def valuesIdSize : ℕ := 1024

def mebibyte : ℕ := 1024 * 1024

/-- The source of `strncat`: a text, or so many characters of it. -/
def readAtMost (n : ℕ) (b : Bytes) : Except Fault Bytes :=
  if n ≤ b.length then .ok ((b.take n).takeWhile fun c => c ≠ 0) else textAt b 0

def strncat (dest src : Bytes) (n : ℕ) : Except Fault Bytes := do
  let text ← textAt dest 0
  let part ← readAtMost n src
  let dest ← copyTo part dest text.length
  store dest (text.length + part.length) 0

def realloc (fresh : ℕ → UInt8) (b : Bytes) (size : ℕ) : Bytes :=
  b.take size ++ (List.range' b.length (size - b.length)).map fresh

structure Builder where
  cmd : Bytes
  bufSize : BitVec 32
  useSize : BitVec 32

/-- The capacity test that follows each part of an element. -/
def Builder.grow (fresh : ℕ → UInt8) (s : Builder) : Builder :=
  if s.bufSize ≤ s.useSize then
    ⟨realloc fresh s.cmd (s.useSize + 1024 * 1024).toNat, s.bufSize + 1024 * 1024, s.useSize⟩
  else s

/-- A part of an element, whose length is counted. -/
def Builder.append (fresh : ℕ → UInt8) (s : Builder) (part : Bytes × ℕ) :
    Except Fault Builder := do
  let cmd ← strncat s.cmd part.1 part.2
  let text ← textAt part.1 0
  .ok (Builder.grow fresh ⟨cmd, s.bufSize, s.useSize + BitVec.ofNat 32 text.length⟩)

def space : Bytes := [32, 0]

/-- The loop body: the element is `fields[i]` and `values[i]`. -/
def Builder.element (fresh : ℕ → UInt8) (s : Builder) (element : Bytes × Bytes) :
    Except Fault Builder := do
  let s ← s.append fresh (space, 1)
  let s ← s.append fresh (element.1, fieldIdSize)
  let s ← s.append fresh (space, 1)
  s.append fresh (element.2, valuesIdSize)

/-- The letters of `hmset`, and a terminator. -/
def hmset : Bytes := [104, 109, 115, 101, 116, 0]

def makeHmsetCommand (fresh : ℕ → UInt8) (key : Bytes) (elements : List (Bytes × Bytes)) :
    Except Fault Bytes := do
  let cmd := List.replicate (1024 * 1024) 0
  let cmd ← strncat cmd hmset 6
  let cmd ← strncat cmd space 1
  let cmd ← strncat cmd key 200
  let s ← elements.foldlM (Builder.element fresh) ⟨cmd, 1024 * 1024, 5 + 1 + 200⟩
  .ok s.cmd

/-! ## What is to be built -/

/-- The text in an array. -/
def textOf (b : Bytes) : Bytes := b.takeWhile fun c => c ≠ 0

/-- An array of a size holds a text and its terminator. -/
structure Holds (size : ℕ) (row : Bytes) : Prop where
  length : row.length = size
  zero : 0 ∈ row

/-- The field and the value of an element, each behind a space. -/
def elementText (element : Bytes × Bytes) : Bytes :=
  32 :: textOf element.1 ++ 32 :: textOf element.2

def commandText (key : Bytes) (elements : List (Bytes × Bytes)) : Bytes :=
  textOf hmset ++ 32 :: textOf key ++ elements.flatMap elementText

/-- The run stays in its memory and returns the command. -/
def Builds (fresh : ℕ → UInt8) (key : Bytes) (elements : List (Bytes × Bytes)) : Prop :=
  ∃ junk, makeHmsetCommand fresh key elements = .ok (commandText key elements ++ 0 :: junk)

/-! ## When the memory suffices -/

/-- The lengths that are counted for an element. -/
def elementLengths (element : Bytes × Bytes) : List ℕ :=
  [1, (textOf element.1).length, 1, (textOf element.2).length]

/-- The running sums from a start on. -/
def sums : ℕ → List ℕ → List ℕ
  | _, [] => []
  | start, n :: rest => (start + n) :: sums (start + n) rest

/-- The first sum of at least so many mebibytes. -/
def reaches (counts : List ℕ) (i : ℕ) : Option ℕ := counts.find? fun u => i * mebibyte ≤ u

/-- The memory once the sums have reached so many mebibytes. -/
def memoryAt (counts : List ℕ) (i : ℕ) : ℕ :=
  (if i = 0 then 0 else (reaches counts i).getD 0) + mebibyte

def counts (elements : List (Bytes × Bytes)) : List ℕ :=
  sums (5 + 1 + 200) (elements.flatMap elementLengths)

/-- The sum that reaches one more mebibyte is less than the memory from the one before it and the
part of 200 that the key leaves, and no sum reaches 4095 mebibytes. -/
structure Fits (key : Bytes) (elements : List (Bytes × Bytes)) : Prop where
  room : ∀ i u, reaches (counts elements) (i + 1) = some u →
    u < memoryAt (counts elements) i + (200 - (textOf key).length)
  rounds : ∀ u ∈ counts elements, u < 4095 * mebibyte

/-- The same from `j` mebibytes on, which the sums had reached with `c`. -/
def FitsFrom (unused j c : ℕ) (counts : List ℕ) : Prop :=
  (∀ i, j ≤ i → ∀ u, reaches counts (i + 1) = some u →
      u < (if i = j then c else (reaches counts i).getD 0) + mebibyte + unused) ∧
    ∀ u ∈ counts, u < 4095 * mebibyte

theorem fits_iff (key : Bytes) (elements : List (Bytes × Bytes)) :
    Fits key elements ↔ FitsFrom (200 - (textOf key).length) 0 0 (counts elements) :=
  ⟨fun h => ⟨fun i _ u hu => h.room i u hu, h.rounds⟩,
    fun h => ⟨fun i u hu => h.1 i i.zero_le u hu, h.2⟩⟩

variable {unused j c u : ℕ} {us : List ℕ}

theorem reaches_cons_of_le {i : ℕ} (h : i * mebibyte ≤ u) : reaches (u :: us) i = some u := by
  rw [reaches, List.find?_cons_of_pos (by simpa using h)]

theorem reaches_cons_of_lt {i : ℕ} (h : u < i * mebibyte) :
    reaches (u :: us) i = reaches us i := by
  rw [reaches, reaches, List.find?_cons_of_neg (by simpa using h)]

theorem fitsFrom_nil : FitsFrom unused j c [] :=
  ⟨fun _ _ _ hu => by simp [reaches] at hu, fun _ hu => by simp at hu⟩

/-- A sum below the next mebibyte changes nothing. -/
theorem fitsFrom_below (hj : j + 1 ≤ 4095) (hu : u < (j + 1) * mebibyte) :
    FitsFrom unused j c (u :: us) ↔ FitsFrom unused j c us := by
  have hskip : ∀ i, j < i → reaches (u :: us) i = reaches us i := by
    intro i hi
    have hle : (j + 1) * mebibyte ≤ i * mebibyte := Nat.mul_le_mul_right _ hi
    exact reaches_cons_of_lt (by omega)
  have hmemory : ∀ i, j ≤ i → (if i = j then c else (reaches (u :: us) i).getD 0) =
      if i = j then c else (reaches us i).getD 0 := by
    intro i hi
    rcases Nat.eq_or_lt_of_le hi with rfl | hlt
    · simp
    · rw [hskip i hlt]
  have hlast : u < 4095 * mebibyte := by
    have hle : (j + 1) * mebibyte ≤ 4095 * mebibyte := Nat.mul_le_mul_right _ hj
    omega
  rw [FitsFrom, FitsFrom, List.forall_mem_cons]
  refine and_congr (forall₂_congr fun i hi => ?_) (and_iff_right hlast)
  rw [hskip (i + 1) (by omega), hmemory i hi]

/-- A sum that reaches the next mebibyte is held against the memory of the one before it. -/
theorem fitsFrom_reaching (hj : j + 1 ≤ 4095) (hle : (j + 1) * mebibyte ≤ u)
    (hu : u < (j + 2) * mebibyte) :
    FitsFrom unused j c (u :: us) ↔
      u < c + mebibyte + unused ∧ j + 1 < 4095 ∧ FitsFrom unused (j + 1) u us := by
  have hhere : reaches (u :: us) (j + 1) = some u := reaches_cons_of_le hle
  have hskip : ∀ i, j + 1 < i → reaches (u :: us) i = reaches us i := by
    intro i hi
    have hmul : (j + 2) * mebibyte ≤ i * mebibyte := Nat.mul_le_mul_right _ hi
    exact reaches_cons_of_lt (by omega)
  have hmemory : ∀ i, j + 1 ≤ i → (if i = j then c else (reaches (u :: us) i).getD 0) =
      if i = j + 1 then u else (reaches us i).getD 0 := by
    intro i hi
    have hne : i ≠ j := by omega
    rcases Nat.eq_or_lt_of_le hi with rfl | hlt
    · simp [hhere]
    · rw [hskip i hlt, if_neg hne, if_neg (by omega)]
  have hcount : u < 4095 * mebibyte ↔ j + 1 < 4095 := by
    rw [mebibyte] at *
    omega
  rw [FitsFrom, FitsFrom, List.forall_mem_cons, hcount]
  constructor
  · rintro ⟨hall, hlast, hrest⟩
    have hroom := hall j le_rfl u hhere
    rw [if_pos rfl] at hroom
    refine ⟨hroom, hlast, fun i hi v hv => ?_, hrest⟩
    rw [← hmemory i hi]
    exact hall i (by omega) v ((hskip (i + 1) (by omega)).trans hv)
  · rintro ⟨hu, hlast, hall, hrest⟩
    refine ⟨fun i hi v hv => ?_, hlast, hrest⟩
    rcases Nat.eq_or_lt_of_le hi with rfl | hlt
    · rw [hhere, Option.some.injEq] at hv
      rw [if_pos rfl, ← hv]
      exact hu
    · rw [hmemory i hlt]
      exact hall i hlt v ((hskip (i + 1) (by omega)).symm.trans hv)

/-! ## One append -/

variable {n : ℕ} {done text junk row : Bytes} {fresh : ℕ → UInt8}

theorem textAt_of_zero (h : 0 ∈ row) : textAt row 0 = .ok (textOf row) := by
  have hany : row.any (fun c => decide (c = 0)) = true := by
    rw [List.any_eq_true]
    exact ⟨0, h, by simp⟩
  rw [textAt, readUntil, List.drop_zero, if_pos hany, textOf]
  simp

theorem zero_notMem_textOf (row : Bytes) : 0 ∉ textOf row := by
  intro h
  have hne := List.mem_takeWhile_imp h
  simp at hne

/-- The terminator ends the text before the limit does. -/
theorem readAtMost_eq (hzero : 0 ∈ row) (hn : (textOf row).length ≤ n) :
    readAtMost n row = .ok (textOf row) := by
  rw [readAtMost]
  by_cases hle : n ≤ row.length
  · rw [textOf] at hn
    rw [if_pos hle, textOf, ← List.take_takeWhile, List.take_of_length_le hn]
  · rw [if_neg hle, textAt_of_zero hzero]

/-- There is room for the text and its terminator. -/
theorem strncat_fits (hdone : 0 ∉ done) (hrow : 0 ∈ row) (hn : (textOf row).length ≤ n)
    (hroom : (textOf row).length ≤ junk.length) :
    strncat (done ++ 0 :: junk) row n =
      .ok (done ++ textOf row ++ 0 :: junk.drop (textOf row).length) := by
  have hread : textAt (done ++ 0 :: junk) 0 = .ok done := @textAt_append [] junk done hdone
  rw [strncat, hread, ok_bind, readAtMost_eq hrow hn, ok_bind]
  generalize textOf row = text at hroom ⊢
  have hcopy := copyTo_append done (show text.length ≤ (0 :: junk).length by
    rw [List.length_cons]
    omega)
  have hlonger : 0 < ((0 :: junk).drop text.length).length := by
    rw [List.length_drop, List.length_cons]
    omega
  obtain ⟨y, rest, hrest⟩ := List.exists_cons_of_length_pos hlonger
  have hdrop : junk.drop text.length = rest := by
    have htail := congrArg List.tail hrest
    rwa [List.tail_drop, List.tail_cons, List.drop_succ_cons] at htail
  rw [hcopy, ok_bind, hrest, ← List.length_append, store_append, hdrop]

/-- The terminator, or the text in front of it, is written behind the memory. -/
theorem strncat_outside (hdone : 0 ∉ done) (hrow : 0 ∈ row) (hn : (textOf row).length ≤ n)
    (hroom : junk.length < (textOf row).length) :
    strncat (done ++ 0 :: junk) row n = .error .outside := by
  have hread : textAt (done ++ 0 :: junk) 0 = .ok done := @textAt_append [] junk done hdone
  have hlength : (done ++ 0 :: junk).length = done.length + junk.length + 1 := by
    rw [List.length_append, List.length_cons]
    omega
  rw [strncat, hread, ok_bind, readAtMost_eq hrow hn, ok_bind]
  generalize textOf row = text at hroom ⊢
  rcases Nat.eq_or_lt_of_le hroom with heq | hlt
  · have hcopy := copyTo_append done (show text.length ≤ (0 :: junk).length by
      rw [List.length_cons]
      omega)
    have hnone : (0 :: junk).drop text.length = [] :=
      List.drop_eq_nil_of_le (by rw [List.length_cons]; omega)
    have hbehind : ¬done.length + text.length < (done ++ text).length := by
      rw [List.length_append]
      omega
    rw [hcopy, ok_bind, hnone, List.append_nil, store, if_neg hbehind]
  · rw [copyTo_outside (by omega) (by omega)]
    rfl

/-- Without a terminator the end of the text is looked for behind the memory. -/
theorem strncat_unterminated (hdone : 0 ∉ done) : strncat done row n = .error .outside := by
  have hany : ¬done.any (fun c => decide (c = 0)) = true := by
    rw [List.any_eq_true]
    rintro ⟨c, hc, heq⟩
    exact hdone (of_decide_eq_true heq ▸ hc)
  rw [strncat, textAt, readUntil, List.drop_zero, if_neg hany]
  rfl

theorem realloc_more (fresh : ℕ → UInt8) {size : ℕ} (h : (done ++ 0 :: junk).length ≤ size) :
    ∃ more, realloc fresh (done ++ 0 :: junk) size = done ++ 0 :: (junk ++ more) ∧
      (done ++ 0 :: (junk ++ more)).length = size := by
  refine ⟨(List.range' (done ++ 0 :: junk).length (size - (done ++ 0 :: junk).length)).map fresh,
    ?_, ?_⟩
  · rw [realloc, List.take_of_length_le h, List.append_assoc, List.cons_append]
  · simp only [List.length_append, List.length_cons, List.length_map, List.length_range'] at h ⊢
    omega

theorem realloc_less (fresh : ℕ → UInt8) (junk : Bytes) {size : ℕ} (h : size ≤ done.length) :
    realloc fresh (done ++ 0 :: junk) size = done.take size := by
  have hnone : size - (done ++ 0 :: junk).length = 0 := by
    rw [List.length_append]
    omega
  rw [realloc, hnone, List.take_append_of_le_length h]
  simp

/-- A part of an element is a text within its limit. -/
structure IsPart (part : Bytes × ℕ) : Prop where
  zero : 0 ∈ part.1
  limit : (textOf part.1).length ≤ part.2
  short : (textOf part.1).length < 1024

/-- The counters and the memory between two parts: `u` is counted, and the memory was got for a
count of `c`, which was the first to reach `j` mebibytes. -/
structure Kept (unused j c u : ℕ) (s : Builder) (done junk : Bytes) : Prop where
  cmd : s.cmd = done ++ 0 :: junk
  zero : 0 ∉ done
  used : done.length + unused = u
  memory : (done ++ 0 :: junk).length = c + mebibyte
  useSize : s.useSize.toNat = u
  bufSize : s.bufSize.toNat = (j + 1) * mebibyte
  below : u < (j + 1) * mebibyte
  reached : j * mebibyte ≤ c
  earlier : c ≤ u
  rounds : j + 1 ≤ 4095
  most : unused ≤ 200

variable {s : Builder} {part : Bytes × ℕ}

theorem Kept.count (h : Kept unused j c u s done junk) (hpart : IsPart part) :
    (s.useSize + BitVec.ofNat 32 (textOf part.1).length).toNat = u + (textOf part.1).length := by
  have hshort := hpart.short
  have hbelow := h.below
  have hrounds := h.rounds
  rw [mebibyte] at hbelow
  rw [BitVec.toNat_add, BitVec.toNat_ofNat, h.useSize]
  omega

theorem zero_notMem_append (hdone : 0 ∉ done) (row : Bytes) : 0 ∉ done ++ textOf row := by
  rw [List.mem_append, not_or]
  exact ⟨hdone, zero_notMem_textOf row⟩

/-- A part for which there is room. -/
theorem Kept.append_eq (fresh : ℕ → UInt8) (h : Kept unused j c u s done junk) (hpart : IsPart part)
    (hroom : u + (textOf part.1).length < c + mebibyte + unused) :
    s.append fresh part = .ok (Builder.grow fresh
      ⟨done ++ textOf part.1 ++ 0 :: junk.drop (textOf part.1).length, s.bufSize,
        s.useSize + BitVec.ofNat 32 (textOf part.1).length⟩) ∧
    (done ++ textOf part.1 ++ 0 :: junk.drop (textOf part.1).length).length = c + mebibyte := by
  have hmemory := h.memory
  have hused := h.used
  rw [List.length_append, List.length_cons] at hmemory
  have hfits : (textOf part.1).length ≤ junk.length := by omega
  constructor
  · rw [Builder.append, h.cmd, strncat_fits h.zero hpart.zero hpart.limit hfits, ok_bind,
      textAt_of_zero hpart.zero, ok_bind]
  · simp only [List.length_append, List.length_cons, List.length_drop]
    omega

/-- A part for which there is none. -/
theorem Kept.append_outside (h : Kept unused j c u s done junk) (hpart : IsPart part)
    (hroom : c + mebibyte + unused ≤ u + (textOf part.1).length) :
    s.append fresh part = .error .outside := by
  have hmemory := h.memory
  have hused := h.used
  rw [List.length_append, List.length_cons] at hmemory
  rw [Builder.append, h.cmd, strncat_outside h.zero hpart.zero hpart.limit (by omega)]
  rfl

/-- A part that leaves the count below what the buffer is taken to hold. -/
theorem Kept.append_below (h : Kept unused j c u s done junk) (hpart : IsPart part)
    (hbelow : u + (textOf part.1).length < (j + 1) * mebibyte) :
    ∃ s' junk', s.append fresh part = .ok s' ∧
      Kept unused j c (u + (textOf part.1).length) s' (done ++ textOf part.1) junk' := by
  have hreached := h.reached
  have hcount := h.count hpart
  have hroom : u + (textOf part.1).length < c + mebibyte + unused := by
    rw [mebibyte] at *
    omega
  obtain ⟨happend, hmemory⟩ := h.append_eq fresh hpart hroom
  have hno : ¬s.bufSize ≤ s.useSize + BitVec.ofNat 32 (textOf part.1).length := by
    rw [BitVec.le_def, hcount, h.bufSize]
    omega
  refine ⟨_, _, happend.trans (congrArg Except.ok (if_neg hno)), rfl,
    zero_notMem_append h.zero _, ?_, hmemory, hcount, h.bufSize, hbelow, hreached,
    Nat.le_add_right_of_le h.earlier, h.rounds, h.most⟩
  have hused := h.used
  rw [List.length_append]
  omega

/-- A part that reaches the next mebibyte and fits: there is memory for one more than the count. -/
theorem Kept.append_reaching (h : Kept unused j c u s done junk) (hpart : IsPart part)
    (hreach : (j + 1) * mebibyte ≤ u + (textOf part.1).length)
    (hroom : u + (textOf part.1).length < c + mebibyte + unused) (hj : j + 1 < 4095) :
    ∃ s' junk', s.append fresh part = .ok s' ∧ Kept unused (j + 1) (u + (textOf part.1).length)
      (u + (textOf part.1).length) s' (done ++ textOf part.1) junk' := by
  have hcount := h.count hpart
  have hshort := hpart.short
  have hbelow := h.below
  have hearlier := h.earlier
  have hbuf := h.bufSize
  have hused := h.used
  obtain ⟨happend, hmemory⟩ := h.append_eq fresh hpart hroom
  have hyes : s.bufSize ≤ s.useSize + BitVec.ofNat 32 (textOf part.1).length := by
    rw [BitVec.le_def, hcount, hbuf]
    exact hreach
  rw [mebibyte] at hbelow hreach hmemory hbuf
  have hsize : (s.useSize + BitVec.ofNat 32 (textOf part.1).length + 1024 * 1024).toNat =
      u + (textOf part.1).length + 1048576 := by
    rw [BitVec.toNat_add, hcount]
    show (u + (textOf part.1).length + 1048576) % 2 ^ 32 = _
    omega
  have hnext : (s.bufSize + 1024 * 1024).toNat = (j + 1 + 1) * mebibyte := by
    rw [BitVec.toNat_add, hbuf, mebibyte]
    show ((j + 1) * (1024 * 1024) + 1048576) % 2 ^ 32 = _
    omega
  obtain ⟨more, hrealloc, hlength⟩ := realloc_more fresh
    (show (done ++ textOf part.1 ++ 0 :: junk.drop (textOf part.1).length).length ≤
      u + (textOf part.1).length + 1048576 by omega)
  refine ⟨_, junk.drop (textOf part.1).length ++ more,
    happend.trans (congrArg Except.ok (if_pos hyes)), ?_, zero_notMem_append h.zero _, ?_, ?_,
    hcount, hnext, ?_, hreach, le_rfl, by omega, h.most⟩
  · rw [hsize, hrealloc]
  · rw [List.length_append]
    omega
  · exact hlength
  · rw [mebibyte]
    omega

/-- At 4095 mebibytes the size for `realloc` does not fit into its 32 bits, and the end of the
text is lost. -/
theorem Kept.append_wrapped (h : Kept unused j c u s done junk) (hpart : IsPart part)
    (hreach : (j + 1) * mebibyte ≤ u + (textOf part.1).length)
    (hroom : u + (textOf part.1).length < c + mebibyte + unused) (hj : j + 1 = 4095) :
    ∃ s', s.append fresh part = .ok s' ∧ 0 ∉ s'.cmd ∧ s'.cmd.length < done.length := by
  have hcount := h.count hpart
  have hshort := hpart.short
  have hbelow := h.below
  have hused := h.used
  have hmost := h.most
  obtain ⟨happend, -⟩ := h.append_eq fresh hpart hroom
  have hyes : s.bufSize ≤ s.useSize + BitVec.ofNat 32 (textOf part.1).length := by
    rw [BitVec.le_def, hcount, h.bufSize]
    exact hreach
  rw [mebibyte] at hbelow hreach
  have hsize : (s.useSize + BitVec.ofNat 32 (textOf part.1).length + 1024 * 1024).toNat < 1024 := by
    rw [BitVec.toNat_add, hcount]
    show (u + (textOf part.1).length + 1048576) % 2 ^ 32 < 1024
    omega
  have hless := realloc_less fresh (junk.drop (textOf part.1).length)
    (show (s.useSize + BitVec.ofNat 32 (textOf part.1).length + 1024 * 1024).toNat ≤
      (done ++ textOf part.1).length by rw [List.length_append]; omega)
  have hzero : ∀ size, 0 ∉ (done ++ textOf part.1).take size := fun size hin =>
    zero_notMem_append h.zero part.1 (List.mem_of_mem_take hin)
  refine ⟨_, happend.trans (congrArg Except.ok (if_pos hyes)), ?_, ?_⟩
  · simp only [hless]
    exact hzero _
  · rw [hless, List.length_take]
    omega

/-! ## A run -/

/-- The parts are appended, and the buffer holds a text. -/
def Completes (fresh : ℕ → UInt8) (s : Builder) (parts : List (Bytes × ℕ)) (text : Bytes) : Prop :=
  ∃ s' junk, parts.foldlM (Builder.append fresh) s = .ok s' ∧ s'.cmd = text ++ 0 :: junk

variable {s' : Builder} {parts : List (Bytes × ℕ)}

theorem completes_nil (h : s.cmd = done ++ 0 :: junk) : Completes fresh s [] done :=
  ⟨s, junk, rfl, h⟩

theorem completes_cons (h : s.append fresh part = .ok s') :
    Completes fresh s (part :: parts) text ↔ Completes fresh s' parts text := by
  rw [Completes, Completes, List.foldlM_cons, h]
  rfl

theorem not_completes_cons (h : s.append fresh part = .error .outside) :
    ¬Completes fresh s (part :: parts) text := by
  rintro ⟨s', junk, hrun, -⟩
  rw [List.foldlM_cons, h, error_bind] at hrun
  simp at hrun

/-- A buffer that has lost its terminator does not get it back. -/
theorem not_completes_of_lost (hzero : 0 ∉ s.cmd) (hlength : s.cmd.length < text.length) :
    ¬Completes fresh s parts text := by
  cases parts with
  | nil =>
    rintro ⟨s', junk, hrun, htext⟩
    obtain rfl : s = s' := Except.ok.inj hrun
    rw [htext, List.length_append] at hlength
    omega
  | cons part parts =>
    refine not_completes_cons ?_
    rw [Builder.append, strncat_unterminated hzero]
    rfl

/-- The text of the parts, and the lengths that are counted. -/
def partsText (parts : List (Bytes × ℕ)) : Bytes := parts.flatMap fun part => textOf part.1

def partsLengths (parts : List (Bytes × ℕ)) : List ℕ := parts.map fun part => (textOf part.1).length

/-- The appends complete exactly when every sum fits: by induction on the parts, with the memory
and the count of the last `realloc`. -/
theorem Kept.completes_iff (fresh : ℕ → UInt8) (h : Kept unused j c u s done junk)
    (hparts : ∀ p ∈ parts, IsPart p) :
    Completes fresh s parts (done ++ partsText parts) ↔
      FitsFrom unused j c (sums u (partsLengths parts)) := by
  induction parts generalizing s j c u done junk with
  | nil =>
    rw [partsText, List.flatMap_nil, List.append_nil]
    exact iff_of_true (completes_nil h.cmd) fitsFrom_nil
  | cons part parts ih =>
    obtain ⟨hpart, hrest⟩ := List.forall_mem_cons.mp hparts
    have htext : done ++ partsText (part :: parts) = done ++ textOf part.1 ++ partsText parts := by
      rw [partsText, List.flatMap_cons, ← List.append_assoc, ← partsText]
    have hsums : sums u (partsLengths (part :: parts)) =
        (u + (textOf part.1).length) :: sums (u + (textOf part.1).length) (partsLengths parts) := rfl
    have hshort := hpart.short
    have hnext : u + (textOf part.1).length < (j + 2) * mebibyte := by
      have hbelow := h.below
      rw [mebibyte] at hbelow ⊢
      omega
    rw [htext, hsums]
    by_cases hreach : (j + 1) * mebibyte ≤ u + (textOf part.1).length
    · rw [fitsFrom_reaching h.rounds hreach hnext]
      by_cases hroom : u + (textOf part.1).length < c + mebibyte + unused
      · rw [and_iff_right hroom]
        rcases Nat.lt_or_eq_of_le h.rounds with hj | hj
        · obtain ⟨s', junk', happend, hkept⟩ := h.append_reaching hpart hreach hroom hj
          rw [completes_cons happend, ih hkept hrest, and_iff_right hj]
        · obtain ⟨s', happend, hzero, hlength⟩ := h.append_wrapped hpart hreach hroom hj
          rw [completes_cons happend]
          refine iff_of_false (not_completes_of_lost hzero ?_) (fun hfits => by omega)
          rw [List.append_assoc, List.length_append]
          omega
      · exact iff_of_false (not_completes_cons (h.append_outside hpart (Nat.le_of_not_lt hroom)))
          (fun hfits => hroom hfits.1)
    · have hbelow := Nat.lt_of_not_le hreach
      obtain ⟨s', junk', happend, hkept⟩ := h.append_below hpart hbelow
      rw [completes_cons happend, ih hkept hrest, fitsFrom_below h.rounds hbelow]

/-! ## The command -/

variable {key : Bytes} {elements : List (Bytes × Bytes)}

/-- The parts of an element. -/
def elementParts (element : Bytes × Bytes) : List (Bytes × ℕ) :=
  [(space, 1), (element.1, fieldIdSize), (space, 1), (element.2, valuesIdSize)]

theorem element_eq (s : Builder) (element : Bytes × Bytes) :
    s.element fresh element = (elementParts element).foldlM (Builder.append fresh) s := by
  simp [Builder.element, elementParts]

theorem foldlM_element (s : Builder) (elements : List (Bytes × Bytes)) :
    elements.foldlM (Builder.element fresh) s =
      (elements.flatMap elementParts).foldlM (Builder.append fresh) s := by
  induction elements generalizing s with
  | nil => rfl
  | cons element elements ih =>
    rw [List.foldlM_cons, List.flatMap_cons, List.foldlM_append, element_eq]
    simp only [ih]

theorem partsText_elements (elements : List (Bytes × Bytes)) :
    partsText (elements.flatMap elementParts) = elements.flatMap elementText := by
  rw [partsText, List.flatMap_assoc]
  exact List.flatMap_congr fun element _ => by simp [elementParts, elementText, space, textOf]

theorem partsLengths_elements (elements : List (Bytes × Bytes)) :
    partsLengths (elements.flatMap elementParts) = elements.flatMap elementLengths := by
  rw [partsLengths, List.map_flatMap]
  exact List.flatMap_congr fun element _ => by simp [elementParts, elementLengths, space, textOf]

theorem Holds.length_textOf_lt {size : ℕ} (h : Holds size row) : (textOf row).length < size := by
  have hle : (textOf row).length ≤ row.length := (List.takeWhile_prefix _).length_le
  have hne : (textOf row).length ≠ row.length := by
    intro heq
    have hall : textOf row = row := (List.takeWhile_prefix _).eq_of_length heq
    exact zero_notMem_textOf row (hall.symm ▸ h.zero)
  have hlength := h.length
  omega

theorem isPart_space : IsPart (space, 1) := ⟨by decide, by decide, by decide⟩

theorem Holds.isPart {size : ℕ} (h : Holds size row) (hsize : size ≤ 1024) : IsPart (row, size) :=
  ⟨h.zero, h.length_textOf_lt.le, lt_of_lt_of_le h.length_textOf_lt hsize⟩

theorem isPart_of_mem (h : ∀ e ∈ elements, Holds fieldIdSize e.1 ∧ Holds valuesIdSize e.2) :
    ∀ p ∈ elements.flatMap elementParts, IsPart p := by
  intro p hp
  obtain ⟨e, he, hp⟩ := List.mem_flatMap.mp hp
  obtain ⟨hfield, hvalue⟩ := h e he
  simp only [elementParts, List.mem_cons, List.not_mem_nil, or_false] at hp
  rcases hp with rfl | rfl | rfl | rfl
  · exact isPart_space
  · exact hfield.isPart (by decide)
  · exact isPart_space
  · exact hvalue.isPart (by decide)

/-- In front of the loop the buffer of a mebibyte holds the command and the key. -/
theorem makeHmsetCommand_eq (fresh : ℕ → UInt8) (hkey : 0 ∈ key)
    (hlength : (textOf key).length ≤ 200) (elements : List (Bytes × Bytes)) :
    ∃ s junk, Kept (200 - (textOf key).length) 0 0 (5 + 1 + 200) s
        (textOf hmset ++ 32 :: textOf key) junk ∧
      makeHmsetCommand fresh key elements = (do
        let s ← elements.foldlM (Builder.element fresh) s
        .ok s.cmd) := by
  obtain ⟨junk, hbuffer, hjunk⟩ : ∃ junk : Bytes,
      List.replicate (1024 * 1024) 0 = [] ++ 0 :: junk ∧ junk.length = 1048575 :=
    ⟨List.replicate 1048575 0, List.replicate_succ, List.length_replicate⟩
  obtain ⟨junk₁, hfirst, hjunk₁⟩ : ∃ junk₁,
      strncat ([] ++ 0 :: junk) hmset 6 = .ok (textOf hmset ++ 0 :: junk₁) ∧
        junk₁.length = junk.length - 5 :=
    ⟨_, strncat_fits (by simp) (by decide) (by decide) (show 5 ≤ junk.length by omega),
      List.length_drop⟩
  obtain ⟨junk₂, hsecond, hjunk₂⟩ : ∃ junk₂,
      strncat (textOf hmset ++ 0 :: junk₁) space 1 = .ok (textOf hmset ++ [32] ++ 0 :: junk₂) ∧
        junk₂.length = junk₁.length - 1 :=
    ⟨_, strncat_fits (by decide) (by decide) (by decide) (show 1 ≤ junk₁.length by omega),
      List.length_drop⟩
  obtain ⟨junk₃, hthird, hjunk₃⟩ : ∃ junk₃,
      strncat (textOf hmset ++ [32] ++ 0 :: junk₂) key 200 =
        .ok (textOf hmset ++ [32] ++ textOf key ++ 0 :: junk₃) ∧
        junk₃.length = junk₂.length - (textOf key).length :=
    ⟨_, strncat_fits (by decide) hkey hlength (by omega), List.length_drop⟩
  have hhead : textOf hmset ++ [32] ++ textOf key = textOf hmset ++ 32 :: textOf key := by simp
  have hsize : (textOf hmset ++ 32 :: textOf key).length = 6 + (textOf key).length := by
    rw [List.length_append, List.length_cons]
    show 5 + _ = _
    omega
  rw [hhead] at hthird
  refine ⟨⟨textOf hmset ++ 32 :: textOf key ++ 0 :: junk₃, 1024 * 1024, 5 + 1 + 200⟩, junk₃,
    ⟨rfl, ?_, by omega, ?_, rfl, rfl, by decide, by decide, by decide, by decide, by omega⟩, ?_⟩
  · rw [← hhead]
    exact zero_notMem_append (by decide) key
  · rw [List.length_append, List.length_cons, hsize, mebibyte]
    omega
  · rw [makeHmsetCommand, hbuffer, hfirst, ok_bind, hsecond, ok_bind, hthird, ok_bind]

theorem builds_iff_fitsFrom (fresh : ℕ → UInt8) (hkey : 0 ∈ key)
    (hlength : (textOf key).length ≤ 200)
    (h : ∀ e ∈ elements, Holds fieldIdSize e.1 ∧ Holds valuesIdSize e.2) :
    Builds fresh key elements ↔
      FitsFrom (200 - (textOf key).length) 0 0 (counts elements) := by
  obtain ⟨s, junk, hkept, heq⟩ := makeHmsetCommand_eq fresh hkey hlength elements
  have hrun := hkept.completes_iff fresh (isPart_of_mem h)
  rw [partsText_elements, partsLengths_elements] at hrun
  rw [counts, ← hrun, Builds, heq, foldlM_element]
  constructor
  · rintro ⟨junk', hbuilt⟩
    obtain ⟨s', hs', hcmd⟩ := bind_eq_ok hbuilt
    exact ⟨s', junk', hs', Except.ok.inj hcmd⟩
  · rintro ⟨s', junk', hs', hcmd⟩
    refine ⟨junk', ?_⟩
    rw [hs', ok_bind, hcmd]
    rfl

/-- The command is built exactly when its sums fit. -/
theorem make_hmset_command_builds_iff (fresh : ℕ → UInt8) (hkey : 0 ∈ key)
    (hlength : (textOf key).length ≤ 200)
    (h : ∀ e ∈ elements, Holds fieldIdSize e.1 ∧ Holds valuesIdSize e.2) :
    Builds fresh key elements ↔ Fits key elements :=
  (builds_iff_fitsFrom fresh hkey hlength h).trans (fits_iff key elements).symm

/-- An array that holds a text. -/
def rowOf (size : ℕ) (text : Bytes) : Bytes := text ++ List.replicate (size - text.length) 0

theorem rowOf_eq {size : ℕ} (h : text.length < size) :
    rowOf size text = text ++ 0 :: List.replicate (size - text.length - 1) 0 := by
  obtain ⟨more, hmore⟩ : ∃ more, size - text.length = more + 1 :=
    ⟨size - text.length - 1, by omega⟩
  rw [rowOf, hmore, List.replicate_succ, Nat.add_sub_cancel]

theorem holds_rowOf {size : ℕ} (h : text.length < size) : Holds size (rowOf size text) := by
  constructor
  · rw [rowOf, List.length_append, List.length_replicate]
    omega
  · rw [rowOf_eq h]
    exact List.mem_append_right _ List.mem_cons_self

theorem textOf_append_zero (hzero : 0 ∉ text) : textOf (text ++ 0 :: junk) = text :=
  takeWhile_ne_append hzero junk

theorem textOf_rowOf {size : ℕ} (hzero : 0 ∉ text) (h : text.length < size) :
    textOf (rowOf size text) = text := by
  rw [rowOf_eq h, textOf_append_zero hzero]

/-- The field `f` with the value `v`. -/
theorem make_hmset_command_builds_one : Builds (fun _ => 255) [107, 0]
    [(rowOf fieldIdSize [102], rowOf valuesIdSize [118])] := by
  refine (make_hmset_command_builds_iff _ (by decide) (by decide) ?_).mpr ?_
  · intro e he
    obtain rfl := List.mem_singleton.mp he
    exact ⟨holds_rowOf (by decide), holds_rowOf (by decide)⟩
  · have hcounts : counts [(rowOf fieldIdSize [102], rowOf valuesIdSize [118])] =
        [207, 208, 209, 210] := by
      simp [counts, sums, elementLengths, textOf_rowOf, fieldIdSize, valuesIdSize]
    have hsmall : ∀ u ∈ [207, 208, 209, 210], u < 211 := by decide
    rw [← hcounts] at hsmall
    refine ⟨fun i u hu => ?_, fun u hu => ?_⟩
    · have hlt := hsmall u (List.mem_of_find?_eq_some hu)
      rw [memoryAt, mebibyte]
      omega
    · have hlt := hsmall u hu
      rw [mebibyte]
      omega

theorem sum_mem_sums {start n : ℕ} (ns : List ℕ) :
    start + (n :: ns).sum ∈ sums start (n :: ns) := by
  induction ns generalizing start n with
  | nil => simp [sums]
  | cons m ns ih =>
    rw [sums, List.sum_cons, ← Nat.add_assoc]
    exact List.mem_cons_of_mem _ ih

/-- A key of 200 bytes leaves no room: whatever reaches a mebibyte is written behind it. -/
theorem not_fitsFrom_of_full {element : Bytes × Bytes}
    (h : mebibyte ≤ 5 + 1 + 200 + ((element :: elements).flatMap elementLengths).sum) :
    ¬FitsFrom 0 0 0 (counts (element :: elements)) := by
  intro hfits
  have hlast : 5 + 1 + 200 + ((element :: elements).flatMap elementLengths).sum ∈
      counts (element :: elements) := sum_mem_sums _
  cases hfind : reaches (counts (element :: elements)) 1 with
  | none =>
    have hlt := List.find?_eq_none.mp hfind _ hlast
    rw [Nat.one_mul, decide_eq_true_eq] at hlt
    exact hlt h
  | some v =>
    have hroom := hfits.1 0 le_rfl v hfind
    have hreach := List.find?_some hfind
    simp only [decide_eq_true_eq] at hreach
    rw [if_pos rfl] at hroom
    omega

theorem sum_elementLengths (n : ℕ) (field value : Bytes) :
    ((List.replicate n (field, value)).flatMap elementLengths).sum =
      n * (2 + (textOf field).length + (textOf value).length) := by
  induction n with
  | zero => simp
  | succ n ih =>
    rw [List.replicate_succ, List.flatMap_cons, List.sum_append, ih, Nat.succ_mul]
    simp only [elementLengths, List.sum_cons, List.sum_nil]
    omega

theorem zero_notMem_replicate (n : ℕ) {c : UInt8} (hc : c ≠ 0) : 0 ∉ List.replicate n c :=
  fun h => hc (List.eq_of_mem_replicate h).symm

/-- 1024 elements with an empty field and a value of 1022 characters. -/
theorem full_key_overruns : ¬Builds (fun _ => 0) (List.replicate 200 107 ++ [0])
    (List.replicate 1024 (rowOf fieldIdSize [], rowOf valuesIdSize (List.replicate 1022 118))) := by
  have hkey : textOf (List.replicate 200 107 ++ [0]) = List.replicate 200 107 :=
    textOf_append_zero (zero_notMem_replicate 200 (by decide))
  have hfield : textOf (rowOf fieldIdSize []) = [] := textOf_rowOf (by simp) (by decide)
  have hshort : (List.replicate 1022 (118 : UInt8)).length < valuesIdSize := by
    rw [List.length_replicate]
    decide
  have hvalue : textOf (rowOf valuesIdSize (List.replicate 1022 118)) = List.replicate 1022 118 :=
    textOf_rowOf (zero_notMem_replicate 1022 (by decide)) hshort
  have hsum := sum_elementLengths 1024 (rowOf fieldIdSize [])
    (rowOf valuesIdSize (List.replicate 1022 118))
  rw [hvalue, hfield, List.length_nil, List.length_replicate] at hsum
  rw [builds_iff_fitsFrom _ (List.mem_append_right _ List.mem_cons_self)
    (by rw [hkey, List.length_replicate]), hkey, List.length_replicate, Nat.sub_self]
  · rw [List.replicate_succ] at hsum ⊢
    refine not_fitsFrom_of_full ?_
    rw [hsum, mebibyte]
    omega
  · intro e he
    rw [List.eq_of_mem_replicate he]
    exact ⟨holds_rowOf (by decide), holds_rowOf hshort⟩

end CServer.CgiStrings
