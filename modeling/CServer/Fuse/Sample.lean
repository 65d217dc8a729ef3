import CServer.Foundation.Extents
import CServer.Foundation.Fallible
import CServer.Foundation.Runs
import Mathlib.Algebra.Group.Nat.Defs
import Mathlib.Algebra.Ring.Int.Defs

/-!
# The sample file of fuse_sample.c

One file, `/sample`, held in a block of memory that grows with the writes. A block is the list of
its bytes, and the null pointer of the start is the empty block. A copy that leaves a block is a
`Fault`. What is not read again (the `fuse_file_info`) is left out, and so are the calls that
always succeed without touching the file (`sample_open`, `sample_release`, `sample_readdir`).
-/
namespace CServer.FuseSample
open CServer.Extents

abbrev Bytes := List UInt8

inductive Fault where
  | readOutside
  | writeOutside
  deriving DecidableEq, Repr

inductive SampleFileType where
  | none
  | root
  | file
  deriving DecidableEq, Repr

/-- `sample_size` and `sample_buffer`. -/
structure Sample where
  sampleSize : ℕ
  sampleBuffer : Bytes

/-- What `sample_getattr` sets of a `struct stat`. -/
structure Stat where
  stUid : ℕ
  stGid : ℕ
  stAtime : ℤ
  stMtime : ℤ
  stMode : ℕ
  stNlink : ℕ
  stSize : ℤ

def eNoEnt : ℤ := 2
def eNoMem : ℤ := 12
def eInval : ℤ := 22

/-- The value as a `size_t`. -/
def toSizeT (n : ℤ) : ℕ := (n % 2 ^ 64).toNat

/-- The value as an `int`. -/
def toInt (n : ℕ) : ℤ := Int.bmod n (2 ^ 32)

def sampleFileType (path : String) : SampleFileType :=
  if path = "/" then .root
  else if path = "/sample" then .file
  else .none

/-- `sample_getattr`, called by the user `uid` of the group `gid` at the time `now`: 0040755 for
the directory and 0100777 for the file. -/
def sampleGetattr (path : String) (uid gid : ℕ) (now : ℤ) (stbuf : Stat) (s : Sample) :
    Stat × ℤ :=
  let stbuf := { stbuf with stUid := uid, stGid := gid, stAtime := now, stMtime := now }
  match sampleFileType path with
  | .root => ({ stbuf with stMode := 0x4000 ||| 0x1ED, stNlink := 2 }, 0)
  | .file => ({ stbuf with stMode := 0x8000 ||| 0x1FF, stNlink := 1, stSize := s.sampleSize }, 0)
  | .none => (stbuf, -eNoEnt)

/-- `memcpy` out of a block into the `room` bytes of a caller: the bytes it copies. -/
def memcpyFrom (block : Bytes) (offset : ℤ) (n room : ℕ) : Except Fault Bytes :=
  if room < n then .error .writeOutside
  else if 0 ≤ offset ∧ offset + n ≤ block.length then .ok ((block.drop offset.toNat).take n)
  else .error .readOutside

/-- `memcpy` of the first bytes of `buf` into a block. -/
def memcpyTo (block : Bytes) (offset : ℤ) (buf : Bytes) (n : ℕ) : Except Fault Bytes :=
  if buf.length < n then .error .readOutside
  else if 0 ≤ offset ∧ offset + n ≤ block.length then
    .ok (put block offset.toNat (buf.take n))
  else .error .writeOutside

def memset (block : Bytes) (offset : ℕ) (c : UInt8) (n : ℕ) : Except Fault Bytes :=
  memcpyTo block offset (List.replicate n c) n

/-- `realloc`, which fails or leaves something behind the bytes that it keeps. -/
def realloc (block : Bytes) (n : ℕ) (behind : Option (ℕ → UInt8)) : Option Bytes :=
  behind.map fun behind => (List.range n).map fun i => block.getD i (behind i)

/-- `sample_do_read`: what it copies to the caller, and what it returns. -/
def sampleDoRead (s : Sample) (size : ℕ) (offset : ℤ) : Except Fault (Bytes × ℤ) := do
  if toSizeT (size + offset) > s.sampleSize then
    let buf ← memcpyFrom s.sampleBuffer offset (toSizeT (s.sampleSize - offset)) size
    .ok (buf, toInt (toSizeT (s.sampleSize - offset)))
  else
    let buf ← memcpyFrom s.sampleBuffer offset size size
    .ok (buf, toInt size)

def sampleRead (s : Sample) (path : String) (size : ℕ) (offset : ℤ) : Except Fault (Bytes × ℤ) :=
  if sampleFileType path ≠ .file then .ok ([], -eInval)
  else sampleDoRead s size offset

def sampleResize (s : Sample) (newSize : ℕ) (behind : Option (ℕ → UInt8)) :
    Except Fault (Sample × ℤ) :=
  match realloc s.sampleBuffer newSize behind with
  | none => .ok (s, -eNoMem)
  | some newBuf => do
    let newBuf ← if newSize > s.sampleSize then
        memset newBuf s.sampleSize 0 (newSize - s.sampleSize)
      else .ok newBuf
    .ok (⟨newSize, newBuf⟩, 0)

/-- The last two lines of `sample_do_write`. -/
def sampleStore (s : Sample) (buf : Bytes) (size : ℕ) (offset : ℤ) : Except Fault (Sample × ℤ) := do
  let sampleBuffer ← memcpyTo s.sampleBuffer offset buf size
  .ok ({ s with sampleBuffer := sampleBuffer }, toInt size)

def sampleDoWrite (s : Sample) (buf : Bytes) (size : ℕ) (offset : ℤ)
    (behind : Option (ℕ → UInt8)) : Except Fault (Sample × ℤ) := do
  if toSizeT (size + offset) > s.sampleSize then
    let out ← sampleResize s (toSizeT (size + offset)) behind
    if out.2 ≠ 0 then .ok (out.1, -eNoMem)
    else sampleStore out.1 buf size offset
  else sampleStore s buf size offset

def sampleWrite (s : Sample) (path : String) (buf : Bytes) (size : ℕ) (offset : ℤ)
    (behind : Option (ℕ → UInt8)) : Except Fault (Sample × ℤ) :=
  if sampleFileType path ≠ .file then .ok (s, -eInval)
  else sampleDoWrite s buf size offset behind

/-! ## Calls on the file -/

/-- A call on `/sample`. A write says what a `realloc` in it would do. -/
inductive Call where
  | write (buf : Bytes) (size : ℕ) (offset : ℤ) (behind : Option (ℕ → UInt8))
  | read (size : ℕ) (offset : ℤ)

/-- What a call gives its caller. -/
structure Answer where
  ret : ℤ
  buf : Bytes
  deriving DecidableEq, Repr

def Call.exec (s : Sample) : Call → Except Fault (Sample × Answer)
  | .write buf size offset behind => do
    let out ← sampleWrite s "/sample" buf size offset behind
    .ok (out.1, ⟨out.2, []⟩)
  | .read size offset => do
    let out ← sampleRead s "/sample" size offset
    .ok (s, ⟨out.2, out.1⟩)

/-- The size and the place of a call lie in an `int`, and a write comes with its bytes. -/
def Call.Valid : Call → Prop
  | .write buf size offset _ => buf.length = size ∧ 1 ≤ size ∧ 0 ≤ offset ∧ size + offset < 2 ^ 31
  | .read size offset => 1 ≤ size ∧ 0 ≤ offset ∧ size + offset < 2 ^ 31

/-! ## The byte array -/

/-- What the file is after a call: a write beyond the end that gets no memory changes nothing. -/
def Call.after (file : Bytes) : Call → Bytes
  | .write buf size offset behind =>
    if file.length < offset + size ∧ behind.isNone then file
    else overwrite 0 file offset.toNat buf
  | .read _ _ => file

/-- What a call answers, of the file before it. -/
def Call.answer (file : Bytes) : Call → Answer
  | .write _ size offset behind =>
    if file.length < offset + size ∧ behind.isNone then ⟨-eNoMem, []⟩
    else ⟨size, []⟩
  | .read size offset =>
    ⟨((file.drop offset.toNat).take size).length, (file.drop offset.toNat).take size⟩

/-- The stored bytes are the file, and `sample_getattr` gives its length. -/
def Same (s : Sample) (file : Bytes) : Prop :=
  s.sampleBuffer = file ∧ ∀ uid gid now stbuf,
    (sampleGetattr "/sample" uid gid now stbuf s).1.stSize = file.length

/-- Every call returns what the byte array answers, and the file stays the same as the array. -/
def Refines : Sample → Bytes → List Call → Prop
  | s, file, [] => Same s file
  | s, file, c :: calls => Same s file ∧
    ∃ s', c.exec s = .ok (s', c.answer file) ∧ Refines s' (c.after file) calls

/-- A read starts in the file or at its end. -/
def Call.Within (file : Bytes) : Call → Prop
  | .write _ _ _ _ => True
  | .read _ offset => offset ≤ file.length

/-! ## Sizes -/

theorem toSizeT_of_nonneg {n : ℤ} (h : 0 ≤ n) (hlt : n < 2 ^ 64) : toSizeT n = n.toNat := by
  rw [toSizeT, Int.emod_eq_of_lt h hlt]

/-- A negative difference becomes a huge size. -/
theorem toSizeT_of_neg {n : ℤ} (h : n < 0) (hge : -2 ^ 31 ≤ n) : 2 ^ 31 < toSizeT n := by
  rw [toSizeT]
  omega

theorem toInt_of_lt {n : ℕ} (h : n < 2 ^ 31) : toInt n = n := by
  exact Int.bmod_eq_of_le (by omega) (by omega)

/-! ## Copies -/

theorem memcpyFrom_eq {block : Bytes} {offset : ℤ} {n room : ℕ} (hroom : n ≤ room)
    (hoffset : 0 ≤ offset) (hend : offset + n ≤ block.length) :
    memcpyFrom block offset n room = .ok ((block.drop offset.toNat).take n) := by
  rw [memcpyFrom, if_neg (by omega), if_pos ⟨hoffset, hend⟩]

theorem memcpyTo_eq {block buf : Bytes} {offset : ℤ} {n : ℕ} (hbuf : buf.length = n)
    (hoffset : 0 ≤ offset) (hend : offset + n ≤ block.length) :
    memcpyTo block offset buf n = .ok (put block offset.toNat buf) := by
  rw [memcpyTo, if_neg (by omega), if_pos ⟨hoffset, hend⟩, List.take_of_length_le (Nat.le_of_eq hbuf)]

theorem memset_eq {block : Bytes} {offset n : ℕ} {c : UInt8} (hend : offset + n ≤ block.length) :
    memset block offset c n = .ok (put block offset (List.replicate n c)) := by
  rw [memset, memcpyTo_eq List.length_replicate (by omega) (by omega), Int.toNat_natCast]

/-- A block that has grown and been filled from its old end on. -/
theorem put_realloc (block : Bytes) {n : ℕ} (behind : ℕ → UInt8) (h : block.length ≤ n) :
    put ((List.range n).map fun i => block.getD i (behind i)) block.length
        (List.replicate (n - block.length) 0) =
      block ++ List.replicate (n - block.length) 0 := by
  have hkept : ((List.range n).map fun i => block.getD i (behind i)).take block.length = block := by
    apply List.ext_getElem
    · simp only [List.length_take, List.length_map, List.length_range]
      omega
    · intro i hi hblock
      simp [hblock]
  rw [put_of_length_le, hkept]
  simp only [List.length_map, List.length_range, List.length_replicate]
  omega

/-! ## Reading and writing -/

variable {s : Sample} {file buf : Bytes} {size : ℕ} {offset : ℤ}

theorem same_iff : Same s file ↔ s = ⟨file.length, file⟩ := by
  constructor
  · rintro ⟨rfl, hsize⟩
    have hlength := hsize 0 0 0 ⟨0, 0, 0, 0, 0, 0, 0⟩
    have hnat : s.sampleSize = s.sampleBuffer.length := Int.ofNat_inj.mp hlength
    rw [← hnat]
  · rintro rfl
    exact ⟨rfl, fun uid gid now stbuf => rfl⟩

theorem sampleDoRead_within (hsize : 0 ≤ offset) (hrange : size + offset < 2 ^ 31)
    (hwithin : offset ≤ file.length) (hfile : file.length < 2 ^ 31) :
    sampleDoRead ⟨file.length, file⟩ size offset =
      .ok ((file.drop offset.toNat).take size, ((file.drop offset.toNat).take size).length) := by
  have hsum : toSizeT (size + offset) = size + offset.toNat := by
    rw [toSizeT_of_nonneg (by omega) (by omega)]
    omega
  rw [sampleDoRead, hsum]
  by_cases hend : size + offset.toNat > file.length
  · -- the rest of the file
    have hrest : toSizeT ((file.length : ℤ) - offset) = file.length - offset.toNat := by
      rw [toSizeT_of_nonneg (by omega) (by omega)]
      omega
    have hall : (file.drop offset.toNat).length ≤ size := by
      rw [List.length_drop]
      omega
    rw [if_pos hend, hrest, memcpyFrom_eq (by omega) hsize (by simp only; omega), ok_bind,
      toInt_of_lt (by omega), List.take_of_length_le hall, ← List.length_drop,
      List.take_of_length_le (Nat.le_refl _)]
  · have hcount : ((file.drop offset.toNat).take size).length = size := by
      rw [List.length_take, List.length_drop]
      omega
    rw [if_neg hend, memcpyFrom_eq (Nat.le_refl size) hsize (by simp only; omega), ok_bind,
      toInt_of_lt (by omega), hcount]

/-- A read from behind the end copies more than there is. -/
theorem sampleDoRead_behind (hsize : 0 ≤ offset) (hrange : size + offset < 2 ^ 31)
    (hbehind : file.length < offset) :
    sampleDoRead ⟨file.length, file⟩ size offset = .error .writeOutside := by
  have hsum : toSizeT (size + offset) = size + offset.toNat := by
    rw [toSizeT_of_nonneg (by omega) (by omega)]
    omega
  have hhuge := toSizeT_of_neg (n := file.length - offset) (by omega) (by omega)
  have hroom : size < toSizeT ((file.length : ℤ) - offset) := by omega
  have hend : size + offset.toNat > file.length := by omega
  rw [sampleDoRead, hsum, if_pos hend, memcpyFrom, if_pos hroom, error_bind]

theorem sampleStore_eq (file : Bytes) (hbuf : buf.length = size) (hsize : 0 ≤ offset)
    (hrange : size < 2 ^ 31) (hend : offset + size ≤ file.length) :
    sampleStore ⟨file.length, file⟩ buf size offset =
      .ok (⟨file.length, put file offset.toNat buf⟩, size) := by
  rw [sampleStore, memcpyTo_eq hbuf hsize hend, ok_bind, toInt_of_lt hrange]

theorem sampleResize_none (n : ℕ) : sampleResize s n none = .ok (s, -eNoMem) := rfl

theorem sampleResize_some {n : ℕ} (behind : ℕ → UInt8) (h : file.length < n) :
    sampleResize ⟨file.length, file⟩ n (some behind) =
      .ok (⟨n, file ++ List.replicate (n - file.length) 0⟩, 0) := by
  have hroom : file.length + (n - file.length) ≤
      ((List.range n).map fun i => file.getD i (behind i)).length := by
    rw [List.length_map, List.length_range]
    omega
  have hput := put_realloc file behind (Nat.le_of_lt h)
  rw [sampleResize]
  simp only [realloc, Option.map_some, gt_iff_lt, h, if_true, memset_eq hroom, ok_bind, hput]

/-- A write in the file, behind it, or across its end. -/
theorem sampleDoWrite_eq (behind : Option (ℕ → UInt8)) (hbuf : buf.length = size)
    (hsize : 0 ≤ offset) (hrange : size + offset < 2 ^ 31) :
    sampleDoWrite ⟨file.length, file⟩ buf size offset behind =
      .ok (if file.length < offset + size ∧ behind.isNone then (⟨file.length, file⟩, -eNoMem)
        else (⟨(overwrite 0 file offset.toNat buf).length, overwrite 0 file offset.toNat buf⟩,
          (size : ℤ))) := by
  have hsum : toSizeT (size + offset) = size + offset.toNat := by
    rw [toSizeT_of_nonneg (by omega) (by omega)]
    omega
  rw [sampleDoWrite, hsum]
  by_cases hend : size + offset.toNat > file.length
  · have hgrows : file.length < offset + size := by omega
    rw [if_pos hend]
    cases behind with
    | none =>
      rw [sampleResize_none, ok_bind, if_pos (by simp [eNoMem]), if_pos ⟨hgrows, rfl⟩]
    | some behind =>
      have hgrown : put (file ++ List.replicate (size + offset.toNat - file.length) 0)
          offset.toNat buf = overwrite 0 file offset.toNat buf := by
        apply put_fill_eq_overwrite
        omega
      have hlength : (file ++ List.replicate (size + offset.toNat - file.length) (0 : UInt8)).length =
          size + offset.toNat := by
        rw [List.length_append, List.length_replicate]
        omega
      have hstore := sampleStore_eq (file ++ List.replicate (size + offset.toNat - file.length) 0)
        hbuf hsize (by omega) (by omega)
      rw [hlength, hgrown] at hstore
      rw [sampleResize_some behind hend, ok_bind, if_neg (by simp), if_neg (by simp), hstore,
        length_overwrite]
      congr 4
      omega
  · have hfits : ¬(file.length < offset + size ∧ behind.isNone) := by omega
    rw [if_neg hend, sampleStore_eq file hbuf hsize (by omega) (by omega), if_neg hfits,
      length_overwrite, overwrite_of_le (by omega)]
    congr 4
    omega

/-! ## Runs -/

theorem Call.length_after_lt {c : Call} (hvalid : c.Valid) (hfile : file.length < 2 ^ 31) :
    (c.after file).length < 2 ^ 31 := by
  cases c with
  | write buf size offset behind =>
    obtain ⟨hbuf, hpos, hoffset, hrange⟩ := hvalid
    rw [Call.after]
    split
    · exact hfile
    · rw [length_overwrite]
      omega
  | read size offset => exact hfile

/-- A write that has its memory: the bytes of its range are the new ones, those in front of it are
kept or zero, those behind it are kept. -/
theorem Call.after_write_bytes {behind : Option (ℕ → UInt8)} (hbuf : buf.length = size)
    (hmemory : ¬(file.length < offset + size ∧ behind.isNone)) :
    (∀ i < offset.toNat,
        ((Call.write buf size offset behind).after file)[i]? = some (file.getD i 0)) ∧
      (∀ i < size, ((Call.write buf size offset behind).after file)[offset.toNat + i]? = buf[i]?) ∧
      ∀ i, ((Call.write buf size offset behind).after file)[offset.toNat + size + i]? =
        file[offset.toNat + size + i]? := by
  rw [Call.after, if_neg hmemory, ← hbuf]
  exact ⟨fun i hi => getElem?_overwrite_before hi, fun i hi => getElem?_overwrite_new hi,
    fun i => getElem?_overwrite_behind i⟩

/-- A call that is no read from behind the end does what the byte array does. -/
theorem Call.exec_within {c : Call} (hvalid : c.Valid) (hwithin : c.Within file)
    (hfile : file.length < 2 ^ 31) :
    c.exec ⟨file.length, file⟩ = .ok (⟨(c.after file).length, c.after file⟩, c.answer file) := by
  cases c with
  | write buf size offset behind =>
    obtain ⟨hbuf, hpos, hoffset, hrange⟩ := hvalid
    have hwrite : sampleWrite ⟨file.length, file⟩ "/sample" buf size offset behind =
        sampleDoWrite ⟨file.length, file⟩ buf size offset behind := rfl
    rw [Call.exec, hwrite, sampleDoWrite_eq behind hbuf hoffset hrange, ok_bind, Call.after,
      Call.answer]
    split <;> rfl
  | read size offset =>
    obtain ⟨hpos, hoffset, hrange⟩ := hvalid
    have hread : sampleRead ⟨file.length, file⟩ "/sample" size offset =
        sampleDoRead ⟨file.length, file⟩ size offset := rfl
    rw [Call.exec, hread, sampleDoRead_within hoffset hrange hwithin hfile, ok_bind]
    rfl

theorem Call.exec_behind {c : Call} (hvalid : c.Valid) (hbehind : ¬ c.Within file) :
    c.exec ⟨file.length, file⟩ = .error .writeOutside := by
  cases c with
  | write buf size offset behind => exact absurd trivial hbehind
  | read size offset =>
    obtain ⟨hpos, hoffset, hrange⟩ := hvalid
    have hlt : file.length < offset := Int.not_le.mp hbehind
    have hread : sampleRead ⟨file.length, file⟩ "/sample" size offset =
        sampleDoRead ⟨file.length, file⟩ size offset := rfl
    rw [Call.exec, hread, sampleDoRead_behind hoffset hrange hlt, error_bind]

theorem refines_iff_along (calls : List Call) (hvalid : ∀ c ∈ calls, c.Valid)
    (hfile : file.length < 2 ^ 31) :
    Refines ⟨file.length, file⟩ file calls ↔ Runs.Along Call.after Call.Within file calls := by
  have hsame : Same ⟨file.length, file⟩ file := same_iff.mpr rfl
  induction calls generalizing file with
  | nil => exact iff_of_true hsame trivial
  | cons c calls ih =>
    have hc : c.Valid := hvalid c List.mem_cons_self
    have hlater := ih (fun c' hc' => hvalid c' (List.mem_cons_of_mem c hc'))
      (Call.length_after_lt hc hfile) (same_iff.mpr rfl)
    rw [Runs.along_cons, Refines, and_iff_right hsame]
    constructor
    · rintro ⟨s', hexec, hrefines⟩
      have hwithin : c.Within file := by
        by_contra hbehind
        rw [Call.exec_behind hc hbehind] at hexec
        exact absurd hexec (by simp)
      rw [Call.exec_within hc hwithin hfile] at hexec
      obtain rfl := (Prod.mk.inj (Except.ok.inj hexec)).1
      exact ⟨hwithin, hlater.mp hrefines⟩
    · rintro ⟨hwithin, halong⟩
      exact ⟨_, Call.exec_within hc hwithin hfile, hlater.mpr halong⟩

/-- From the empty file on, every call does what the byte array does, exactly if no read starts
behind the end that the file has when it is made. -/
theorem sample_refines_iff (calls : List Call) (hvalid : ∀ c ∈ calls, c.Valid) :
    Refines ⟨0, []⟩ [] calls ↔ Runs.Along Call.after Call.Within [] calls :=
  refines_iff_along calls hvalid (by decide : ([] : Bytes).length < 2 ^ 31)

/-- A write with a hole in front of it, and a read across the end. -/
theorem sample_refines_hole :
    Refines ⟨0, []⟩ [] [.write [7] 1 2 (some fun _ => 255), .read 4 1] :=
  (sample_refines_iff _ (by simp [Call.Valid])).mpr (by simp [Call.Within, Call.after, length_overwrite])

/-- A read of one byte at position one of the empty file. -/
theorem sample_read_behind : ¬ Refines ⟨0, []⟩ [] [.read 1 1] := by
  rintro ⟨-, s', hexec, -⟩
  have hfault : Call.exec ⟨0, []⟩ (.read 1 1) = .error .writeOutside := rfl
  rw [hfault] at hexec
  exact absurd hexec (by simp)

end CServer.FuseSample
