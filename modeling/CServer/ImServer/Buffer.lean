import CServer.ImServer.PduBase

/-!
# What the buffer holds

`Holds b bytes size` says that a buffer of `size` bytes begins with the bytes up to its write
offset. Each operation is specified on it, and fails where its block would be too small.
-/
namespace CServer.ImServer
open CServer.Extents

structure Holds (b : CSimpleBuffer) (bytes : Bytes) (size : ℕ) : Prop where
  buffer : ∃ slack, b.mBuffer = bytes ++ slack
  offset : b.mWriteOffset = bytes.length
  alloc : b.getAllocSize = size
  small : size < 2 ^ 32

/-- The size for which a buffer asks that is to hold `len` bytes more. -/
def grown (used len : ℕ) : ℕ := used + len + (used + len) / 4

variable {b : CSimpleBuffer} {bytes front back block source : Bytes} {size len n offset : ℕ}
variable (behind : Behind)

theorem Holds.le (h : Holds b bytes size) : bytes.length ≤ size := by
  obtain ⟨slack, hslack⟩ := h.buffer
  rw [← h.alloc, CSimpleBuffer.getAllocSize, hslack, List.length_append]
  exact Nat.le_add_right _ _

theorem Holds.content (h : Holds b bytes size) : b.content = bytes := by
  obtain ⟨slack, hslack⟩ := h.buffer
  rw [CSimpleBuffer.content, hslack, h.offset, List.take_left]

theorem Holds.empty : Holds .empty [] 0 := ⟨⟨[], rfl⟩, rfl, rfl, by decide⟩

/-! ## Growing -/

theorem length_realloc : (realloc behind block n).length = n := by
  simp only [realloc, List.length_append, List.length_take, List.length_map, List.length_range]
  omega

theorem realloc_append (h : bytes.length ≤ n) :
    ∃ slack, realloc behind (bytes ++ back) n = bytes ++ slack := by
  refine ⟨back.take (n - bytes.length) ++ (List.range (n - (bytes ++ back).length)).map
    (behind (bytes ++ back) n), ?_⟩
  rw [realloc, List.take_append, List.take_of_length_le h, List.append_assoc]

theorem getAllocSize_extend : (b.extend behind len).getAllocSize =
    ((b.mWriteOffset + len) % 2 ^ 32 + (b.mWriteOffset + len) % 2 ^ 32 / 4) % 2 ^ 32 := by
  rw [CSimpleBuffer.getAllocSize, CSimpleBuffer.extend, length_realloc, Nat.shiftRight_eq_div_pow]

/-- Where the size does not wrap, the buffer keeps its bytes. -/
theorem Holds.extend (h : Holds b bytes size) (hgrown : grown bytes.length len < 2 ^ 32) :
    Holds (b.extend behind len) bytes (grown bytes.length len) := by
  have hsum : (b.mWriteOffset + len) % 2 ^ 32 = bytes.length + len := by
    rw [h.offset, Nat.mod_eq_of_lt]
    rw [grown] at hgrown
    omega
  have hsize : (b.extend behind len).getAllocSize = grown bytes.length len := by
    rw [getAllocSize_extend, hsum]
    exact Nat.mod_eq_of_lt hgrown
  refine ⟨?_, h.offset, hsize, hgrown⟩
  have hle : bytes.length ≤ (b.extend behind len).mBuffer.length := by
    rw [← CSimpleBuffer.getAllocSize, hsize, grown]
    omega
  obtain ⟨slack, hslack⟩ := h.buffer
  simp only [CSimpleBuffer.extend, length_realloc] at hle ⊢
  rw [hslack]
  exact realloc_append behind hle

/-- Where the size wraps, the block of a read becomes too small for the bytes that are there. -/
theorem Holds.extend_wraps (h : Holds b bytes size) (hgrown : 2 ^ 32 ≤ grown bytes.length 2048) :
    (b.extend behind 2048).getAllocSize ≤ bytes.length := by
  have hle := h.le
  have hsmall := h.small
  rw [grown] at hgrown
  rw [getAllocSize_extend, h.offset]
  by_cases hsum : bytes.length + 2048 < 2 ^ 32
  · rw [Nat.mod_eq_of_lt hsum]
    omega
  · have hwrapped : (bytes.length + 2048) % 2 ^ 32 < 2048 := by omega
    exact Nat.le_trans (Nat.mod_le _ _) (by omega)

/-! ## Copying -/

theorem memcpy_of_le (hsource : n ≤ source.length) (h : offset + n ≤ block.length) :
    memcpy block offset source n = .ok (put block offset (source.take n)) :=
  if_pos ⟨hsource, h⟩

theorem memcpy_of_lt (h : block.length < offset + n) :
    memcpy block offset source n = .error .outside :=
  if_neg fun hle => absurd hle.2 (Nat.not_le_of_lt h)

/-- New bytes behind those that are there. -/
theorem Holds.append (h : Holds b bytes size) (hsource : n ≤ source.length)
    (hroom : bytes.length + n ≤ size) :
    Holds (CSimpleBuffer.incWriteOffset
      { b with mBuffer := put b.mBuffer b.mWriteOffset (source.take n) } n)
      (bytes ++ source.take n) size := by
  have hlength : (source.take n).length = n := List.length_take_of_le hsource
  obtain ⟨slack, hslack⟩ := h.buffer
  have hsize := h.alloc
  rw [CSimpleBuffer.getAllocSize, hslack, List.length_append] at hsize
  have hput : put b.mBuffer b.mWriteOffset (source.take n) =
      bytes ++ (source.take n ++ slack.drop n) := by
    rw [hslack, h.offset, ← List.take_append_drop n slack, put_append, List.take_append_drop]
    rw [hlength, List.length_take_of_le (by omega)]
  refine ⟨⟨slack.drop n, ?_⟩, ?_, ?_, h.small⟩
  · rw [CSimpleBuffer.incWriteOffset, hput, List.append_assoc]
  · have hsmall := h.small
    rw [CSimpleBuffer.incWriteOffset, List.length_append, hlength, h.offset]
    exact Nat.mod_eq_of_lt (by omega)
  · rw [CSimpleBuffer.incWriteOffset, CSimpleBuffer.getAllocSize, hput]
    simp only [List.length_append, hlength, List.length_drop]
    omega

/-- The first bytes are taken off. -/
theorem Holds.read (h : Holds b (front ++ back) size) (hfront : 0 < front.length) :
    ∃ b', b.read front.length = .ok b' ∧ Holds b' back size := by
  obtain ⟨slack, hslack⟩ := h.buffer
  have hoffset := h.offset
  rw [List.length_append] at hoffset
  have hsize := h.alloc
  rw [CSimpleBuffer.getAllocSize, hslack, List.append_assoc, List.length_append,
    List.length_append] at hsize
  have hbehind : b.mBuffer.drop front.length = back ++ slack := by
    rw [hslack, List.append_assoc, List.drop_left]
  have hrest : front.length + back.length - front.length = back.length :=
    Nat.add_sub_cancel_left _ _
  have hcopy : memcpy b.mBuffer 0 (b.mBuffer.drop front.length) back.length =
      .ok (put b.mBuffer 0 back) := by
    rw [memcpy_of_le, hbehind, List.take_left]
    · rw [hbehind, List.length_append]
      exact Nat.le_add_right _ _
    · rw [← CSimpleBuffer.getAllocSize, h.alloc]
      omega
  refine ⟨⟨put b.mBuffer 0 back, back.length⟩, ?_, ⟨_, rfl⟩, rfl, ?_, h.small⟩
  · rw [CSimpleBuffer.read, if_neg (Nat.pos_iff_ne_zero.mp hfront), if_neg (by omega), hoffset]
    simp only [hrest, hcopy, ok_bind]
  · rw [CSimpleBuffer.getAllocSize, length_put, ← CSimpleBuffer.getAllocSize, h.alloc]
    rw [← CSimpleBuffer.getAllocSize, h.alloc]
    omega

/-- The first bytes of a block are written into a buffer of their own. -/
theorem write_empty (hn : 0 < n) (hsource : n ≤ source.length) (hgrown : grown 0 n < 2 ^ 32) :
    ∃ b', CSimpleBuffer.empty.write behind source n = .ok b' ∧
      Holds b' (source.take n) (grown 0 n) := by
  have hextended := Holds.empty.extend behind hgrown
  have hle : n ≤ grown 0 n := by
    rw [grown]
    omega
  have hsum : (0 + n) % 2 ^ 32 = n := by omega
  refine ⟨_, ?_, hextended.append hsource (by rwa [List.length_nil, Nat.zero_add])⟩
  have hgrows : (CSimpleBuffer.empty.mWriteOffset + n) % 2 ^ 32 >
      CSimpleBuffer.empty.getAllocSize := by
    rw [CSimpleBuffer.empty, hsum]
    exact hn
  rw [CSimpleBuffer.write, if_pos hgrows, memcpy_of_le hsource, ok_bind]
  rw [← CSimpleBuffer.getAllocSize, hextended.alloc, hextended.offset, List.length_nil]
  omega

theorem write_empty_wraps (hn : n < 2 ^ 32) (hgrown : 2 ^ 32 ≤ grown 0 n) :
    CSimpleBuffer.empty.write behind source n = .error .outside := by
  have hsum : (CSimpleBuffer.empty.mWriteOffset + n) % 2 ^ 32 = n := by
    rw [CSimpleBuffer.empty, Nat.zero_add]
    exact Nat.mod_eq_of_lt hn
  rw [grown] at hgrown
  have hgrows : (CSimpleBuffer.empty.mWriteOffset + n) % 2 ^ 32 >
      CSimpleBuffer.empty.getAllocSize := by
    rw [hsum, CSimpleBuffer.getAllocSize, CSimpleBuffer.empty, List.length_nil]
    omega
  rw [CSimpleBuffer.write, if_pos hgrows, memcpy_of_lt, error_bind]
  rw [← CSimpleBuffer.getAllocSize, getAllocSize_extend, hsum, CSimpleBuffer.extend,
    CSimpleBuffer.empty]
  omega

end CServer.ImServer
