import CServer.Foundation.Fallible
import CServer.Des.Involution
import Mathlib.Data.List.TakeWhile

/-!
# The file encryption of my-encry.c and my-decry.c

The blocks of a file go through C strings on both sides: `strcpy` stops at the first zero byte of
a block, and the decrypted block is written up to its first zero byte. The messages, the timing
and the files that do not open are left out.
-/
namespace CServer.Des

/-! ## Strings in buffers -/

/-- `strlen` looks for the first zero byte. -/
def cString (buffer : Bytes) : Bytes := buffer.takeWhile (· ≠ 0)

/-- A buffer of eight bytes that was zero before the bytes were written to it. -/
def buffer8 (bytes : Bytes) : Bytes := bytes ++ List.replicate (8 - bytes.length) 0

/-- A digit of `sprintf` with `%x`. -/
def hexChar (digit : ℕ) : UInt8 := UInt8.ofNat (if digit < 10 then 48 + digit else 87 + digit)

/-- `bytes2hex_str` with the length of the input. -/
def bytes2hexStr (is : Bytes) : Bytes :=
  is.flatMap fun b => [hexChar (b.toNat / 16), hexChar (b.toNat % 16)]

/-- The value that `hex_str2bytes` takes a character for, if it is valid. -/
def hexValue (c : UInt8) : Option ℕ :=
  if c < 58 ∧ 47 < c then some (c.toNat - 48)
  else if c < 71 ∧ 64 < c then some (10 + c.toNat - 65)
  else if c < 103 ∧ 96 < c then some (10 + c.toNat - 97)
  else none

/-- The loop of `hex_str2bytes` from character `i` on: the bytes written until it returns. -/
def hexStr2bytesFrom : Bytes → ℕ → ℕ → Bytes
  | [], _, _ => []
  | c :: rest, i, num =>
    match hexValue c with
    | none => []
    | some tmp =>
      if i % 2 = 0 then hexStr2bytesFrom rest (i + 1) (tmp * 16)
      else UInt8.ofNat (num + tmp) :: hexStr2bytesFrom rest (i + 1) (num + tmp)

/-- `hex_str2bytes`. -/
def hexStr2bytes (is : Bytes) : Bytes := hexStr2bytesFrom (cString is) 0 0

/-! ## The files -/

/-- What `_3des_enc_dec` copies its input to: `strcpy` for encryption, the bytes of the
hexadecimal text for decryption. -/
def ipOf (input : Bytes) : Opt → Bytes
  | .enc => buffer8 (cString input)
  | .dec => buffer8 (hexStr2bytes input)

/-- `_3des_enc_dec`. -/
def des3EncDec (key input : Bytes) (opt : Opt) : Bytes := tripleEncDec key (ipOf input opt) opt

/-- A loop that reads up to `size` bytes in each turn until there are none. -/
def eachBlock (size : ℕ) (f : Bytes → Bytes) : ℕ → Bytes → Bytes
  | 0, _ => []
  | turns + 1, content =>
    if content = [] then [] else f (content.take size) ++ eachBlock size f turns (content.drop size)

/-- `file_enc`: `get8Bits` fills the buffer with zeros and reads up to eight bytes. -/
def fileEnc (key content : Bytes) : Bytes :=
  eachBlock 8 (fun block => bytes2hexStr (des3EncDec key (buffer8 block) .enc)) content.length content

/-- `file_dec`: each group of sixteen characters is decrypted and written up to the first zero
byte. -/
def fileDec (key text : Bytes) : Bytes :=
  eachBlock 16 (fun group => cString (des3EncDec key group .dec)) text.length text

attribute [local irreducible] des3EncDec

/-! ## Hexadecimal text -/

theorem hexValue_hexChar : ∀ digit < 16, hexValue (hexChar digit) = some digit ∧
    hexChar digit ≠ 0 := by decide

theorem hexStr2bytesFrom_cons (b : UInt8) (rest : Bytes) {i : ℕ} (hi : i % 2 = 0) (num : ℕ) :
    hexStr2bytesFrom (hexChar (b.toNat / 16) :: hexChar (b.toNat % 16) :: rest) i num =
      b :: hexStr2bytesFrom rest (i + 2) b.toNat := by
  have hb := b.toNat_lt
  have hhigh := (hexValue_hexChar (b.toNat / 16) (by omega)).1
  have hlow := (hexValue_hexChar (b.toNat % 16) (by omega)).1
  have hodd : ¬(i + 1) % 2 = 0 := by omega
  have hvalue : b.toNat / 16 * 16 + b.toNat % 16 = b.toNat := by omega
  rw [hexStr2bytesFrom, hhigh]
  simp only
  rw [if_pos hi, hexStr2bytesFrom, hlow]
  simp only
  rw [if_neg hodd, hvalue, UInt8.ofNat_toNat]

theorem hexStr2bytesFrom_bytes2hexStr (is : Bytes) {i : ℕ} (hi : i % 2 = 0) (num : ℕ) :
    hexStr2bytesFrom (bytes2hexStr is) i num = is := by
  induction is generalizing i num with
  | nil => rfl
  | cons b is ih =>
    have hcons : bytes2hexStr (b :: is) =
        hexChar (b.toNat / 16) :: hexChar (b.toNat % 16) :: bytes2hexStr is := rfl
    rw [hcons, hexStr2bytesFrom_cons b _ hi, ih (by omega)]

theorem cString_bytes2hexStr (is : Bytes) : cString (bytes2hexStr is) = bytes2hexStr is := by
  apply List.takeWhile_eq_self_iff.mpr
  intro c hc
  obtain ⟨b, -, hc⟩ := List.mem_flatMap.mp hc
  have hb := b.toNat_lt
  have hhigh := (hexValue_hexChar (b.toNat / 16) (by omega)).2
  have hlow := (hexValue_hexChar (b.toNat % 16) (by omega)).2
  simp only [List.mem_cons, List.not_mem_nil, or_false] at hc
  obtain rfl | rfl := hc
  · simpa using hhigh
  · simpa using hlow

theorem hexStr2bytes_bytes2hexStr (is : Bytes) : hexStr2bytes (bytes2hexStr is) = is := by
  rw [hexStr2bytes, cString_bytes2hexStr]
  exact hexStr2bytesFrom_bytes2hexStr is rfl 0

theorem length_bytes2hexStr (is : Bytes) : (bytes2hexStr is).length = 2 * is.length := by
  induction is with
  | nil => rfl
  | cons b is ih =>
    have hcons : bytes2hexStr (b :: is) =
        hexChar (b.toNat / 16) :: hexChar (b.toNat % 16) :: bytes2hexStr is := rfl
    rw [hcons, List.length_cons, List.length_cons, ih, List.length_cons]
    omega

/-! ## Blocks -/

theorem cString_length_le (is : Bytes) : (cString is).length ≤ is.length :=
  (List.takeWhile_sublist _).length_le

theorem cString_cString (is : Bytes) : cString (cString is) = cString is :=
  List.takeWhile_eq_self_iff.mpr fun _ hb => (List.mem_takeWhile_imp hb :)

/-- The zeros behind a string do not belong to it. -/
theorem cString_append_zeros (is : Bytes) (n : ℕ) :
    cString (is ++ List.replicate n 0) = cString is := by
  induction is with
  | nil =>
    cases n with
    | zero => rfl
    | succ n => rfl
  | cons b is ih =>
    by_cases hb : b = 0
    · simp [cString, hb]
    · simp only [cString, List.cons_append, List.takeWhile_cons, ne_eq, hb, not_false_eq_true,
        decide_true, if_true]
      congr 1

theorem length_buffer8 {is : Bytes} (h : is.length ≤ 8) : (buffer8 is).length = 8 := by
  rw [buffer8, List.length_append, List.length_replicate]
  omega

theorem length_des3EncDec (key input : Bytes) (opt : Opt) : (des3EncDec key input opt).length = 8 := by
  unfold des3EncDec tripleEncDec
  exact length_procEncDec _ _ _

/-- What is decrypted from a block ends before the first zero byte of the block. -/
theorem decrypted_block (key : Bytes) {block : Bytes} (h : block.length ≤ 8) :
    cString (des3EncDec key (bytes2hexStr (des3EncDec key (buffer8 block) .enc)) .dec) =
      cString block := by
  have hip : ipOf (buffer8 block) .enc = buffer8 (cString block) := by
    rw [ipOf, buffer8.eq_def block, cString_append_zeros]
  have hlen : (buffer8 (cString block)).length = 8 :=
    length_buffer8 (le_trans (cString_length_le block) h)
  have hcipher := length_des3EncDec key (buffer8 block) .enc
  have hback : ipOf (bytes2hexStr (des3EncDec key (buffer8 block) .enc)) .dec =
      des3EncDec key (buffer8 block) .enc := by
    rw [ipOf, hexStr2bytes_bytes2hexStr, buffer8, hcipher]
    exact List.append_nil _
  rw [des3EncDec, hback, des3EncDec, hip]
  have hinverse := tripleEncDec_inverse key .enc hlen
  rw [show Opt.inverse .enc = .dec from rfl] at hinverse
  rw [hinverse, buffer8, cString_append_zeros, cString_cString]

/-- As many turns as there are bytes are enough. -/
theorem eachBlock_enough {size : ℕ} (hsize : 0 < size) (f : Bytes → Bytes) {turns : ℕ}
    {content : Bytes} (h : content.length ≤ turns) :
    eachBlock size f turns content = eachBlock size f content.length content := by
  induction turns using Nat.strong_induction_on generalizing content with
  | _ turns ih =>
    cases content with
    | nil => cases turns <;> rfl
    | cons b rest =>
      have hdrop : ((b :: rest).drop size).length ≤ rest.length := by
        rw [List.length_drop, List.length_cons]
        omega
      rw [List.length_cons] at h ⊢
      cases turns with
      | zero => omega
      | succ turns =>
        rw [eachBlock, eachBlock, ih turns (by omega) (by omega)]
        by_cases heq : rest.length = turns
        · rw [heq, ih turns (by omega) (by omega)]
        · rw [ih rest.length (by omega) hdrop]

theorem eachBlock_cons {size : ℕ} (hsize : 0 < size) (f : Bytes → Bytes) {content : Bytes}
    (h : content ≠ []) : eachBlock size f content.length content = f (content.take size) ++
      eachBlock size f (content.drop size).length (content.drop size) := by
  obtain ⟨turns, hturns⟩ : ∃ turns, content.length = turns + 1 :=
    ⟨content.length - 1, by have := List.length_pos_of_ne_nil h; omega⟩
  have hdrop : (content.drop size).length ≤ turns := by
    rw [List.length_drop]
    omega
  rw [hturns, eachBlock, if_neg h, eachBlock_enough hsize f hdrop]

theorem fileEnc_block (key : Bytes) {content : Bytes} (h : content ≠ []) :
    fileEnc key content =
      bytes2hexStr (des3EncDec key (buffer8 (content.take 8)) .enc) ++ fileEnc key (content.drop 8) :=
  eachBlock_cons (by decide) _ h

theorem fileDec_block (key : Bytes) {group rest : Bytes} (h : group.length = 16) :
    fileDec key (group ++ rest) = cString (des3EncDec key group .dec) ++ fileDec key rest := by
  have hne : group ++ rest ≠ [] := by
    intro hempty
    rw [(List.append_eq_nil_iff.mp hempty).1] at h
    exact absurd h (by decide)
  rw [fileDec, eachBlock_cons (by decide) _ hne, List.take_left' h, List.drop_left' h, fileDec]

/-- The first block comes back up to its first zero byte, and then the others. -/
theorem fileDec_fileEnc (key : Bytes) {content : Bytes} (h : content ≠ []) :
    fileDec key (fileEnc key content) =
      cString (content.take 8) ++ fileDec key (fileEnc key (content.drop 8)) := by
  have hcipher : (bytes2hexStr (des3EncDec key (buffer8 (content.take 8)) .enc)).length = 16 := by
    rw [length_bytes2hexStr, length_des3EncDec]
  rw [fileEnc_block key h, fileDec_block key hcipher, decrypted_block key (List.length_take_le 8 _)]

/-! ## The round trip -/

/-- No byte is gained, and none is lost exactly when none is zero. -/
theorem fileRoundTrip_length (key content : Bytes) :
    (fileDec key (fileEnc key content)).length ≤ content.length ∧
      ((0 : UInt8) ∈ content →
        (fileDec key (fileEnc key content)).length < content.length) ∧
      ((0 : UInt8) ∉ content → fileDec key (fileEnc key content) = content) := by
  induction hn : content.length using Nat.strong_induction_on generalizing content with
  | _ n ih =>
    by_cases hempty : content = []
    · have hnothing : fileDec key (fileEnc key []) = [] := rfl
      rw [hempty, hnothing]
      exact ⟨Nat.zero_le _, fun h => absurd h List.not_mem_nil, fun _ => rfl⟩
    · have hpos : 0 < content.length := List.length_pos_of_ne_nil hempty
      have hdrop : (content.drop 8).length = n - 8 := by rw [List.length_drop, hn]
      obtain ⟨hle, hlt, heq⟩ := ih (content.drop 8).length (by omega) (content.drop 8) rfl
      have hsplit : (content.take 8).length + (content.drop 8).length = n := by
        rw [← List.length_append, List.take_append_drop, hn]
      have hblock := cString_length_le (content.take 8)
      have hmem : (0 : UInt8) ∈ content ↔
          (0 : UInt8) ∈ content.take 8 ∨ (0 : UInt8) ∈ content.drop 8 := by
        rw [← List.mem_append, List.take_append_drop]
      rw [fileDec_fileEnc key hempty, List.length_append]
      refine ⟨by omega, ?_, ?_⟩
      · intro hzero
        obtain hzero | hzero := hmem.mp hzero
        · have hshort : (cString (content.take 8)).length ≠ (content.take 8).length := by
            intro hlen
            have hall := (List.takeWhile_sublist _).eq_of_length hlen
            have hne := List.takeWhile_eq_self_iff.mp hall 0 hzero
            simp at hne
          omega
        · have hrest := hlt hzero
          omega
      · intro hzero
        have hzero := not_or.mp (fun h => hzero (hmem.mpr h))
        have hwhole : cString (content.take 8) = content.take 8 := by
          apply List.takeWhile_eq_self_iff.mpr
          intro b hb
          have hne : b ≠ 0 := fun h => hzero.1 (h ▸ hb)
          simpa using hne
        rw [heq hzero.2, hwhole, List.take_append_drop]

/-- Decrypting what was encrypted with the same key gives the file back exactly when no byte of it
is zero. -/
theorem fileDec_fileEnc_iff (key content : Bytes) :
    fileDec key (fileEnc key content) = content ↔ (0 : UInt8) ∉ content := by
  obtain ⟨-, hlt, heq⟩ := fileRoundTrip_length key content
  constructor
  · intro hsame hzero
    have hshort := hlt hzero
    rw [hsame] at hshort
    exact absurd hshort (Nat.lt_irrefl _)
  · exact heq

/-- A file of one zero byte comes back empty. -/
theorem fileDec_fileEnc_zero : ∃ key : Bytes, key.length = 16 ∧ fileDec key (fileEnc key [0]) ≠ [0] := by
  refine ⟨List.replicate 16 0, by decide, ?_⟩
  intro hsame
  obtain ⟨-, hlt, -⟩ := fileRoundTrip_length (List.replicate 16 0) [0]
  have hshort := hlt (by decide)
  rw [hsame] at hshort
  exact absurd hshort (Nat.lt_irrefl _)

end CServer.Des
