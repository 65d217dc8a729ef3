import Mathlib.Data.UInt

/-!
# The addresses of UtilPdu.cc

`idtourl` writes twice the number and 56 in the base 36, behind a version digit, into the end of a
buffer of 64 bytes. `urltoid` reads it back. Both compute in the type `uint32_t`.
-/
namespace CServer.ShortUrl

/-- The array `digits`. -/
def digits : List Char := "0123456789abcdefghijklmnopqrstuvwxyz".toList

/-- The loop of `idtourl` with `room` bytes in front of `ptr`; `text` is what stands from `ptr` on.
No result means that `ptr` has left the buffer. -/
def digitLoop : ℕ → ℕ → List Char → Option (ℕ × List Char)
  | 0, _, _ => none
  | room + 1, value, text =>
    let text := digits.getD (value % 36) '0' :: text
    let value := value / 36
    if 0 < room ∧ value ≠ 0 then digitLoop room value text else some (room, text)

/-- `idtourl`. -/
def idtourl (id : UInt32) : Option (List Char) :=
  let value := id * 2 + 56
  match digitLoop 63 value.toNat [] with
  | some (_ + 1, text) => some ('1' :: text)
  | _ => none

/-- The value of a character, if it is a digit or a letter. -/
def valueOf (c : Char) : Option UInt32 :=
  if '0' ≤ c ∧ c ≤ '9' then some (c.val - '0'.val)
  else if 'a' ≤ c ∧ c ≤ 'z' then some (c.val - ('a'.val - 10))
  else if 'A' ≤ c ∧ c ≤ 'Z' then some (c.val - ('A'.val - 10))
  else none

/-- A turn of the loop of `urltoid`. -/
def readDigit (number : UInt32) (c : Char) : UInt32 :=
  match valueOf c with
  | some value => number * 36 + value
  | none => number

/-- `urltoid`, which does not look at the first character. -/
def urltoid (url : List Char) : UInt32 := (url.tail.foldl readDigit 0 - 56) >>> 1

/-! ## The digits -/

theorem valueOf_digit : ∀ n : Fin 36, valueOf (digits.getD n '0') = some (UInt32.ofNat n) := by
  decide

theorem readDigit_digit {value : ℕ} (number : UInt32) :
    readDigit number (digits.getD (value % 36) '0') = number * 36 + UInt32.ofNat (value % 36) := by
  have hdigit := valueOf_digit ⟨value % 36, Nat.mod_lt _ (by decide)⟩
  rw [readDigit, hdigit]

/-- The loop ends in the buffer, and what it has written reads as the number. -/
theorem digitLoop_spec (room : ℕ) : ∀ value text, value < 36 ^ room → 0 < room →
    ∃ left written, digitLoop (room + 1) value text = some (left + 1, written ++ text) ∧
      written.foldl readDigit 0 = UInt32.ofNat value := by
  induction room with
  | zero => exact fun value text _ hroom => absurd hroom (Nat.lt_irrefl 0)
  | succ room ih =>
    intro value text hvalue _
    rw [digitLoop]
    by_cases hlast : value / 36 = 0
    · have hmod : value % 36 = value := Nat.mod_eq_of_lt (by omega)
      refine ⟨room, [digits.getD (value % 36) '0'], if_neg fun hmore => hmore.2 hlast, ?_⟩
      rw [List.foldl_cons, List.foldl_nil, readDigit_digit, hmod]
      exact UInt32.zero_add _
    · have hroom : 0 < room := by
        refine Nat.pos_of_ne_zero fun hzero => hlast ?_
        rw [hzero] at hvalue
        omega
      have hless : value / 36 < 36 ^ room := by
        rw [pow_succ] at hvalue
        omega
      obtain ⟨left, written, hloop, hread⟩ :=
        ih (value / 36) (digits.getD (value % 36) '0' :: text) hless hroom
      refine ⟨left, written ++ [digits.getD (value % 36) '0'], ?_, ?_⟩
      · rw [if_pos ⟨Nat.succ_pos room, hlast⟩, hloop, List.append_assoc]
        rfl
      · rw [List.foldl_append, hread, List.foldl_cons, List.foldl_nil, readDigit_digit,
          show (36 : UInt32) = UInt32.ofNat 36 from rfl, ← UInt32.ofNat_mul, ← UInt32.ofNat_add,
          Nat.div_add_mod']

/-- A large letter counts like its small one. -/
theorem valueOf_toLower (c : Char) : valueOf c.toLower = valueOf c := by
  by_cases hlarge : c.val ≥ 65 ∧ c.val ≤ 90
  · have hall : ∀ n : Fin 26, valueOf (Char.ofNat (65 + n.val)).toLower =
        valueOf (Char.ofNat (65 + n.val)) := by decide
    have hlow : 65 ≤ c.toNat := hlarge.1
    have hhigh : c.toNat ≤ 90 := hlarge.2
    have hcase := hall ⟨c.toNat - 65, by omega⟩
    rwa [Nat.add_sub_cancel' hlow, Char.ofNat_toNat] at hcase
  · have hsame : c.toLower = c := dif_neg hlarge
    rw [hsame]

theorem foldl_toLower (text : List Char) : ∀ number,
    (text.map Char.toLower).foldl readDigit number = text.foldl readDigit number := by
  induction text with
  | nil => intro number; rfl
  | cons c text ih =>
    intro number
    rw [List.map_cons, List.foldl_cons, List.foldl_cons, readDigit, valueOf_toLower, ← readDigit, ih]

/-- An address has its place in the buffer, and in small or in large letters it leads back to the
last 31 bits of the number. -/
theorem urltoid_idtourl (id : UInt32) : ∃ url, idtourl id = some url ∧
    ∀ typed : List Char, typed.map Char.toLower = url → (urltoid typed).toNat = id.toNat % 2 ^ 31 := by
  have hvalue : (id * 2 + 56).toNat < 36 ^ 62 :=
    Nat.lt_trans (UInt32.toNat_lt _) (by decide)
  obtain ⟨left, written, hloop, hread⟩ := digitLoop_spec 62 _ [] hvalue (by decide)
  rw [List.append_nil] at hloop
  refine ⟨'1' :: written, ?_, fun typed htyped => ?_⟩
  · simp only [idtourl, hloop]
  · have htail : typed.tail.foldl readDigit 0 = id * 2 + 56 := by
      rw [← foldl_toLower, List.map_tail, htyped, List.tail_cons, hread, UInt32.ofNat_toNat]
    rw [urltoid, htail, UInt32.add_sub_cancel, UInt32.toNat_shiftRight, UInt32.toNat_mul]
    show (id.toNat * 2 % 2 ^ 32) >>> 1 = id.toNat % 2 ^ 31
    rw [Nat.shiftRight_eq_div_pow]
    omega

end CServer.ShortUrl
