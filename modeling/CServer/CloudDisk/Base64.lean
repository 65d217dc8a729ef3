import CServer.CloudDisk.Upload
import Mathlib.Data.List.Nodup
import Mathlib.Tactic.IntervalCases

/-!
# Base64

`base64_encode` and `base64_decode` of base64.c. A loop that walks an array by an index is a
recursion on the part of the array from that index on, and the target array is the list of
the bytes written to it in order. The counters are unbounded. A read beyond the end of the
buffer is a `Fault`.
-/
namespace CServer.CloudDisk

/-- `base64char`. -/
def base64char : Bytes :=
  bytes "ABCDEFGHIJKLMNOPQRSTUVWXYZabcdefghijklmnopqrstuvwxyz0123456789+/"

/-- The padding character. -/
abbrev pad : UInt8 := 61

/-- `base64char[(int)current]`. -/
def base64charAt (current : UInt8) : UInt8 := base64char.getD current.toNat 0

/-- The upper six bits of the first byte of a group. -/
def sextet₀ (b₀ : UInt8) : UInt8 := (b₀ >>> 2) &&& (0x3F : UInt8)

/-- What the first byte leaves for the second character. -/
def carry₀ (b₀ : UInt8) : UInt8 := (b₀ <<< 4) &&& (0x30 : UInt8)

/-- What the second byte leaves for the third character. -/
def carry₁ (b₁ : UInt8) : UInt8 := (b₁ <<< 2) &&& (0x3C : UInt8)

def sextet₁ (b₀ b₁ : UInt8) : UInt8 := carry₀ b₀ ||| ((b₁ >>> 4) &&& (0x0F : UInt8))

def sextet₂ (b₁ b₂ : UInt8) : UInt8 := carry₁ b₁ ||| ((b₂ >>> 6) &&& (0x03 : UInt8))

def sextet₃ (b₂ : UInt8) : UInt8 := b₂ &&& (0x3F : UInt8)

/-- The loop of `base64_encode` from `bindata[i]` on. -/
def base64EncodeFrom : Bytes → Bytes
  | [] => []
  | [b₀] => [base64charAt (sextet₀ b₀), base64charAt (carry₀ b₀), pad, pad]
  | [b₀, b₁] =>
    [base64charAt (sextet₀ b₀), base64charAt (sextet₁ b₀ b₁), base64charAt (carry₁ b₁), pad]
  | b₀ :: b₁ :: b₂ :: bindata =>
    base64charAt (sextet₀ b₀) :: base64charAt (sextet₁ b₀ b₁) ::
      base64charAt (sextet₂ b₁ b₂) :: base64charAt (sextet₃ b₂) :: base64EncodeFrom bindata

/-- `base64_encode`: the text with its terminator. -/
def base64Encode (bindata : Bytes) : Bytes := base64EncodeFrom bindata ++ [0]

/-- One of the four inner loops of `base64_decode`. The place keeps the 0xFF of `memset`
where no character of the alphabet matches, else the last index that does. -/
def sextetOf (c : UInt8) : UInt8 :=
  (List.range 64).foldl (fun temp k => if base64char.getD k 0 = c then UInt8.ofNat k else temp)
    0xFF

def byte₀ (t₀ t₁ : UInt8) : UInt8 :=
  ((t₀ <<< 2) &&& (0xFC : UInt8)) ||| ((t₁ >>> 4) &&& (0x03 : UInt8))

def byte₁ (t₁ t₂ : UInt8) : UInt8 :=
  ((t₁ <<< 4) &&& (0xF0 : UInt8)) ||| ((t₂ >>> 2) &&& (0x0F : UInt8))

/-- The mask of the source is 0xF0 here too; the bits it lets through below the upper two
are zero after the shift. -/
def byte₂ (t₂ t₃ : UInt8) : UInt8 :=
  ((t₂ <<< 6) &&& (0xF0 : UInt8)) ||| (t₃ &&& (0x3F : UInt8))

/-- The loop of `base64_decode` from `base64[i]` on. -/
def base64DecodeFrom : Bytes → Except Fault Bytes
  | [] => .error .readOutside
  | c₀ :: base64 =>
    if c₀ = 0 then .ok []
    else match base64 with
      | c₁ :: c₂ :: c₃ :: base64 =>
        let first := byte₀ (sextetOf c₀) (sextetOf c₁)
        let second := byte₁ (sextetOf c₁) (sextetOf c₂)
        let third := byte₂ (sextetOf c₂) (sextetOf c₃)
        if c₂ = pad then .ok [first]
        else if c₃ = pad then .ok [first, second]
        else (base64DecodeFrom base64).map ([first, second, third] ++ ·)
      | _ => .error .readOutside

/-- `base64_decode`: the bytes written to `bindata` and the count returned. -/
def base64Decode (base64 : Bytes) : Except Fault (Bytes × ℤ) :=
  (base64DecodeFrom base64).map (fun bindata => (bindata, (bindata.length : ℤ)))

/-! ## The alphabet -/

/-- A search that keeps the last hit finds the only one. -/
theorem foldl_range_of_unique {α : Type*} (p : ℕ → Prop) [DecidablePred p] (f : ℕ → α) (a : α)
    {n j : ℕ} (hj : j < n) (hp : ∀ k, k < n → (p k ↔ k = j)) :
    (List.range n).foldl (fun t k => if p k then f k else t) a = f j := by
  induction n with
  | zero => omega
  | succ n ih =>
    rw [List.range_succ, List.foldl_append, List.foldl_cons, List.foldl_nil]
    by_cases hn : j = n
    · have hit : p n := (hp n (by omega)).mpr hn.symm
      rw [if_pos hit, hn]
    · have miss : ¬ p n := fun h => hn ((hp n (by omega)).mp h).symm
      rw [if_neg miss]
      exact ih (by omega) (fun k hk => hp k (by omega))

/-- The letters, the digits and two signs. -/
theorem base64char_eq : base64char = (List.range' 65 26 ++ List.range' 97 26 ++ List.range' 48 10 ++
    [43, 47]).map UInt8.ofNat := by
  decide

theorem length_base64char : base64char.length = 64 := by
  rw [base64char_eq]
  decide

theorem base64char_nodup : base64char.Nodup := by
  rw [base64char_eq]
  decide

theorem base64char_reserved : 0 ∉ base64char ∧ pad ∉ base64char := by
  rw [base64char_eq]
  decide

theorem base64char_getD {i : ℕ} (hi : i < 64) :
    base64char.getD i 0 = base64char.get ⟨i, length_base64char.symm ▸ hi⟩ := by
  rw [List.getD_eq_getElem?_getD, List.getElem?_eq_getElem (length_base64char.symm ▸ hi)]
  rfl

theorem base64char_injective :
    ∀ i < 64, ∀ j < 64, base64char.getD i 0 = base64char.getD j 0 → i = j := by
  intro i hi j hj h
  rw [base64char_getD hi, base64char_getD hj] at h
  exact Fin.mk.inj (List.nodup_iff_injective_get.mp base64char_nodup h)

theorem base64char_ne_reserved :
    ∀ i < 64, base64char.getD i 0 ≠ 0 ∧ base64char.getD i 0 ≠ pad := by
  intro i hi
  rw [base64char_getD hi]
  have hmem := base64char.get_mem ⟨i, length_base64char.symm ▸ hi⟩
  constructor
  · intro h
    exact base64char_reserved.1 (h ▸ hmem)
  · intro h
    exact base64char_reserved.2 (h ▸ hmem)

theorem base64charAt_ne_zero {t : UInt8} (ht : t.toNat < 64) : base64charAt t ≠ 0 :=
  (base64char_ne_reserved t.toNat ht).1

theorem base64charAt_ne_pad {t : UInt8} (ht : t.toNat < 64) : base64charAt t ≠ pad :=
  (base64char_ne_reserved t.toNat ht).2

/-- The inner loop finds the index the character was taken from. -/
theorem sextetOf_base64charAt {t : UInt8} (ht : t.toNat < 64) :
    sextetOf (base64charAt t) = t := by
  have only : ∀ k, k < 64 → (base64char.getD k 0 = base64charAt t ↔ k = t.toNat) := by
    intro k hk
    constructor
    · intro h
      exact base64char_injective k hk t.toNat ht h
    · intro h
      rw [h, base64charAt]
  unfold sextetOf
  rw [foldl_range_of_unique _ UInt8.ofNat 0xFF ht only]
  exact UInt8.ofNat_toNat

/-! ## Six bits at a time -/

theorem toNat_and_lt {a m : UInt8} (hm : m.toNat < 64) : (a &&& m).toNat < 64 := by
  rw [UInt8.toNat_and]
  have := Nat.and_le_right (n := a.toNat) (m := m.toNat)
  omega

theorem toNat_or_lt {a b : UInt8} (ha : a.toNat < 64) (hb : b.toNat < 64) :
    (a ||| b).toNat < 64 := by
  rw [UInt8.toNat_or]
  exact Nat.or_lt_two_pow (n := 6) ha hb

theorem sextet₀_lt (b₀ : UInt8) : (sextet₀ b₀).toNat < 64 := toNat_and_lt (by decide)

theorem carry₀_lt (b₀ : UInt8) : (carry₀ b₀).toNat < 64 := toNat_and_lt (by decide)

theorem carry₁_lt (b₁ : UInt8) : (carry₁ b₁).toNat < 64 := toNat_and_lt (by decide)

theorem sextet₁_lt (b₀ b₁ : UInt8) : (sextet₁ b₀ b₁).toNat < 64 :=
  toNat_or_lt (carry₀_lt b₀) (toNat_and_lt (by decide))

theorem sextet₂_lt (b₁ b₂ : UInt8) : (sextet₂ b₁ b₂).toNat < 64 :=
  toNat_or_lt (carry₁_lt b₁) (toNat_and_lt (by decide))

theorem sextet₃_lt (b₂ : UInt8) : (sextet₃ b₂).toNat < 64 := toNat_and_lt (by decide)

/-- The first byte comes back from the first two sextets, bit by bit. -/
theorem byte₀_sextet₁ (b₀ b₁ : UInt8) : byte₀ (sextet₀ b₀) (sextet₁ b₀ b₁) = b₀ := by
  apply UInt8.eq_of_toBitVec_eq
  ext i hi
  interval_cases i <;> simp [byte₀, sextet₀, sextet₁, carry₀]

theorem byte₀_carry₀ (b₀ : UInt8) : byte₀ (sextet₀ b₀) (carry₀ b₀) = b₀ := by
  apply UInt8.eq_of_toBitVec_eq
  ext i hi
  interval_cases i <;> simp [byte₀, sextet₀, carry₀]

theorem byte₁_sextet₂ (b₀ b₁ b₂ : UInt8) : byte₁ (sextet₁ b₀ b₁) (sextet₂ b₁ b₂) = b₁ := by
  apply UInt8.eq_of_toBitVec_eq
  ext i hi
  interval_cases i <;> simp [byte₁, sextet₁, sextet₂, carry₀, carry₁]

theorem byte₁_carry₁ (b₀ b₁ : UInt8) : byte₁ (sextet₁ b₀ b₁) (carry₁ b₁) = b₁ := by
  apply UInt8.eq_of_toBitVec_eq
  ext i hi
  interval_cases i <;> simp [byte₁, sextet₁, carry₀, carry₁]

theorem byte₂_sextet₃ (b₁ b₂ : UInt8) : byte₂ (sextet₂ b₁ b₂) (sextet₃ b₂) = b₂ := by
  apply UInt8.eq_of_toBitVec_eq
  ext i hi
  interval_cases i <;> simp [byte₂, sextet₂, sextet₃, carry₁]

/-! ## The round trip -/

/-- The decoder's loop, started where the encoder's loop wrote, gives the bytes back and does
not look at anything behind the terminator. -/
theorem base64DecodeFrom_base64EncodeFrom (bindata tail : Bytes) :
    base64DecodeFrom (base64EncodeFrom bindata ++ 0 :: tail) = .ok bindata := by
  -- by groups, as the encoder takes them: the two last cases are the padded ones
  induction bindata using base64EncodeFrom.induct with
  | case1 =>
    rw [base64EncodeFrom, List.nil_append, base64DecodeFrom.eq_def]
    exact if_pos rfl
  | case2 b₀ =>
    have stay := base64charAt_ne_zero (sextet₀_lt b₀)
    simp [base64EncodeFrom, base64DecodeFrom, stay,
      sextetOf_base64charAt (sextet₀_lt b₀), sextetOf_base64charAt (carry₀_lt b₀),
      byte₀_carry₀]
  | case3 b₀ b₁ =>
    have stay := base64charAt_ne_zero (sextet₀_lt b₀)
    have full := base64charAt_ne_pad (carry₁_lt b₁)
    simp [base64EncodeFrom, base64DecodeFrom, stay, full,
      sextetOf_base64charAt (sextet₀_lt b₀), sextetOf_base64charAt (sextet₁_lt b₀ b₁),
      sextetOf_base64charAt (carry₁_lt b₁), byte₀_sextet₁, byte₁_carry₁]
  | case4 b₀ b₁ b₂ bindata ih =>
    have stay := base64charAt_ne_zero (sextet₀_lt b₀)
    have full₂ := base64charAt_ne_pad (sextet₂_lt b₁ b₂)
    have full₃ := base64charAt_ne_pad (sextet₃_lt b₂)
    simp only [base64EncodeFrom, List.cons_append, base64DecodeFrom, stay, full₂, full₃,
      if_false, ih, sextetOf_base64charAt (sextet₀_lt b₀),
      sextetOf_base64charAt (sextet₁_lt b₀ b₁), sextetOf_base64charAt (sextet₂_lt b₁ b₂),
      sextetOf_base64charAt (sextet₃_lt b₂), byte₀_sextet₁, byte₁_sextet₂, byte₂_sextet₃,
      Except.map, List.nil_append]

example : base64Encode (bytes "any") = bytes "YW55" ++ [0] := by decide

end CServer.CloudDisk
