import CServer.Foundation.Feistel
import CServer.Des.DesAgreement

/-!
# Encryption and decryption of the bit string DES undo each other

The initial permutation and its inverse cancel, the conversions between bytes and bits cancel, and
the rounds with the subkeys in the other order are the rounds back.
-/
namespace CServer.Des

open Feistel

/-- The other option. -/
def Opt.inverse : Opt → Opt
  | .enc => .dec
  | .dec => .enc

/-- The three calls of `_3des_enc_dec`; the third key is the first one again. -/
def tripleEncDec (key ip : Bytes) (opt : Opt) : Bytes :=
  let key1 := key.take 8
  let key2 := (key.drop 8).take 8
  let key3 := key.take 8
  procEncDec key3 (procEncDec key2 (procEncDec key1 ip opt) opt.inverse) opt

/-! ## The permutations -/

/-- Two tables in a row are one table. -/
theorem chosen_chosen (table inner : List ℕ) (is : List Bool)
    (h : ∀ index ∈ table, index - 1 < inner.length) :
    chosen table (chosen inner is) =
      (table.map fun index => inner.getD (index - 1) 0 - 1).map fun place => is.getD place false := by
  rw [chosen, List.map_map]
  apply List.map_congr_left
  intro index hindex
  rw [getD_chosen inner is (h index hindex)]
  rfl

theorem map_getD_range (is : List Bool) :
    (List.range is.length).map (fun place => is.getD place false) = is := by
  apply List.ext_getElem
  · simp
  · intro i hi hi'
    simp [hi']

theorem getBitsByIpr_getBitsByIp {is : List Bool} (h : is.length = 64) :
    getBitsByIpr (getBitsByIp is) = is := by
  have hplaces : tblIpr.map (fun index => tblIp.getD (index - 1) 0 - 1) = List.range 64 := by decide
  rw [getBitsByIpr, getBitsByIp, chosen_chosen tblIpr tblIp is (by decide), hplaces, ← h]
  exact map_getD_range is

theorem getBitsByIp_getBitsByIpr {is : List Bool} (h : is.length = 64) :
    getBitsByIp (getBitsByIpr is) = is := by
  have hplaces : tblIp.map (fun index => tblIpr.getD (index - 1) 0 - 1) = List.range 64 := by decide
  rw [getBitsByIpr, getBitsByIp, chosen_chosen tblIp tblIpr is (by decide), hplaces, ← h]
  exact map_getD_range is

/-! ## The conversions -/

theorem length_bytes2bitsStr (is : Bytes) (inLen : ℕ) :
    (bytes2bitsStr is inLen).length = inLen * 8 := by
  rw [bytes2bitsStr, List.length_map, List.length_range]

/-- Every string of 64 bits is the one of some block. -/
theorem exists_block {bits : List Bool} (h : bits.length = 64) :
    ∃ is : Bytes, is.length = 8 ∧ bytes2bitsStr is 8 = bits := by
  obtain ⟨high, hhigh⟩ := exists_word (w := 32) (bits.take 32).reverse (by simp [h])
  obtain ⟨low, hlow⟩ := exists_word (w := 32) (bits.drop 32).reverse (by simp [h])
  refine ⟨unscrun (high, low), rfl, ?_⟩
  apply List.ext_getElem
  · rw [length_bytes2bitsStr, h]
  · intro q hq hq'
    have hq64 : q < 64 := by omega
    have hbit := blockBit_unscrun (high, low) hq64
    rw [List.getD_eq_getElem _ _ hq] at hbit
    rw [hbit, blockBit]
    split
    · rename_i h32
      rw [hhigh, List.getD_eq_getElem _ _ (by simp [h]; omega), List.getElem_reverse,
        List.getElem_take]
      congr 1
      simp [h]
      omega
    · rename_i h32
      rw [hlow, List.getD_eq_getElem _ _ (by simp [h]; omega), List.getElem_reverse,
        List.getElem_drop]
      congr 1
      simp [h]
      omega

theorem length_bitsStr2bytes {bits : List Bool} (h : bits.length = 64) :
    (bitsStr2bytes bits).length = 8 := by
  obtain ⟨is, hlen, rfl⟩ := exists_block h
  have hback := bitsStr2bytes_bytes2bitsStr is
  rw [hlen] at hback
  rw [hback, hlen]

theorem bytes2bitsStr_bitsStr2bytes {bits : List Bool} (h : bits.length = 64) :
    bytes2bitsStr (bitsStr2bytes bits) 8 = bits := by
  obtain ⟨is, hlen, rfl⟩ := exists_block h
  have hback := bitsStr2bytes_bytes2bitsStr is
  rw [hlen] at hback
  rw [hback]

/-! ## The rounds -/

/-- The function of round `i`. -/
def roundFunction (opt : Opt) (keys : List (List Bool)) (i : ℕ) (data : List Bool) : List Bool :=
  getBitsByFunc data (keys.getD (if opt = .enc then i else 15 - i) [])

theorem inputDataLists_eq_rounds (opt : Opt) (keys : List (List Bool))
    (start : List Bool × List Bool) (i : ℕ) :
    inputDataLists opt keys start i = rounds xorBitsStr (roundFunction opt keys) start i := by
  induction i with
  | zero => rfl
  | succ i ih =>
    rw [inputDataLists, ih]
    rfl

theorem length_roundFunction (opt : Opt) (keys : List (List Bool)) (i : ℕ) (data : List Bool) :
    (roundFunction opt keys i data).length = 32 := by
  rw [roundFunction, getBitsByFunc, chosen, List.length_map]
  rfl

/-- `xor_bits_str` twice with one string of the same length. -/
theorem xorBitsStr_cancels : Cancels xorBitsStr fun half => half.length = 32 where
  closed := by
    intro a b ha hb
    rw [xorBitsStr, List.length_zipWith, ha, hb]
    rfl
  cancel := by
    intro a b ha hb
    apply List.ext_getElem
    · simp [xorBitsStr, ha, hb]
    · intro i hi hi'
      simp [xorBitsStr]

theorem roundFunction_inverse (opt : Opt) (keys : List (List Bool)) :
    ∀ i < 16, roundFunction opt.inverse keys i = roundFunction opt keys (16 - 1 - i) := by
  intro i hi
  funext data
  cases opt with
  | enc => rfl
  | dec =>
    have hback : 15 - (16 - 1 - i) = i := by omega
    show getBitsByFunc data (keys.getD i []) =
      getBitsByFunc data (keys.getD (15 - (16 - 1 - i)) [])
    rw [hback]

/-! ## One block -/

theorem startData_of_bits {input : Bytes} {left right : List Bool} (hleft : left.length = 32)
    (hright : right.length = 32) (h : bytes2bitsStr input 8 = getBitsByIpr (left ++ right)) :
    startData input = (left, right) := by
  rw [startData, h, getBitsByIp_getBitsByIpr (by simp [hleft, hright])]
  rw [List.take_left' hleft, List.drop_left' hleft, List.take_of_length_le (Nat.le_of_eq hright)]

theorem length_startData (input : Bytes) :
    (startData input).1.length = 32 ∧ (startData input).2.length = 32 := ⟨rfl, rfl⟩

theorem append_startData (input : Bytes) :
    (startData input).1 ++ (startData input).2 = getBitsByIp (bytes2bitsStr input 8) := by
  have hrest : ((getBitsByIp (bytes2bitsStr input 8)).drop 32).length ≤ 32 := Nat.le_refl 32
  show (getBitsByIp (bytes2bitsStr input 8)).take 32 ++
    ((getBitsByIp (bytes2bitsStr input 8)).drop 32).take 32 = _
  rw [List.take_of_length_le hrest, List.take_append_drop]

theorem length_procEncDec (key input : Bytes) (opt : Opt) :
    (procEncDec key input opt).length = 8 :=
  length_bitsStr2bytes rfl

/-- The block comes back, for each key and in each order of the options. -/
theorem procEncDec_inverse {input : Bytes} (key : Bytes) (opt : Opt) (h : input.length = 8) :
    procEncDec key (procEncDec key input opt) opt.inverse = input := by
  obtain ⟨hleft, hright⟩ := length_startData input
  set last := rounds xorBitsStr (roundFunction opt (key48BitsList key)) (startData input) 16
    with hlast
  obtain ⟨hleft', hright'⟩ := xorBitsStr_cancels.rounds
    (F := roundFunction opt (key48BitsList key))
    (fun i a _ => length_roundFunction opt (key48BitsList key) i a) hleft hright 16
  have hproc : procEncDec key input opt = bitsStr2bytes (getBitsByIpr (last.2 ++ last.1)) := by
    rw [procEncDec, inputDataLists_eq_rounds]
  have hbits : bytes2bitsStr (procEncDec key input opt) 8 = getBitsByIpr (last.2 ++ last.1) := by
    rw [hproc]
    exact bytes2bitsStr_bitsStr2bytes rfl
  have hstart : startData (procEncDec key input opt) = last.swap :=
    startData_of_bits hright' hleft' hbits
  have hundo := xorBitsStr_cancels.rounds_undo
    (F := roundFunction opt (key48BitsList key))
    (G := roundFunction opt.inverse (key48BitsList key))
    (fun i a _ => length_roundFunction opt (key48BitsList key) i a) hleft hright 16
    (roundFunction_inverse opt (key48BitsList key))
  rw [procEncDec, inputDataLists_eq_rounds, hstart, hundo]
  show bitsStr2bytes (getBitsByIpr ((startData input).1 ++ (startData input).2)) = input
  rw [append_startData, getBitsByIpr_getBitsByIp (length_bytes2bitsStr input 8), ← h]
  exact bitsStr2bytes_bytes2bitsStr input

/-- The three calls are undone by the three calls with the other option. -/
theorem tripleEncDec_inverse {input : Bytes} (key : Bytes) (opt : Opt) (h : input.length = 8) :
    tripleEncDec key (tripleEncDec key input opt) opt.inverse = input := by
  have hinner := procEncDec_inverse (key.take 8) opt
    (length_procEncDec ((key.drop 8).take 8) (procEncDec (key.take 8) input opt) opt.inverse)
  have hmiddle := procEncDec_inverse ((key.drop 8).take 8) opt.inverse
    (length_procEncDec (key.take 8) input opt)
  rw [tripleEncDec, tripleEncDec, hinner, hmiddle]
  exact procEncDec_inverse (key.take 8) opt h

/-- On blocks of eight bytes both options of `proc_enc_dec` undo each other, and so do both options
of the three calls with two keys. -/
theorem encryption_decryption_inverse {input : Bytes} (key : Bytes) (h : input.length = 8) :
    (procEncDec key (procEncDec key input .enc) .dec = input ∧
      procEncDec key (procEncDec key input .dec) .enc = input) ∧
    tripleEncDec key (tripleEncDec key input .enc) .dec = input ∧
      tripleEncDec key (tripleEncDec key input .dec) .enc = input :=
  ⟨⟨procEncDec_inverse key .enc h, procEncDec_inverse key .dec h⟩,
    tripleEncDec_inverse key .enc h, tripleEncDec_inverse key .dec h⟩

theorem encryption_decryption_inverse_zero :
    procEncDec [1, 2, 3, 4, 5, 6, 7, 8]
      (procEncDec [1, 2, 3, 4, 5, 6, 7, 8] (List.replicate 8 0) .enc) .dec = List.replicate 8 0 :=
  (encryption_decryption_inverse [1, 2, 3, 4, 5, 6, 7, 8] (by decide)).1.1

end CServer.Des
