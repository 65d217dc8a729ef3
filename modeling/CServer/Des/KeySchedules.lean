import CServer.Des.RoundFunctions
import Mathlib.Tactic.IntervalCases

/-!
# The two key schedules

`deskey` turns the halves of the key by running totals and sets the bits of two words in a
loop, and `cookey` moves the words' groups of six bits to the places where a half round looks
for them. The textbook moves the halves step by step and selects 48 characters.
-/
namespace CServer.Des

/-- `cookey` works on each pair of words. -/
theorem cookey_flatMap {w : ℕ} (raw0 raw1 : ℕ → BitVec w) (L : List ℕ) :
    cookey (L.flatMap fun i => [raw0 i, raw1 i]) = L.flatMap fun i => cook (raw0 i) (raw1 i) := by
  induction L with
  | nil => rfl
  | cons i L ih =>
    rw [List.flatMap_cons, List.flatMap_cons, ← ih]
    rfl

/-- The words of the key for round `i`. -/
def roundWords (key : Bytes) (i : ℕ) : List (BitVec 32) := cook (knWord key i 0) (knWord key i 24)

theorem localKey_eq (key : Bytes) (uninit : ℕ → BitVec 32) {i k : ℕ} (hi : i < 16) (hk : k < 2) :
    localKey (copied (cookey (deskey key .en0))) uninit (2 * i + k) =
      (roundWords key i).getD k 0 := by
  have hwords : cookey (deskey key .en0) = (List.range 16).flatMap (roundWords key) := by
    rw [deskey, cookey_flatMap]
    rfl
  have hlen : ((List.range 16).flatMap (roundWords key)).length = 32 := rfl
  have hcopied : copied ((List.range 16).flatMap (roundWords key)) =
      (List.range 16).flatMap (roundWords key) :=
    List.take_of_length_le (Nat.le_of_eq hlen)
  have hplace := getElem?_flatMap_range (roundWords key) 2 16 (fun _ _ => rfl) (q := 2 * i + k)
    (by omega)
  have hdiv : (2 * i + k) / 2 = i := by omega
  have hmod : (2 * i + k) % 2 = k := by omega
  have hin : k < (roundWords key i).length := hk
  rw [localKey, hwords, hcopied, hcopied, hplace, hdiv, hmod, List.getElem?_eq_getElem hin,
    List.getD_eq_getElem?_getD, List.getElem?_eq_getElem hin]
  rfl

/-- Each entry of `bigbyte` is one bit, the highest first. -/
theorem testBit_bigbyte : ∀ j < 24, ∀ p < 24, (bigbyte.getD j 0).testBit p = decide (23 - p = j) := by
  decide

theorem getLsbD_knWord (key : Bytes) (i offset : ℕ) {p : ℕ} (hp : p < 24) :
    (knWord key i offset : BitVec 32).getLsbD p = pcr key i (pc2.getD (23 - p + offset) 0) := by
  have hstart : (0 : BitVec 32).getLsbD p = false := BitVec.getLsbD_zero
  rw [knWord, getLsbD_foldl_or (fun j => pcr key i (pc2.getD (j + offset) 0))
    (fun j => bigbyte.getD j 0) _ _ _ (by omega), hstart, Bool.false_or]
  apply any_range_single (fun j => pcr key i (pc2.getD (j + offset) 0)) (by omega)
  intro j hj
  rw [testBit_bigbyte j hj p hp, Bool.and_comm]

/-- Where `cookey` puts the bits of its words. -/
theorem keyBit_cook (raw0 raw1 : BitVec 32) : ∀ g < 8, ∀ m < 6,
    keyBit ((cook raw0 raw1).getD 0 0) ((cook raw0 raw1).getD 1 0) g m =
      if g < 4 then raw0.getLsbD (23 - (g * 6 + m)) else raw1.getLsbD (47 - (g * 6 + m)) := by
  intro g hg m hm
  interval_cases g <;> interval_cases m <;> simp [keyBit, cook]

/-! ## The textbook schedule -/

theorem length_movedHalf {half : List Bool} (h : half.length = 28) (i : ℕ) :
    (movedHalf half i).length = 28 := by
  induction i with
  | zero => exact h
  | succ i ih =>
    rw [movedHalf, List.length_append, List.length_drop, List.length_take, ih]
    omega

/-- How far the halves are turned after `i` moves. -/
def turns (i : ℕ) : ℕ := (tblMove.take i).sum

theorem turns_succ : ∀ i < 16, turns (i + 1) = turns i + tblMove.getD i 0 ∧ tblMove.getD i 0 < 28 := by
  decide

theorem totrot_eq_turns : ∀ i < 16, totrot.getD i 0 = turns (i + 1) ∧ totrot.getD i 0 ≤ 28 := by
  decide

theorem getElem?_movedHalf {half : List Bool} (h : half.length = 28) {i : ℕ} (hi : i ≤ 16) {j : ℕ}
    (hj : j < 28) : (movedHalf half i)[j]? = half[(j + turns i) % 28]? := by
  induction i generalizing j with
  | zero =>
    have hplace : (j + turns 0) % 28 = j := Nat.mod_eq_of_lt hj
    rw [hplace]
    rfl
  | succ i ih =>
    obtain ⟨hturns, hmove⟩ := turns_succ i (by omega)
    have hlen := length_movedHalf h i
    rw [movedHalf, List.getElem?_append, List.length_drop, hlen, hturns]
    by_cases hlow : j < 28 - tblMove.getD i 0
    · rw [if_pos hlow, List.getElem?_drop, ih (by omega) (by omega)]
      congr 1
      omega
    · rw [if_neg hlow, List.getElem?_take_of_lt (by omega), ih (by omega) (by omega)]
      congr 1
      omega

theorem bytebit_eq : ∀ k < 8, bytebit.getD k 0 = 1 <<< (7 - k) := by decide

theorem getElem?_bytes2bitsStr (is : Bytes) {inLen q : ℕ} (hq : q < inLen * 8) :
    (bytes2bitsStr is inLen)[q]? =
      some (decide ((is.getD (q / 8) 0).toNat &&& (1 <<< (7 - q % 8)) ≠ 0)) := by
  rw [bytes2bitsStr, List.getElem?_map, List.getElem?_range hq]
  rfl

/-- Both tables for the first selection are the same, counted from zero and from one. -/
theorem pc1_eq : ∀ j < 56, pc1.getD j 0 = tblPc1.getD j 0 - 1 ∧ pc1.getD j 0 < 64 := by decide

theorem pc1m_eq (key : Bytes) {j : ℕ} (hj : j < 56) :
    (getBitsByPc1 (bytes2bitsStr key 8))[j]? = some (pc1m key j) := by
  obtain ⟨htable, hlt⟩ := pc1_eq j hj
  have hin : j < tblPc1.length := hj
  have hplace : tblPc1.getD j 0 = tblPc1[j] := by
    rw [List.getD_eq_getElem?_getD, List.getElem?_eq_getElem hin]
    rfl
  rw [getBitsByPc1, chosen, List.getElem?_map, List.getElem?_eq_getElem hin, Option.map_some,
    ← hplace, ← htable, List.getD_eq_getElem?_getD, getElem?_bytes2bitsStr key hlt, pc1m,
    bytebit_eq _ (Nat.mod_lt _ (by omega))]
  rfl

/-- Both tables for the second selection are the same, counted from zero and from one. -/
theorem pc2_eq : ∀ q < 48, pc2.getD q 0 = tblPc2.getD q 0 - 1 ∧ pc2.getD q 0 < 56 := by decide

/-- The 56 characters of a round, before the second selection. -/
theorem pcr_eq (key : Bytes) {i : ℕ} (hi : i < 16) {j : ℕ} (hj : j < 56) :
    (movedHalf ((getBitsByPc1 (bytes2bitsStr key 8)).take 28) (i + 1) ++
      movedHalf (((getBitsByPc1 (bytes2bitsStr key 8)).drop 28).take 28) (i + 1))[j]? =
      some (pcr key i j) := by
  obtain ⟨hturns, hle⟩ := totrot_eq_turns i hi
  set bits := getBitsByPc1 (bytes2bitsStr key 8) with hbits
  have hleft : (bits.take 28).length = 28 := rfl
  have hright : ((bits.drop 28).take 28).length = 28 := rfl
  rw [List.getElem?_append, length_movedHalf hleft, pcr]
  by_cases hlow : j < 28
  · rw [if_pos hlow, if_pos hlow, getElem?_movedHalf hleft (by omega) hlow, ← hturns,
      List.getElem?_take_of_lt (Nat.mod_lt _ (by omega)), hbits, pc1m_eq key (by omega)]
    split
    · rename_i hl
      rw [Nat.mod_eq_of_lt hl]
    · rename_i hl
      have hmod : (j + totrot.getD i 0) % 28 = j + totrot.getD i 0 - 28 := by omega
      rw [hmod]
  · rw [if_neg hlow, if_neg hlow, getElem?_movedHalf hright (by omega) (by omega), ← hturns,
      List.getElem?_take_of_lt (Nat.mod_lt _ (by omega)), List.getElem?_drop, hbits,
      pc1m_eq key (by omega)]
    split
    · rename_i hl
      have hmod : 28 + (j - 28 + totrot.getD i 0) % 28 = j + totrot.getD i 0 := by omega
      rw [hmod]
    · rename_i hl
      have hmod : 28 + (j - 28 + totrot.getD i 0) % 28 = j + totrot.getD i 0 - 28 := by omega
      rw [hmod]

theorem getD_map_range {α : Type} (f : ℕ → α) {n i : ℕ} (hi : i < n) (d : α) :
    ((List.range n).map f).getD i d = f i := by
  rw [List.getD_eq_getElem?_getD, List.getElem?_map, List.getElem?_range hi]
  rfl

/-- The key of a round is selected from the halves after that many moves. -/
theorem key48BitsList_getD (key : Bytes) {i : ℕ} (hi : i < 16) :
    (key48BitsList key).getD i [] = chosen tblPc2
      (movedHalf ((getBitsByPc1 (bytes2bitsStr key 8)).take 28) (i + 1) ++
        movedHalf (((getBitsByPc1 (bytes2bitsStr key 8)).drop 28).take 28) (i + 1)) := by
  rw [key48BitsList, getBitsListByPc2, List.map_map, getD_map_range _ hi, Function.comp_apply,
    getBitsListByMove, getD_map_range _ (by omega), getD_map_range _ (by omega)]

theorem getD_key48BitsList (key : Bytes) {i : ℕ} (hi : i < 16) {q : ℕ} (hq : q < 48) :
    ((key48BitsList key).getD i []).getD q false = pcr key i (pc2.getD q 0) := by
  obtain ⟨htable, hlt⟩ := pc2_eq q hq
  rw [key48BitsList_getD key hi, getD_chosen tblPc2 _ hq, ← htable, List.getD_eq_getElem?_getD,
    pcr_eq key hi hlt]
  rfl

/-- The words of a round hold the key of the round. -/
theorem roundWords_cooked (key : Bytes) {i : ℕ} (hi : i < 16) :
    Cooked ((roundWords key i).getD 0 0) ((roundWords key i).getD 1 0)
      ((key48BitsList key).getD i []) where
  length := by
    rw [key48BitsList_getD key hi]
    rfl
  bit := by
    intro g hg m hm
    rw [roundWords, keyBit_cook _ _ g hg m hm, getD_key48BitsList key hi (by omega)]
    by_cases hfirst : g < 4
    · have hplace : 23 - (23 - (g * 6 + m)) + 0 = g * 6 + m := by omega
      rw [if_pos hfirst, getLsbD_knWord _ _ _ (by omega), hplace]
    · have hplace : 23 - (47 - (g * 6 + m)) + 24 = g * 6 + m := by omega
      rw [if_neg hfirst, getLsbD_knWord _ _ _ (by omega), hplace]

end CServer.Des
