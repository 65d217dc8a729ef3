import CServer.Foundation.Fallible
import CServer.Des.KeySchedules
import Mathlib.Data.Nat.Bitwise

/-!
# Two implementations of DES

With 32-bit longs the table driven code and the bit string code encrypt every block alike, as
long as the textbook computation does not visit a cell of the fifth S box whose entry in `SP5`
is misprinted.
-/
namespace CServer.Des

/-! ## The permutations of a block -/

/-- Bit `q` of a block of two words, the first one first. -/
def blockBit (block : BitVec 32 × BitVec 32) (q : ℕ) : Bool :=
  if q < 32 then block.1.getLsbD (31 - q) else block.2.getLsbD (63 - q)

/-- The turn by one place at the beginning of `desfunc`. -/
def turnedByOne (x : BitVec 32) : BitVec 32 := ((x <<< 1) ||| ((x >>> 31) &&& 1)) &&& 0xffffffff

theorem getLsbD_turnedByOne (x : BitVec 32) {p : ℕ} (hp : p < 32) :
    (turnedByOne x).getLsbD p = x.getLsbD ((p + 31) % 32) := by
  have hall : ∀ y : BitVec 32, y &&& 0xffffffff = y := fun y => BitVec.and_allOnes
  have hlow : (x >>> 31) &&& 1 = x >>> 31 := by
    apply BitVec.eq_of_toNat_eq
    rw [BitVec.toNat_and, BitVec.toNat_ushiftRight, Nat.shiftRight_eq_div_pow]
    have hlt : x.toNat / 2 ^ 31 < 2 ^ 1 := by
      have := x.isLt
      omega
    exact (Nat.and_two_pow_sub_one_eq_mod _ 1).trans (Nat.mod_eq_of_lt hlt)
  have hturn := getLsbD_turn x (s := 31) (by omega) hp
  rw [← hlow] at hturn
  rw [turnedByOne, hall]
  exact hturn

theorem exchange_zero (mask x y : BitVec 32) :
    exchange 0 mask x y = (x ^^^ ((x ^^^ y) &&& mask), y ^^^ ((x ^^^ y) &&& mask)) := by
  rw [exchange, BitVec.ushiftRight_zero, BitVec.shiftLeft_zero]

/-- The halves before the turns at the beginning of `desfunc`. -/
def permuted (leftt right : BitVec 32) : BitVec 32 × BitVec 32 :=
  let step₁ := exchange 4 0x0f0f0f0f leftt right
  let step₂ := exchange 16 0x0000ffff step₁.1 step₁.2
  let step₃ := exchange 2 0x33333333 step₂.2 step₂.1
  exchange 8 0x00ff00ff step₃.1 step₃.2

theorem desStart_eq (leftt right : BitVec 32) : desStart leftt right =
    (turnedByOne (exchange 0 0xaaaaaaaa (permuted leftt right).2
        (turnedByOne (permuted leftt right).1)).1,
      (exchange 0 0xaaaaaaaa (permuted leftt right).2 (turnedByOne (permuted leftt right).1)).2) := by
  rw [exchange_zero]
  rfl

theorem desStart_fst (leftt right : BitVec 32) : ∀ j < 32,
    (desStart leftt right).1.getLsbD ((32 - j) % 32) =
      blockBit (leftt, right) (tblIp.getD j 0 - 1) := by
  intro j hj
  rw [desStart_eq]
  interval_cases j <;>
    simp +decide only [↓getLsbD_turnedByOne, ↓getLsbD_exchange_fst, ↓getLsbD_exchange_snd,
      ↓permuted, ↓blockBit, tblIp, List.getD_cons_succ, List.getD_cons_zero, ↓reduceIte]

theorem desStart_snd (leftt right : BitVec 32) : ∀ j < 32,
    (desStart leftt right).2.getLsbD ((32 - j) % 32) =
      blockBit (leftt, right) (tblIp.getD (32 + j) 0 - 1) := by
  intro j hj
  rw [desStart_eq]
  interval_cases j <;>
    simp +decide only [↓getLsbD_turnedByOne, ↓getLsbD_exchange_fst, ↓getLsbD_exchange_snd,
      ↓permuted, ↓blockBit, tblIp, List.getD_cons_succ, List.getD_cons_zero, ↓reduceIte]

/-- The halves after the turns at the end of `desfunc`. -/
def turnedBack (leftt right : BitVec 32) : BitVec 32 × BitVec 32 :=
  let step := exchange 0 0xaaaaaaaa leftt ((right <<< 31) ||| (right >>> 1))
  ((step.1 <<< 31) ||| (step.1 >>> 1), step.2)

/-- The exchanges at the end of `desfunc`. -/
def unpermuted (leftt right : BitVec 32) : BitVec 32 × BitVec 32 :=
  let step₁ := exchange 8 0x00ff00ff leftt right
  let step₂ := exchange 2 0x33333333 step₁.1 step₁.2
  let step₃ := exchange 16 0x0000ffff step₂.2 step₂.1
  exchange 4 0x0f0f0f0f step₃.1 step₃.2

theorem desFinish_eq (leftt right : BitVec 32) :
    desFinish leftt right = unpermuted (turnedBack leftt right).1 (turnedBack leftt right).2 := by
  rw [turnedBack, exchange_zero]
  rfl

theorem getLsbD_turnedOnce (x : BitVec 32) {p : ℕ} (hp : p < 32) :
    ((x <<< 31) ||| (x >>> 1)).getLsbD p = x.getLsbD ((p + 1) % 32) :=
  getLsbD_turn x (s := 1) (by omega) hp

/-- `desfunc` ends with the inverse of the initial permutation on the right half and the left
half. -/
theorem blockBit_desFinish (leftt right : BitVec 32) : ∀ q < 64,
    blockBit (desFinish leftt right) q =
      if tblIpr.getD q 0 - 1 < 32 then right.getLsbD ((32 - (tblIpr.getD q 0 - 1)) % 32)
      else leftt.getLsbD ((64 - (tblIpr.getD q 0 - 1)) % 32) := by
  intro q hq
  rw [desFinish_eq]
  interval_cases q <;>
    simp +decide only [↓getLsbD_turnedOnce, ↓getLsbD_exchange_fst, ↓getLsbD_exchange_snd, ↓turnedBack,
      ↓unpermuted, ↓blockBit, tblIpr, List.getD_cons_succ, List.getD_cons_zero, ↓reduceIte]

/-! ## Bytes and bits -/

theorem testBit_eq (x : UInt8) (k : ℕ) :
    decide (x.toNat &&& (1 <<< k) ≠ 0) = x.toBitVec.getLsbD k := by
  have hbit : x.toBitVec.getLsbD k = x.toNat.testBit k := rfl
  rw [hbit, Nat.one_shiftLeft, Nat.and_two_pow]
  cases x.toNat.testBit k <;> simp

theorem getLsbD_scrunchWord (b₀ b₁ b₂ b₃ : UInt8) : ∀ q < 32,
    (scrunchWord b₀ b₁ b₂ b₃ : BitVec 32).getLsbD (31 - q) =
      ([b₀, b₁, b₂, b₃].getD (q / 8) 0).toBitVec.getLsbD (7 - q % 8) := by
  intro q hq
  interval_cases q <;> simp [scrunchWord]

theorem getLsbD_unscrunWord (x : BitVec 32) : ∀ q < 32,
    ((unscrunWord x).getD (q / 8) 0).toBitVec.getLsbD (7 - q % 8) = x.getLsbD (31 - q) := by
  intro q hq
  interval_cases q <;> simp [unscrunWord, lowByte]

theorem getD_bytes2bitsStr (is : Bytes) {q : ℕ} (hq : q < 64) :
    (bytes2bitsStr is 8).getD q false = (is.getD (q / 8) 0).toBitVec.getLsbD (7 - q % 8) := by
  rw [List.getD_eq_getElem?_getD, getElem?_bytes2bitsStr is hq, testBit_eq]
  rfl

theorem blockBit_scrunch {is : Bytes} (h : is.length = 8) {q : ℕ} (hq : q < 64) :
    blockBit (scrunch is) q = (bytes2bitsStr is 8).getD q false := by
  obtain ⟨first, second, rfl, hfirst, hsecond⟩ :
      ∃ first second : Bytes, is = first ++ second ∧ first.length = 4 ∧ second.length = 4 :=
    ⟨is.take 4, is.drop 4, (List.take_append_drop 4 is).symm, by simp [h], by simp [h]⟩
  obtain ⟨b₀, b₁, b₂, b₃, rfl⟩ := List.length_eq_four.mp hfirst
  obtain ⟨b₄, b₅, b₆, b₇, rfl⟩ := List.length_eq_four.mp hsecond
  rw [getD_bytes2bitsStr _ hq, blockBit]
  split
  · rename_i hlow
    rw [List.getD_append _ _ _ _ (by rw [hfirst]; omega)]
    exact getLsbD_scrunchWord b₀ b₁ b₂ b₃ q hlow
  · rename_i hhigh
    have hplace : 63 - q = 31 - (q - 32) := by omega
    have hdiv : q / 8 - 4 = (q - 32) / 8 := by omega
    have hmod : q % 8 = (q - 32) % 8 := by omega
    rw [List.getD_append_right _ _ _ _ (by rw [hfirst]; omega), hfirst, hplace, hdiv, hmod]
    exact getLsbD_scrunchWord b₄ b₅ b₆ b₇ (q - 32) (by omega)

theorem blockBit_unscrun (block : BitVec 32 × BitVec 32) {q : ℕ} (hq : q < 64) :
    (bytes2bitsStr (unscrun block) 8).getD q false = blockBit block q := by
  have hlen : (unscrunWord block.1).length = 4 := rfl
  rw [getD_bytes2bitsStr _ hq, blockBit, unscrun]
  split
  · rename_i hlow
    rw [List.getD_append _ _ _ _ (by rw [hlen]; omega), getLsbD_unscrunWord _ q hlow]
  · rename_i hhigh
    have hplace : 63 - q = 31 - (q - 32) := by omega
    have hdiv : q / 8 - 4 = (q - 32) / 8 := by omega
    have hmod : q % 8 = (q - 32) % 8 := by omega
    rw [List.getD_append_right _ _ _ _ (by rw [hlen]; omega), hlen, hplace, hdiv, hmod,
      getLsbD_unscrunWord _ (q - 32) (by omega)]

theorem bytes2bitsStr_cons (b : UInt8) (is : Bytes) (inLen : ℕ) :
    bytes2bitsStr (b :: is) (inLen + 1) =
      (List.range 8).map (fun i => decide (b.toNat &&& (1 <<< (7 - i)) ≠ 0)) ++
        bytes2bitsStr is inLen := by
  have hlen : (inLen + 1) * 8 = 8 + inLen * 8 := by omega
  rw [bytes2bitsStr, hlen, List.range_add, List.map_append, List.map_map]
  congr 1
  rw [bytes2bitsStr]
  apply List.map_congr_left
  intro i _
  have hdiv : (8 + i) / 8 = i / 8 + 1 := by omega
  have hmod : (8 + i) % 8 = i % 8 := by omega
  rw [Function.comp_apply, hdiv, hmod, List.getD_cons_succ]

/-- A character that does not complete a byte. -/
theorem bits2bytesFrom_inner (bit : Bool) (rest : List Bool) {i k : ℕ} (num : ℕ) (hi : i % 8 = k)
    (hk : k < 7) : bits2bytesFrom (bit :: rest) i num =
      bits2bytesFrom rest (i + 1) (if bit then num + 2 ^ (7 - k) else num) := by
  have hnext : ¬ (i + 1) % 8 = 0 := by omega
  rw [bits2bytesFrom, if_neg hnext, hi]

/-- The eight bits of a byte, collected from the highest on. -/
def collected (x : ℕ) : ℕ :=
  (List.range 8).foldl (fun num k => if x &&& (1 <<< (7 - k)) ≠ 0 then num + 2 ^ (7 - k) else num) 0

set_option maxRecDepth 4000 in
theorem collected_eq : ∀ x < 256, collected x = x := by decide

/-- Eight characters are one byte, with which the next one starts again. -/
theorem bits2bytesFrom_byte (b : UInt8) (rest : List Bool) {i : ℕ} (hi : i % 8 = 0) :
    bits2bytesFrom ((List.range 8).map (fun k => decide (b.toNat &&& (1 <<< (7 - k)) ≠ 0)) ++ rest)
      i 0 = b :: bits2bytesFrom rest (i + 8) 0 := by
  have hrange : List.range 8 = [0, 1, 2, 3, 4, 5, 6, 7] := rfl
  have hlast : (i + 7) % 8 = 7 := by omega
  have hnext : (i + 7 + 1) % 8 = 0 := by omega
  have hcollected := collected_eq b.toNat b.toNat_lt
  rw [collected, hrange] at hcollected
  simp only [List.foldl_cons, List.foldl_nil] at hcollected
  simp only [hrange, List.map_cons, List.map_nil, List.cons_append, List.nil_append]
  rw [bits2bytesFrom_inner _ _ _ (k := 0) hi (by omega),
    bits2bytesFrom_inner _ _ _ (k := 1) (by omega) (by omega),
    bits2bytesFrom_inner _ _ _ (k := 2) (by omega) (by omega),
    bits2bytesFrom_inner _ _ _ (k := 3) (by omega) (by omega),
    bits2bytesFrom_inner _ _ _ (k := 4) (by omega) (by omega),
    bits2bytesFrom_inner _ _ _ (k := 5) (by omega) (by omega),
    bits2bytesFrom_inner _ _ _ (k := 6) (by omega) (by omega), bits2bytesFrom, if_pos hnext, hlast]
  simp only [decide_eq_true_eq]
  rw [hcollected, UInt8.ofNat_toNat]

/-- The two conversions of a string of bytes. -/
theorem bitsStr2bytes_bytes2bitsStr (is : Bytes) :
    bitsStr2bytes (bytes2bitsStr is is.length) = is := by
  have from_i : ∀ i, i % 8 = 0 → bits2bytesFrom (bytes2bitsStr is is.length) i 0 = is := by
    induction is with
    | nil =>
      intro i _
      rfl
    | cons b is ih =>
      intro i hi
      rw [List.length_cons, bytes2bitsStr_cons, bits2bytesFrom_byte b _ hi, ih (i + 8) (by omega)]
  exact from_i 0 rfl

/-! ## The rounds -/

/-- The halves that enter the first round of both implementations. -/
theorem desStart_turned {input : Bytes} (h : input.length = 8) :
    Turned (desStart (scrunch input).1 (scrunch input).2).1 (startData input).1 ∧
      Turned (desStart (scrunch input).1 (scrunch input).2).2 (startData input).2 := by
  have hplace : ∀ j < 64, tblIp.getD j 0 - 1 < 64 := by decide
  constructor
  · refine ⟨rfl, ?_⟩
    intro j hj
    have htake : (startData input).1.getD j false =
        (getBitsByIp (bytes2bitsStr input 8)).getD j false := by
      rw [startData, List.getD_eq_getElem?_getD, List.getElem?_take_of_lt hj]
      rfl
    rw [desStart_fst _ _ j hj, htake, getBitsByIp, getD_chosen tblIp _ (show _ < 64 by omega),
      ← blockBit_scrunch h (hplace j (by omega))]
  · refine ⟨rfl, ?_⟩
    intro j hj
    have htake : (startData input).2.getD j false =
        (getBitsByIp (bytes2bitsStr input 8)).getD (32 + j) false := by
      rw [startData, List.getD_eq_getElem?_getD, List.getElem?_take_of_lt hj, List.getElem?_drop]
      rfl
    rw [desStart_snd _ _ j hj, htake, getBitsByIp, getD_chosen tblIp _ (show _ < 64 by omega),
      ← blockBit_scrunch h (hplace (32 + j) (by omega))]

/-- The expanded key as the table driven encryption reads it. -/
def encKeys (key : Bytes) (uninit : ℕ → BitVec 32) : ℕ → BitVec 32 :=
  localKey (copied (cookey (deskey key .en0))) uninit

/-- The four words of the key that one turn of the loop of `desfunc` uses. -/
theorem encKeys_cooked (key : Bytes) (uninit : ℕ → BitVec 32) (turn : ℕ) (hturn : turn < 8) :
    Cooked (encKeys key uninit (4 * turn)) (encKeys key uninit (4 * turn + 1))
        ((key48BitsList key).getD (2 * turn) []) ∧
      Cooked (encKeys key uninit (4 * turn + 2)) (encKeys key uninit (4 * turn + 3))
        ((key48BitsList key).getD (2 * turn + 1) []) := by
  have hkeys : ∀ i < 16, Cooked (encKeys key uninit (2 * i + 0)) (encKeys key uninit (2 * i + 1))
      ((key48BitsList key).getD i []) := by
    intro i hi
    rw [encKeys, localKey_eq key uninit hi (by omega), localKey_eq key uninit hi (by omega)]
    exact roundWords_cooked key hi
  have hfirst := hkeys (2 * turn) (by omega)
  have hsecond := hkeys (2 * turn + 1) (by omega)
  have htwice : 2 * (2 * turn) = 4 * turn := by omega
  have htwice' : 2 * (2 * turn + 1) = 4 * turn + 2 := by omega
  rw [htwice] at hfirst
  rw [htwice'] at hsecond
  exact ⟨hfirst, hsecond⟩

/-- The halves of the table driven encryption after `turn` turns of its loop. -/
def desHalves (key : Bytes) (uninit : ℕ → BitVec 32) (input : Bytes) (turn : ℕ) :
    BitVec 32 × BitVec 32 :=
  (List.range turn).foldl (desTurn (encKeys key uninit)) (desStart (scrunch input).1 (scrunch input).2)

section Rounds

variable {key input : Bytes} {uninit : ℕ → BitVec 32} {turn : ℕ}

theorem desHalves_succ_fst : (desHalves key uninit input (turn + 1)).1 =
    (desHalves key uninit input turn).1 ^^^ fval (desHalves key uninit input turn).2
      (encKeys key uninit (4 * turn)) (encKeys key uninit (4 * turn + 1)) := by
  rw [desHalves, List.range_succ, List.foldl_append]
  rfl

theorem desHalves_succ_snd : (desHalves key uninit input (turn + 1)).2 =
    (desHalves key uninit input turn).2 ^^^ fval (desHalves key uninit input (turn + 1)).1
      (encKeys key uninit (4 * turn + 2)) (encKeys key uninit (4 * turn + 3)) := by
  rw [desHalves_succ_fst, desHalves, List.range_succ, List.foldl_append]
  rfl

/-- The halves of the textbook encryption after `i` rounds. -/
def inputData (key input : Bytes) (i : ℕ) : List Bool × List Bool :=
  inputDataLists .enc (key48BitsList key) (startData input) i

theorem inputData_succ_fst (i : ℕ) : (inputData key input (i + 1)).1 = (inputData key input i).2 := rfl

theorem inputData_succ_snd (i : ℕ) : (inputData key input (i + 1)).2 =
    xorBitsStr (inputData key input i).1
      (getBitsByFunc (inputData key input i).2 ((key48BitsList key).getD i [])) := rfl

/-- The cell of the fifth S box that round `i` of the textbook encryption visits. -/
def s5Cell (key input : Bytes) (i : ℕ) : ℕ × ℕ :=
  sboxCell (extData (inputData key input i).2 ((key48BitsList key).getD i [])) 4

/-- One turn of the loop of `desfunc` is two rounds, unless they visit a misprinted cell. -/
theorem turn_turned (hturn : turn < 8)
    (hfirst : s5Cell key input (2 * turn) ∉ misprinted)
    (hsecond : s5Cell key input (2 * turn + 1) ∉ misprinted)
    (hleft : Turned (desHalves key uninit input turn).1 (inputData key input (2 * turn)).1)
    (hright : Turned (desHalves key uninit input turn).2 (inputData key input (2 * turn)).2) :
    Turned (desHalves key uninit input (turn + 1)).1 (inputData key input (2 * turn + 2)).1 ∧
      Turned (desHalves key uninit input (turn + 1)).2 (inputData key input (2 * turn + 2)).2 := by
  obtain ⟨hkey, hkey'⟩ := encKeys_cooked key uninit turn hturn
  -- the first half round makes the right half of the next round in the place of the left one
  have hnew : Turned (desHalves key uninit input (turn + 1)).1
      (inputData key input (2 * turn + 1)).2 := by
    rw [desHalves_succ_fst, inputData_succ_snd]
    exact hleft.xor (fval_turned hright hkey hfirst)
  refine ⟨hnew, ?_⟩
  rw [desHalves_succ_snd, inputData_succ_snd, inputData_succ_fst]
  exact hright.xor (fval_turned hnew hkey' hsecond)

/-- After `turn` turns the halves are those of twice as many rounds. -/
theorem desHalves_turned (uninit : ℕ → BitVec 32) (turn : ℕ) (hinput : input.length = 8)
    (hturn : turn ≤ 8)
    (hcells : ∀ i < 2 * turn, s5Cell key input i ∉ misprinted) :
    Turned (desHalves key uninit input turn).1 (inputData key input (2 * turn)).1 ∧
      Turned (desHalves key uninit input turn).2 (inputData key input (2 * turn)).2 := by
  induction turn with
  | zero => exact desStart_turned hinput
  | succ turn ih =>
    obtain ⟨hleft, hright⟩ := ih (by omega) (fun i hi => hcells i (by omega))
    exact turn_turned (by omega) (hcells (2 * turn) (by omega)) (hcells (2 * turn + 1) (by omega))
      hleft hright

theorem length_inputData (key input : Bytes) (i : ℕ) :
    (inputData key input i).1.length = 32 ∧ (inputData key input i).2.length = 32 := by
  induction i with
  | zero => exact ⟨rfl, rfl⟩
  | succ i ih =>
    have hfunc : (getBitsByFunc (inputData key input i).2 ((key48BitsList key).getD i [])).length =
        32 := rfl
    refine ⟨ih.2, ?_⟩
    rw [inputData_succ_snd, xorBitsStr, List.length_zipWith, ih.1, hfunc]
    rfl

/-- When the halves come out right after the last turn, that turn has visited no misprinted
cell either. -/
theorem lastTurn_clean (hinput : input.length = 8)
    (hcells : ∀ i < 14, s5Cell key input i ∉ misprinted)
    (hleft : Turned (desHalves key uninit input 8).1 (inputData key input 16).1)
    (hright : Turned (desHalves key uninit input 8).2 (inputData key input 16).2) :
    ∀ i < 16, s5Cell key input i ∉ misprinted := by
  obtain ⟨hbefore, hbefore'⟩ := desHalves_turned uninit 7 hinput (by omega) hcells
  obtain ⟨hkey, hkey'⟩ := encKeys_cooked key uninit 7 (by omega)
  have hfourteen : s5Cell key input 14 ∉ misprinted := by
    intro hbad
    rw [desHalves_succ_fst, inputData_succ_fst, inputData_succ_snd] at hleft
    exact fval_not_turned hbefore' hkey hbad (hbefore.of_xor rfl hleft)
  have hfifteen : s5Cell key input 15 ∉ misprinted := by
    intro hbad
    rw [inputData_succ_fst] at hleft
    rw [desHalves_succ_snd, inputData_succ_snd, inputData_succ_fst] at hright
    exact fval_not_turned hleft hkey' hbad (hbefore'.of_xor rfl hright)
  intro i hi
  by_cases hlast : i < 14
  · exact hcells i hlast
  · obtain rfl | rfl : i = 14 ∨ i = 15 := by omega
    · exact hfourteen
    · exact hfifteen

end Rounds

/-- The bytes that both implementations write for the halves after the last round. -/
theorem unscrun_desFinish {leftt right : BitVec 32} {left' right' : List Bool}
    (hleft : Turned leftt left') (hright : Turned right right') :
    unscrun (desFinish leftt right) = bitsStr2bytes (getBitsByIpr (right' ++ left')) := by
  have hbits : bytes2bitsStr (unscrun (desFinish leftt right)) 8 =
      getBitsByIpr (right' ++ left') := by
    have hlen : (bytes2bitsStr (unscrun (desFinish leftt right)) 8).length =
        (getBitsByIpr (right' ++ left')).length := rfl
    apply List.ext_getElem hlen
    intro q hq hq'
    have hlt : q < 64 := hq
    rw [← List.getD_eq_getElem _ false hq, ← List.getD_eq_getElem _ false hq',
      blockBit_unscrun _ hlt, blockBit_desFinish _ _ q hlt, getBitsByIpr,
      getD_chosen tblIpr _ hlt]
    have hplace : ∀ q < 64, tblIpr.getD q 0 - 1 < 64 := by decide
    have hin := hplace q hlt
    split
    · rename_i hlow
      rw [List.getD_append _ _ _ _ (by rw [hright.length]; exact hlow), hright.bit _ hlow]
    · rename_i hhigh
      have hturn : (64 - (tblIpr.getD q 0 - 1)) % 32 =
          (32 - (tblIpr.getD q 0 - 1 - 32)) % 32 := by omega
      rw [List.getD_append_right _ _ _ _ (by rw [hright.length]; omega), hright.length, hturn,
        hleft.bit _ (by omega)]
  rw [← hbits]
  exact (bitsStr2bytes_bytes2bitsStr (unscrun (desFinish leftt right))).symm

set_option maxRecDepth 4000 in
/-- The last permutation takes each of the 64 places. -/
theorem tblIpr_place : ∀ k < 64, ∃ q < 64, tblIpr.getD q 0 - 1 = k := by decide

/-- Different halves are written as different bytes. -/
theorem unscrun_desFinish_inj {leftt right leftt' right' : BitVec 32}
    (h : unscrun (desFinish leftt right) = unscrun (desFinish leftt' right')) :
    leftt = leftt' ∧ right = right' := by
  have hbits : ∀ q < 64, blockBit (desFinish leftt right) q = blockBit (desFinish leftt' right') q := by
    intro q hq
    rw [← blockBit_unscrun _ hq, h, blockBit_unscrun _ hq]
  constructor
  · apply BitVec.eq_of_getLsbD_eq
    intro p hp
    obtain ⟨q, hq, hk⟩ := tblIpr_place (32 + (32 - p) % 32) (by omega)
    have hbit := hbits q hq
    have hturn : (64 - (32 + (32 - p) % 32)) % 32 = p := by omega
    rwa [blockBit_desFinish _ _ q hq, blockBit_desFinish _ _ q hq, hk, if_neg (by omega),
      if_neg (by omega), hturn] at hbit
  · apply BitVec.eq_of_getLsbD_eq
    intro p hp
    obtain ⟨q, hq, hk⟩ := tblIpr_place ((32 - p) % 32) (by omega)
    have hbit := hbits q hq
    have hturn : (32 - (32 - p) % 32) % 32 = p := by omega
    rwa [blockBit_desFinish _ _ q hq, blockBit_desFinish _ _ q hq, hk, if_pos (by omega),
      if_pos (by omega), hturn] at hbit

theorem myicDESEncrypt_block (uninit : ℕ → ℕ → BitVec 32) {key input : Bytes}
    (hkey : key.length = 8) (hinput : input.length = 8) : myicDESEncrypt uninit key input =
      .ok (unscrun (desFinish (desHalves key (uninit 0) input 8).1
        (desHalves key (uninit 0) input 8).2)) := by
  have hexpand : (desExpandEncKey key : Except Failure (List (BitVec 32) × ℕ)) =
      .ok (copied (cookey (deskey key .en0)), desKeyBytes) := by
    rw [desExpandEncKey, expandKey, if_neg (not_not.mpr hkey)]
  have hblock : (input.drop (8 * 0)).take 8 = input := by
    rw [Nat.mul_zero, List.drop_zero, List.take_of_length_le (Nat.le_of_eq hinput)]
  rw [myicDESEncrypt, if_neg (by rw [hinput]; decide), if_neg (not_not.mpr hkey), hexpand, ok_bind,
    hinput]
  show cryptBlocks _ uninit input 1 0 = _
  rw [cryptBlocks, hblock, desEncRaw, desRaw_eq _ _ hinput, ok_bind, cryptBlocks, ok_bind,
    List.append_nil, desfunc, desHalves]
  rfl

/-- When no round of the textbook encryption visits a misprinted cell, both implementations
encrypt the block alike; a visit in the last two rounds only makes them differ. -/
theorem myicDESEncrypt_eq_procEncDec (uninit : ℕ → ℕ → BitVec 32) (key input : Bytes)
    (hkey : key.length = 8) (hinput : input.length = 8) :
    ((∀ i < 16, s5Cell key input i ∉ misprinted) →
      myicDESEncrypt uninit key input = .ok (procEncDec key input .enc)) ∧
    ((∀ i < 14, s5Cell key input i ∉ misprinted) →
      myicDESEncrypt uninit key input = .ok (procEncDec key input .enc) →
      ∀ i < 16, s5Cell key input i ∉ misprinted) := by
  have hproc : procEncDec key input .enc =
      bitsStr2bytes (getBitsByIpr ((inputData key input 16).2 ++ (inputData key input 16).1)) := rfl
  rw [myicDESEncrypt_block uninit hkey hinput, hproc]
  constructor
  · intro hcells
    obtain ⟨hleft, hright⟩ := desHalves_turned (uninit 0) 8 hinput (Nat.le_refl 8) hcells
    rw [unscrun_desFinish hleft hright]
  · intro hcells heq
    obtain ⟨hlen, hlen'⟩ := length_inputData key input 16
    obtain ⟨leftt, hleft⟩ := exists_turned hlen
    obtain ⟨right, hright⟩ := exists_turned hlen'
    have hsame := unscrun_desFinish_inj
      ((Except.ok.inj heq).trans (unscrun_desFinish hleft hright).symm)
    rw [← hsame.1] at hleft
    rw [← hsame.2] at hright
    exact lastTurn_clean hinput hcells hleft hright

/-- The key "abcd1234" and a block for which no round visits a misprinted cell. -/
theorem myicDESEncrypt_eq_procEncDec_clean :
    myicDESEncrypt (fun _ _ => 0 : ℕ → ℕ → BitVec 32) userPasswordKey [0, 0, 0, 0, 0, 0, 0, 2] =
      .ok (procEncDec userPasswordKey [0, 0, 0, 0, 0, 0, 0, 2] .enc) :=
  (myicDESEncrypt_eq_procEncDec _ _ _ rfl rfl).1 (by decide)

/-- The same key and a block of zeros, for which round 8 visits one. -/
theorem myicDESEncrypt_ne_procEncDec : ¬ ∀ key input : Bytes, key.length = 8 → input.length = 8 →
    ∀ uninit : ℕ → ℕ → BitVec 32,
      myicDESEncrypt uninit key input = .ok (procEncDec key input .enc) := by
  intro h
  have heq := h userPasswordKey [0, 0, 0, 0, 0, 0, 0, 0] rfl rfl (fun _ _ => 0)
  rw [myicDESEncrypt_block _ rfl rfl] at heq
  have hne : unscrun (desFinish (desHalves userPasswordKey (fun _ => 0) [0, 0, 0, 0, 0, 0, 0, 0] 8).1
      (desHalves userPasswordKey (fun _ => 0) [0, 0, 0, 0, 0, 0, 0, 0] 8).2) ≠
      procEncDec userPasswordKey [0, 0, 0, 0, 0, 0, 0, 0] .enc := by decide
  exact hne (Except.ok.inj heq)

end CServer.Des
