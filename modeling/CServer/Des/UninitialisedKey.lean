import CServer.Des.TableDes

/-!
# The half of the key that is not copied

With 64-bit longs the 128 bytes that are copied hold sixteen of the thirty-two longs of an
expanded key. The rounds from the fifth turn on use what the local array held before, and
through the last of them any padding byte can be changed.
-/
namespace CServer.Des

variable {key : List (BitVec 64)} {uninit uninit' : ℕ → BitVec 64} {i : ℕ}

/-- Sixteen longs fit. -/
theorem localKey_of_le (hi : 16 ≤ i) : localKey key uninit i = uninit i := by
  have hlen : (copied key).length ≤ 16 := by
    have htake : 8 * desKeyBytes / 64 = 16 := by decide
    rw [copied, htake, List.length_take]
    omega
  rw [localKey, List.getElem?_eq_none (by omega)]
  rfl

theorem localKey_congr (h : uninit i = uninit' i) :
    localKey key uninit i = localKey key uninit' i := by
  rw [localKey, localKey, h]

/-- The word that the first key of a half round is combined with. -/
def turned (half : BitVec 64) : BitVec 64 := (half <<< 28) ||| (half >>> 4)

/-- Contents of the local array that make both indices of the last half round, whose other
half is `half`, the given ones. -/
def steering (half index : BitVec 64) (i : ℕ) : BitVec 64 :=
  if i = 30 then turned half ^^^ index else if i = 31 then half else 0

theorem fval_steered (half index : BitVec 64) :
    fval half (turned half ^^^ index) half = fval 0 index 0 := by
  have hwork : turned half ^^^ (turned half ^^^ index) = index := by
    rw [← BitVec.xor_assoc, BitVec.xor_self, BitVec.zero_xor]
  have hzero : turned 0 ^^^ index = index := by
    rw [show turned 0 = 0#64 from rfl, BitVec.zero_xor]
  unfold fval
  rw [← turned, ← turned, hwork, hzero, BitVec.xor_self, BitVec.xor_self]

/-- The lowest bit of the last byte comes from bit 8 of the right half. -/
theorem desFinish_lowest (leftt right : BitVec 64) :
    (desFinish leftt right).2.getLsbD 0 = right.getLsbD 8 := by
  simp [desFinish]
  grind

/-- The halves before the last half round depend on the first thirty keys only. -/
theorem turns_congr {keys keys' : ℕ → BitVec 64} (h : ∀ i < 30, keys i = keys' i)
    (halves : BitVec 64 × BitVec 64) :
    (List.range 7).foldl (desTurn keys) halves = (List.range 7).foldl (desTurn keys') halves := by
  apply List.foldl_ext
  intro halves round hround
  have hlt : round < 7 := List.mem_range.mp hround
  rw [desTurn, desTurn, h (4 * round) (by omega), h (4 * round + 1) (by omega),
    h (4 * round + 2) (by omega), h (4 * round + 3) (by omega)]

/-- Two contents of the local array that give the last byte different lowest bits. -/
theorem exists_differing (block : BitVec 64 × BitVec 64) (key : List (BitVec 64)) :
    ∃ uninit uninit' : ℕ → BitVec 64,
      lowByte (desfunc block (localKey key uninit)).2 ≠
        lowByte (desfunc block (localKey key uninit')).2 := by
  set start := desStart block.1 block.2 with hstart
  set before := (List.range 7).foldl (desTurn (localKey key fun _ => 0)) start with hbefore
  set half := before.1 ^^^
    fval before.2 (localKey key (fun _ => 0) 28) (localKey key (fun _ => 0) 29) with hhalf
  -- whatever the index, the halves before the last half round are the same
  have last : ∀ index, (desfunc block (localKey key (steering half index))).2.getLsbD 0 =
      (before.2 ^^^ fval 0 index 0).getLsbD 8 := by
    intro index
    have same : ∀ i < 30,
        localKey key (steering half index) i = localKey key (fun _ => 0) i := by
      intro i hi
      apply localKey_congr
      have h30 : i ≠ 30 := by omega
      have h31 : i ≠ 31 := by omega
      simp [steering, h30, h31]
    have turns : (List.range 8).foldl (desTurn (localKey key (steering half index))) start =
        (half, before.2 ^^^ fval 0 index 0) := by
      rw [List.range_succ, List.foldl_append, turns_congr same, ← hbefore]
      show desTurn _ before 7 = _
      rw [desTurn, same 28 (by omega), same 29 (by omega), ← hhalf,
        localKey_of_le (by omega), localKey_of_le (by omega)]
      show (half, before.2 ^^^ fval half (turned half ^^^ index) half) = _
      rw [fval_steered]
    rw [desfunc, turns, desFinish_lowest]
  refine ⟨steering half 0, steering half 0x400, ?_⟩
  intro heq
  have hbit := congrArg (fun b : UInt8 => b.toBitVec.getLsbD 0) heq
  simp only [lowByte, BitVec.getLsbD_setWidth, last, BitVec.getLsbD_xor] at hbit
  -- the fifth table has the bit at index 0 and not at index 4
  have h₀ : (fval (0 : BitVec 64) 0 0).getLsbD 8 = true := by decide
  have h₄ : (fval (0 : BitVec 64) 0x400 0).getLsbD 8 = false := by decide
  rw [h₀, h₄] at hbit
  revert hbit
  cases before.2.getLsbD 8 <;> decide

end CServer.Des
