import CServer.Ciphers.Aes
import Mathlib.Data.Fintype.EquivFin

/-!
# The rounds of aes.c and the way back

Every step of a round has its inverse among the steps of `InvCipher`. The columns come back because
four turns of `MixColumns` leave a column as it was and `InvMixColumns` does three of them at once.
Of `xtime` only this matters, that it goes through an exclusive or.
-/
namespace CServer.Aes

variable {v : Variant} {s t : Block} {i j : Fin 4}

/-! ## Cells -/

@[simp] theorem cell_ofCells (f : Fin 4 → Fin 4 → UInt8) : cell (ofCells f) i j = f i j := by
  have hrow : (4 * i.val + j.val) / 4 = i.val := by omega
  have hcolumn : (4 * i.val + j.val) % 4 = j.val := by omega
  simp [cell, ofCells, hrow, hcolumn]

theorem ext_cells (h : ∀ i j, cell s i j = cell t i j) : s = t := by
  refine Vector.ext fun k hk => ?_
  have hcell := h ⟨k / 4, by omega⟩ ⟨k % 4, by omega⟩
  simpa [cell, Nat.div_add_mod] using hcell

theorem xor_cancel (x y : UInt8) : x ^^^ (x ^^^ y) = y := by
  rw [← UInt8.xor_assoc, UInt8.xor_self, UInt8.zero_xor]

theorem xor_shared (x y u : UInt8) : (x ^^^ u) ^^^ (y ^^^ u) = x ^^^ y := by
  calc (x ^^^ u) ^^^ (y ^^^ u) = u ^^^ (u ^^^ (x ^^^ y)) := by ac_rfl
    _ = x ^^^ y := xor_cancel _ _

/-! ## The steps -/

theorem addRoundKey_addRoundKey (round : ℕ) (roundKey : RoundKey v) (s : Block) :
    addRoundKey round roundKey (addRoundKey round roundKey s) = s := by
  refine ext_cells fun i j => ?_
  simp [addRoundKey, UInt8.xor_assoc]

theorem map_rsbox : sboxTable.map rsbox = (List.range 256).map UInt8.ofNat := by
  decide +kernel

/-- The tables hold inverse permutations of the bytes. -/
theorem rsbox_sbox (x : UInt8) : rsbox (sbox x) = x := by
  have hget := congrArg (fun table : List UInt8 => table[x.toNat]?) map_rsbox
  have hsize : sboxTable.length = 256 := by simpa using congrArg List.length map_rsbox
  have hlength : x.toNat < sboxTable.length := hsize ▸ x.toNat_lt
  simp only [List.getElem?_map, List.getElem?_range x.toNat_lt, Option.map_some,
    List.getElem?_eq_getElem hlength, Option.some_inj, UInt8.ofNat_toNat] at hget
  rw [sbox, List.getD_eq_getElem?_getD, List.getElem?_eq_getElem hlength, Option.getD_some, hget]

theorem sbox_rsbox (x : UInt8) : sbox (rsbox x) = x := by
  have hfinite : Finite UInt8 := Finite.of_injective UInt8.toFin fun a b h => UInt8.toFin_inj.mp h
  have hinjective : Function.Injective sbox := Function.LeftInverse.injective rsbox_sbox
  obtain ⟨y, rfl⟩ := Finite.surjective_of_injective hinjective x
  rw [rsbox_sbox]

theorem invSubBytes_subBytes (s : Block) : invSubBytes (subBytes s) = s :=
  ext_cells fun i j => by simp [invSubBytes, subBytes, rsbox_sbox]

theorem subBytes_invSubBytes (s : Block) : subBytes (invSubBytes s) = s :=
  ext_cells fun i j => by simp [invSubBytes, subBytes, sbox_rsbox]

theorem invShiftRows_shiftRows (s : Block) : invShiftRows (shiftRows s) = s :=
  ext_cells fun i j => by simp [invShiftRows, shiftRows]

theorem shiftRows_invShiftRows (s : Block) : shiftRows (invShiftRows s) = s :=
  ext_cells fun i j => by simp [invShiftRows, shiftRows]

/-! ## The columns -/

theorem bit_xor (x y k : UInt8) : bit (x ^^^ y) k = bit x k ^^^ bit y k := by
  rw [← UInt8.toBitVec_inj]
  ext i
  simp [bit, Bool.and_xor_distrib_right]

theorem bit_cases (x k : UInt8) : bit x k = 0 ∨ bit x k = 1 := by
  have hmod : (bit x k).toNat = (x >>> k).toNat % 2 := by
    rw [bit, UInt8.toNat_and]
    exact Nat.and_one_is_mod _
  rw [← UInt8.toNat_inj, ← UInt8.toNat_inj, hmod]
  exact Nat.mod_two_eq_zero_or_one _

theorem xtime_xor (x y : UInt8) : xtime (x ^^^ y) = xtime x ^^^ xtime y := by
  have hreduce : (bit x 7 ^^^ bit y 7) * 0x1b = (bit x 7 * 0x1b) ^^^ (bit y 7 * 0x1b) := by
    obtain hx | hx := bit_cases x 7 <;> obtain hy | hy := bit_cases y 7 <;> rw [hx, hy] <;> decide
  rw [xtime, bit_xor, UInt8.shiftLeft_xor, hreduce, xtime, xtime]
  ac_rfl

theorem xtime_cancel (x y z : UInt8) : xtime (x ^^^ y) ^^^ xtime (y ^^^ z) = xtime (x ^^^ z) := by
  rw [← xtime_xor, UInt8.xor_assoc, xor_cancel]

theorem cell_mixColumns : cell (mixColumns s) i j =
    (cell s i j ^^^ xtime (cell s i j ^^^ cell s i (j + 1))) ^^^ total s i := by
  rw [mixColumns, cell_ofCells]
  exact (UInt8.xor_assoc _ _ _).symm

theorem step_twice (j : Fin 4) : j + 1 + 1 = j + 2 := by
  rw [add_assoc]
  rfl

/-- Two neighbours after a turn. -/
theorem cell_mixColumns_next : cell (mixColumns s) i j ^^^ cell (mixColumns s) i (j + 1) =
    (cell s i j ^^^ cell s i (j + 1)) ^^^ xtime (cell s i j ^^^ cell s i (j + 2)) := by
  rw [cell_mixColumns, cell_mixColumns, xor_shared, ← step_twice j,
    ← xtime_cancel (cell s i j) (cell s i (j + 1)) (cell s i (j + 1 + 1))]
  ac_rfl

theorem total_mixColumns : total (mixColumns s) i = total s i := by
  have hleft : cell (mixColumns s) i 0 ^^^ cell (mixColumns s) i 1 = _ :=
    cell_mixColumns_next
  have hright : cell (mixColumns s) i 2 ^^^ cell (mixColumns s) i 3 = _ :=
    cell_mixColumns_next
  have hback : cell s i 2 ^^^ cell s i (2 + 2) = cell s i 0 ^^^ cell s i (0 + 2) :=
    UInt8.xor_comm _ _
  rw [total, UInt8.xor_assoc, hleft, hright, hback, xor_shared, ← UInt8.xor_assoc]
  rfl

/-- Two turns. -/
theorem cell_mixColumns_mixColumns :
    cell (mixColumns (mixColumns s)) i j = cell s i j ^^^ twice s i j := by
  rw [cell_mixColumns, cell_mixColumns_next, total_mixColumns, cell_mixColumns,
    xtime_xor (cell s i j ^^^ cell s i (j + 1)), twice]
  generalize xtime (cell s i j ^^^ cell s i (j + 1)) = p
  calc _ = (p ^^^ total s i) ^^^ ((p ^^^ total s i) ^^^
        (cell s i j ^^^ xtime (xtime (cell s i j ^^^ cell s i (j + 2))))) := by ac_rfl
    _ = _ := xor_cancel _ _

theorem twice_opposite : twice s i (j + 2) = twice s i j := by
  have hround : j + 2 + 2 = j := by
    rw [add_assoc]
    exact add_zero j
  rw [twice, twice, hround, UInt8.xor_comm]

/-- Four turns. -/
theorem mixColumns_four (s : Block) :
    mixColumns (mixColumns (mixColumns (mixColumns s))) = s := by
  refine ext_cells fun i j => ?_
  have hopposite : twice (mixColumns (mixColumns s)) i j = twice s i j := by
    rw [twice, cell_mixColumns_mixColumns, cell_mixColumns_mixColumns, twice_opposite, xor_shared,
      twice]
  rw [cell_mixColumns_mixColumns, hopposite, cell_mixColumns_mixColumns, UInt8.xor_assoc,
    UInt8.xor_self, UInt8.xor_zero]

/-! ## The factors of `InvMixColumns` -/

theorem multiply_of_bits {y b0 b1 b2 b3 : UInt8} (x : UInt8) (h0 : bit y 0 = b0) (h1 : bit y 1 = b1)
    (h2 : bit y 2 = b2) (h3 : bit y 3 = b3) (h4 : bit y 4 = 0) : multiply x y =
      b0 * x ^^^ b1 * xtime x ^^^ b2 * xtime (xtime x) ^^^ b3 * xtime (xtime (xtime x)) := by
  rw [multiply, h0, h1, h2, h3, h4, UInt8.zero_mul, UInt8.xor_zero]

theorem multiply_e (x : UInt8) :
    multiply x 0x0e = xtime x ^^^ xtime (xtime x) ^^^ xtime (xtime (xtime x)) := by
  rw [multiply_of_bits x (by decide : bit 0x0e 0 = 0) (by decide : bit 0x0e 1 = 1)
    (by decide : bit 0x0e 2 = 1) (by decide : bit 0x0e 3 = 1) (by decide)]
  simp

theorem multiply_b (x : UInt8) :
    multiply x 0x0b = x ^^^ xtime x ^^^ xtime (xtime (xtime x)) := by
  rw [multiply_of_bits x (by decide : bit 0x0b 0 = 1) (by decide : bit 0x0b 1 = 1)
    (by decide : bit 0x0b 2 = 0) (by decide : bit 0x0b 3 = 1) (by decide)]
  simp

theorem multiply_d (x : UInt8) :
    multiply x 0x0d = x ^^^ xtime (xtime x) ^^^ xtime (xtime (xtime x)) := by
  rw [multiply_of_bits x (by decide : bit 0x0d 0 = 1) (by decide : bit 0x0d 1 = 0)
    (by decide : bit 0x0d 2 = 1) (by decide : bit 0x0d 3 = 1) (by decide)]
  simp

theorem multiply_nine (x : UInt8) : multiply x 0x09 = x ^^^ xtime (xtime (xtime x)) := by
  rw [multiply_of_bits x (by decide : bit 0x09 0 = 1) (by decide : bit 0x09 1 = 0)
    (by decide : bit 0x09 2 = 0) (by decide : bit 0x09 3 = 1) (by decide)]
  simp

/-- The column from a cell on. -/
theorem total_from (j : Fin 4) :
    total s i = cell s i j ^^^ cell s i (j + 1) ^^^ cell s i (j + 2) ^^^ cell s i (j + 3) := by
  rw [total]
  fin_cases j
  · rfl
  · show _ = cell s i 1 ^^^ cell s i 2 ^^^ cell s i 3 ^^^ cell s i 0
    ac_rfl
  · show _ = cell s i 2 ^^^ cell s i 3 ^^^ cell s i 0 ^^^ cell s i 1
    ac_rfl
  · show _ = cell s i 3 ^^^ cell s i 0 ^^^ cell s i 1 ^^^ cell s i 2
    ac_rfl

/-- Three turns multiply the cells by the factors of `InvMixColumns`. -/
theorem cell_mixColumns_three : cell (mixColumns (mixColumns (mixColumns s))) i j =
    multiply (cell s i j) 0x0e ^^^ multiply (cell s i (j + 1)) 0x0b ^^^
      multiply (cell s i (j + 2)) 0x0d ^^^ multiply (cell s i (j + 3)) 0x09 := by
  have hnext : j + 1 + 2 = j + 3 := by
    rw [add_assoc]
    rfl
  rw [cell_mixColumns, cell_mixColumns_mixColumns, cell_mixColumns_mixColumns, total_mixColumns,
    total_mixColumns, total_from j]
  simp only [multiply_e, multiply_b, multiply_d, multiply_nine, twice, xtime_xor, hnext]
  -- the cell itself is the only term that occurs twice
  generalize cell s i j = a
  generalize cell s i (j + 1) = b
  generalize cell s i (j + 2) = c
  generalize cell s i (j + 3) = d
  calc _ = a ^^^ (a ^^^ _) := by ac_rfl
    _ = _ := xor_cancel _ _

theorem invMixColumns_eq (s : Block) :
    invMixColumns s = mixColumns (mixColumns (mixColumns s)) := by
  refine ext_cells fun i j => ?_
  rw [cell_mixColumns_three, invMixColumns, cell_ofCells]
  fin_cases j
  · rfl
  · show _ = multiply (cell s i 1) 0x0e ^^^ multiply (cell s i 2) 0x0b ^^^
      multiply (cell s i 3) 0x0d ^^^ multiply (cell s i 0) 0x09
    dsimp only
    ac_rfl
  · show _ = multiply (cell s i 2) 0x0e ^^^ multiply (cell s i 3) 0x0b ^^^
      multiply (cell s i 0) 0x0d ^^^ multiply (cell s i 1) 0x09
    dsimp only
    ac_rfl
  · show _ = multiply (cell s i 3) 0x0e ^^^ multiply (cell s i 0) 0x0b ^^^
      multiply (cell s i 1) 0x0d ^^^ multiply (cell s i 2) 0x09
    dsimp only
    ac_rfl

theorem invMixColumns_mixColumns (s : Block) : invMixColumns (mixColumns s) = s := by
  rw [invMixColumns_eq, mixColumns_four]

theorem mixColumns_invMixColumns (s : Block) : mixColumns (invMixColumns s) = s := by
  rw [invMixColumns_eq, mixColumns_four]

/-! ## The loops -/

variable {roundKey : RoundKey v}

/-- The state when the key of a round has been added. -/
def afterKey (roundKey : RoundKey v) (s : Block) : ℕ → Block
  | 0 => addRoundKey 0 roundKey s
  | round + 1 =>
    addRoundKey (round + 1) roundKey (mixColumns (shiftRows (subBytes (afterKey roundKey s round))))

@[simp]
theorem afterKey_zero (roundKey : RoundKey v) (s : Block) :
    afterKey roundKey s 0 = addRoundKey 0 roundKey s := rfl

@[simp]
theorem afterKey_succ (roundKey : RoundKey v) (s : Block) (round : ℕ) :
    afterKey roundKey s (round + 1) = addRoundKey (round + 1) roundKey
      (mixColumns (shiftRows (subBytes (afterKey roundKey s round)))) := rfl

@[simp]
theorem invRounds_zero (roundKey : RoundKey v) (s : Block) :
    invRounds roundKey 0 s = addRoundKey 0 roundKey (invSubBytes (invShiftRows s)) := rfl

@[simp]
theorem invRounds_succ (roundKey : RoundKey v) (round : ℕ) (s : Block) :
    invRounds roundKey (round + 1) s = invRounds roundKey round
      (invMixColumns (addRoundKey (round + 1) roundKey (invSubBytes (invShiftRows s)))) := rfl

theorem rounds_eq (left : ℕ) : ∀ round, rounds roundKey left (round + 1) (afterKey roundKey s round) =
    shiftRows (subBytes (afterKey roundKey s (round + left))) := by
  induction left with
  | zero => intro round; rfl
  | succ left ih =>
    intro round
    rw [rounds, ← afterKey_succ, ih (round + 1), Nat.add_right_comm, Nat.add_assoc]

/-- The loop of `InvCipher` undoes the rounds one by one. -/
theorem invRounds_afterKey (round : ℕ) :
    invRounds roundKey round (shiftRows (subBytes (afterKey roundKey s round))) = s := by
  induction round with
  | zero =>
    rw [invRounds_zero, invShiftRows_shiftRows, invSubBytes_subBytes, afterKey_zero,
      addRoundKey_addRoundKey]
  | succ round ih =>
    rw [invRounds_succ, invShiftRows_shiftRows, invSubBytes_subBytes, afterKey_succ,
      addRoundKey_addRoundKey, invMixColumns_mixColumns, ih]

/-- The rounds undo the loop of `InvCipher`. -/
theorem afterKey_invRounds (round : ℕ) : ∀ t,
    shiftRows (subBytes (afterKey roundKey (invRounds roundKey round t) round)) = t := by
  induction round with
  | zero =>
    intro t
    rw [invRounds_zero, afterKey_zero, addRoundKey_addRoundKey, subBytes_invSubBytes,
      shiftRows_invShiftRows]
  | succ round ih =>
    intro t
    rw [invRounds_succ, afterKey_succ, ih, mixColumns_invMixColumns, addRoundKey_addRoundKey,
      subBytes_invSubBytes, shiftRows_invShiftRows]

theorem cipher_eq (roundKey : RoundKey v) (s : Block) : cipher roundKey s =
    addRoundKey v.nr roundKey (shiftRows (subBytes (afterKey roundKey s (v.nr - 1)))) := by
  have hloop : rounds roundKey (v.nr - 1) (0 + 1) (afterKey roundKey s 0) = _ := rounds_eq _ 0
  rw [Nat.zero_add (v.nr - 1)] at hloop
  rw [cipher, ← hloop]
  rfl

theorem invCipher_cipher (roundKey : RoundKey v) (s : Block) :
    invCipher roundKey (cipher roundKey s) = s := by
  rw [cipher_eq, invCipher, addRoundKey_addRoundKey, invRounds_afterKey]

theorem cipher_invCipher (roundKey : RoundKey v) (s : Block) :
    cipher roundKey (invCipher roundKey s) = s := by
  rw [cipher_eq, invCipher, afterKey_invRounds, addRoundKey_addRoundKey]

end CServer.Aes
