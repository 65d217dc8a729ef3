import CServer.Des.BitDes
import CServer.Foundation.WordBits

/-!
# The two round functions

The table driven code keeps both halves turned by one place, takes six bits of a word as the
index of a combined table and ORs eight table entries. The combined tables are the S boxes
followed by the permutation P, except at four places of the fifth table.
-/
namespace CServer.Des

/-- The cells of the fifth S box at whose places `SP5` has another entry. -/
def misprinted : List (ℕ × ℕ) := [(2, 7), (3, 10), (2, 11), (3, 11)]

/-- The combined tables in the order of the S boxes. -/
def spTable : ℕ → List ℕ
  | 0 => sp1
  | 1 => sp2
  | 2 => sp3
  | 3 => sp4
  | 4 => sp5
  | 5 => sp6
  | 6 => sp7
  | 7 => sp8
  | _ => []

/-- The combined table `g` at six bits has the bits of the S box `g` at their places after the
permutation P and the turn by one. -/
theorem spTable_eq_sbox : ∀ g < 8, ∀ b₀ b₁ b₂ b₃ b₄ b₅ : Bool,
    ¬ (g = 4 ∧ (bitsStr2deci [b₀, b₅], bitsStr2deci [b₁, b₂, b₃, b₄]) ∈ misprinted) →
    ∀ j < 32, ((spTable g).getD (bitsStr2deci [b₀, b₁, b₂, b₃, b₄, b₅]) 0).testBit ((32 - j) % 32) =
      (decide ((tblP.getD j 0 - 1) / 4 = g) &&
        (sboxBits g (bitsStr2deci [b₀, b₅], bitsStr2deci [b₁, b₂, b₃, b₄])).getD
          ((tblP.getD j 0 - 1) % 4) false) := by
  decide +kernel

/-- The word whose low six bits are the index into the combined table `g`. -/
def indexWord (half key₀ key₁ : BitVec 32) (g : ℕ) : BitVec 32 :=
  if g % 2 = 0 then (((half <<< 28) ||| (half >>> 4)) ^^^ key₀) >>> (24 - 4 * g)
  else (half ^^^ key₁) >>> (28 - 4 * g)

/-- Bit `m` of the six bits of the round key for table `g`, the highest first. -/
def keyBit (key₀ key₁ : BitVec 32) (g m : ℕ) : Bool :=
  if g % 2 = 0 then key₀.getLsbD (29 - 4 * g - m) else key₁.getLsbD (33 - 4 * g - m)

theorem getLsbD_indexWord (half key₀ key₁ : BitVec 32) {g m : ℕ} (hg : g < 8) (hm : m < 6) :
    (indexWord half key₀ key₁ g).getLsbD (5 - m) =
      (half.getLsbD ((33 - 4 * g - m) % 32) ^^ keyBit key₀ key₁ g m) := by
  rw [indexWord, keyBit]
  split
  · rename_i heven
    have hplace : 24 - 4 * g + (5 - m) = 29 - 4 * g - m := by omega
    rw [BitVec.getLsbD_ushiftRight, BitVec.getLsbD_xor, hplace,
      getLsbD_turn half (s := 4) (by omega) (by omega)]
    congr 2
    omega
  · rename_i hodd
    have hplace : 28 - 4 * g + (5 - m) = 33 - 4 * g - m := by omega
    have hmod : (33 - 4 * g - m) % 32 = 33 - 4 * g - m := by omega
    rw [BitVec.getLsbD_ushiftRight, BitVec.getLsbD_xor, hplace, hmod]

/-- Six bits as a number. -/
theorem toNat_sixBits (x : BitVec 32) : (x &&& 0x3f).toNat =
    bitsStr2deci [x.getLsbD 5, x.getLsbD 4, x.getLsbD 3, x.getLsbD 2, x.getLsbD 1, x.getLsbD 0] := by
  have small : ∀ y : BitVec 6, y.toNat = bitsStr2deci [y.getLsbD 5, y.getLsbD 4, y.getLsbD 3,
      y.getLsbD 2, y.getLsbD 1, y.getLsbD 0] := by decide
  have hlow : (x &&& 0x3f).toNat = (x.setWidth 6).toNat := by
    rw [BitVec.toNat_and, BitVec.toNat_setWidth]
    exact Nat.and_two_pow_sub_one_eq_mod x.toNat 6
  rw [hlow, small]
  simp only [BitVec.getLsbD_setWidth]
  rfl

theorem getLsbD_sp (table : List ℕ) (index : BitVec 32) {p : ℕ} (hp : p < 32) :
    (sp table index).getLsbD p = (table.getD (index &&& 0x3f).toNat 0).testBit p := by
  rw [sp, BitVec.getLsbD_ofNat, decide_eq_true hp, Bool.true_and]

theorem getLsbD_fval (half key₀ key₁ : BitVec 32) {p : ℕ} (hp : p < 32) :
    (fval half key₀ key₁).getLsbD p = (List.range 8).any fun g =>
      ((spTable g).getD (indexWord half key₀ key₁ g &&& 0x3f).toNat 0).testBit p := by
  have hrange : List.range 8 = [0, 1, 2, 3, 4, 5, 6, 7] := rfl
  have reorder : ∀ a₁ a₂ a₃ a₄ a₅ a₆ a₇ a₈ : Bool, (a₇ || a₅ || a₃ || a₁ || a₈ || a₆ || a₄ || a₂) =
      (a₁ || (a₂ || (a₃ || (a₄ || (a₅ || (a₆ || (a₇ || (a₈ || false)))))))) := by decide
  rw [hrange]
  simp only [fval, BitVec.getLsbD_or, getLsbD_sp _ _ hp, List.any_cons, List.any_nil]
  exact reorder _ _ _ _ _ _ _ _

/-- A half of the table driven code is a half of the textbook turned by one place. -/
structure Turned (half : BitVec 32) (data : List Bool) : Prop where
  length : data.length = 32
  bit : ∀ j < 32, half.getLsbD ((32 - j) % 32) = data.getD j false

/-- Two words of an expanded key hold the 48 bits of a round key. -/
structure Cooked (key₀ key₁ : BitVec 32) (key : List Bool) : Prop where
  length : key.length = 48
  bit : ∀ g < 8, ∀ m < 6, keyBit key₀ key₁ g m = key.getD (g * 6 + m) false

theorem getD_zipWith_xor {xs ys : List Bool} (h : xs.length = ys.length) (i : ℕ) :
    (List.zipWith xor xs ys).getD i false = (xs.getD i false ^^ ys.getD i false) := by
  rw [List.getD_eq_getElem?_getD, List.getD_eq_getElem?_getD, List.getD_eq_getElem?_getD,
    List.getElem?_zipWith]
  by_cases hi : i < xs.length
  · rw [List.getElem?_eq_getElem hi, List.getElem?_eq_getElem (h ▸ hi)]
    rfl
  · rw [List.getElem?_eq_none (Nat.le_of_not_lt hi),
      List.getElem?_eq_none (h ▸ Nat.le_of_not_lt hi)]
    rfl

theorem Turned.xor {half half' : BitVec 32} {data data' : List Bool} (h : Turned half data)
    (h' : Turned half' data') : Turned (half ^^^ half') (xorBitsStr data data') where
  length := by
    rw [xorBitsStr, List.length_zipWith, h.length, h'.length]
    rfl
  bit := by
    intro j hj
    rw [BitVec.getLsbD_xor, h.bit j hj, h'.bit j hj, xorBitsStr,
      getD_zipWith_xor (h.length.trans h'.length.symm)]

theorem getD_chosen (table : List ℕ) (is : List Bool) {i : ℕ} (hi : i < table.length) :
    (chosen table is).getD i false = is.getD (table.getD i 0 - 1) false := by
  rw [chosen, List.getD_eq_getElem?_getD, List.getElem?_map, List.getElem?_eq_getElem hi,
    List.getD_eq_getElem?_getD (l := table), List.getElem?_eq_getElem hi]
  rfl

/-- The places the expansion takes. -/
theorem tblExt_place : ∀ g < 8, ∀ m < 6, tblExt.getD (g * 6 + m) 0 - 1 = (4 * g + m + 31) % 32 := by
  decide

/-- An index of a combined table is six characters of the expanded half against the key. -/
theorem indexWord_eq_extData {half key₀ key₁ : BitVec 32} {data key : List Bool}
    (hhalf : Turned half data) (hkey : Cooked key₀ key₁ key) {g m : ℕ} (hg : g < 8) (hm : m < 6) :
    (indexWord half key₀ key₁ g).getLsbD (5 - m) = (extData data key).getD (g * 6 + m) false := by
  have hplace : (33 - 4 * g - m) % 32 = (32 - (4 * g + m + 31) % 32) % 32 := by omega
  have hlen : (chosen tblExt data).length = key.length := by
    rw [hkey.length]
    rfl
  have hin : g * 6 + m < tblExt.length := by
    have htbl : tblExt.length = 48 := rfl
    omega
  rw [getLsbD_indexWord half key₀ key₁ hg hm, hkey.bit g hg m hm, hplace,
    hhalf.bit _ (Nat.mod_lt _ (by omega)), extData, xorBitsStr, getD_zipWith_xor hlen,
    getD_chosen _ _ hin, tblExt_place g hg m hm]

theorem length_sboxBits : ∀ g < 8, ∀ b₀ b₁ b₂ b₃ b₄ b₅ : Bool,
    (sboxBits g (bitsStr2deci [b₀, b₅], bitsStr2deci [b₁, b₂, b₃, b₄])).length = 4 := by
  decide

/-- The places the permutation P takes are among the 32. -/
theorem tblP_place : ∀ j < 32, tblP.getD j 0 - 1 < 4 * 8 := by decide

theorem getD_getBitsByFunc (data key : List Bool) {j : ℕ} (hj : j < 32) :
    (getBitsByFunc data key).getD j false =
      (sboxBits ((tblP.getD j 0 - 1) / 4) (sboxCell (extData data key) ((tblP.getD j 0 - 1) / 4))).getD
        ((tblP.getD j 0 - 1) % 4) false := by
  have hpiece : ∀ i < 8, (sboxBits i (sboxCell (extData data key) i)).length = 4 :=
    fun i hi => length_sboxBits i hi _ _ _ _ _ _
  rw [getBitsByFunc, getD_chosen tblP _ hj]
  exact congrArg (fun c => c.getD false) (getElem?_flatMap_range _ 4 8 hpiece (tblP_place j hj))

/-- The bits of an entry of the combined table `g` for the index that a half round computes. -/
def entryBit (half key₀ key₁ : BitVec 32) (p g : ℕ) : Bool :=
  ((spTable g).getD (indexWord half key₀ key₁ g &&& 0x3f).toNat 0).testBit p

/-- The bits that table `g` contributes are those of its S box. -/
theorem entryBit_eq {half key₀ key₁ : BitVec 32} {data key : List Bool} (hhalf : Turned half data)
    (hkey : Cooked key₀ key₁ key) {g : ℕ} (hg : g < 8)
    (hcell : ¬ (g = 4 ∧ sboxCell (extData data key) 4 ∈ misprinted)) {j : ℕ} (hj : j < 32) :
    entryBit half key₀ key₁ ((32 - j) % 32) g =
      (decide ((tblP.getD j 0 - 1) / 4 = g) &&
        (sboxBits g (sboxCell (extData data key) g)).getD ((tblP.getD j 0 - 1) % 4) false) := by
  have hbits := fun m hm => indexWord_eq_extData (m := m) hhalf hkey hg hm
  rw [entryBit, toNat_sixBits, hbits 0 (by omega), hbits 1 (by omega), hbits 2 (by omega),
    hbits 3 (by omega), hbits 4 (by omega), hbits 5 (by omega)]
  apply spTable_eq_sbox g hg _ _ _ _ _ _ _ j hj
  rintro ⟨rfl, hbad⟩
  exact hcell ⟨rfl, hbad⟩

/-- Away from the misprinted cells one half round computes the function of the textbook. -/
theorem fval_turned {half key₀ key₁ : BitVec 32} {data key : List Bool} (hhalf : Turned half data)
    (hkey : Cooked key₀ key₁ key) (hcell : sboxCell (extData data key) 4 ∉ misprinted) :
    Turned (fval half key₀ key₁) (getBitsByFunc data key) where
  length := rfl
  bit := by
    intro j hj
    have hown : (tblP.getD j 0 - 1) / 4 < 8 := Nat.div_lt_of_lt_mul (tblP_place j hj)
    rw [getLsbD_fval _ _ _ (Nat.mod_lt _ (by omega)), getD_getBitsByFunc _ _ hj]
    apply any_range_single (fun g => (sboxBits g (sboxCell (extData data key) g)).getD
      ((tblP.getD j 0 - 1) % 4) false) hown
    intro g hg
    exact entryBit_eq hhalf hkey hg (fun hbad => hcell hbad.2) hj

/-- At a misprinted cell one of the places of the fifth S box gets the wrong bit. -/
theorem misprinted_bit : ∀ b₀ b₁ b₂ b₃ b₄ b₅ : Bool,
    (bitsStr2deci [b₀, b₅], bitsStr2deci [b₁, b₂, b₃, b₄]) ∈ misprinted →
    ∃ j < 32, (tblP.getD j 0 - 1) / 4 = 4 ∧
      (sp5.getD (bitsStr2deci [b₀, b₁, b₂, b₃, b₄, b₅]) 0).testBit ((32 - j) % 32) ≠
        (sboxBits 4 (bitsStr2deci [b₀, b₅], bitsStr2deci [b₁, b₂, b₃, b₄])).getD
          ((tblP.getD j 0 - 1) % 4) false := by
  decide

/-- At a misprinted cell one half round computes something else, since the other tables have
no bits at the places of the fifth S box. -/
theorem fval_not_turned {half key₀ key₁ : BitVec 32} {data key : List Bool}
    (hhalf : Turned half data) (hkey : Cooked key₀ key₁ key)
    (hcell : sboxCell (extData data key) 4 ∈ misprinted) :
    ¬ Turned (fval half key₀ key₁) (getBitsByFunc data key) := by
  intro hturned
  obtain ⟨j, hj, hown, hne⟩ := misprinted_bit _ _ _ _ _ _ hcell
  apply hne
  have hbits := fun m hm => indexWord_eq_extData (m := m) hhalf hkey (g := 4) (by omega) hm
  have hindex : entryBit half key₀ key₁ ((32 - j) % 32) 4 =
      (fval half key₀ key₁).getLsbD ((32 - j) % 32) := by
    rw [getLsbD_fval _ _ _ (Nat.mod_lt _ (by omega))]
    refine (any_range_single (entryBit half key₀ key₁ ((32 - j) % 32)) (by omega) ?_).symm
    intro g hg
    by_cases heq : 4 = g
    · rw [decide_eq_true heq, Bool.true_and]
      rfl
    · rw [decide_eq_false heq, Bool.false_and]
      refine (entryBit_eq hhalf hkey hg (fun hbad => heq hbad.1.symm) hj).trans ?_
      rw [hown, decide_eq_false heq, Bool.false_and]
  rw [hturned.bit j hj, getD_getBitsByFunc _ _ hj, hown, entryBit, toNat_sixBits,
    hbits 0 (by omega), hbits 1 (by omega), hbits 2 (by omega), hbits 3 (by omega),
    hbits 4 (by omega), hbits 5 (by omega)] at hindex
  exact hindex

/-- Every string of 32 bits is some half. -/
theorem exists_turned {data : List Bool} (h : data.length = 32) : ∃ half, Turned half data := by
  obtain ⟨half, hhalf⟩ := exists_word (w := 32)
    ((List.range 32).map fun p => data.getD ((32 - p) % 32) false) rfl
  refine ⟨half, h, ?_⟩
  intro j hj
  have hback : (32 - (32 - j) % 32) % 32 = j := by omega
  rw [hhalf, List.getD_eq_getElem?_getD, List.getElem?_map,
    List.getElem?_range (Nat.mod_lt _ (by omega)), Option.map_some, hback]
  rfl

theorem Turned.eq {half half' : BitVec 32} {data : List Bool} (h : Turned half data)
    (h' : Turned half' data) : half = half' := by
  apply BitVec.eq_of_getLsbD_eq
  intro p hp
  have hback : (32 - (32 - p) % 32) % 32 = p := by omega
  have hbit := (h.bit ((32 - p) % 32) (Nat.mod_lt _ (by omega))).trans
    (h'.bit ((32 - p) % 32) (Nat.mod_lt _ (by omega))).symm
  rwa [hback] at hbit

/-- What is combined with a known half is known from the result. -/
theorem Turned.of_xor {half half' : BitVec 32} {data data' : List Bool} (h : Turned half data)
    (hlen : data'.length = 32) (hxor : Turned (half ^^^ half') (xorBitsStr data data')) :
    Turned half' data' := by
  obtain ⟨word, hword⟩ := exists_turned hlen
  have heq : half ^^^ half' = half ^^^ word := hxor.eq (h.xor hword)
  have hcancel : half' = word := by
    have hboth := congrArg (half ^^^ ·) heq
    simpa only [← BitVec.xor_assoc, BitVec.xor_self, BitVec.zero_xor] using hboth
  rw [hcancel]
  exact hword

end CServer.Des
