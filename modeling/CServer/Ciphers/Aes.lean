import Mathlib.Data.UInt
import Mathlib.Logic.Function.Basic
import Mathlib.Tactic.FinCases

/-!
# The cipher of aes.c

The state of the cipher is a block of sixteen bytes, read as four columns of four cells. The round
keys lie in memory one after the other. One of the macros of aes.h fixes the length of the key and
the number of rounds.
-/
namespace CServer.Aes

/-- The macros `AES128`, `AES192` and `AES256` of aes.h. -/
inductive Variant where
  | aes128
  | aes192
  | aes256
  deriving DecidableEq, Repr

/-- `Nk`, the words of a key. -/
def Variant.nk : Variant → ℕ
  | aes128 => 4
  | aes192 => 6
  | aes256 => 8

/-- `Nr`, the rounds. -/
def Variant.nr : Variant → ℕ
  | aes128 => 10
  | aes192 => 12
  | aes256 => 14

/-- The buffer of the caller, and `state_t`. -/
abbrev Block := Vector UInt8 16

/-- `AES_KEYLEN`. -/
def Variant.keyLen : Variant → ℕ
  | aes128 => 16
  | aes192 => 24
  | aes256 => 32

/-- `AES_keyExpSize`. -/
def Variant.keyExpSize : Variant → ℕ
  | aes128 => 176
  | aes192 => 208
  | aes256 => 240

abbrev Key (v : Variant) := Vector UInt8 v.keyLen

abbrev RoundKey (v : Variant) := Vector UInt8 v.keyExpSize

/-- The byte `k` of an array. -/
def byteAt {n : ℕ} (m : Vector UInt8 n) (k : ℕ) : UInt8 := m[k]?.getD 0

def sboxTable : List UInt8 :=
  [0x63, 0x7c, 0x77, 0x7b, 0xf2, 0x6b, 0x6f, 0xc5, 0x30, 0x01, 0x67, 0x2b, 0xfe, 0xd7, 0xab, 0x76,
    0xca, 0x82, 0xc9, 0x7d, 0xfa, 0x59, 0x47, 0xf0, 0xad, 0xd4, 0xa2, 0xaf, 0x9c, 0xa4, 0x72, 0xc0,
    0xb7, 0xfd, 0x93, 0x26, 0x36, 0x3f, 0xf7, 0xcc, 0x34, 0xa5, 0xe5, 0xf1, 0x71, 0xd8, 0x31, 0x15,
    0x04, 0xc7, 0x23, 0xc3, 0x18, 0x96, 0x05, 0x9a, 0x07, 0x12, 0x80, 0xe2, 0xeb, 0x27, 0xb2, 0x75,
    0x09, 0x83, 0x2c, 0x1a, 0x1b, 0x6e, 0x5a, 0xa0, 0x52, 0x3b, 0xd6, 0xb3, 0x29, 0xe3, 0x2f, 0x84,
    0x53, 0xd1, 0x00, 0xed, 0x20, 0xfc, 0xb1, 0x5b, 0x6a, 0xcb, 0xbe, 0x39, 0x4a, 0x4c, 0x58, 0xcf,
    0xd0, 0xef, 0xaa, 0xfb, 0x43, 0x4d, 0x33, 0x85, 0x45, 0xf9, 0x02, 0x7f, 0x50, 0x3c, 0x9f, 0xa8,
    0x51, 0xa3, 0x40, 0x8f, 0x92, 0x9d, 0x38, 0xf5, 0xbc, 0xb6, 0xda, 0x21, 0x10, 0xff, 0xf3, 0xd2,
    0xcd, 0x0c, 0x13, 0xec, 0x5f, 0x97, 0x44, 0x17, 0xc4, 0xa7, 0x7e, 0x3d, 0x64, 0x5d, 0x19, 0x73,
    0x60, 0x81, 0x4f, 0xdc, 0x22, 0x2a, 0x90, 0x88, 0x46, 0xee, 0xb8, 0x14, 0xde, 0x5e, 0x0b, 0xdb,
    0xe0, 0x32, 0x3a, 0x0a, 0x49, 0x06, 0x24, 0x5c, 0xc2, 0xd3, 0xac, 0x62, 0x91, 0x95, 0xe4, 0x79,
    0xe7, 0xc8, 0x37, 0x6d, 0x8d, 0xd5, 0x4e, 0xa9, 0x6c, 0x56, 0xf4, 0xea, 0x65, 0x7a, 0xae, 0x08,
    0xba, 0x78, 0x25, 0x2e, 0x1c, 0xa6, 0xb4, 0xc6, 0xe8, 0xdd, 0x74, 0x1f, 0x4b, 0xbd, 0x8b, 0x8a,
    0x70, 0x3e, 0xb5, 0x66, 0x48, 0x03, 0xf6, 0x0e, 0x61, 0x35, 0x57, 0xb9, 0x86, 0xc1, 0x1d, 0x9e,
    0xe1, 0xf8, 0x98, 0x11, 0x69, 0xd9, 0x8e, 0x94, 0x9b, 0x1e, 0x87, 0xe9, 0xce, 0x55, 0x28, 0xdf,
    0x8c, 0xa1, 0x89, 0x0d, 0xbf, 0xe6, 0x42, 0x68, 0x41, 0x99, 0x2d, 0x0f, 0xb0, 0x54, 0xbb, 0x16]

def rsboxTable : List UInt8 :=
  [0x52, 0x09, 0x6a, 0xd5, 0x30, 0x36, 0xa5, 0x38, 0xbf, 0x40, 0xa3, 0x9e, 0x81, 0xf3, 0xd7, 0xfb,
    0x7c, 0xe3, 0x39, 0x82, 0x9b, 0x2f, 0xff, 0x87, 0x34, 0x8e, 0x43, 0x44, 0xc4, 0xde, 0xe9, 0xcb,
    0x54, 0x7b, 0x94, 0x32, 0xa6, 0xc2, 0x23, 0x3d, 0xee, 0x4c, 0x95, 0x0b, 0x42, 0xfa, 0xc3, 0x4e,
    0x08, 0x2e, 0xa1, 0x66, 0x28, 0xd9, 0x24, 0xb2, 0x76, 0x5b, 0xa2, 0x49, 0x6d, 0x8b, 0xd1, 0x25,
    0x72, 0xf8, 0xf6, 0x64, 0x86, 0x68, 0x98, 0x16, 0xd4, 0xa4, 0x5c, 0xcc, 0x5d, 0x65, 0xb6, 0x92,
    0x6c, 0x70, 0x48, 0x50, 0xfd, 0xed, 0xb9, 0xda, 0x5e, 0x15, 0x46, 0x57, 0xa7, 0x8d, 0x9d, 0x84,
    0x90, 0xd8, 0xab, 0x00, 0x8c, 0xbc, 0xd3, 0x0a, 0xf7, 0xe4, 0x58, 0x05, 0xb8, 0xb3, 0x45, 0x06,
    0xd0, 0x2c, 0x1e, 0x8f, 0xca, 0x3f, 0x0f, 0x02, 0xc1, 0xaf, 0xbd, 0x03, 0x01, 0x13, 0x8a, 0x6b,
    0x3a, 0x91, 0x11, 0x41, 0x4f, 0x67, 0xdc, 0xea, 0x97, 0xf2, 0xcf, 0xce, 0xf0, 0xb4, 0xe6, 0x73,
    0x96, 0xac, 0x74, 0x22, 0xe7, 0xad, 0x35, 0x85, 0xe2, 0xf9, 0x37, 0xe8, 0x1c, 0x75, 0xdf, 0x6e,
    0x47, 0xf1, 0x1a, 0x71, 0x1d, 0x29, 0xc5, 0x89, 0x6f, 0xb7, 0x62, 0x0e, 0xaa, 0x18, 0xbe, 0x1b,
    0xfc, 0x56, 0x3e, 0x4b, 0xc6, 0xd2, 0x79, 0x20, 0x9a, 0xdb, 0xc0, 0xfe, 0x78, 0xcd, 0x5a, 0xf4,
    0x1f, 0xdd, 0xa8, 0x33, 0x88, 0x07, 0xc7, 0x31, 0xb1, 0x12, 0x10, 0x59, 0x27, 0x80, 0xec, 0x5f,
    0x60, 0x51, 0x7f, 0xa9, 0x19, 0xb5, 0x4a, 0x0d, 0x2d, 0xe5, 0x7a, 0x9f, 0x93, 0xc9, 0x9c, 0xef,
    0xa0, 0xe0, 0x3b, 0x4d, 0xae, 0x2a, 0xf5, 0xb0, 0xc8, 0xeb, 0xbb, 0x3c, 0x83, 0x53, 0x99, 0x61,
    0x17, 0x2b, 0x04, 0x7e, 0xba, 0x77, 0xd6, 0x26, 0xe1, 0x69, 0x14, 0x63, 0x55, 0x21, 0x0c, 0x7d]

def rcon : List UInt8 :=
  [0x8d, 0x01, 0x02, 0x04, 0x08, 0x10, 0x20, 0x40, 0x80, 0x1b, 0x36]

/-- `getSBoxValue`. -/
def sbox (x : UInt8) : UInt8 := sboxTable.getD x.toNat 0

/-- `getSBoxInvert`. -/
def rsbox (x : UInt8) : UInt8 := rsboxTable.getD x.toNat 0

/-! ## The key schedule -/

/-- `tempa`. -/
structure Word where
  t0 : UInt8
  t1 : UInt8
  t2 : UInt8
  t3 : UInt8
  deriving DecidableEq, Repr

def readWord {n : ℕ} (m : Vector UInt8 n) (k : ℕ) : Word :=
  ⟨byteAt m (k + 0), byteAt m (k + 1), byteAt m (k + 2), byteAt m (k + 3)⟩

def writeWord {n : ℕ} (m : Vector UInt8 n) (j : ℕ) (w : Word) : Vector UInt8 n :=
  let m := m.setIfInBounds (j + 0) w.t0
  let m := m.setIfInBounds (j + 1) w.t1
  let m := m.setIfInBounds (j + 2) w.t2
  m.setIfInBounds (j + 3) w.t3

def rotWord (w : Word) : Word := ⟨w.t1, w.t2, w.t3, w.t0⟩

def subWord (w : Word) : Word := ⟨sbox w.t0, sbox w.t1, sbox w.t2, sbox w.t3⟩

def Word.xor (w u : Word) : Word := ⟨w.t0 ^^^ u.t0, w.t1 ^^^ u.t1, w.t2 ^^^ u.t2, w.t3 ^^^ u.t3⟩

variable {v : Variant}

/-- The first `n` turns of the loop that copies the key. -/
def copyKey (key : Key v) (roundKey : RoundKey v) : ℕ → RoundKey v
  | 0 => roundKey
  | i + 1 => writeWord (copyKey key roundKey i) (i * 4) (readWord key (i * 4))

/-- A turn of the loop that makes the other words. -/
def expandWord (roundKey : RoundKey v) (i : ℕ) : RoundKey v :=
  let tempa := readWord roundKey ((i - 1) * 4)
  let tempa :=
    if i % v.nk = 0 then
      let tempa := subWord (rotWord tempa)
      { tempa with t0 := tempa.t0 ^^^ rcon.getD (i / v.nk) 0 }
    else tempa
  -- compiled in for AES256 alone
  let tempa := if v = .aes256 ∧ i % v.nk = 4 then subWord tempa else tempa
  writeWord roundKey (i * 4) ((readWord roundKey ((i - v.nk) * 4)).xor tempa)

/-- The first `n` turns of that loop. -/
def expandWords (roundKey : RoundKey v) : ℕ → RoundKey v
  | 0 => roundKey
  | n + 1 => expandWord (expandWords roundKey n) (v.nk + n)

/-- `KeyExpansion`. -/
def keyExpansion (roundKey : RoundKey v) (key : Key v) : RoundKey v :=
  expandWords (copyKey key roundKey v.nk) (4 * (v.nr + 1) - v.nk)

/-! ## The steps of a round -/

/-- `(*state)[i][j]`. -/
def cell (s : Block) (i j : Fin 4) : UInt8 := s[4 * i.val + j.val]

def ofCells (f : Fin 4 → Fin 4 → UInt8) : Block :=
  Vector.ofFn fun k => f ⟨k / 4, by omega⟩ ⟨k % 4, by omega⟩

/-- `AddRoundKey`. -/
def addRoundKey (round : ℕ) (roundKey : RoundKey v) (s : Block) : Block :=
  ofCells fun i j => cell s i j ^^^ byteAt roundKey (round * 4 * 4 + i * 4 + j)

/-- `SubBytes`. -/
def subBytes (s : Block) : Block := ofCells fun i j => sbox (cell s i j)

/-- `ShiftRows`: row `j` goes `j` columns to the left. -/
def shiftRows (s : Block) : Block := ofCells fun i j => cell s (i + j) j

/-- The bit `k` of a byte. -/
def bit (x k : UInt8) : UInt8 := x >>> k &&& 1

def xtime (x : UInt8) : UInt8 := (x <<< 1) ^^^ (bit x 7 * 0x1b)

/-- `Tmp` of `MixColumns`, all the cells of a column. -/
def total (s : Block) (i : Fin 4) : UInt8 := cell s i 0 ^^^ cell s i 1 ^^^ cell s i 2 ^^^ cell s i 3

/-- `MixColumns`. In a column every cell is changed after the cells before it, and `t` keeps what
the first one was. -/
def mixColumns (s : Block) : Block :=
  ofCells fun i j => cell s i j ^^^ (xtime (cell s i j ^^^ cell s i (j + 1)) ^^^ total s i)

/-- What two turns of `MixColumns` add to the cell `j`. -/
def twice (s : Block) (i j : Fin 4) : UInt8 := xtime (xtime (cell s i j ^^^ cell s i (j + 2)))

/-- `Multiply`. -/
def multiply (x y : UInt8) : UInt8 :=
  (bit y 0 * x) ^^^ (bit y 1 * xtime x) ^^^ (bit y 2 * xtime (xtime x)) ^^^
    (bit y 3 * xtime (xtime (xtime x))) ^^^ (bit y 4 * xtime (xtime (xtime (xtime x))))

/-- `InvMixColumns`. -/
def invMixColumns (s : Block) : Block :=
  ofCells fun i j =>
    let a := cell s i 0
    let b := cell s i 1
    let c := cell s i 2
    let d := cell s i 3
    match j with
    | 0 => multiply a 0x0e ^^^ multiply b 0x0b ^^^ multiply c 0x0d ^^^ multiply d 0x09
    | 1 => multiply a 0x09 ^^^ multiply b 0x0e ^^^ multiply c 0x0b ^^^ multiply d 0x0d
    | 2 => multiply a 0x0d ^^^ multiply b 0x09 ^^^ multiply c 0x0e ^^^ multiply d 0x0b
    | 3 => multiply a 0x0b ^^^ multiply b 0x0d ^^^ multiply c 0x09 ^^^ multiply d 0x0e

/-- `InvSubBytes`. -/
def invSubBytes (s : Block) : Block := ofCells fun i j => rsbox (cell s i j)

/-- `InvShiftRows`: row `j` goes `j` columns to the right. -/
def invShiftRows (s : Block) : Block := ofCells fun i j => cell s (i - j) j

/-! ## The loops -/

/-- The loop of `Cipher` when `left` rounds come after the next one. -/
def rounds (roundKey : RoundKey v) : ℕ → ℕ → Block → Block
  | 0, _, s => shiftRows (subBytes s)
  | left + 1, round, s =>
    rounds roundKey left (round + 1)
      (addRoundKey round roundKey (mixColumns (shiftRows (subBytes s))))

/-- `Cipher`. -/
def cipher (roundKey : RoundKey v) (s : Block) : Block :=
  addRoundKey v.nr roundKey (rounds roundKey (v.nr - 1) 1 (addRoundKey 0 roundKey s))

/-- The loop of `InvCipher` from a round down to the first one. -/
def invRounds (roundKey : RoundKey v) : ℕ → Block → Block
  | 0, s => addRoundKey 0 roundKey (invSubBytes (invShiftRows s))
  | round + 1, s =>
    invRounds roundKey round
      (invMixColumns (addRoundKey (round + 1) roundKey (invSubBytes (invShiftRows s))))

/-- `InvCipher`. -/
def invCipher (roundKey : RoundKey v) (s : Block) : Block :=
  invRounds roundKey (v.nr - 1) (addRoundKey v.nr roundKey s)

end CServer.Aes
