import CServer.Des.TableDes
import Mathlib.Algebra.Ring.Nat

/-!
# The bit string DES of the encryption exercise

des.c of myvsc: keys, blocks and halves are strings of the characters '0' and '1', here lists
of truth values, and every permutation is a table of places counted from one. The
hexadecimal copies of the key and the block, which nothing reads, are left out.
-/
namespace CServer.Des

/-- `_ENC_OPT_` or `_DEC_OPT_`. -/
inductive Opt where
  | enc
  | dec
  deriving DecidableEq

def tblPc1 : List ℕ := [
  57, 49, 41, 33, 25, 17, 9, 1, 58, 50, 42, 34, 26, 18,
  10, 2, 59, 51, 43, 35, 27, 19, 11, 3, 60, 52, 44, 36,
  63, 55, 47, 39, 31, 23, 15, 7, 62, 54, 46, 38, 30, 22,
  14, 6, 61, 53, 45, 37, 29, 21, 13, 5, 28, 20, 12, 4]

def tblMove : List ℕ := [
  1, 1, 2, 2, 2, 2, 2, 2, 1, 2, 2, 2, 2, 2, 2, 1]

def tblPc2 : List ℕ := [
  14, 17, 11, 24, 1, 5, 3, 28, 15, 6, 21, 10,
  23, 19, 12, 4, 26, 8, 16, 7, 27, 20, 13, 2,
  41, 52, 31, 37, 47, 55, 30, 40, 51, 45, 33, 48,
  44, 49, 39, 56, 34, 53, 46, 42, 50, 36, 29, 32]

def tblIp : List ℕ := [
  58, 50, 42, 34, 26, 18, 10, 2, 60, 52, 44, 36, 28, 20, 12, 4,
  62, 54, 46, 38, 30, 22, 14, 6, 64, 56, 48, 40, 32, 24, 16, 8,
  57, 49, 41, 33, 25, 17, 9, 1, 59, 51, 43, 35, 27, 19, 11, 3,
  61, 53, 45, 37, 29, 21, 13, 5, 63, 55, 47, 39, 31, 23, 15, 7]

def tblExt : List ℕ := [
  32, 1, 2, 3, 4, 5, 4, 5, 6, 7, 8, 9,
  8, 9, 10, 11, 12, 13, 12, 13, 14, 15, 16, 17,
  16, 17, 18, 19, 20, 21, 20, 21, 22, 23, 24, 25,
  24, 25, 26, 27, 28, 29, 28, 29, 30, 31, 32, 1]

def tblP : List ℕ := [
  16, 7, 20, 21, 29, 12, 28, 17, 1, 15, 23, 26, 5, 18, 31, 10,
  2, 8, 24, 14, 32, 27, 3, 9, 19, 13, 30, 6, 22, 11, 4, 25]

def tblIpr : List ℕ := [
  40, 8, 48, 16, 56, 24, 64, 32, 39, 7, 47, 15, 55, 23, 63, 31,
  38, 6, 46, 14, 54, 22, 62, 30, 37, 5, 45, 13, 53, 21, 61, 29,
  36, 4, 44, 12, 52, 20, 60, 28, 35, 3, 43, 11, 51, 19, 59, 27,
  34, 2, 42, 10, 50, 18, 58, 26, 33, 1, 41, 9, 49, 17, 57, 25]

def tblS1 : List (List ℕ) := [
  [14, 4, 13, 1, 2, 15, 11, 8, 3, 10, 6, 12, 5, 9, 0, 7],
  [0, 15, 7, 4, 14, 2, 13, 1, 10, 6, 12, 11, 9, 5, 3, 8],
  [4, 1, 14, 8, 13, 6, 2, 11, 15, 12, 9, 7, 3, 10, 5, 0],
  [15, 12, 8, 2, 4, 9, 1, 7, 5, 11, 3, 14, 10, 0, 6, 13]]

def tblS2 : List (List ℕ) := [
  [15, 1, 8, 14, 6, 11, 3, 4, 9, 7, 2, 13, 12, 0, 5, 10],
  [3, 13, 4, 7, 15, 2, 8, 14, 12, 0, 1, 10, 6, 9, 11, 5],
  [0, 14, 7, 11, 10, 4, 13, 1, 5, 8, 12, 6, 9, 3, 2, 15],
  [13, 8, 10, 1, 3, 15, 4, 2, 11, 6, 7, 12, 0, 5, 14, 9]]

def tblS3 : List (List ℕ) := [
  [10, 0, 9, 14, 6, 3, 15, 5, 1, 13, 12, 7, 11, 4, 2, 8],
  [13, 7, 0, 9, 3, 4, 6, 10, 2, 8, 5, 14, 12, 11, 15, 1],
  [13, 6, 4, 9, 8, 15, 3, 0, 11, 1, 2, 12, 5, 10, 14, 7],
  [1, 10, 13, 0, 6, 9, 8, 7, 4, 15, 14, 3, 11, 5, 2, 12]]

def tblS4 : List (List ℕ) := [
  [7, 13, 14, 3, 0, 6, 9, 10, 1, 2, 8, 5, 11, 12, 4, 15],
  [13, 8, 11, 5, 6, 15, 0, 3, 4, 7, 2, 12, 1, 10, 14, 9],
  [10, 6, 9, 0, 12, 11, 7, 13, 15, 1, 3, 14, 5, 2, 8, 4],
  [3, 15, 0, 6, 10, 1, 13, 8, 9, 4, 5, 11, 12, 7, 2, 14]]

def tblS5 : List (List ℕ) := [
  [2, 12, 4, 1, 7, 10, 11, 6, 8, 5, 3, 15, 13, 0, 14, 9],
  [14, 11, 2, 12, 4, 7, 13, 1, 5, 0, 15, 10, 3, 9, 8, 6],
  [4, 2, 1, 11, 10, 13, 7, 8, 15, 9, 12, 5, 6, 3, 0, 14],
  [11, 8, 12, 7, 1, 14, 2, 13, 6, 15, 0, 9, 10, 4, 5, 3]]

def tblS6 : List (List ℕ) := [
  [12, 1, 10, 15, 9, 2, 6, 8, 0, 13, 3, 4, 14, 7, 5, 11],
  [10, 15, 4, 2, 7, 12, 9, 5, 6, 1, 13, 14, 0, 11, 3, 8],
  [9, 14, 15, 5, 2, 8, 12, 3, 7, 0, 4, 10, 1, 13, 11, 6],
  [4, 3, 2, 12, 9, 5, 15, 10, 11, 14, 1, 7, 6, 0, 8, 13]]

def tblS7 : List (List ℕ) := [
  [4, 11, 2, 14, 15, 0, 8, 13, 3, 12, 9, 7, 5, 10, 6, 1],
  [13, 0, 11, 7, 4, 9, 1, 10, 14, 3, 5, 12, 2, 15, 8, 6],
  [1, 4, 11, 13, 12, 3, 7, 14, 10, 15, 6, 8, 0, 5, 9, 2],
  [6, 11, 13, 8, 1, 4, 10, 7, 9, 5, 0, 15, 14, 2, 3, 12]]

def tblS8 : List (List ℕ) := [
  [13, 2, 8, 4, 6, 15, 11, 1, 10, 9, 3, 14, 5, 0, 12, 7],
  [1, 15, 13, 8, 10, 3, 7, 4, 12, 5, 6, 11, 0, 14, 9, 2],
  [7, 11, 4, 1, 9, 12, 14, 2, 0, 6, 10, 13, 15, 3, 5, 8],
  [2, 1, 14, 7, 4, 10, 8, 13, 15, 12, 9, 0, 3, 5, 6, 11]]

/-- The table that the `switch` of `getBitsByFunc` takes in turn `i`. -/
def tblS : ℕ → List (List ℕ)
  | 0 => tblS1
  | 1 => tblS2
  | 2 => tblS3
  | 3 => tblS4
  | 4 => tblS5
  | 5 => tblS6
  | 6 => tblS7
  | 7 => tblS8
  | _ => []

def agSboxMapList : List (List Bool) := [
  [false, false, false, false], [false, false, false, true],
  [false, false, true, false], [false, false, true, true],
  [false, true, false, false], [false, true, false, true],
  [false, true, true, false], [false, true, true, true],
  [true, false, false, false], [true, false, false, true],
  [true, false, true, false], [true, false, true, true],
  [true, true, false, false], [true, true, false, true],
  [true, true, true, false], [true, true, true, true]]

/-! ## Strings of bits -/

/-- `bytes2bits_str`. -/
def bytes2bitsStr (is : Bytes) (inLen : ℕ) : List Bool :=
  (List.range (inLen * 8)).map fun i => (is.getD (i / 8) 0).toNat &&& (1 <<< (7 - i % 8)) ≠ 0

/-- The loop of `bits_str2bytes` from character `i` on, with `num` collected so far. -/
def bits2bytesFrom : List Bool → ℕ → ℕ → Bytes
  | [], _, _ => []
  | bit :: rest, i, num =>
    let num := if bit then num + 2 ^ (7 - i % 8) else num
    if (i + 1) % 8 = 0 then UInt8.ofNat num :: bits2bytesFrom rest (i + 1) 0
    else bits2bytesFrom rest (i + 1) num

/-- `bits_str2bytes`. -/
def bitsStr2bytes (is : List Bool) : Bytes := bits2bytesFrom is 0 0

/-- `bits_str2deci`: the last character weighs one. -/
def bitsStr2deci (str : List Bool) : ℕ :=
  str.reverse.zipIdx.foldl (fun num c => if c.1 then num + 2 ^ c.2 else num) 0

/-- What `getBitsByPc1`, `getBitsByIp`, `getBitsByIpr` and the loops of the others do with a
table: character `i` of the result is the one at place `table[i]`, counted from one. -/
def chosen (table : List ℕ) (is : List Bool) : List Bool :=
  table.map fun index => is.getD (index - 1) false

/-- `xor_bits_str`: two strings of bits, character by character. -/
def xorBitsStr (str1 str2 : List Bool) : List Bool := List.zipWith xor str1 str2

/-! ## The key schedule -/

def getBitsByPc1 (is : List Bool) : List Bool := chosen tblPc1 is

/-- One half of the key after `i` turns of the loop of `getBitsListByMove`. -/
def movedHalf (half : List Bool) : ℕ → List Bool
  | 0 => half
  | i + 1 =>
    let shift := tblMove.getD i 0
    (movedHalf half i).drop shift ++ (movedHalf half i).take shift

/-- `getBitsListByMove`: the left and the right halves. -/
def getBitsListByMove (key56Bits : List Bool) : List (List Bool) × List (List Bool) :=
  ((List.range 17).map (movedHalf (key56Bits.take 28)),
    (List.range 17).map (movedHalf ((key56Bits.drop 28).take 28)))

/-- `getBitsListByPc2`. -/
def getBitsListByPc2 (is : List (List Bool)) : List (List Bool) := is.map (chosen tblPc2)

/-- `key48BitsList` of `proc_enc_dec`. -/
def key48BitsList (key : Bytes) : List (List Bool) :=
  let halves := getBitsListByMove (getBitsByPc1 (bytes2bitsStr key 8))
  getBitsListByPc2 ((List.range 16).map fun i =>
    halves.1.getD (i + 1) [] ++ halves.2.getD (i + 1) [])

/-! ## The function of a round -/

/-- `extData` after both loops: the expanded half against the key of the round. -/
def extData (data key : List Bool) : List Bool := xorBitsStr (chosen tblExt data) key

/-- Row and column of table `i`: the outer two and the inner four of six characters. -/
def sboxCell (extData : List Bool) (i : ℕ) : ℕ × ℕ :=
  (bitsStr2deci [extData.getD (i * 6) false, extData.getD (i * 6 + 5) false],
    bitsStr2deci [extData.getD (i * 6 + 1) false, extData.getD (i * 6 + 2) false,
      extData.getD (i * 6 + 3) false, extData.getD (i * 6 + 4) false])

/-- The four characters for a cell of table `i`. -/
def sboxBits (i : ℕ) (cell : ℕ × ℕ) : List Bool :=
  agSboxMapList.getD (((tblS i).getD cell.1 []).getD cell.2 0) []

/-- `getBitsByFunc`. -/
def getBitsByFunc (data key : List Bool) : List Bool :=
  let sboxRet := (List.range 8).flatMap fun i => sboxBits i (sboxCell (extData data key) i)
  chosen tblP sboxRet

/-! ## One block -/

def getBitsByIp (is : List Bool) : List Bool := chosen tblIp is

def getBitsByIpr (is : List Bool) : List Bool := chosen tblIpr is

/-- `inputLeftDataList[i]` and `inputRightDataList[i]`: the halves after `i` rounds. -/
def inputDataLists (opt : Opt) (keys : List (List Bool)) (start : List Bool × List Bool) :
    ℕ → List Bool × List Bool
  | 0 => start
  | i + 1 =>
    let before := inputDataLists opt keys start i
    let key := keys.getD (if opt = .enc then i else 15 - i) []
    (before.2, xorBitsStr before.1 (getBitsByFunc before.2 key))

/-- The halves of the block before the first round. -/
def startData (input : Bytes) : List Bool × List Bool :=
  let inputByIp := getBitsByIp (bytes2bitsStr input 8)
  (inputByIp.take 32, (inputByIp.drop 32).take 32)

/-- `proc_enc_dec` for a block of eight bytes. -/
def procEncDec (key input : Bytes) (opt : Opt) : Bytes :=
  let last := inputDataLists opt (key48BitsList key) (startData input) 16
  bitsStr2bytes (getBitsByIpr (last.2 ++ last.1))

end CServer.Des
