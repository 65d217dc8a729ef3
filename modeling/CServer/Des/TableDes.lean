import Mathlib.Data.List.Basic
import Mathlib.Tactic.Cases

/-!
# The table driven DES of the cloud disk

des.c of the common code, for an `unsigned long` of any width: 64 bits in the build of the
Makefile, 32 bits on the machines it was written for. An array of longs that is copied as
bytes keeps the longs that fit. What a local array holds beyond the copied bytes is a
parameter of the call. `malloc` is taken to succeed, and a length written through a pointer
to an `int` is the value written.
-/
namespace CServer.Des

abbrev Bytes := List UInt8

/-- An error code that is returned, or a read before the beginning of a buffer. -/
inductive Failure where
  | code (rv : ℕ)
  | readOutside
  deriving DecidableEq

/-- Which way the key schedule runs: `EN0` or `DE1`. -/
inductive Direction where
  | en0
  | de1
  deriving DecidableEq

def desKeyBytes : ℕ := 128
def desKeyLongs : ℕ := 32
def desBlockLen : ℕ := 8

def pc1 : List ℕ := [
  56, 48, 40, 32, 24, 16, 8, 0, 57, 49, 41, 33, 25, 17,
  9, 1, 58, 50, 42, 34, 26, 18, 10, 2, 59, 51, 43, 35,
  62, 54, 46, 38, 30, 22, 14, 6, 61, 53, 45, 37, 29, 21,
  13, 5, 60, 52, 44, 36, 28, 20, 12, 4, 27, 19, 11, 3]

def pc2 : List ℕ := [
  13, 16, 10, 23, 0, 4, 2, 27, 14, 5, 20, 9,
  22, 18, 11, 3, 25, 7, 15, 6, 26, 19, 12, 1,
  40, 51, 30, 36, 46, 54, 29, 39, 50, 44, 32, 47,
  43, 48, 38, 55, 33, 52, 45, 41, 49, 35, 28, 31]

def bytebit : List ℕ := [0x80, 0x40, 0x20, 0x10, 0x08, 0x04, 0x02, 0x01]

def totrot : List ℕ := [1, 2, 4, 6, 8, 10, 12, 14, 15, 17, 19, 21, 23, 25, 27, 28]

def bigbyte : List ℕ := [
  0x800000, 0x400000, 0x200000, 0x100000, 0x80000, 0x40000, 0x20000, 0x10000,
  0x8000, 0x4000, 0x2000, 0x1000, 0x800, 0x400, 0x200, 0x100,
  0x80, 0x40, 0x20, 0x10, 0x8, 0x4, 0x2, 0x1]

def sp1 : List ℕ := [
  0x01010400, 0x00000000, 0x00010000, 0x01010404, 0x01010004, 0x00010404,
  0x00000004, 0x00010000, 0x00000400, 0x01010400, 0x01010404, 0x00000400,
  0x01000404, 0x01010004, 0x01000000, 0x00000004, 0x00000404, 0x01000400,
  0x01000400, 0x00010400, 0x00010400, 0x01010000, 0x01010000, 0x01000404,
  0x00010004, 0x01000004, 0x01000004, 0x00010004, 0x00000000, 0x00000404,
  0x00010404, 0x01000000, 0x00010000, 0x01010404, 0x00000004, 0x01010000,
  0x01010400, 0x01000000, 0x01000000, 0x00000400, 0x01010004, 0x00010000,
  0x00010400, 0x01000004, 0x00000400, 0x00000004, 0x01000404, 0x00010404,
  0x01010404, 0x00010004, 0x01010000, 0x01000404, 0x01000004, 0x00000404,
  0x00010404, 0x01010400, 0x00000404, 0x01000400, 0x01000400, 0x00000000,
  0x00010004, 0x00010400, 0x00000000, 0x01010004]

def sp2 : List ℕ := [
  0x80108020, 0x80008000, 0x00008000, 0x00108020, 0x00100000, 0x00000020,
  0x80100020, 0x80008020, 0x80000020, 0x80108020, 0x80108000, 0x80000000,
  0x80008000, 0x00100000, 0x00000020, 0x80100020, 0x00108000, 0x00100020,
  0x80008020, 0x00000000, 0x80000000, 0x00008000, 0x00108020, 0x80100000,
  0x00100020, 0x80000020, 0x00000000, 0x00108000, 0x00008020, 0x80108000,
  0x80100000, 0x00008020, 0x00000000, 0x00108020, 0x80100020, 0x00100000,
  0x80008020, 0x80100000, 0x80108000, 0x00008000, 0x80100000, 0x80008000,
  0x00000020, 0x80108020, 0x00108020, 0x00000020, 0x00008000, 0x80000000,
  0x00008020, 0x80108000, 0x00100000, 0x80000020, 0x00100020, 0x80008020,
  0x80000020, 0x00100020, 0x00108000, 0x00000000, 0x80008000, 0x00008020,
  0x80000000, 0x80100020, 0x80108020, 0x00108000]

def sp3 : List ℕ := [
  0x00000208, 0x08020200, 0x00000000, 0x08020008, 0x08000200, 0x00000000,
  0x00020208, 0x08000200, 0x00020008, 0x08000008, 0x08000008, 0x00020000,
  0x08020208, 0x00020008, 0x08020000, 0x00000208, 0x08000000, 0x00000008,
  0x08020200, 0x00000200, 0x00020200, 0x08020000, 0x08020008, 0x00020208,
  0x08000208, 0x00020200, 0x00020000, 0x08000208, 0x00000008, 0x08020208,
  0x00000200, 0x08000000, 0x08020200, 0x08000000, 0x00020008, 0x00000208,
  0x00020000, 0x08020200, 0x08000200, 0x00000000, 0x00000200, 0x00020008,
  0x08020208, 0x08000200, 0x08000008, 0x00000200, 0x00000000, 0x08020008,
  0x08000208, 0x00020000, 0x08000000, 0x08020208, 0x00000008, 0x00020208,
  0x00020200, 0x08000008, 0x08020000, 0x08000208, 0x00000208, 0x08020000,
  0x00020208, 0x00000008, 0x08020008, 0x00020200]

def sp4 : List ℕ := [
  0x00802001, 0x00002081, 0x00002081, 0x00000080, 0x00802080, 0x00800081,
  0x00800001, 0x00002001, 0x00000000, 0x00802000, 0x00802000, 0x00802081,
  0x00000081, 0x00000000, 0x00800080, 0x00800001, 0x00000001, 0x00002000,
  0x00800000, 0x00802001, 0x00000080, 0x00800000, 0x00002001, 0x00002080,
  0x00800081, 0x00000001, 0x00002080, 0x00800080, 0x00002000, 0x00802080,
  0x00802081, 0x00000081, 0x00800080, 0x00800001, 0x00802000, 0x00802081,
  0x00000081, 0x00000000, 0x00000000, 0x00802000, 0x00002080, 0x00800080,
  0x00800081, 0x00000001, 0x00802001, 0x00002081, 0x00002081, 0x00000080,
  0x00802081, 0x00000081, 0x00000001, 0x00002000, 0x00800001, 0x00002001,
  0x00802080, 0x00800081, 0x00002001, 0x00002080, 0x00800000, 0x00802001,
  0x00000080, 0x00800000, 0x00002000, 0x00802080]

def sp5 : List ℕ := [
  0x00000100, 0x02080100, 0x02080000, 0x42000100, 0x00080000, 0x00000100,
  0x40000000, 0x02080000, 0x40080100, 0x00080000, 0x02000100, 0x40080100,
  0x42000100, 0x42080000, 0x00080100, 0x40000000, 0x02000000, 0x40080000,
  0x40080000, 0x00000000, 0x40000100, 0x42080100, 0x42080100, 0x02000100,
  0x42080000, 0x40000100, 0x00000000, 0x42000000, 0x02080100, 0x02000000,
  0x42000000, 0x00080100, 0x00080000, 0x42000100, 0x00000100, 0x02000000,
  0x40000000, 0x02080000, 0x42000100, 0x40080100, 0x02000100, 0x40000000,
  0x42080000, 0x02080100, 0x40080100, 0x00000100, 0x20000000, 0x42080000,
  0x42080100, 0x00080100, 0x42000000, 0x42080100, 0x02080000, 0x02000100,
  0x40000100, 0x00080000, 0x00080100, 0x02000100, 0x40000100, 0x00080000,
  0x00000000, 0x40080000, 0x02080100, 0x40000100]

def sp6 : List ℕ := [
  0x20000010, 0x20400000, 0x00004000, 0x20404010, 0x20400000, 0x00000010,
  0x20404010, 0x00400000, 0x20004000, 0x00404010, 0x00400000, 0x20000010,
  0x00400010, 0x20004000, 0x20000000, 0x00004010, 0x00000000, 0x00400010,
  0x20004010, 0x00004000, 0x00404000, 0x20004010, 0x00000010, 0x20400010,
  0x20400010, 0x00000000, 0x00404010, 0x20404000, 0x00004010, 0x00404000,
  0x20404000, 0x20000000, 0x20004000, 0x00000010, 0x20400010, 0x00404000,
  0x20404010, 0x00400000, 0x00004010, 0x20000010, 0x00400000, 0x20004000,
  0x20000000, 0x00004010, 0x20000010, 0x20404010, 0x00404000, 0x20400000,
  0x00404010, 0x20404000, 0x00000000, 0x20400010, 0x00000010, 0x00004000,
  0x20400000, 0x00404010, 0x00004000, 0x00400010, 0x20004010, 0x00000000,
  0x20404000, 0x20000000, 0x00400010, 0x20004010]

def sp7 : List ℕ := [
  0x00200000, 0x04200002, 0x04000802, 0x00000000, 0x00000800, 0x04000802,
  0x00200802, 0x04200800, 0x04200802, 0x00200000, 0x00000000, 0x04000002,
  0x00000002, 0x04000000, 0x04200002, 0x00000802, 0x04000800, 0x00200802,
  0x00200002, 0x04000800, 0x04000002, 0x04200000, 0x04200800, 0x00200002,
  0x04200000, 0x00000800, 0x00000802, 0x04200802, 0x00200800, 0x00000002,
  0x04000000, 0x00200800, 0x04000000, 0x00200800, 0x00200000, 0x04000802,
  0x04000802, 0x04200002, 0x04200002, 0x00000002, 0x00200002, 0x04000000,
  0x04000800, 0x00200000, 0x04200800, 0x00000802, 0x00200802, 0x04200800,
  0x00000802, 0x04000002, 0x04200802, 0x04200000, 0x00200800, 0x00000000,
  0x00000002, 0x04200802, 0x00000000, 0x00200802, 0x04200000, 0x00000800,
  0x04000002, 0x04000800, 0x00000800, 0x00200002]

def sp8 : List ℕ := [
  0x10001040, 0x00001000, 0x00040000, 0x10041040, 0x10000000, 0x10001040,
  0x00000040, 0x10000000, 0x00040040, 0x10040000, 0x10041040, 0x00041000,
  0x10041000, 0x00041040, 0x00001000, 0x00000040, 0x10040000, 0x10000040,
  0x10001000, 0x00001040, 0x00041000, 0x00040040, 0x10040040, 0x10041000,
  0x00001040, 0x00000000, 0x00000000, 0x10040040, 0x10000040, 0x10001000,
  0x00041040, 0x00040000, 0x00041040, 0x00040000, 0x10041000, 0x00001000,
  0x00000040, 0x10040040, 0x00001000, 0x00041040, 0x10001000, 0x00000040,
  0x10000040, 0x10040000, 0x10040040, 0x10000000, 0x00040000, 0x10001040,
  0x00000000, 0x10041040, 0x00040040, 0x10000040, 0x10040000, 0x10001000,
  0x10001040, 0x00000000, 0x10041040, 0x00041000, 0x00041000, 0x00001040,
  0x00001040, 0x00040040, 0x10000000, 0x10041000]

variable {w : ℕ}

/-! ## The key schedule -/

/-- `pc1m[j]`: whether the chosen bit of the key is set. -/
def pc1m (key : Bytes) (j : ℕ) : Bool :=
  let l := pc1.getD j 0
  ((key.getD (l / 8) 0).toNat &&& bytebit.getD (l % 8) 0) ≠ 0

/-- `pcr[j]` in round `i`: both halves turned by `totrot[i]`. -/
def pcr (key : Bytes) (i j : ℕ) : Bool :=
  let l := j + totrot.getD i 0
  if j < 28 then
    if l < 28 then pc1m key l else pc1m key (l - 28)
  else
    if l < 56 then pc1m key l else pc1m key (l - 28)

/-- The word `deskey` builds in round `i` from the entries of `pc2` at `offset`. -/
def knWord (key : Bytes) (i offset : ℕ) : BitVec w :=
  (List.range 24).foldl
    (fun kn j => if pcr key i (pc2.getD (j + offset) 0) then
      kn ||| BitVec.ofNat w (bigbyte.getD j 0) else kn) 0

/-- `deskey`: the words of round `i` go to the places `2i` and `2i + 1`, from the other end
when decrypting. -/
def deskey (key : Bytes) (edf : Direction) : List (BitVec w) :=
  (List.range 16).flatMap fun place =>
    let i := if edf = .de1 then 15 - place else place
    [knWord key i 0, knWord key i 24]

/-- The two words `cookey` makes of `raw0` and `raw1`. -/
def cook (raw0 raw1 : BitVec w) : List (BitVec w) :=
  [((raw0 &&& 0x00fc0000) <<< 6) ||| ((raw0 &&& 0x00000fc0) <<< 10) |||
      ((raw1 &&& 0x00fc0000) >>> 10) ||| ((raw1 &&& 0x00000fc0) >>> 6),
    ((raw0 &&& 0x0003f000) <<< 12) ||| ((raw0 &&& 0x0000003f) <<< 16) |||
      ((raw1 &&& 0x0003f000) >>> 4) ||| (raw1 &&& 0x0000003f)]

/-- `cookey`. -/
def cookey : List (BitVec w) → List (BitVec w)
  | raw0 :: raw1 :: raw => cook raw0 raw1 ++ cookey raw
  | _ => []

/-! ## One block -/

/-- One word of `scrunch`. -/
def scrunchWord (b₀ b₁ b₂ b₃ : UInt8) : BitVec w :=
  (b₀.toBitVec.setWidth w <<< 24) ||| (b₁.toBitVec.setWidth w <<< 16) |||
    (b₂.toBitVec.setWidth w <<< 8) ||| b₃.toBitVec.setWidth w

/-- `scrunch`. -/
def scrunch (outof : Bytes) : BitVec w × BitVec w :=
  (scrunchWord (outof.getD 0 0) (outof.getD 1 0) (outof.getD 2 0) (outof.getD 3 0),
    scrunchWord (outof.getD 4 0) (outof.getD 5 0) (outof.getD 6 0) (outof.getD 7 0))

/-- The low byte of a word. -/
def lowByte (x : BitVec w) : UInt8 := UInt8.ofBitVec (x.setWidth 8)

/-- The bytes `unscrun` takes from one word. -/
def unscrunWord (x : BitVec w) : Bytes :=
  [lowByte (x >>> 24), lowByte (x >>> 16), lowByte (x >>> 8), lowByte x]

/-- `unscrun`. -/
def unscrun (outof : BitVec w × BitVec w) : Bytes := unscrunWord outof.1 ++ unscrunWord outof.2

/-- `SPk[index & 0x3f]`. -/
def sp (table : List ℕ) (index : BitVec w) : BitVec w :=
  BitVec.ofNat w (table.getD (index &&& 0x3f).toNat 0)

/-- `fval` of a half round on the half `half`. -/
def fval (half key₀ key₁ : BitVec w) : BitVec w :=
  let work := ((half <<< 28) ||| (half >>> 4)) ^^^ key₀
  let odd := sp sp7 work ||| sp sp5 (work >>> 8) ||| sp sp3 (work >>> 16) ||| sp sp1 (work >>> 24)
  let work := half ^^^ key₁
  odd ||| sp sp8 work ||| sp sp6 (work >>> 8) ||| sp sp4 (work >>> 16) ||| sp sp2 (work >>> 24)

/-- The beginning of `desfunc`: the initial permutation, with both halves turned by one. -/
def desStart (leftt right : BitVec w) : BitVec w × BitVec w :=
  let work := ((leftt >>> 4) ^^^ right) &&& 0x0f0f0f0f
  let right := right ^^^ work
  let leftt := leftt ^^^ (work <<< 4)
  let work := ((leftt >>> 16) ^^^ right) &&& 0x0000ffff
  let right := right ^^^ work
  let leftt := leftt ^^^ (work <<< 16)
  let work := ((right >>> 2) ^^^ leftt) &&& 0x33333333
  let leftt := leftt ^^^ work
  let right := right ^^^ (work <<< 2)
  let work := ((right >>> 8) ^^^ leftt) &&& 0x00ff00ff
  let leftt := leftt ^^^ work
  let right := right ^^^ (work <<< 8)
  let right := ((right <<< 1) ||| ((right >>> 31) &&& 1)) &&& 0xffffffff
  let work := (leftt ^^^ right) &&& 0xaaaaaaaa
  let leftt := leftt ^^^ work
  let right := right ^^^ work
  let leftt := ((leftt <<< 1) ||| ((leftt >>> 31) &&& 1)) &&& 0xffffffff
  (leftt, right)

/-- One turn of the loop of `desfunc`. -/
def desTurn (keys : ℕ → BitVec w) (halves : BitVec w × BitVec w) (round : ℕ) :
    BitVec w × BitVec w :=
  let leftt := halves.1 ^^^ fval halves.2 (keys (4 * round)) (keys (4 * round + 1))
  let right := halves.2 ^^^ fval leftt (keys (4 * round + 2)) (keys (4 * round + 3))
  (leftt, right)

/-- The end of `desfunc`: the block that is written, first word first. -/
def desFinish (leftt right : BitVec w) : BitVec w × BitVec w :=
  let right := (right <<< 31) ||| (right >>> 1)
  let work := (leftt ^^^ right) &&& 0xaaaaaaaa
  let leftt := leftt ^^^ work
  let right := right ^^^ work
  let leftt := (leftt <<< 31) ||| (leftt >>> 1)
  let work := ((leftt >>> 8) ^^^ right) &&& 0x00ff00ff
  let right := right ^^^ work
  let leftt := leftt ^^^ (work <<< 8)
  let work := ((leftt >>> 2) ^^^ right) &&& 0x33333333
  let right := right ^^^ work
  let leftt := leftt ^^^ (work <<< 2)
  let work := ((right >>> 16) ^^^ leftt) &&& 0x0000ffff
  let leftt := leftt ^^^ work
  let right := right ^^^ (work <<< 16)
  let work := ((right >>> 4) ^^^ leftt) &&& 0x0f0f0f0f
  let leftt := leftt ^^^ work
  let right := right ^^^ (work <<< 4)
  (right, leftt)

/-- `desfunc`. -/
def desfunc (block : BitVec w × BitVec w) (keys : ℕ → BitVec w) : BitVec w × BitVec w :=
  let halves := (List.range 8).foldl (desTurn keys) (desStart block.1 block.2)
  desFinish halves.1 halves.2

/-! ## Keys and blocks as bytes -/

/-- The longs of an array that its first 128 bytes hold. -/
def copied (longs : List (BitVec w)) : List (BitVec w) := longs.take (8 * desKeyBytes / w)

/-- `OPENCOMM_DesExpandEncKey` and `OPENCOMM_DesExpandDecKey`, which differ in the direction:
the expanded key and its length in bytes, or an error code. -/
def expandKey (edf : Direction) (desKey : Bytes) : Except Failure (List (BitVec w) × ℕ) :=
  if desKey.length ≠ 8 then .error (.code 0xEE20)
  else .ok (copied (cookey (deskey desKey edf)), desKeyBytes)

def desExpandEncKey (desKey : Bytes) : Except Failure (List (BitVec w) × ℕ) := expandKey .en0 desKey

def desExpandDecKey (desKey : Bytes) : Except Failure (List (BitVec w) × ℕ) := expandKey .de1 desKey

/-- The local array `ek` or `dk` after the expanded key is copied into it. -/
def localKey (desKey : List (BitVec w)) (uninit : ℕ → BitVec w) (i : ℕ) : BitVec w :=
  ((copied desKey)[i]?).getD (uninit i)

/-- `OPENCOMM_DesEncRaw` and `OPENCOMM_DesDecRaw`, which have the same body. -/
def desRaw (desKey : List (BitVec w)) (desKeyLen : ℕ) (uninit : ℕ → BitVec w) (inData : Bytes) :
    Except Failure Bytes :=
  if inData.length ≠ desBlockLen then .error (.code 0xEE20)
  else if desKeyLen ≠ desKeyBytes then .error (.code 0xEE20)
  else .ok (unscrun (desfunc (scrunch inData) (localKey desKey uninit)))

/-- A block of the right length and a key of the right length are not refused. -/
theorem desRaw_eq (key : List (BitVec w)) (uninit : ℕ → BitVec w) {inData : Bytes}
    (h : inData.length = 8) :
    desRaw key desKeyBytes uninit inData =
      .ok (unscrun (desfunc (scrunch inData) (localKey key uninit))) := by
  have hlen : ¬ inData.length ≠ desBlockLen := not_not.mpr h
  rw [desRaw, if_neg hlen, if_neg (not_not.mpr rfl)]

def desEncRaw (desEncKey : List (BitVec w)) (desEncKeyLen : ℕ) (uninit : ℕ → BitVec w)
    (inData : Bytes) : Except Failure Bytes :=
  desRaw desEncKey desEncKeyLen uninit inData

def desDecRaw (desDecKey : List (BitVec w)) (desDecKeyLen : ℕ) (uninit : ℕ → BitVec w)
    (inData : Bytes) : Except Failure Bytes :=
  desRaw desDecKey desDecKeyLen uninit inData

/-- The loop over the blocks from block `i` on, with `loops` blocks left. The local array of
block `i` holds `uninit i` before the copy. -/
def cryptBlocks (raw : (ℕ → BitVec w) → Bytes → Except Failure Bytes) (uninit : ℕ → ℕ → BitVec w)
    (inData : Bytes) : ℕ → ℕ → Except Failure Bytes
  | 0, _ => .ok []
  | loops + 1, i => do
    let block ← raw (uninit i) ((inData.drop (8 * i)).take 8)
    let rest ← cryptBlocks raw uninit inData loops (i + 1)
    .ok (block ++ rest)

/-- `myic_DESEncrypt`. -/
def myicDESEncrypt (uninit : ℕ → ℕ → BitVec w) (desKey inData : Bytes) : Except Failure Bytes :=
  if inData.length % 8 ≠ 0 then .error (.code 0xEE20)
  else if desKey.length ≠ 8 then .error (.code 0xEE20)
  else do
    let encKey ← desExpandEncKey desKey
    cryptBlocks (desEncRaw encKey.1 encKey.2) uninit inData (inData.length / 8) 0

/-- `myic_DESDecrypt`. -/
def myicDESDecrypt (uninit : ℕ → ℕ → BitVec w) (desKey inData : Bytes) : Except Failure Bytes :=
  if inData.length % 8 ≠ 0 then .error (.code 0xEE20)
  else if desKey.length ≠ 8 then .error (.code 0xEE20)
  else do
    let decKey ← desExpandDecKey desKey
    cryptBlocks (desDecRaw decKey.1 decKey.2) uninit inData (inData.length / 8) 0

/-! ## Padding -/

/-- `CW_dataPadAdd`. -/
def cwDataPadAdd (tag : ℕ) (date : Bytes) : Bytes :=
  let padLen := if tag = 0 then 8 - date.length % 8 else 16 - date.length % 16
  date ++ List.replicate padLen (UInt8.ofNat padLen)

/-- `USER_PASSWORD_KEY`, "abcd1234". -/
def userPasswordKey : Bytes := [97, 98, 99, 100, 49, 50, 51, 52]

/-- `DesEnc`. -/
def desEnc (uninit : ℕ → ℕ → BitVec w) (inData : Bytes) : Except Failure Bytes :=
  myicDESEncrypt uninit userPasswordKey (cwDataPadAdd 0 inData)

/-- `ERR_FILECONT`. -/
def errFilecont : ℕ := 20

/-- `DesDec`: the pad character is a signed `char`, so that bytes from 128 on are negative.
It is read before the buffer when there is no block. -/
def desDec (uninit : ℕ → ℕ → BitVec w) (inData : Bytes) : Except Failure Bytes := do
  let tmpPlain ← myicDESDecrypt uninit userPasswordKey inData
  match tmpPlain.getLast? with
  | none => .error .readOutside
  | some padChar =>
    if padChar.toBitVec.toInt ≤ 0 ∨ padChar.toBitVec.toInt > 8 then .error (.code errFilecont)
    else .ok (tmpPlain.take (tmpPlain.length - padChar.toNat))

end CServer.Des
