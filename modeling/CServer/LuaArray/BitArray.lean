import CServer.Foundation.Fallible
import Mathlib.Algebra.Group.Int.Defs
import Mathlib.Algebra.Order.Ring.Int
import Mathlib.Data.Int.Notation
import Mathlib.Logic.Function.Basic

/-!
# The arrays of chap31_4/example4.c

`array.new`, and reads and writes by the metamethods. A `lua_Integer` has 64 bits and becomes an `int`
by a cast. An error that Lua raises ends a call and leaves the array; an access outside of the
allocated bytes is a fault. What `lua_newuserdata` gives for a size is the argument `memory`.
-/
namespace CServer.LuaArray

/-- A number as an `int`. -/
def toInt (n : ℤ) : ℤ := Int.bmod n (2 ^ 32)

/-- An `int` as an `unsigned int`. -/
def toUnsigned (i : ℤ) : ℕ := (i % 2 ^ 32).toNat

def BITS_PER_WORD : ℕ := 32

def iWord (i : ℤ) : ℕ := toUnsigned i / BITS_PER_WORD

def iBit (i : ℤ) : BitVec 32 := 1#32 <<< (toUnsigned i % BITS_PER_WORD)

/-- `BitArray`, with the number of bytes that it has been given. -/
structure BitArray where
  size : ℤ
  nbytes : ℕ
  values : ℕ → BitVec 32

inductive Fault where
  | outside
  deriving DecidableEq

/-- What a call gives back to Lua. -/
inductive Reply where
  | nothing
  | boolean (b : Bool)
  | argError (arg : ℕ) (extramsg : String)
  | memoryError
  deriving DecidableEq

/-- The word lies inside of the bytes, behind `size`. -/
def BitArray.Inside (a : BitArray) (word : ℕ) : Prop := 4 + 4 * word + 4 ≤ a.nbytes

instance decidableInside (a : BitArray) (word : ℕ) : Decidable (a.Inside word) :=
  inferInstanceAs (Decidable (_ ≤ _))

def BitArray.load (a : BitArray) (word : ℕ) : Except Fault (BitVec 32) :=
  if a.Inside word then .ok (a.values word) else .error .outside

def BitArray.store (a : BitArray) (word : ℕ) (value : BitVec 32) : Except Fault BitArray :=
  if a.Inside word then .ok { a with values := Function.update a.values word value }
  else .error .outside

/-- The loop of `newArray` from the word `i` on. -/
def zeroLoop : ℕ → ℕ → BitArray → Except Fault BitArray
  | 0, _, a => .ok a
  | turns + 1, i, a => do
    let a ← a.store i 0
    zeroLoop turns (i + 1) a

/-- `sizeof(BitArray)` and the further words. -/
def sizeFor (n : ℤ) : ℕ := 8 + iWord (n - 1) * 4

def newArray (memory : ℕ → Option (ℕ → BitVec 32)) (n : Int64) :
    Except Fault (Except Reply BitArray) :=
  let n := toInt n.toInt
  if n ≥ 1 then
    match memory (sizeFor n) with
    | none => .ok (.error .memoryError)
    | some values => do
      let a ← zeroLoop (iWord (n - 1) + 1) 0 ⟨n, sizeFor n, values⟩
      .ok (.ok a)
  else .ok (.error (.argError 1 "invalid size"))

def outOfRange : Reply := .argError 2 "index out of range"

/-- The number of the word and the mask. -/
def getparams (a : BitArray) (i : Int64) : Except Reply (ℕ × BitVec 32) :=
  let index := toInt (toInt i.toInt - 1)
  if 0 ≤ index ∧ index < a.size then .ok (iWord index, iBit index) else .error outOfRange

def setarray (a : BitArray) (i : Int64) (v : Bool) : Except Fault (BitArray × Reply) :=
  match getparams a i with
  | .error reply => .ok (a, reply)
  | .ok (entry, mask) => do
    let word ← a.load entry
    let a ← a.store entry (if v then word ||| mask else word &&& ~~~mask)
    .ok (a, .nothing)

def getarray (a : BitArray) (i : Int64) : Except Fault (BitArray × Reply) :=
  match getparams a i with
  | .error reply => .ok (a, reply)
  | .ok (entry, mask) => do
    let word ← a.load entry
    .ok (a, .boolean (word &&& mask ≠ 0))

/-- `a[i] = v` and `a[i]`. -/
inductive Access where
  | write (i : Int64) (v : Bool)
  | read (i : Int64)

def Access.index : Access → ℤ
  | .write i _ => i.toInt
  | .read i => i.toInt

def perform (a : BitArray) : Access → Except Fault (BitArray × Reply)
  | .write i v => setarray a i v
  | .read i => getarray a i

/-! ## The words -/

variable {a : BitArray} {word : ℕ} {x : BitVec 32} {i n : ℤ}

theorem toInt_of_bounds (hlow : -2 ^ 31 ≤ i) (hhigh : i < 2 ^ 31) : toInt i = i :=
  Int.bmod_eq_of_le (by omega) (by omega)

theorem toInt_bounds (i : ℤ) : -2 ^ 31 ≤ toInt i ∧ toInt i < 2 ^ 31 := by
  have hlow := Int.le_bmod (x := i) (m := 2 ^ 32) (by decide)
  have hhigh := Int.bmod_lt (x := i) (m := 2 ^ 32) (by decide)
  unfold toInt
  omega

theorem toUnsigned_of_bounds (hlow : 0 ≤ i) (hhigh : i < 2 ^ 31) : toUnsigned i = i.toNat := by
  unfold toUnsigned
  rw [Int.emod_eq_of_lt hlow (by omega)]

/-- Setting a bit and clearing it. -/
theorem getLsbD_set (x : BitVec 32) {j : ℕ} (hj : j < 32) (v : Bool) (k : ℕ) :
    (if v then x ||| 1#32 <<< j else x &&& ~~~(1#32 <<< j)).getLsbD k =
      if j = k then v else x.getLsbD k := by
  rw [← BitVec.twoPow_eq]
  by_cases hjk : j = k
  · subst hjk
    cases v <;> simp [hj]
  · have hkj : ¬k = j := fun heq => hjk heq.symm
    by_cases hk : k < 32
    · cases v <;> simp [hjk, hkj, hk]
    · cases v <;> simp [hjk, BitVec.getLsbD_of_ge x k (Nat.le_of_not_lt hk)]

/-- The mask picks its bit. -/
theorem and_mask (x : BitVec 32) {j : ℕ} (hj : j < 32) :
    decide (x &&& 1#32 <<< j ≠ 0) = x.getLsbD j := by
  rw [← BitVec.twoPow_eq, BitVec.and_twoPow]
  have hne : BitVec.twoPow 32 j ≠ 0#32 := by
    intro hzero
    have hbit := congrArg (fun y => BitVec.getLsbD y j) hzero
    simp [hj] at hbit
  cases x.getLsbD j <;> simp [hne]

end CServer.LuaArray
