import CServer.Foundation.Fallible
import Mathlib.Algebra.Ring.Int.Defs
import Mathlib.Data.Int.Notation
import Mathlib.Data.Nat.Notation

/-!
# String searching

kmp.c: three ways to fill the table of a pattern, and three searches that read one. A string is what
stands before its terminator, a table is an array of the caller. Reading outside a string and its
terminator, reading or writing outside a table, and turns that do not end are faults. An `int` holds
the length of every string.
-/
namespace CServer.Kmp

inductive Fault where
  | read
  | write
  | turns
  deriving DecidableEq

/-- The characters of a string, without the terminator. -/
structure CString where
  chars : List Int8
  visible : 0 ∉ chars

def strlen (s : CString) : ℤ := s.chars.length

/-! ## Memory -/

def charAt (s : CString) (i : ℤ) : Except Fault Int8 :=
  if 0 ≤ i ∧ i ≤ strlen s then .ok (s.chars.getD i.toNat 0) else .error .read

def entry (next : List ℤ) (i : ℤ) : Except Fault ℤ :=
  if 0 ≤ i ∧ i < next.length then .ok (next.getD i.toNat 0) else .error .read

def store (next : List ℤ) (i value : ℤ) : Except Fault (List ℤ) :=
  if 0 ≤ i ∧ i < next.length then .ok (next.set i.toNat value) else .error .write

/-! ## Tables -/

/-- The loop of `compare`, for two pointers into one string. -/
def compareFrom (pattern : CString) (n : ℤ) : ℕ → ℤ → ℤ → ℤ → Except Fault ℤ
  | 0, _, _, _ => .error .turns
  | turns + 1, p1, p2, i =>
    if i < n then do
      let c1 ← charAt pattern p1
      let c2 ← charAt pattern p2
      if c1 < c2 then return -1
      else if c1 > c2 then return 1
      else compareFrom pattern n turns (p1 + 1) (p2 + 1) (i + 1)
    else return 0

/-- `compare`. -/
def compare (pattern : CString) (str1 str2 n : ℤ) (turns : ℕ) : Except Fault ℤ :=
  compareFrom pattern n turns str1 str2 0

/-- The inner loop of `getNext`. -/
def getNextShift (pattern : CString) (i : ℤ) : ℕ → ℤ → Except Fault ℤ
  | 0, _ => .error .turns
  | turns + 1, j =>
    if j ≤ i then do
      let order ← compare pattern 0 j (i + 1 - j) turns
      if order = 0 then return j else getNextShift pattern i turns (j + 1)
    else return j

/-- The outer loop of `getNext`. -/
def getNextFrom (pattern : CString) : ℕ → ℤ → List ℤ → Except Fault (List ℤ)
  | 0, _, _ => .error .turns
  | turns + 1, i, next =>
    if i < strlen pattern then do
      let j ← getNextShift pattern i turns 1
      let next ← store next i (i + 1 - j)
      getNextFrom pattern turns (i + 1) next
    else return next

/-- `getNext`. -/
def getNext (pattern : CString) (next : List ℤ) (turns : ℕ) : Except Fault (List ℤ) := do
  let next ← store next 0 0
  getNextFrom pattern turns 1 next

/-- `while (j > 0 && c != pattern[j]) j = next[j - 1]`. -/
def fallBack (pattern : CString) (next : List ℤ) (c : Int8) : ℕ → ℤ → Except Fault ℤ
  | 0, _ => .error .turns
  | turns + 1, j =>
    if 0 < j then do
      let p ← charAt pattern j
      if c ≠ p then do
        let j ← entry next (j - 1)
        fallBack pattern next c turns j
      else return j
    else return j

/-- That loop, and `if (pattern[j] == c) j++`. -/
def advance (pattern : CString) (next : List ℤ) (c : Int8) (turns : ℕ) (j : ℤ) : Except Fault ℤ := do
  let j ← fallBack pattern next c turns j
  let p ← charAt pattern j
  if p = c then return j + 1 else return j

/-- The outer loop of `getNext2` and `make_next`. -/
def fillFrom (pattern : CString) : ℕ → ℤ → ℤ → List ℤ → Except Fault (List ℤ)
  | 0, _, _, _ => .error .turns
  | turns + 1, i, j, next =>
    if i < strlen pattern then do
      let c ← charAt pattern i
      let j ← advance pattern next c turns j
      let next ← store next i j
      fillFrom pattern turns (i + 1) j next
    else return next

/-- `getNext2`. -/
def getNext2 (pattern : CString) (next : List ℤ) (turns : ℕ) : Except Fault (List ℤ) := do
  let next ← store next 0 0
  fillFrom pattern turns 1 0 next

/-- `make_next`. -/
def makeNext (pattern : CString) (next : List ℤ) (turns : ℕ) : Except Fault (List ℤ) := do
  let next ← store next 0 0
  fillFrom pattern turns 1 0 next

/-! ## Searches -/

/-- The loop of `kmp`, and its result. -/
def kmpFrom (text pattern : CString) (next : List ℤ) : ℕ → ℤ → ℤ → Except Fault ℤ
  | 0, _, _ => .error .turns
  | turns + 1, i, q =>
    if i < strlen text then do
      let c ← charAt text i
      let q ← advance pattern next c turns q
      if q = strlen pattern then return i - q + 1
      else kmpFrom text pattern next turns (i + 1) q
    else return i - q + 1

/-- `kmp`, with the table that it leaves. -/
def kmp (text pattern : CString) (next : List ℤ) (turns : ℕ) : Except Fault (ℤ × List ℤ) := do
  let next ← makeNext pattern next turns
  let shift ← kmpFrom text pattern next turns 0 0
  return (shift, next)

/-- The loop of `kmp_my2`. -/
def kmpMy2From (text pattern : CString) (next : List ℤ) : ℕ → ℤ → ℤ → Except Fault ℤ
  | 0, _, _ => .error .turns
  | turns + 1, i, j =>
    if i ≤ strlen text - strlen pattern then do
      let c ← charAt text i
      let j ← advance pattern next c turns j
      if j = strlen pattern then return i + 1 - strlen pattern
      else kmpMy2From text pattern next turns (i + 1) j
    else return -1

/-- `kmp_my2`. -/
def kmpMy2 (text pattern : CString) (next : List ℤ) (turns : ℕ) : Except Fault ℤ :=
  kmpMy2From text pattern next turns 0 0

/-- `while (i <= n-m && j < m && text[i] == pattern[j]) { i++; j++; }`. -/
def matchFrom (text pattern : CString) : ℕ → ℤ → ℤ → Except Fault (ℤ × ℤ)
  | 0, _, _ => .error .turns
  | turns + 1, i, j =>
    if i ≤ strlen text - strlen pattern ∧ j < strlen pattern then do
      let c ← charAt text i
      let p ← charAt pattern j
      if c = p then matchFrom text pattern turns (i + 1) (j + 1) else return (i, j)
    else return (i, j)

/-- The body of the loop of `kmp_my1`: the result, or `i` and `j` for the next turn. -/
def kmpMy1Turn (text pattern : CString) (next : List ℤ) (turns : ℕ) (i j : ℤ) :
    Except Fault (ℤ ⊕ ℤ × ℤ) := do
  let c ← charAt text i
  let p ← charAt pattern j
  let reached ←
    if c ≠ p then matchFrom text pattern turns (i + 1) 0 else matchFrom text pattern turns i j
  if reached.2 = strlen pattern then return .inl (reached.1 - strlen pattern)
  else do
    let j ← entry next (reached.2 - 1)
    return .inr (reached.1, j)

/-- The loop of `kmp_my1`. -/
def kmpMy1From (text pattern : CString) (next : List ℤ) : ℕ → ℤ → ℤ → Except Fault ℤ
  | 0, _, _ => .error .turns
  | turns + 1, i, j =>
    if i ≤ strlen text - strlen pattern then do
      match ← kmpMy1Turn text pattern next turns i j with
      | .inl shift => return shift
      | .inr (i, j) => kmpMy1From text pattern next turns i j
    else return -1

/-- `kmp_my1`. -/
def kmpMy1 (text pattern : CString) (next : List ℤ) (turns : ℕ) : Except Fault ℤ :=
  kmpMy1From text pattern next turns 0 0

end CServer.Kmp
