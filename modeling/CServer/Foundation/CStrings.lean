import CServer.Foundation.Fallible
import Mathlib.Data.List.TakeWhile

/-!
# Strings in buffers

A buffer is the list of its bytes, and a text in it ends at the first zero byte. A read or a write
behind the end of the buffer is a fault.
-/
namespace CServer.CStrings

abbrev Bytes := List UInt8

inductive Fault where
  | outside
  | endless
  deriving DecidableEq

def load (b : Bytes) (i : ℕ) : Except Fault UInt8 :=
  match b[i]? with
  | some x => .ok x
  | none => .error .outside

def store (b : Bytes) (i : ℕ) (x : UInt8) : Except Fault Bytes :=
  if i < b.length then .ok (b.set i x) else .error .outside

/-- Bytes are written one after the other from a place on. -/
def copyTo : Bytes → Bytes → ℕ → Except Fault Bytes
  | [], b, _ => .ok b
  | x :: xs, b, i => do
    let b ← store b i x
    copyTo xs b (i + 1)

/-- The bytes from a place on, read up to one that ends them. -/
def readUntil (ends : UInt8 → Bool) (b : Bytes) (i : ℕ) : Except Fault Bytes :=
  if (b.drop i).any ends then .ok ((b.drop i).takeWhile fun c => ¬ends c) else .error .outside

/-- The text from a place on, read up to its terminator. -/
def textAt (b : Bytes) (i : ℕ) : Except Fault Bytes := readUntil (fun c => c = 0) b i

variable {b front back text xs : Bytes} {i : ℕ} {x y : UInt8}

/-! ## Up to a byte -/

theorem passes_of_notMem {α : Type} [DecidableEq α] {x : α} {l : List α} (h : x ∉ l) :
    ∀ c ∈ l, decide (c ≠ x) = true := by
  intro c hc
  have hne : c ≠ x := fun heq => h (heq ▸ hc)
  simpa using hne

theorem takeWhile_ne_append (h : x ∉ text) (back : Bytes) :
    (text ++ x :: back).takeWhile (· ≠ x) = text := by
  rw [List.takeWhile_append_of_pos (passes_of_notMem h), List.takeWhile_cons_of_neg (by simp),
    List.append_nil]

theorem dropWhile_ne_append (h : x ∉ text) (back : Bytes) :
    (text ++ x :: back).dropWhile (· ≠ x) = x :: back := by
  rw [List.dropWhile_append_of_pos (passes_of_notMem h), List.dropWhile_cons_of_neg (by simp)]

/-! ## At the end of a front part -/

theorem load_append : load (front ++ x :: back) front.length = .ok x := by
  simp [load]

theorem store_append (front back : Bytes) (x y : UInt8) :
    store (front ++ y :: back) front.length x = .ok (front ++ x :: back) := by
  have hlt : front.length < (front ++ y :: back).length := by simp
  rw [store, if_pos hlt, List.set_append_right _ _ (Nat.le_refl _), Nat.sub_self, List.set_cons_zero]

/-- What is written stands in the place of as many bytes. -/
theorem copyTo_append (front : Bytes) (h : xs.length ≤ back.length) :
    copyTo xs (front ++ back) front.length = .ok (front ++ xs ++ back.drop xs.length) := by
  induction xs generalizing front back with
  | nil => simp [copyTo]
  | cons x xs ih =>
    cases back with
    | nil => simp at h
    | cons y back =>
      have hrest := ih (front ++ [x]) (Nat.le_of_succ_le_succ h)
      rw [copyTo, store_append, ok_bind]
      simpa using hrest

/-- A text that does not fit leaves the buffer. -/
theorem copyTo_outside (hi : i ≤ b.length) (h : b.length < i + xs.length) :
    copyTo xs b i = .error .outside := by
  induction xs generalizing i b with
  | nil =>
    rw [List.length_nil] at h
    omega
  | cons x xs ih =>
    rw [copyTo, store]
    by_cases hlt : i < b.length
    · rw [List.length_cons] at h
      have hlength : (b.set i x).length = b.length := List.length_set
      rw [if_pos hlt, ok_bind]
      exact ih (by omega) (by omega)
    · rw [if_neg hlt]
      rfl

/-- The bytes in front of one that ends them. -/
theorem readUntil_append {ends : UInt8 → Bool} (htext : ∀ c ∈ text, ends c = false)
    (hx : ends x = true) :
    readUntil ends (front ++ (text ++ x :: back)) front.length = .ok text := by
  have hany : (text ++ x :: back).any ends = true := by simp [hx]
  have hpass : ∀ c ∈ text, decide (¬ends c) = true := by
    intro c hc
    simp [htext c hc]
  rw [readUntil, List.drop_left, if_pos hany, List.takeWhile_append_of_pos hpass,
    List.takeWhile_cons_of_neg (by simp [hx]), List.append_nil]

/-- Behind the end of the buffer there is nothing to read. -/
theorem readUntil_outside {ends : UInt8 → Bool} (h : b.length ≤ i) :
    readUntil ends b i = .error .outside := by
  rw [readUntil, List.drop_eq_nil_of_le h]
  rfl

theorem textAt_append (h : 0 ∉ text) :
    textAt (front ++ (text ++ 0 :: back)) front.length = .ok text := by
  refine readUntil_append (fun c hc => ?_) rfl
  have hne : c ≠ 0 := fun heq => h (heq ▸ hc)
  simpa using hne

end CServer.CStrings
