import Mathlib.Data.List.Basic
import Mathlib.Tactic.Cases

/-!
# Bits of words

Words that are built bit by bit: a loop that sets bits, pieces of one length put one after the
other, a rotation, and the masked exchange of bits between two words.
-/
namespace CServer

theorem length_flatMap_range {α : Type} (piece : ℕ → List α) (c n : ℕ)
    (hpiece : ∀ i < n, (piece i).length = c) : ((List.range n).flatMap piece).length = c * n := by
  induction n with
  | zero => rfl
  | succ n ih =>
    have hbefore := ih (fun i hi => hpiece i (Nat.lt_succ_of_lt hi))
    rw [List.range_succ, List.flatMap_append, List.length_append, hbefore, List.flatMap_cons,
      List.flatMap_nil, List.append_nil, hpiece n (Nat.lt_succ_self n), Nat.mul_succ]

/-- Character `q` of equally long pieces is in piece `q / c`. -/
theorem getElem?_flatMap_range {α : Type} (piece : ℕ → List α) (c n : ℕ)
    (hpiece : ∀ i < n, (piece i).length = c) {q : ℕ} (hq : q < c * n) :
    ((List.range n).flatMap piece)[q]? = (piece (q / c))[q % c]? := by
  induction n with
  | zero => exact absurd hq (Nat.not_lt_zero q)
  | succ n ih =>
    have hbefore : ∀ i < n, (piece i).length = c := fun i hi => hpiece i (Nat.lt_succ_of_lt hi)
    have hlen := length_flatMap_range piece c n hbefore
    rw [List.range_succ, List.flatMap_append, List.getElem?_append, hlen]
    by_cases hlt : q < c * n
    · rw [if_pos hlt]
      exact ih hbefore hlt
    · have hdiv : q / c = n := by
        apply Nat.div_eq_of_lt_le
        · rw [Nat.mul_comm]
          omega
        · rw [Nat.mul_comm]
          exact hq
      have hmod : q % c = q - c * n := by
        rw [Nat.mod_eq_sub_mul_div, hdiv]
      rw [if_neg hlt, hdiv, hmod, List.flatMap_cons, List.flatMap_nil, List.append_nil]

/-- A loop that sets bits. -/
theorem getLsbD_foldl_or {α : Type} {w : ℕ} (c : α → Bool) (bits : α → ℕ) (L : List α)
    (start : BitVec w) (p : ℕ) (hp : p < w) :
    (L.foldl (fun word a => if c a then word ||| BitVec.ofNat w (bits a) else word) start).getLsbD p
      = (start.getLsbD p || L.any fun a => c a && (bits a).testBit p) := by
  induction L generalizing start with
  | nil => simp
  | cons a L ih =>
    rw [List.foldl_cons, ih, List.any_cons]
    cases hc : c a with
    | false => simp
    | true =>
      rw [if_pos rfl, BitVec.getLsbD_or, BitVec.getLsbD_ofNat, decide_eq_true hp, Bool.true_and,
        Bool.or_assoc]

/-- Among many conditions of which only one can hold. -/
theorem any_range_single {holds : ℕ → Bool} (c : ℕ → Bool) {n k : ℕ} (hk : k < n)
    (h : ∀ i < n, holds i = (decide (k = i) && c i)) : (List.range n).any holds = c k := by
  cases hc : c k with
  | false =>
    rw [List.any_eq_false]
    intro i hi hholds
    rw [h i (List.mem_range.mp hi)] at hholds
    simp only [Bool.and_eq_true, decide_eq_true_eq] at hholds
    rw [← hholds.1, hc] at hholds
    exact absurd hholds.2 (by simp)
  | true =>
    rw [List.any_eq_true]
    refine ⟨k, List.mem_range.mpr hk, ?_⟩
    rw [h k hk, hc, decide_eq_true rfl]
    rfl

/-- Every string of bits is a word. -/
theorem exists_word {w : ℕ} (bits : List Bool) (h : bits.length = w) :
    ∃ word : BitVec w, ∀ p, word.getLsbD p = bits.getD p false := by
  subst h
  exact ⟨BitVec.ofBoolListLE bits, fun p => BitVec.getLsbD_ofBoolListLE⟩

/-- A rotation to the right that is written with two shifts. -/
theorem getLsbD_turn (x : BitVec 32) {s p : ℕ} (hs : s < 32) (hp : p < 32) :
    ((x <<< (32 - s)) ||| (x >>> s)).getLsbD p = x.getLsbD ((p + s) % 32) := by
  rw [BitVec.getLsbD_or, BitVec.getLsbD_shiftLeft, BitVec.getLsbD_ushiftRight]
  by_cases hlt : p < 32 - s
  · have hmod : (p + s) % 32 = s + p := by omega
    simp [hlt, hmod]
  · have hmod : (p + s) % 32 = p - (32 - s) := by omega
    have hout : x.getLsbD (s + p) = false := BitVec.getLsbD_of_ge _ _ (by omega)
    simp [hlt, hmod, hout, hp]

/-- The bits of `x` at the places `p + s` and the bits of `y` at the places `p` change places,
for the places `p` of the mask. -/
def exchange (s : ℕ) (mask : BitVec 32) (x y : BitVec 32) : BitVec 32 × BitVec 32 :=
  let work := ((x >>> s) ^^^ y) &&& mask
  (x ^^^ (work <<< s), y ^^^ work)

theorem getLsbD_exchange_snd (s : ℕ) (mask x y : BitVec 32) (p : ℕ) :
    (exchange s mask x y).2.getLsbD p =
      if mask.getLsbD p then x.getLsbD (p + s) else y.getLsbD p := by
  simp only [exchange, BitVec.getLsbD_xor, BitVec.getLsbD_and, BitVec.getLsbD_ushiftRight,
    Nat.add_comm s p]
  cases mask.getLsbD p <;> cases x.getLsbD (p + s) <;> cases y.getLsbD p <;> rfl

theorem getLsbD_exchange_fst (s : ℕ) (mask x y : BitVec 32) {p : ℕ} (hp : p < 32) :
    (exchange s mask x y).1.getLsbD p =
      if s ≤ p ∧ mask.getLsbD (p - s) then y.getLsbD (p - s) else x.getLsbD p := by
  simp only [exchange, BitVec.getLsbD_xor, BitVec.getLsbD_shiftLeft, BitVec.getLsbD_and,
    BitVec.getLsbD_ushiftRight]
  by_cases hs : s ≤ p
  · have hadd : s + (p - s) = p := by omega
    rw [hadd]
    cases mask.getLsbD (p - s) <;> cases x.getLsbD p <;> cases y.getLsbD (p - s) <;>
      simp [hs, hp]
  · simp [hs, Nat.lt_of_not_le hs]

end CServer
