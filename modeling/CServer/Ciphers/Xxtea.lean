import CServer.Foundation.Undoing
import Mathlib.Data.BitVec
import Mathlib.Logic.Function.Basic
import Mathlib.Logic.Function.Iterate

/-!
# The cipher of xxtea.c

`btea` codes an array of `n` words in place, and decodes it when it is given `-n`. A word is changed
by its two neighbours in cyclic order, the number of the round and the key. The variables `z` and
`y` carry a neighbour from one turn to the next.
-/
namespace CServer.Xxtea

abbrev Word := BitVec 32

/-- What `v` and `key` point to. -/
abbrev Words := ℕ → Word

def delta : Word := 0x9e3779b9#32

/-- The macro `MX`. -/
def mx (key : Words) (sum y z : Word) (p e : ℕ) : Word :=
  ((z >>> 5 ^^^ y <<< 2) + (y >>> 3 ^^^ z <<< 4)) ^^^
    ((sum ^^^ y) + (key ((p &&& 3) ^^^ e) ^^^ z))

/-- The word of the key with which a round begins. -/
def keyWord (sum : Word) : ℕ := (sum >>> 2 &&& 3#32).toNat

/-- The array and the variables that outlive a round: `z` when coding, `y` when decoding, and
`sum`. -/
structure Loop where
  v : Words
  carried : Word
  sum : Word

/-- The first `p` turns of the inner loop of the coding part. -/
def codeLoop (key : Words) (sum : Word) (e : ℕ) : ℕ → Words → Word → Words × Word
  | 0, v, z => (v, z)
  | p + 1, v, z =>
    let (v, z) := codeLoop key sum e p v z
    let y := v (p + 1)
    let z := v p + mx key sum y z p e
    (Function.update v p z, z)

/-- A round of the coding part. -/
def codeRound (key : Words) (n : ℕ) (s : Loop) : Loop :=
  let sum := s.sum + delta
  let e := keyWord sum
  let (v, z) := codeLoop key sum e (n - 1) s.v s.carried
  let y := v 0
  let z := v (n - 1) + mx key sum y z (n - 1) e
  ⟨Function.update v (n - 1) z, z, sum⟩

/-- The inner loop of the decoding part from `p` down to 1. -/
def decodeLoop (key : Words) (sum : Word) (e : ℕ) : ℕ → Words → Word → Words × Word
  | 0, v, y => (v, y)
  | p + 1, v, y =>
    let z := v p
    let y := v (p + 1) - mx key sum y z (p + 1) e
    decodeLoop key sum e p (Function.update v (p + 1) y) y

/-- A round of the decoding part. -/
def decodeRound (key : Words) (n : ℕ) (s : Loop) : Loop :=
  let e := keyWord s.sum
  let (v, y) := decodeLoop key s.sum e (n - 1) s.v s.carried
  let z := v (n - 1)
  let y := v 0 - mx key s.sum y z 0 e
  ⟨Function.update v 0 y, y, s.sum - delta⟩

/-- `btea`. -/
def btea (v : Words) (n : ℤ) (key : Words) : Words :=
  if n > 1 then
    let n := n.toNat
    let rounds := 6 + 52 / n
    ((codeRound key n)^[rounds] ⟨v, v (n - 1), 0⟩).v
  else if n < -1 then
    let n := (-n).toNat
    let rounds := 6 + 52 / n
    ((decodeRound key n)^[rounds] ⟨v, v 0, rounds * delta⟩).v
  else v

/-! ## A word and its neighbours -/

variable {key v : Words} {n p : ℕ} {sum : Word}

/-- What is added to the word `p`. -/
def addend (key : Words) (n : ℕ) (sum : Word) (p : ℕ) (v : Words) : Word :=
  mx key sum (v (if p = n - 1 then 0 else p + 1)) (v (if p = 0 then n - 1 else p - 1)) p (keyWord sum)

def codeWord (key : Words) (n : ℕ) (sum : Word) (p : ℕ) (v : Words) : Words :=
  Function.update v p (v p + addend key n sum p v)

def decodeWord (key : Words) (n : ℕ) (sum : Word) (p : ℕ) (v : Words) : Words :=
  Function.update v p (v p - addend key n sum p v)

/-- A word is not its own neighbour. -/
theorem addend_update (hn : 1 < n) (q : Word) :
    addend key n sum p (Function.update v p q) = addend key n sum p v := by
  have hnext : (if p = n - 1 then 0 else p + 1) ≠ p := by
    split <;> omega
  have hprev : (if p = 0 then n - 1 else p - 1) ≠ p := by
    split <;> omega
  rw [addend, Function.update_of_ne hnext, Function.update_of_ne hprev, addend]

theorem decodeWord_codeWord (hn : 1 < n) : decodeWord key n sum p (codeWord key n sum p v) = v := by
  rw [decodeWord, codeWord, addend_update hn, Function.update_self, Function.update_idem,
    BitVec.add_sub_cancel, Function.update_eq_self]

theorem codeWord_decodeWord (hn : 1 < n) : codeWord key n sum p (decodeWord key n sum p v) = v := by
  rw [codeWord, decodeWord, addend_update hn, Function.update_self, Function.update_idem,
    BitVec.sub_add_cancel, Function.update_eq_self]

/-! ## The rounds as sequences of steps -/

/-- The inner loop changes the words before `p` in order, and `z` is the one before `p`. -/
theorem codeLoop_eq (hp : p < n) (v : Words) :
    codeLoop key sum (keyWord sum) p v (v (n - 1)) =
      (steps (codeWord key n sum) (List.range p) v,
        steps (codeWord key n sum) (List.range p) v (if p = 0 then n - 1 else p - 1)) := by
  induction p with
  | zero => rfl
  | succ p ih =>
    rw [codeLoop, ih (by omega), List.range_succ, steps_append]
    have haddend : mx key sum (steps (codeWord key n sum) (List.range p) v (p + 1))
        (steps (codeWord key n sum) (List.range p) v (if p = 0 then n - 1 else p - 1)) p (keyWord sum) =
        addend key n sum p (steps (codeWord key n sum) (List.range p) v) := by
      rw [addend, if_neg (show p ≠ n - 1 by omega)]
    simp only [haddend, steps_cons, steps_nil]
    rw [if_neg (Nat.succ_ne_zero p), Nat.add_sub_cancel, codeWord, Function.update_self]

theorem codeRound_eq (hn : 1 < n) (v : Words) (sum : Word) :
    codeRound key n ⟨v, v (n - 1), sum⟩ =
      ⟨steps (codeWord key n (sum + delta)) (List.range n) v,
        steps (codeWord key n (sum + delta)) (List.range n) v (n - 1), sum + delta⟩ := by
  have hlast : List.range n = List.range (n - 1) ++ [n - 1] := by
    rw [← List.range_succ, Nat.succ_eq_add_one, Nat.sub_add_cancel (by omega)]
  simp only [codeRound, codeLoop_eq (show n - 1 < n by omega)]
  have haddend : mx key (sum + delta) (steps (codeWord key n (sum + delta)) (List.range (n - 1)) v 0)
      (steps (codeWord key n (sum + delta)) (List.range (n - 1)) v
        (if n - 1 = 0 then n - 1 else n - 1 - 1)) (n - 1) (keyWord (sum + delta)) =
      addend key n (sum + delta) (n - 1) (steps (codeWord key n (sum + delta)) (List.range (n - 1)) v) := by
    rw [addend, if_pos rfl]
  rw [haddend, hlast, steps_append, steps_cons, steps_nil, codeWord, Function.update_self]

/-- The words from `p` down to the second one. -/
def downFrom (p : ℕ) : List ℕ := ((List.range p).map (· + 1)).reverse

theorem downFrom_succ (p : ℕ) : downFrom (p + 1) = (p + 1) :: downFrom p := by
  rw [downFrom, List.range_succ, List.map_append, List.reverse_append]
  rfl

theorem reverse_range (hn : 1 < n) : (List.range n).reverse = downFrom (n - 1) ++ [0] := by
  obtain ⟨m, rfl⟩ : ∃ m, n = m + 1 := ⟨n - 1, by omega⟩
  rw [List.range_succ_eq_map, List.reverse_cons]
  rfl

/-- The inner loop of the decoding changes the words from `p` down, and `y` is the one behind. -/
theorem decodeLoop_eq (hn : 1 < n) (hp : p < n) (v : Words) :
    decodeLoop key sum (keyWord sum) p v (v (if p = n - 1 then 0 else p + 1)) =
      (steps (decodeWord key n sum) (downFrom p) v, steps (decodeWord key n sum) (downFrom p) v 1) := by
  induction p generalizing v with
  | zero =>
    rw [if_neg (show 0 ≠ n - 1 by omega)]
    rfl
  | succ p ih =>
    have haddend : mx key sum (v (if p + 1 = n - 1 then 0 else p + 1 + 1)) (v p) (p + 1) (keyWord sum) =
        addend key n sum (p + 1) v := by
      rw [addend, if_neg (Nat.succ_ne_zero p), Nat.add_sub_cancel]
    have hbehind : v (p + 1) - addend key n sum (p + 1) v =
        decodeWord key n sum (p + 1) v (if p = n - 1 then 0 else p + 1) := by
      rw [if_neg (show p ≠ n - 1 by omega), decodeWord, Function.update_self]
    have hstep := ih (by omega) (decodeWord key n sum (p + 1) v)
    rw [← hbehind] at hstep
    simp only [decodeLoop, haddend]
    rw [downFrom_succ, steps_cons]
    exact hstep

theorem decodeRound_eq (hn : 1 < n) (v : Words) (sum : Word) :
    decodeRound key n ⟨v, v 0, sum⟩ =
      ⟨steps (decodeWord key n sum) (List.range n).reverse v,
        steps (decodeWord key n sum) (List.range n).reverse v 0, sum - delta⟩ := by
  have hloop : decodeLoop key sum (keyWord sum) (n - 1) v (v (if n - 1 = n - 1 then 0 else _)) = _ :=
    decodeLoop_eq hn (show n - 1 < n by omega) v
  rw [if_pos rfl] at hloop
  simp only [decodeRound, hloop]
  have haddend : mx key sum (steps (decodeWord key n sum) (downFrom (n - 1)) v 1)
      (steps (decodeWord key n sum) (downFrom (n - 1)) v (n - 1)) 0 (keyWord sum) =
      addend key n sum 0 (steps (decodeWord key n sum) (downFrom (n - 1)) v) := by
    rw [addend, if_neg (show 0 ≠ n - 1 by omega), if_pos rfl]
  rw [haddend, reverse_range hn, steps_append, steps_cons, steps_nil, decodeWord, Function.update_self]

/-! ## All rounds -/

/-- A round that codes every word with its `sum`. -/
def coded (key : Words) (n : ℕ) (sum : Word) : Words → Words := steps (codeWord key n sum) (List.range n)

def decoded (key : Words) (n : ℕ) (sum : Word) : Words → Words :=
  steps (decodeWord key n sum) (List.range n).reverse

theorem decoded_coded (hn : 1 < n) : decoded key n sum (coded key n sum v) = v :=
  steps_undo (f := codeWord key n sum) (g := decodeWord key n sum)
    (fun _ _ _ => decodeWord_codeWord hn) v

theorem coded_decoded (hn : 1 < n) : coded key n sum (decoded key n sum v) = v := by
  have hback := steps_undo (f := decodeWord key n sum) (g := codeWord key n sum)
    (l := (List.range n).reverse) (fun _ _ _ => codeWord_decodeWord hn) v
  rwa [List.reverse_reverse] at hback

/-- The sums of the rounds. -/
def sums (rounds : ℕ) : List Word := (List.range rounds).map fun r => (r + 1 : ℕ) * delta

theorem sums_succ (rounds : ℕ) : sums (rounds + 1) = sums rounds ++ [(rounds + 1 : ℕ) * delta] := by
  rw [sums, List.range_succ, List.map_append]
  rfl

theorem codeRounds_eq (hn : 1 < n) (v : Words) (rounds : ℕ) :
    (codeRound key n)^[rounds] ⟨v, v (n - 1), 0⟩ =
      ⟨steps (coded key n) (sums rounds) v, steps (coded key n) (sums rounds) v (n - 1),
        rounds * delta⟩ := by
  induction rounds with
  | zero => simp [sums]
  | succ rounds ih =>
    have hsum : (rounds : Word) * delta + delta = (rounds + 1 : ℕ) * delta := by
      rw [Nat.cast_succ, add_mul, one_mul]
    rw [Function.iterate_succ_apply', ih, codeRound_eq hn, hsum, sums_succ, steps_append]
    rfl

theorem decodeRounds_eq (hn : 1 < n) (v : Words) (rounds : ℕ) :
    ((decodeRound key n)^[rounds] ⟨v, v 0, rounds * delta⟩).v =
      steps (decoded key n) (sums rounds).reverse v := by
  induction rounds generalizing v with
  | zero => rfl
  | succ rounds ih =>
    have hsum : ((rounds + 1 : ℕ) : Word) * delta - delta = rounds * delta := by
      rw [Nat.cast_succ, add_mul, one_mul, add_sub_cancel_right]
    rw [Function.iterate_succ_apply, decodeRound_eq hn, hsum, sums_succ, List.reverse_append]
    exact ih (decoded key n ((rounds + 1 : ℕ) * delta) v)

theorem btea_code (hn : 1 < n) : btea v n key = steps (coded key n) (sums (6 + 52 / n)) v := by
  have hpos : (n : ℤ) > 1 := by omega
  simp only [btea, if_pos hpos, Int.toNat_natCast]
  rw [codeRounds_eq hn]

theorem btea_decode (hn : 1 < n) :
    btea v (-n) key = steps (decoded key n) (sums (6 + 52 / n)).reverse v := by
  have hneg : ¬(-n : ℤ) > 1 := by omega
  have hneg' : (-n : ℤ) < -1 := by omega
  simp only [btea, if_neg hneg, if_pos hneg', neg_neg, Int.toNat_natCast]
  exact decodeRounds_eq hn v (6 + 52 / n)

/-- The decoding takes the coding back, and the coding the decoding. -/
theorem btea_inverse (n : ℤ) (hn : n > 1) (v key : Words) :
    btea (btea v n key) (-n) key = v ∧ btea (btea v (-n) key) n key = v := by
  obtain ⟨n, rfl⟩ : ∃ m : ℕ, n = m := ⟨n.toNat, by omega⟩
  have hn' : 1 < n := by omega
  constructor
  · rw [btea_code (v := v) hn', btea_decode hn']
    exact steps_undo (f := coded key n) (g := decoded key n) (fun _ _ _ => decoded_coded hn') v
  · rw [btea_decode (v := v) hn', btea_code hn']
    have hback := steps_undo (f := decoded key n) (g := coded key n) (l := (sums (6 + 52 / n)).reverse)
      (fun _ _ _ => coded_decoded hn') v
    rwa [List.reverse_reverse] at hback

/-- The array and the key of the program's own test. -/
theorem btea_inverse_ten :
    let v : Words := fun i => BitVec.ofNat 32 i
    let key : Words := fun i => ([2, 2, 3, 4] : List Word).getD i 0
    btea (btea v 10 key) (-10) key = v ∧ btea (btea v (-10) key) 10 key = v :=
  btea_inverse 10 (by decide) _ _

end CServer.Xxtea
