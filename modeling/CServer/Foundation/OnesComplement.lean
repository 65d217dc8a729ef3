import Mathlib.Data.Int.ModEq
import Mathlib.Data.List.Basic
import Mathlib.Algebra.BigOperators.Group.List.Basic
import Mathlib.Algebra.Order.Ring.Nat
import Mathlib.Data.UInt
import Mathlib.Tactic.Ring

/-!
# One's complement sums

Sums with an end-around carry: what goes over the largest word comes back at the low end. Such a sum
is the plain sum modulo the largest word, where the sum of zeros alone is zero and every other
multiple is the largest word. So the order of the terms and the order of the two bytes in all words
do not matter for a sum that is all ones.
-/
namespace CServer.OnesComplement

/-- The sum of two words up to `m` with an end-around carry. -/
def endAround (m a b : ℕ) : ℕ :=
  if a + b ≤ m then a + b else a + b - m

/-- The sum of a list of words. -/
def onesSum (m : ℕ) (ws : List ℕ) : ℕ := ws.foldl (endAround m) 0

/-- The word that stands for a number. -/
def onesWord (m n : ℕ) : ℕ := if n = 0 then 0 else (n - 1) % m + 1

variable {m a b n k : ℕ} {ws vs : List ℕ}

theorem onesWord_le (hm : 0 < m) : onesWord m n ≤ m := by
  unfold onesWord
  split_ifs
  · exact Nat.zero_le m
  · exact Nat.mod_lt _ hm

theorem onesWord_eq_zero_iff : onesWord m n = 0 ↔ n = 0 := by
  unfold onesWord
  split_ifs with hn <;> simp [hn]

theorem onesWord_modEq : onesWord m n ≡ n [MOD m] := by
  unfold onesWord
  split_ifs with hn
  · rw [hn]
  · have hpred : (n - 1) % m + 1 ≡ n - 1 + 1 [MOD m] := (Nat.mod_modEq (n - 1) m).add_right 1
    rwa [Nat.sub_add_cancel (Nat.pos_of_ne_zero hn)] at hpred

/-- A word that is right modulo `m` and zero at the right time is the one that stands for `n`. -/
theorem eq_onesWord (ha : a ≤ m) (hmod : a ≡ n [MOD m]) (hzero : a = 0 ↔ n = 0) :
    a = onesWord m n := by
  unfold onesWord
  split_ifs with hn
  · exact hzero.mpr hn
  · have hpos : 0 < a := Nat.pos_of_ne_zero fun ha0 => hn (hzero.mp ha0)
    have hpred : a - 1 ≡ n - 1 [MOD m] := by
      apply Nat.ModEq.add_right_cancel' 1
      rwa [Nat.sub_add_cancel hpos, Nat.sub_add_cancel (Nat.pos_of_ne_zero hn)]
    have hmod : (a - 1) % m = (n - 1) % m := hpred
    rw [← hmod, Nat.mod_eq_of_lt (by omega)]
    omega

theorem onesWord_of_le (h : n ≤ m) : onesWord m n = n :=
  (eq_onesWord h rfl Iff.rfl).symm

theorem onesWord_congr (hmod : a ≡ b [MOD m]) (hzero : a = 0 ↔ b = 0) (hm : 0 < m) :
    onesWord m a = onesWord m b :=
  eq_onesWord (onesWord_le hm) (onesWord_modEq.trans hmod) (onesWord_eq_zero_iff.trans hzero)

/-- One more word. -/
theorem endAround_onesWord (hm : 0 < m) (hb : b ≤ m) :
    endAround m (onesWord m n) b = onesWord m (n + b) := by
  have hle := onesWord_le (n := n) hm
  have hmod : onesWord m n + b ≡ n + b [MOD m] := onesWord_modEq.add_right b
  have hzero := onesWord_eq_zero_iff (m := m) (n := n)
  unfold endAround
  split_ifs with hfits
  · exact eq_onesWord hfits hmod (by omega)
  · refine eq_onesWord (by omega) ?_ (by omega)
    have hcarry : onesWord m n + b - m + m = onesWord m n + b := by omega
    rw [← hcarry] at hmod
    exact (Nat.modEq_iff_dvd' (by omega)).mpr (by simp) |>.trans hmod

theorem foldl_endAround (hm : 0 < m) (hws : ∀ w ∈ ws, w ≤ m) :
    ws.foldl (endAround m) (onesWord m n) = onesWord m (n + ws.sum) := by
  induction ws generalizing n with
  | nil => rfl
  | cons w ws ih =>
    rw [List.foldl_cons, endAround_onesWord hm (hws w List.mem_cons_self),
      ih (fun v hv => hws v (List.mem_cons_of_mem w hv)), List.sum_cons, Nat.add_assoc]

/-- The sum with carries stands for the plain sum. -/
theorem onesSum_eq (hm : 0 < m) (hws : ∀ w ∈ ws, w ≤ m) : onesSum m ws = onesWord m ws.sum := by
  have hsum := foldl_endAround (n := 0) hm hws
  rwa [Nat.zero_add] at hsum

/-- All ones stand for the multiples of `m` but zero. -/
theorem onesWord_eq_top_iff (hm : 0 < m) : onesWord m n = m ↔ 0 < n ∧ m ∣ n := by
  constructor
  · intro htop
    have hmod : onesWord m n ≡ n [MOD m] := onesWord_modEq
    rw [htop] at hmod
    refine ⟨Nat.pos_of_ne_zero fun hn => ?_, ?_⟩
    · have hzero := (onesWord_eq_zero_iff (m := m)).mpr hn
      omega
    · exact (Nat.modEq_zero_iff_dvd).mp (hmod.symm.trans (by simp [Nat.ModEq]))
  · rintro ⟨hpos, hdvd⟩
    refine (eq_onesWord (Nat.le_refl m) ?_ (by omega)).symm
    exact (Nat.modEq_zero_iff_dvd.mpr (Nat.dvd_refl m)).trans (Nat.modEq_zero_iff_dvd.mpr hdvd).symm

/-- A sum with the complement of what stands for it is all ones. -/
theorem onesWord_add_complement (hm : 0 < m) : onesWord m (n + (m - onesWord m n)) = m := by
  have hle := onesWord_le (n := n) hm
  have hzero := onesWord_eq_zero_iff (m := m) (n := n)
  rw [onesWord_eq_top_iff hm]
  refine ⟨by omega, ?_⟩
  have hmod : n + (m - onesWord m n) ≡ onesWord m n + (m - onesWord m n) [MOD m] :=
    onesWord_modEq.symm.add_right _
  rw [Nat.add_sub_cancel' hle] at hmod
  exact Nat.modEq_zero_iff_dvd.mp (hmod.trans (by simp [Nat.ModEq]))

/-- A complement of a longer sum fits when the rest counts nothing, and leaves something to count. -/
theorem onesWord_add_complement_iff (hm : 0 < m) (n r : ℕ) :
    onesWord m (n + (m - onesWord m (n + r))) = m ↔ m ∣ r ∧ (r = 0 ∨ n ≠ 0) := by
  have hle := onesWord_le (n := n + r) hm
  have hmod : n + (m - onesWord m (n + r)) + r ≡ 0 [MOD m] := by
    have hword : onesWord m (n + r) + (m - onesWord m (n + r)) ≡
        n + r + (m - onesWord m (n + r)) [MOD m] := onesWord_modEq.add_right _
    rw [Nat.add_sub_cancel' hle] at hword
    rw [Nat.add_right_comm]
    exact hword.symm.trans (by simp [Nat.ModEq])
  have hsum := Nat.modEq_zero_iff_dvd.mp hmod
  have hdvd : m ∣ n + (m - onesWord m (n + r)) ↔ m ∣ r :=
    ⟨fun h => (Nat.dvd_add_right h).mp hsum, fun h => (Nat.dvd_add_left h).mp hsum⟩
  rw [onesWord_eq_top_iff hm, hdvd, and_comm]
  refine and_congr_right fun hr => ?_
  rw [← not_iff_not]
  have htop := onesWord_eq_top_iff (n := n + r) hm
  constructor
  · intro hzero
    have hn : n = 0 := by omega
    subst hn
    have hword : onesWord m (0 + r) = m := by omega
    have hpos := (htop.mp hword).1
    omega
  · intro hnot
    obtain ⟨hrne, hn⟩ : r ≠ 0 ∧ n = 0 := by simpa using hnot
    subst hn
    simp only [Nat.zero_add] at htop ⊢
    have hword := htop.mpr ⟨Nat.pos_of_ne_zero hrne, hr⟩
    omega

/-! ## Folding -/

/-- The carries of a sum come back at the low end. -/
def fold (m n : ℕ) : ℕ := n / (m + 1) + n % (m + 1)

theorem onesWord_fold (hm : 0 < m) : onesWord m (fold m n) = onesWord m n := by
  have hdiv := Nat.div_add_mod n (m + 1)
  have hsplit : fold m n + m * (n / (m + 1)) = n := by
    unfold fold
    calc n / (m + 1) + n % (m + 1) + m * (n / (m + 1))
        = (m + 1) * (n / (m + 1)) + n % (m + 1) := by ring
      _ = n := hdiv
  refine onesWord_congr ?_ ?_ hm
  · have hmod : fold m n + m * (n / (m + 1)) ≡ fold m n [MOD m] := by simp [Nat.ModEq]
    rw [hsplit] at hmod
    exact hmod.symm
  · constructor
    · intro hzero
      obtain ⟨hq, hr⟩ := Nat.add_eq_zero_iff.mp hzero
      rw [← hdiv, hq, hr]
      rfl
    · rintro rfl
      simp [fold]

/-- Two foldings and a cut take a sum to its word, if the carries are words. -/
theorem fold_fold_mod (hm : 0 < m) (hn : n / (m + 1) ≤ m) :
    (fold m n + fold m n / (m + 1)) % (m + 1) = onesWord m n := by
  have hr : n % (m + 1) < m + 1 := Nat.mod_lt n (by omega)
  have hle : fold m n ≤ m + m := Nat.add_le_add hn (Nat.lt_succ_iff.mp hr)
  rw [← onesWord_fold hm]
  generalize fold m n = s at hle ⊢
  by_cases hs : s ≤ m
  · rw [Nat.div_eq_of_lt (by omega), Nat.add_zero, Nat.mod_eq_of_lt (by omega), onesWord_of_le hs]
  · have hone : s / (m + 1) = 1 := Nat.div_eq_of_lt_le (by omega) (by omega)
    rw [hone, Nat.mod_eq_sub_mod (by omega), Nat.mod_eq_of_lt (by omega)]
    refine eq_onesWord (by omega) ?_ (by omega)
    have hcarry : s + 1 - (m + 1) + m = s := by omega
    have hmod : s + 1 - (m + 1) + m ≡ s + 1 - (m + 1) [MOD m] := by simp [Nat.ModEq]
    rw [hcarry] at hmod
    exact hmod.symm

/-! ## Words of two bytes -/

/-- Which byte of a word the memory has first. -/
inductive ByteOrder where
  | little
  | big
  deriving DecidableEq

/-- The word that two bytes of the memory make. -/
def ByteOrder.word : ByteOrder → UInt8 → UInt8 → ℕ
  | .little, a, b => a.toNat + 256 * b.toNat
  | .big, a, b => 256 * a.toNat + b.toNat

/-- The two bytes that the memory has for a word. -/
def ByteOrder.bytes (order : ByteOrder) (w : UInt16) : UInt8 × UInt8 :=
  match order with
  | .little => (UInt8.ofNat (w.toNat % 256), UInt8.ofNat (w.toNat / 256))
  | .big => (UInt8.ofNat (w.toNat / 256), UInt8.ofNat (w.toNat % 256))

/-- The words of some bytes; a last odd byte is followed by a zero. -/
def words (order : ByteOrder) : List UInt8 → List ℕ
  | [] => []
  | [a] => [order.word a 0]
  | a :: b :: rest => order.word a b :: words order rest

/-- The largest word. -/
def allOnes : ℕ := 65535

variable {order : ByteOrder} {bs front back : List UInt8}

theorem ByteOrder.word_le (order : ByteOrder) (a b : UInt8) : order.word a b ≤ allOnes := by
  have ha := a.toNat_lt
  have hb := b.toNat_lt
  cases order <;> simp only [ByteOrder.word, allOnes] <;> omega

theorem ByteOrder.word_split (order : ByteOrder) (a b : UInt8) :
    order.word a b = order.word a 0 + order.word 0 b := by
  cases order <;> simp [ByteOrder.word]

theorem ByteOrder.word_eq_zero_iff (order : ByteOrder) (a b : UInt8) :
    order.word a b = 0 ↔ a = 0 ∧ b = 0 := by
  rw [← UInt8.toNat_inj, ← UInt8.toNat_inj (b := (0 : UInt8))]
  cases order <;> simp [ByteOrder.word]

theorem ByteOrder.word_bytes (order : ByteOrder) (w : UInt16) :
    order.word (order.bytes w).1 (order.bytes w).2 = w.toNat := by
  have hw := w.toNat_lt
  cases order <;> simp only [ByteOrder.bytes, ByteOrder.word, UInt8.toNat_ofNat'] <;> omega

/-- The other order of the two bytes is a factor of 256. -/
theorem ByteOrder.word_modEq (order : ByteOrder) (a b : UInt8) :
    order.word a b ≡ (if order = .big then 1 else 256) * ByteOrder.big.word a b [MOD allOnes] := by
  cases order with
  | big => simp [Nat.ModEq]
  | little =>
    simp only [ByteOrder.word, allOnes, Nat.ModEq, reduceCtorEq, if_false]
    omega

@[simp] theorem words_nil : words order [] = [] := rfl

@[simp] theorem words_singleton (a : UInt8) : words order [a] = [order.word a 0] := rfl

@[simp] theorem words_cons_cons (a b : UInt8) (rest : List UInt8) :
    words order (a :: b :: rest) = order.word a b :: words order rest := rfl

theorem words_le : ∀ w ∈ words order bs, w ≤ allOnes := by
  induction bs using words.induct with
  | case1 => simp
  | case2 a =>
    intro w hw
    rw [List.mem_singleton.mp hw]
    exact order.word_le a 0
  | case3 a b rest ih =>
    intro w hw
    rcases List.mem_cons.mp hw with rfl | hw
    · exact order.word_le a b
    · exact ih w hw

/-- Bytes that follow an odd number of bytes begin with the second byte of a word. -/
theorem sum_words_append : (words order (front ++ back)).sum =
    (words order front).sum +
      (words order (if front.length % 2 = 0 then back else 0 :: back)).sum := by
  induction front using words.induct with
  | case1 => simp
  | case2 a =>
    cases back with
    | nil => simp [(order.word_eq_zero_iff 0 0).mpr ⟨rfl, rfl⟩]
    | cons b rest =>
      simp only [List.cons_append, List.nil_append, words_cons_cons, words_singleton, List.sum_cons,
        List.length_singleton, List.sum_nil, order.word_split a b]
      simp only [Nat.one_mod, one_ne_zero, if_false, words_cons_cons, List.sum_cons]
      omega
  | case3 a b rest ih =>
    have hlength : (a :: b :: rest).length % 2 = rest.length % 2 := by
      rw [List.length_cons, List.length_cons]
      omega
    rw [hlength, List.cons_append, List.cons_append, words_cons_cons, List.sum_cons, ih,
      words_cons_cons, List.sum_cons, Nat.add_assoc]

theorem sum_words_append_even (heven : front.length % 2 = 0) :
    (words order (front ++ back)).sum = (words order front).sum + (words order back).sum := by
  rw [sum_words_append, if_pos heven]

theorem sum_words_eq_zero_iff : (words order bs).sum = 0 ↔ ∀ b ∈ bs, b = 0 := by
  induction bs using words.induct with
  | case1 => simp
  | case2 a => simp [order.word_eq_zero_iff]
  | case3 a b rest ih =>
    rw [words_cons_cons, List.sum_cons, Nat.add_eq_zero_iff, ih, order.word_eq_zero_iff]
    simp [and_assoc]

theorem sum_words_modEq (order : ByteOrder) (bs : List UInt8) :
    (words order bs).sum ≡
      (if order = .big then 1 else 256) * (words .big bs).sum [MOD allOnes] := by
  induction bs using words.induct with
  | case1 => simp [Nat.ModEq]
  | case2 a =>
    simp only [words_singleton, List.sum_cons, List.sum_nil, Nat.add_zero]
    exact order.word_modEq a 0
  | case3 a b rest ih =>
    rw [words_cons_cons, words_cons_cons, List.sum_cons, List.sum_cons, Nat.mul_add]
    exact (order.word_modEq a b).add ih

/-- The sum of the words is all ones, as it is where a checksum is right. -/
def Verifies (order : ByteOrder) (bs : List UInt8) : Prop :=
  onesSum allOnes (words order bs) = allOnes

instance decidableVerifies (order : ByteOrder) (bs : List UInt8) : Decidable (Verifies order bs) :=
  inferInstanceAs (Decidable (_ = _))

theorem verifies_iff :
    Verifies order bs ↔ 0 < (words order bs).sum ∧ allOnes ∣ (words order bs).sum := by
  unfold Verifies
  rw [onesSum_eq (by decide) words_le, onesWord_eq_top_iff (by decide)]

theorem Verifies.congr {bs' : List UInt8} (h : Verifies order bs)
    (hsum : (words order bs').sum = (words order bs).sum) : Verifies order bs' := by
  rw [verifies_iff] at h ⊢
  rwa [hsum]

/-- Machines of both byte orders agree on a checksum. -/
theorem dvd_sum_words_iff (order : ByteOrder) :
    allOnes ∣ (words order bs).sum ↔ allOnes ∣ (words .big bs).sum := by
  have hmod := sum_words_modEq order bs
  rw [hmod.dvd_iff (Nat.dvd_refl allOnes)]
  have hcoprime : Nat.Coprime allOnes (if order = .big then 1 else 256) := by
    cases order <;> decide
  exact hcoprime.dvd_mul_left

theorem verifies_order (order order' : ByteOrder) : Verifies order bs ↔ Verifies order' bs := by
  rw [verifies_iff, verifies_iff, Nat.pos_iff_ne_zero, Nat.pos_iff_ne_zero, ne_eq, ne_eq,
    sum_words_eq_zero_iff, sum_words_eq_zero_iff, dvd_sum_words_iff order,
    dvd_sum_words_iff order']

end CServer.OnesComplement
