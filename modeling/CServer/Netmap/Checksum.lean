import CServer.Foundation.OnesComplement
import Mathlib.Algebra.Order.BigOperators.Group.List

/-!
# The checksum of icmp_arp_udp_success.c

`in_cksum` adds up all words before it folds the carries. The byte order is that of the host. A sum
that an `int` does not hold is no result.
-/
namespace CServer.Netmap

open OnesComplement

/-- `sum += n`, for an `int`. -/
def addInt (sum n : ℕ) : Option ℕ := if sum + n < 2 ^ 31 then some (sum + n) else none

/-- The sum that `in_cksum` folds. -/
def cksumLoop (order : ByteOrder) : List UInt8 → ℕ → Option ℕ
  | [], sum => some sum
  | [a], sum => addInt sum (order.word a 0)
  | a :: b :: rest, sum => (addInt sum (order.word a b)).bind (cksumLoop order rest)

/-- `in_cksum` of the bytes from `addr` on, as many as `len`. -/
def inCksum (order : ByteOrder) (bytes : List UInt8) : Option UInt16 :=
  (cksumLoop order bytes 0).map fun sum =>
    let sum := (sum >>> 16) + (sum &&& 0xffff)
    let sum := sum + (sum >>> 16)
    ~~~UInt16.ofNat sum

/-- The complement of the one's complement sum of the words. -/
def rfc1071 (order : ByteOrder) (bytes : List UInt8) : ℕ :=
  allOnes - onesSum allOnes (words order bytes)

variable {order : ByteOrder} {bytes front back : List UInt8} {c : UInt16}

theorem cksumLoop_eq {sum : ℕ} (h : sum + (words order bytes).sum < 2 ^ 31) :
    cksumLoop order bytes sum = some (sum + (words order bytes).sum) := by
  induction bytes using words.induct generalizing sum with
  | case1 => rfl
  | case2 a =>
    rw [words, List.sum_singleton] at h ⊢
    exact if_pos h
  | case3 a b rest ih =>
    rw [words, List.sum_cons, ← Nat.add_assoc] at h ⊢
    rw [cksumLoop, addInt, if_pos (Nat.lt_of_le_of_lt (Nat.le_add_right _ _) h)]
    exact ih h

theorem length_words : (words order bytes).length = (bytes.length + 1) / 2 := by
  induction bytes using words.induct with
  | case1 => rfl
  | case2 a => simp [words]
  | case3 a b rest ih =>
    rw [words, List.length_cons, ih, List.length_cons, List.length_cons]
    omega

/-- The words of 65535 bytes have a sum that an `int` holds. -/
theorem sum_words_lt (order : ByteOrder) (h : bytes.length ≤ 65535) :
    (words order bytes).sum < 2 ^ 31 := by
  have hsum := List.sum_le_card_nsmul (words order bytes) allOnes words_le
  rw [length_words, nsmul_eq_mul, allOnes, Nat.cast_id] at hsum
  omega

theorem inCksum_eq (order : ByteOrder) (h : bytes.length ≤ 65535) :
    ∃ c, inCksum order bytes = some c ∧ c.toNat = allOnes - onesWord allOnes (words order bytes).sum := by
  have hlt := sum_words_lt order h
  generalize hn : (words order bytes).sum = n at hlt
  have hloop : cksumLoop order bytes 0 = some n := by
    rw [cksumLoop_eq (by omega), Nat.zero_add, hn]
  refine ⟨_, by rw [inCksum, hloop]; rfl, ?_⟩
  have hfold := fold_fold_mod (m := allOnes) (n := n) (by decide) (by rw [allOnes]; omega)
  have hand : n &&& 0xffff = n % (allOnes + 1) := Nat.and_two_pow_sub_one_eq_mod n 16
  have hsum : (n >>> 16) + (n &&& 0xffff) = fold allOnes n := by
    rw [hand, Nat.shiftRight_eq_div_pow]
    rfl
  simp only [hsum]
  rw [Nat.shiftRight_eq_div_pow, UInt16.toNat_not, UInt16.toNat_ofNat', ← hfold]
  rfl

theorem inCksum_rfc1071 (order : ByteOrder) (h : bytes.length ≤ 65535) :
    ∃ c, inCksum order bytes = some c ∧ c.toNat = rfc1071 order bytes := by
  obtain ⟨c, hc, hvalue⟩ := inCksum_eq order h
  refine ⟨c, hc, ?_⟩
  rw [rfc1071, onesSum_eq (by decide) words_le, hvalue]

/-- A word in the place of a zero word adds itself. -/
theorem sum_words_set (heven : front.length % 2 = 0) (c : UInt16) :
    (words order (front ++ (order.bytes c).1 :: (order.bytes c).2 :: back)).sum =
      (words order (front ++ 0 :: 0 :: back)).sum + c.toNat := by
  have hzero : order.word 0 0 = 0 := (order.word_eq_zero_iff 0 0).mpr ⟨rfl, rfl⟩
  rw [sum_words_append, sum_words_append, if_pos heven, if_pos heven, words, words, List.sum_cons,
    List.sum_cons, order.word_bytes, hzero]
  omega

/-- The sum of a message with its checksum is all ones. -/
theorem verifies_set (heven : front.length % 2 = 0)
    (hc : c.toNat = allOnes - onesWord allOnes (words order (front ++ 0 :: 0 :: back)).sum) :
    Verifies order (front ++ (order.bytes c).1 :: (order.bytes c).2 :: back) := by
  rw [verifies_iff, ← onesWord_eq_top_iff (by decide), sum_words_set heven, hc,
    onesWord_add_complement (by decide)]

theorem inCksum_of_verifies (h : bytes.length ≤ 65535) (hverifies : Verifies order bytes) :
    inCksum order bytes = some 0 := by
  obtain ⟨c, hc, hvalue⟩ := inCksum_eq order h
  rw [verifies_iff, ← onesWord_eq_top_iff (by decide)] at hverifies
  rw [hverifies, Nat.sub_self] at hvalue
  rw [hc, Option.some.injEq, ← UInt16.toNat_inj, hvalue]
  rfl

/-- `in_cksum` gives the checksum, and zero once that is in its place. -/
theorem inCksum_correct (order : ByteOrder) (bytes : List UInt8) (h : bytes.length ≤ 65535) :
    ∃ c, inCksum order bytes = some c ∧ c.toNat = rfc1071 order bytes ∧
      ∀ front back, bytes = front ++ 0 :: 0 :: back → front.length % 2 = 0 →
        inCksum order (front ++ (order.bytes c).1 :: (order.bytes c).2 :: back) = some 0 := by
  obtain ⟨c, hc, hvalue⟩ := inCksum_rfc1071 order h
  refine ⟨c, hc, hvalue, ?_⟩
  rintro front back rfl heven
  have hlength : (front ++ (order.bytes c).1 :: (order.bytes c).2 :: back).length ≤ 65535 := by
    simpa using h
  refine inCksum_of_verifies hlength (verifies_set heven ?_)
  rw [hvalue, rfc1071, onesSum_eq (by decide) words_le]

/-- An echo request of nine bytes. -/
theorem inCksum_correct_nine : ∃ c, inCksum .little [8, 0, 0, 0, 0, 1, 0, 2, 97] = some c ∧
    c.toNat = rfc1071 .little [8, 0, 0, 0, 0, 1, 0, 2, 97] ∧
      inCksum .little ([8, 0] ++ (ByteOrder.little.bytes c).1 :: (ByteOrder.little.bytes c).2 ::
        [0, 1, 0, 2, 97]) = some 0 := by
  obtain ⟨c, hc, hvalue, hzero⟩ :=
    inCksum_correct .little [8, 0, 0, 0, 0, 1, 0, 2, 97] (by decide)
  exact ⟨c, hc, hvalue, hzero [8, 0] [0, 1, 0, 2, 97] rfl rfl⟩

end CServer.Netmap
