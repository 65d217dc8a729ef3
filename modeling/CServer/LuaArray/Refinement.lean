import CServer.Foundation.Replies
import CServer.LuaArray.BitArray

/-!
# Bit arrays and Boolean arrays

An array of bits is an array of Booleans as long as the numbers are ones that an `int` has. The casts
come before the checks: a size may lose its high bits, and an index far outside may be taken for one
inside.
-/
namespace CServer.LuaArray

/-- The entries that an array of size `n` is meant to have after an access. -/
def refStep (n : ℤ) (entries : ℤ → Bool) : Access → ℤ → Bool
  | .write i v =>
    if 1 ≤ i.toInt ∧ i.toInt ≤ n then Function.update entries i.toInt v else entries
  | .read _ => entries

/-- What an access is meant to give back. -/
def refReply (n : ℤ) (entries : ℤ → Bool) : Access → Reply
  | .write i _ => if 1 ≤ i.toInt ∧ i.toInt ≤ n then .nothing else outOfRange
  | .read i => if 1 ≤ i.toInt ∧ i.toInt ≤ n then .boolean (entries i.toInt) else outOfRange

/-- The array has `n` entries, in words of its own. -/
structure Holds (n : ℤ) (a : BitArray) (entries : ℤ → Bool) : Prop where
  size : a.size = n
  bound : n < 2 ^ 31
  room : ∀ k : ℕ, (k : ℤ) < n → a.Inside (k / BITS_PER_WORD)
  bits : ∀ k : ℕ, (k : ℤ) < n →
    (a.values (k / BITS_PER_WORD)).getLsbD (k % BITS_PER_WORD) = entries (k + 1)

/-- `array.new` raises an error, or gives `n` entries that are all false and then behave as those of
an array of Booleans. -/
def Refines (memory : ℕ → Option (ℕ → BitVec 32)) (n : Int64) (accesses : List Access) : Prop :=
  (∃ reply, newArray memory n = .ok (.error reply)) ∨
    ∃ a, newArray memory n = .ok (.ok a) ∧ Holds n.toInt a (fun _ => false) ∧
      replies perform a accesses =
        .ok (meant (refStep n.toInt) (refReply n.toInt) (fun _ => false) accesses)

/-- An index that is taken for one inside is the one that it is taken for. -/
def Access.Fits (n : ℤ) (access : Access) : Prop :=
  1 ≤ toInt access.index → toInt access.index ≤ n → toInt access.index = access.index

variable {a : BitArray} {n : ℤ} {entries : ℤ → Bool} {access : Access}
  {memory : ℕ → Option (ℕ → BitVec 32)}

/-! ## A new array -/

theorem zeroLoop_eq {turns i : ℕ} (hinside : ∀ w, w < i + turns → a.Inside w) :
    zeroLoop turns i a =
      .ok { a with values := fun w => if i ≤ w ∧ w < i + turns then 0 else a.values w } := by
  induction turns generalizing i a with
  | zero =>
    have hnone : ∀ w, ¬(i ≤ w ∧ w < i + 0) := by omega
    simp only [zeroLoop, if_neg (hnone _)]
  | succ turns ih =>
    have hrest : ∀ w, w < i + 1 + turns →
        ({ a with values := Function.update a.values i 0 } : BitArray).Inside w :=
      fun w hw => hinside w (by omega)
    rw [zeroLoop, BitArray.store, if_pos (hinside i (by omega)), ok_bind, ih hrest]
    simp only [Except.ok.injEq, BitArray.mk.injEq, true_and]
    funext w
    by_cases hwi : w = i
    · subst hwi
      simp
    · have hsame : (i + 1 ≤ w ∧ w < i + 1 + turns) ↔ i ≤ w ∧ w < i + (turns + 1) := by omega
      simp only [hsame, Function.update_of_ne hwi]

/-- A new array of a size that an `int` has. -/
theorem newArray_eq {m : Int64} {values : ℕ → BitVec 32} (hn : toInt m.toInt = n) (hpos : 1 ≤ n)
    (hmemory : memory (sizeFor n) = some values) :
    ∃ a, newArray memory m = .ok (.ok a) ∧ Holds n a (fun _ => false) := by
  have hbound : n < 2 ^ 31 := hn ▸ (toInt_bounds m.toInt).2
  have hword : iWord (n - 1) = (n - 1).toNat / BITS_PER_WORD := by
    rw [iWord, toUnsigned_of_bounds (by omega) (by omega)]
  have hroom : ∀ w, w < 0 + (iWord (n - 1) + 1) →
      (⟨n, sizeFor n, values⟩ : BitArray).Inside w := by
    intro w hw
    show 4 + 4 * w + 4 ≤ 8 + iWord (n - 1) * 4
    omega
  have hlast : ∀ k : ℕ, (k : ℤ) < n → k / BITS_PER_WORD < 0 + (iWord (n - 1) + 1) := by
    intro k hk
    have hdiv : k / BITS_PER_WORD ≤ (n - 1).toNat / BITS_PER_WORD :=
      Nat.div_le_div_right (by omega)
    omega
  refine ⟨⟨n, sizeFor n, fun w => if 0 ≤ w ∧ w < 0 + (iWord (n - 1) + 1) then 0 else values w⟩, ?_,
    rfl, hbound, fun k hk => hroom _ (hlast k hk), fun k hk => ?_⟩
  · simp only [newArray, hn, if_pos hpos, hmemory, zeroLoop_eq hroom, ok_bind]
  · show (if 0 ≤ k / BITS_PER_WORD ∧ _ then 0 else _ : BitVec 32).getLsbD _ = false
    rw [if_pos ⟨Nat.zero_le _, hlast k hk⟩]
    exact BitVec.getLsbD_zero

/-! ## Accesses -/

theorem Holds.getparams_eq (h : Holds n a entries) (i : Int64) :
    getparams a i = if 1 ≤ toInt i.toInt ∧ toInt i.toInt ≤ n then
      .ok ((toInt i.toInt - 1).toNat / BITS_PER_WORD,
        1#32 <<< ((toInt i.toInt - 1).toNat % BITS_PER_WORD))
      else .error outOfRange := by
  have hbound := h.bound
  have hsize := h.size
  obtain ⟨hlow, hhigh⟩ := toInt_bounds i.toInt
  unfold getparams
  generalize toInt i.toInt = j at hlow hhigh ⊢
  by_cases hleast : j = -2 ^ 31
  · -- the subtraction goes around
    subst hleast
    have haround : toInt (-2 ^ 31 - 1) = 2 ^ 31 - 1 := by decide
    rw [haround, hsize, if_neg (by omega), if_neg (by omega)]
  · have hindex : toInt (j - 1) = j - 1 := toInt_of_bounds (by omega) (by omega)
    rw [hindex, hsize]
    by_cases hin : 1 ≤ j ∧ j ≤ n
    · have hunsigned : toUnsigned (j - 1) = (j - 1).toNat :=
        toUnsigned_of_bounds (by omega) (by omega)
      have hrange : 0 ≤ j - 1 ∧ j - 1 < n := by omega
      rw [if_pos hrange, if_pos hin, iWord, iBit, hunsigned]
    · have hrange : ¬(0 ≤ j - 1 ∧ j - 1 < n) := by omega
      rw [if_neg hrange, if_neg hin]

/-- An access outside of the range is refused. -/
theorem Holds.perform_out (h : Holds n a entries)
    (hout : ¬(1 ≤ toInt access.index ∧ toInt access.index ≤ n)) :
    perform a access = .ok (a, outOfRange) := by
  cases access with
  | write i v =>
    change ¬(1 ≤ toInt i.toInt ∧ toInt i.toInt ≤ n) at hout
    show LuaArray.setarray a i v = _
    unfold LuaArray.setarray
    rw [h.getparams_eq, if_neg hout]
  | read i =>
    change ¬(1 ≤ toInt i.toInt ∧ toInt i.toInt ≤ n) at hout
    show LuaArray.getarray a i = _
    unfold LuaArray.getarray
    rw [h.getparams_eq, if_neg hout]

theorem Holds.getparams_of_eq (h : Holds n a entries) {i : Int64} {k : ℕ}
    (hk : toInt i.toInt = k + 1) (hkn : (k : ℤ) < n) :
    getparams a i = .ok (k / BITS_PER_WORD, 1#32 <<< (k % BITS_PER_WORD)) := by
  have hin : 1 ≤ (k : ℤ) + 1 ∧ (k : ℤ) + 1 ≤ n := by omega
  have hindex : ((k : ℤ) + 1 - 1).toNat = k := by omega
  rw [h.getparams_eq, hk, if_pos hin, hindex]

/-- A bit that is written is its entry, and no other one. -/
theorem Holds.store (h : Holds n a entries) {k : ℕ} (v : Bool) {word : BitVec 32}
    (hword : ∀ l, word.getLsbD l = if k % BITS_PER_WORD = l then v
      else (a.values (k / BITS_PER_WORD)).getLsbD l) :
    Holds n { a with values := Function.update a.values (k / BITS_PER_WORD) word }
      (Function.update entries (k + 1) v) where
  size := h.size
  bound := h.bound
  room := h.room
  bits := by
    intro l hl
    have hold := h.bits l hl
    by_cases hlk : l = k
    · subst hlk
      simp [hword]
    · have hne : (l : ℤ) + 1 ≠ k + 1 := by omega
      rw [Function.update_of_ne hne, ← hold]
      by_cases hdiv : l / BITS_PER_WORD = k / BITS_PER_WORD
      · have hmod : ¬k % BITS_PER_WORD = l % BITS_PER_WORD := by
          have hl := Nat.div_add_mod l BITS_PER_WORD
          have hk := Nat.div_add_mod k BITS_PER_WORD
          rw [hdiv] at hl
          omega
        simp [hdiv, hword, hmod]
      · simp [Function.update_of_ne hdiv]

theorem Holds.setarray (h : Holds n a entries) {i : Int64} {k : ℕ} (hk : toInt i.toInt = k + 1)
    (hkn : (k : ℤ) < n) (v : Bool) : ∃ a', setarray a i v = .ok (a', .nothing) ∧
      Holds n a' (Function.update entries (k + 1) v) := by
  have hroom := h.room k hkn
  have hmod : k % BITS_PER_WORD < 32 := Nat.mod_lt k (by decide)
  refine ⟨_, ?_, h.store v (getLsbD_set (a.values (k / BITS_PER_WORD)) hmod v)⟩
  unfold LuaArray.setarray
  rw [h.getparams_of_eq hk hkn]
  simp only [BitArray.load, if_pos hroom, ok_bind, BitArray.store]

theorem Holds.getarray (h : Holds n a entries) {i : Int64} {k : ℕ} (hk : toInt i.toInt = k + 1)
    (hkn : (k : ℤ) < n) : getarray a i = .ok (a, .boolean (entries (k + 1))) := by
  have hroom := h.room k hkn
  have hmod : k % BITS_PER_WORD < 32 := Nat.mod_lt k (by decide)
  unfold LuaArray.getarray
  rw [h.getparams_of_eq hk hkn]
  simp only [BitArray.load, if_pos hroom, ok_bind, and_mask _ hmod, h.bits k hkn]

/-! ## Runs -/

theorem eq_of_bounds {i : ℤ} (hbound : n < 2 ^ 31) (hlow : 1 ≤ i) (hhigh : i ≤ n) : toInt i = i :=
  toInt_of_bounds (by omega) (by omega)

theorem refReply_out (entries : ℤ → Bool) (hout : ¬(1 ≤ access.index ∧ access.index ≤ n)) :
    refReply n entries access = outOfRange ∧ refStep n entries access = entries := by
  cases access with
  | write i v => exact ⟨if_neg hout, if_neg hout⟩
  | read i => exact ⟨if_neg hout, rfl⟩

/-- An access in the range does what is meant for the index that it is taken for. -/
theorem Holds.perform_in (h : Holds n a entries) (hlow : 1 ≤ toInt access.index)
    (hhigh : toInt access.index ≤ n) : ∃ a' reply, perform a access = .ok (a', reply) ∧
      reply ≠ outOfRange ∧ (toInt access.index = access.index →
        reply = refReply n entries access ∧ Holds n a' (refStep n entries access)) := by
  obtain ⟨k, hk⟩ : ∃ k : ℕ, toInt access.index = k + 1 :=
    ⟨(toInt access.index - 1).toNat, by omega⟩
  have hkn : (k : ℤ) < n := by omega
  cases access with
  | write i v =>
    obtain ⟨a', hset, hholds⟩ := h.setarray hk hkn v
    refine ⟨a', .nothing, hset, by decide, fun hfits => ?_⟩
    have hindex : i.toInt = k + 1 := hfits.symm.trans hk
    have hin : 1 ≤ i.toInt ∧ i.toInt ≤ n := by omega
    rw [refReply, refStep, if_pos hin, if_pos hin, hindex]
    exact ⟨rfl, hholds⟩
  | read i =>
    refine ⟨a, .boolean (entries (k + 1)), h.getarray hk hkn, by simp [outOfRange], fun hfits => ?_⟩
    have hindex : i.toInt = k + 1 := hfits.symm.trans hk
    have hin : 1 ≤ i.toInt ∧ i.toInt ≤ n := by omega
    rw [refReply, if_pos hin, hindex]
    exact ⟨rfl, h⟩

/-- The replies are the ones that are meant exactly when no index is taken for another one. -/
theorem Holds.replies_iff (h : Holds n a entries) (accesses : List Access) :
    replies perform a accesses = .ok (meant (refStep n) (refReply n) entries accesses) ↔
      ∀ access ∈ accesses, access.Fits n := by
  have hkeeps : ∀ a entries access, Holds n a entries → Access.Fits n access →
      ∃ a', perform a access = .ok (a', refReply n entries access) ∧
        Holds n a' (refStep n entries access) := by
    intro a entries access h hfits
    by_cases hin : 1 ≤ toInt access.index ∧ toInt access.index ≤ n
    · obtain ⟨a', reply, hperform, -, hmeant⟩ := h.perform_in hin.1 hin.2
      obtain ⟨rfl, hholds⟩ := hmeant (hfits hin.1 hin.2)
      exact ⟨a', hperform, hholds⟩
    · have hout : ¬(1 ≤ access.index ∧ access.index ≤ n) := by
        rintro ⟨hlow, hhigh⟩
        rw [eq_of_bounds h.bound hlow hhigh] at hin
        exact hin ⟨hlow, hhigh⟩
      obtain ⟨hreply, hstep⟩ := refReply_out entries hout
      rw [hreply, hstep]
      exact ⟨a, h.perform_out hin, h⟩
  have hbreaks : ∀ a entries access, Holds n a entries → ¬Access.Fits n access →
      ∀ a', perform a access ≠ .ok (a', refReply n entries access) := by
    intro a entries access h hfits a' hperform
    simp only [Access.Fits, not_forall] at hfits
    obtain ⟨hlow, hhigh, hne⟩ := hfits
    have hout : ¬(1 ≤ access.index ∧ access.index ≤ n) :=
      fun hin => hne (eq_of_bounds h.bound hin.1 hin.2)
    obtain ⟨b, reply, hperform', hreply, -⟩ := h.perform_in hlow hhigh
    rw [hperform', (refReply_out entries hout).1] at hperform
    exact hreply (Prod.mk.inj (Except.ok.inj hperform)).2
  exact (replies_eq_iff hkeeps hbreaks h accesses).trans Runs.along_iff_forall

/-- An array of bits is an array of Booleans exactly when `array.new` raises an error, or its size is
one that an `int` has and no index is taken for another one. -/
theorem bitarray_refines_iff (memory : ℕ → Option (ℕ → BitVec 32)) (n : Int64)
    (accesses : List Access) : Refines memory n accesses ↔
      toInt n.toInt < 1 ∨ memory (sizeFor (toInt n.toInt)) = none ∨
        toInt n.toInt = n.toInt ∧ ∀ access ∈ accesses, access.Fits n.toInt := by
  by_cases hpos : 1 ≤ toInt n.toInt
  · cases hmemory : memory (sizeFor (toInt n.toInt)) with
    | none =>
      refine iff_of_true (Or.inl ⟨.memoryError, ?_⟩) (Or.inr (Or.inl rfl))
      simp only [newArray, ge_iff_le, if_pos hpos, hmemory]
    | some values =>
      obtain ⟨a, hnew, hholds⟩ := newArray_eq rfl hpos hmemory
      constructor
      · rintro (⟨reply, herror⟩ | ⟨a', hnew', hmeant, hreplies⟩)
        · exact absurd (Except.ok.inj (hnew.symm.trans herror)) (by simp)
        · obtain rfl := Except.ok.inj (Except.ok.inj (hnew.symm.trans hnew'))
          have hsize : toInt n.toInt = n.toInt := hholds.size.symm.trans hmeant.size
          exact Or.inr (Or.inr ⟨hsize, (hmeant.replies_iff accesses).mp hreplies⟩)
      · rintro (hsmall | hnone | ⟨hsize, hfits⟩)
        · omega
        · exact absurd hnone (by simp)
        · rw [hsize] at hholds
          exact Or.inr ⟨a, hnew, hholds, (hholds.replies_iff accesses).mpr hfits⟩
  · refine iff_of_true (Or.inl ⟨.argError 1 "invalid size", ?_⟩) (Or.inl (by omega))
    simp only [newArray, ge_iff_le, if_neg hpos]

/-- An array of 33 entries: the last one is in a word of its own. -/
theorem bitarray_refines_two_words : Refines (fun _ => some fun _ => 7) 33
    [.write 33 true, .read 33, .read 1, .write 34 true] := by
  rw [bitarray_refines_iff]
  refine Or.inr (Or.inr ⟨by decide, ?_⟩)
  simp only [List.mem_cons, List.not_mem_nil, or_false, forall_eq_or_imp, forall_eq]
  exact ⟨fun _ _ => by decide, fun _ _ => by decide, fun _ _ => by decide, fun _ _ => by decide⟩

/-- An index over 2³² is taken for the first one. -/
theorem index_narrowed : ¬Refines (fun _ => some fun _ => 7) 5 [.read (2 ^ 32 + 1)] := by
  rintro (⟨reply, herror⟩ | ⟨a, hnew, hmeant, hreplies⟩)
  · have hnewArray : ∃ a, newArray (fun _ => some fun _ => 7) 5 = .ok (.ok a) ∧
        Holds 5 a (fun _ => false) := newArray_eq rfl (by decide) rfl
    obtain ⟨a, hnew, -⟩ := hnewArray
    exact absurd (Except.ok.inj (hnew.symm.trans herror)) (by simp)
  · have hfits := (hmeant.replies_iff _).mp hreplies _ List.mem_cons_self
    exact absurd (hfits (by decide) (by decide)) (by decide)

end CServer.LuaArray
