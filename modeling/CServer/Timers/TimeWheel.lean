import CServer.Foundation.Fallible
import Mathlib.Algebra.BigOperators.Fin
import Mathlib.Algebra.Ring.Int.Defs
import Mathlib.Data.Fintype.BigOperators

/-!
# The time wheel of test.cc

A connection node sits in one slot for each of its timeouts and counts them. A shift of the wheel
visits the nodes of one slot; the visit that brings the count to zero deletes the node. A null
pointer is the node 0. The messages are left out.
-/
namespace CServer.Timers.Wheel

abbrev CTimerNode := ℕ

def null : CTimerNode := 0

/-- A deleted node is used, or an `int` overflows. -/
inductive Fault where
  | dangling
  | overflow

/-- The counts of the nodes that are allocated. -/
abbrev Refs := CTimerNode → Option ℤ

abbrev twSize : ℕ := 16

def expire : UInt64 := 10

def twMask : UInt64 := 15

theorem and_twMask_lt (tick : UInt64) : (tick &&& twMask).toNat < twSize := by
  rw [UInt64.toNat_and]
  exact Nat.lt_of_le_of_lt Nat.and_le_right (by decide)

/-- The slot for a tick, `tick & TW_MASK`. -/
def slotOf (tick : UInt64) : Fin twSize := ⟨(tick &&& twMask).toNat, and_twMask_lt tick⟩

structure TimeWheel where
  refs : Refs
  slots : Fin twSize → List CTimerNode
  iRealTick : UInt64

/-! ## Nodes -/

def readRef (refs : Refs) (p : CTimerNode) : Except Fault ℤ :=
  match refs p with
  | none => .error .dangling
  | some ref => .ok ref

/-- `ref` becomes a value of the type `int`. -/
def writeRef (refs : Refs) (p : CTimerNode) (ref : ℤ) : Except Fault Refs :=
  if -2 ^ 31 ≤ ref ∧ ref < 2 ^ 31 then .ok (Function.update refs p (some ref))
  else .error .overflow

def incrRef (refs : Refs) (p : CTimerNode) : Except Fault Refs := do
  let ref ← readRef refs p
  writeRef refs p (ref + 1)

def decrRef (refs : Refs) (p : CTimerNode) : Except Fault Refs := do
  let ref ← readRef refs p
  writeRef refs p (ref - 1)

/-- `Offline`. -/
def offline (refs : Refs) (p : CTimerNode) : Except Fault Refs := do
  let _ ← readRef refs p
  writeRef refs p 0

/-- `TryKill`: whether the node is to be deleted, and the counts. -/
def tryKill (refs : Refs) (p : CTimerNode) : Except Fault (Bool × Refs) := do
  let ref ← readRef refs p
  if ref = 0 then .ok (true, refs)
  else do
    let refs ← decrRef refs p
    let ref ← readRef refs p
    .ok (decide (ref = 0), refs)

/-! ## The wheel -/

/-- The node is counted once more and goes to the end of the list for a tick. -/
def addAt (tw : TimeWheel) (p : CTimerNode) (tick : UInt64) : Except Fault TimeWheel :=
  if p = null then .ok tw
  else do
    let refs ← incrRef tw.refs p
    .ok { tw with
      refs := refs
      slots := Function.update tw.slots (slotOf tick) (tw.slots (slotOf tick) ++ [p]) }

/-- `AddTimeout`. -/
def addTimeout (tw : TimeWheel) (p : CTimerNode) : Except Fault TimeWheel :=
  addAt tw p (tw.iRealTick + expire)

/-- `AddTimeoutDelay`. -/
def addTimeoutDelay (tw : TimeWheel) (p : CTimerNode) (delay : UInt64) : Except Fault TimeWheel :=
  addAt tw p (tw.iRealTick + expire + delay)

/-- The loop of `TimerShift`: the nodes it deletes, and the counts. -/
def shiftLoop : List CTimerNode → Refs → Except Fault (List CTimerNode × Refs)
  | [], refs => .ok ([], refs)
  | p :: rest, refs =>
    if p = null then shiftLoop rest refs
    else do
      let out ← tryKill refs p
      if out.1 then do
        let rest ← shiftLoop rest (Function.update out.2 p none)
        .ok (p :: rest.1, rest.2)
      else shiftLoop rest out.2

/-- `TimerShift`: the nodes it deletes, and the wheel. -/
def timerShift (tw : TimeWheel) : Except Fault (List CTimerNode × TimeWheel) := do
  let tick := tw.iRealTick
  let out ← shiftLoop (tw.slots (slotOf tick)) tw.refs
  .ok (out.1, ⟨out.2, Function.update tw.slots (slotOf tick) [], tick + 1⟩)

/-- Some shifts, one after the other. -/
def shifts : ℕ → TimeWheel → Except Fault (List CTimerNode × TimeWheel)
  | 0, tw => .ok ([], tw)
  | n + 1, tw => do
    let first ← timerShift tw
    let rest ← shifts n first.2
    .ok (first.1 ++ rest.1, rest.2)

/-! ## Counts and occurrences -/

/-- How often the node sits in the slots. -/
def occurrences (slots : Fin twSize → List CTimerNode) (p : CTimerNode) : ℕ :=
  ∑ i, (slots i).count p

theorem occurrences_update (slots : Fin twSize → List CTimerNode) (i : Fin twSize)
    (l : List CTimerNode) (p : CTimerNode) :
    occurrences (Function.update slots i l) p + (slots i).count p =
      occurrences slots p + l.count p := by
  have hothers : ∑ j ∈ Finset.univ.erase i, (Function.update slots i l j).count p =
      ∑ j ∈ Finset.univ.erase i, (slots j).count p := by
    apply Finset.sum_congr rfl
    intro j hj
    rw [Function.update_of_ne (Finset.ne_of_mem_erase hj)]
  have hnew := Finset.add_sum_erase Finset.univ
    (fun j => (Function.update slots i l j).count p) (Finset.mem_univ i)
  have hold := Finset.add_sum_erase Finset.univ (fun j => (slots j).count p) (Finset.mem_univ i)
  simp only [Function.update_self] at hnew
  rw [occurrences, occurrences, ← hnew, ← hold, hothers]
  omega

theorem occurrences_eq_zero {slots : Fin twSize → List CTimerNode} {p : CTimerNode} :
    occurrences slots p = 0 ↔ ∀ i, p ∉ slots i := by
  simp [occurrences, List.count_eq_zero]

/-- A live node counts its occurrences, or it is offline with the last one. -/
def Counted (refs : Refs) (occ : CTimerNode → ℕ) : Prop :=
  refs null = none ∧ ∀ p, (refs p = none → occ p = 0) ∧
    ∀ ref, refs p = some ref → ref < 2 ^ 31 ∧ (ref = occ p ∨ ref = 0 ∧ occ p = 1)

theorem Counted.update {refs : Refs} {occ occ' : CTimerNode → ℕ} {p : CTimerNode} {o : Option ℤ}
    (h : Counted refs occ) (hp : p ≠ null) (hother : ∀ q, q ≠ p → occ' q = occ q)
    (hnone : o = none → occ' p = 0)
    (hsome : ∀ ref, o = some ref → ref < 2 ^ 31 ∧ (ref = occ' p ∨ ref = 0 ∧ occ' p = 1)) :
    Counted (Function.update refs p o) occ' := by
  refine ⟨?_, ?_⟩
  · rw [Function.update_of_ne hp.symm, h.1]
  · intro q
    by_cases hq : q = p
    · rw [hq, Function.update_self]
      exact ⟨hnone, hsome⟩
    · rw [Function.update_of_ne hq, hother q hq]
      exact h.2 q

/-- The node at the front is visited: it loses an occurrence, and it is deleted with the last. -/
theorem tryKill_spec {refs : Refs} (occ : CTimerNode → ℕ) {p : CTimerNode}
    (h : Counted refs (fun q => if q = p then occ q + 1 else occ q)) :
    p ≠ null ∧ ∃ killed refs', tryKill refs p = .ok (killed, refs') ∧ (killed = true ↔ occ p = 0) ∧
      (∀ q, q ≠ p → refs' q = refs q) ∧
      Counted (if killed then Function.update refs' p none else refs') occ := by
  have hocc := h.2 p
  simp only [if_true] at hocc
  have hother : ∀ q, q ≠ p → occ q = if q = p then occ q + 1 else occ q :=
    fun q hq => (if_neg hq).symm
  cases hp : refs p with
  | none =>
    have hzero := hocc.1 hp
    omega
  | some ref =>
    have hnull : p ≠ null := by
      intro heq
      rw [heq, h.1] at hp
      exact absurd hp (by simp)
    refine ⟨hnull, ?_⟩
    have hread : readRef refs p = .ok ref := by rw [readRef, hp]
    by_cases hzero : ref = 0
    · have hlast : occ p = 0 := by
        have hcases := hocc.2 ref hp
        omega
      refine ⟨true, refs, ?_, by simp [hlast], fun q _ => rfl, ?_⟩
      · rw [tryKill, hread, ok_bind, if_pos hzero]
      · exact h.update hnull hother (fun _ => hlast) (fun _ h => absurd h (by simp))
    · have hcount : ref = occ p + 1 := by
        have hcases := hocc.2 ref hp
        omega
      have hlt := (hocc.2 ref hp).1
      have hrange : -2 ^ 31 ≤ ref - 1 ∧ ref - 1 < 2 ^ 31 := by omega
      have hdecr : decrRef refs p = .ok (Function.update refs p (some (ref - 1))) := by
        rw [decrRef, hread, ok_bind, writeRef, if_pos hrange]
      have hreread : readRef (Function.update refs p (some (ref - 1))) p = .ok (ref - 1) := by
        rw [readRef, Function.update_self]
      have hkill : ref - 1 = 0 ↔ occ p = 0 := by omega
      refine ⟨decide (ref - 1 = 0), Function.update refs p (some (ref - 1)), ?_, ?_, ?_, ?_⟩
      · rw [tryKill, hread, ok_bind, if_neg hzero, hdecr, ok_bind, hreread, ok_bind]
      · rw [decide_eq_true_iff, hkill]
      · exact fun q hq => Function.update_of_ne hq _ _
      · by_cases hlast : occ p = 0
        · rw [decide_eq_true (hkill.mpr hlast), if_pos rfl, Function.update_idem]
          exact h.update hnull hother (fun _ => hlast) (fun _ h => absurd h (by simp))
        · rw [decide_eq_false (fun h => hlast (hkill.mp h)), if_neg (by simp)]
          refine h.update hnull hother (fun h => absurd h (by simp)) ?_
          intro ref' href'
          obtain rfl := Option.some.inj href'
          exact ⟨by omega, .inl (by omega)⟩

theorem tryKill_none {refs refs' : Refs} {p q : CTimerNode} {killed : Bool}
    (h : tryKill refs p = .ok (killed, refs')) (hq : refs q = none) : refs' q = none := by
  by_cases hqp : q = p
  · rw [tryKill, readRef, ← hqp, hq, error_bind] at h
    exact absurd h (by simp)
  · rw [tryKill] at h
    obtain ⟨ref, hread, h⟩ := bind_eq_ok h
    by_cases hzero : ref = 0
    · rw [if_pos hzero] at h
      rw [← (Prod.mk.inj (Except.ok.inj h)).2, hq]
    · rw [if_neg hzero, decrRef, hread, ok_bind, writeRef] at h
      obtain ⟨refs₁, hwrite, h⟩ := bind_eq_ok h
      obtain ⟨ref', -, h⟩ := bind_eq_ok h
      rw [← (Prod.mk.inj (Except.ok.inj h)).2]
      split at hwrite
      · rw [← Except.ok.inj hwrite, Function.update_of_ne hqp, hq]
      · exact absurd hwrite (by simp)

/-- A deleted node stays deleted. -/
theorem shiftLoop_none {l deleted : List CTimerNode} {refs refs' : Refs} {q : CTimerNode}
    (h : shiftLoop l refs = .ok (deleted, refs')) (hq : refs q = none) : refs' q = none := by
  induction l generalizing refs deleted with
  | nil =>
    rw [← (Prod.mk.inj (Except.ok.inj h)).2, hq]
  | cons p l ih =>
    rw [shiftLoop] at h
    split at h
    · exact ih h hq
    · obtain ⟨out, htry, h⟩ := bind_eq_ok h
      have hout : out.2 q = none := tryKill_none htry hq
      split at h
      · obtain ⟨rest, hloop, h⟩ := bind_eq_ok h
        obtain rfl := (Prod.mk.inj (Except.ok.inj h)).2
        apply ih hloop
        by_cases hqp : q = p
        · rw [hqp, Function.update_self]
        · rw [Function.update_of_ne hqp, hout]
      · exact ih h hout

/-- The visits to the nodes of a slot delete the nodes that occur nowhere else, each once. -/
theorem shiftLoop_spec (l : List CTimerNode) {refs : Refs} {rest : CTimerNode → ℕ}
    (h : Counted refs (fun q => rest q + l.count q)) :
    ∃ deleted refs', shiftLoop l refs = .ok (deleted, refs') ∧ Counted refs' rest ∧
      deleted.Nodup ∧ (∀ p, p ∈ deleted ↔ p ∈ l ∧ rest p = 0) ∧ ∀ p ∈ deleted, refs' p = none := by
  induction l generalizing refs with
  | nil =>
    refine ⟨[], refs, rfl, h, List.nodup_nil, ?_, ?_⟩
    · exact fun p => iff_of_false List.not_mem_nil (fun hp => List.not_mem_nil hp.1)
    · exact fun p hp => absurd hp List.not_mem_nil
  | cons p l ih =>
    have hcount : (fun q => rest q + (p :: l).count q) =
        fun q => if q = p then rest q + l.count q + 1 else rest q + l.count q := by
      funext q
      by_cases hq : q = p
      · rw [if_pos hq, hq, List.count_cons_self, Nat.add_assoc]
      · rw [if_neg hq, List.count_cons_of_ne (Ne.symm hq)]
    rw [hcount] at h
    obtain ⟨hnull, killed, refs₁, htry, hkilled, -, hcounted⟩ :=
      tryKill_spec (fun q => rest q + l.count q) h
    have hzero : rest p + l.count p = 0 ↔ rest p = 0 ∧ p ∉ l := by
      rw [Nat.add_eq_zero_iff, List.count_eq_zero]
    rw [shiftLoop, if_neg hnull, htry, ok_bind]
    cases killed with
    | true =>
      obtain ⟨hrest, hnot⟩ := hzero.mp (hkilled.mp rfl)
      obtain ⟨deleted, refs', hloop, hcounted', hnodup, hmem, hgone⟩ := ih hcounted
      have hloop : shiftLoop l (Function.update refs₁ p none) = .ok (deleted, refs') := hloop
      have hpnot : p ∉ deleted := fun hp => hnot ((hmem p).mp hp).1
      refine ⟨p :: deleted, refs', ?_, hcounted', List.nodup_cons.mpr ⟨hpnot, hnodup⟩, ?_, ?_⟩
      · rw [if_pos rfl, hloop, ok_bind]
      · intro q
        rw [List.mem_cons, List.mem_cons, hmem]
        by_cases hq : q = p
        · simp [hq, hrest]
        · simp [hq]
      · intro q hq
        rw [List.mem_cons] at hq
        obtain rfl | hq := hq
        · exact shiftLoop_none hloop (Function.update_self q none refs₁)
        · exact hgone q hq
    | false =>
      obtain ⟨deleted, refs', hloop, hcounted', hnodup, hmem, hgone⟩ := ih hcounted
      have hloop : shiftLoop l refs₁ = .ok (deleted, refs') := hloop
      have hnot : ¬(rest p = 0 ∧ p ∉ l) := fun hp => absurd (hkilled.mpr (hzero.mpr hp)) (by simp)
      refine ⟨deleted, refs', ?_, hcounted', hnodup, ?_, hgone⟩
      · rw [if_neg (by simp), hloop]
      · intro q
        rw [hmem, List.mem_cons]
        by_cases hq : q = p
        · rw [hq]
          tauto
        · simp [hq]

/-! ## Shifts of the wheel -/

/-- The counts of a wheel agree with its slots. -/
def Consistent (tw : TimeWheel) : Prop := Counted tw.refs (occurrences tw.slots)

theorem Consistent.live {tw : TimeWheel} (h : Consistent tw) {i : Fin twSize} {p : CTimerNode}
    (hp : p ∈ tw.slots i) : tw.refs p ≠ none := by
  intro hnone
  exact occurrences_eq_zero.mp ((h.2 p).1 hnone) i hp

/-- A shift deletes the nodes of which it removes the last occurrence, each once. -/
theorem timerShift_spec {tw : TimeWheel} (h : Consistent tw) :
    ∃ deleted refs', timerShift tw = .ok (deleted,
        ⟨refs', Function.update tw.slots (slotOf tw.iRealTick) [], tw.iRealTick + 1⟩) ∧
      Consistent ⟨refs', Function.update tw.slots (slotOf tw.iRealTick) [], tw.iRealTick + 1⟩ ∧
      deleted.Nodup ∧ (∀ p ∈ deleted, refs' p = none) ∧
      ∀ p, p ∈ deleted ↔ p ∈ tw.slots (slotOf tw.iRealTick) ∧
        ∀ i, p ∉ Function.update tw.slots (slotOf tw.iRealTick) [] i := by
  have hsplit : occurrences tw.slots = fun p =>
      occurrences (Function.update tw.slots (slotOf tw.iRealTick) []) p +
        (tw.slots (slotOf tw.iRealTick)).count p := by
    funext p
    rw [occurrences_update, List.count_nil, Nat.add_zero]
  have hcounted := h
  rw [Consistent, hsplit] at hcounted
  obtain ⟨deleted, refs', hloop, hcounted', hnodup, hmem, hgone⟩ := shiftLoop_spec _ hcounted
  refine ⟨deleted, refs', ?_, hcounted', hnodup, hgone, ?_⟩
  · rw [timerShift, hloop, ok_bind]
  · intro p
    rw [hmem, occurrences_eq_zero]

theorem slotOf_add (tick : UInt64) (n : ℕ) :
    (slotOf (tick + UInt64.ofNat n)).val = (tick.toNat + n) % twSize := by
  show ((tick + UInt64.ofNat n) &&& 15).toNat = _
  rw [UInt64.toNat_and, UInt64.toNat_add, UInt64.toNat_ofNat']
  have hmask : (15 : UInt64).toNat = 2 ^ 4 - 1 := rfl
  rw [hmask, Nat.and_two_pow_sub_one_eq_mod, twSize]
  omega

theorem exists_slotOf (tick : UInt64) (i : Fin twSize) :
    ∃ n < twSize, slotOf (tick + UInt64.ofNat n) = i := by
  have hi : i.val < 16 := i.isLt
  refine ⟨(i.val + 16 - tick.toNat % 16) % 16, Nat.mod_lt _ (by decide), ?_⟩
  apply Fin.ext
  rw [slotOf_add]
  show (tick.toNat + (i.val + 16 - tick.toNat % 16) % 16) % 16 = i.val
  omega

/-- After `n` shifts the slots for the next `n` ticks are empty and the others as they were, and
the nodes that are in no slot any more have been deleted, each once. -/
theorem shifts_spec (n : ℕ) {tw : TimeWheel} (h : Consistent tw) :
    ∃ deleted tw', shifts n tw = .ok (deleted, tw') ∧ Consistent tw' ∧ deleted.Nodup ∧
      (∀ p, p ∈ deleted ↔ (∃ i, p ∈ tw.slots i) ∧ ∀ i, p ∉ tw'.slots i) ∧
      (∀ i, (∃ k < n, slotOf (tw.iRealTick + UInt64.ofNat k) = i) → tw'.slots i = []) ∧
      ∀ i p, p ∈ tw'.slots i → p ∈ tw.slots i := by
  induction n generalizing tw with
  | zero =>
    refine ⟨[], tw, rfl, h, List.nodup_nil, ?_, ?_, fun i p hp => hp⟩
    · intro p
      refine iff_of_false List.not_mem_nil ?_
      rintro ⟨⟨i, hi⟩, hnot⟩
      exact hnot i hi
    · rintro i ⟨k, hk, -⟩
      omega
  | succ n ih =>
    obtain ⟨first, refs₁, hshift, h₁, hnodup₁, hgone₁, hmem₁⟩ := timerShift_spec h
    obtain ⟨rest, tw', hshifts, h', hnodup', hmem', hempty', hsub'⟩ := ih h₁
    have hsub₁ : ∀ i p, p ∈ Function.update tw.slots (slotOf tw.iRealTick) [] i →
        p ∈ tw.slots i := by
      intro i p hp
      by_cases hi : i = slotOf tw.iRealTick
      · rw [hi, Function.update_self] at hp
        exact absurd hp List.not_mem_nil
      · rwa [Function.update_of_ne hi] at hp
    refine ⟨first ++ rest, tw', ?_, h', ?_, ?_, ?_, ?_⟩
    · rw [shifts, hshift, ok_bind]
      simp only
      rw [hshifts, ok_bind]
    · apply List.Nodup.append hnodup₁ hnodup'
      intro p hp hp'
      obtain ⟨i, hi⟩ := ((hmem' p).mp hp').1
      exact ((hmem₁ p).mp hp).2 i hi
    · intro p
      rw [List.mem_append, hmem₁, hmem']
      constructor
      · rintro (⟨hp, hnot⟩ | ⟨⟨i, hi⟩, hnot⟩)
        · exact ⟨⟨_, hp⟩, fun i hi => hnot i (hsub' i p hi)⟩
        · exact ⟨⟨i, hsub₁ i p hi⟩, hnot⟩
      · rintro ⟨⟨i, hi⟩, hnot⟩
        by_cases hlater : ∃ j, p ∈ Function.update tw.slots (slotOf tw.iRealTick) [] j
        · exact .inr ⟨hlater, hnot⟩
        · refine .inl ⟨?_, fun j hj => hlater ⟨j, hj⟩⟩
          by_contra hfirst
          have hne : i ≠ slotOf tw.iRealTick := fun heq => hfirst (heq ▸ hi)
          exact hlater ⟨i, by rw [Function.update_of_ne hne]; exact hi⟩
    · rintro i ⟨k, hk, rfl⟩
      cases k with
      | zero =>
        apply List.eq_nil_iff_forall_not_mem.mpr
        intro p hp
        have hold : p ∈ Function.update tw.slots (slotOf tw.iRealTick) []
            (slotOf (tw.iRealTick + UInt64.ofNat 0)) := hsub' _ p hp
        have hzero : tw.iRealTick + UInt64.ofNat 0 = tw.iRealTick := UInt64.add_zero _
        rw [hzero, Function.update_self] at hold
        exact List.not_mem_nil hold
      | succ k =>
        apply hempty'
        refine ⟨k, by omega, ?_⟩
        show slotOf (tw.iRealTick + 1 + UInt64.ofNat k) = _
        have hnext : tw.iRealTick + 1 + UInt64.ofNat k = tw.iRealTick + UInt64.ofNat (k + 1) := by
          rw [UInt64.ofNat_add, UInt64.add_assoc, UInt64.add_comm 1]
          rfl
        rw [hnext]
    · exact fun i p hp => hsub₁ i p (hsub' i p hp)

/-! ## Runs -/

/-- What a program does with the wheel; the pointers are to live nodes, or null. -/
inductive Call where
  | addTimeout (p : CTimerNode)
  | addTimeoutDelay (p : CTimerNode) (delay : UInt64)
  | offline (p : CTimerNode)
  | timerShift

def Call.exec (tw : TimeWheel) : Call → Except Fault TimeWheel
  | .addTimeout p => Wheel.addTimeout tw p
  | .addTimeoutDelay p delay => Wheel.addTimeoutDelay tw p delay
  | .offline p => do
    let refs ← Wheel.offline tw.refs p
    .ok { tw with refs := refs }
  | .timerShift => do
    let out ← Wheel.timerShift tw
    .ok out.2

/-- The nodes that a call is given are live. -/
def Call.Live (tw : TimeWheel) : Call → Prop
  | .addTimeout p => p = null ∨ tw.refs p ≠ none
  | .addTimeoutDelay p _ => p = null ∨ tw.refs p ≠ none
  | .offline p => tw.refs p ≠ none
  | .timerShift => True

/-- A node that gets another timeout is not offline in a slot, and has fewer timeouts than an
`int` counts; a node that goes offline has at most one timeout left. -/
def Call.Regular (tw : TimeWheel) : Call → Prop
  | .addTimeout p => p = null ∨ tw.refs p = some (occurrences tw.slots p : ℤ) ∧
      occurrences tw.slots p + 1 < 2 ^ 31
  | .addTimeoutDelay p _ => p = null ∨ tw.refs p = some (occurrences tw.slots p : ℤ) ∧
      occurrences tw.slots p + 1 < 2 ^ 31
  | .offline p => occurrences tw.slots p ≤ 1
  | .timerShift => True

/-- The wheels after some calls, each on live nodes and allowed where it is made. `new` gives a
node that is not in use. -/
inductive Reached (Allowed : TimeWheel → Call → Prop) : TimeWheel → Prop
  | start : Reached Allowed ⟨fun _ => none, fun _ => [], 0⟩
  | create {tw : TimeWheel} {p : CTimerNode} (before : Reached Allowed tw)
      (fresh : tw.refs p = none) (notNull : p ≠ null) :
      Reached Allowed { tw with refs := Function.update tw.refs p (some 0) }
  | call {tw tw' : TimeWheel} {c : Call} (before : Reached Allowed tw) (live : c.Live tw)
      (allowed : Allowed tw c) (returns : c.exec tw = .ok tw') : Reached Allowed tw'

theorem occurrences_push (slots : Fin twSize → List CTimerNode) (i : Fin twSize)
    (p q : CTimerNode) : occurrences (Function.update slots i (slots i ++ [p])) q =
      if q = p then occurrences slots q + 1 else occurrences slots q := by
  have hupdate := occurrences_update slots i (slots i ++ [p]) q
  rw [List.count_append] at hupdate
  by_cases hq : q = p
  · rw [if_pos hq]
    rw [hq, List.count_singleton_self] at hupdate
    rw [hq]
    omega
  · rw [if_neg hq]
    have hone : [p].count q = 0 := List.count_eq_zero.mpr (by simpa using hq)
    omega

/-- A further timeout of a node that counts its timeouts. -/
theorem addAt_spec {tw : TimeWheel} {p : CTimerNode} (tick : UInt64) (h : Consistent tw)
    (hp : p = null ∨ tw.refs p = some (occurrences tw.slots p : ℤ) ∧
      occurrences tw.slots p + 1 < 2 ^ 31) :
    ∃ tw', addAt tw p tick = .ok tw' ∧ Consistent tw' := by
  by_cases hnull : p = null
  · exact ⟨tw, if_pos hnull, h⟩
  · obtain ⟨href, hbound⟩ := hp.resolve_left hnull
    have hrange : -2 ^ 31 ≤ (occurrences tw.slots p : ℤ) + 1 ∧
        (occurrences tw.slots p : ℤ) + 1 < 2 ^ 31 := by omega
    have hincr : incrRef tw.refs p =
        .ok (Function.update tw.refs p (some ((occurrences tw.slots p : ℤ) + 1))) := by
      rw [incrRef, readRef, href, ok_bind, writeRef, if_pos hrange]
    refine ⟨⟨Function.update tw.refs p (some ((occurrences tw.slots p : ℤ) + 1)),
      Function.update tw.slots (slotOf tick) (tw.slots (slotOf tick) ++ [p]), tw.iRealTick⟩, ?_, ?_⟩
    · rw [addAt, if_neg hnull, hincr, ok_bind]
    · apply Counted.update h hnull
      · intro q hq
        rw [occurrences_push, if_neg hq]
      · exact fun habsurd => absurd habsurd (by simp)
      · intro ref href'
        obtain rfl := Option.some.inj href'
        rw [occurrences_push, if_pos rfl]
        exact ⟨by omega, .inl (by omega)⟩

theorem Consistent.call {tw : TimeWheel} {c : Call} (h : Consistent tw) (hlive : c.Live tw)
    (hregular : c.Regular tw) : ∃ tw', c.exec tw = .ok tw' ∧ Consistent tw' := by
  cases c with
  | addTimeout p => exact addAt_spec _ h hregular
  | addTimeoutDelay p delay => exact addAt_spec _ h hregular
  | offline p =>
    cases hp : tw.refs p with
    | none => exact absurd hp hlive
    | some ref =>
      have hnull : p ≠ null := by
        intro heq
        rw [heq, h.1] at hp
        exact absurd hp (by simp)
      have hone : occurrences tw.slots p ≤ 1 := hregular
      refine ⟨{ tw with refs := Function.update tw.refs p (some 0) }, ?_, ?_⟩
      · rw [Call.exec, offline, readRef, hp, ok_bind, writeRef, if_pos (by decide), ok_bind]
      · apply Counted.update h hnull (fun q _ => rfl)
        · exact fun habsurd => absurd habsurd (by simp)
        · intro ref' href'
          obtain rfl := Option.some.inj href'
          exact ⟨by decide, by omega⟩
  | timerShift =>
    obtain ⟨deleted, refs', hshift, hconsistent, -⟩ := timerShift_spec h
    refine ⟨_, ?_, hconsistent⟩
    rw [Call.exec, hshift, ok_bind]

theorem Reached.consistent {tw : TimeWheel} (h : Reached Call.Regular tw) : Consistent tw := by
  induction h with
  | start =>
    refine ⟨rfl, fun p => ⟨fun _ => occurrences_eq_zero.mpr fun i => List.not_mem_nil, ?_⟩⟩
    exact fun ref href => absurd href (by simp)
  | @create tw p before fresh notNull ih =>
    apply Counted.update ih notNull (fun q _ => rfl)
    · exact fun habsurd => absurd habsurd (by simp)
    · intro ref href
      obtain rfl := Option.some.inj href
      have hzero := (ih.2 p).1 fresh
      exact ⟨by decide, .inl (by rw [hzero]; rfl)⟩
  | call _ live allowed returns ih =>
    obtain ⟨tw', hexec, hconsistent⟩ := ih.call live allowed
    rw [hexec] at returns
    obtain rfl := Except.ok.inj returns
    exact hconsistent

/-- In a run whose calls are all regular a node in a slot has not been deleted, every further
regular call returns without touching a deleted node, a shift deletes exactly the nodes of which
it removes the last occurrence, each once and for good, and sixteen shifts delete each node that
is in the wheel exactly once. -/
theorem regular_reached_owned {tw : TimeWheel} (h : Reached Call.Regular tw) :
    (∀ i, ∀ p ∈ tw.slots i, tw.refs p ≠ none) ∧
      (∀ c : Call, c.Live tw → c.Regular tw → ∃ tw', c.exec tw = .ok tw') ∧
      (∃ deleted tw', timerShift tw = .ok (deleted, tw') ∧ deleted.Nodup ∧
        (∀ p ∈ deleted, tw'.refs p = none) ∧
        ∀ p, p ∈ deleted ↔ (∃ i, p ∈ tw.slots i) ∧ ∀ i, p ∉ tw'.slots i) ∧
      ∃ deleted tw', shifts twSize tw = .ok (deleted, tw') ∧ deleted.Nodup ∧
        ∀ p, p ∈ deleted ↔ ∃ i, p ∈ tw.slots i := by
  have hconsistent := h.consistent
  refine ⟨fun i p hp => hconsistent.live hp, ?_, ?_, ?_⟩
  · intro c hlive hregular
    obtain ⟨tw', hexec, -⟩ := hconsistent.call hlive hregular
    exact ⟨tw', hexec⟩
  · obtain ⟨deleted, refs', hshift, -, hnodup, hgone, hmem⟩ := timerShift_spec hconsistent
    refine ⟨deleted, _, hshift, hnodup, hgone, ?_⟩
    intro p
    rw [hmem]
    refine and_congr_left (fun hnot => ⟨fun hp => ⟨_, hp⟩, ?_⟩)
    rintro ⟨i, hi⟩
    by_contra hp
    have hne : i ≠ slotOf tw.iRealTick := fun heq => hp (heq ▸ hi)
    exact hnot i (by rw [Function.update_of_ne hne]; exact hi)
  · obtain ⟨deleted, tw', hshifts, -, hnodup, hmem, hempty, -⟩ := shifts_spec twSize hconsistent
    refine ⟨deleted, tw', hshifts, hnodup, ?_⟩
    intro p
    rw [hmem, and_iff_left]
    intro i hp
    rw [hempty i (exists_slotOf tw.iRealTick i)] at hp
    exact List.not_mem_nil hp

/-- The wheel after a node has been created. -/
def created : TimeWheel := ⟨Function.update (fun _ => none) 1 (some 0), fun _ => [], 0⟩

theorem regular_reached_owned_single :
    ∃ tw, Reached Call.Regular tw ∧ 1 ∈ tw.slots 10 ∧ tw.refs 1 ≠ none := by
  have hstart : Reached Call.Regular created := .create .start rfl (by decide)
  have hzero : occurrences created.slots 1 = 0 := occurrences_eq_zero.mpr fun i => List.not_mem_nil
  have hregular : (Call.addTimeout 1).Regular created := by
    refine .inr ⟨?_, ?_⟩
    · rw [hzero]
      rfl
    · rw [hzero]
      decide
  have hlive : (Call.addTimeout 1).Live created := Or.inr (by simp [created])
  obtain ⟨tw, hexec, -⟩ := hstart.consistent.call hlive hregular
  have hreached : Reached Call.Regular tw := .call hstart hlive hregular hexec
  have hslot : 1 ∈ tw.slots 10 := by
    obtain rfl := Except.ok.inj hexec
    decide
  exact ⟨tw, hreached, hslot, (regular_reached_owned hreached).1 10 1 hslot⟩

/-- A node gets two timeouts and goes offline; the first of the two shifts deletes it, and it is
still in the slot of the second. -/
theorem offline_twice_dangling :
    ∃ tw i p, Reached (fun _ _ => True) tw ∧ p ∈ tw.slots i ∧ tw.refs p = none := by
  have hlive : created.refs 1 ≠ none := by simp [created]
  have h0 : Reached (fun _ _ => True) created := .create .start rfl (by decide)
  have h1 := h0.call (c := .addTimeoutDelay 1 6) (Or.inr hlive) trivial rfl
  have h2 := h1.call (c := .addTimeoutDelay 1 7) (Or.inr (by simp)) trivial rfl
  have h3 := h2.call (c := .offline 1) (by simp [Call.Live]) trivial rfl
  have h4 := h3.call (c := .timerShift) trivial trivial rfl
  exact ⟨_, 1, 1, h4, by decide, by decide⟩

end CServer.Timers.Wheel
