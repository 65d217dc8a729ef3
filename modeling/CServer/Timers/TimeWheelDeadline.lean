import CServer.Timers.TimeWheel

/-!
# Deadlines on the time wheel of test.cc

A queued timeout is an entry of a slot. It is followed through the calls made after it: a call
that adds a timeout writes behind it, and the shift that visits its slot processes it and clears
the slot. The shifts are counted from the one that is next when the timeout is queued.
-/
namespace CServer.Timers.Wheel

/-- Where an entry stands: its slot, and the entries of the slot in front of it. -/
structure Place where
  slot : Fin twSize
  position : ℕ

def TimeWheel.entry (tw : TimeWheel) (place : Place) : Option CTimerNode :=
  (tw.slots place.slot)[place.position]?

/-- Where `AddTimeoutDelay` queues a node. -/
def newPlace (tw : TimeWheel) (delay : UInt64) : Place :=
  ⟨slotOf (tw.iRealTick + expire + delay),
    (tw.slots (slotOf (tw.iRealTick + expire + delay))).length⟩

/-- What a call does with an entry: a shift takes the entries of the slot it visits. -/
def Call.carry (tw : TimeWheel) (place : Place) : Call → Option Place
  | .timerShift => if place.slot = slotOf tw.iRealTick then none else some place
  | _ => some place

/-- Some calls, one after the other, and what is left of an entry. -/
def follow : TimeWheel → Option Place → List Call → Except Fault (TimeWheel × Option Place)
  | tw, place, [] => .ok (tw, place)
  | tw, place, c :: calls => do
    let tw' ← c.exec tw
    follow tw' (place.bind fun place => c.carry tw place) calls

/-- The shifts a call makes. -/
def Call.shiftCount : Call → ℕ
  | .timerShift => 1
  | _ => 0

def shiftCount (calls : List Call) : ℕ := (calls.map Call.shiftCount).sum

@[simp] theorem shiftCount_nil : shiftCount [] = 0 := rfl

@[simp] theorem shiftCount_cons (c : Call) (calls : List Call) :
    shiftCount (c :: calls) = c.shiftCount + shiftCount calls := rfl

@[simp] theorem shiftCount_append (before after : List Call) :
    shiftCount (before ++ after) = shiftCount before + shiftCount after := by
  simp [shiftCount]

/-- The next shift of the wheel visits the entry of the node `p` that has been followed. -/
def Processes (p : CTimerNode) (tw : TimeWheel) (place : Option Place) : Prop :=
  ∃ stand, place = some stand ∧ stand.slot = slotOf tw.iRealTick ∧ tw.entry stand = some p

/-- Of the shifts in a run, exactly the one with `due` shifts before it processes the entry. -/
def OnTime (tw : TimeWheel) (p : CTimerNode) (place : Place) (due : ℕ) (calls : List Call) : Prop :=
  ∀ before after tw' left, calls = before ++ .timerShift :: after →
    follow tw (some place) before = .ok (tw', left) →
      (Processes p tw' left ↔ shiftCount before = due)

/-! ## One call -/

theorem addAt_iRealTick {tw tw' : TimeWheel} {p : CTimerNode} {tick : UInt64}
    (h : addAt tw p tick = .ok tw') : tw'.iRealTick = tw.iRealTick := by
  rw [addAt] at h
  split at h
  · rw [← Except.ok.inj h]
  · obtain ⟨refs, -, h⟩ := bind_eq_ok h
    rw [← Except.ok.inj h]

theorem addAt_entry {tw tw' : TimeWheel} {p q : CTimerNode} {tick : UInt64} {place : Place}
    (h : addAt tw p tick = .ok tw') (hq : tw.entry place = some q) :
    tw'.entry place = some q := by
  rw [addAt] at h
  split at h
  · rw [← Except.ok.inj h]
    exact hq
  · obtain ⟨refs, -, h⟩ := bind_eq_ok h
    rw [← Except.ok.inj h]
    unfold TimeWheel.entry at hq ⊢
    by_cases hslot : place.slot = slotOf tick
    · rw [hslot] at hq
      simp only [hslot, Function.update_self]
      exact List.getElem?_append_left (List.getElem?_eq_some_iff.mp hq).1 ▸ hq
    · simp only [Function.update_of_ne hslot]
      exact hq

/-- The node is queued behind the entries of its slot. -/
theorem addTimeoutDelay_entry {tw tw' : TimeWheel} {p : CTimerNode} {delay : UInt64}
    (hp : p ≠ null) (h : addTimeoutDelay tw p delay = .ok tw') :
    tw'.entry (newPlace tw delay) = some p := by
  rw [addTimeoutDelay, addAt, if_neg hp] at h
  obtain ⟨refs, -, h⟩ := bind_eq_ok h
  rw [← Except.ok.inj h]
  simp [TimeWheel.entry, newPlace]

theorem timerShift_inv {tw tw' : TimeWheel} {deleted : List CTimerNode}
    (h : timerShift tw = .ok (deleted, tw')) :
    tw'.iRealTick = tw.iRealTick + 1 ∧
      tw'.slots = Function.update tw.slots (slotOf tw.iRealTick) [] := by
  rw [timerShift] at h
  obtain ⟨out, -, h⟩ := bind_eq_ok h
  obtain ⟨-, rfl⟩ := Prod.mk.inj (Except.ok.inj h)
  exact ⟨rfl, rfl⟩

theorem ofNat_zero_add (tick : UInt64) : tick + UInt64.ofNat 0 = tick := UInt64.add_zero tick

theorem Call.exec_iRealTick {tw tw' : TimeWheel} {c : Call} (h : c.exec tw = .ok tw') :
    tw'.iRealTick = tw.iRealTick + UInt64.ofNat c.shiftCount := by
  cases c with
  | addTimeout p => exact (addAt_iRealTick h).trans (ofNat_zero_add _).symm
  | addTimeoutDelay p delay => exact (addAt_iRealTick h).trans (ofNat_zero_add _).symm
  | offline p =>
    obtain ⟨refs, -, h⟩ := bind_eq_ok h
    rw [← Except.ok.inj h]
    exact (ofNat_zero_add _).symm
  | timerShift =>
    obtain ⟨out, hout, h⟩ := bind_eq_ok h
    rw [← Except.ok.inj h]
    exact (timerShift_inv hout).1

/-- An entry that a call does not take stands where it stood. -/
theorem Call.carry_entry {tw tw' : TimeWheel} {c : Call} {place place' : Place} {p : CTimerNode}
    (h : c.exec tw = .ok tw') (hcarry : c.carry tw place = some place')
    (hp : tw.entry place = some p) : place' = place ∧ tw'.entry place = some p := by
  cases c with
  | addTimeout q => exact ⟨(Option.some.inj hcarry).symm, addAt_entry h hp⟩
  | addTimeoutDelay q delay => exact ⟨(Option.some.inj hcarry).symm, addAt_entry h hp⟩
  | offline q =>
    obtain ⟨refs, -, h⟩ := bind_eq_ok h
    rw [← Except.ok.inj h]
    exact ⟨(Option.some.inj hcarry).symm, hp⟩
  | timerShift =>
    obtain ⟨out, hout, h⟩ := bind_eq_ok h
    rw [← Except.ok.inj h]
    rw [Call.carry] at hcarry
    split at hcarry
    · exact absurd hcarry (by simp)
    · rename_i hslot
      refine ⟨(Option.some.inj hcarry).symm, ?_⟩
      unfold TimeWheel.entry at hp ⊢
      rw [(timerShift_inv hout).2, Function.update_of_ne hslot]
      exact hp

theorem Call.carry_eq (tw : TimeWheel) (place : Place) (c : Call) :
    c.carry tw place =
      if c.shiftCount = 1 ∧ place.slot = slotOf tw.iRealTick then none else some place := by
  cases c <;> simp [Call.carry, Call.shiftCount]

/-! ## Some calls -/

theorem follow_none {tw tw' : TimeWheel} {left : Option Place} {calls : List Call}
    (h : follow tw none calls = .ok (tw', left)) : left = none := by
  induction calls generalizing tw with
  | nil => exact (Prod.mk.inj (Except.ok.inj h)).2.symm
  | cons c calls ih =>
    obtain ⟨tw₁, -, h⟩ := bind_eq_ok h
    exact ih h

theorem follow_iRealTick {tw tw' : TimeWheel} {place left : Option Place} {calls : List Call}
    (h : follow tw place calls = .ok (tw', left)) :
    tw'.iRealTick = tw.iRealTick + UInt64.ofNat (shiftCount calls) := by
  induction calls generalizing tw place with
  | nil =>
    obtain ⟨rfl, -⟩ := Prod.mk.inj (Except.ok.inj h)
    exact (ofNat_zero_add _).symm
  | cons c calls ih =>
    obtain ⟨tw₁, hexec, h⟩ := bind_eq_ok h
    rw [ih h, Call.exec_iRealTick hexec, shiftCount_cons, UInt64.ofNat_add, UInt64.add_assoc]

/-- The entry is left as long as none of the shifts made has visited its slot. -/
theorem follow_left {tw tw' : TimeWheel} {place : Place} {p : CTimerNode} {left : Option Place}
    {calls : List Call} (hp : tw.entry place = some p)
    (h : follow tw (some place) calls = .ok (tw', left)) :
    (∃ n < shiftCount calls, slotOf (tw.iRealTick + UInt64.ofNat n) = place.slot) ∧ left = none ∨
      (∀ n < shiftCount calls, slotOf (tw.iRealTick + UInt64.ofNat n) ≠ place.slot) ∧
        left = some place ∧ tw'.entry place = some p := by
  induction calls generalizing tw with
  | nil =>
    obtain ⟨rfl, rfl⟩ := Prod.mk.inj (Except.ok.inj h)
    refine .inr ⟨?_, rfl, hp⟩
    intro n hn
    exact absurd hn (Nat.not_lt_zero n)
  | cons c calls ih =>
    obtain ⟨tw₁, hexec, h⟩ := bind_eq_ok h
    rw [Option.bind_some] at h
    have htick := Call.exec_iRealTick hexec
    have hlater : ∀ n, slotOf (tw₁.iRealTick + UInt64.ofNat n) =
        slotOf (tw.iRealTick + UInt64.ofNat (c.shiftCount + n)) := by
      intro n
      rw [htick, UInt64.ofNat_add, UInt64.add_assoc]
    have hcarry := Call.carry_eq tw place c
    by_cases htaken : c.shiftCount = 1 ∧ place.slot = slotOf tw.iRealTick
    · -- the call is the shift that visits the slot
      rw [if_pos htaken] at hcarry
      rw [hcarry] at h
      refine .inl ⟨⟨0, ?_, ?_⟩, follow_none h⟩
      · rw [shiftCount_cons]
        omega
      · rw [ofNat_zero_add, htaken.2]
    · rw [if_neg htaken] at hcarry
      rw [hcarry] at h
      have hentry := (Call.carry_entry hexec hcarry hp).2
      obtain ⟨⟨n, hn, hslot⟩, hleft⟩ | ⟨hnone, hleft⟩ := ih hentry h
      · refine .inl ⟨⟨c.shiftCount + n, ?_, ?_⟩, hleft⟩
        · rw [shiftCount_cons]
          omega
        · rw [← hlater, hslot]
      · refine .inr ⟨?_, hleft⟩
        intro n hn hslot
        rw [shiftCount_cons] at hn
        by_cases hfirst : n < c.shiftCount
        · have hone : c.shiftCount = 1 ∧ n = 0 := by
            cases c <;> simp_all [Call.shiftCount]
          rw [hone.2, ofNat_zero_add] at hslot
          exact htaken ⟨hone.1, hslot.symm⟩
        · apply hnone (n - c.shiftCount) (by omega)
          rw [hlater, Nat.add_sub_cancel' (by omega), hslot]

/-! ## The deadline -/

/-- The shift that visits the slot of a new entry, counted from the next one. -/
def visitedAfter (delay : UInt64) : ℕ := (expire.toNat + delay.toNat) % twSize

theorem slotOf_newPlace_iff (tw : TimeWheel) (delay : UInt64) (n : ℕ) :
    slotOf (tw.iRealTick + UInt64.ofNat n) = (newPlace tw delay).slot ↔
      n % twSize = visitedAfter delay := by
  have hsum : tw.iRealTick + expire + delay =
      tw.iRealTick + UInt64.ofNat (expire.toNat + delay.toNat) := by
    rw [UInt64.ofNat_add, UInt64.ofNat_toNat, UInt64.ofNat_toNat, UInt64.add_assoc]
  rw [newPlace, hsum, Fin.ext_iff, slotOf_add, slotOf_add, visitedAfter, twSize]
  omega

theorem visitedAfter_lt (delay : UInt64) : visitedAfter delay < twSize :=
  Nat.mod_lt _ (by decide)

/-- The next shift processes a new entry exactly if so many shifts have been made since. -/
theorem processes_iff {tw tw₁ tw₂ : TimeWheel} {p : CTimerNode} {delay : UInt64}
    {left : Option Place} {calls : List Call} (hp : p ≠ null)
    (hadd : addTimeoutDelay tw p delay = .ok tw₁)
    (h : follow tw₁ (some (newPlace tw delay)) calls = .ok (tw₂, left)) :
    Processes p tw₂ left ↔ shiftCount calls = visitedAfter delay := by
  have htick₁ : tw₁.iRealTick = tw.iRealTick := addAt_iRealTick hadd
  have htick := follow_iRealTick h
  rw [htick₁] at htick
  have hvisited := visitedAfter_lt delay
  have hsmall : ∀ n < twSize, (n % twSize = visitedAfter delay ↔ n = visitedAfter delay) := by
    intro n hn
    rw [Nat.mod_eq_of_lt hn]
  obtain ⟨⟨n, hn, hslot⟩, rfl⟩ | ⟨hnone, rfl, hentry⟩ :=
    follow_left (addTimeoutDelay_entry hp hadd) h
  · rw [htick₁, slotOf_newPlace_iff] at hslot
    have hle := Nat.mod_le n twSize
    constructor
    · rintro ⟨stand, habsurd, -⟩
      exact absurd habsurd (by simp)
    · intro heq
      omega
  · have hbefore : ∀ n < shiftCount calls, n % twSize ≠ visitedAfter delay := by
      intro n hn heq
      apply hnone n hn
      rw [htick₁]
      exact (slotOf_newPlace_iff tw delay n).mpr heq
    have hcount : shiftCount calls ≤ visitedAfter delay := by
      by_contra hlt
      exact hbefore (visitedAfter delay) (by omega) (Nat.mod_eq_of_lt hvisited)
    rw [← hsmall _ (Nat.lt_of_le_of_lt hcount hvisited), ← slotOf_newPlace_iff tw, ← htick]
    constructor
    · rintro ⟨stand, hat, hslot, -⟩
      obtain rfl := Option.some.inj hat
      exact hslot.symm
    · intro hslot
      exact ⟨_, rfl, hslot.symm, hentry⟩

/-- A part of a run returns. -/
theorem follow_append {tw tw' : TimeWheel} {place left : Option Place} {before after : List Call}
    (h : follow tw place (before ++ after) = .ok (tw', left)) :
    ∃ tw₁ left₁, follow tw place before = .ok (tw₁, left₁) := by
  induction before generalizing tw place with
  | nil => exact ⟨tw, place, rfl⟩
  | cons c before ih =>
    obtain ⟨tw₁, hexec, h⟩ := bind_eq_ok h
    obtain ⟨tw₂, left₂, hbefore⟩ := ih h
    refine ⟨tw₂, left₂, ?_⟩
    rw [follow, hexec, ok_bind, hbefore]

/-- A run makes its shifts one after another. -/
theorem exists_split_of_lt_shiftCount {calls : List Call} {n : ℕ} (h : n < shiftCount calls) :
    ∃ before after, calls = before ++ .timerShift :: after ∧ shiftCount before = n := by
  induction calls generalizing n with
  | nil => exact absurd h (Nat.not_lt_zero n)
  | cons c calls ih =>
    rw [shiftCount_cons] at h
    by_cases hfirst : n < c.shiftCount
    · cases c with
      | timerShift =>
        have hn : n < 1 := hfirst
        exact ⟨[], calls, rfl, by rw [shiftCount_nil]; omega⟩
      | addTimeout p => exact absurd hfirst (Nat.not_lt_zero n)
      | addTimeoutDelay p delay => exact absurd hfirst (Nat.not_lt_zero n)
      | offline p => exact absurd hfirst (Nat.not_lt_zero n)
    · obtain ⟨before, after, rfl, hcount⟩ := ih (n := n - c.shiftCount) (by omega)
      refine ⟨c :: before, after, rfl, ?_⟩
      rw [shiftCount_cons, hcount]
      omega

/-- In a run after `AddTimeoutDelay` exactly the shift `EXPIRE + delay` shifts after the next one
processes the node, if this number is smaller than the wheel, or if the run ends before any shift
has visited the slot; and only then. -/
theorem delayed_on_time_iff (tw tw₁ tw₂ : TimeWheel) (p : CTimerNode) (delay : UInt64)
    (calls : List Call) (left : Option Place) (hp : p ≠ null)
    (hadd : addTimeoutDelay tw p delay = .ok tw₁)
    (hrun : follow tw₁ (some (newPlace tw delay)) calls = .ok (tw₂, left)) :
    OnTime tw₁ p (newPlace tw delay) (expire.toNat + delay.toNat) calls ↔
      expire.toNat + delay.toNat < twSize ∨
        shiftCount calls ≤ (expire.toNat + delay.toNat) % twSize := by
  constructor
  · intro hontime
    by_contra hneither
    rw [not_or, Nat.not_lt, Nat.not_le] at hneither
    obtain ⟨hlate, hlong⟩ := hneither
    obtain ⟨before, after, rfl, hcount⟩ := exists_split_of_lt_shiftCount hlong
    obtain ⟨tw', left', hbefore⟩ := follow_append hrun
    have hdue := (hontime before after tw' left' rfl hbefore).mp
      ((processes_iff hp hadd hbefore).mpr hcount)
    have hmod := Nat.mod_lt (expire.toNat + delay.toNat) (show 0 < twSize by decide)
    omega
  · intro hcond before after tw' left' hcalls hbefore
    rw [processes_iff hp hadd hbefore, visitedAfter]
    obtain hsmall | hshort := hcond
    · rw [Nat.mod_eq_of_lt hsmall]
    · -- the run ends before the slot is visited
      rw [hcalls, shiftCount_append, shiftCount_cons, Call.shiftCount] at hshort
      have hle := Nat.mod_le (expire.toNat + delay.toNat) twSize
      constructor <;> intro heq <;> omega

/-- The wheel after a node has been created and been given a timeout. -/
def delayed (delay : UInt64) : TimeWheel :=
  ⟨Function.update created.refs 1 (some 1),
    Function.update created.slots (slotOf (0 + expire + delay)) [1], 0⟩

theorem addTimeoutDelay_created (delay : UInt64) :
    addTimeoutDelay created 1 delay = .ok (delayed delay) := by
  rfl

/-- A delay of five: the shift that is due is the last one before the wheel is round. -/
theorem delayed_on_time_five : ∃ tw₂ left,
    follow (delayed 5) (some (newPlace created 5)) (List.replicate 16 .timerShift) =
        .ok (tw₂, left) ∧
      OnTime (delayed 5) 1 (newPlace created 5) (expire.toNat + (5 : UInt64).toNat)
        (List.replicate 16 .timerShift) :=
  ⟨_, _, rfl, (delayed_on_time_iff created (delayed 5) _ 1 5 _ _ (by decide)
    (addTimeoutDelay_created 5) rfl).mpr (.inl (by decide))⟩

/-- A delay of six is a whole round: the very next shift processes the node and deletes it. -/
theorem delayed_six_early : ∃ tw₁ tw₂, addTimeoutDelay created 1 6 = .ok tw₁ ∧
    timerShift tw₁ = .ok ([1], tw₂) ∧
      ¬ OnTime tw₁ 1 (newPlace created 6) (expire.toNat + (6 : UInt64).toNat) [.timerShift] := by
  refine ⟨_, _, addTimeoutDelay_created 6, rfl, ?_⟩
  intro hontime
  have hnow : Processes 1 (delayed 6) (some (newPlace created 6)) := ⟨_, rfl, by decide, by decide⟩
  have hdue := (hontime [] [] _ _ rfl rfl).mp hnow
  exact absurd hdue (by decide)

end CServer.Timers.Wheel
