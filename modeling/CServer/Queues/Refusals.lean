import CServer.Queues.ArrayLockFreeQueue

/-!
# Refusals of the lock free queue in an array

`enqueue` and `dequeue` read two counters one after the other and compare them modulo the number of
slots. When the counters go on between the two reads the comparison can find them equal although
the queue was neither full nor empty at any instant of the call.
-/
namespace CServer.Queues.ArrayQueue

variable {ι E : Type}

/-- At some instant of the call in which a thread is, the condition held. -/
def DuringCall (i : ι) (P : System ι E → Prop) : List (System ι E) → Prop
  | [] => False
  | s :: older => s.threads i ≠ .idle ∧ (P s ∨ DuringCall i P older)

/-- No committed element is unread. -/
def Empty (s : System ι E) : Prop := s.queue.readIndex = s.queue.maximumReadIndex

/-- All slots but one are reserved and not consumed. -/
def Full (Q : ℕ) (s : System ι E) : Prop := s.queue.writeIndex = s.queue.readIndex + Q - 1

/-- The refusals of a thread are justified. -/
def Justified (Q : ℕ) : List (System ι E) → Prop
  | [] => True
  | s :: older => ∀ i,
      (s.threads i = .dequeueReturn none → DuringCall i Empty (s :: older)) ∧
      (s.threads i = .enqueueReturn false → DuringCall i (Full Q) (s :: older))

/-- The index that was read first is not one that the other counter has passed and meets again
modulo the number of slots. -/
def Fresh (Q : ℕ) (q : Queue E) : Point E → Prop
  | .enqueueCheck _ w =>
    ¬(w < q.readIndex ∧ countToIndex Q (w + 1) = countToIndex Q q.readIndex)
  | .dequeueCheck r =>
    ¬(r < q.maximumReadIndex ∧ countToIndex Q r = countToIndex Q q.maximumReadIndex)
  | _ => True

/-- The thread that makes a step does not compare with such an index. -/
def Action.Fresh (Q : ℕ) (s : System ι E) : Action ι E → Prop
  | .advance i => ArrayQueue.Fresh Q s.queue (s.threads i)
  | _ => True

variable [DecidableEq ι]

/-- The counters stay below their largest value, and with three slots or more the second reads
do not meet a first read that is out of date. -/
def Regular (Q : ℕ) (s : System ι E) (a : Action ι E) : Prop :=
  (perform Q s a).queue.reserved.length + 1 < 2 ^ 64 ∧ (Q = 2 ∨ a.Fresh Q s)

variable {Q : ℕ} {s : System ι E} {older : List (System ι E)} {i : ι} {l : Point E}
  {P : System ι E → Prop}

omit [DecidableEq ι] in
theorem DuringCall.later {s' : System ι E} (h : DuringCall i P (s :: older))
    (hthread : s'.threads i ≠ .idle) : DuringCall i P (s' :: s :: older) :=
  ⟨hthread, .inr h⟩

omit [DecidableEq ι] in
theorem DuringCall.now (h : P s) (hthread : s.threads i ≠ .idle) :
    DuringCall i P (s :: older) :=
  ⟨hthread, .inl h⟩

/-! ## The counters in one step -/

omit [DecidableEq ι] in
/-- A step reserves an index, takes one, or does neither. -/
theorem counters_advance (Q : ℕ) (q : Queue E) (l : Point E) :
    ((advance Q q l).1.reserved = q.reserved ∧ (advance Q q l).1.consumed = q.consumed) ∨
    (∃ data, (advance Q q l).1.reserved = q.reserved ++ [data] ∧
      (advance Q q l).1.readIndex = q.readIndex) ∨
    ∃ data, (advance Q q l).1.reserved = q.reserved ∧
      (advance Q q l).1.consumed = q.consumed ++ [data] ∧
      (advance Q q l).1.maximumReadIndex = q.maximumReadIndex := by
  cases l with
  | enqueueReserve data w =>
    simp only [advance]
    split
    · exact .inr (.inl ⟨data, rfl, rfl⟩)
    · exact .inl ⟨rfl, rfl⟩
  | dequeueTake r data =>
    simp only [advance]
    split
    · exact .inr (.inr ⟨data, rfl, rfl, rfl⟩)
    · exact .inl ⟨rfl, rfl⟩
  | enqueueCheck data w =>
    simp only [advance]
    split <;> exact .inl ⟨rfl, rfl⟩
  | enqueueCommit w =>
    simp only [advance]
    split <;> exact .inl ⟨rfl, rfl⟩
  | dequeueCheck r =>
    simp only [advance]
    split <;> exact .inl ⟨rfl, rfl⟩
  | _ => exact .inl ⟨rfl, rfl⟩

omit [DecidableEq ι] in
theorem Inv.consumed_length (h : Inv Q s) : s.queue.consumed.length = s.queue.readIndex := by
  have hread := h.read_le
  have hmax := h.max_le
  rw [h.consumed, List.length_take, ← h.write]
  omega

/-- With two slots a step that moves a counter leaves the queue full or empty. -/
theorem counters_perform (h : Inv 2 s) (a : Action ι E) (h' : Inv 2 (perform 2 s a)) :
    ((perform 2 s a).queue.writeIndex = s.queue.writeIndex ∨ Full 2 (perform 2 s a)) ∧
    ((perform 2 s a).queue.readIndex = s.queue.readIndex ∨ Empty (perform 2 s a)) := by
  have hread := h.read_le
  have hread' := h'.read_le
  have hmax := h.max_le
  have hmax' := h'.max_le
  have hlt := h.write_lt
  have hlt' := h'.write_lt
  have hwrite := h.write
  have hwrite' := h'.write
  have hconsumed := h.consumed_length
  have hconsumed' := h'.consumed_length
  cases a with
  | enqueue j data => exact ⟨.inl rfl, .inl rfl⟩
  | dequeue j => exact ⟨.inl rfl, .inl rfl⟩
  | advance j =>
    unfold Full Empty
    rw [perform] at hread' hmax' hlt' hwrite' hconsumed' ⊢
    obtain ⟨hres, hcon⟩ | ⟨data, hres, hsame⟩ | ⟨data, hres, hcon, hsame⟩ :=
      counters_advance 2 s.queue (s.threads j)
    · simp only [hres, hcon] at hwrite' hconsumed'
      exact ⟨.inl (by simp only; omega), .inl (by simp only; omega)⟩
    · simp only [hres, hsame, List.length_append, List.length_singleton] at hwrite' hlt' ⊢
      exact ⟨.inr (by omega), .inl trivial⟩
    · simp only [hres, hcon, hsame, List.length_append, List.length_singleton] at *
      exact ⟨.inl (by omega), .inr (by omega)⟩

/-! ## The comparisons -/

omit [DecidableEq ι] in
/-- A thread that has read `m_writeIndex` while it had its present value finds the queue full
only if it is. -/
theorem Inv.full (h : Inv Q s) {w : ℕ} (hw : s.queue.readIndex ≤ w) (hw' : w ≤ s.queue.writeIndex)
    (hslot : countToIndex Q (w + 1) = countToIndex Q s.queue.readIndex) (hQ : 2 ≤ Q) :
    Full Q s := by
  have hlt := h.write_lt
  have hmod : s.queue.readIndex ≡ w + 1 [MOD Q] := hslot.symm
  have hdvd := (Nat.modEq_iff_dvd' (by omega)).mp hmod
  have hle := Nat.le_of_dvd (by omega) hdvd
  show s.queue.writeIndex = s.queue.readIndex + Q - 1
  omega

omit [DecidableEq ι] in
/-- A thread that has read `m_readIndex` while it had its present value finds the queue empty only
if it is. -/
theorem Inv.empty (h : Inv Q s)
    (hslot : countToIndex Q s.queue.readIndex = countToIndex Q s.queue.maximumReadIndex) :
    Empty s := by
  have hread := h.read_le
  have hmax := h.max_le
  exact eq_of_slot h.write_lt le_rfl (by omega) hread hmax hslot

/-! ## The invariant -/

/-- A thread that is to refuse has a reason; with two slots it already has one when it compares
with an index that is out of date. -/
def Excused (Q : ℕ) (i : ι) : List (System ι E) → Prop
  | [] => True
  | s :: older => match s.threads i with
    | .enqueueCheck _ w =>
      Q = 2 → w = s.queue.writeIndex ∨ DuringCall i (Full Q) (s :: older)
    | .enqueueReturn false => DuringCall i (Full Q) (s :: older)
    | .dequeueCheck r => Q = 2 → r = s.queue.readIndex ∨ DuringCall i Empty (s :: older)
    | .dequeueReturn none => DuringCall i Empty (s :: older)
    | _ => True

/-- The reason of a thread stays while other threads make steps. -/
theorem Excused.other (h : Excused Q i (s :: older)) (hinv : Inv Q s) (a : Action ι E)
    (hinv' : Inv Q (perform Q s a)) (hsame : (perform Q s a).threads i = s.threads i) :
    Excused Q i (perform Q s a :: s :: older) := by
  unfold Excused at h ⊢
  simp only [hsame]
  cases hi : s.threads i with
  | enqueueCheck data w =>
    simp only [hi] at h
    intro hQ
    subst hQ
    have hin : (perform 2 s a).threads i ≠ .idle := by rw [hsame, hi]; simp
    obtain heq | hfull := h rfl
    · obtain hkept | hfull := (counters_perform hinv a hinv').1
      · exact .inl (by rw [hkept, heq])
      · exact .inr (.now hfull hin)
    · exact .inr (hfull.later hin)
  | dequeueCheck r =>
    simp only [hi] at h
    intro hQ
    subst hQ
    have hin : (perform 2 s a).threads i ≠ .idle := by rw [hsame, hi]; simp
    obtain heq | hempty := h rfl
    · obtain hkept | hempty := (counters_perform hinv a hinv').2
      · exact .inl (by rw [hkept, heq])
      · exact .inr (.now hempty hin)
    · exact .inr (hempty.later hin)
  | enqueueReturn result =>
    have hin : (perform Q s a).threads i ≠ .idle := by rw [hsame, hi]; simp
    cases result with
    | true => trivial
    | false =>
      simp only [hi] at h
      exact DuringCall.later h hin
  | dequeueReturn result =>
    have hin : (perform Q s a).threads i ≠ .idle := by rw [hsame, hi]; simp
    cases result with
    | some data => trivial
    | none =>
      simp only [hi] at h
      exact DuringCall.later h hin
  | _ => trivial

/-- The test of `enqueue` is passed, or the thread has a reason to refuse. -/
theorem Excused.enqueueCheck (h : Excused Q i (s :: older)) (hinv : Inv Q s) (hQ : 2 ≤ Q)
    {data : E} {w : ℕ} (hi : s.threads i = .enqueueCheck data w)
    (hregular : Regular Q s (.advance i)) :
    Excused Q i (perform Q s (.advance i) :: s :: older) := by
  obtain ⟨hbound, hfresh⟩ := hregular
  have hsound := hinv.sound i
  have hread := hinv.read_le
  have hmax := hinv.max_le
  rw [hi] at hsound
  have hw : w ≤ s.queue.writeIndex := hsound
  unfold Excused at h ⊢
  rw [perform, hi] at hbound ⊢
  simp only [advance, Function.update_self] at hbound ⊢
  by_cases htest : countToIndex Q (wrap (w + 1)) = countToIndex Q s.queue.readIndex
  · simp only [if_pos htest] at hbound ⊢
    rw [← hinv.write] at hbound
    have hwrap : wrap (w + 1) = w + 1 := Nat.mod_eq_of_lt (by omega)
    rw [hwrap] at htest
    have hreturn : ∀ l : Point E, l ≠ .idle →
        (⟨s.queue, Function.update s.threads i l⟩ : System ι E).threads i ≠ .idle := by
      intro l hl
      simpa only [Function.update_self] using hl
    have hfull : s.queue.readIndex ≤ w → Full Q s := fun hle => hinv.full hle hw htest hQ
    have hjust : Full Q s ∨ DuringCall i (Full Q) (s :: older) := by
      obtain htwo | hnew := hfresh
      · simp only [hi] at h
        obtain heq | hbefore := h htwo
        · exact .inl (hfull (by omega))
        · exact .inr hbefore
      · have hnot : Fresh Q s.queue (s.threads i) := hnew
        rw [hi] at hnot
        have hle : ¬w < s.queue.readIndex := fun hlt => hnot ⟨hlt, htest⟩
        exact .inl (hfull (by omega))
    obtain hnow | hbefore := hjust
    · exact DuringCall.now hnow (hreturn _ (by simp))
    · exact hbefore.later (hreturn _ (by simp))
  · simp only [if_neg htest]

/-- The test of `dequeue` is passed, or the thread has a reason to refuse. -/
theorem Excused.dequeueCheck (h : Excused Q i (s :: older)) (hinv : Inv Q s)
    {r : ℕ} (hi : s.threads i = .dequeueCheck r) (hregular : Regular Q s (.advance i)) :
    Excused Q i (perform Q s (.advance i) :: s :: older) := by
  obtain ⟨-, hfresh⟩ := hregular
  have hsound := hinv.sound i
  have hread := hinv.read_le
  rw [hi] at hsound
  have hr : r ≤ s.queue.readIndex := hsound
  unfold Excused at h ⊢
  rw [perform, hi]
  simp only [advance, Function.update_self]
  by_cases htest : countToIndex Q r = countToIndex Q s.queue.maximumReadIndex
  · simp only [if_pos htest]
    have hreturn : ∀ l : Point E, l ≠ .idle →
        (⟨s.queue, Function.update s.threads i l⟩ : System ι E).threads i ≠ .idle := by
      intro l hl
      simpa only [Function.update_self] using hl
    have hempty : r = s.queue.readIndex → Empty s := by
      intro heq
      rw [heq] at htest
      exact hinv.empty htest
    have hjust : Empty s ∨ DuringCall i Empty (s :: older) := by
      obtain htwo | hnew := hfresh
      · simp only [hi] at h
        obtain heq | hbefore := h htwo
        · exact .inl (hempty heq)
        · exact .inr hbefore
      · have hnot : Fresh Q s.queue (s.threads i) := hnew
        rw [hi] at hnot
        have hle : ¬r < s.queue.maximumReadIndex := fun hlt => hnot ⟨hlt, htest⟩
        exact .inl (hempty (by omega))
    obtain hnow | hbefore := hjust
    · exact DuringCall.now hnow (hreturn _ (by simp))
    · exact hbefore.later (hreturn _ (by simp))
  · simp only [if_neg htest]

/-- A thread keeps its reasons over its own steps. -/
theorem Excused.own (h : Excused Q i (s :: older)) (hinv : Inv Q s) (hQ : 2 ≤ Q)
    (hregular : Regular Q s (.advance i)) :
    Excused Q i (perform Q s (.advance i) :: s :: older) := by
  cases hi : s.threads i with
  | enqueueCheck data w => exact h.enqueueCheck hinv hQ hi hregular
  | dequeueCheck r => exact h.dequeueCheck hinv hi hregular
  | enqueueRead data =>
    unfold Excused
    rw [perform, hi]
    simp only [advance, Function.update_self]
    exact fun _ => .inl trivial
  | dequeueRead =>
    unfold Excused
    rw [perform, hi]
    simp only [advance, Function.update_self]
    exact fun _ => .inl trivial
  | enqueueReserve data w =>
    unfold Excused
    rw [perform, hi]
    by_cases hcas : s.queue.writeIndex = w
    · simp only [advance, if_pos hcas, Function.update_self]
    · simp only [advance, if_neg hcas, Function.update_self]
  | enqueueCommit w =>
    unfold Excused
    rw [perform, hi]
    by_cases hcas : s.queue.maximumReadIndex = w
    · simp only [advance, if_pos hcas, Function.update_self]
    · simp only [advance, if_neg hcas, Function.update_self]
  | dequeueTake r data =>
    unfold Excused
    rw [perform, hi]
    by_cases hcas : s.queue.readIndex = r
    · simp only [advance, if_pos hcas, Function.update_self]
    · simp only [advance, if_neg hcas, Function.update_self]
  | _ =>
    unfold Excused
    rw [perform, hi]
    simp only [advance, Function.update_self]

theorem Excused.perform (h : ∀ i, Excused Q i (s :: older)) (hinv : Inv Q s) (hQ : 2 ≤ Q)
    (a : Action ι E) (henabled : a.Enabled s) (hregular : Regular Q s a) (i : ι) :
    Excused Q i (perform Q s a :: s :: older) := by
  have hinv' := hinv.perform a henabled (by have hbound := hregular.1; omega)
  cases a with
  | enqueue j data =>
    by_cases hj : i = j
    · subst hj
      unfold Excused
      simp only [ArrayQueue.perform, Function.update_self]
    · exact (h i).other hinv _ hinv' (Function.update_of_ne hj _ _)
  | dequeue j =>
    by_cases hj : i = j
    · subst hj
      unfold Excused
      simp only [ArrayQueue.perform, Function.update_self]
    · exact (h i).other hinv _ hinv' (Function.update_of_ne hj _ _)
  | advance j =>
    by_cases hj : i = j
    · subst hj
      exact (h i).own hinv hQ hregular
    · exact (h i).other hinv _ hinv' (Function.update_of_ne hj _ _)

/-! ## The result -/

theorem Run.excused (hQ : 2 ≤ Q) (h : Run Q (Regular Q) (s :: older)) :
    s.queue.reserved.length < 2 ^ 64 ∧ ∀ i, Excused Q i (s :: older) := by
  induction older generalizing s with
  | nil =>
    cases h with
    | start array => exact ⟨by show 0 < _; decide, fun i => trivial⟩
  | cons t older ih =>
    cases h with
    | @step _ _ a before enabled allowed =>
      obtain ⟨hbound, hexcused⟩ := ih before
      have hbound' := allowed.1
      have hinv := before.inv hQ hbound
      exact ⟨by omega, Excused.perform hexcused hinv hQ a enabled allowed⟩

/-- In a run in which no comparison meets an index that is out of date, each refusal of a call is
justified by some instant of this call. -/
theorem regular_run_justified {states : List (System ι E)} (hQ : 2 ≤ Q)
    (h : Run Q (Regular Q) states) : Justified Q states := by
  cases states with
  | nil => trivial
  | cons s older =>
    intro i
    have hexcused := (h.excused hQ).2 i
    unfold Excused at hexcused
    constructor
    · intro hi
      simpa only [hi] using hexcused
    · intro hi
      simpa only [hi] using hexcused

instance decidableFresh (Q : ℕ) (q : Queue E) : (l : Point E) → Decidable (Fresh Q q l)
  | .enqueueCheck _ w => inferInstanceAs (Decidable
      ¬(w < q.readIndex ∧ countToIndex Q (w + 1) = countToIndex Q q.readIndex))
  | .dequeueCheck r => inferInstanceAs (Decidable
      ¬(r < q.maximumReadIndex ∧ countToIndex Q r = countToIndex Q q.maximumReadIndex))
  | .idle | .enqueueRead _ | .enqueueReserve _ _ | .enqueueStore _ _ | .enqueueCommit _
  | .enqueueCount | .enqueueReturn _ | .dequeueRead | .dequeueCopy _ | .dequeueTake _ _
  | .dequeueCount _ | .dequeueReturn _ => isTrue trivial

instance decidableRegular (Q : ℕ) (s : System ι E) : (a : Action ι E) → Decidable (Regular Q s a)
  | .enqueue _ _ => @instDecidableAnd _ _ _ (@instDecidableOr _ _ _ (isTrue trivial))
  | .dequeue _ => @instDecidableAnd _ _ _ (@instDecidableOr _ _ _ (isTrue trivial))
  | .advance i => inferInstanceAs (Decidable
      ((perform Q s (.advance i)).queue.reserved.length + 1 < 2 ^ 64 ∧
        (Q = 2 ∨ Fresh Q s.queue (s.threads i))))

/-- A thread finds an empty queue and refuses. -/
def foundEmpty : List (Action ℕ ℕ) := [.dequeue 2, .advance 2, .advance 2]

theorem regular_run_justified_foundEmpty :
    DuringCall 2 Empty (played 3 foundEmpty (initial fun _ => 0 : System ℕ ℕ) []) := by
  have hrun : Run 3 (Regular 3) (played 3 foundEmpty (initial fun _ => 0) []) :=
    Run.played (.start fun _ => 0) (by decide)
  exact (regular_run_justified (by decide) hrun 2).1 rfl

/-! ## A call that is overtaken -/

instance decidableDuringCall [DecidableEq E] (i : ι) (P : System ι E → Prop) [DecidablePred P] :
    (states : List (System ι E)) → Decidable (DuringCall i P states)
  | [] => isFalse id
  | _ :: older =>
    @instDecidableAnd _ _ _ (@instDecidableOr _ _ _ (decidableDuringCall i P older))

instance (Q : ℕ) : DecidablePred (Full Q : System ι E → Prop) :=
  fun s => inferInstanceAs (Decidable (s.queue.writeIndex = s.queue.readIndex + Q - 1))

/-- A thread reads `m_writeIndex`; another one puts an element into the queue of three slots and a
third one takes it; then the first thread compares. -/
def overtaken : List (Action ℕ ℕ) :=
  [.enqueue 0 7, .advance 0] ++ (.enqueue 1 8 :: List.replicate 7 (.advance 1)) ++
    (.dequeue 2 :: List.replicate 6 (.advance 2)) ++ [.advance 0]

/-- The first thread refuses although never more than one of the slots was reserved. -/
theorem overtaken_refused : ∃ states : List (System ℕ ℕ),
    Run 3 (fun _ _ => True) states ∧ ¬Justified 3 states := by
  have hrun : Run 3 (fun _ _ => True) (played 3 overtaken (initial fun _ => 0) []) :=
    Run.played (.start fun _ => 0) (by decide)
  refine ⟨_, hrun, ?_⟩
  intro hjust
  have hnever : ¬DuringCall 0 (Full 3)
      (played 3 overtaken (initial fun _ => 0 : System ℕ ℕ) []) := by decide
  exact hnever ((hjust 0).2 rfl)

end CServer.Queues.ArrayQueue
