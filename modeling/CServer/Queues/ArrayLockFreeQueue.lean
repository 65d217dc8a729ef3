import Mathlib.Algebra.Ring.Nat
import Mathlib.Data.List.TakeDrop
import Mathlib.Data.Nat.ModEq
import Mathlib.Logic.Function.Basic
import Mathlib.Tactic.Tauto

/-!
# The lock free queue in an array

ArrayLockFreeQueueImp.h with any number of threads that call `enqueue` and `dequeue`. Each read,
write or CAS of a shared variable is a step of its own; the computation between two of them goes
with the step before it. The queue records, besides its variables, the elements in the order in
which the CAS of `m_writeIndex` reserved a slot for them and the CAS of `m_readIndex` took them.
-/
namespace CServer.Queues.ArrayQueue

/-- A counter of the type `QUEUE_INT` after an addition. -/
def wrap (n : ℕ) : ℕ := n % 2 ^ 64

/-- `AtomicSub` of one. -/
def decrement (n : ℕ) : ℕ := if n = 0 then 2 ^ 64 - 1 else n - 1

/-- `countToIndex`. -/
def countToIndex (Q count : ℕ) : ℕ := count % Q

structure Queue (E : Type) where
  theQueue : ℕ → E
  count : ℕ
  writeIndex : ℕ
  readIndex : ℕ
  maximumReadIndex : ℕ
  reserved : List E
  consumed : List E

/-- Where a thread is, named by what it does next. -/
inductive Point (E : Type) where
  | idle
  | enqueueRead (data : E)
  | enqueueCheck (data : E) (currentWriteIndex : ℕ)
  | enqueueReserve (data : E) (currentWriteIndex : ℕ)
  | enqueueStore (data : E) (currentWriteIndex : ℕ)
  | enqueueCommit (currentWriteIndex : ℕ)
  | enqueueCount
  | enqueueReturn (result : Bool)
  | dequeueRead
  | dequeueCheck (currentReadIndex : ℕ)
  | dequeueCopy (currentReadIndex : ℕ)
  | dequeueTake (currentReadIndex : ℕ) (data : E)
  | dequeueCount (data : E)
  | dequeueReturn (result : Option E)
  deriving DecidableEq

variable {ι E : Type}

/-- One step of a thread: the queue after it, and where the thread goes on. -/
def advance (Q : ℕ) (q : Queue E) : Point E → Queue E × Point E
  | .idle => (q, .idle)
  | .enqueueRead data => (q, .enqueueCheck data q.writeIndex)
  | .enqueueCheck data w =>
    if countToIndex Q (wrap (w + 1)) = countToIndex Q q.readIndex then (q, .enqueueReturn false)
    else (q, .enqueueReserve data w)
  | .enqueueReserve data w =>
    if q.writeIndex = w then
      ({ q with writeIndex := wrap (w + 1), reserved := q.reserved ++ [data] },
        .enqueueStore data w)
    else (q, .enqueueRead data)
  | .enqueueStore data w =>
    ({ q with theQueue := Function.update q.theQueue (countToIndex Q w) data }, .enqueueCommit w)
  | .enqueueCommit w =>
    if q.maximumReadIndex = w then ({ q with maximumReadIndex := wrap (w + 1) }, .enqueueCount)
    else (q, .enqueueCommit w)
  | .enqueueCount => ({ q with count := wrap (q.count + 1) }, .enqueueReturn true)
  | .enqueueReturn _ => (q, .idle)
  | .dequeueRead => (q, .dequeueCheck q.readIndex)
  | .dequeueCheck r =>
    if countToIndex Q r = countToIndex Q q.maximumReadIndex then (q, .dequeueReturn none)
    else (q, .dequeueCopy r)
  | .dequeueCopy r => (q, .dequeueTake r (q.theQueue (countToIndex Q r)))
  | .dequeueTake r data =>
    if q.readIndex = r then
      ({ q with readIndex := wrap (r + 1), consumed := q.consumed ++ [data] }, .dequeueCount data)
    else (q, .dequeueRead)
  | .dequeueCount data => ({ q with count := decrement q.count }, .dequeueReturn (some data))
  | .dequeueReturn _ => (q, .idle)

/-- The queue and the threads that use it. -/
structure System (ι E : Type) where
  queue : Queue E
  threads : ι → Point E

/-- A thread that is not in a call makes one, or a thread in a call makes a step. -/
inductive Action (ι E : Type) where
  | enqueue (i : ι) (data : E)
  | dequeue (i : ι)
  | advance (i : ι)

def Action.Enabled (s : System ι E) : Action ι E → Prop
  | .enqueue i _ => s.threads i = .idle
  | .dequeue i => s.threads i = .idle
  | .advance i => s.threads i ≠ .idle

variable [DecidableEq ι]

def perform (Q : ℕ) (s : System ι E) : Action ι E → System ι E
  | .enqueue i data => { s with threads := Function.update s.threads i (.enqueueRead data) }
  | .dequeue i => { s with threads := Function.update s.threads i .dequeueRead }
  | .advance i =>
    let out := ArrayQueue.advance Q s.queue (s.threads i)
    ⟨out.1, Function.update s.threads i out.2⟩

/-- The queue of the constructor, whose array is not initialised, and no thread in a call. -/
def initial (array : ℕ → E) : System ι E := ⟨⟨array, 0, 0, 0, 0, [], []⟩, fun _ => .idle⟩

/-- The states of a run, the last one first; every action is allowed where it is made. -/
inductive Run (Q : ℕ) (Allowed : System ι E → Action ι E → Prop) : List (System ι E) → Prop
  | start (array : ℕ → E) : Run Q Allowed [initial array]
  | step {s : System ι E} {older : List (System ι E)} {a : Action ι E}
      (before : Run Q Allowed (s :: older)) (enabled : a.Enabled s) (allowed : Allowed s a) :
      Run Q Allowed (perform Q s a :: s :: older)

/-! ## What a thread knows of the counters -/

/-- The index that a thread has reserved and not committed. -/
def pendingOf : Point E → Option ℕ
  | .enqueueStore _ w => some w
  | .enqueueCommit w => some w
  | _ => none

/-- The values that a thread has read were right, and are still of use if nothing has changed. -/
def Sound (Q : ℕ) (q : Queue E) : Point E → Prop
  | .enqueueCheck _ w => w ≤ q.writeIndex
  | .enqueueReserve _ w => w ≤ q.writeIndex ∧
      (w = q.writeIndex → w + 1 < 2 ^ 64 → w + 1 < q.readIndex + Q)
  | .enqueueStore data w =>
    q.maximumReadIndex ≤ w ∧ w < q.writeIndex ∧ q.reserved[w]? = some data
  | .enqueueCommit w => q.maximumReadIndex ≤ w ∧ w < q.writeIndex
  | .dequeueCheck r => r ≤ q.readIndex
  | .dequeueCopy r => r ≤ q.readIndex ∧ (r = q.readIndex → r < q.maximumReadIndex)
  | .dequeueTake r data => r ≤ q.readIndex ∧
      (r = q.readIndex → r < q.maximumReadIndex ∧ q.reserved[r]? = some data)
  | _ => True

/-- The counters have gone on. -/
structure Later (q q' : Queue E) : Prop where
  write : q.writeIndex ≤ q'.writeIndex
  read : q.readIndex ≤ q'.readIndex
  max : q.maximumReadIndex ≤ q'.maximumReadIndex
  reserved : ∀ (n : ℕ) (e : E), q.reserved[n]? = some e → q'.reserved[n]? = some e

theorem Sound.later {Q : ℕ} {q q' : Queue E} {l : Point E} (h : Sound Q q l) (hlater : Later q q')
    (hpending : ∀ w, pendingOf l = some w → q'.maximumReadIndex ≤ w) : Sound Q q' l := by
  obtain ⟨hwrite, hread, hmax, hreserved⟩ := hlater
  cases l with
  | enqueueCheck data w => exact le_trans h hwrite
  | enqueueReserve data w =>
    obtain ⟨hw, hfree⟩ := h
    refine ⟨le_trans hw hwrite, ?_⟩
    intro heq hbound
    have hstill := hfree (by omega) hbound
    omega
  | enqueueStore data w =>
    exact ⟨hpending w rfl, lt_of_lt_of_le h.2.1 hwrite, hreserved _ _ h.2.2⟩
  | enqueueCommit w => exact ⟨hpending w rfl, lt_of_lt_of_le h.2 hwrite⟩
  | dequeueCheck r => exact le_trans h hread
  | dequeueCopy r =>
    refine ⟨le_trans h.1 hread, ?_⟩
    intro heq
    have hr := h.1
    have hstill := h.2 (by omega)
    omega
  | dequeueTake r data =>
    refine ⟨le_trans h.1 hread, ?_⟩
    intro heq
    have hr := h.1
    obtain ⟨hstill, hdata⟩ := h.2 (by omega)
    exact ⟨by omega, hreserved _ _ hdata⟩
  | idle => trivial
  | enqueueRead data => trivial
  | enqueueCount => trivial
  | enqueueReturn result => trivial
  | dequeueRead => trivial
  | dequeueCount data => trivial
  | dequeueReturn result => trivial

/-! ## The invariant -/

/-- The counters bound a window of fewer than `Q` indices: those before `m_maximumReadIndex` hold
their elements, and each of the others belongs to one thread, which may still have to write. -/
structure Inv (Q : ℕ) (s : System ι E) : Prop where
  write : s.queue.writeIndex = s.queue.reserved.length
  consumed : s.queue.consumed = s.queue.reserved.take s.queue.readIndex
  read_le : s.queue.readIndex ≤ s.queue.maximumReadIndex
  max_le : s.queue.maximumReadIndex ≤ s.queue.writeIndex
  write_lt : s.queue.writeIndex < s.queue.readIndex + Q
  sound : ∀ i, Sound Q s.queue (s.threads i)
  alone : ∀ i j w, pendingOf (s.threads i) = some w → pendingOf (s.threads j) = some w → i = j
  stored : ∀ n, s.queue.readIndex ≤ n → n < s.queue.writeIndex →
    (∀ i data, s.threads i ≠ .enqueueStore data n) →
    s.queue.reserved[n]? = some (s.queue.theQueue (countToIndex Q n))

/-- Two indices of the window with one slot are the same. -/
theorem eq_of_slot {Q low high m n : ℕ} (hwindow : high < low + Q) (hm : low ≤ m) (hm' : m ≤ high)
    (hn : low ≤ n) (hn' : n ≤ high) (h : countToIndex Q m = countToIndex Q n) : m = n := by
  have hmod : m ≡ n [MOD Q] := h
  obtain hle | hle := Nat.le_total m n
  · have hdvd := (Nat.modEq_iff_dvd' hle).mp hmod
    have hzero := Nat.eq_zero_of_dvd_of_lt hdvd (by omega)
    omega
  · have hdvd := (Nat.modEq_iff_dvd' hle).mp hmod.symm
    have hzero := Nat.eq_zero_of_dvd_of_lt hdvd (by omega)
    omega

variable {Q : ℕ} {s : System ι E} {i : ι} {l : Point E} {q : Queue E}

theorem update_cases {j : ι} {P : ι → Point E → Prop} (hi : P i l)
    (hother : ∀ j, j ≠ i → P j (s.threads j)) : P j (Function.update s.threads i l j) := by
  by_cases hj : j = i
  · rw [hj, Function.update_self]
    exact hi
  · rw [Function.update_of_ne hj]
    exact hother j hj

/-- A thread goes on to a point, and the queue with it. -/
theorem Inv.moved (h : Inv Q s) (hlater : Later s.queue q)
    (hwrite : q.writeIndex = q.reserved.length)
    (hconsumed : q.consumed = q.reserved.take q.readIndex)
    (hcounters : q.readIndex ≤ q.maximumReadIndex ∧ q.maximumReadIndex ≤ q.writeIndex ∧
      q.writeIndex < q.readIndex + Q)
    (hsound : Sound Q q l)
    (hothers : ∀ j w, j ≠ i → pendingOf (s.threads j) = some w → q.maximumReadIndex ≤ w)
    (halone : ∀ j w, j ≠ i → pendingOf l = some w → pendingOf (s.threads j) ≠ some w)
    (hstored : ∀ n, q.readIndex ≤ n → n < q.writeIndex → (∀ data, l ≠ .enqueueStore data n) →
      (∀ j data, j ≠ i → s.threads j ≠ .enqueueStore data n) →
      q.reserved[n]? = some (q.theQueue (countToIndex Q n))) :
    Inv Q ⟨q, Function.update s.threads i l⟩ where
  write := hwrite
  consumed := hconsumed
  read_le := hcounters.1
  max_le := hcounters.2.1
  write_lt := hcounters.2.2
  sound := by
    intro j
    apply update_cases (P := fun _ l => Sound Q q l) hsound
    intro j hj
    exact (h.sound j).later hlater (fun w hw => hothers j w hj hw)
  alone := by
    intro j k w hj hk
    by_cases hji : j = i
    · by_cases hki : k = i
      · rw [hji, hki]
      · rw [hji] at hj
        simp only [Function.update_self, Function.update_of_ne hki] at hj hk
        exact absurd hk (halone k w hki hj)
    · by_cases hki : k = i
      · rw [hki] at hk
        simp only [Function.update_self, Function.update_of_ne hji] at hj hk
        exact absurd hj (halone j w hji hk)
      · simp only [Function.update_of_ne hji, Function.update_of_ne hki] at hj hk
        exact h.alone j k w hj hk
  stored := by
    intro n hlow hhigh hnone
    apply hstored n hlow hhigh
    · intro data hdata
      exact hnone i data (by simp only [Function.update_self]; exact hdata)
    · intro j data hj hdata
      exact hnone j data (by simp only [Function.update_of_ne hj]; exact hdata)

theorem Later.refl (q : Queue E) : Later q q := ⟨le_rfl, le_rfl, le_rfl, fun _ _ h => h⟩

omit [DecidableEq ι] in
/-- The indices that threads have reserved are still to be committed. -/
theorem Inv.max_le_pending (h : Inv Q s) {j : ι} {w : ℕ} (hw : pendingOf (s.threads j) = some w) :
    s.queue.maximumReadIndex ≤ w ∧ w < s.queue.writeIndex := by
  have hsound := h.sound j
  cases hl : s.threads j with
  | enqueueStore data w' =>
    rw [hl] at hw hsound
    obtain rfl := Option.some.inj hw
    exact ⟨hsound.1, hsound.2.1⟩
  | enqueueCommit w' =>
    rw [hl] at hw hsound
    obtain rfl := Option.some.inj hw
    exact hsound
  | _ =>
    rw [hl] at hw
    exact absurd hw (by simp [pendingOf])

/-- A thread that has not to write goes on, and the counters, the elements and the array stay. -/
theorem Inv.stay (h : Inv Q s) (count : ℕ) (hsound : Sound Q s.queue l)
    (hnone : pendingOf l = none ∨ pendingOf l = pendingOf (s.threads i))
    (hstore : ∀ data n, s.threads i ≠ .enqueueStore data n) :
    Inv Q ⟨{ s.queue with count := count }, Function.update s.threads i l⟩ := by
  have hsound' : Sound Q { s.queue with count := count } l := by cases l <;> exact hsound
  apply h.moved (q := { s.queue with count := count })
    ⟨le_rfl, le_rfl, le_rfl, fun _ _ h => h⟩ h.write h.consumed
    ⟨h.read_le, h.max_le, h.write_lt⟩ hsound'
  · exact fun j w _ hw => (h.max_le_pending hw).1
  · intro j w hj hw hw'
    obtain hnone | hsame := hnone
    · rw [hnone] at hw
      exact absurd hw (by simp)
    · rw [hsame] at hw
      exact hj (h.alone j i w hw' hw)
  · intro n hlow hhigh _ hothers
    apply h.stored n hlow hhigh
    intro j data
    by_cases hj : j = i
    · rw [hj]
      exact hstore data n
    · exact hothers j data hj

/-! ## The steps -/

/-- The CAS of `m_writeIndex` on the value that was read gives the thread the next index. -/
theorem Inv.reserve (h : Inv Q s) {data : E} {w : ℕ} (hi : s.threads i = .enqueueReserve data w)
    (hw : s.queue.writeIndex = w) (hbound : w + 1 < 2 ^ 64) :
    Inv Q ⟨{ s.queue with writeIndex := wrap (w + 1), reserved := s.queue.reserved ++ [data] },
      Function.update s.threads i (.enqueueStore data w)⟩ := by
  have hsound := h.sound i
  rw [hi] at hsound
  have hfree := hsound.2 hw.symm hbound
  have hwrap : wrap (w + 1) = w + 1 := Nat.mod_eq_of_lt hbound
  have hlen : s.queue.reserved.length = w := by rw [← h.write, hw]
  have hread := h.read_le
  have hmax := h.max_le
  have hconsumed : s.queue.consumed = (s.queue.reserved ++ [data]).take s.queue.readIndex := by
    rw [h.consumed, List.take_append_of_le_length (by omega)]
  have hkeep : ∀ (n : ℕ) (e : E), s.queue.reserved[n]? = some e →
      (s.queue.reserved ++ [data])[n]? = some e := by
    intro n e hn
    have hlt : n < s.queue.reserved.length := (List.getElem?_eq_some_iff.mp hn).1
    rw [List.getElem?_append_left hlt, hn]
  rw [hwrap]
  apply h.moved (q := { s.queue with writeIndex := w + 1, reserved := s.queue.reserved ++ [data] })
    (i := i)
  · exact ⟨by simp only; omega, le_rfl, le_rfl, hkeep⟩
  · simp only [List.length_append, List.length_singleton, hlen]
  · exact hconsumed
  · exact ⟨hread, by simp only; omega, hfree⟩
  · refine ⟨by simp only; omega, by simp only; omega, ?_⟩
    simp only
    rw [← hlen, List.getElem?_concat_length]
  · exact fun j w' _ hw' => (h.max_le_pending hw').1
  · intro j w' _ hw' hj
    obtain rfl : w = w' := Option.some.inj hw'
    have hlt := (h.max_le_pending hj).2
    omega
  · intro n hlow hhigh hself hothers
    simp only at hlow hhigh
    have hne : n ≠ w := fun heq => hself data (by rw [heq])
    apply hkeep
    apply h.stored n hlow (by omega)
    intro j data'
    by_cases hj : j = i
    · rw [hj, hi]
      simp
    · exact hothers j data' hj

/-- The element goes to the slot, in which no other reserved element waits to be taken. -/
theorem Inv.store (h : Inv Q s) {data : E} {w : ℕ} (hi : s.threads i = .enqueueStore data w) :
    Inv Q ⟨{ s.queue with theQueue := Function.update s.queue.theQueue (countToIndex Q w) data },
      Function.update s.threads i (.enqueueCommit w)⟩ := by
  have hsound := h.sound i
  rw [hi] at hsound
  have hread := h.read_le
  have hmax := h.max_le
  have hlt := h.write_lt
  have hpending : pendingOf (s.threads i) = some w := by rw [hi]; rfl
  obtain ⟨hfrom, hto⟩ := h.max_le_pending hpending
  apply h.moved (q := { s.queue with
      theQueue := Function.update s.queue.theQueue (countToIndex Q w) data }) (i := i)
    ⟨le_rfl, le_rfl, le_rfl, fun _ _ h => h⟩ h.write h.consumed ⟨hread, hmax, hlt⟩
  · exact ⟨hsound.1, hsound.2.1⟩
  · exact fun j w' _ hw' => (h.max_le_pending hw').1
  · intro j w' hj hw' hj'
    obtain rfl : w = w' := Option.some.inj hw'
    exact hj (h.alone j i w hj' hpending)
  · intro n hlow hhigh _ hothers
    simp only at hlow hhigh ⊢
    by_cases hn : n = w
    · rw [hn, Function.update_self]
      exact hsound.2.2
    · have hslot : countToIndex Q n ≠ countToIndex Q w := by
        intro hsame
        exact hn (eq_of_slot hlt hlow (by omega) (by omega) (by omega) hsame)
      rw [Function.update_of_ne hslot]
      apply h.stored n hlow hhigh
      intro j data'
      by_cases hj : j = i
      · rw [hj, hi]
        intro heq
        exact hn (Point.enqueueStore.inj heq).2.symm
      · exact hothers j data' hj

/-- The CAS of `m_maximumReadIndex` commits the first index that is reserved. -/
theorem Inv.commit (h : Inv Q s) {w : ℕ} (hi : s.threads i = .enqueueCommit w)
    (hw : s.queue.maximumReadIndex = w) (hbound : s.queue.writeIndex < 2 ^ 64) :
    Inv Q ⟨{ s.queue with maximumReadIndex := wrap (w + 1) },
      Function.update s.threads i .enqueueCount⟩ := by
  have hsound := h.sound i
  rw [hi] at hsound
  obtain ⟨-, hlt⟩ := hsound
  have hwrap : wrap (w + 1) = w + 1 := Nat.mod_eq_of_lt (by omega)
  have hread := h.read_le
  have hpending : pendingOf (s.threads i) = some w := by rw [hi]; rfl
  rw [hwrap]
  apply h.moved (q := { s.queue with maximumReadIndex := w + 1 }) (i := i)
    (l := .enqueueCount)
    ⟨le_rfl, le_rfl, by simp only; omega, fun _ _ h => h⟩ h.write h.consumed
    ⟨by simp only; omega, hlt, h.write_lt⟩ trivial
  · intro j w' hj hw'
    have hne : w' ≠ w := by
      intro heq
      exact hj (h.alone j i w (by rw [hw', heq]) hpending)
    have hle := (h.max_le_pending hw').1
    simp only
    omega
  · exact fun j w' _ hw' => absurd hw' (by simp [pendingOf])
  · intro n hlow hhigh _ hothers
    apply h.stored n hlow hhigh
    intro j data
    by_cases hj : j = i
    · rw [hj, hi]
      simp
    · exact hothers j data hj

/-- The CAS of `m_readIndex` on the value that was read takes the element that was copied. -/
theorem Inv.take (h : Inv Q s) {data : E} {r : ℕ} (hi : s.threads i = .dequeueTake r data)
    (hr : s.queue.readIndex = r) (hbound : s.queue.writeIndex < 2 ^ 64) :
    Inv Q ⟨{ s.queue with readIndex := wrap (r + 1), consumed := s.queue.consumed ++ [data] },
      Function.update s.threads i (.dequeueCount data)⟩ := by
  have hsound := h.sound i
  rw [hi] at hsound
  obtain ⟨hlt, hdata⟩ := hsound.2 hr.symm
  have hmax := h.max_le
  have hwrite := h.write_lt
  have hwrap : wrap (r + 1) = r + 1 := Nat.mod_eq_of_lt (by omega)
  have hconsumed : s.queue.consumed ++ [data] = s.queue.reserved.take (r + 1) := by
    rw [h.consumed, hr, List.take_add_one, hdata]
    rfl
  rw [hwrap]
  apply h.moved (q := { s.queue with readIndex := r + 1, consumed := s.queue.consumed ++ [data] })
    (i := i) (l := .dequeueCount data) ⟨le_rfl, by simp only; omega, le_rfl, fun _ _ h => h⟩
    h.write hconsumed ⟨hlt, hmax, by simp only; omega⟩ trivial
  · exact fun j w' _ hw' => (h.max_le_pending hw').1
  · exact fun j w' _ hw' => absurd hw' (by simp [pendingOf])
  · intro n hlow hhigh _ hothers
    simp only at hlow hhigh
    apply h.stored n (by omega) hhigh
    intro j data'
    by_cases hj : j = i
    · rw [hj, hi]
      simp
    · exact hothers j data' hj

omit [DecidableEq ι] in
/-- The element that is copied is the one to be taken, if no other thread has taken it. -/
theorem Inv.copied (h : Inv Q s) {r : ℕ} (hi : s.threads i = .dequeueCopy r) :
    Sound Q s.queue (.dequeueTake r (s.queue.theQueue (countToIndex Q r))) := by
  have hsound := h.sound i
  rw [hi] at hsound
  refine ⟨hsound.1, ?_⟩
  intro heq
  have hlt := hsound.2 heq
  have hmax := h.max_le
  refine ⟨hlt, h.stored r (by omega) (by omega) ?_⟩
  intro j data hj
  have hle := (h.max_le_pending (j := j) (w := r) (by rw [hj]; rfl)).1
  omega

omit [DecidableEq ι] in
/-- The test of `enqueue` finds the window full, or the thread may reserve the index. -/
theorem Inv.checked (h : Inv Q s) {data : E} {w : ℕ} (hi : s.threads i = .enqueueCheck data w)
    (hfree : countToIndex Q (wrap (w + 1)) ≠ countToIndex Q s.queue.readIndex) :
    Sound Q s.queue (.enqueueReserve data w) := by
  have hsound := h.sound i
  rw [hi] at hsound
  refine ⟨hsound, ?_⟩
  intro heq hbound
  have hlt := h.write_lt
  have hne : w + 1 ≠ s.queue.readIndex + Q := by
    intro hfull
    apply hfree
    rw [wrap, Nat.mod_eq_of_lt hbound, hfull, countToIndex, Nat.add_mod_right]
    rfl
  omega

/-- Each step of a thread keeps the invariant while the counters fit their type. -/
theorem Inv.advance (h : Inv Q s) (i : ι)
    (hbound : (perform Q s (.advance i)).queue.reserved.length < 2 ^ 64) :
    Inv Q (perform Q s (.advance i)) := by
  have hsound := h.sound i
  rw [perform] at hbound ⊢
  cases hi : s.threads i with
  | idle => exact h.stay s.queue.count trivial (.inl rfl) (by simp [hi])
  | enqueueRead data => exact h.stay s.queue.count le_rfl (.inl rfl) (by simp [hi])
  | enqueueCheck data w =>
    simp only [ArrayQueue.advance]
    split
    · exact h.stay s.queue.count trivial (.inl rfl) (by simp [hi])
    · rename_i hfree
      exact h.stay s.queue.count (h.checked hi hfree) (.inl rfl) (by simp [hi])
  | enqueueReserve data w =>
    rw [hi] at hbound
    simp only [ArrayQueue.advance] at hbound ⊢
    split
    · rename_i hw
      rw [if_pos hw] at hbound
      simp only [List.length_append, List.length_singleton, ← h.write, hw] at hbound
      exact h.reserve hi hw hbound
    · exact h.stay s.queue.count trivial (.inl rfl) (by simp [hi])
  | enqueueStore data w => exact h.store hi
  | enqueueCommit w =>
    rw [hi] at hbound hsound
    simp only [ArrayQueue.advance] at hbound ⊢
    split
    · rename_i hw
      rw [if_pos hw, ← h.write] at hbound
      exact h.commit hi hw hbound
    · exact h.stay s.queue.count hsound (.inr (by rw [hi])) (by simp [hi])
  | enqueueCount => exact h.stay (wrap (s.queue.count + 1)) trivial (.inl rfl) (by simp [hi])
  | enqueueReturn result => exact h.stay s.queue.count trivial (.inl rfl) (by simp [hi])
  | dequeueRead => exact h.stay s.queue.count le_rfl (.inl rfl) (by simp [hi])
  | dequeueCheck r =>
    rw [hi] at hsound
    simp only [ArrayQueue.advance]
    split
    · exact h.stay s.queue.count trivial (.inl rfl) (by simp [hi])
    · rename_i hne
      have hcopy : Sound Q s.queue (.dequeueCopy r) := by
        refine ⟨hsound, ?_⟩
        intro heq
        have hle := h.read_le
        have hdiffer : r ≠ s.queue.maximumReadIndex := fun heq => hne (by rw [heq])
        omega
      exact h.stay s.queue.count hcopy (.inl rfl) (by simp [hi])
  | dequeueCopy r => exact h.stay s.queue.count (h.copied hi) (.inl rfl) (by simp [hi])
  | dequeueTake r data =>
    rw [hi] at hbound
    simp only [ArrayQueue.advance] at hbound ⊢
    split
    · rename_i hr
      rw [if_pos hr, ← h.write] at hbound
      exact h.take hi hr hbound
    · exact h.stay s.queue.count trivial (.inl rfl) (by simp [hi])
  | dequeueCount data => exact h.stay (decrement s.queue.count) trivial (.inl rfl) (by simp [hi])
  | dequeueReturn result => exact h.stay s.queue.count trivial (.inl rfl) (by simp [hi])

theorem Inv.perform (h : Inv Q s) (a : Action ι E) (henabled : a.Enabled s)
    (hbound : (perform Q s a).queue.reserved.length < 2 ^ 64) : Inv Q (perform Q s a) := by
  cases a with
  | enqueue i data =>
    have hi : s.threads i = .idle := henabled
    exact h.stay s.queue.count trivial (.inl rfl) (by simp [hi])
  | dequeue i =>
    have hi : s.threads i = .idle := henabled
    exact h.stay s.queue.count trivial (.inl rfl) (by simp [hi])
  | advance i => exact h.advance i hbound

omit [DecidableEq ι] in
theorem reserved_advance (Q : ℕ) (q : Queue E) (l : Point E) :
    (ArrayQueue.advance Q q l).1.reserved = q.reserved ∨
      ∃ data, (ArrayQueue.advance Q q l).1.reserved = q.reserved ++ [data] := by
  cases l with
  | enqueueReserve data w =>
    simp only [ArrayQueue.advance]
    split
    · exact .inr ⟨data, rfl⟩
    · exact .inl rfl
  | enqueueCheck data w =>
    simp only [ArrayQueue.advance]
    split <;> exact .inl rfl
  | enqueueCommit w =>
    simp only [ArrayQueue.advance]
    split <;> simp only [true_or]
  | dequeueCheck r =>
    simp only [ArrayQueue.advance]
    split <;> exact .inl rfl
  | dequeueTake r data =>
    simp only [ArrayQueue.advance]
    split <;> simp only [true_or]
  | _ => simp only [ArrayQueue.advance, true_or]

/-- Reservations are never taken back. -/
theorem reserved_le_perform (Q : ℕ) (s : System ι E) (a : Action ι E) :
    s.queue.reserved.length ≤ (perform Q s a).queue.reserved.length := by
  cases a with
  | enqueue i data => exact le_rfl
  | dequeue i => exact le_rfl
  | advance i =>
    rw [perform]
    obtain hsame | ⟨data, hmore⟩ := reserved_advance Q s.queue (s.threads i)
    · simp only [hsame, le_refl]
    · simp only [hmore, List.length_append]
      exact Nat.le_add_right _ _

omit [DecidableEq ι] in
theorem inv_initial (hQ : 2 ≤ Q) (array : ℕ → E) : Inv Q (initial array : System ι E) where
  write := rfl
  consumed := rfl
  read_le := le_rfl
  max_le := le_rfl
  write_lt := by
    show 0 < 0 + Q
    omega
  sound := fun _ => trivial
  alone := fun _ _ _ hw _ => absurd hw (by simp [initial, pendingOf])
  stored := by
    intro n _ hn _
    exact absurd hn (Nat.not_lt_zero n)

/-- The invariant holds throughout a run with fewer than 2^64 reservations. -/
theorem Run.inv {Allowed : System ι E → Action ι E → Prop} {older : List (System ι E)}
    (hQ : 2 ≤ Q) (h : Run Q Allowed (s :: older)) (hbound : s.queue.reserved.length < 2 ^ 64) :
    Inv Q s := by
  induction older generalizing s with
  | nil =>
    cases h with
    | start array => exact inv_initial hQ array
  | cons t older ih =>
    cases h with
    | @step _ _ a before enabled allowed =>
      have hle := reserved_le_perform Q t a
      exact (ih before (lt_of_le_of_lt hle hbound)).perform a enabled hbound

/-! ## Safety -/

/-- In a run with fewer than 2^64 reservations the counters bound a window of fewer than `Q`
indices, a thread that is about to write to a slot is the only one with its index, which is the
only index of the window with this slot, and the elements taken are the first of those for which
slots were reserved, in the same order. -/
theorem queue_safe {Allowed : System ι E → Action ι E → Prop} {older : List (System ι E)}
    (hQ : 2 ≤ Q) (h : Run Q Allowed (s :: older)) (hbound : s.queue.reserved.length < 2 ^ 64) :
    (s.queue.readIndex ≤ s.queue.maximumReadIndex ∧
      s.queue.maximumReadIndex ≤ s.queue.writeIndex ∧
      s.queue.writeIndex ≤ s.queue.readIndex + Q - 1) ∧
    (∀ i data w, s.threads i = .enqueueStore data w →
      s.queue.readIndex ≤ w ∧ w < s.queue.writeIndex ∧ s.queue.reserved[w]? = some data ∧
        (∀ j, pendingOf (s.threads j) = some w → j = i) ∧
        ∀ n, s.queue.readIndex ≤ n → n < s.queue.writeIndex →
          countToIndex Q n = countToIndex Q w → n = w) ∧
    s.queue.consumed = s.queue.reserved.take s.queue.readIndex ∧
      s.queue.consumed.length = s.queue.readIndex ∧
      s.queue.reserved.length = s.queue.writeIndex := by
  have hinv := h.inv hQ hbound
  have hread := hinv.read_le
  have hmax := hinv.max_le
  have hlt := hinv.write_lt
  have hwrite := hinv.write
  refine ⟨⟨hread, hmax, by omega⟩, ?_, hinv.consumed, ?_, hwrite.symm⟩
  · intro i data w hi
    have hsound := hinv.sound i
    rw [hi] at hsound
    obtain ⟨hlow, hhigh, hdata⟩ := hsound
    refine ⟨le_trans hread hlow, hhigh, hdata, ?_, ?_⟩
    · exact fun j hj => hinv.alone j i w hj (by rw [hi]; rfl)
    · intro n hn hn' hslot
      exact eq_of_slot hlt hn (by omega) (by omega) (by omega) hslot
  · rw [hinv.consumed, List.length_take]
    omega

/-! ## Runs that are played -/

/-- The states of a run after some actions, and those before. -/
def played (Q : ℕ) : List (Action ι E) → System ι E → List (System ι E) → List (System ι E)
  | [], s, older => s :: older
  | a :: rest, s, older => played Q rest (perform Q s a) (s :: older)

/-- Each action can be made where it comes, and is allowed there. -/
def Playable (Q : ℕ) (Allowed : System ι E → Action ι E → Prop) :
    List (Action ι E) → System ι E → Prop
  | [], _ => True
  | a :: rest, s => (a.Enabled s ∧ Allowed s a) ∧ Playable Q Allowed rest (perform Q s a)

instance decidableEnabled [DecidableEq E] (s : System ι E) :
    (a : Action ι E) → Decidable (a.Enabled s)
  | .enqueue i _ => inferInstanceAs (Decidable (s.threads i = .idle))
  | .dequeue i => inferInstanceAs (Decidable (s.threads i = .idle))
  | .advance i => inferInstanceAs (Decidable (s.threads i ≠ .idle))

instance decidablePlayable [DecidableEq E] (Q : ℕ) (Allowed : System ι E → Action ι E → Prop)
    [∀ s a, Decidable (Allowed s a)] :
    (actions : List (Action ι E)) → (s : System ι E) → Decidable (Playable Q Allowed actions s)
  | [], _ => isTrue trivial
  | a :: rest, s =>
    @instDecidableAnd _ _ _ (decidablePlayable Q Allowed rest (perform Q s a))

theorem Run.played {Allowed : System ι E → Action ι E → Prop} {actions : List (Action ι E)}
    {older : List (System ι E)} (h : Run Q Allowed (s :: older))
    (hplayable : Playable Q Allowed actions s) : Run Q Allowed (played Q actions s older) := by
  induction actions generalizing s older with
  | nil => exact h
  | cons a rest ih =>
    obtain ⟨⟨henabled, hallowed⟩, hrest⟩ := hplayable
    exact ih (h.step henabled hallowed) hrest

/-- One thread puts an element into a queue of three slots, another one takes it. -/
def handedOver : List (Action ℕ ℕ) :=
  [.enqueue 0 7] ++ List.replicate 7 (.advance 0) ++ [.dequeue 1] ++ List.replicate 6 (.advance 1)

theorem queue_safe_handedOver : ∃ (s : System ℕ ℕ) (older : List (System ℕ ℕ)),
    Run 3 (fun _ _ => True) (s :: older) ∧ s.queue.readIndex ≤ s.queue.maximumReadIndex ∧
      s.queue.reserved = [7] ∧ s.queue.consumed = s.queue.reserved.take s.queue.readIndex := by
  have hrun : Run 3 (fun _ _ => True) (played 3 handedOver (initial fun _ => 0) []) :=
    Run.played (.start fun _ => 0) (by decide)
  have hsafe := queue_safe (by decide) hrun (by decide)
  exact ⟨_, _, hrun, hsafe.1.1, by decide, hsafe.2.2.1⟩

end CServer.Queues.ArrayQueue
