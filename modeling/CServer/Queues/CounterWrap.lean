import CServer.Foundation.Replies
import Mathlib.Algebra.Group.Nat.Defs
import Mathlib.Data.List.Basic
import Mathlib.Data.Nat.Basic
import Mathlib.Logic.Function.Basic

/-!
# The counters of the array queue

`ArrayLockFreeQueue` with its default size, called by one thread, on a machine whose `unsigned long`
has `w` bits. The counters are reduced by the machine, the slots are found by the remainder modulo the
size. A CAS of a single thread either succeeds at once or never.
-/
namespace CServer.Queues.CounterWrap

open CServer.Runs

/-- `ARRAY_LOCK_FREE_Q_DEFAULT_SIZE`. -/
def qSize : ℕ := 65535

/-- `ArrayLockFreeQueue`. -/
structure Queue (E : Type) where
  theQueue : ℕ → E
  count : ℕ
  writeIndex : ℕ
  readIndex : ℕ
  maximumReadIndex : ℕ

inductive Fault where
  | waits
  deriving DecidableEq

variable {E : Type}

/-- The constructor, with what the slots hold before they are written. -/
def Queue.new (slots : ℕ → E) : Queue E where
  theQueue := slots
  count := 0
  writeIndex := 0
  readIndex := 0
  maximumReadIndex := 0

def countToIndex (count : ℕ) : ℕ := count % qSize

/-- A sum or a difference as the machine computes it. -/
def add (w a b : ℕ) : ℕ := (a + b) % 2 ^ w
def sub (w a b : ℕ) : ℕ := (a + 2 ^ w - b) % 2 ^ w

def Queue.size (w : ℕ) (q : Queue E) : ℕ :=
  if q.writeIndex ≥ q.readIndex then sub w q.writeIndex q.readIndex
  else sub w (add w qSize q.writeIndex) q.readIndex

def Queue.enqueue (w : ℕ) (q : Queue E) (data : E) : Except Fault (Queue E × Bool) :=
  let write := q.writeIndex
  if countToIndex (add w write 1) = countToIndex q.readIndex then return (q, false)
  else
    let q := { q with
      writeIndex := add w write 1
      theQueue := Function.update q.theQueue (countToIndex write) data }
    if q.maximumReadIndex = write then
      return ({ q with maximumReadIndex := add w write 1, count := add w q.count 1 }, true)
    else .error .waits

/-- `dequeue`; the element, or none for the result false. -/
def Queue.dequeue (w : ℕ) (q : Queue E) : Queue E × Option E :=
  if countToIndex q.readIndex = countToIndex q.maximumReadIndex then (q, none)
  else
    ({ q with readIndex := add w q.readIndex 1, count := sub w q.count 1 },
      some (q.theQueue (countToIndex q.readIndex)))

inductive Call (E : Type) where
  | enqueue (data : E)
  | dequeue

/-- What a call returns. -/
inductive Result (E : Type) where
  | enqueued (b : Bool)
  | dequeued (data : Option E)

/-- A call, and `size` after it. -/
def Queue.call (w : ℕ) (q : Queue E) : Call E → Except Fault (Queue E × (Result E × ℕ))
  | .enqueue data => do
    let after ← q.enqueue w data
    return (after.1, .enqueued after.2, after.1.size w)
  | .dequeue =>
    let after := q.dequeue w
    return (after.1, .dequeued after.2, after.1.size w)

/-! ## The queue that is meant -/

/-- The elements in their order, and how many have ever been taken in. -/
structure Bounded (E : Type) where
  contents : List E
  accepted : ℕ

def Bounded.new : Bounded E where
  contents := []
  accepted := 0

def Bounded.step (s : Bounded E) : Call E → Bounded E
  | .enqueue data =>
    if s.contents.length < qSize - 1 then
      { contents := s.contents ++ [data], accepted := s.accepted + 1 }
    else s
  | .dequeue => { s with contents := s.contents.tail }

/-- The result of a call, and the number of elements after it. -/
def Bounded.reply (s : Bounded E) (c : Call E) : Result E × ℕ :=
  match c with
  | .enqueue _ => (.enqueued (s.contents.length < qSize - 1), (s.step c).contents.length)
  | .dequeue => (.dequeued s.contents.head?, (s.step c).contents.length)

/-! ## Before the counters wrap -/

/-- The queue holds the elements, and no counter has wrapped. -/
structure Holds (w : ℕ) (q : Queue E) (s : Bounded E) : Prop where
  length_lt : s.contents.length < qSize
  length_le : s.contents.length ≤ s.accepted
  accepted_lt : s.accepted < 2 ^ w
  writeIndex : q.writeIndex = s.accepted
  readIndex : q.readIndex = s.accepted - s.contents.length
  maximumReadIndex : q.maximumReadIndex = s.accepted
  slots : ∀ k < s.contents.length,
    s.contents[k]? = some (q.theQueue (countToIndex (s.accepted - s.contents.length + k)))

variable {w : ℕ} {q : Queue E} {s : Bounded E} {data : E}

theorem holds_new (slots : ℕ → E) : Holds w (Queue.new slots) Bounded.new where
  length_lt := Nat.zero_lt_succ _
  length_le := le_refl 0
  accepted_lt := Nat.two_pow_pos w
  writeIndex := rfl
  readIndex := rfl
  maximumReadIndex := rfl
  slots k hk := absurd hk (Nat.not_lt_zero k)

/-- Below the range nothing is reduced. -/
theorem add_of_lt {a b : ℕ} (h : a + b < 2 ^ w) : add w a b = a + b := Nat.mod_eq_of_lt h

theorem sub_of_le {a b : ℕ} (hb : b ≤ a) (ha : a < 2 ^ w) : sub w a b = a - b := by
  unfold sub
  rw [Nat.mod_eq_sub_mod (by omega), Nat.mod_eq_of_lt (by omega)]
  omega

theorem Holds.size_eq (h : Holds w q s) : q.size w = s.contents.length := by
  have hle := h.length_le
  have hlt := h.accepted_lt
  unfold Queue.size
  rw [h.writeIndex, h.readIndex, if_pos (by omega), sub_of_le (by omega) (by omega)]
  omega

/-- Counters that are not as far apart as there are slots have different slots. -/
theorem countToIndex_ne {a b : ℕ} (hlt : a < b) (hnear : b < a + qSize) :
    countToIndex a ≠ countToIndex b := by
  unfold countToIndex
  unfold qSize at hnear ⊢
  omega

theorem countToIndex_add_qSize (a : ℕ) : countToIndex (a + qSize) = countToIndex a :=
  Nat.add_mod_right a qSize

/-- The queue is full if and only if the slot behind the last one is the first. -/
theorem Holds.full_iff (h : Holds w q s) (hroom : s.accepted + 1 < 2 ^ w) :
    countToIndex (add w q.writeIndex 1) = countToIndex q.readIndex ↔
      ¬s.contents.length < qSize - 1 := by
  have hle := h.length_le
  have hlt := h.length_lt
  rw [h.writeIndex, h.readIndex, add_of_lt hroom]
  constructor
  · intro heq hshort
    exact countToIndex_ne (by omega) (by omega) heq.symm
  · intro hfull
    have hlast : s.accepted + 1 = s.accepted - s.contents.length + qSize := by omega
    rw [hlast, countToIndex_add_qSize]

theorem Holds.enqueue (h : Holds w q s) (hroom : s.accepted + 1 < 2 ^ w) (data : E) :
    ∃ q', q.enqueue w data = .ok (q', decide (s.contents.length < qSize - 1)) ∧
      Holds w q' (s.step (.enqueue data)) := by
  have hle := h.length_le
  have hlt := h.length_lt
  unfold Queue.enqueue Bounded.step
  by_cases hshort : s.contents.length < qSize - 1
  · have hspace : ¬countToIndex (add w q.writeIndex 1) = countToIndex q.readIndex :=
      fun heq => (h.full_iff hroom).1 heq hshort
    have hcommit : q.maximumReadIndex = q.writeIndex := h.maximumReadIndex.trans h.writeIndex.symm
    simp only [if_neg hspace, if_pos hcommit, if_pos hshort, decide_eq_true hshort]
    refine ⟨_, rfl, ?_⟩
    have hlength : (s.contents ++ [data]).length = s.contents.length + 1 := List.length_append
    have hstart : s.accepted + 1 - (s.contents.length + 1) = s.accepted - s.contents.length := by
      omega
    refine ⟨?_, ?_, hroom, ?_, ?_, ?_, ?_⟩
    · show (s.contents ++ [data]).length < qSize
      omega
    · show (s.contents ++ [data]).length ≤ s.accepted + 1
      omega
    · show add w q.writeIndex 1 = s.accepted + 1
      rw [h.writeIndex, add_of_lt hroom]
    · show q.readIndex = s.accepted + 1 - (s.contents ++ [data]).length
      rw [hlength, hstart, h.readIndex]
    · show add w q.writeIndex 1 = s.accepted + 1
      rw [h.writeIndex, add_of_lt hroom]
    · intro k hk
      show (s.contents ++ [data])[k]? = some (Function.update q.theQueue (countToIndex q.writeIndex)
        data (countToIndex (s.accepted + 1 - (s.contents ++ [data]).length + k)))
      change k < (s.contents ++ [data]).length at hk
      rw [hlength] at hk
      rw [hlength, hstart, h.writeIndex]
      by_cases hlast : k = s.contents.length
      · have hplace : s.accepted - s.contents.length + k = s.accepted := by omega
        rw [hplace, Function.update_self, hlast, List.getElem?_concat_length]
      · have hold : k < s.contents.length := by omega
        rw [Function.update_of_ne (countToIndex_ne (by omega) (by omega)),
          List.getElem?_append_left hold, h.slots k hold]
  · have hfull := (h.full_iff hroom).2 hshort
    simp only [if_pos hfull, if_neg hshort, decide_eq_false hshort]
    exact ⟨q, rfl, h⟩

theorem Holds.dequeue (h : Holds w q s) :
    (q.dequeue w).2 = s.contents.head? ∧ Holds w (q.dequeue w).1 (s.step .dequeue) := by
  have hle := h.length_le
  have hlt := h.length_lt
  have haccepted := h.accepted_lt
  unfold Queue.dequeue Bounded.step
  by_cases hempty : s.contents = []
  · have hsame : countToIndex q.readIndex = countToIndex q.maximumReadIndex := by
      rw [h.readIndex, h.maximumReadIndex, hempty]
      rfl
    rw [if_pos hsame, hempty]
    refine ⟨rfl, ?_⟩
    have hs : s = { contents := [], accepted := s.accepted } := by rw [← hempty]
    rw [hs] at h
    exact h
  · have hpos := List.length_pos_iff.2 hempty
    have hne : ¬countToIndex q.readIndex = countToIndex q.maximumReadIndex := by
      rw [h.readIndex, h.maximumReadIndex]
      exact countToIndex_ne (by omega) (by omega)
    rw [if_neg hne]
    refine ⟨?_, ?_, ?_, haccepted, h.writeIndex, ?_, h.maximumReadIndex, ?_⟩
    · have hslot := h.slots 0 hpos
      rw [List.head?_eq_getElem?, hslot, h.readIndex]
      rfl
    · show s.contents.tail.length < qSize
      rw [List.length_tail]
      omega
    · show s.contents.tail.length ≤ s.accepted
      rw [List.length_tail]
      omega
    · show add w q.readIndex 1 = s.accepted - s.contents.tail.length
      rw [h.readIndex, add_of_lt (by omega), List.length_tail]
      omega
    · intro k hk
      show s.contents.tail[k]? = some (q.theQueue
        (countToIndex (s.accepted - s.contents.tail.length + k)))
      change k < s.contents.tail.length at hk
      rw [List.length_tail] at hk
      have hplace : s.accepted - s.contents.tail.length + k =
          s.accepted - s.contents.length + (k + 1) := by
        rw [List.length_tail]
        omega
      rw [List.getElem?_tail, h.slots (k + 1) (by omega), hplace]

/-! ## When a counter wraps -/

/-- The counters may take in another element. -/
def Allowed (w : ℕ) (s : Bounded E) : Call E → Prop
  | .enqueue _ => s.accepted + 1 < 2 ^ w
  | .dequeue => True

theorem Holds.call {c : Call E} (h : Holds w q s) (hc : Allowed w s c) :
    ∃ q', q.call w c = .ok (q', s.reply c) ∧ Holds w q' (s.step c) := by
  cases c with
  | enqueue data =>
    obtain ⟨q', henqueue, hq'⟩ := h.enqueue hc data
    refine ⟨q', ?_, hq'⟩
    show (q.enqueue w data >>= _) = _
    rw [henqueue, ok_bind]
    show Except.ok (q', Result.enqueued _, q'.size w) = _
    rw [hq'.size_eq]
    rfl
  | dequeue =>
    obtain ⟨hdata, hq'⟩ := h.dequeue
    refine ⟨_, ?_, hq'⟩
    show Except.ok (_, Result.dequeued _, (q.dequeue w).1.size w) = _
    rw [hdata, hq'.size_eq]
    rfl

/-- The sizes of a counter for which the slots start anew one place too early. -/
structure Range (w : ℕ) : Prop where
  mod : 2 ^ w % qSize = 1
  lt : 2 * qSize < 2 ^ w

theorem range_of_eq (hw : w = 32 ∨ w = 64) : Range w := by
  obtain rfl | rfl := hw
  · exact ⟨by decide, by decide⟩
  · exact ⟨by decide, by decide⟩

/-- With the counters at the end, an element is refused if and only if the queue is empty. -/
theorem Holds.full_iff_of_last (h : Holds w q s) (hw : Range w) (hlast : s.accepted + 1 = 2 ^ w) :
    countToIndex (add w q.writeIndex 1) = countToIndex q.readIndex ↔ s.contents.length = 0 := by
  have hle := h.length_le
  have hlt := h.length_lt
  have hmod := hw.mod
  have hzero : add w q.writeIndex 1 = 0 := by
    unfold add
    rw [h.writeIndex, hlast, Nat.mod_self]
  rw [hzero, h.readIndex]
  unfold countToIndex
  unfold qSize at hlt hmod ⊢
  omega

/-- The size is too large by the number of slots when the element that makes the counter wrap is not
alone. -/
theorem size_of_wrapped (hw : Range w) {n : ℕ} (hpos : 0 < n) (hn : n < qSize)
    (hwrite : q.writeIndex = 0) (hread : q.readIndex + n + 1 = 2 ^ w) :
    q.size w = qSize + n + 1 := by
  have hlt := hw.lt
  have hadd : add w qSize q.writeIndex = qSize := by
    rw [hwrite, add_of_lt (by omega), Nat.add_zero]
  have hsum : qSize + 2 ^ w - q.readIndex = qSize + n + 1 := by omega
  unfold Queue.size
  rw [if_neg (by omega), hadd]
  unfold sub
  rw [hsum, Nat.mod_eq_of_lt (by omega)]

/-- What `enqueue` does with the counters at the end. -/
theorem Holds.enqueue_of_last (h : Holds w q s) (hw : Range w) (hlast : s.accepted + 1 = 2 ^ w)
    (data : E) :
    (s.contents.length = 0 ∧ q.enqueue w data = .ok (q, false)) ∨
      (0 < s.contents.length ∧ ∃ q', q.enqueue w data = .ok (q', true) ∧
        q'.size w = qSize + s.contents.length + 1) := by
  have hle := h.length_le
  have hiff := h.full_iff_of_last hw hlast
  by_cases hempty : s.contents.length = 0
  · exact Or.inl ⟨hempty, if_pos (hiff.2 hempty)⟩
  · have hpos := Nat.pos_of_ne_zero hempty
    have hcommit : q.maximumReadIndex = q.writeIndex := h.maximumReadIndex.trans h.writeIndex.symm
    refine Or.inr ⟨hpos, _, (if_neg fun heq => hempty (hiff.1 heq)).trans (if_pos hcommit), ?_⟩
    refine size_of_wrapped hw hpos h.length_lt ?_ ?_
    · show (q.writeIndex + 1) % 2 ^ w = 0
      rw [h.writeIndex, hlast, Nat.mod_self]
    · show q.readIndex + s.contents.length + 1 = 2 ^ w
      rw [h.readIndex]
      omega

/-- The call for which a counter wraps has not the reply that is meant. -/
theorem Holds.call_ne {c : Call E} (h : Holds w q s) (hw : Range w) (hc : ¬Allowed w s c)
    (q' : Queue E) : q.call w c ≠ .ok (q', s.reply c) := by
  cases c with
  | dequeue => exact absurd trivial hc
  | enqueue data =>
    have hlast : s.accepted + 1 = 2 ^ w := Nat.le_antisymm h.accepted_lt (Nat.le_of_not_lt hc)
    intro hcall
    obtain ⟨⟨after, b⟩, henqueue, heq⟩ := bind_eq_ok hcall
    have hreply : (Result.enqueued b, after.size w) = s.reply (.enqueue data) :=
      congrArg Prod.snd (Except.ok.inj heq)
    obtain ⟨hresult, hsize⟩ := Prod.mk.inj hreply
    have hbool : b = decide (s.contents.length < qSize - 1) := Result.enqueued.inj hresult
    obtain ⟨hempty, hrefused⟩ | ⟨hpos, q'', haccepted, hwrapped⟩ := h.enqueue_of_last hw hlast data
    · -- The empty queue refuses the element.
      rw [hrefused] at henqueue
      obtain ⟨rfl, rfl⟩ := Prod.mk.inj (Except.ok.inj henqueue)
      rw [hempty] at hbool
      exact absurd hbool (by decide)
    · rw [haccepted] at henqueue
      obtain ⟨rfl, rfl⟩ := Prod.mk.inj (Except.ok.inj henqueue)
      by_cases hshort : s.contents.length < qSize - 1
      · -- The element is taken in, and the size is wrong.
        rw [Bounded.step, if_pos hshort, hwrapped] at hsize
        have hlength : (s.contents ++ [data]).length = s.contents.length + 1 := List.length_append
        change qSize + s.contents.length + 1 = (s.contents ++ [data]).length at hsize
        unfold qSize at hsize
        omega
      · -- The full queue takes the element in.
        rw [decide_eq_false hshort] at hbool
        exact absurd hbool (by decide)

theorem run_iff (hw : Range w) (slots : ℕ → E) (calls : List (Call E)) :
    replies (Queue.call w) (Queue.new slots) calls =
        .ok (meant Bounded.step Bounded.reply Bounded.new calls) ↔
      Along Bounded.step (Allowed w) Bounded.new calls :=
  replies_eq_iff (fun _ _ _ h hc => h.call hc) (fun _ _ _ h hc => h.call_ne hw hc) (holds_new slots)
    calls

/-- The results and the sizes are those of a bounded queue if and only if `enqueue` is not called
when all values of the counters have been used. -/
theorem counters_iff (w : ℕ) (hw : w = 32 ∨ w = 64) (slots : ℕ → E) (calls : List (Call E)) :
    replies (Queue.call w) (Queue.new slots) calls =
        .ok (meant Bounded.step Bounded.reply Bounded.new calls) ↔
      Along Bounded.step (Allowed w) Bounded.new calls :=
  run_iff (range_of_eq hw) slots calls

theorem counters_iff_two : replies (Queue.call 32) (Queue.new fun _ => 0) [.enqueue 7, .dequeue] =
      .ok (meant Bounded.step Bounded.reply Bounded.new [.enqueue 7, .dequeue]) ↔
    Along Bounded.step (Allowed 32) Bounded.new [.enqueue 7, .dequeue] :=
  counters_iff 32 (Or.inl rfl) (fun _ => 0) [.enqueue 7, .dequeue]

/-- Elements go in and out one by one. -/
def pairs : ℕ → List (Call ℕ)
  | 0 => []
  | n + 1 => pairs n ++ [.enqueue n, .dequeue]

theorem finalState_pairs (n : ℕ) :
    finalState Bounded.step Bounded.new (pairs n) = { contents := [], accepted := n } := by
  induction n with
  | zero => rfl
  | succ n ih =>
    rw [pairs, finalState, List.foldl_append]
    change [Call.enqueue n, .dequeue].foldl Bounded.step
      (finalState Bounded.step Bounded.new (pairs n)) = _
    rw [ih]
    rfl

theorem not_allowed_pairs {n : ℕ} (hn : n + 1 = 2 ^ w) :
    ¬Along Bounded.step (Allowed w) Bounded.new (pairs n ++ [.enqueue 7]) := by
  intro hruns
  have hlast := (along_append.1 hruns).2.1
  rw [finalState_pairs] at hlast
  exact Nat.ne_of_lt hlast hn

/-- Behind the last value of a counter of 32 bits, the empty queue refuses an element. -/
theorem counters_wrap : ¬∀ (w : ℕ), w = 32 ∨ w = 64 → ∀ (slots : ℕ → ℕ) (calls : List (Call ℕ)),
    replies (Queue.call w) (Queue.new slots) calls =
      .ok (meant Bounded.step Bounded.reply Bounded.new calls) := by
  intro h
  obtain ⟨n, hn⟩ : ∃ n, n + 1 = 2 ^ 32 := ⟨2 ^ 32 - 1, Nat.sub_add_cancel (Nat.two_pow_pos 32)⟩
  have hcalls := h 32 (Or.inl rfl) (fun _ => 0) (pairs n ++ [.enqueue 7])
  exact not_allowed_pairs hn ((run_iff (range_of_eq (Or.inl rfl)) (fun _ => 0) _).1 hcalls)

end CServer.Queues.CounterWrap
