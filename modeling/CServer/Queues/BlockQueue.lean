import Mathlib.Data.List.Basic
import Mathlib.Data.List.Nodup

/-!
# The blocking queue of the test

`BlockQueue` of 4_test_lock_free_queue.cpp, called by any number of threads. What a thread does while
it holds the mutex is one event. A thread that waits on the condition leaves it when `Enqueue` or
`Abort` tells it to, when its time is over, or for no reason, and then has to get the mutex back.
-/
namespace CServer.Queues.BlockQueue

/-- The results -1, 0 and 1 of `Dequeue`. -/
inductive Answer (E : Type) where
  | abortRequest
  | timeout
  | got (val : E)
  deriving DecidableEq

/-- The members of the object, the threads that wait on the condition, those that have left it and
are on their way to the mutex, all that was ever pushed and all results in order. -/
structure System (T E : Type) where
  queue : List E
  abortRequest : Bool
  waiting : List T
  woken : List T
  pushed : List E
  answers : List (T × Answer E)

variable {T E : Type}

def System.new : System T E := ⟨[], false, [], [], [], []⟩

/-- `Dequeue` behind the wait. -/
def System.finish (s : System T E) (t : T) : System T E :=
  if s.abortRequest then { s with answers := s.answers ++ [(t, .abortRequest)] }
  else
    match s.queue with
    | [] => { s with answers := s.answers ++ [(t, .timeout)] }
    | val :: queue => { s with queue := queue, answers := s.answers ++ [(t, .got val)] }

inductive Event (T E : Type) where
  /-- `Enqueue`, and the thread that `notify_one` picks. -/
  | enqueue (val : E) (told : Option T)
  /-- A call of `Dequeue`, up to its end or to the wait. -/
  | dequeue (t : T)
  /-- A thread leaves the condition without being told. -/
  | wake (t : T)
  /-- A thread has the mutex back; `late` says whether its time is over. -/
  | resume (t : T) (late : Bool)
  | abort

/-- An event that is possible, and the state behind it. -/
def perform [DecidableEq T] (s : System T E) : Event T E → Option (System T E)
  | .enqueue val told =>
    let s := { s with queue := s.queue ++ [val], pushed := s.pushed ++ [val] }
    match told with
    | none => if s.waiting.isEmpty then some s else none
    | some t =>
      if t ∈ s.waiting then some { s with waiting := s.waiting.erase t, woken := t :: s.woken }
      else none
  | .dequeue t =>
    if t ∈ s.waiting ∨ t ∈ s.woken then none
    else if s.queue.isEmpty ∧ s.abortRequest = false then some { s with waiting := t :: s.waiting }
    else some (s.finish t)
  | .wake t =>
    if t ∈ s.waiting then some { s with waiting := s.waiting.erase t, woken := t :: s.woken }
    else none
  | .resume t late =>
    if t ∈ s.woken then
      let s := { s with woken := s.woken.erase t }
      -- the predicate of the wait
      if (!s.queue.isEmpty || s.abortRequest) || late then some (s.finish t)
      else some { s with waiting := t :: s.waiting }
    else none
  | .abort => some { s with abortRequest := true, waiting := [], woken := s.waiting ++ s.woken }

inductive Reached [DecidableEq T] : System T E → Prop where
  | start : Reached .new
  | step {s s' : System T E} (e : Event T E) (h : Reached s) (result : perform s e = some s') :
    Reached s'

variable {s s' : System T E} {t : T} {e : Event T E} {val : E}

/-- The elements that were handed out, in order. -/
def received (answers : List (T × Answer E)) : List E :=
  answers.filterMap fun
    | (_, .got val) => some val
    | _ => none

@[simp] theorem received_append (answers more : List (T × Answer E)) :
    received (answers ++ more) = received answers ++ received more := List.filterMap_append

@[simp] theorem received_got : received [(t, Answer.got val)] = [val] := rfl

@[simp] theorem received_timeout : received [(t, (Answer.timeout : Answer E))] = [] := rfl

@[simp] theorem received_abortRequest : received [(t, (Answer.abortRequest : Answer E))] = [] := rfl

/-- Once a result is -1, all are. -/
def Aborting (answers : List (T × Answer E)) : Prop :=
  answers.Pairwise fun a b => a.2 = .abortRequest → b.2 = .abortRequest

theorem Aborting.append_of_none {answers : List (T × Answer E)} {a : T × Answer E}
    (h : ∀ b ∈ answers, b.2 ≠ .abortRequest) (hs : Aborting answers) : Aborting (answers ++ [a]) := by
  refine List.pairwise_append.mpr ⟨hs, List.pairwise_singleton _ _, fun b hb c _ hab => ?_⟩
  exact absurd hab (h b hb)

theorem Aborting.append_abortRequest {answers : List (T × Answer E)} (hs : Aborting answers) :
    Aborting (answers ++ [(t, .abortRequest)]) := by
  refine List.pairwise_append.mpr ⟨hs, List.pairwise_singleton _ _, fun b _ c hc _ => ?_⟩
  rw [List.mem_singleton.mp hc]

/-- What holds of every state reached; of the threads on their way to the mutex, `running` more may
be counted. -/
structure Inv (running : ℕ) (s : System T E) : Prop where
  order : received s.answers ++ s.queue = s.pushed
  aborting : Aborting s.answers
  before : s.abortRequest = false → ∀ a ∈ s.answers, a.2 ≠ .abortRequest
  calm : s.abortRequest = true → s.waiting = []
  wakes : s.waiting ≠ [] → s.queue.length ≤ s.woken.length + running
  apart : (s.waiting ++ s.woken).Nodup

theorem Inv.new : Inv 0 (.new : System T E) where
  order := rfl
  aborting := List.Pairwise.nil
  before _ _ ha := absurd ha List.not_mem_nil
  calm _ := rfl
  wakes h := absurd rfl h
  apart := List.nodup_nil

theorem Inv.mono {running running' : ℕ} (h : Inv running s) (hle : running ≤ running') :
    Inv running' s :=
  { h with wakes := fun hwaiting => Nat.le_trans (h.wakes hwaiting) (Nat.add_le_add_left hle _) }

theorem Inv.answered (h : Inv 1 s) (hopen : s.abortRequest = false) {a : T × Answer E}
    (ha : a.2 ≠ .abortRequest) :
    Aborting (s.answers ++ [a]) ∧ ∀ b ∈ s.answers ++ [a], b.2 ≠ .abortRequest := by
  refine ⟨h.aborting.append_of_none (h.before hopen), fun b hb => ?_⟩
  rcases List.mem_append.mp hb with hold | hnew
  · exact h.before hopen b hold
  · rwa [List.mem_singleton.mp hnew]

/-- A thread that has the mutex behind the wait takes the first element, if there is one. -/
theorem Inv.finish (h : Inv 1 s) : Inv 0 (s.finish t) := by
  rw [System.finish]
  split
  · rename_i habort
    exact { h with
      order := by rw [received_append, received_abortRequest, List.append_nil, h.order]
      aborting := h.aborting.append_abortRequest
      before := fun hopen => absurd habort (Bool.eq_false_iff.mp hopen)
      wakes := fun hwaiting => absurd (h.calm habort) hwaiting }
  · rename_i hopen
    have hopen : s.abortRequest = false := Bool.eq_false_iff.mpr hopen
    split
    · rename_i hqueue
      have hanswers := h.answered hopen (show (t, (Answer.timeout : Answer E)).2 ≠ _ from nofun)
      exact { h with
        order := by rw [received_append, received_timeout, List.append_nil, h.order]
        aborting := hanswers.1
        before := fun _ => hanswers.2
        wakes := fun _ => by
          show s.queue.length ≤ _
          rw [hqueue]
          exact Nat.zero_le _ }
    · rename_i val queue hqueue
      have hanswers := h.answered hopen (show (t, Answer.got val).2 ≠ _ from nofun)
      exact { h with
        order := by
          rw [received_append, received_got, List.append_assoc, ← h.order, hqueue]
          rfl
        aborting := hanswers.1
        before := fun _ => hanswers.2
        wakes := fun hwaiting => by
          have hroom := h.wakes hwaiting
          rw [hqueue, List.length_cons] at hroom
          exact Nat.le_of_succ_le_succ hroom }

/-- A thread starts to wait. -/
theorem Inv.sleep (h : Inv 1 s) (hqueue : s.queue = []) (hopen : s.abortRequest = false)
    (hfree : t ∉ s.waiting ++ s.woken) : Inv 0 { s with waiting := t :: s.waiting } :=
  { h with
    calm := fun habort => absurd habort (Bool.eq_false_iff.mp hopen)
    wakes := fun _ => by
      show s.queue.length ≤ _
      rw [hqueue]
      exact Nat.zero_le _
    apart := List.nodup_cons.mpr ⟨hfree, h.apart⟩ }

theorem Inv.push (h : Inv 0 s) (hroom : s.waiting ≠ [] → s.queue.length + 1 ≤ s.woken.length) :
    Inv 0 { s with queue := s.queue ++ [val], pushed := s.pushed ++ [val] } :=
  { h with
    order := by
      show _ ++ (s.queue ++ [val]) = s.pushed ++ [val]
      rw [← List.append_assoc, h.order]
    wakes := fun hwaiting => by
      show (s.queue ++ [val]).length ≤ _
      rw [List.length_append]
      exact hroom hwaiting }

variable [DecidableEq T]

/-- A thread leaves the condition. -/
theorem Inv.leave (h : Inv 0 s) (ht : t ∈ s.waiting) :
    Inv 0 { s with waiting := s.waiting.erase t, woken := t :: s.woken } where
  order := h.order
  aborting := h.aborting
  before := h.before
  calm habort := absurd ht (by rw [h.calm habort]; exact List.not_mem_nil)
  wakes _ := Nat.le_trans (h.wakes (List.ne_nil_of_mem ht)) (Nat.le_succ _)
  apart := by
    have hperm : (s.waiting.erase t ++ t :: s.woken).Perm (s.waiting ++ s.woken) :=
      List.perm_middle.trans ((List.perm_cons_erase ht).symm.append_right s.woken)
    exact hperm.nodup_iff.mpr h.apart

/-- A thread has the mutex back. -/
theorem Inv.running (h : Inv 0 s) (ht : t ∈ s.woken) :
    Inv 1 { s with woken := s.woken.erase t } ∧ t ∉ s.waiting ++ s.woken.erase t := by
  have hlength := List.length_erase_of_mem ht
  have hpos := List.length_pos_of_mem ht
  have hperm : (s.waiting ++ s.woken).Perm (t :: (s.waiting ++ s.woken.erase t)) :=
    ((List.perm_cons_erase ht).append_left s.waiting).trans List.perm_middle
  obtain ⟨hfree, hapart⟩ := List.nodup_cons.mp (hperm.nodup_iff.mp h.apart)
  refine ⟨{ h with wakes := fun hwaiting => ?_, apart := hapart }, hfree⟩
  have hroom := h.wakes hwaiting
  show s.queue.length ≤ (s.woken.erase t).length + 1
  omega

theorem Inv.perform (h : Inv 0 s) (hresult : perform s e = some s') : Inv 0 s' := by
  cases e with
  | enqueue val told =>
    cases told with
    | none =>
      simp only [BlockQueue.perform] at hresult
      split at hresult
      · rename_i hnobody
        obtain rfl := Option.some.inj hresult
        exact h.push fun hwaiting => absurd (List.isEmpty_iff.mp hnobody) hwaiting
      · exact absurd hresult nofun
    | some t =>
      simp only [BlockQueue.perform] at hresult
      split at hresult
      · rename_i ht
        obtain rfl := Option.some.inj hresult
        exact (h.leave ht).push fun _ => Nat.succ_le_succ (h.wakes (List.ne_nil_of_mem ht))
      · exact absurd hresult nofun
  | dequeue t =>
    simp only [BlockQueue.perform] at hresult
    split at hresult
    · exact absurd hresult nofun
    · rename_i hfree
      split at hresult
      · rename_i hempty
        obtain rfl := Option.some.inj hresult
        exact (h.mono (Nat.zero_le 1)).sleep (List.isEmpty_iff.mp hempty.1) hempty.2
          (by rwa [List.mem_append])
      · obtain rfl := Option.some.inj hresult
        exact (h.mono (Nat.zero_le 1)).finish
  | wake t =>
    simp only [BlockQueue.perform] at hresult
    split at hresult
    · rename_i ht
      obtain rfl := Option.some.inj hresult
      exact h.leave ht
    · exact absurd hresult nofun
  | resume t late =>
    simp only [BlockQueue.perform] at hresult
    split at hresult
    · rename_i ht
      obtain ⟨hrunning, hfree⟩ := h.running ht
      split at hresult
      · obtain rfl := Option.some.inj hresult
        exact hrunning.finish
      · rename_i hagain
        obtain rfl := Option.some.inj hresult
        simp only [Bool.or_eq_true, Bool.not_eq_true', not_or, Bool.not_eq_false,
          Bool.not_eq_true] at hagain
        exact hrunning.sleep (List.isEmpty_iff.mp hagain.1.1) hagain.1.2 hfree
    · exact absurd hresult nofun
  | abort =>
    obtain rfl := Option.some.inj hresult
    exact { h with
      before := nofun
      calm := fun _ => rfl
      wakes := fun hwaiting => absurd rfl hwaiting
      apart := h.apart }

theorem Reached.inv (h : Reached s) : Inv 0 s := by
  induction h with
  | start => exact .new
  | step e _ result ih => exact ih.perform result

/-- Only a thread behind the wait answers. -/
theorem perform_answers (hresult : perform s e = some s') : s'.answers = s.answers ∨
    ∃ (before : System T E) (u : T), before.queue = s.queue ∧ before.abortRequest = s.abortRequest ∧
      before.answers = s.answers ∧ s' = before.finish u := by
  cases e with
  | enqueue val told =>
    cases told with
    | none =>
      simp only [perform, Option.ite_none_right_eq_some, Option.some.injEq] at hresult
      obtain ⟨-, rfl⟩ := hresult
      exact .inl rfl
    | some t =>
      simp only [perform, Option.ite_none_right_eq_some, Option.some.injEq] at hresult
      obtain ⟨-, rfl⟩ := hresult
      exact .inl rfl
  | dequeue t =>
    simp only [perform, Option.ite_none_left_eq_some] at hresult
    obtain ⟨-, hresult⟩ := hresult
    split at hresult
    · obtain rfl := Option.some.inj hresult
      exact .inl rfl
    · obtain rfl := Option.some.inj hresult
      exact .inr ⟨s, t, rfl, rfl, rfl, rfl⟩
  | wake t =>
    simp only [perform, Option.ite_none_right_eq_some, Option.some.injEq] at hresult
    obtain ⟨-, rfl⟩ := hresult
    exact .inl rfl
  | resume t late =>
    simp only [perform, Option.ite_none_right_eq_some] at hresult
    obtain ⟨-, hresult⟩ := hresult
    split at hresult
    · obtain rfl := Option.some.inj hresult
      exact .inr ⟨{ s with woken := s.woken.erase t }, t, rfl, rfl, rfl, rfl⟩
    · obtain rfl := Option.some.inj hresult
      exact .inl rfl
  | abort =>
    obtain rfl := Option.some.inj hresult
    exact .inl rfl

omit [DecidableEq T] in
theorem finish_timeout {u : T} (h : (s.finish t).answers = s.answers ++ [(u, .timeout)]) :
    s.queue = [] ∧ s.abortRequest = false := by
  rw [System.finish] at h
  split at h
  · exact absurd (List.append_cancel_left h) nofun
  · rename_i hopen
    split at h
    · rename_i hqueue
      exact ⟨hqueue, Bool.eq_false_iff.mpr hopen⟩
    · exact absurd (List.append_cancel_left h) nofun

/-! ## The results -/

/-- Any number of threads, in every run: the elements are handed out in the order in which they were
pushed, each to one call; -1 is answered only after `Abort`, and from its first time on nothing else
is; and a call that answers 0 finds the queue empty. -/
theorem blockQueue_in_order (h : Reached s) :
    received s.answers ++ s.queue = s.pushed ∧ Aborting s.answers ∧
      (s.abortRequest = false → ∀ a ∈ s.answers, a.2 ≠ .abortRequest) ∧
      ∀ e s' t, perform s e = some s' → s'.answers = s.answers ++ [(t, .timeout)] →
        s.queue = [] ∧ s.abortRequest = false := by
  refine ⟨h.inv.order, h.inv.aborting, h.inv.before, fun e s' t hresult hanswer => ?_⟩
  obtain hsame | ⟨before, u, hqueue, habort, hanswers, rfl⟩ := perform_answers hresult
  · rw [hsame] at hanswer
    exact absurd hanswer (by simp)
  · rw [← hqueue, ← habort]
    exact finish_timeout (hanswer.trans (by rw [hanswers]))

/-- Two elements and a thread that waited for the first. -/
theorem blockQueue_in_order_two : ∃ s : System ℕ ℕ, Reached s ∧ s.pushed = [7, 8] ∧
    received s.answers ++ s.queue = s.pushed ∧ s.answers = [(0, .got 7)] := by
  have hwaits := Reached.step (.dequeue 0) (.start : Reached (.new : System ℕ ℕ)) rfl
  have hfirst := Reached.step (.enqueue 7 (some 0)) hwaits rfl
  have hsecond := Reached.step (.enqueue 8 none) hfirst rfl
  have htaken := Reached.step (.resume 0 false) hsecond rfl
  exact ⟨_, htaken, rfl, (blockQueue_in_order htaken).1, rfl⟩

/-- In every run no thread waits after `Abort`, and while any thread waits the others that are on
their way to the mutex are at least as many as the elements; the first of them to get it takes the
first element, whether its time is over or not. -/
theorem blockQueue_wakes (h : Reached s) :
    (s.abortRequest = true → s.waiting = []) ∧
      (s.waiting ≠ [] → s.queue.length ≤ s.woken.length) ∧
      ∀ val queue, s.queue = val :: queue → s.abortRequest = false → ∀ t ∈ s.woken, ∀ late,
        perform s (.resume t late) = some { s with
          queue := queue, woken := s.woken.erase t, answers := s.answers ++ [(t, .got val)] } := by
  refine ⟨h.inv.calm, h.inv.wakes, fun val queue hqueue hopen t ht late => ?_⟩
  simp [perform, ht, hqueue, hopen, System.finish]

/-- One of two threads is told. -/
theorem blockQueue_wakes_two : ∃ s : System ℕ ℕ, Reached s ∧ s.waiting = [1] ∧ s.queue = [7] ∧
    s.queue.length ≤ s.woken.length := by
  have hone := Reached.step (.dequeue 0) (.start : Reached (.new : System ℕ ℕ)) rfl
  have htwo := Reached.step (.dequeue 1) hone rfl
  have htold := Reached.step (.enqueue 7 (some 0)) htwo rfl
  exact ⟨_, htold, rfl, rfl, (blockQueue_wakes htold).2.1 nofun⟩

end CServer.Queues.BlockQueue
