import CServer.Foundation.Runs
import Mathlib.Algebra.Order.BigOperators.Group.List
import Mathlib.Algebra.Order.Group.Nat
import Mathlib.Algebra.Group.Nat.Defs
import Mathlib.Algebra.GroupWithZero.Nat
import Mathlib.Algebra.Ring.Int.Defs
import Mathlib.Data.List.Forall2
import Mathlib.Data.List.Range
import Mathlib.Data.List.Nodup
import Mathlib.Logic.Function.Basic

/-!
# Tickets from a shared counter

`lxx_atomic_add(&c, 1)` of 4_test_lock_free_queue.cpp, called by any number of threads. The
`lock xadd` and the read of `c` that follows it are steps of their own; what the function reads first
and what `xadd` leaves in the register is not used. The state counts the calls, and remembers for each thread
between its two steps the number of its call.
-/
namespace CServer.Queues.Tickets

open CServer.Runs

variable {T : Type} [DecidableEq T]

/-- The counter, the values that were returned, the number of calls that have made their first step,
and for each thread that has to make its second one the number of its call. -/
structure State (T : Type) where
  counter : Int32
  returned : List Int32
  calls : ℕ
  ticket : T → Option ℕ

def start (counter : Int32) : State T where
  counter := counter
  returned := []
  calls := 0
  ticket _ := none

/-- The two steps of a call. -/
inductive Event (T : Type) where
  | xadd (t : T)
  | read (t : T)

def step (s : State T) : Event T → State T
  | .xadd t => { s with
      counter := s.counter + 1
      calls := s.calls + 1
      ticket := Function.update s.ticket t (some (s.calls + 1)) }
  | .read t => { s with
      returned := s.returned ++ [s.counter]
      ticket := Function.update s.ticket t none }

/-- A thread makes the two steps of its calls in turn. -/
def Enabled (s : State T) : Event T → Prop
  | .xadd t => s.ticket t = none
  | .read t => s.ticket t ≠ none

/-- A thread reads before any other has made the first step of a call after its own. -/
def Undisturbed (s : State T) : Event T → Prop
  | .xadd _ => True
  | .read t => s.ticket t = some s.calls

/-! ## The counter -/

theorem ofInt_add_one (n : ℤ) : Int32.ofInt n + 1 = Int32.ofInt (n + 1) := (Int32.ofInt_add n 1).symm

/-- Numbers that are less than the range of an `int` apart have different values. -/
theorem ofInt_inj {m n : ℤ} (hle : m ≤ n) (hlt : n < m + 2 ^ 32)
    (h : Int32.ofInt m = Int32.ofInt n) : m = n := by
  have htoInt := congrArg Int32.toInt h
  rw [Int32.toInt_ofInt, Int32.toInt_ofInt, Int.bmod_eq_bmod_iff_bmod_sub_eq_zero] at htoInt
  obtain ⟨k, hk⟩ := Int.dvd_of_bmod_eq_zero htoInt
  have hsize : (Int32.size : ℤ) = 2 ^ 32 := rfl
  rw [hsize] at hk
  omega

/-- A number is the value of the `int` made from it if and only if it is in the range. -/
theorem toInt_ofInt_eq_iff {n : ℤ} (hle : -2 ^ 31 ≤ n) : (Int32.ofInt n).toInt = n ↔ n < 2 ^ 31 := by
  constructor
  · intro h
    have hlt := Int32.toInt_lt (Int32.ofInt n)
    omega
  · intro hlt
    exact Int32.toInt_ofInt_of_le hle hlt

/-! ## Tickets and what is returned for them -/

/-- The calls that have returned, in their order: the numbers of the calls, and for each the number of
calls that had made their first step when it read. -/
structure Served (s : State T) (init : Int32) (tickets reads : List ℕ) : Prop where
  counter : s.counter = Int32.ofInt (init.toInt + s.calls)
  returned : s.returned = reads.map fun n => Int32.ofInt (init.toInt + (n : ℕ))
  le : List.Forall₂ (· ≤ ·) tickets reads
  reads_le : ∀ n ∈ reads, 1 ≤ n ∧ n ≤ s.calls
  nodup : tickets.Nodup
  mem_iff : ∀ n, (n ∈ tickets ∨ ∃ t, s.ticket t = some n) ↔ 1 ≤ n ∧ n ≤ s.calls
  pending : ∀ t n, s.ticket t = some n → n ∉ tickets
  distinct : ∀ t t' n, s.ticket t = some n → s.ticket t' = some n → t = t'

omit [DecidableEq T] in
theorem served_start (init : Int32) : Served (start init : State T) init [] [] where
  counter := by simp [start]
  returned := rfl
  le := .nil
  reads_le := by simp
  nodup := List.nodup_nil
  mem_iff n := by
    simp only [start, List.not_mem_nil, reduceCtorEq, exists_false, or_self, false_iff]
    omega
  pending t n h := by simp [start] at h
  distinct t t' n h := by simp [start] at h

variable {s : State T} {init : Int32} {tickets reads : List ℕ} {t : T}

omit [DecidableEq T] in
/-- No call has a number above those that have been given. -/
theorem Served.not_served (h : Served s init tickets reads) {n : ℕ} (hn : s.calls < n) :
    n ∉ tickets ∧ ∀ t, s.ticket t ≠ some n := by
  constructor
  · intro hmem
    have hle := (h.mem_iff n).1 (Or.inl hmem)
    omega
  · intro t ht
    have hle := (h.mem_iff n).1 (Or.inr ⟨t, ht⟩)
    omega

theorem Served.xadd (h : Served s init tickets reads) (ht : s.ticket t = none) :
    Served (step s (.xadd t)) init tickets reads where
  counter := by
    show s.counter + 1 = _
    rw [h.counter, ofInt_add_one]
    show _ = Int32.ofInt (init.toInt + ((s.calls + 1 : ℕ) : ℤ))
    rw [Nat.cast_add, Nat.cast_one, add_assoc]
  returned := h.returned
  le := h.le
  reads_le n hn := ⟨(h.reads_le n hn).1, Nat.le_succ_of_le (h.reads_le n hn).2⟩
  nodup := h.nodup
  mem_iff n := by
    show (n ∈ tickets ∨ ∃ t', Function.update s.ticket t (some (s.calls + 1)) t' = some n) ↔
      1 ≤ n ∧ n ≤ s.calls + 1
    constructor
    · intro hn
      obtain hn | ⟨t', ht'⟩ := hn
      · have hle := (h.mem_iff n).1 (Or.inl hn)
        omega
      · by_cases heq : t' = t
        · rw [heq, Function.update_self] at ht'
          have hn := Option.some.inj ht'
          omega
        · rw [Function.update_of_ne heq] at ht'
          have hle := (h.mem_iff n).1 (Or.inr ⟨t', ht'⟩)
          omega
    · intro hn
      by_cases hlast : n = s.calls + 1
      · exact Or.inr ⟨t, by rw [Function.update_self, hlast]⟩
      · obtain hmem | ⟨t', ht'⟩ := (h.mem_iff n).2 (by omega)
        · exact Or.inl hmem
        · have hne : t' ≠ t := by
            rintro rfl
            exact Option.some_ne_none n (ht'.symm.trans ht)
          exact Or.inr ⟨t', by rw [Function.update_of_ne hne, ht']⟩
  pending t' n ht' := by
    change Function.update s.ticket t (some (s.calls + 1)) t' = some n at ht'
    by_cases heq : t' = t
    · rw [heq, Function.update_self] at ht'
      rw [← Option.some.inj ht']
      exact (h.not_served (Nat.lt_succ_self _)).1
    · rw [Function.update_of_ne heq] at ht'
      exact h.pending t' n ht'
  distinct t₁ t₂ n h₁ h₂ := by
    change Function.update s.ticket t (some (s.calls + 1)) t₁ = some n at h₁
    change Function.update s.ticket t (some (s.calls + 1)) t₂ = some n at h₂
    have hnew := (h.not_served (Nat.lt_succ_self s.calls)).2
    by_cases h₁t : t₁ = t <;> by_cases h₂t : t₂ = t
    · rw [h₁t, h₂t]
    · rw [h₁t, Function.update_self] at h₁
      rw [Function.update_of_ne h₂t, ← h₁] at h₂
      exact absurd h₂ (hnew t₂)
    · rw [h₂t, Function.update_self] at h₂
      rw [Function.update_of_ne h₁t, ← h₂] at h₁
      exact absurd h₁ (hnew t₁)
    · rw [Function.update_of_ne h₁t] at h₁
      rw [Function.update_of_ne h₂t] at h₂
      exact h.distinct t₁ t₂ n h₁ h₂

theorem Served.read {n : ℕ} (h : Served s init tickets reads) (ht : s.ticket t = some n) :
    Served (step s (.read t)) init (tickets ++ [n]) (reads ++ [s.calls]) where
  counter := h.counter
  returned := by
    show s.returned ++ [s.counter] = _
    rw [List.map_append, List.map_singleton, ← h.counter, ← h.returned]
  le := List.rel_append h.le (.cons ((h.mem_iff n).1 (Or.inr ⟨t, ht⟩)).2 .nil)
  reads_le k hk := by
    have hle := (h.mem_iff n).1 (Or.inr ⟨t, ht⟩)
    obtain hk | hk := List.mem_append.1 hk
    · exact h.reads_le k hk
    · rw [List.mem_singleton.1 hk]
      exact ⟨hle.1.trans hle.2, le_refl _⟩
  nodup := by
    rw [List.nodup_append]
    refine ⟨h.nodup, List.nodup_singleton n, fun k hk k' hk' heq => ?_⟩
    rw [heq, List.mem_singleton.1 hk'] at hk
    exact h.pending t n ht hk
  mem_iff k := by
    show (k ∈ tickets ++ [n] ∨ ∃ t', Function.update s.ticket t none t' = some k) ↔ 1 ≤ k ∧ k ≤ s.calls
    rw [← h.mem_iff k, List.mem_append, List.mem_singleton]
    constructor
    · rintro ((hk | rfl) | ⟨t', ht'⟩)
      · exact Or.inl hk
      · exact Or.inr ⟨t, ht⟩
      · have hne : t' ≠ t := by
          rintro rfl
          rw [Function.update_self] at ht'
          exact Option.some_ne_none k ht'.symm
        rw [Function.update_of_ne hne] at ht'
        exact Or.inr ⟨t', ht'⟩
    · rintro (hk | ⟨t', ht'⟩)
      · exact Or.inl (Or.inl hk)
      · by_cases heq : t' = t
        · rw [heq, ht] at ht'
          exact Or.inl (Or.inr (Option.some.inj ht').symm)
        · exact Or.inr ⟨t', by rw [Function.update_of_ne heq, ht']⟩
  pending t' k ht' := by
    change Function.update s.ticket t none t' = some k at ht'
    have hne : t' ≠ t := by
      rintro rfl
      rw [Function.update_self] at ht'
      exact Option.some_ne_none k ht'.symm
    rw [Function.update_of_ne hne] at ht'
    rw [List.mem_append, List.mem_singleton]
    rintro (hk | rfl)
    · exact h.pending t' k ht' hk
    · exact hne (h.distinct t' t k ht' ht)
  distinct t₁ t₂ k h₁ h₂ := by
    change Function.update s.ticket t none t₁ = some k at h₁
    change Function.update s.ticket t none t₂ = some k at h₂
    have hold : ∀ t', Function.update s.ticket t none t' = some k → s.ticket t' = some k := by
      intro t' ht'
      by_cases heq : t' = t
      · rw [heq, Function.update_self] at ht'
        exact absurd ht'.symm (Option.some_ne_none k)
      · rw [Function.update_of_ne heq] at ht'
        exact ht'
    exact h.distinct t₁ t₂ k (hold t₁ h₁) (hold t₂ h₂)

/-- After any run, with the reads that come at once told by the run. -/
theorem exists_served (init : Int32) (events : List (Event T))
    (henabled : Along step Enabled (start init) events) :
    ∃ tickets reads, Served (finalState step (start init) events) init tickets reads ∧
      (Along step Undisturbed (start init) events ↔ tickets = reads) := by
  induction events using List.reverseRecOn with
  | nil => exact ⟨[], [], served_start init, iff_of_true trivial rfl⟩
  | append_singleton events e ih =>
    rw [along_append] at henabled
    obtain ⟨tickets, reads, hserved, hiff⟩ := ih henabled.1
    have hlast : finalState step (start init) (events ++ [e]) =
        step (finalState step (start init) events) e := List.foldl_concat ..
    rw [hlast, along_append, hiff]
    cases e with
    | xadd t =>
      refine ⟨tickets, reads, hserved.xadd henabled.2.1, ?_⟩
      exact and_iff_left ⟨trivial, trivial⟩
    | read t =>
      obtain ⟨n, hn⟩ := Option.ne_none_iff_exists'.1 henabled.2.1
      refine ⟨_, _, hserved.read hn, ?_⟩
      rw [along_cons, and_iff_left (along_nil _)]
      show _ ∧ (finalState step (start init) events).ticket t = _ ↔ _
      rw [hn, Option.some_inj]
      exact List.append_singleton_inj.symm

/-! ## Complete runs -/

/-- Numbers without repetition that take up a range are those of the range. -/
theorem perm_of_nodup_of_le {l : List ℕ} {n : ℕ} (hnodup : l.Nodup)
    (hmem : ∀ k ∈ l, 1 ≤ k ∧ k ≤ n) (hlength : n ≤ l.length) : l.Perm (List.range' 1 n) := by
  have hsub : l ⊆ List.range' 1 n := by
    intro k hk
    have hle := hmem k hk
    rw [List.mem_range'_1]
    omega
  have hsubperm := List.subperm_of_subset hnodup hsub
  refine hsubperm.perm_of_length_le ?_
  rw [List.length_range']
  exact hlength

/-- Of two lists with the same sum no entry is above the other if none is below. -/
theorem eq_of_forall₂_le_of_sum_eq {l l' : List ℕ} (h : List.Forall₂ (· ≤ ·) l l')
    (hsum : l.sum = l'.sum) : l = l' := by
  induction h with
  | nil => rfl
  | cons hle hrest ih =>
    have hsums := hrest.sum_le_sum
    rw [List.sum_cons, List.sum_cons] at hsum
    rw [ih (by omega)]
    congr 1
    omega

omit [DecidableEq T] in
/-- When no call is left between its steps, each number has been served. -/
theorem Served.perm (h : Served s init tickets reads) (hcomplete : ∀ t, s.ticket t = none) :
    tickets.Perm (List.range' 1 s.calls) := by
  rw [List.perm_ext_iff_of_nodup h.nodup List.nodup_range']
  intro n
  have hiff := h.mem_iff n
  have hnone : ¬∃ t, s.ticket t = some n := fun ⟨t, ht⟩ =>
    Option.some_ne_none n (ht.symm.trans (hcomplete t))
  rw [or_iff_left hnone] at hiff
  rw [hiff, List.mem_range'_1]
  omega

omit [DecidableEq T] in
/-- Different values for all calls leave no read that came late. -/
theorem Served.tickets_eq (h : Served s init tickets reads) (hcomplete : ∀ t, s.ticket t = none)
    (hnodup : s.returned.Nodup) : tickets = reads := by
  have hperm := h.perm hcomplete
  have hlength := h.le.length_eq
  rw [hperm.length_eq, List.length_range'] at hlength
  rw [h.returned] at hnodup
  have hreads := perm_of_nodup_of_le hnodup.of_map h.reads_le hlength.le
  exact eq_of_forall₂_le_of_sum_eq h.le (hperm.sum_eq.trans hreads.sum_eq.symm)

omit [DecidableEq T] in
theorem Served.nodup_returned (h : Served s init tickets reads) (heq : tickets = reads)
    (hlt : s.calls < 2 ^ 32) : s.returned.Nodup := by
  rw [h.returned, ← heq]
  refine h.nodup.map_on fun m hm n hn hvalues => ?_
  have hm' := (h.mem_iff m).1 (Or.inl hm)
  have hn' := (h.mem_iff n).1 (Or.inl hn)
  obtain hle | hle := Nat.le_total m n
  · have hsum := ofInt_inj (by omega) (by omega) hvalues
    omega
  · have hsum := ofInt_inj (by omega) (by omega) hvalues.symm
    omega

/-- Of the runs in which every call has returned, those give each call a value of its own and leave
the counter as many calls above its first value in which each read comes before any other call's
first step, and the counter stays in the range of an `int`. -/
theorem tickets_unique_iff (init : Int32) (events : List (Event T))
    (henabled : Along step Enabled (start init) events)
    (hcomplete : ∀ t, (finalState step (start init) events).ticket t = none) :
    ((finalState step (start init) events).returned.Nodup ∧
      (finalState step (start init) events).counter.toInt =
        init.toInt + (finalState step (start init) events).calls) ↔
    (Along step Undisturbed (start init) events ∧
      init.toInt + (finalState step (start init) events).calls < 2 ^ 31) := by
  obtain ⟨tickets, reads, hserved, hiff⟩ := exists_served init events henabled
  have hrange := Int32.le_toInt init
  rw [hiff, hserved.counter, toInt_ofInt_eq_iff (by omega)]
  constructor
  · exact fun ⟨hnodup, hlt⟩ => ⟨hserved.tickets_eq hcomplete hnodup, hlt⟩
  · exact fun ⟨heq, hlt⟩ => ⟨hserved.nodup_returned heq (by omega), hlt⟩

/-- Two threads call one after the other. -/
def inTurn : List (Event Bool) := [.xadd true, .read true, .xadd false, .read false]

theorem tickets_unique_inTurn :
    ((finalState step (start 0) inTurn).returned.Nodup ∧
      (finalState step (start 0) inTurn).counter.toInt =
        (0 : Int32).toInt + (finalState step (start 0) inTurn).calls) ↔
    (Along step Undisturbed (start 0) inTurn ∧
      (0 : Int32).toInt + (finalState step (start 0) inTurn).calls < 2 ^ 31) :=
  tickets_unique_iff 0 inTurn (by simp [inTurn, Along, Enabled, step, start]) (by decide)

/-- Both threads make their first steps before they read, and both get 2. -/
theorem tickets_repeated : ¬∀ (init : Int32) (events : List (Event Bool)),
    Along step Enabled (start init) events →
    (∀ t, (finalState step (start init) events).ticket t = none) →
    (finalState step (start init) events).returned.Nodup ∧
      (finalState step (start init) events).counter.toInt =
        init.toInt + (finalState step (start init) events).calls := by
  intro h
  have hnodup := (h 0 [.xadd true, .xadd false, .read true, .read false]
    (by simp [Along, Enabled, step, start]) (by decide)).1
  exact absurd hnodup (by decide)

end CServer.Queues.Tickets
