import CServer.ThreadPool.Model
import Mathlib.Data.List.Perm.Basic

/-!
# Each job once

Jobs go into the list at its head and come out there, so the pointers `prev` that the macros do not
set are never followed. What was pushed is in the list or was removed, once, and what was removed is
held or was called, once. If the list has a job then some worker does not wait.
-/
namespace CServer.ThreadPool

open CServer.Linked

variable {σ : State} {i : ℕ}

/-- The list that begins with the pointer `list` has these items, and no item points back. -/
structure Listed (links : ℕ → Links) (list : Option ℕ) (items : List ℕ) : Prop where
  head : list = items.head?
  chain : ∀ item rest, items = item :: rest → Chain (fun j => (links j).next) item rest
  prev : ∀ item ∈ items, (links item).prev = none

variable {links : ℕ → Links} {list : Option ℕ} {items : List ℕ}

theorem Listed.nil (h : list = none) : Listed links list [] where
  head := h
  chain := by simp
  prev := by simp

/-- `LL_ADD` puts a new item in front. -/
theorem Listed.add (h : Listed links list items) {item : ℕ} (hnew : item ∉ items) :
    Listed (llAdd item links list).1 (llAdd item links list).2 (item :: items) := by
  have hother : ∀ j ∈ items, Function.update links item ⟨none, list⟩ j = links j := by
    intro j hj
    apply Function.update_of_ne
    rintro rfl
    exact hnew hj
  refine ⟨rfl, ?_, ?_⟩
  · rintro first rest heq
    obtain ⟨rfl, rfl⟩ := List.cons.inj heq
    have hfirst : (Function.update links item ⟨none, list⟩ item).next = items.head? := by
      rw [Function.update_self]
      exact h.head
    cases items with
    | nil => exact hfirst
    | cons second rest =>
      refine ⟨hfirst, (h.chain second rest rfl).congr ?_⟩
      intro j hj
      show (Function.update links item _ j).next = _
      rw [hother j hj]
  · intro j hj
    obtain rfl | hj := List.mem_cons.mp hj
    · show (Function.update links j _ j).prev = none
      rw [Function.update_self]
    · show (Function.update links item _ j).prev = none
      rw [hother j hj]
      exact h.prev j hj

/-- `LL_REMOVE` of the first item leaves the others. -/
theorem Listed.remove {item : ℕ} {rest : List ℕ} (h : Listed links list (item :: rest))
    (hnodup : (item :: rest).Nodup) :
    Listed (llRemove item links list).1 (llRemove item links list).2 rest := by
  have hprev : (links item).prev = none := h.prev item List.mem_cons_self
  have hchain := h.chain item rest rfl
  have hnext : (links item).next = rest.head? := hchain.head_eq
  have hlist : list = some item := h.head
  have hnotin : item ∉ rest := (List.nodup_cons.mp hnodup).1
  have hsame : ∀ j ∈ rest, ((llRemove item links list).1 j).next = (links j).next ∧
      ((llRemove item links list).1 j).prev = (links j).prev := by
    intro j hj
    have hne : j ≠ item := by
      rintro rfl
      exact hnotin hj
    have hprevj : (links j).prev = none := h.prev j (List.mem_cons_of_mem item hj)
    cases rest with
    | nil => exact absurd hj List.not_mem_nil
    | cons second rest =>
      simp only [llRemove, hprev, hnext, List.head?_cons, Function.update_of_ne hne]
      by_cases hsecond : j = second
      · subst hsecond
        rw [Function.update_self]
        exact ⟨rfl, hprevj.symm⟩
      · rw [Function.update_of_ne hsecond]
        exact ⟨rfl, rfl⟩
  refine ⟨?_, ?_, ?_⟩
  · cases rest with
    | nil =>
      simp only [llRemove, hprev, hnext, if_pos hlist, List.head?_nil]
    | cons second rest =>
      have hne : item ≠ second := by
        rintro rfl
        exact hnotin List.mem_cons_self
      simp only [llRemove, hprev, hnext, if_pos hlist, List.head?_cons, Function.update_of_ne hne]
  · rintro second rest' rfl
    refine hchain.2.congr ?_
    intro j hj
    exact (hsame j hj).1
  · intro j hj
    rw [(hsame j hj).2]
    exact h.prev j (List.mem_cons_of_mem item hj)

/-- Each job that was pushed is in the list or was removed by one worker, and each removed job is
held by its worker or was called once. -/
structure Accounted (σ : State) : Prop where
  waiting : ∃ items, Listed σ.job σ.waitingJobs items ∧
    σ.queued.Perm (items ++ σ.removed.map Prod.snd)
  once : σ.queued.Nodup
  removed : ∀ i job, (i, job) ∈ σ.removed ↔ (i, job) ∈ σ.called ∨ σ.place i = .holding job
  called : σ.called.Nodup
  notYet : ∀ i job, σ.place i = .holding job → (i, job) ∉ σ.called

/-- No job is lost or done twice, no worker leaves its loop, and a pool with waiting jobs has a worker
that does not wait. -/
structure Sound (σ : State) : Prop where
  jobs : Accounted σ
  inLoop : ∀ i, σ.place i ≠ .left ∧ σ.place i ≠ .gone
  awake : σ.waitingJobs ≠ none → ∃ i < σ.count, σ.place i ≠ .blocked

theorem State.go_self (p : Place) : (σ.go i p).place i = p := Function.update_self _ _ _

theorem State.go_other (p : Place) {j : ℕ} (hj : j ≠ i) : (σ.go i p).place j = σ.place j :=
  Function.update_of_ne hj _ _

/-- The places change, but no worker takes or gives away a job. -/
theorem Accounted.moved (h : Accounted σ) {place : ℕ → Place}
    (hplace : ∀ j job, place j = .holding job ↔ σ.place j = .holding job) :
    Accounted { σ with place := place } := by
  refine ⟨h.waiting, h.once, ?_, h.called, ?_⟩
  · intro j job
    rw [h.removed]
    exact or_congr_right (hplace j job).symm
  · intro j job hj
    exact h.notYet j job ((hplace j job).mp hj)

/-- A worker goes to another place, without a job in its hands before or after. -/
theorem Accounted.go (h : Accounted σ) {p : Place} (hnow : ∀ job, σ.place i ≠ .holding job)
    (hthen : ∀ job, p ≠ .holding job) : Accounted (σ.go i p) := by
  apply h.moved
  intro j job
  by_cases hj : j = i
  · rw [hj, Function.update_self]
    exact iff_of_false (hthen job) (hnow job)
  · rw [Function.update_of_ne hj]

/-- A worker removes the first job of the list. -/
theorem Accounted.remove (h : Accounted σ) {job : ℕ} (hjob : σ.waitingJobs = some job)
    (hnow : ∀ job, σ.place i ≠ .holding job) :
    Accounted { σ.go i (.holding job) with
      job := (llRemove job σ.job σ.waitingJobs).1
      waitingJobs := (llRemove job σ.job σ.waitingJobs).2
      removed := σ.removed ++ [(i, job)] } := by
  obtain ⟨items, hlisted, hperm⟩ := h.waiting
  obtain ⟨rest, rfl⟩ : ∃ rest, items = job :: rest := by
    have hhead := hlisted.head
    rw [hjob] at hhead
    cases items with
    | nil => exact absurd hhead (by simp)
    | cons first rest =>
      obtain rfl := Option.some.inj hhead
      exact ⟨rest, rfl⟩
  have hnodup := hperm.nodup_iff.mp h.once
  have hitems := (List.nodup_append.mp hnodup).1
  have hnew : ∀ j, (j, job) ∉ σ.removed := by
    intro j hj
    exact (List.nodup_append.mp hnodup).2.2 job List.mem_cons_self job
      (List.mem_map.mpr ⟨_, hj, rfl⟩) rfl
  have hnotCalled : ∀ j, (j, job) ∉ σ.called :=
    fun j hj => hnew j ((h.removed j job).mpr (.inl hj))
  refine ⟨⟨rest, hlisted.remove hitems, ?_⟩, h.once, ?_, h.called, ?_⟩
  · rw [List.map_append, List.map_singleton]
    calc σ.queued
        _ |>.Perm (job :: rest ++ σ.removed.map Prod.snd) := hperm
        _ |>.Perm (rest ++ σ.removed.map Prod.snd ++ [job]) := by
          rw [List.cons_append]
          exact (List.perm_append_singleton _ _).symm
        _ |>.Perm (rest ++ (σ.removed.map Prod.snd ++ [job])) := by
          rw [List.append_assoc]
  · intro j job'
    show (j, job') ∈ σ.removed ++ [(i, job)] ↔
      (j, job') ∈ σ.called ∨ (σ.go i (.holding job)).place j = .holding job'
    rw [List.mem_append, List.mem_singleton, h.removed]
    by_cases hj : j = i
    · subst hj
      rw [State.go_self]
      simp [hnow, eq_comm]
    · rw [State.go_other _ hj]
      simp [hj]
  · intro j job' hholding
    have hplace : (σ.go i (.holding job)).place j = .holding job' := hholding
    by_cases hj : j = i
    · rw [hj, State.go_self] at hplace
      rw [← Place.holding.inj hplace]
      exact hnotCalled j
    · rw [State.go_other _ hj] at hplace
      exact h.notYet j job' hplace

/-- The critical section of a worker. -/
theorem Accounted.section (h : Accounted σ) (hnow : ∀ job, σ.place i ≠ .holding job) :
    Accounted (ntyWorkerSection σ i) := by
  rw [ntyWorkerSection]
  split
  · exact ⟨h.waiting, h.once, h.removed, h.called, h.notYet⟩
  · split
    · exact h.go hnow (by simp)
    · split
      · exact h.go hnow (by simp)
      · split
        · exact h.go hnow (by simp)
        · rename_i hjob
          exact h.remove hjob hnow

/-- The worker calls the function of its job. -/
theorem Accounted.call (h : Accounted σ) {job : ℕ} (hplace : σ.place i = .holding job) :
    Accounted { σ.go i (.running job) with called := σ.called ++ [(i, job)] } := by
  refine ⟨h.waiting, h.once, ?_, ?_, ?_⟩
  · intro j job'
    show (j, job') ∈ σ.removed ↔ (j, job') ∈ σ.called ++ [(i, job)] ∨
      (σ.go i (.running job)).place j = .holding job'
    rw [h.removed, List.mem_append, List.mem_singleton]
    by_cases hj : j = i
    · subst hj
      rw [State.go_self, hplace]
      simp [eq_comm]
    · rw [State.go_other _ hj]
      simp [hj]
  · rw [List.nodup_append]
    refine ⟨h.called, List.pairwise_singleton _ _, ?_⟩
    rintro pair hpair pair' hpair' rfl
    rw [List.mem_singleton] at hpair'
    subst hpair'
    exact h.notYet i job hplace hpair
  · intro j job' hholding hmem
    have hthen : (σ.go i (.running job)).place j = .holding job' := hholding
    by_cases hj : j = i
    · rw [hj, State.go_self] at hthen
      exact absurd hthen (by simp)
    · rw [State.go_other _ hj] at hthen
      obtain hmem | hmem := List.mem_append.mp hmem
      · exact h.notYet j job' hthen hmem
      · exact hj (Prod.mk.inj (List.mem_singleton.mp hmem)).1

/-- A push with its signal. -/
theorem Accounted.push (h : Accounted σ) {job : ℕ} (target : ℕ) (hnew : job ∉ σ.queued) :
    Accounted (ntyThreadPoolQueue σ job target) := by
  obtain ⟨items, hlisted, hperm⟩ := h.waiting
  have hadded : Listed (llAdd job σ.job σ.waitingJobs).1 (llAdd job σ.job σ.waitingJobs).2
      (job :: items) := by
    apply hlisted.add
    intro hmem
    exact hnew (hperm.mem_iff.mpr (List.mem_append_left _ hmem))
  have hperm' : (σ.queued ++ [job]).Perm (job :: items ++ σ.removed.map Prod.snd) := by
    calc (σ.queued ++ [job]).Perm (job :: σ.queued) := List.perm_append_singleton _ _
      _ |>.Perm (job :: (items ++ σ.removed.map Prod.snd)) := List.Perm.cons job hperm
  have honce : (σ.queued ++ [job]).Nodup := by
    rw [(List.perm_append_singleton _ _).nodup_iff, List.nodup_cons]
    exact ⟨hnew, h.once⟩
  have hqueue : Accounted { σ with
      job := (llAdd job σ.job σ.waitingJobs).1
      waitingJobs := (llAdd job σ.job σ.waitingJobs).2
      queued := σ.queued ++ [job] } :=
    ⟨⟨_, hadded, hperm'⟩, honce, h.removed, h.called, h.notYet⟩
  rw [ntyThreadPoolQueue]
  dsimp only
  split
  · rename_i htarget
    exact hqueue.go (by simp [htarget.2]) (by simp)
  · exact hqueue

/-- Every step of the workers and of those that push keeps the account. -/
theorem Accounted.step (h : Accounted σ) (a : Action) : Accounted (step σ a) := by
  cases a with
  | worker i =>
    rw [ThreadPool.step]
    split
    · cases hplace : σ.place i with
      | holding job =>
        simp only [ntyWorkerThread, hplace]
        exact h.call hplace
      | ready =>
        simp only [ntyWorkerThread, hplace]
        exact h.section (by simp [hplace])
      | woken =>
        simp only [ntyWorkerThread, hplace]
        exact h.section (by simp [hplace])
      | running job =>
        simp only [ntyWorkerThread, hplace]
        exact h.go (by simp [hplace]) (by simp)
      | left =>
        simp only [ntyWorkerThread, hplace]
        exact h.go (by simp [hplace]) (by simp)
      | _ =>
        simp only [ntyWorkerThread, hplace]
        exact h
    · exact h
  | wake i =>
    rw [ThreadPool.step]
    split
    · rename_i hi
      exact h.go (by simp [hi.2]) (by simp)
    · exact h
  | push job target =>
    rw [ThreadPool.step]
    split
    · rename_i hpush
      exact h.push target hpush.1
    · exact h

theorem accounted_create (numWorkers : ℤ) : Accounted (ntyThreadPoolCreate numWorkers) := by
  refine ⟨⟨[], Listed.nil rfl, List.Perm.refl _⟩, List.nodup_nil, ?_, List.nodup_nil, ?_⟩
  · intro i job
    simp [ntyThreadPoolCreate]
  · intro i job hplace
    exact absurd hplace (by simp [ntyThreadPoolCreate])

/-! ## No lost wake-up -/

/-- What holds of a pool as long as it is not released: only workers that were made wait, and if the
list has a job then some worker does not. -/
structure Open (σ : State) : Prop where
  count : 0 < σ.count
  terminate : ∀ i, σ.terminate i = false
  freed : σ.freed = false
  inLoop : ∀ i, σ.place i ≠ .left ∧ σ.place i ≠ .gone
  made : ∀ i, σ.place i = .blocked → i < σ.count
  awake : σ.waitingJobs ≠ none → ∃ i < σ.count, σ.place i ≠ .blocked

theorem Open.go (h : Open σ) {p : Place} (hloop : p ≠ .left ∧ p ≠ .gone) (hi : i < σ.count)
    (hawake : p ≠ .blocked ∨ σ.waitingJobs = none) : Open (σ.go i p) := by
  refine ⟨h.count, h.terminate, h.freed, ?_, ?_, ?_⟩
  · intro j
    by_cases hj : j = i
    · rw [hj, State.go_self]
      exact hloop
    · rw [State.go_other _ hj]
      exact h.inLoop j
  · intro j hplace
    by_cases hj : j = i
    · rw [hj]
      exact hi
    · rw [State.go_other _ hj] at hplace
      exact h.made j hplace
  · intro hjobs
    obtain ⟨j, hj, hplace⟩ := h.awake hjobs
    refine ⟨j, hj, ?_⟩
    by_cases hji : j = i
    · rw [hji, State.go_self]
      exact hawake.resolve_right hjobs
    · rw [State.go_other _ hji]
      exact hplace

/-- The list may change when some worker does not wait. -/
theorem Open.jobs (h : Open σ) {place : ℕ → Place} {job : ℕ → Links} {waitingJobs : Option ℕ}
    {queued : List ℕ} {removed called : List (ℕ × ℕ)} (hplace : Open { σ with place := place })
    (hsome : ∃ i < σ.count, place i ≠ .blocked) :
    Open { σ with
      place := place
      job := job
      waitingJobs := waitingJobs
      queued := queued
      removed := removed
      called := called } :=
  ⟨h.count, h.terminate, h.freed, hplace.inLoop, hplace.made, fun _ => hsome⟩

theorem Open.section (h : Open σ) (hi : i < σ.count) : Open (ntyWorkerSection σ i) := by
  have hfreed : ¬σ.freed = true := by simp [h.freed]
  have hstay : ¬σ.terminate i = true := by simp [h.terminate i]
  rw [ntyWorkerSection, if_neg hfreed]
  by_cases hwait : σ.waitingJobs = none ∧ ¬σ.terminate i = true
  · rw [if_pos hwait]
    exact h.go (by simp) hi (.inr hwait.1)
  · rw [if_neg hwait, if_neg hstay]
    split
    · exact h.go (by simp) hi (.inl (by simp))
    · rename_i job hjob
      refine h.jobs (h.go (p := .holding job) (by simp) hi (.inl (by simp))) ⟨i, hi, ?_⟩
      show (σ.go i (.holding job)).place i ≠ .blocked
      rw [State.go_self]
      simp

theorem Open.push (h : Open σ) {job target : ℕ}
    (htarget : σ.place target = .blocked ∨ ∀ i < σ.count, σ.place i ≠ .blocked) :
    Open (ntyThreadPoolQueue σ job target) := by
  rw [ntyThreadPoolQueue]
  dsimp only
  obtain hblocked | hnone := htarget
  · have hlt := h.made target hblocked
    rw [if_pos ⟨hlt, hblocked⟩]
    refine h.jobs (h.go (p := .woken) (by simp) hlt (.inl (by simp))) ⟨target, hlt, ?_⟩
    show (σ.go target .woken).place target ≠ .blocked
    rw [State.go_self]
    simp
  · rw [if_neg fun htarget => hnone target htarget.1 htarget.2]
    exact h.jobs h ⟨0, h.count, hnone 0 h.count⟩

theorem Open.step (h : Open σ) (a : Action) : Open (step σ a) := by
  cases a with
  | worker i =>
    rw [ThreadPool.step]
    split
    · rename_i hi
      cases hplace : σ.place i with
      | ready =>
        simp only [ntyWorkerThread, hplace]
        exact h.section hi
      | woken =>
        simp only [ntyWorkerThread, hplace]
        exact h.section hi
      | blocked =>
        simp only [ntyWorkerThread, hplace]
        exact h
      | holding job =>
        simp only [ntyWorkerThread, hplace]
        refine h.jobs (h.go (p := .running job) (by simp) hi (.inl (by simp))) ⟨i, hi, ?_⟩
        show (σ.go i (.running job)).place i ≠ .blocked
        rw [State.go_self]
        simp
      | running job =>
        simp only [ntyWorkerThread, hplace]
        exact h.go (by simp) hi (.inl (by simp))
      | left => exact absurd hplace (h.inLoop i).1
      | gone => exact absurd hplace (h.inLoop i).2
    · exact h
  | wake i =>
    rw [ThreadPool.step]
    split
    · rename_i hi
      exact h.go (by simp) hi.1 (.inl (by simp))
    · exact h
  | push job target =>
    rw [ThreadPool.step]
    split
    · rename_i hpush
      exact h.push hpush.2.2
    · exact h

theorem open_create (numWorkers : ℤ) : Open (ntyThreadPoolCreate numWorkers) := by
  refine ⟨?_, fun _ => rfl, rfl, ?_, ?_, ?_⟩
  · show 0 < (if numWorkers < 1 then 1 else numWorkers).toNat
    split <;> omega
  · intro i
    simp [ntyThreadPoolCreate]
  · intro i hplace
    exact absurd hplace (by simp [ntyThreadPoolCreate])
  · intro hjobs
    exact absurd rfl hjobs

theorem open_run (numWorkers : ℤ) (actions : List Action) :
    Accounted (run numWorkers actions) ∧ Open (run numWorkers actions) := by
  have hrun : ∀ σ : State, Accounted σ ∧ Open σ →
      Accounted (Runs.finalState ThreadPool.step σ actions) ∧
        Open (Runs.finalState ThreadPool.step σ actions) := by
    induction actions with
    | nil => exact fun σ h => h
    | cons a rest ih => exact fun σ h => ih _ ⟨h.1.step a, h.2.step a⟩
  exact hrun _ ⟨accounted_create numWorkers, open_create numWorkers⟩

end CServer.ThreadPool
