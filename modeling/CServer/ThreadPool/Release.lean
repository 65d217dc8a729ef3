import CServer.ThreadPool.ExactlyOnce

/-!
# The release of a pool

The release marks the workers one after the other, empties the lists, wakes the workers and releases
the queue, without waiting for the workers. It is safe if no worker ends while the loop is at it, no
job waits when the lists are emptied, and all workers have left their loops when the queue is
released; nothing in the code sees to that.
-/
namespace CServer.ThreadPool

variable {σ : State} {i : ℕ}

/-- A step of the workers or of those that push, or of the release. -/
inductive Event where
  | act (a : Action)
  | release

def during (σ : State) : Event → State
  | .act a => step σ a
  | .release => ntyThreadPoolRelease σ

/-- Nothing that was released has been used, and each job that was pushed is called, held by a worker
or still in the list of a queue that is there. -/
structure Safe (σ : State) : Prop where
  queue : σ.queueFault = false
  worker : σ.workerFault = false
  jobs : ∀ job ∈ σ.queued, (∃ i, (i, job) ∈ σ.called ∨ σ.place i = .holding job) ∨
    ∃ items, Listed σ.job σ.waitingJobs items ∧ job ∈ items ∧ σ.freed = false

/-- The worker does not use the queue any more. -/
def Place.outside (p : Place) : Prop := p = .left ∨ p = .gone

/-- A worker does not end while the loop of the shutdown is at it; the lists are emptied when no job
waits; the queue is released when all workers have left their loops. -/
def Regular (σ : State) : Event → Prop
  | .act (.worker i) => σ.place i = .left → σ.release ≠ .follow i
  | .release => (σ.release = .lock → σ.waitingJobs = none) ∧
      (σ.release = .free → ∀ i < σ.count, (σ.place i).outside)
  | _ => True

instance decidableOutside (p : Place) : Decidable p.outside :=
  inferInstanceAs (Decidable (p = .left ∨ p = .gone))

instance decidableRegular (σ : State) : (e : Event) → Decidable (Regular σ e)
  | .act (.worker i) => inferInstanceAs (Decidable (σ.place i = .left → σ.release ≠ .follow i))
  | .act (.wake _) => .isTrue trivial
  | .act (.push _ _) => .isTrue trivial
  | .release => inferInstanceAs (Decidable ((σ.release = .lock → σ.waitingJobs = none) ∧
      (σ.release = .free → ∀ i < σ.count, (σ.place i).outside)))

/-- The workers below this number have not been marked. -/
def Release.unmarked (count : ℕ) : Release → ℕ
  | .idle => count
  | .mark (some i) => i + 1
  | .follow i => i
  | _ => 0

/-- What holds between the steps of a regular release. -/
structure Closing (σ : State) : Prop where
  queueFault : σ.queueFault = false
  workerFault : σ.workerFault = false
  next : ∀ i < σ.count, (σ.worker i).next = if i = 0 then none else some (i - 1)
  workers : σ.release = .idle → ∀ i, σ.workers = some i → i + 1 = σ.count
  unmarked : ∀ i < σ.release.unmarked σ.count, σ.terminate i = false
  leaving : ∀ i, (σ.place i).outside → σ.terminate i = true
  mark : ∀ i, σ.release = .mark (some i) → i < σ.count
  follow : ∀ i, σ.release = .follow i → i < σ.count ∧ σ.place i ≠ .gone
  freed : σ.freed = true → σ.release = .done ∧ ∀ i < σ.count, (σ.place i).outside
  emptied : σ.release = .free ∨ σ.release = .done → σ.waitingJobs = none

theorem Closing.not_freed (h : Closing σ) (hrelease : σ.release ≠ .done) : σ.freed = false := by
  by_contra hfreed
  exact hrelease (h.freed (by simpa using hfreed)).1

theorem Closing.safe (h : Closing σ) (hjobs : Accounted σ) : Safe σ := by
  refine ⟨h.queueFault, h.workerFault, ?_⟩
  intro job hjob
  obtain ⟨items, hlisted, hperm⟩ := hjobs.waiting
  obtain hmem | hmem := List.mem_append.mp (hperm.mem_iff.mp hjob)
  · refine .inr ⟨items, hlisted, hmem, ?_⟩
    by_contra hfreed
    have hnone := h.emptied (.inr (h.freed (by simpa using hfreed)).1)
    have hhead := hlisted.head
    rw [hnone] at hhead
    cases items with
    | nil => exact List.not_mem_nil hmem
    | cons first rest => exact absurd hhead (by simp)
  · obtain ⟨⟨i, job'⟩, hremoved, rfl⟩ := List.mem_map.mp hmem
    exact .inl ⟨i, (hjobs.removed i job').mp hremoved⟩

/-! ## Steps of the workers -/

theorem Closing.go (h : Closing σ) {p : Place} (hleaving : p.outside → σ.terminate i = true)
    (hfollow : p = .gone → σ.release ≠ .follow i) (hout : (σ.place i).outside → p.outside) :
    Closing (σ.go i p) := by
  refine ⟨h.queueFault, h.workerFault, h.next, h.workers, h.unmarked, ?_, h.mark, ?_, ?_, h.emptied⟩
  · intro j hj
    by_cases hji : j = i
    · rw [hji, State.go_self] at hj
      rw [hji]
      exact hleaving hj
    · rw [State.go_other _ hji] at hj
      exact h.leaving j hj
  · intro j hj
    obtain ⟨hlt, hplace⟩ := h.follow j hj
    refine ⟨hlt, ?_⟩
    by_cases hji : j = i
    · rw [hji, State.go_self]
      intro hgone
      rw [hji] at hj
      exact hfollow hgone hj
    · rw [State.go_other _ hji]
      exact hplace
  · intro hfreed
    obtain ⟨hdone, hall⟩ := h.freed hfreed
    refine ⟨hdone, ?_⟩
    intro j hj
    by_cases hji : j = i
    · rw [hji] at hj
      rw [hji, State.go_self]
      exact hout (hall i hj)
    · rw [State.go_other _ hji]
      exact hall j hj

/-- The list of jobs changes while it is not empty, or before the release. -/
theorem Closing.jobs (h : Closing σ) {job : ℕ → Links} {waitingJobs : Option ℕ} {queued : List ℕ}
    {removed called : List (ℕ × ℕ)}
    (hwaiting : σ.release = .free ∨ σ.release = .done → waitingJobs = none) :
    Closing { σ with
      job := job
      waitingJobs := waitingJobs
      queued := queued
      removed := removed
      called := called } :=
  ⟨h.queueFault, h.workerFault, h.next, h.workers, h.unmarked, h.leaving, h.mark, h.follow, h.freed,
    hwaiting⟩

/-- A worker in its loop does not use a queue that was released. -/
theorem Closing.section (h : Closing σ) (hi : i < σ.count) (hin : ¬(σ.place i).outside) :
    Closing (ntyWorkerSection σ i) := by
  have hfreed : ¬σ.freed = true := fun hfreed => hin ((h.freed hfreed).2 i hi)
  rw [ntyWorkerSection, if_neg hfreed]
  split
  · exact h.go (by simp [Place.outside]) (by simp) fun hout => absurd hout hin
  · split
    · rename_i hterminate
      exact h.go (fun _ => hterminate) (by simp) fun hout => absurd hout hin
    · split
      · exact h.go (by simp [Place.outside]) (by simp) fun hout => absurd hout hin
      · rename_i job hjob
        refine (h.go (p := .holding job) (by simp [Place.outside]) (by simp)
          fun hout => absurd hout hin).jobs ?_
        intro hrelease
        have hnone := h.emptied hrelease
        rw [hjob] at hnone
        exact absurd hnone (by simp)

theorem Closing.act (h : Closing σ) (a : Action) (hregular : Regular σ (.act a)) :
    Closing (step σ a) := by
  cases a with
  | worker i =>
    rw [ThreadPool.step]
    split
    · rename_i hi
      cases hplace : σ.place i with
      | ready =>
        simp only [ntyWorkerThread, hplace]
        exact h.section hi (by simp [hplace, Place.outside])
      | woken =>
        simp only [ntyWorkerThread, hplace]
        exact h.section hi (by simp [hplace, Place.outside])
      | blocked =>
        simp only [ntyWorkerThread, hplace]
        exact h
      | holding job =>
        simp only [ntyWorkerThread, hplace]
        exact (h.go (p := .running job) (by simp [Place.outside]) (by simp)
          (by simp [hplace, Place.outside])).jobs h.emptied
      | running job =>
        simp only [ntyWorkerThread, hplace]
        exact h.go (by simp [Place.outside]) (by simp) (by simp [hplace, Place.outside])
      | left =>
        simp only [ntyWorkerThread, hplace]
        exact h.go (fun _ => h.leaving i (by simp [hplace, Place.outside])) (fun _ => hregular hplace)
          (by simp [Place.outside])
      | gone =>
        simp only [ntyWorkerThread, hplace]
        exact h
    · exact h
  | wake i =>
    rw [ThreadPool.step]
    split
    · rename_i hi
      exact h.go (by simp [Place.outside]) (by simp) (by simp [hi.2, Place.outside])
    · exact h
  | push job target =>
    rw [ThreadPool.step]
    split
    · rename_i hpush
      have hidle : ¬(σ.release = .free ∨ σ.release = .done) := by simp [hpush.2.1]
      have hqueue : Closing { σ with
          job := (llAdd job σ.job σ.waitingJobs).1
          waitingJobs := (llAdd job σ.job σ.waitingJobs).2
          queued := σ.queued ++ [job] } := h.jobs fun hrelease => absurd hrelease hidle
      rw [ntyThreadPoolQueue]
      dsimp only
      split
      · rename_i htarget
        exact hqueue.go (by simp [Place.outside]) (by simp) (by simp [htarget.2, Place.outside])
      · exact hqueue
    · exact h

/-! ## Steps of the release -/

theorem Closing.release (h : Closing σ) (hregular : Regular σ .release) :
    Closing (ntyThreadPoolRelease σ) := by
  have hnotGone : ∀ i, σ.terminate i = false → σ.place i ≠ .gone := by
    intro i hterminate hgone
    have hmarked := h.leaving i (.inr hgone)
    rw [hterminate] at hmarked
    exact absurd hmarked (by simp)
  cases hrelease : σ.release with
  | idle =>
    have hnotFreed : σ.freed = false := h.not_freed (by simp [hrelease])
    have hunmarked := h.unmarked
    rw [hrelease] at hunmarked
    simp only [ntyThreadPoolRelease, hrelease]
    refine ⟨h.queueFault, h.workerFault, h.next, by simp, ?_, h.leaving, ?_, by simp, ?_, by simp⟩
    · intro i hi
      cases hworkers : σ.workers with
      | none =>
        rw [hworkers] at hi
        exact absurd hi (Nat.not_lt_zero i)
      | some last =>
        have hlast := h.workers hrelease last hworkers
        rw [hworkers] at hi
        have hi' : i < last + 1 := hi
        exact hunmarked i (by rw [Release.unmarked]; omega)
    · intro i hi
      have hworkers : σ.workers = some i := by simpa using hi
      have hlast := h.workers hrelease i hworkers
      show i < σ.count
      omega
    · intro hfreed
      exact absurd hfreed (by simp [hnotFreed])
  | mark worker =>
    have hnotFreed : σ.freed = false := h.not_freed (by simp [hrelease])
    cases worker with
    | none =>
      simp only [ntyThreadPoolRelease, hrelease]
      refine ⟨h.queueFault, h.workerFault, h.next, by simp, ?_, h.leaving, by simp, by simp, ?_, by simp⟩
      · exact fun i hi => absurd hi (Nat.not_lt_zero i)
      · exact fun hfreed => absurd hfreed (by simp [hnotFreed])
    | some w =>
      have hlt := h.mark w hrelease
      have hunmarked := h.unmarked
      rw [hrelease] at hunmarked
      have hplace := hnotGone w (hunmarked w (Nat.lt_succ_self w))
      simp only [ntyThreadPoolRelease, hrelease]
      refine ⟨h.queueFault, ?_, h.next, by simp, ?_, ?_, by simp, ?_, ?_, by simp⟩
      · show (σ.workerFault || decide (σ.place w = .gone)) = false
        simp [h.workerFault, hplace]
      · intro i hi
        have hi' : i < w := hi
        show Function.update σ.terminate w true i = false
        rw [Function.update_of_ne (Nat.ne_of_lt hi')]
        exact hunmarked i (Nat.lt_succ_of_lt hi')
      · intro i hi
        show Function.update σ.terminate w true i = true
        by_cases hiw : i = w
        · rw [hiw, Function.update_self]
        · rw [Function.update_of_ne hiw]
          exact h.leaving i hi
      · intro i hi
        obtain rfl : w = i := by simpa using hi
        exact ⟨hlt, hplace⟩
      · exact fun hfreed => absurd hfreed (by simp [hnotFreed])
  | follow w =>
    have hnotFreed : σ.freed = false := h.not_freed (by simp [hrelease])
    obtain ⟨hlt, hplace⟩ := h.follow w hrelease
    have hunmarked := h.unmarked
    rw [hrelease] at hunmarked
    have hnext := h.next w hlt
    simp only [ntyThreadPoolRelease, hrelease]
    refine ⟨h.queueFault, ?_, h.next, by simp, ?_, h.leaving, ?_, by simp, ?_, by simp⟩
    · show (σ.workerFault || decide (σ.place w = .gone)) = false
      simp [h.workerFault, hplace]
    · intro i hi
      rw [hnext] at hi
      by_cases hw : w = 0
      · rw [if_pos hw] at hi
        exact absurd hi (Nat.not_lt_zero i)
      · rw [if_neg hw] at hi
        have hi' : i < w - 1 + 1 := hi
        exact hunmarked i (show i < w by omega)
    · intro i hi
      have hi' : (σ.worker w).next = some i := by simpa using hi
      rw [hnext] at hi'
      show i < σ.count
      by_cases hw : w = 0
      · rw [if_pos hw] at hi'
        exact absurd hi' (by simp)
      · rw [if_neg hw] at hi'
        have heq := Option.some.inj hi'
        omega
    · exact fun hfreed => absurd hfreed (by simp [hnotFreed])
  | lock =>
    have hnotFreed : σ.freed = false := h.not_freed (by simp [hrelease])
    have hawake : ∀ i, ((if σ.place i = .blocked then .woken else σ.place i : Place)).outside →
        (σ.place i).outside := by
      intro i
      split
      · simp [Place.outside]
      · exact id
    simp only [ntyThreadPoolRelease, hrelease]
    refine ⟨h.queueFault, h.workerFault, h.next, by simp [State.broadcast], ?_, ?_,
      by simp [State.broadcast], by simp [State.broadcast], ?_, fun _ => rfl⟩
    · exact fun i hi => absurd hi (Nat.not_lt_zero i)
    · exact fun i hi => h.leaving i (hawake i hi)
    · intro hfreed
      have hfreed' : σ.freed = true := hfreed
      exact absurd hfreed' (by simp [hnotFreed])
  | free =>
    have hall := hregular.2 hrelease
    simp only [ntyThreadPoolRelease, hrelease]
    refine ⟨h.queueFault, h.workerFault, h.next, by simp, ?_, h.leaving, by simp, by simp, ?_, ?_⟩
    · exact fun i hi => absurd hi (Nat.not_lt_zero i)
    · exact fun _ => ⟨rfl, hall⟩
    · exact fun _ => h.emptied (.inl hrelease)
  | done =>
    simp only [ntyThreadPoolRelease, hrelease]
    exact h

/-- The release keeps the account of the jobs if none waits when the lists are emptied. -/
theorem Accounted.release (h : Accounted σ) (hregular : Regular σ .release) :
    Accounted (ntyThreadPoolRelease σ) := by
  cases hrelease : σ.release with
  | mark worker =>
    cases worker with
    | none =>
      simp only [ntyThreadPoolRelease, hrelease]
      exact ⟨h.waiting, h.once, h.removed, h.called, h.notYet⟩
    | some w =>
      simp only [ntyThreadPoolRelease, hrelease]
      exact ⟨h.waiting, h.once, h.removed, h.called, h.notYet⟩
  | lock =>
    have hnone := hregular.1 hrelease
    have hwaiting := h.waiting
    rw [hnone] at hwaiting
    simp only [ntyThreadPoolRelease, hrelease]
    have hempty : Accounted { σ with workers := none, waitingJobs := none, release := .free } :=
      ⟨hwaiting, h.once, h.removed, h.called, h.notYet⟩
    apply hempty.moved
    intro i job
    show (if σ.place i = .blocked then .woken else σ.place i) = _ ↔ σ.place i = _
    split
    · rename_i hblocked
      rw [hblocked]
      exact iff_of_false (by simp) (by simp)
    · exact Iff.rfl
  | _ =>
    simp only [ntyThreadPoolRelease, hrelease]
    exact ⟨h.waiting, h.once, h.removed, h.called, h.notYet⟩

/-! ## Runs -/

theorem createWorkers_next (n : ℕ) :
    (createWorkers n).2 = (if n = 0 then none else some (n - 1)) ∧
      ∀ i < n, ((createWorkers n).1 i).next = if i = 0 then none else some (i - 1) := by
  induction n with
  | zero => exact ⟨rfl, fun i hi => absurd hi (Nat.not_lt_zero i)⟩
  | succ n ih =>
    refine ⟨rfl, ?_⟩
    intro i hi
    show (Function.update (createWorkers n).1 n ⟨none, (createWorkers n).2⟩ i).next = _
    by_cases hin : i = n
    · rw [hin, Function.update_self]
      exact ih.1
    · rw [Function.update_of_ne hin]
      exact ih.2 i (by omega)

theorem closing_create (numWorkers : ℤ) : Closing (ntyThreadPoolCreate numWorkers) := by
  obtain ⟨hworkers, hnext⟩ := createWorkers_next (if numWorkers < 1 then 1 else numWorkers).toNat
  refine ⟨rfl, rfl, hnext, ?_, fun _ _ => rfl, ?_, by simp [ntyThreadPoolCreate],
    by simp [ntyThreadPoolCreate], by simp [ntyThreadPoolCreate], by simp [ntyThreadPoolCreate]⟩
  · intro _ i hi
    have hi' : (createWorkers (if numWorkers < 1 then 1 else numWorkers).toNat).2 = some i := hi
    rw [hworkers] at hi'
    show i + 1 = (if numWorkers < 1 then 1 else numWorkers).toNat
    generalize (if numWorkers < 1 then 1 else numWorkers).toNat = n at hi' ⊢
    by_cases hn : n = 0
    · rw [if_pos hn] at hi'
      exact absurd hi' (by simp)
    · rw [if_neg hn] at hi'
      have heq := Option.some.inj hi'
      omega
  · intro i hi
    exact absurd hi (by simp [ntyThreadPoolCreate, Place.outside])

/-- Every state of a regular run of the workers, the pushes and the release is safe. -/
theorem regular_release_safe (numWorkers : ℤ) (events : List Event)
    (hregular : Runs.Along during Regular (ntyThreadPoolCreate numWorkers) events) :
    Runs.Throughout during Safe (ntyThreadPoolCreate numWorkers) events := by
  have hstep : ∀ σ e, Closing σ ∧ Accounted σ → Regular σ e →
      Closing (during σ e) ∧ Accounted (during σ e) := by
    rintro σ e ⟨hclosing, hjobs⟩ hregular
    cases e with
    | act a => exact ⟨hclosing.act a hregular, hjobs.step a⟩
    | release => exact ⟨hclosing.release hregular, hjobs.release hregular⟩
  have hkept := Runs.invariant_rule hstep
    ⟨closing_create numWorkers, accounted_create numWorkers⟩ hregular
  exact hkept.1.mono fun σ h => h.1.safe h.2

/-- One worker does its job, waits, is woken by the release, and ends before the queue is released. -/
theorem regular_release_safe_one : Runs.Throughout during Safe (ntyThreadPoolCreate 1)
    [.act (.push 7 0), .act (.worker 0), .act (.worker 0), .act (.worker 0), .act (.worker 0), .release,
      .release, .release, .release, .release, .act (.worker 0), .act (.worker 0), .release] :=
  regular_release_safe 1 _ (by decide)

/-- The worker waits, and the release wakes it and goes on to release the queue: the worker then
locks the mutex of the queue that is gone. -/
theorem released_under_worker : ¬Runs.Throughout during Safe (ntyThreadPoolCreate 1)
    [.act (.worker 0), .release, .release, .release, .release, .release, .release, .act (.worker 0)] := by
  intro hsafe
  have hlast := (Runs.throughout_iff_initial _ _).mp hsafe _ [] (List.append_nil _).symm
  exact absurd hlast.queue (by decide)

end CServer.ThreadPool
