import CServer.Foundation.Linked
import CServer.Foundation.Runs
import Mathlib.Data.Int.Notation
import Mathlib.Logic.Function.Basic

/-!
# The thread pool of chap3.1

The workers of module.c, the pushes of jobs and the release of the pool, interleaved. A critical
section is one step: a worker that has locked the mutex goes on until it waits or unlocks. A wait
gives the mutex back and blocks; a signal wakes one blocked worker if there is one, and a blocked
worker may also wake by itself. Workers and jobs are named; a job that is pushed has just been made.
An action that is not possible leaves the state as it is.
-/
namespace CServer.ThreadPool

/-- The members of `nJob` and `nWorker` that the list macros use. -/
structure Links where
  prev : Option ℕ
  next : Option ℕ

/-- `LL_ADD`: the links and the head of the list. -/
def llAdd (item : ℕ) (links : ℕ → Links) (list : Option ℕ) : (ℕ → Links) × Option ℕ :=
  (Function.update links item ⟨none, list⟩, some item)

/-- `LL_REMOVE`. -/
def llRemove (item : ℕ) (links : ℕ → Links) (list : Option ℕ) : (ℕ → Links) × Option ℕ :=
  let links := match (links item).prev with
    | some p => Function.update links p { links p with next := (links item).next }
    | none => links
  let links := match (links item).next with
    | some n => Function.update links n { links n with prev := (links item).prev }
    | none => links
  let list := if list = some item then (links item).next else list
  (Function.update links item ⟨none, none⟩, list)

/-- Where a worker is: before the lock, in the wait, woken there, with a job that it has removed, in
the job, out of the loop, and at its end, when it has released itself. -/
inductive Place where
  | ready
  | blocked
  | woken
  | holding (job : ℕ)
  | running (job : ℕ)
  | left
  | gone
  deriving DecidableEq

/-- Where `ntyThreadPoolRelease` is: not called, at the test of the loop of the shutdown, before it
follows the pointer of a worker, before the critical section, before the queue is released, and at
its end. -/
inductive Release where
  | idle
  | mark (worker : Option ℕ)
  | follow (worker : ℕ)
  | lock
  | free
  | done
  deriving DecidableEq

/-- The workers, the work queue, the jobs, and what has happened: the jobs pushed, removed by a
worker, called by a worker, the jobs that the shutdown has dropped from the list, and whether a
worker used the queue or the release a worker after it was released. -/
structure State where
  count : ℕ
  place : ℕ → Place
  terminate : ℕ → Bool
  worker : ℕ → Links
  workers : Option ℕ
  job : ℕ → Links
  waitingJobs : Option ℕ
  freed : Bool
  release : Release
  queued : List ℕ
  removed : List (ℕ × ℕ)
  called : List (ℕ × ℕ)
  queueFault : Bool
  workerFault : Bool

/-- The loop of `ntyThreadPoolCreate`. -/
def createWorkers : ℕ → (ℕ → Links) × Option ℕ
  | 0 => (fun _ => ⟨none, none⟩, none)
  | n + 1 =>
    let made := createWorkers n
    llAdd n made.1 made.2

/-- `ntyThreadPoolCreate`, when all workers have been made. -/
def ntyThreadPoolCreate (numWorkers : ℤ) : State :=
  let numWorkers := if numWorkers < 1 then 1 else numWorkers
  let made := createWorkers numWorkers.toNat
  { count := numWorkers.toNat
    place := fun _ => .ready
    terminate := fun _ => false
    worker := made.1
    workers := made.2
    job := fun _ => ⟨none, none⟩
    waitingJobs := none
    freed := false
    release := .idle
    queued := []
    removed := []
    called := []
    queueFault := false
    workerFault := false }

def State.go (σ : State) (i : ℕ) (p : Place) : State := { σ with place := Function.update σ.place i p }

/-- The critical section of `ntyWorkerThread`, from the test of the inner loop on. -/
def ntyWorkerSection (σ : State) (i : ℕ) : State :=
  if σ.freed then { σ with queueFault := true }
  else if σ.waitingJobs = none ∧ ¬σ.terminate i then σ.go i .blocked
  else if σ.terminate i then σ.go i .left
  else
    match σ.waitingJobs with
    | none => σ.go i .ready
    | some job =>
      let removed := llRemove job σ.job σ.waitingJobs
      { σ.go i (.holding job) with
        job := removed.1
        waitingJobs := removed.2
        removed := σ.removed ++ [(i, job)] }

/-- The steps of `ntyWorkerThread`. -/
def ntyWorkerThread (σ : State) (i : ℕ) : State :=
  match σ.place i with
  | .ready => ntyWorkerSection σ i
  | .blocked => σ
  | .woken => ntyWorkerSection σ i
  | .holding job => { σ.go i (.running job) with called := σ.called ++ [(i, job)] }
  | .running _ => σ.go i .ready
  | .left => σ.go i .gone
  | .gone => σ

/-- `ntyThreadPoolQueue`; the signal wakes `target`. -/
def ntyThreadPoolQueue (σ : State) (job target : ℕ) : State :=
  let added := llAdd job σ.job σ.waitingJobs
  let σ := { σ with job := added.1, waitingJobs := added.2, queued := σ.queued ++ [job] }
  if target < σ.count ∧ σ.place target = .blocked then σ.go target .woken else σ

/-- All workers that wait wake. -/
def State.broadcast (σ : State) : State :=
  { σ with place := fun i => if σ.place i = .blocked then .woken else σ.place i }

/-- The steps of `ntyThreadPoolRelease`. -/
def ntyThreadPoolRelease (σ : State) : State :=
  match σ.release with
  | .idle => { σ with release := .mark σ.workers }
  | .mark none => { σ with release := .lock }
  | .mark (some i) =>
    { σ with
      terminate := Function.update σ.terminate i true
      workerFault := σ.workerFault || σ.place i = .gone
      release := .follow i }
  | .follow i =>
    { σ with
      workerFault := σ.workerFault || σ.place i = .gone
      release := .mark (σ.worker i).next }
  | .lock => { σ with workers := none, waitingJobs := none, release := .free }.broadcast
  | .free => { σ with freed := true, release := .done }
  | .done => σ

inductive Action where
  | worker (i : ℕ)
  | wake (i : ℕ)
  | push (job target : ℕ)

/-- A step of the workers and of those that push jobs. A signal that could wake a worker does. -/
def step (σ : State) : Action → State
  | .worker i => if i < σ.count then ntyWorkerThread σ i else σ
  | .wake i => if i < σ.count ∧ σ.place i = .blocked then σ.go i .woken else σ
  | .push job target =>
    if job ∉ σ.queued ∧ σ.release = .idle ∧
        (σ.place target = .blocked ∨ ∀ i < σ.count, σ.place i ≠ .blocked) then
      ntyThreadPoolQueue σ job target
    else σ

/-- The state after some steps of a pool that is not released. -/
def run (numWorkers : ℤ) (actions : List Action) : State :=
  Runs.finalState step (ntyThreadPoolCreate numWorkers) actions

end CServer.ThreadPool
