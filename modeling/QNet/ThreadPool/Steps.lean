import Mathlib.Logic.Function.Basic
import QNet.Lib.Machine

/-!
# The thread pool of the tunnels

The threads of a pool take jobs from one queue. A binary semaphore says that the queue has jobs,
`rwmutex` guards the queue, and `thcount_lock` guards how many threads are at work, for the one
thread that waits for the pool. What a thread does under one of these locks is one step, and a
place where it holds one lock and waits for another is a state of its own. `pthread_cond_signal`
wakes a thread that sleeps whenever there is one, and a thread may also wake up for no reason.
-/

namespace QNet.ThreadPool

variable {n : ℕ} {Job : Type*}

/-- Where a thread is in `thread_do`. -/
inductive Worker (Job : Type*) where
  /-- Before the test in `bsem_wait`. -/
  | entering
  /-- In `pthread_cond_wait` of `bsem_wait`. -/
  | asleep
  /-- Behind `bsem_wait`. -/
  | woken
  /-- Behind `num_threads_working++`. -/
  | counted
  /-- In `jobqueue_pull`, before `bsem_post`. -/
  | posting (job : Job)
  | running (job : Job)
  /-- Before `num_threads_working--`. -/
  | finished

def Worker.isAsleep : Worker Job → Bool
  | .asleep => true
  | _ => false

/-- `thpool_wait` and `thpool_wait_max` -/
inductive Wait where
  | all
  | max
  deriving DecidableEq

/-- Where the waiting thread is. -/
inductive Waiter where
  | idle
  | locked (wait : Wait)
  /-- `thpool_wait` has read that `len` is 0, when so many jobs had been added. -/
  | sawEmpty (seen : ℕ)
  /-- The test has failed, and `pthread_cond_wait` comes. -/
  | leaving (wait : Wait)
  | asleep (wait : Wait)
  | awake (wait : Wait)
  deriving DecidableEq

/-- The waiting thread has `thcount_lock`. -/
def Waiter.holdsLock : Waiter → Bool
  | .locked _ | .sawEmpty _ | .leaving _ => true
  | _ => false

/-- `pthread_cond_signal(&thpool_p->threads_all_idle)` -/
def Waiter.signal : Waiter → Waiter
  | .asleep wait => .awake wait
  | waiter => waiter

/-- Who has `rwmutex` and has not called `bsem_post` yet. -/
inductive Holder where
  | producer
  | worker
  deriving DecidableEq

/-- A pool of `n` threads. `pushed`, `pulled`, `done` and `returned` are its history: the jobs that
were added, taken and done, and how many had been added at each test with which `thpool_wait` came
back. -/
structure Pool (n : ℕ) (Job : Type*) where
  threads : Fin n → Worker Job
  numThreadsWorking : ℤ
  jobqueue : List Job
  hasJobs : Bool
  rwmutex : Option Holder
  waiter : Waiter
  pushed : List Job
  pulled : List Job
  done : List Job
  returned : List ℕ

inductive Act (n : ℕ) (Job : Type*) where
  /-- `jobqueue_push` up to `bsem_post`. -/
  | push (job : Job)
  /-- `bsem_post` of `jobqueue_push`. -/
  | post (wake : Option (Fin n))
  /-- The test in `bsem_wait`. -/
  | test (i : Fin n)
  | spurious (i : Fin n)
  /-- `num_threads_working++` -/
  | count (i : Fin n)
  /-- `jobqueue_pull` up to `bsem_post`. -/
  | pull (i : Fin n)
  /-- `bsem_post` of `jobqueue_pull`. -/
  | postRest (i : Fin n) (wake : Option (Fin n))
  | run (i : Fin n)
  /-- `num_threads_working--` -/
  | uncount (i : Fin n)
  /-- `thpool_wait` or `thpool_wait_max` is called. -/
  | wait (wait : Wait)
  | readLen
  | readWorking
  | sleep
  | spuriousWait
  | relock

namespace Pool

/-- `thpool_init`, when every thread is alive. -/
def init (n : ℕ) (Job : Type*) : Pool n Job where
  threads _ := .entering
  numThreadsWorking := 0
  jobqueue := []
  hasJobs := false
  rwmutex := none
  waiter := .idle
  pushed := []
  pulled := []
  done := []
  returned := []

def setThread (s : Pool n Job) (i : Fin n) (worker : Worker Job) : Pool n Job :=
  { s with threads := Function.update s.threads i worker }

/-- The thread that `pthread_cond_signal` may wake, if any sleeps. -/
def Wakes (s : Pool n Job) : Option (Fin n) → Prop
  | some i => (s.threads i).isAsleep = true
  | none => ∀ i, (s.threads i).isAsleep = false

instance (s : Pool n Job) (wake : Option (Fin n)) : Decidable (s.Wakes wake) :=
  match wake with
  | some i => inferInstanceAs (Decidable ((s.threads i).isAsleep = true))
  | none => inferInstanceAs (Decidable (∀ i, (s.threads i).isAsleep = false))

/-- `bsem_post`, after which `rwmutex` is free. -/
def bsemPost (s : Pool n Job) (wake : Option (Fin n)) : Pool n Job :=
  { s with
    hasJobs := true
    rwmutex := none
    threads := match wake with
      | some i => Function.update s.threads i .entering
      | none => s.threads }

/-- One step. `none` where it cannot happen. -/
@[simp]
def next (numMaxQueue : ℤ) (s : Pool n Job) : Act n Job → Option (Pool n Job)
  | .push job =>
      if s.rwmutex = none then
        some { s with
          rwmutex := some .producer
          jobqueue := s.jobqueue ++ [job]
          pushed := s.pushed ++ [job] }
      else none
  | .post wake =>
      if s.rwmutex = some .producer ∧ s.Wakes wake then some (s.bsemPost wake) else none
  | .test i =>
      match s.threads i with
      | .entering =>
          if s.hasJobs then some { s.setThread i .woken with hasJobs := false }
          else some (s.setThread i .asleep)
      | _ => none
  | .spurious i =>
      match s.threads i with
      | .asleep => some (s.setThread i .entering)
      | _ => none
  | .count i =>
      match s.threads i with
      | .woken =>
          if s.waiter.holdsLock then none
          else some { s.setThread i .counted with numThreadsWorking := s.numThreadsWorking + 1 }
      | _ => none
  | .pull i =>
      match s.threads i with
      | .counted =>
          if s.rwmutex = none then
            match s.jobqueue with
            | [] => some (s.setThread i .finished)
            | [job] =>
                some { s.setThread i (.running job) with
                  jobqueue := []
                  pulled := s.pulled ++ [job] }
            | job :: jobqueue =>
                some { s.setThread i (.posting job) with
                  rwmutex := some .worker
                  jobqueue := jobqueue
                  pulled := s.pulled ++ [job] }
          else none
      | _ => none
  | .postRest i wake =>
      match s.threads i with
      | .posting job =>
          if s.rwmutex = some .worker ∧ s.Wakes wake then
            some ((s.setThread i (.running job)).bsemPost wake)
          else none
      | _ => none
  | .run i =>
      match s.threads i with
      | .running job => some { s.setThread i .finished with done := s.done ++ [job] }
      | _ => none
  | .uncount i =>
      match s.threads i with
      | .finished =>
          if s.waiter.holdsLock then none
          else
            some { s.setThread i .entering with
              numThreadsWorking := s.numThreadsWorking - 1
              waiter := if s.numThreadsWorking - 1 = 0 then s.waiter.signal else s.waiter }
      | _ => none
  | .wait wait => if s.waiter = .idle then some { s with waiter := .locked wait } else none
  | .readLen =>
      match s.waiter with
      | .locked .all =>
          if s.jobqueue.length ≠ 0 then some { s with waiter := .leaving .all }
          else some { s with waiter := .sawEmpty s.pushed.length }
      | .locked .max =>
          if numMaxQueue < s.jobqueue.length then some { s with waiter := .leaving .max }
          else some { s with waiter := .idle }
      | _ => none
  | .readWorking =>
      match s.waiter with
      | .sawEmpty seen =>
          if s.numThreadsWorking ≠ 0 then some { s with waiter := .leaving .all }
          else some { s with waiter := .idle, returned := s.returned ++ [seen] }
      | _ => none
  | .sleep =>
      match s.waiter with
      | .leaving wait => some { s with waiter := .asleep wait }
      | _ => none
  | .spuriousWait =>
      match s.waiter with
      | .asleep wait => some { s with waiter := .awake wait }
      | _ => none
  | .relock =>
      match s.waiter with
      | .awake wait => some { s with waiter := .locked wait }
      | _ => none

def machine (n : ℕ) (Job : Type*) (numMaxQueue : ℤ) : Machine (Pool n Job) (Act n Job) :=
  .ofNext (init n Job) (next numMaxQueue)

end Pool

end QNet.ThreadPool
