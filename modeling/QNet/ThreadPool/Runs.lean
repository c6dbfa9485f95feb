import Mathlib.Algebra.BigOperators.Fin
import Mathlib.Algebra.Order.BigOperators.Group.Finset
import Mathlib.Data.Multiset.Basic
import QNet.ThreadPool.Steps

/-!
# What the thread pool does with its jobs

Two things hold of every run, whatever the order of the steps and whichever threads are woken. A job
is taken in its turn and done once, and `thpool_wait` comes back only when the jobs added before are
done. And no wake-up is lost: while there is a job or a thread waits for the pool, not every thread
of the pool sleeps.
-/

namespace QNet.ThreadPool

variable {n : ℕ} {Job : Type*}

/-- The job that a thread has taken and not done. -/
def Worker.job : Worker Job → Multiset Job
  | .posting job | .running job => {job}
  | _ => 0

/-- How much a thread is in `num_threads_working`. -/
def Worker.weight : Worker Job → ℤ
  | .entering | .asleep | .woken => 0
  | _ => 1

/-- The thread comes to `jobqueue_pull` next. -/
def Worker.takes : Worker Job → Bool
  | .woken | .counted => true
  | _ => false

/-- The waiting thread sleeps, or is about to. -/
def Waiter.waits : Waiter → Bool
  | .leaving _ | .asleep _ => true
  | _ => false

theorem Waiter.waits_signal {waiter : Waiter} (h : waiter.holdsLock = false) :
    waiter.signal.waits = false := by
  cases waiter <;> first | rfl | cases h

theorem Waiter.signal_ne_sawEmpty {waiter : Waiter} (h : waiter.holdsLock = false) (seen : ℕ) :
    waiter ≠ .sawEmpty seen ∧ waiter.signal ≠ .sawEmpty seen := by
  cases waiter <;> simp_all [Waiter.holdsLock, Waiter.signal]

theorem Worker.weight_nonneg (worker : Worker Job) : 0 ≤ worker.weight := by
  cases worker <;> simp [Worker.weight]

theorem Worker.job_of_weight {worker : Worker Job} (h : worker.weight = 0) : worker.job = 0 := by
  cases worker <;> simp_all [Worker.weight, Worker.job]

/-! ## One thread changes -/

section Update

variable {threads : Fin n → Worker Job} {i : Fin n} {worker : Worker Job}

theorem sum_update {M : Type*} [AddCommMonoid M] (f : Worker Job → M)
    (threads : Fin n → Worker Job) (i : Fin n) (worker : Worker Job) :
    ∑ k, f (Function.update threads i worker k) + f (threads i) =
      ∑ k, f (threads k) + f worker := by
  have hnew : ∑ k, f (Function.update threads i worker k) =
      f worker + ∑ k ∈ Finset.univ \ {i}, f (threads k) := by
    rw [← Finset.sum_update_of_mem (Finset.mem_univ i)]
    apply Finset.sum_congr rfl
    intro k _
    exact Function.apply_update (fun _ ↦ f) threads i worker k
  have hold : ∑ k, f (threads k) = f (threads i) + ∑ k ∈ Finset.univ \ {i}, f (threads k) :=
    Finset.sum_eq_add_sum_sdiff_singleton_of_mem (Finset.mem_univ i) _
  rw [hnew, hold]
  ac_rfl

theorem sum_update_of_eq {M : Type*} [AddCommMonoid M] {f : Worker Job → M}
    (h : f worker = f (threads i)) :
    ∑ k, f (Function.update threads i worker k) = ∑ k, f (threads k) := by
  apply Finset.sum_congr rfl
  intro k _
  rcases eq_or_ne k i with rfl | hk
  · rw [Function.update_self, h]
  · rw [Function.update_of_ne hk]

theorem exists_update {p : Worker Job → Prop} (hi : p (threads i) → p worker)
    (h : ∃ k, p (threads k)) : ∃ k, p (Function.update threads i worker k) := by
  obtain ⟨k, hk⟩ := h
  rcases eq_or_ne k i with rfl | hne
  · exact ⟨k, by rw [Function.update_self]; exact hi hk⟩
  · exact ⟨k, by rwa [Function.update_of_ne hne]⟩

theorem takes_update (hi : (threads i).takes = true → worker.takes = true)
    (h : ∃ k, (threads k).takes = true) :
    ∃ k, (Function.update threads i worker k).takes = true :=
  exists_update (p := fun worker ↦ worker.takes = true) hi h

theorem posting_update (hi : ∀ job, threads i ≠ .posting job)
    (h : ∃ k, ∃ job, threads k = .posting job) :
    ∃ k, ∃ job, Function.update threads i worker k = .posting job :=
  exists_update (p := fun worker ↦ ∃ job, worker = .posting job)
    (fun ⟨job, h'⟩ ↦ absurd h' (hi job)) h

/-- Nobody sleeps, or somebody is awake in `bsem_wait`. -/
def Attended (threads : Fin n → Worker Job) : Prop :=
  (∃ i, threads i = .entering) ∨ ∀ i, (threads i).isAsleep = false

theorem Attended.update (h : Attended threads) (hi : threads i ≠ .entering)
    (hworker : worker.isAsleep = false) : Attended (Function.update threads i worker) := by
  rcases h with h | h
  · exact Or.inl (exists_update (p := fun worker ↦ worker = .entering)
      (fun h' ↦ absurd h' hi) h)
  · right
    intro k
    rcases eq_or_ne k i with rfl | hk
    · rwa [Function.update_self]
    · rw [Function.update_of_ne hk]
      exact h k

theorem attended_entering : Attended (Function.update threads i .entering) :=
  Or.inl ⟨i, Function.update_self ..⟩

end Update

/-! ## The invariant -/

namespace Pool

variable {s s' : Pool n Job} {i : Fin n} {job : Job} {numMaxQueue : ℤ}

structure Inv (numMaxQueue : ℤ) (s : Pool n Job) : Prop where
  queue : s.pushed = s.pulled ++ s.jobqueue
  jobs : (s.pulled : Multiset Job) = s.done + ∑ i, (s.threads i).job
  working : s.numThreadsWorking = ∑ i, (s.threads i).weight
  post : s.jobqueue ≠ [] →
    s.hasJobs = true ∨ s.rwmutex ≠ none ∨ ∃ i, (s.threads i).takes = true
  worker : s.rwmutex = some .worker → ∃ i, ∃ job, s.threads i = .posting job
  attended : s.hasJobs = true → Attended s.threads
  waits : 0 ≤ numMaxQueue → s.waiter.waits = true →
    s.jobqueue ≠ [] ∨ 0 < s.numThreadsWorking
  seen : ∀ seen, s.waiter = .sawEmpty seen → seen ≤ s.pulled.length
  returned : ∀ seen ∈ s.returned, seen ≤ s.pulled.length ∧
    (s.pulled.take seen : Multiset Job) ≤ s.done

theorem inv_init : Inv numMaxQueue (init n Job) where
  queue := rfl
  jobs := by simp [init, Worker.job]
  working := by simp [init, Worker.weight]
  post h := absurd rfl h
  worker h := by cases h
  attended h := by cases h
  waits _ h := by cases h
  seen _ h := by cases h
  returned _ h := by cases h

theorem Inv.push (hinv : Inv numMaxQueue s) (job : Job) : Inv numMaxQueue { s with
    rwmutex := some .producer
    jobqueue := s.jobqueue ++ [job]
    pushed := s.pushed ++ [job] } :=
  { hinv with
    queue := by
      change s.pushed ++ [job] = s.pulled ++ (s.jobqueue ++ [job])
      rw [hinv.queue, List.append_assoc]
    post := fun _ ↦ Or.inr (Or.inl (Option.some_ne_none _))
    worker := fun h ↦ by cases h
    waits := fun _ _ ↦ Or.inl (List.append_ne_nil_of_right_ne_nil _ (List.cons_ne_nil _ _)) }

/-- What changes when thread `i` goes on and takes no job. -/
theorem Inv.setThread (hinv : Inv numMaxQueue s) {worker : Worker Job}
    (hjob : worker.job = (s.threads i).job) (hweight : worker.weight = (s.threads i).weight)
    (htakes : s.jobqueue ≠ [] → (s.threads i).takes = true → worker.takes = true)
    (hposting : ∀ job, s.threads i ≠ .posting job)
    (hattended : s.hasJobs = true → Attended (Function.update s.threads i worker)) :
    Inv numMaxQueue (s.setThread i worker) :=
  { hinv with
    jobs := by
      exact hinv.jobs.trans (congrArg _ (sum_update_of_eq hjob).symm)
    working := by
      exact hinv.working.trans (sum_update_of_eq hweight).symm
    post := fun h ↦ (hinv.post h).imp_right (Or.imp_right (takes_update (htakes h)))
    worker := fun h ↦ posting_update hposting (hinv.worker h)
    attended := hattended }

theorem Inv.bsemPost (hinv : Inv numMaxQueue s) (wake : Option (Fin n)) (hwakes : s.Wakes wake) :
    Inv numMaxQueue (s.bsemPost wake) := by
  cases wake with
  | none =>
    exact { hinv with
      post := fun _ ↦ Or.inl rfl
      worker := fun h ↦ by cases h
      attended := fun _ ↦ Or.inr hwakes }
  | some i =>
    have hasleep : s.threads i = .asleep := by
      have hi : (s.threads i).isAsleep = true := hwakes
      cases hworker : s.threads i <;> rw [hworker] at hi <;> first | rfl | cases hi
    exact { hinv with
      jobs := by
        exact hinv.jobs.trans (congrArg _ (sum_update_of_eq (by rw [hasleep]; rfl)).symm)
      working := by
        exact hinv.working.trans (sum_update_of_eq (by rw [hasleep]; rfl)).symm
      post := fun _ ↦ Or.inl rfl
      worker := fun h ↦ by cases h
      attended := fun _ ↦ attended_entering }

theorem Inv.test (hinv : Inv numMaxQueue s) (hi : s.threads i = .entering) :
    Inv numMaxQueue { s.setThread i .woken with hasJobs := false } :=
  { hinv with
    jobs := by
      exact hinv.jobs.trans (congrArg _ (sum_update_of_eq (by rw [hi]; rfl)).symm)
    working := by
      exact hinv.working.trans (sum_update_of_eq (by rw [hi]; rfl)).symm
    post := fun _ ↦ Or.inr (Or.inr ⟨i, by simp [Pool.setThread, Worker.takes]⟩)
    worker := fun h ↦ posting_update (by rw [hi]; exact nofun) (hinv.worker h)
    attended := fun h ↦ by cases h }

theorem Inv.count (hinv : Inv numMaxQueue s) (hi : s.threads i = .woken) :
    Inv numMaxQueue { s.setThread i .counted with numThreadsWorking := s.numThreadsWorking + 1 } :=
  { hinv with
    jobs := by
      exact hinv.jobs.trans (congrArg _ (sum_update_of_eq (by rw [hi]; rfl)).symm)
    working := by
      have hsum := sum_update Worker.weight s.threads i .counted
      rw [hi, ← hinv.working] at hsum
      exact (add_zero _).symm.trans hsum |>.symm
    post := fun h ↦ (hinv.post h).imp_right (Or.imp_right (takes_update fun _ ↦ rfl))
    worker := fun h ↦ posting_update (by rw [hi]; exact nofun) (hinv.worker h)
    attended := fun h ↦ (hinv.attended h).update (by rw [hi]; exact nofun) rfl
    waits := fun hmax h ↦ (hinv.waits hmax h).imp_right fun h' ↦ by
      change 0 < s.numThreadsWorking + 1
      omega }

/-- A job that was taken is with the thread until it is done. -/
theorem Inv.jobs_pull (hinv : Inv numMaxQueue s) (hi : s.threads i = .counted) {worker : Worker Job}
    (hjob : worker.job = {job}) :
    ((s.pulled ++ [job] : List Job) : Multiset Job) =
      s.done + ∑ k, (Function.update s.threads i worker k).job := by
  have hsum := sum_update Worker.job s.threads i worker
  rw [hi, hjob] at hsum
  have hnone : (Worker.counted : Worker Job).job = 0 := rfl
  rw [hnone, add_zero] at hsum
  rw [← Multiset.coe_add, hinv.jobs, hsum, add_assoc, Multiset.coe_singleton]

theorem Inv.returned_pull (hinv : Inv numMaxQueue s) (job : Job) : ∀ seen ∈ s.returned,
    seen ≤ (s.pulled ++ [job]).length ∧
      (((s.pulled ++ [job]).take seen : List Job) : Multiset Job) ≤ s.done := by
  intro seen hseen
  obtain ⟨hle, hdone⟩ := hinv.returned seen hseen
  rw [List.take_append_of_le_length hle, List.length_append]
  exact ⟨Nat.le_add_right_of_le hle, hdone⟩

theorem Inv.seen_pull (hinv : Inv numMaxQueue s) (job : Job) : ∀ seen, s.waiter = .sawEmpty seen →
    seen ≤ (s.pulled ++ [job]).length := by
  intro seen hseen
  rw [List.length_append]
  exact Nat.le_add_right_of_le (hinv.seen seen hseen)

theorem Inv.working_pos (hinv : Inv numMaxQueue s) (hi : 0 < (s.threads i).weight) :
    0 < s.numThreadsWorking := by
  rw [hinv.working]
  calc
    0 < (s.threads i).weight := hi
    _ ≤ ∑ k, (s.threads k).weight :=
      Finset.single_le_sum (fun k _ ↦ (s.threads k).weight_nonneg) (Finset.mem_univ i)

theorem Inv.pull (hinv : Inv numMaxQueue s) (hi : s.threads i = .counted) (worker : Worker Job)
    (rwmutex : Option Holder) {jobqueue : List Job} (hqueue : s.jobqueue = job :: jobqueue)
    (hjob : worker.job = {job}) (hweight : worker.weight = 1) (hasleep : worker.isAsleep = false)
    (hpost : jobqueue ≠ [] → rwmutex ≠ none)
    (hworker : rwmutex = some .worker → ∃ job, worker = .posting job) :
    Inv numMaxQueue { s.setThread i worker with
      rwmutex := rwmutex
      jobqueue := jobqueue
      pulled := s.pulled ++ [job] } :=
  { hinv with
    queue := by
      change s.pushed = s.pulled ++ [job] ++ jobqueue
      rw [hinv.queue, hqueue, List.append_assoc, List.singleton_append]
    jobs := hinv.jobs_pull hi hjob
    working := hinv.working.trans (sum_update_of_eq (by rw [hi, hweight]; rfl)).symm
    post := fun h ↦ Or.inr (Or.inl (hpost h))
    worker := fun h ↦ ⟨i, (hworker h).imp fun _ h' ↦ by
      rw [← h']
      exact Function.update_self ..⟩
    attended := fun h ↦ (hinv.attended h).update (by rw [hi]; exact nofun) hasleep
    waits := fun _ _ ↦ Or.inr (hinv.working_pos (by rw [hi]; exact Int.one_pos))
    seen := hinv.seen_pull job
    returned := hinv.returned_pull job }

theorem Inv.postRest (hinv : Inv numMaxQueue s) (hi : s.threads i = .posting job)
    {wake : Option (Fin n)} (hwakes : s.Wakes wake) :
    Inv numMaxQueue ((s.setThread i (.running job)).bsemPost wake) := by
  have hrunning : Inv numMaxQueue { s.setThread i (.running job) with rwmutex := some .producer } :=
    { hinv with
      jobs := hinv.jobs.trans (congrArg _ (sum_update_of_eq (by rw [hi]; rfl)).symm)
      working := hinv.working.trans (sum_update_of_eq (by rw [hi]; rfl)).symm
      post := fun _ ↦ Or.inr (Or.inl (Option.some_ne_none _))
      worker := fun h ↦ by cases h
      attended := fun h ↦ (hinv.attended h).update (by rw [hi]; exact nofun) rfl }
  cases wake with
  | none =>
    refine hrunning.bsemPost none fun k ↦ ?_
    change (Function.update s.threads i (.running job) k).isAsleep = false
    rcases eq_or_ne k i with rfl | hk
    · rw [Function.update_self]
      rfl
    · rw [Function.update_of_ne hk]
      exact hwakes k
  | some k =>
    have hasleep : (s.threads k).isAsleep = true := hwakes
    have hk : k ≠ i := by
      rintro rfl
      rw [hi] at hasleep
      cases hasleep
    apply hrunning.bsemPost (some k)
    change (Function.update s.threads i (.running job) k).isAsleep = true
    rwa [Function.update_of_ne hk]

theorem Inv.run (hinv : Inv numMaxQueue s) (hi : s.threads i = .running job) :
    Inv numMaxQueue { s.setThread i .finished with done := s.done ++ [job] } :=
  { hinv with
    jobs := by
      have hsum := sum_update Worker.job s.threads i .finished
      have hrunning : (Worker.running job).job = {job} := rfl
      have hfinished : (Worker.finished : Worker Job).job = 0 := rfl
      rw [hi, hrunning, hfinished, add_zero] at hsum
      change (s.pulled : Multiset Job) = ((s.done ++ [job] : List Job) : Multiset Job) +
        ∑ k, (Function.update s.threads i .finished k).job
      rw [← Multiset.coe_add, hinv.jobs, ← hsum, Multiset.coe_singleton]
      ac_rfl
    working := hinv.working.trans (sum_update_of_eq (by rw [hi]; rfl)).symm
    post := fun h ↦ (hinv.post h).imp_right
      (Or.imp_right (takes_update (by rw [hi]; exact nofun)))
    worker := fun h ↦ posting_update (by rw [hi]; exact nofun) (hinv.worker h)
    attended := fun h ↦ (hinv.attended h).update (by rw [hi]; exact nofun) rfl
    returned := fun seen hseen ↦ by
      obtain ⟨hle, hdone⟩ := hinv.returned seen hseen
      refine ⟨hle, hdone.trans ?_⟩
      change (s.done : Multiset Job) ≤ ((s.done ++ [job] : List Job) : Multiset Job)
      rw [← Multiset.coe_add]
      exact Multiset.le_add_right _ _ }

theorem Inv.uncount (hinv : Inv numMaxQueue s) (hi : s.threads i = .finished)
    (hlock : s.waiter.holdsLock = false) :
    Inv numMaxQueue { s.setThread i .entering with
      numThreadsWorking := s.numThreadsWorking - 1
      waiter := if s.numThreadsWorking - 1 = 0 then s.waiter.signal else s.waiter } :=
  { hinv with
    jobs := hinv.jobs.trans (congrArg _ (sum_update_of_eq (by rw [hi]; rfl)).symm)
    working := by
      have hsum := sum_update Worker.weight s.threads i .entering
      have hfinished : (Worker.finished : Worker Job).weight = 1 := rfl
      have hentering : (Worker.entering : Worker Job).weight = 0 := rfl
      rw [hi, ← hinv.working, hfinished, hentering] at hsum
      change s.numThreadsWorking - 1 = ∑ k, (Function.update s.threads i .entering k).weight
      omega
    post := fun h ↦ (hinv.post h).imp_right
      (Or.imp_right (takes_update (by rw [hi]; exact nofun)))
    worker := fun h ↦ posting_update (by rw [hi]; exact nofun) (hinv.worker h)
    attended := fun _ ↦ attended_entering
    waits := by
      have hpos := hinv.working_pos (i := i) (by rw [hi]; exact Int.one_pos)
      intro _ h
      dsimp only at h ⊢
      split_ifs at h with hzero
      · -- The thread that waits is awake now.
        rw [Waiter.waits_signal hlock] at h
        cases h
      · right
        omega
    seen := fun seen h ↦ by
      obtain ⟨hne, hsignal⟩ := Waiter.signal_ne_sawEmpty hlock seen
      dsimp only at h
      split_ifs at h
      · exact absurd h hsignal
      · exact absurd h hne }

/-- `thpool_wait` comes back: no thread has a job, and what had been added was taken. -/
theorem Inv.readWorking (hinv : Inv numMaxQueue s) {seen : ℕ} (hwaiter : s.waiter = .sawEmpty seen)
    (hzero : s.numThreadsWorking = 0) :
    Inv numMaxQueue { s with waiter := .idle, returned := s.returned ++ [seen] } :=
  { hinv with
    waits := fun _ h ↦ by cases h
    seen := fun _ h ↦ by cases h
    returned := fun k hk ↦ by
      have hweight : ∀ i ∈ Finset.univ, (s.threads i).weight = 0 := by
        rw [← Finset.sum_eq_zero_iff_of_nonneg fun i _ ↦ (s.threads i).weight_nonneg,
          ← hinv.working, hzero]
      have hdone : (s.pulled : Multiset Job) = s.done := by
        rw [hinv.jobs, Finset.sum_eq_zero fun i hi ↦ Worker.job_of_weight (hweight i hi),
          add_zero]
      rcases List.mem_append.mp hk with hk | hk
      · exact hinv.returned k hk
      · rw [List.mem_singleton.mp hk]
        refine ⟨hinv.seen seen hwaiter, ?_⟩
        change (s.pulled.take seen : Multiset Job) ≤ s.done
        rw [← hdone]
        exact (List.take_sublist _ _).subperm }

/-- The waiting thread goes on. -/
theorem Inv.setWaiter (hinv : Inv numMaxQueue s) {waiter : Waiter}
    (hwaits : 0 ≤ numMaxQueue → waiter.waits = true →
      s.jobqueue ≠ [] ∨ 0 < s.numThreadsWorking)
    (hseen : ∀ seen, waiter = .sawEmpty seen → seen ≤ s.pulled.length) :
    Inv numMaxQueue { s with waiter := waiter } :=
  { hinv with waits := hwaits, seen := hseen }

/-! ## Steps -/

theorem Inv.next_readLen (hinv : Inv numMaxQueue s)
    (h : s.next numMaxQueue .readLen = some s') : Inv numMaxQueue s' := by
  simp only [next] at h
  split at h
  · split_ifs at h with hqueue
    · cases h
      exact hinv.setWaiter
        (fun _ _ ↦ Or.inl (List.length_pos_iff.mp (Nat.pos_of_ne_zero hqueue))) nofun
    · cases h
      apply hinv.setWaiter (fun _ h ↦ by cases h)
      intro seen hseen
      have hempty : s.jobqueue = [] := List.length_eq_zero_iff.mp (not_not.mp hqueue)
      cases hseen
      rw [hinv.queue, hempty, List.append_nil]
  · split_ifs at h with hqueue
    · cases h
      exact hinv.setWaiter (fun _ _ ↦ Or.inl (List.length_pos_iff.mp (by omega))) nofun
    · cases h
      exact hinv.setWaiter (fun _ h ↦ by cases h) nofun
  · cases h

theorem Inv.next_pull (hinv : Inv numMaxQueue s)
    (h : s.next numMaxQueue (.pull i) = some s') : Inv numMaxQueue s' := by
  simp only [next] at h
  split at h
  case h_2 => cases h
  case h_1 hi =>
    split_ifs at h with hfree
    split at h
    case h_1 hqueue =>
      cases h
      exact hinv.setThread (by rw [hi]; rfl) (by rw [hi]; rfl)
        (fun hne ↦ absurd hqueue hne) (by rw [hi]; exact nofun)
        (fun h ↦ (hinv.attended h).update (by rw [hi]; exact nofun) rfl)
    case h_2 job hqueue =>
      cases h
      exact hinv.pull hi (.running job) s.rwmutex hqueue rfl rfl rfl (fun h ↦ absurd rfl h)
        (by rw [hfree]; exact nofun)
    case h_3 job jobqueue _ hqueue =>
      cases h
      exact hinv.pull hi (.posting job) (some .worker) hqueue rfl rfl rfl
        (fun _ ↦ Option.some_ne_none _) (fun _ ↦ ⟨job, rfl⟩)

theorem Inv.next_push (hinv : Inv numMaxQueue s) {job : Job}
    (h : s.next numMaxQueue (.push job) = some s') : Inv numMaxQueue s' := by
  simp only [next] at h
  split_ifs at h
  cases h
  exact hinv.push job

theorem Inv.next_post (hinv : Inv numMaxQueue s) {wake : Option (Fin n)}
    (h : s.next numMaxQueue (.post wake) = some s') : Inv numMaxQueue s' := by
  simp only [next] at h
  split_ifs at h with hpost
  cases h
  exact hinv.bsemPost wake hpost.2

theorem Inv.next_test (hinv : Inv numMaxQueue s)
    (h : s.next numMaxQueue (.test i) = some s') : Inv numMaxQueue s' := by
  simp only [next] at h
  split at h
  case h_2 => cases h
  case h_1 hi =>
    split_ifs at h with hjobs
    · cases h
      exact hinv.test hi
    · cases h
      exact hinv.setThread (by rw [hi]; rfl) (by rw [hi]; rfl)
        (fun _ ↦ by rw [hi]; exact nofun) (by rw [hi]; exact nofun)
        (fun h ↦ absurd h hjobs)

theorem Inv.next_spurious (hinv : Inv numMaxQueue s)
    (h : s.next numMaxQueue (.spurious i) = some s') : Inv numMaxQueue s' := by
  simp only [next] at h
  split at h
  case h_2 => cases h
  case h_1 hi =>
    cases h
    exact hinv.setThread (by rw [hi]; rfl) (by rw [hi]; rfl)
      (fun _ ↦ by rw [hi]; exact nofun) (by rw [hi]; exact nofun) (fun _ ↦ attended_entering)

theorem Inv.next_count (hinv : Inv numMaxQueue s)
    (h : s.next numMaxQueue (.count i) = some s') : Inv numMaxQueue s' := by
  simp only [next] at h
  split at h
  case h_2 => cases h
  case h_1 hi =>
    split_ifs at h
    cases h
    exact hinv.count hi

theorem Inv.next_postRest (hinv : Inv numMaxQueue s) {wake : Option (Fin n)}
    (h : s.next numMaxQueue (.postRest i wake) = some s') : Inv numMaxQueue s' := by
  simp only [next] at h
  split at h
  case h_2 => cases h
  case h_1 hi =>
    split_ifs at h with hpost
    cases h
    exact hinv.postRest hi hpost.2

theorem Inv.next_run (hinv : Inv numMaxQueue s)
    (h : s.next numMaxQueue (.run i) = some s') : Inv numMaxQueue s' := by
  simp only [next] at h
  split at h
  case h_2 => cases h
  case h_1 hi =>
    cases h
    exact hinv.run hi

theorem Inv.next_uncount (hinv : Inv numMaxQueue s)
    (h : s.next numMaxQueue (.uncount i) = some s') : Inv numMaxQueue s' := by
  simp only [next] at h
  split at h
  case h_2 => cases h
  case h_1 hi =>
    by_cases hlock : s.waiter.holdsLock = true
    · rw [if_pos hlock] at h
      cases h
    · rw [if_neg hlock] at h
      cases h
      exact hinv.uncount hi (Bool.eq_false_iff.mpr hlock)

theorem Inv.next_wait (hinv : Inv numMaxQueue s) {wait : Wait}
    (h : s.next numMaxQueue (.wait wait) = some s') : Inv numMaxQueue s' := by
  simp only [next] at h
  split_ifs at h
  cases h
  exact hinv.setWaiter (fun _ h ↦ by cases h) nofun

theorem Inv.next_readWorking (hinv : Inv numMaxQueue s)
    (h : s.next numMaxQueue .readWorking = some s') : Inv numMaxQueue s' := by
  simp only [next] at h
  split at h
  case h_2 => cases h
  case h_1 seen hwaiter =>
    split_ifs at h with hworking
    · cases h
      refine hinv.setWaiter (fun _ _ ↦ Or.inr ?_) nofun
      have hnonneg : 0 ≤ s.numThreadsWorking :=
        hinv.working ▸ Finset.sum_nonneg fun i _ ↦ (s.threads i).weight_nonneg
      omega
    · cases h
      exact hinv.readWorking hwaiter (not_not.mp hworking)

theorem Inv.next_sleep (hinv : Inv numMaxQueue s)
    (h : s.next numMaxQueue .sleep = some s') : Inv numMaxQueue s' := by
  simp only [next] at h
  split at h
  case h_2 => cases h
  case h_1 wait hwaiter =>
    cases h
    exact hinv.setWaiter (fun hmax _ ↦ hinv.waits hmax (by rw [hwaiter]; rfl)) nofun

theorem Inv.next_spuriousWait (hinv : Inv numMaxQueue s)
    (h : s.next numMaxQueue .spuriousWait = some s') : Inv numMaxQueue s' := by
  simp only [next] at h
  split at h
  case h_2 => cases h
  case h_1 wait hwaiter =>
    cases h
    exact hinv.setWaiter (fun _ h ↦ by cases h) nofun

theorem Inv.next_relock (hinv : Inv numMaxQueue s)
    (h : s.next numMaxQueue .relock = some s') : Inv numMaxQueue s' := by
  simp only [next] at h
  split at h
  case h_2 => cases h
  case h_1 wait hwaiter =>
    cases h
    exact hinv.setWaiter (fun _ h ↦ by cases h) nofun

theorem Inv.next (hinv : Inv numMaxQueue s) {e : Act n Job}
    (h : s.next numMaxQueue e = some s') : Inv numMaxQueue s' := by
  cases e with
  | push job => exact hinv.next_push h
  | post wake => exact hinv.next_post h
  | test i => exact hinv.next_test h
  | spurious i => exact hinv.next_spurious h
  | count i => exact hinv.next_count h
  | pull i => exact hinv.next_pull h
  | postRest i wake => exact hinv.next_postRest h
  | run i => exact hinv.next_run h
  | uncount i => exact hinv.next_uncount h
  | wait wait => exact hinv.next_wait h
  | readLen => exact hinv.next_readLen h
  | readWorking => exact hinv.next_readWorking h
  | sleep => exact hinv.next_sleep h
  | spuriousWait => exact hinv.next_spuriousWait h
  | relock => exact hinv.next_relock h

/-! ## Runs -/

variable {acts : List (Act n Job)}

theorem inv_of_run (hrun : (machine n Job numMaxQueue).Run acts s) :
    Inv numMaxQueue s := by
  apply hrun.invariant
  · intro s hs
    cases hs
    exact inv_init
  · intro s e s' hinv h
    exact hinv.next h

/-- Both threads sleep when a job is added, and one of them is woken. `thpool_wait` finds the job in
the queue and sleeps. -/
def sampleActs : List (Act 2 ℕ) :=
  [.test 0, .test 1, .push 5, .post (some 0), .test 0, .wait .all, .readLen, .sleep]

/-- The job is done, and `thpool_wait` comes back. -/
def sampleRest : List (Act 2 ℕ) :=
  [.count 0, .pull 0, .run 0, .uncount 0, .relock, .readLen, .readWorking]

/-- Every job is taken in its turn, and what was taken is done once or is with one thread. When
`thpool_wait` has come back, the jobs that had been added at its test are done. -/
theorem jobs_once (hrun : (machine n Job numMaxQueue).Run acts s) :
    s.pushed = s.pulled ++ s.jobqueue ∧
      (s.pulled : Multiset Job) = s.done + ∑ i, (s.threads i).job ∧
      ∀ seen ∈ s.returned, seen ≤ s.pushed.length ∧
        (s.pushed.take seen : Multiset Job) ≤ s.done := by
  have hinv := inv_of_run hrun
  refine ⟨hinv.queue, hinv.jobs, fun seen hseen ↦ ?_⟩
  obtain ⟨hle, hdone⟩ := hinv.returned seen hseen
  rw [hinv.queue, List.take_append_of_le_length hle, List.length_append]
  exact ⟨Nat.le_add_right_of_le hle, hdone⟩

theorem jobs_once_waited : ∃ s, (machine 2 ℕ 25).Run (sampleActs ++ sampleRest) s ∧
    s.returned = [1] ∧ (s.pushed.take 1 : Multiset ℕ) ≤ s.done := by
  obtain ⟨s, hrun, hreturned⟩ : ∃ s, (machine 2 ℕ 25).Run (sampleActs ++ sampleRest) s ∧
      s.returned = [1] := Machine.exists_run_ofNext _ _ _ (by decide)
  refine ⟨s, hrun, hreturned, ?_⟩
  exact ((jobs_once hrun).2.2 1 (by rw [hreturned]; exact List.mem_singleton_self 1)).2

/-- While the queue has jobs or a thread sleeps until the pool is idle, a thread of the pool is
awake, unless the one that has just added a job has not called `bsem_post` yet. -/
theorem no_lost_wakeup (hn : 0 < n) (hmax : 0 ≤ numMaxQueue)
    (hrun : (machine n Job numMaxQueue).Run acts s)
    (hwork : s.jobqueue ≠ [] ∨ ∃ wait, s.waiter = .asleep wait) :
    s.rwmutex = some .producer ∨ ∃ i, (s.threads i).isAsleep = false := by
  have hinv := inv_of_run hrun
  have hbusy : s.jobqueue ≠ [] ∨ 0 < s.numThreadsWorking := by
    rcases hwork with hqueue | ⟨wait, hwaiter⟩
    · exact Or.inl hqueue
    · exact hinv.waits hmax (by rw [hwaiter]; rfl)
  rcases hbusy with hqueue | hpos
  · rcases hinv.post hqueue with hjobs | hheld | ⟨i, hi⟩
    · rcases hinv.attended hjobs with ⟨i, hi⟩ | hnone
      · exact Or.inr ⟨i, by rw [hi]; rfl⟩
      · exact Or.inr ⟨⟨0, hn⟩, hnone _⟩
    · cases hholder : s.rwmutex with
      | none => exact absurd hholder hheld
      | some holder =>
        cases holder with
        | producer => exact Or.inl rfl
        | worker =>
          obtain ⟨i, job, hi⟩ := hinv.worker hholder
          exact Or.inr ⟨i, by rw [hi]; rfl⟩
    · refine Or.inr ⟨i, ?_⟩
      cases hworker : s.threads i <;> rw [hworker] at hi <;> first | rfl | cases hi
  · right
    by_contra hall
    have hweight : ∑ i, (s.threads i).weight = 0 := by
      apply Finset.sum_eq_zero
      intro i _
      have hi : (s.threads i).isAsleep = true := by
        by_contra h
        exact hall ⟨i, Bool.eq_false_iff.mpr h⟩
      cases hworker : s.threads i <;> rw [hworker] at hi <;> first | rfl | cases hi
    rw [hinv.working, hweight] at hpos
    exact absurd hpos (lt_irrefl 0)

theorem no_lost_wakeup_waiting : ∃ s, (machine 2 ℕ 25).Run sampleActs s ∧
    s.waiter = .asleep .all ∧
    (s.rwmutex = some .producer ∨ ∃ i, (s.threads i).isAsleep = false) := by
  obtain ⟨s, hrun, hwaiter⟩ : ∃ s, (machine 2 ℕ 25).Run sampleActs s ∧
      s.waiter = .asleep .all := Machine.exists_run_ofNext _ _ _ (by decide)
  exact ⟨s, hrun, hwaiter,
    no_lost_wakeup (by decide) (by decide) hrun (Or.inr ⟨.all, hwaiter⟩)⟩

end Pool

end QNet.ThreadPool
