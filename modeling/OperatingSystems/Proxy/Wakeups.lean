import Mathlib
import OperatingSystems.Lib.GuardedRuns
import OperatingSystems.Lib.CondVar
import OperatingSystems.Proxy.SafeQueue

/-!
# No request waits while all workers sleep

`num_workers` workers call `get_work` in a loop, any number of listeners call `add_work` and
`get_work_nonblocking`.  A step is one critical section of a thread, from getting the mutex to giving
it back or to going to sleep in `pthread_cond_wait`, or a wakeup without a signal.

* **`step_covers`** — seen as tokens and threads, each step is one of the steps at a condition
  variable.
* **`no_request_waits`** — in every reachable state, if a worker sleeps there are at least as many
  woken workers as queued requests.
-/

namespace OperatingSystems.Proxy.Wakeups

open GuardedRuns CondVar

/-- The queue, and where each worker stands. -/
structure State (num_workers : ℕ) where
  queue : PriorityQueue (List Char)
  worker : Fin num_workers → Phase

inductive Action (num_workers : ℕ)
  /-- a listener adds a request; the signal wakes `signalled` -/
  | addWork (client_fd priority delay : ℤ) (path : List Char) (signalled : Finset (Fin num_workers))
  /-- a listener takes a request for `/GetJob` -/
  | getJob
  /-- a worker calls `get_work` -/
  | getWork (w : Fin num_workers)
  /-- a woken worker gets the mutex again, inside `pthread_cond_wait` -/
  | reacquire (w : Fin num_workers)
  | spurious (w : Fin num_workers)

variable {n : ℕ}

/-- Worker `w` holds the mutex at the test of the `while` loop of `get_work`. -/
def AtTest (s : State n) (w : Fin n) (s' : State n) : Prop :=
  (get_work s.queue = .ok none ∧ s' = { s with worker := Function.update s.worker w .blocked }) ∨
    ∃ r queue', get_work s.queue = .ok (some (r, queue')) ∧
      s' = ⟨queue', Function.update s.worker w .outside⟩

def step (s : State n) : Action n → State n → Prop
  | .addWork client_fd priority delay path signalled, s' =>
    ∃ queue' res, add_work s.queue client_fd priority delay path = .ok (queue', res) ∧
      -- only the path that returns 0 signals
      ((res = 0 ∧ Signals s.worker signalled ∧ s' = ⟨queue', wake s.worker signalled⟩) ∨
        (res ≠ 0 ∧ s' = { s with queue := queue' }))
  | .getJob, s' => ∃ r queue', get_work_nonblocking s.queue = .ok (r, queue') ∧
      s' = { s with queue := queue' }
  | .getWork w, s' => s.worker w = .outside ∧ AtTest s w s'
  | .reacquire w, s' => s.worker w = .woken ∧ AtTest s w s'
  | .spurious w, s' => s.worker w = .blocked ∧
      s' = { s with worker := Function.update s.worker w .woken }

/-- An empty queue of size `q`, and no worker has called `get_work` yet. -/
def init (q : ℤ) (s : State n) : Prop :=
  s = ⟨create_queue q, fun _ => .outside⟩

/-- The state seen from the condition variable: the requests are tokens. -/
def view (s : State n) : ℕ × (Fin n → Phase) :=
  (s.queue.curr_size.toNat, s.worker)

section Steps

variable {q : ℤ} {s s' : State n} {xs : List (QueueRequest (List Char))}

theorem view_eq (h : Holds s.queue q xs) : view s = (xs.length, s.worker) := by
  rw [view, h.curr_size, Int.toNat_natCast]

theorem view_with_worker (h : Holds s.queue q xs) (worker : Fin n → Phase) :
    view { s with worker } = (xs.length, worker) := by
  rw [view, h.curr_size, Int.toNat_natCast]

/-- Taking a request takes one token. -/
theorem length_eraseIdx_add_one {r : QueueRequest (List Char)} {i : ℕ}
    (hmax : StableQueue.FirstMax QueueRequest.priority xs i r) :
    (xs.eraseIdx i).length + 1 = xs.length := by
  have := hmax.lt_length
  rw [List.length_eraseIdx_of_lt hmax.lt_length]
  omega

theorem atTest_covers (h : Holds s.queue q xs) {w : Fin n} (hw : s.worker w ≠ .blocked)
    (hstep : AtTest s w s') : Step (view s) (view s') ∧ ∃ xs', Holds s'.queue q xs' := by
  rw [view_eq h]
  rcases hstep with ⟨hrun, rfl⟩ | ⟨r, queue', hrun, rfl⟩
  · rcases get_work_inv h hrun with ⟨rfl, -⟩ | ⟨i, r, queue', hres, -⟩
    · refine ⟨?_, [], h⟩
      rw [view_with_worker h]
      exact .wait s.worker w
    · cases hres
  · rcases get_work_inv h hrun with ⟨-, hres⟩ | ⟨i, r₁, queue₁, hres, hmax, hholds⟩
    · cases hres
    · cases hres
      rw [view_eq hholds, ← length_eraseIdx_add_one hmax]
      exact ⟨.take _ s.worker w hw, _, hholds⟩

/-- **Every step of the server is a step at the condition variable.** -/
theorem step_covers (h : Holds s.queue q xs) {a : Action n} (hstep : step s a s') :
    Step (view s) (view s') ∧ ∃ xs', Holds s'.queue q xs' := by
  cases a with
  | addWork client_fd priority delay path signalled =>
    obtain ⟨queue', res, hrun, hres⟩ := hstep
    rw [view_eq h]
    rcases add_work_inv h hrun with ⟨rfl, rfl, -⟩ | ⟨rfl, hholds⟩
    · rcases hres with ⟨h0, -⟩ | ⟨-, rfl⟩
      · cases h0
      · rw [view_eq h]
        exact ⟨.stay _ _, xs, h⟩
    · rcases hres with ⟨-, hsig, rfl⟩ | ⟨h0, -⟩
      · rw [view_eq hholds, List.length_append, List.length_singleton]
        exact ⟨.produce _ s.worker signalled hsig, _, hholds⟩
      · exact absurd rfl h0
  | getJob =>
    obtain ⟨r, queue', hrun, rfl⟩ := hstep
    rw [view_eq h]
    rcases get_work_nonblocking_inv h hrun with ⟨-, -, rfl⟩ | ⟨i, hmax, hholds⟩
    · rw [view_eq h]
      exact ⟨.stay _ _, xs, h⟩
    · rw [view_eq hholds, ← length_eraseIdx_add_one hmax]
      exact ⟨.consume _ _, _, hholds⟩
  | getWork w =>
    obtain ⟨hw, htest⟩ := hstep
    exact atTest_covers h (by rw [hw]; decide) htest
  | reacquire w =>
    obtain ⟨hw, htest⟩ := hstep
    exact atTest_covers h (by rw [hw]; decide) htest
  | spurious w =>
    obtain ⟨hw, rfl⟩ := hstep
    refine ⟨?_, xs, h⟩
    rw [view_eq h, view_with_worker h]
    exact .spurious _ s.worker w hw

end Steps

/-- The run lemma. -/
theorem reach_covered {q : ℤ} {s : State n} (h : Reach (init q) step (fun _ _ => True) s) :
    Covered (view s) ∧ ∃ xs, Holds s.queue q xs := by
  apply h.invariant
  · intro s hs
    rw [hs]
    exact ⟨fun _ => Nat.zero_le _, [], .empty q⟩
  · intro s a s' ⟨hcov, xs, hholds⟩ _ hstep
    obtain ⟨hstep', hholds'⟩ := step_covers hholds hstep
    exact ⟨hstep'.covered hcov, hholds'⟩

/-- **No request waits while all workers sleep.**  In every reachable state, if some worker is
blocked at the condition variable then at least as many workers as there are requests in the queue
have been woken and have not got the mutex again; so a non-empty queue is never left with a worker
asleep and none woken. -/
theorem no_request_waits {q : ℤ} {s : State n} (h : Reach (init q) step (fun _ _ => True) s) :
    ((∃ w, s.worker w = .blocked) → s.queue.curr_size ≤ (woken s.worker).card) ∧
      ¬(s.queue.curr_size ≠ 0 ∧ (∃ w, s.worker w = .blocked) ∧ ∀ w, s.worker w ≠ .woken) := by
  obtain ⟨hcov, xs, hholds⟩ := reach_covered h
  rw [view_eq hholds] at hcov
  refine ⟨fun hs => ?_, ?_⟩
  · rw [hholds.curr_size]
    exact_mod_cast hcov hs
  · intro ⟨hne, hs, hnone⟩
    have hpos : 0 < xs.length := by
      rw [hholds.curr_size] at hne
      omega
    obtain ⟨w, hw⟩ := hcov.woken_nonempty hpos hs
    exact hnone w hw

/-- Two workers that have both found the empty queue. -/
def bothAsleep : State 2 :=
  ⟨create_queue 1, Function.update (Function.update (fun _ => .outside) 0 .blocked) 1 .blocked⟩

theorem bothAsleep_reach : Reach (init 1) step (fun _ _ => True) bothAsleep := by
  have hfirst : Reach (init 1) step (fun _ _ => True)
      (⟨create_queue 1, Function.update (fun _ => .outside) 0 .blocked⟩ : State 2) :=
    .next (a := .getWork 0) (.start rfl) trivial ⟨rfl, .inl ⟨rfl, rfl⟩⟩
  exact .next (a := .getWork 1) hfirst trivial ⟨rfl, .inl ⟨rfl, rfl⟩⟩

/-- A request comes, and the signal wakes the first of the two: it is queued while the other one sleeps. -/
theorem no_request_waits_signalled :
    ∃ s : State 2, Reach (init 1) step (fun _ _ => True) s ∧ s.queue.curr_size = 1 ∧
      s.worker 0 = .woken ∧ s.worker 1 = .blocked ∧ s.queue.curr_size ≤ (woken s.worker).card := by
  obtain ⟨queue', hadd, hholds⟩ := add_work_spec (.empty 1 : Holds bothAsleep.queue 1 []) (by decide)
    (by decide) 4 5 0 []
  have hsignals : Signals bothAsleep.worker {0} := by
    refine ⟨fun w hw => ?_, fun _ => Finset.singleton_nonempty 0⟩
    rw [Finset.mem_singleton.mp hw]
    rfl
  have hreach : Reach (init 1) step (fun _ _ => True)
      (⟨queue', wake bothAsleep.worker {0}⟩ : State 2) :=
    .next (a := .addWork 4 5 0 [] {0}) bothAsleep_reach trivial
      ⟨queue', 0, hadd, .inl ⟨rfl, hsignals, rfl⟩⟩
  exact ⟨_, hreach, hholds.curr_size, rfl, rfl, (no_request_waits hreach).1 ⟨1, rfl⟩⟩

end OperatingSystems.Proxy.Wakeups
