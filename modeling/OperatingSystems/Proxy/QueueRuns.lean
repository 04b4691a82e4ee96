import Mathlib
import OperatingSystems.Lib.GuardedRuns
import OperatingSystems.Proxy.SafeQueue

/-!
# The request queue as a stable priority queue

Listeners and workers call the queue in any order; each call holds the mutex from its first access to
its last, so a run is a sequence of whole calls, and which thread makes a call does not matter to the
queue.  `path` is a pointer of its own for every request.  Here it carries the number of the request
among the accepted ones beside the text, which the queue moves around without looking at it.

* **`next`** — one call, with the requests accepted and returned so far.
* **`Inv`** — the queue holds a list of prioritised requests within its capacity, and the books are
  balanced.
* **`stable_priority_queue`** — what holds in every state of every run.
-/

namespace OperatingSystems.Proxy.QueueRuns

open GuardedRuns Outcomes StableQueue

/-- The number of the request among the accepted ones, and the text of its path. -/
abbrev NumberedPath := ℕ × List Char

abbrev Request := QueueRequest NumberedPath

/-- The queue with what it accepted and returned so far. -/
structure History where
  queue : PriorityQueue NumberedPath
  accepted : List Request
  returned : List Request

/-- A call of some thread. -/
inductive Call
  | addWork (client_fd priority delay : ℤ) (path : List Char)
  | getWork
  | getWorkNonblocking
  | peek

/-- One call under the mutex.  A `get_work` that finds the queue empty goes on waiting. -/
def next (s : History) : Call → Except Fault History
  | .addWork client_fd priority delay path => do
    let numbered := (s.accepted.length, path)
    let (queue, res) ← add_work s.queue client_fd priority delay numbered
    return if res = 0 then
        { s with queue, accepted := s.accepted ++ [⟨client_fd, priority, delay, numbered⟩] }
      else { s with queue }
  | .getWork => do
    match ← get_work s.queue with
    | none => return s
    | some (r, queue) => return { s with queue, returned := s.returned ++ [r] }
  | .getWorkNonblocking => do
    let (r, queue) ← get_work_nonblocking s.queue
    return if s.queue.curr_size = 0 then { s with queue }
      else { s with queue, returned := s.returned ++ [r] }
  | .peek => do
    let _ ← Proxy.peek s.queue
    return s

def step (s : History) (c : Call) (s' : History) : Prop :=
  next s c = .ok s'

/-- The server starts with an empty queue of the size given to `-q`. -/
def init (q : ℤ) (s : History) : Prop :=
  s = ⟨create_queue q, [], []⟩

/-- Only requests with a priority of at least `0` are added. -/
def Prioritised (_ : History) : Call → Prop
  | .addWork _ priority _ _ => 0 ≤ priority
  | _ => True

/-- Requests are told apart by their numbers. -/
def number (r : Request) : ℕ :=
  r.path.1

/-! ### The property -/

/-- A removal takes the request at the index that `peek` returns: the earliest accepted one among
those of the greatest priority.  The rest keeps its order, and both removals agree. -/
structure TakesFirstMax (queue : PriorityQueue NumberedPath) (i : ℕ) (r : Request)
    (queue' : PriorityQueue NumberedPath) : Prop where
  peek : Proxy.peek queue = .ok (i : ℤ)
  get_work : Proxy.get_work queue = .ok (some (r, queue'))
  get_work_nonblocking : Proxy.get_work_nonblocking queue = .ok (r, queue')
  at_index : (stored queue)[i]? = some r
  max : ∀ y ∈ stored queue, y.priority ≤ r.priority
  earliest : ∀ y ∈ stored queue, y.priority = r.priority → number r ≤ number y
  rest : stored queue' = (stored queue).eraseIdx i

/-- **The queue of size `q` is a stable priority queue** in the state `s`. -/
structure StablePriorityQueue (q : ℤ) (s : History) : Prop where
  accounts : (s.accepted : Multiset Request) = s.returned + stored s.queue
  numbered : ∀ y ∈ stored s.queue, s.accepted[number y]? = some y
  refuses : ((stored s.queue).length : ℤ) = q → ∀ client_fd priority delay path,
    add_work s.queue client_fd priority delay path = .ok (s.queue, -1)
  accepts : ((stored s.queue).length : ℤ) ≠ q → ∀ client_fd priority delay path,
    ∃ queue', add_work s.queue client_fd priority delay path = .ok (queue', 0) ∧
      stored queue' = stored s.queue ++ [⟨client_fd, priority, delay, path⟩]
  empty : stored s.queue = [] → Proxy.get_work s.queue = .ok none ∧
    Proxy.get_work_nonblocking s.queue = .ok (emptyResult, s.queue) ∧
    Proxy.peek s.queue = .ok (-1)
  removes : stored s.queue ≠ [] → ∃ i r queue', TakesFirstMax s.queue i r queue'

/-! ### The invariant -/

/-- The queue holds `xs`: at most `q` requests, none of a negative priority, in balance with the
requests accepted and returned. -/
structure Inv (q : ℤ) (s : History) (xs : List Request) : Prop where
  holds : Holds s.queue q xs
  capacity : (xs.length : ℤ) ≤ q
  prioritised : ∀ r ∈ xs, 0 ≤ r.priority
  balanced : Ledger.Balanced number ⟨s.accepted, s.returned, xs⟩

section Steps

variable {q : ℤ} {s s' : History} {xs : List Request}

theorem Inv.length_lt (h : Inv q s xs) (hq : q < MAX_QUEUE_SIZE) : xs.length < MAX_QUEUE_SIZE := by
  have := h.capacity
  omega

theorem Inv.init (hq : 0 ≤ q) : Inv q ⟨create_queue q, [], []⟩ [] :=
  ⟨.empty q, by simpa using hq, by simp, .empty⟩

/-- **Every removal from a non-empty queue takes the first maximum**, and keeps the invariant. -/
theorem Inv.removes (h : Inv q s xs) (hq : q < MAX_QUEUE_SIZE) (hne : xs ≠ []) :
    ∃ i r queue', TakesFirstMax s.queue i r queue' ∧
      Inv q ⟨queue', s.accepted, s.returned ++ [r]⟩ (xs.eraseIdx i) := by
  have hcurr : s.queue.curr_size ≠ 0 := by
    rw [Ne, h.holds.isEmpty_iff]
    exact hne
  have hpos : ∃ r ∈ xs, 0 ≤ r.priority := by
    obtain ⟨r, hr⟩ := List.exists_mem_of_ne_nil xs hne
    exact ⟨r, hr, h.prioritised r hr⟩
  obtain ⟨i, r, queue', hmax, hpeek, htake, hholds⟩ :=
    takeHighest_spec h.holds (h.length_lt hq) hpos
  refine ⟨i, r, queue', ⟨hpeek, get_work_nonempty hcurr htake, ?_, ?_, ?_, ?_, ?_⟩, hholds, ?_, ?_, ?_⟩
  · rw [get_work_nonblocking_nonempty hcurr]
    exact htake
  · rw [h.holds.stored]
    exact hmax.at_index
  · rw [h.holds.stored]
    exact hmax.max
  · rw [h.holds.stored]
    exact hmax.earliest h.balanced.in_order
  · rw [hholds.stored, h.holds.stored]
  · have := h.capacity
    have := List.length_eraseIdx_le xs i
    omega
  · exact fun y hy => h.prioritised y ((List.eraseIdx_sublist xs i).subset hy)
  · exact h.balanced.handOut hmax.at_index

/-- An accepted request keeps the invariant. -/
theorem Inv.accepts (h : Inv q s xs) (hq : q < MAX_QUEUE_SIZE) (hfull : (xs.length : ℤ) ≠ q)
    (client_fd delay : ℤ) {priority : ℤ} (hp : 0 ≤ priority) (path : List Char) :
    ∃ queue', add_work s.queue client_fd priority delay (s.accepted.length, path) =
        .ok (queue', 0) ∧
      Inv q ⟨queue', s.accepted ++ [⟨client_fd, priority, delay, (s.accepted.length, path)⟩],
        s.returned⟩ (xs ++ [⟨client_fd, priority, delay, (s.accepted.length, path)⟩]) := by
  obtain ⟨queue', hadd, hholds⟩ := add_work_spec h.holds hfull (h.length_lt hq) client_fd priority
    delay (s.accepted.length, path)
  refine ⟨queue', hadd, hholds, ?_, ?_, h.balanced.accept rfl⟩
  · have := h.capacity
    rw [List.length_append, List.length_singleton]
    omega
  · intro r hr
    rcases List.mem_append.mp hr with hr | hr
    · exact h.prioritised r hr
    · rw [List.mem_singleton.mp hr]; exact hp

/-- A full queue refuses. -/
theorem Inv.full (h : Inv q s xs) (hfull : (xs.length : ℤ) = q) :
    s.queue.curr_size = s.queue.max_size := by
  rw [h.holds.curr_size, h.holds.max_size]
  exact hfull

/-- **The step lemma**: no call leaves the array, and each keeps the invariant. -/
theorem Inv.step (h : Inv q s xs) (hq : q < MAX_QUEUE_SIZE) {c : Call} (hc : Prioritised s c) :
    ∃ s' xs', next s c = .ok s' ∧ Inv q s' xs' := by
  cases c with
  | addWork client_fd priority delay path =>
    by_cases hfull : (xs.length : ℤ) = q
    · refine ⟨s, xs, ?_, h⟩
      rw [next, add_work_full (h.full hfull)]
      rfl
    · obtain ⟨queue', hadd, hinv⟩ := h.accepts hq hfull client_fd delay hc path
      refine ⟨_, _, ?_, hinv⟩
      rw [next, hadd]
      rfl
  | getWork =>
    by_cases hne : xs = []
    · refine ⟨s, xs, ?_, h⟩
      rw [next, get_work_empty (h.holds.isEmpty_iff.mpr hne)]
      rfl
    · obtain ⟨i, r, queue', htakes, hinv⟩ := h.removes hq hne
      refine ⟨_, _, ?_, hinv⟩
      rw [next, htakes.get_work]
      rfl
  | getWorkNonblocking =>
    by_cases hne : xs = []
    · have hcurr := h.holds.isEmpty_iff.mpr hne
      refine ⟨s, xs, ?_, h⟩
      rw [next, get_work_nonblocking_empty hcurr, ok_bind]
      simp only [if_pos hcurr]
      rfl
    · obtain ⟨i, r, queue', htakes, hinv⟩ := h.removes hq hne
      have hcurr : s.queue.curr_size ≠ 0 := fun h0 => hne (h.holds.isEmpty_iff.mp h0)
      refine ⟨_, _, ?_, hinv⟩
      rw [next, htakes.get_work_nonblocking, ok_bind]
      simp only [if_neg hcurr]
      rfl
  | peek =>
    refine ⟨s, xs, ?_, h⟩
    by_cases hne : xs = []
    · rw [next, Proxy.peek, if_pos (h.holds.isEmpty_iff.mpr hne)]
      rfl
    · obtain ⟨i, r, queue', htakes, -⟩ := h.removes hq hne
      rw [next, htakes.peek]
      rfl

end Steps

/-- The invariant gives the property. -/
theorem Inv.stablePriorityQueue {q : ℤ} {s : History} {xs : List Request} (h : Inv q s xs)
    (hq : q < MAX_QUEUE_SIZE) : StablePriorityQueue q s := by
  have hstored := h.holds.stored
  refine ⟨?_, ?_, ?_, ?_, ?_, ?_⟩
  · rw [hstored]
    exact h.balanced.accounts
  · rw [hstored]
    exact h.balanced.stamped
  · rw [hstored]
    exact fun hfull client_fd priority delay path => add_work_full (h.full hfull) _ _ _ _
  · rw [hstored]
    intro hfull client_fd priority delay path
    obtain ⟨queue', hadd, hholds⟩ := add_work_spec h.holds hfull (h.length_lt hq) client_fd priority
      delay path
    exact ⟨queue', hadd, hholds.stored⟩
  · rw [hstored]
    intro hne
    have hcurr := h.holds.isEmpty_iff.mpr hne
    exact ⟨get_work_empty hcurr, get_work_nonblocking_empty hcurr, if_pos hcurr⟩
  · rw [hstored]
    intro hne
    obtain ⟨i, r, queue', htakes, -⟩ := h.removes hq hne
    exact ⟨i, r, queue', htakes⟩

/-- The run lemma. -/
theorem reach_inv {q : ℤ} (h0 : 0 ≤ q) (hq : q < MAX_QUEUE_SIZE) {s : History}
    (h : Reach (init q) step Prioritised s) : ∃ xs, Inv q s xs := by
  apply h.invariant
  · intro s hs
    rw [hs]
    exact ⟨[], .init h0⟩
  · intro s c s' ⟨xs, hinv⟩ hc hstep
    obtain ⟨s'', xs', hnext, hinv'⟩ := hinv.step hq hc
    rw [step, hnext] at hstep
    rw [← Except.ok.inj hstep]
    exact ⟨xs', hinv'⟩

/-- **The request queue is a stable priority queue** in every state of every run in which the
priorities are not negative, for every size below `MAX_QUEUE_SIZE`; and every call of such a run
stays inside the array. -/
theorem stable_priority_queue {q : ℤ} (h0 : 0 ≤ q) (hq : q < MAX_QUEUE_SIZE) {s : History}
    (h : Reach (init q) step Prioritised s) :
    StablePriorityQueue q s ∧ ∀ c, Prioritised s c → ∃ s', next s c = .ok s' := by
  obtain ⟨xs, hinv⟩ := reach_inv h0 hq h
  refine ⟨hinv.stablePriorityQueue hq, fun c hc => ?_⟩
  obtain ⟨s', -, hnext, -⟩ := hinv.step hq hc
  exact ⟨s', hnext⟩

/-- Three requests for a queue of size two, two of the same priority: the third one is refused, and
the first of the other two is served first. -/
def refusedThenServed : List Call :=
  [.addWork 5 3 0 ['/', '3', '/'], .addWork 6 3 1 ['/', '3', '/', 'a'], .addWork 7 9 0 ['/', '9', '/'],
    .getWork]

theorem stable_priority_queue_served : ∃ s,
    refusedThenServed.foldlM next ⟨create_queue 2, [], []⟩ = .ok s ∧
    s.returned.map QueueRequest.client_fd = [5] ∧ StablePriorityQueue 2 s := by
  have hrun : ((refusedThenServed.foldlM next ⟨create_queue 2, [], []⟩).toOption.map fun s =>
      s.returned.map QueueRequest.client_fd) = some [5] := by decide +kernel
  cases hs : refusedThenServed.foldlM next ⟨create_queue 2, [], []⟩ with
  | error e => rw [hs] at hrun; cases hrun
  | ok s =>
    rw [hs] at hrun
    refine ⟨s, rfl, Option.some.inj hrun, (stable_priority_queue (by decide) (by decide) ?_).1⟩
    refine Reach.foldlM refusedThenServed _ _ ?_ (.start rfl) hs
    simp [refusedThenServed, Prioritised]

end OperatingSystems.Proxy.QueueRuns
