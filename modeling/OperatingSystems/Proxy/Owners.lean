import Mathlib
import OperatingSystems.Lib.GuardedRuns
import OperatingSystems.Lib.Ownership
import OperatingSystems.Proxy.SafeQueue
import OperatingSystems.Proxy.Requests

/-!
# Who owns a client connection

A descriptor returned by `accept` is held by the listener that accepted it, then stored in the queue,
then held by the worker that takes it; whoever answers the client closes it.  The five exits of the
loop of `request_listen` are the steps of the listeners: an unknown request, a `GetJob` on an empty or
a non-empty queue, a request refused by the full queue and one that is queued.

* **`account`** — the listeners, slots and workers that own a descriptor, with every `accept` and
  every `close` so far.
* **`oneOwner_iff`** — a run keeps one owner for each connection exactly as long as no `GetJob` finds
  a queued request: the request it takes off the queue is dropped with its descriptor.
-/

namespace OperatingSystems.Proxy.Owners

open GuardedRuns Ownership

/-- Where a listener stands in its loop. -/
inductive Listener
  | accepting
  | handling (client_fd : ℤ) (path : List Char) (delay : ℤ)
  /-- the response is sent, `shutdown` and `close` follow -/
  | closing (client_fd : ℤ)

/-- The descriptor in the listener's hands. -/
def Listener.held : Listener → Option ℤ
  | .accepting => none
  | .handling client_fd _ _ => some client_fd
  | .closing client_fd => some client_fd

structure State (num_listener num_workers : ℕ) where
  queue : PriorityQueue (List Char)
  listener : Fin num_listener → Listener
  /-- the descriptor of the request that a worker serves -/
  worker : Fin num_workers → Option ℤ
  accepted : List ℤ
  closed : List ℤ

inductive Action (num_listener num_workers : ℕ)
  | accept (l : Fin num_listener) (client_fd : ℤ) (path : List Char) (delay : ℤ)
  | handle (l : Fin num_listener)
  | listenerClose (l : Fin num_listener)
  | getWork (w : Fin num_workers)
  | workerClose (w : Fin num_workers)

variable {n m : ℕ}

/-- The owners of a descriptor are the listeners, the slots and the workers that hold it. -/
def account (s : State n m) : Account ℤ where
  owners fd := holders (fun l => (s.listener l).held) fd +
    (stored s.queue).countP (fun r => r.client_fd = fd) + holders s.worker fd
  acquired := s.accepted
  released := s.closed

/-- Listener `l` handles the request that it has parsed, up to the `close` of the client. -/
def Handles (s : State n m) (l : Fin n) (client_fd : ℤ) (path : List Char) (delay : ℤ)
    (s' : State n m) : Prop :=
  match classify path with
  | .unknown => s' = { s with listener := Function.update s.listener l (.closing client_fd) }
  | .getJob => ∃ r queue', get_work_nonblocking s.queue = .ok (r, queue') ∧
      -- both answers of the listener close its own client only
      s' = { s with queue := queue', listener := Function.update s.listener l (.closing client_fd) }
  | .worker priority => ∃ queue' res,
      add_work s.queue client_fd priority delay path = .ok (queue', res) ∧
      s' = { s with
        queue := queue'
        listener := Function.update s.listener l
          (if res = -1 then .closing client_fd else .accepting) }

def step (s : State n m) : Action n m → State n m → Prop
  | .accept l client_fd path delay, s' =>
    -- `accept` returns a descriptor that is not in use
    s.listener l = .accepting ∧ ¬(account s).Held client_fd ∧
      s' = { s with
        listener := Function.update s.listener l (.handling client_fd path delay)
        accepted := client_fd :: s.accepted }
  | .handle l, s' => ∃ client_fd path delay, s.listener l = .handling client_fd path delay ∧
      Handles s l client_fd path delay s'
  | .listenerClose l, s' => ∃ client_fd, s.listener l = .closing client_fd ∧
      s' = { s with
        listener := Function.update s.listener l .accepting
        closed := client_fd :: s.closed }
  | .getWork w, s' => s.worker w = none ∧
      ((get_work s.queue = .ok none ∧ s' = s) ∨
        ∃ r queue', get_work s.queue = .ok (some (r, queue')) ∧
          s' = { s with queue := queue', worker := Function.update s.worker w (some r.client_fd) })
  | .workerClose w, s' => ∃ client_fd, s.worker w = some client_fd ∧
      s' = { s with
        worker := Function.update s.worker w none
        closed := client_fd :: s.closed }

/-- The server as started with `-q q`. -/
def init (q : ℤ) (s : State n m) : Prop :=
  s = ⟨create_queue q, fun _ => .accepting, fun _ => none, [], []⟩

/-- Clients send prioritised, `GetJob` or unknown requests. -/
def Prioritised (_ : State n m) : Action n m → Prop
  | .accept _ _ path _ => ∀ priority, classify path = .worker priority → 0 ≤ priority
  | _ => True

/-- **The condition**: a `GetJob` is handled only while the queue is empty. -/
def NoJobTaken (s : State n m) : Action n m → Prop
  | .handle l => ∀ client_fd path delay, s.listener l = .handling client_fd path delay →
      classify path = .getJob → stored s.queue = []
  | _ => True

/-! ### The owners after each kind of change -/

section Changes

variable {q : ℤ} {s s' : State n m} {xs : List (QueueRequest (List Char))}

theorem held_update (listener : Fin n → Listener) (l : Fin n) (p : Listener) :
    (fun k => (Function.update listener l p k).held) =
      Function.update (fun k => (listener k).held) l p.held := by
  funext k
  by_cases hk : k = l
  · subst hk
    rw [Function.update_self, Function.update_self]
  · rw [Function.update_of_ne hk, Function.update_of_ne hk]

/-- A listener that goes on with the same descriptor. -/
theorem holders_same {listener : Fin n → Listener} {l : Fin n} {p : Listener}
    (h : (listener l).held = p.held) (fd : ℤ) :
    holders (fun k => (Function.update listener l p k).held) fd =
      holders (fun k => (listener k).held) fd := by
  rw [held_update, ← h]
  congr 1
  exact Function.update_eq_self l _

theorem holders_listener_take {listener : Fin n → Listener} {l : Fin n} {p : Listener} {x : ℤ}
    (h : (listener l).held = none) (hp : p.held = some x) (fd : ℤ) :
    holders (fun k => (Function.update listener l p k).held) fd =
      holders (fun k => (listener k).held) fd + if fd = x then 1 else 0 := by
  rw [held_update, hp]
  exact holders_take (fun k => (listener k).held) h x fd

theorem holders_listener_give {listener : Fin n → Listener} {l : Fin n} {p : Listener} {x : ℤ}
    (h : (listener l).held = some x) (hp : p.held = none) (fd : ℤ) :
    holders (fun k => (listener k).held) fd =
      holders (fun k => (Function.update listener l p k).held) fd + if fd = x then 1 else 0 := by
  rw [held_update, hp]
  exact holders_give (fun k => (listener k).held) h fd

/-- The slots that hold a descriptor, after an addition and before a removal. -/
theorem countP_snoc (r : QueueRequest (List Char)) (fd : ℤ) :
    (xs ++ [r]).countP (fun r => r.client_fd = fd) =
      xs.countP (fun r => r.client_fd = fd) + if fd = r.client_fd then 1 else 0 := by
  rw [List.countP_append, List.countP_singleton]
  simp [eq_comm]

theorem countP_eraseIdx {i : ℕ} {r : QueueRequest (List Char)} (h : xs[i]? = some r) (fd : ℤ) :
    xs.countP (fun r => r.client_fd = fd) =
      (xs.eraseIdx i).countP (fun r => r.client_fd = fd) + if fd = r.client_fd then 1 else 0 := by
  obtain ⟨hi, rfl⟩ := List.getElem?_eq_some_iff.mp h
  rw [← (List.getElem_cons_eraseIdx_perm hi).countP_eq, List.countP_cons]
  simp [eq_comm]

theorem owners_mk {queue : PriorityQueue (List Char)} (h : Holds queue q xs)
    {listener : Fin n → Listener} {worker : Fin m → Option ℤ} {accepted closed : List ℤ} (fd : ℤ) :
    (account ⟨queue, listener, worker, accepted, closed⟩).owners fd =
      holders (fun l => (listener l).held) fd + xs.countP (fun r => r.client_fd = fd) +
        holders worker fd := by
  rw [account, h.stored]

theorem owners_eq (h : Holds s.queue q xs) (fd : ℤ) :
    (account s).owners fd = holders (fun l => (s.listener l).held) fd +
      xs.countP (fun r => r.client_fd = fd) + holders s.worker fd :=
  owners_mk h fd

/-! ### Every step -/

/-- Adding: a queued descriptor leaves the listener, a refused one stays. -/
theorem add_balanced (hbal : (account s).Balanced) (h : Holds s.queue q xs) {l : Fin n}
    {client_fd priority delay res : ℤ} {path : List Char} {queue' : PriorityQueue (List Char)}
    (hl : s.listener l = .handling client_fd path delay)
    (hrun : add_work s.queue client_fd priority delay path = .ok (queue', res))
    (hs' : s' = { s with
      queue := queue'
      listener := Function.update s.listener l
        (if res = -1 then .closing client_fd else .accepting) }) :
    (account s').Balanced ∧ ∃ xs', Holds s'.queue q xs' := by
  have hheld : (s.listener l).held = some client_fd := by rw [hl]; rfl
  subst hs'
  rcases add_work_inv h hrun with ⟨rfl, rfl, -⟩ | ⟨rfl, hholds⟩
  · refine ⟨hbal.handOver (fun fd => ?_) rfl rfl, xs, h⟩
    rw [owners_eq h, owners_mk h, holders_same (by rw [hheld]; rfl)]
  · refine ⟨hbal.handOver (fun fd => ?_) rfl rfl, _, hholds⟩
    rw [owners_eq h, owners_mk hholds, holders_listener_give hheld (p := .accepting) rfl, countP_snoc]
    simp only [show ¬((0 : ℤ) = -1) by decide, if_false]
    omega

/-- A `GetJob` on an empty queue changes no owner. -/
theorem getJob_empty_balanced (hbal : (account s).Balanced) (h : Holds s.queue q [])
    {l : Fin n} {client_fd delay : ℤ} {path : List Char}
    (hl : s.listener l = .handling client_fd path delay) :
    (account { s with listener := Function.update s.listener l (.closing client_fd) }).Balanced := by
  refine hbal.handOver (fun fd => ?_) rfl rfl
  rw [owners_eq h, owners_mk h, holders_same (by rw [hl]; rfl)]

/-- **A `GetJob` on a non-empty queue drops a client**: the request leaves the queue and nobody takes
its descriptor. -/
theorem getJob_drops (hbal : (account s).Balanced) (h : Holds s.queue q xs) {l : Fin n}
    {client_fd delay : ℤ} {path : List Char} {r : QueueRequest (List Char)}
    {queue' : PriorityQueue (List Char)} (hl : s.listener l = .handling client_fd path delay)
    {i : ℕ} (hr : xs[i]? = some r) (hholds : Holds queue' q (xs.eraseIdx i))
    (hs' : s' = { s with
      queue := queue'
      listener := Function.update s.listener l (.closing client_fd) }) :
    ¬(account s').OneOwner := by
  subst hs'
  refine hbal.drop (x := r.client_fd) (fun fd => ?_) rfl rfl
  rw [owners_eq h, owners_mk hholds, holders_same (by rw [hl]; rfl), countP_eraseIdx hr]
  omega

/-- A listener handles its request: with the condition the owners stay balanced, without it a client
is dropped. -/
theorem handles_balanced (hbal : (account s).Balanced) (h : Holds s.queue q xs) {l : Fin n}
    {client_fd delay : ℤ} {path : List Char} (hl : s.listener l = .handling client_fd path delay)
    (hstep : Handles s l client_fd path delay s') :
    ((classify path = .getJob → xs = []) → (account s').Balanced ∧ ∃ xs', Holds s'.queue q xs') ∧
      (¬(classify path = .getJob → xs = []) → ¬(account s').OneOwner) := by
  rw [Handles] at hstep
  cases hpath : classify path with
  | unknown =>
    simp only [hpath] at hstep
    refine ⟨fun _ => ?_, fun hn => absurd (fun hc => by cases hc) hn⟩
    subst hstep
    refine ⟨hbal.handOver (fun fd => ?_) rfl rfl, xs, h⟩
    rw [owners_eq h, owners_mk h, holders_same (by rw [hl]; rfl)]
  | worker priority =>
    simp only [hpath] at hstep
    obtain ⟨queue', res, hrun, hs'⟩ := hstep
    exact ⟨fun _ => add_balanced hbal h hl hrun hs', fun hn => absurd (fun hc => by cases hc) hn⟩
  | getJob =>
    simp only [hpath] at hstep
    obtain ⟨r, queue', hrun, hs'⟩ := hstep
    rcases get_work_nonblocking_inv h hrun with ⟨rfl, -, rfl⟩ | ⟨i, hmax, hholds⟩
    · refine ⟨fun _ => ?_, fun hn => absurd (fun _ => rfl) hn⟩
      rw [hs']
      exact ⟨getJob_empty_balanced hbal h hl, [], h⟩
    · refine ⟨fun hempty => ?_, fun _ => getJob_drops hbal h hl hmax.at_index hholds hs'⟩
      rw [hempty rfl] at hmax
      exact absurd hmax.lt_length (Nat.not_lt_zero _)

theorem accept_balanced (hbal : (account s).Balanced) (h : Holds s.queue q xs) {l : Fin n}
    {client_fd delay : ℤ} {path : List Char} (hl : s.listener l = .accepting)
    (hfree : ¬(account s).Held client_fd) :
    (account { s with
      listener := Function.update s.listener l (.handling client_fd path delay)
      accepted := client_fd :: s.accepted }).Balanced := by
  refine hbal.acquire hfree (fun fd => ?_) rfl rfl
  rw [owners_eq h, owners_mk h, holders_listener_take (by rw [hl]; rfl) (x := client_fd) rfl]
  omega

theorem listenerClose_balanced (hbal : (account s).Balanced) (h : Holds s.queue q xs) {l : Fin n}
    {client_fd : ℤ} (hl : s.listener l = .closing client_fd) :
    (account { s with
      listener := Function.update s.listener l .accepting
      closed := client_fd :: s.closed }).Balanced := by
  refine hbal.release (x := client_fd) (fun fd => ?_) rfl rfl
  rw [owners_eq h, owners_mk h,
    holders_listener_give (by rw [hl]; rfl) (p := .accepting) (x := client_fd) rfl]
  omega

theorem getWork_balanced (hbal : (account s).Balanced) (h : Holds s.queue q xs) {w : Fin m}
    (hw : s.worker w = none) {r : QueueRequest (List Char)} {queue' : PriorityQueue (List Char)}
    {i : ℕ} (hr : xs[i]? = some r) (hholds : Holds queue' q (xs.eraseIdx i)) :
    (account { s with
      queue := queue', worker := Function.update s.worker w (some r.client_fd) }).Balanced := by
  refine hbal.handOver (fun fd => ?_) rfl rfl
  rw [owners_eq h, owners_mk hholds, holders_take s.worker hw, countP_eraseIdx hr]
  omega

theorem workerClose_balanced (hbal : (account s).Balanced) (h : Holds s.queue q xs) {w : Fin m}
    {client_fd : ℤ} (hw : s.worker w = some client_fd) :
    (account { s with
      worker := Function.update s.worker w none
      closed := client_fd :: s.closed }).Balanced := by
  refine hbal.release (x := client_fd) (fun fd => ?_) rfl rfl
  rw [owners_eq h, owners_mk h, holders_give s.worker hw]
  omega

/-- **The step lemma.** -/
theorem step_balanced (hbal : (account s).Balanced) (h : Holds s.queue q xs) {a : Action n m}
    (hstep : step s a s') :
    (NoJobTaken s a → (account s').Balanced ∧ ∃ xs', Holds s'.queue q xs') ∧
      (¬NoJobTaken s a → ¬(account s').OneOwner) := by
  cases a with
  | accept l client_fd path delay =>
    obtain ⟨hl, hfree, rfl⟩ := hstep
    exact ⟨fun _ => ⟨accept_balanced hbal h hl hfree, xs, h⟩, fun hn => absurd trivial hn⟩
  | handle l =>
    obtain ⟨client_fd, path, delay, hl, hhandles⟩ := hstep
    have hcond : NoJobTaken s (.handle l) ↔ (classify path = .getJob → xs = []) := by
      rw [NoJobTaken, h.stored]
      constructor
      · exact fun hn => hn client_fd path delay hl
      · intro hn client_fd' path' delay' hl' hpath
        rw [hl] at hl'
        cases hl'
        exact hn hpath
    rw [hcond]
    exact handles_balanced hbal h hl hhandles
  | listenerClose l =>
    obtain ⟨client_fd, hl, rfl⟩ := hstep
    exact ⟨fun _ => ⟨listenerClose_balanced hbal h hl, xs, h⟩, fun hn => absurd trivial hn⟩
  | getWork w =>
    obtain ⟨hw, hres⟩ := hstep
    refine ⟨fun _ => ?_, fun hn => absurd trivial hn⟩
    rcases hres with ⟨-, rfl⟩ | ⟨r, queue', hrun, rfl⟩
    · exact ⟨hbal, xs, h⟩
    · rcases get_work_inv h hrun with ⟨-, hres⟩ | ⟨i, r₁, queue₁, hres, hmax, hholds⟩
      · cases hres
      · cases hres
        exact ⟨getWork_balanced hbal h hw hmax.at_index hholds, _, hholds⟩
  | workerClose w =>
    obtain ⟨client_fd, hw, rfl⟩ := hstep
    exact ⟨fun _ => ⟨workerClose_balanced hbal h hw, xs, h⟩, fun hn => absurd trivial hn⟩

end Changes

theorem init_balanced (q : ℤ) :
    (account (⟨create_queue q, fun _ => .accepting, fun _ => none, [], []⟩ : State n m)).Balanced := by
  intro fd
  rw [owners_mk (.empty q)]
  have hlisteners : holders (fun _ : Fin n => Listener.accepting.held) fd = 0 := holders_none fd
  rw [hlisteners, holders_none, List.countP_nil]
  exact ⟨rfl, Nat.zero_le _⟩

/-- The condition on a step: the client's request is well formed, and no queued job is taken. -/
def Meets (s : State n m) (a : Action n m) : Prop :=
  Prioritised s a ∧ NoJobTaken s a

/-- The run lemma. -/
theorem reach_balanced {q : ℤ} {s : State n m} (h : Reach (init q) step Meets s) :
    (account s).Balanced ∧ ∃ xs, Holds s.queue q xs := by
  apply h.invariant
  · intro s hs
    rw [hs]
    exact ⟨init_balanced q, [], .empty q⟩
  · intro s a s' ⟨hbal, xs, hholds⟩ hmeets hstep
    exact (step_balanced hbal hholds hstep).1 hmeets.2

/-- **Each connection has one owner exactly while no queued job is taken.**  In every run whose steps
meet the condition each accepted descriptor that is not closed has exactly one owner and is closed at
most once; and from each state of such a run a step keeps this if and only if it is no `GetJob` on a
non-empty queue. -/
theorem oneOwner_iff {q : ℤ} {s : State n m} (h : Reach (init q) step Meets s) :
    (account s).OneOwner ∧
      ∀ a s', Prioritised s a → step s a s' → ((account s').OneOwner ↔ NoJobTaken s a) := by
  obtain ⟨hbal, xs, hholds⟩ := reach_balanced h
  refine ⟨hbal.oneOwner, fun a s' _ hstep => ?_⟩
  obtain ⟨hkeep, hdrop⟩ := step_balanced hbal hholds hstep
  exact ⟨fun hone => by_contra fun hn => hdrop hn hone, fun hc => (hkeep hc).1.oneOwner⟩

/-- One listener that has accepted one client, and one worker. -/
def oneClient : State 1 1 :=
  ⟨create_queue 100, Function.update (fun _ => .accepting) 0 (.handling 4 ['/', '5', '/'] 0),
    fun _ => none, [4], []⟩

theorem oneOwner_iff_one_client :
    (account oneClient).OneOwner ∧ ∀ a s', Prioritised oneClient a → step oneClient a s' →
      ((account s').OneOwner ↔ NoJobTaken oneClient a) := by
  have hclass : classify ['/', '5', '/'] = .worker 5 := by decide
  refine oneOwner_iff (q := 100) (.next (a := .accept 0 4 ['/', '5', '/'] 0) (.start rfl) ⟨?_, trivial⟩
    ⟨rfl, Nat.lt_irrefl 0, rfl⟩)
  intro priority hp
  rw [hclass] at hp
  cases hp
  decide

/-- A run that meets the condition up to a listener with a `/GetJob` client in its hands, while the
request of an earlier client is queued. -/
theorem exists_job_over_queued : ∃ s : State 1 0, Reach (init 100) step Meets s ∧
    s.listener 0 = .handling 5 getJobPath 0 ∧
    ∃ r, Holds s.queue 100 [r] ∧ 0 ≤ r.priority := by
  have hclass : classify ['/', '5', '/'] = .worker 5 := by decide
  have hjob : classify getJobPath = .getJob := by decide
  obtain ⟨queue', hadd, hholds⟩ := add_work_spec (.empty (100 : ℤ)) (by decide) (by decide) 4 5 0
    ['/', '5', '/']
  have haccept : Reach (init 100) step Meets (⟨create_queue 100,
      Function.update (fun _ => .accepting) 0 (.handling 4 ['/', '5', '/'] 0), fun _ => none, [4], []⟩ :
        State 1 0) := by
    refine .next (a := .accept 0 4 ['/', '5', '/'] 0) (.start rfl) ⟨?_, trivial⟩
      ⟨rfl, Nat.lt_irrefl 0, rfl⟩
    intro priority hp
    rw [hclass] at hp
    cases hp
    decide
  have hqueued : Reach (init 100) step Meets (⟨queue', Function.update (Function.update
      (fun _ => .accepting) 0 (.handling 4 ['/', '5', '/'] 0)) 0 .accepting, fun _ => none, [4], []⟩ :
        State 1 0) := by
    refine .next (a := .handle 0) haccept ⟨trivial, ?_⟩ ⟨4, ['/', '5', '/'], 0, rfl, ?_⟩
    · intro client_fd path delay hl hpath
      rw [show path = ['/', '5', '/'] by injection hl with _ hp _; exact hp.symm, hclass] at hpath
      cases hpath
    · rw [Handles, hclass]
      exact ⟨queue', 0, hadd, rfl⟩
  refine ⟨_, .next (a := .accept 0 5 getJobPath 0) hqueued ⟨?_, trivial⟩
    ⟨rfl, Nat.lt_irrefl 0, rfl⟩, rfl, _, hholds, by decide⟩
  intro priority hp
  rw [hjob] at hp
  cases hp

/-- **A `GetJob` forgets the client of the job it takes**: its descriptor stays open with no owner. -/
theorem getJob_forgets_client : ¬∀ (n m : ℕ) (q : ℤ) (s : State n m),
    Reach (init q) step Prioritised s → (account s).OneOwner := by
  intro hall
  obtain ⟨s, hreach, hl, r, hholds, hpos⟩ := exists_job_over_queued
  have hjob : classify getJobPath = .getJob := by decide
  have hne : s.queue.curr_size ≠ 0 := by
    rw [hholds.curr_size]
    exact one_ne_zero
  obtain ⟨i, r₁, queue', -, -, htake, -⟩ := takeHighest_spec hholds (show 1 < MAX_QUEUE_SIZE by decide)
    ⟨r, List.mem_singleton_self r, hpos⟩
  have hstep : step s (.handle 0) { s with
      queue := queue', listener := Function.update s.listener 0 (.closing 5) } := by
    refine ⟨5, getJobPath, 0, hl, ?_⟩
    rw [Handles, hjob]
    exact ⟨r₁, queue', (get_work_nonblocking_nonempty hne).trans htake, rfl⟩
  have hnot : ¬NoJobTaken s (.handle 0) := by
    intro hn
    have := hn 5 getJobPath 0 hl hjob
    rw [hholds.stored] at this
    cases this
  exact (step_balanced (reach_balanced hreach).1 hholds hstep).2 hnot
    (hall 1 0 100 _ (.next (a := .handle 0) (hreach.mono fun _ _ h => h.1) trivial hstep))

end OperatingSystems.Proxy.Owners
