import Mathlib
import OperatingSystems.Lib.GuardedRuns
import OperatingSystems.Proxy.SafeQueue
import OperatingSystems.Proxy.Requests

/-!
# When a client can corrupt the queue

The server with any integer for `-q` and any clients.  A listener classifies the path of a client and
adds the request, or takes a stored one for `/GetJob`; workers take requests; listeners peek.  A run
ends at the first subscript outside the array, and a flag records that a `GetJob` took a stored request
for the empty queue.

* **`Meets`** — the condition: an addition is refused or finds a free slot; a removal finds the queue
  empty, or not full with some stored priority of at least `0`.
* **`sound_iff_meets`** — from every state of every run that met the condition so far, a step is sound
  exactly when it meets the condition.
-/

namespace OperatingSystems.Proxy.Corruption

open GuardedRuns StableQueue

abbrev Queue := PriorityQueue (List Char)

/-- The queue, and whether a stored request was mistaken for the empty queue. -/
structure Server where
  queue : Queue
  mistaken : Bool

/-- A critical section of some thread. -/
inductive Op
  | client (client_fd delay : ℤ) (path : List Char)
  | worker
  | peek

/-- `request_listen` on a client's request, up to its response. -/
def listen (v : Server) (client_fd delay : ℤ) (path : List Char) : Except Fault Server :=
  match classify path with
  | .worker priority => do
    let (queue, _) ← add_work v.queue client_fd priority delay path
    return { v with queue }
  | .getJob => do
    let (r, queue) ← get_work_nonblocking v.queue
    -- the branch of the listener looks at the priority alone
    let taken_for_empty := r.priority = -1 ∧ v.queue.curr_size ≠ 0
    return ⟨queue, v.mistaken || decide taken_for_empty⟩
  | .unknown => return v

def next (v : Server) : Op → Except Fault Server
  | .client client_fd delay path => listen v client_fd delay path
  | .worker => do
    match ← get_work v.queue with
    | none => return v
    | some (_, queue) => return { v with queue }
  | .peek => do
    let _ ← Proxy.peek v.queue
    return v

/-- A run ends with the first subscript outside the array. -/
def step (s : Except Fault Server) (op : Op) (s' : Except Fault Server) : Prop :=
  ∃ v, s = .ok v ∧ s' = next v op

/-- The server is started with `-q q`. -/
def init (q : ℤ) (s : Except Fault Server) : Prop :=
  s = .ok ⟨create_queue q, false⟩

/-- Every subscript so far was in `[0, MAX_QUEUE_SIZE)` and no request was mistaken. -/
def Sound (s : Except Fault Server) : Prop :=
  ∃ v, s = .ok v ∧ v.mistaken = false

/-! ### The condition -/

/-- A request can be added: it is refused, or a slot is free. -/
def Addable (queue : Queue) : Prop :=
  ((stored queue).length : ℤ) = queue.max_size ∨ (stored queue).length < MAX_QUEUE_SIZE

/-- A request can be taken: there is none, or one above the sentinel in an array that is not full. -/
def Takeable (queue : Queue) : Prop :=
  stored queue = [] ∨
    (stored queue).length < MAX_QUEUE_SIZE ∧ ∃ r ∈ stored queue, 0 ≤ r.priority

/-- **The condition on a step**: it looks at the queue before it. -/
def Allowed (queue : Queue) : Op → Prop
  | .client _ _ path =>
    match classify path with
    | .worker _ => Addable queue
    | .getJob => Takeable queue
    | .unknown => True
  | .worker => Takeable queue
  | .peek => True

def Meets (s : Except Fault Server) (op : Op) : Prop :=
  ∀ v, s = .ok v → Allowed v.queue op

theorem meets_ok {v : Server} {op : Op} : Meets (.ok v) op ↔ Allowed v.queue op := by
  constructor
  · exact fun h => h v rfl
  · intro h w hw
    rw [← Except.ok.inj hw]
    exact h

/-! ### Every step -/

section Steps

variable {q : ℤ} {v : Server} {xs : List (QueueRequest (List Char))}

/-- What holds of an outcome that is sound: the queue holds some list. -/
def Good (q : ℤ) (s : Except Fault Server) : Prop :=
  ∃ v xs, s = .ok v ∧ v.mistaken = false ∧ Holds v.queue q xs

theorem Good.sound {s : Except Fault Server} (h : Good q s) : Sound s := by
  obtain ⟨v, -, hv, hm, -⟩ := h
  exact ⟨v, hv, hm⟩

theorem not_sound_error (e : Fault) : ¬Sound (.error e) := by
  intro ⟨v, hv, _⟩
  cases hv

/-- An outcome that left the array is not sound. -/
theorem not_sound_of_isOk {s : Except Fault Server} (h : s.isOk = false) : ¬Sound s := by
  intro ⟨v, hv, _⟩
  rw [hv] at h
  cases h

/-- **A removal is sound exactly when a request can be taken**, and then it takes one of a priority
of at least `0`. -/
theorem take_cases (h : Holds v.queue q xs) (hne : xs ≠ []) :
    (Takeable v.queue ∧ ∃ r queue' xs', takeHighest v.queue = .ok (r, queue') ∧ 0 ≤ r.priority ∧
        Holds queue' q xs') ∨
      (¬Takeable v.queue ∧ ∃ e, takeHighest v.queue = .error e) := by
  rw [Takeable, h.stored]
  by_cases hok : xs.length < MAX_QUEUE_SIZE ∧ ∃ r ∈ xs, 0 ≤ r.priority
  · left
    obtain ⟨i, r, queue', hmax, -, htake, hholds⟩ := takeHighest_spec h hok.1 hok.2
    obtain ⟨r₀, hr₀, hpos⟩ := hok.2
    exact ⟨.inr hok, r, queue', _, htake, hpos.trans (hmax.max r₀ hr₀), hholds⟩
  · right
    refine ⟨not_or.mpr ⟨hne, hok⟩, ?_⟩
    cases htake : takeHighest v.queue with
    | error e => exact ⟨e, rfl⟩
    | ok p => exact absurd ((takeHighest_isOk_iff h).mp (by rw [htake]; rfl)) hok

/-- One `add_work`. -/
theorem add_good_iff (h : Holds v.queue q xs) (hm : v.mistaken = false)
    (client_fd priority delay : ℤ) (path : List Char) :
    (Addable v.queue → Good q (do
      let (queue, _) ← add_work v.queue client_fd priority delay path
      return { v with queue })) ∧
    (¬Addable v.queue → ¬Sound (do
      let (queue, _) ← add_work v.queue client_fd priority delay path
      return { v with queue })) := by
  have hok := add_work_isOk_iff h client_fd priority delay path
  have hiff : Addable v.queue ↔ (xs.length : ℤ) = q ∨ xs.length < MAX_QUEUE_SIZE := by
    rw [Addable, h.stored, h.max_size]
  rw [hiff]
  constructor
  · intro hadd
    by_cases hfull : (xs.length : ℤ) = q
    · rw [add_work_full (by rw [h.curr_size, h.max_size]; exact hfull)]
      exact ⟨v, xs, rfl, hm, h⟩
    · obtain ⟨queue', hrun, hholds⟩ := add_work_spec h hfull (hadd.resolve_left hfull) client_fd
        priority delay path
      rw [hrun]
      exact ⟨_, _, rfl, hm, hholds⟩
  · intro hadd
    cases hrun : add_work v.queue client_fd priority delay path with
    | error e => exact not_sound_error e
    | ok p => exact absurd (hok.mp (by rw [hrun]; rfl)) hadd

/-- One `GetJob`. -/
theorem getJob_good_iff (h : Holds v.queue q xs) (hm : v.mistaken = false) {client_fd delay : ℤ}
    {path : List Char} (hpath : classify path = .getJob) :
    (Takeable v.queue → Good q (listen v client_fd delay path)) ∧
      (¬Takeable v.queue → ¬Sound (listen v client_fd delay path)) := by
  simp only [listen, hpath]
  by_cases hne : xs = []
  · have hcurr := h.isEmpty_iff.mpr hne
    have htake : Takeable v.queue := .inl (h.stored.trans hne)
    rw [get_work_nonblocking_empty hcurr]
    refine ⟨fun _ => ⟨_, xs, rfl, ?_, h⟩, fun hn => absurd htake hn⟩
    simp [hm, hcurr]
  · have hcurr : v.queue.curr_size ≠ 0 := fun h0 => hne (h.isEmpty_iff.mp h0)
    rw [get_work_nonblocking_nonempty hcurr]
    rcases take_cases h hne with ⟨htake, r, queue', xs', hrun, hpos, hholds⟩ | ⟨htake, e, hrun⟩
    · rw [hrun]
      refine ⟨fun _ => ⟨_, xs', rfl, ?_, hholds⟩, fun hn => absurd htake hn⟩
      have : r.priority ≠ -1 := by omega
      simp [hm, this]
    · rw [hrun]
      exact ⟨fun ht => absurd ht htake, fun _ => not_sound_error e⟩

/-- One `get_work`. -/
theorem worker_good_iff (h : Holds v.queue q xs) (hm : v.mistaken = false) :
    (Takeable v.queue → Good q (next v .worker)) ∧
      (¬Takeable v.queue → ¬Sound (next v .worker)) := by
  by_cases hne : xs = []
  · rw [next, get_work_empty (h.isEmpty_iff.mpr hne)]
    exact ⟨fun _ => ⟨v, xs, rfl, hm, h⟩, fun hn => absurd (.inl (h.stored.trans hne)) hn⟩
  · have hcurr : v.queue.curr_size ≠ 0 := fun h0 => hne (h.isEmpty_iff.mp h0)
    rcases take_cases h hne with ⟨htake, r, queue', xs', hrun, -, hholds⟩ | ⟨htake, e, hrun⟩
    · rw [next, get_work_nonempty hcurr hrun]
      exact ⟨fun _ => ⟨_, xs', rfl, hm, hholds⟩, fun hn => absurd htake hn⟩
    · rw [next, get_work, if_neg hcurr, hrun]
      exact ⟨fun ht => absurd ht htake, fun _ => not_sound_error e⟩

/-- `peek` never leaves the array. -/
theorem peek_good (h : Holds v.queue q xs) (hm : v.mistaken = false) : Good q (next v .peek) := by
  obtain ⟨best, hsel, -⟩ := selectionLoop_spec h
  rw [next, Proxy.peek]
  by_cases hcurr : v.queue.curr_size = 0
  · rw [if_pos hcurr]
    exact ⟨v, xs, rfl, hm, h⟩
  · rw [if_neg hcurr, hsel]
    exact ⟨v, xs, rfl, hm, h⟩

/-- **The step lemma**: a step that meets the condition keeps the queue good, any other is not
sound. -/
theorem step_good_iff (h : Holds v.queue q xs) (hm : v.mistaken = false) (op : Op) :
    (Allowed v.queue op → Good q (next v op)) ∧ (¬Allowed v.queue op → ¬Sound (next v op)) := by
  cases op with
  | client client_fd delay path =>
    cases hpath : classify path with
    | worker priority =>
      rw [next, listen, Allowed, hpath]
      exact add_good_iff h hm client_fd priority delay path
    | getJob =>
      rw [Allowed, hpath]
      exact getJob_good_iff h hm hpath
    | unknown =>
      rw [next, listen, Allowed, hpath]
      exact ⟨fun _ => ⟨v, xs, rfl, hm, h⟩, fun hn => absurd trivial hn⟩
  | worker => exact worker_good_iff h hm
  | peek => exact ⟨fun _ => peek_good h hm, fun hn => absurd trivial hn⟩

end Steps

/-- The run lemma. -/
theorem reach_good {q : ℤ} {s : Except Fault Server} (h : Reach (init q) step Meets s) :
    Good q s := by
  apply h.invariant
  · intro s hs
    rw [hs]
    exact ⟨_, [], rfl, rfl, .empty q⟩
  · intro s op s' ⟨v, xs, hv, hm, hholds⟩ hmeets ⟨w, hw, hs'⟩
    rw [hv] at hw hmeets
    rw [hs', ← Except.ok.inj hw]
    exact (step_good_iff hholds hm op).1 (meets_ok.mp hmeets)

/-- **The queue stays sound exactly under the condition.**  In every run whose steps all meet it every
subscript is in range and no request is mistaken for the empty queue; and from each state of such a
run a step that does not meet it breaks this. -/
theorem sound_iff_meets {q : ℤ} {s : Except Fault Server} (h : Reach (init q) step Meets s) :
    Sound s ∧ ∀ op s', step s op s' → (Sound s' ↔ Meets s op) := by
  have hgood := reach_good h
  refine ⟨hgood.sound, ?_⟩
  obtain ⟨v, xs, rfl, hm, hholds⟩ := hgood
  intro op s' ⟨w, hw, hs'⟩
  rw [hs', ← Except.ok.inj hw, meets_ok]
  obtain ⟨h₁, h₂⟩ := step_good_iff hholds hm op
  exact ⟨fun hs => by_contra fun hn => h₂ hn hs, fun hc => (h₁ hc).sound⟩

/-- The default server after a client with the path `/5/`. -/
def oneClient : Except Fault Server :=
  next ⟨create_queue 100, false⟩ (.client 4 0 ['/', '5', '/'])

theorem sound_iff_meets_one_client :
    Sound oneClient ∧ ∀ op s', step oneClient op s' → (Sound s' ↔ Meets oneClient op) := by
  have hclass : classify ['/', '5', '/'] = .worker 5 := by decide
  refine sound_iff_meets (.next (.start rfl) ?_ ⟨_, rfl, rfl⟩)
  rw [meets_ok, Allowed, hclass]
  right
  rw [(Holds.empty (100 : ℤ)).stored]
  decide

/-- The default server with one client, of priority `-1`, whose request a worker takes. -/
def negativeClient : Except Fault Server := do
  let v ← next ⟨create_queue 100, false⟩ (.client 4 0 ['/', '-', '1', '/'])
  next v .worker

/-- **A negative priority leaves the array**: no request beats the sentinel, and the worker reads
`requests[-1]`. -/
theorem negative_priority_leaves_array :
    ¬∀ (q : ℤ) (s : Except Fault Server), Reach (init q) step (fun _ _ => True) s → Sound s := by
  intro h
  cases hv : next ⟨create_queue 100, false⟩ (.client 4 0 ['/', '-', '1', '/']) with
  | error e =>
    refine not_sound_error e (h 100 _ (.next (.start rfl) trivial ⟨_, rfl, hv.symm⟩))
  | ok v =>
    have hworker : negativeClient = next v .worker := by rw [negativeClient, hv]; rfl
    have hbad : negativeClient.isOk = false := by decide +kernel
    refine not_sound_of_isOk hbad (h 100 _ (.next (.next (.start rfl) trivial ⟨_, rfl, hv.symm⟩)
      trivial ⟨v, rfl, hworker⟩))

end OperatingSystems.Proxy.Corruption
