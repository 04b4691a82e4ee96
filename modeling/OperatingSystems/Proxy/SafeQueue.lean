import Mathlib
import OperatingSystems.Lib.Outcomes
import OperatingSystems.Lib.StableQueue

/-!
# The request queue of the proxy server

`safequeue.c`: an array of `MAX_QUEUE_SIZE` slots with a current and a maximal size.  Every access to
`requests[i]` goes through a checked subscript, so a call that leaves the array is an error that names
the subscript.  The queue never looks at what a request's path points to: the type of the paths is a
parameter, and the program's is the text of the path.

* **`Holds`** — the queue stores the given requests, in this order, in its first slots.
* **`add_work_spec`**, **`takeHighest_spec`** — on a queue that holds a list the code appends to that
  list, and removes its first maximum.
* **`add_work_isOk_iff`**, **`takeHighest_isOk_iff`** — when the subscripts stay inside the array.
-/

namespace OperatingSystems.Proxy

open Outcomes StableQueue

def MAX_QUEUE_SIZE : ℕ := 1000

/-- `queue_request`. -/
structure QueueRequest (π : Type) where
  client_fd : ℤ
  priority : ℤ
  delay : ℤ
  path : π
deriving DecidableEq, Repr

/-- `priority_queue`; the mutex and the condition variable are in the machines built on it. -/
structure PriorityQueue (π : Type) where
  requests : Vector (QueueRequest π) MAX_QUEUE_SIZE
  max_size : ℤ
  curr_size : ℤ

/-- A subscript outside `[0, MAX_QUEUE_SIZE)`. -/
inductive Fault
  | subscript (i : ℤ)
deriving DecidableEq, Repr

variable {π : Type}

namespace PriorityQueue

/-- `requests[i]`, read. -/
def request (queue : PriorityQueue π) (i : ℤ) : Except Fault (QueueRequest π) :=
  if h : 0 ≤ i ∧ i < MAX_QUEUE_SIZE then .ok queue.requests[i.toNat]
  else .error (.subscript i)

/-- `requests[i] = r`. -/
def setRequest (queue : PriorityQueue π) (i : ℤ) (r : QueueRequest π) :
    Except Fault (PriorityQueue π) :=
  if h : 0 ≤ i ∧ i < MAX_QUEUE_SIZE then
    .ok { queue with requests := queue.requests.set i.toNat r (by omega) }
  else .error (.subscript i)

end PriorityQueue

/-! ### The functions -/

/-- `create_queue`; `default` is the empty path. -/
def create_queue [Inhabited π] (queue_size : ℤ) : PriorityQueue π where
  requests := Vector.replicate MAX_QUEUE_SIZE ⟨-1, -1, 0, default⟩
  max_size := queue_size
  curr_size := 0

/-- `add_work`.  The result `0` comes with one `pthread_cond_signal`. -/
def add_work (queue : PriorityQueue π) (client_fd priority delay : ℤ) (path : π) :
    Except Fault (PriorityQueue π × ℤ) :=
  if queue.curr_size = queue.max_size then .ok (queue, -1)
  else do
    let queue ← queue.setRequest queue.curr_size ⟨client_fd, priority, delay, path⟩
    return ({ queue with curr_size := queue.curr_size + 1 }, 0)

/-- The selection loop, which stands in the source three times, in `peek`, `get_work` and
`get_work_nonblocking`: `highestPriority` and `index` after the last round. -/
def selectionLoop (queue : PriorityQueue π) : Except Fault (ℤ × ℤ) :=
  (List.range queue.curr_size.toNat).foldlM (fun best (i : ℕ) => do
    let r ← queue.request i
    return if best.1 < r.priority then (r.priority, (i : ℤ)) else best) (-1, -1)

/-- The loop that moves the later requests down: `requests[i] = requests[i+1]` from `index` on. -/
def shiftLoop (queue : PriorityQueue π) (index : ℤ) : Except Fault (PriorityQueue π) :=
  (List.range (queue.curr_size - index).toNat).foldlM (fun queue (k : ℕ) => do
    let r ← queue.request (index + k + 1)
    queue.setRequest (index + k) r) queue

/-- The part that `get_work` and `get_work_nonblocking` share once the queue is not empty: select,
copy the request out, move the later ones down. -/
def takeHighest (queue : PriorityQueue π) : Except Fault (QueueRequest π × PriorityQueue π) := do
  let (_, index) ← selectionLoop queue
  let next_request ← queue.request index
  let queue ← shiftLoop queue index
  return (next_request, { queue with curr_size := queue.curr_size - 1 })

def peek (queue : PriorityQueue π) : Except Fault ℤ :=
  if queue.curr_size = 0 then .ok (-1)
  else do
    let (_, index) ← selectionLoop queue
    return index

/-- `get_work` from the test of its `while` loop on; `none` is another round of
`pthread_cond_wait`. -/
def get_work (queue : PriorityQueue π) :
    Except Fault (Option (QueueRequest π × PriorityQueue π)) :=
  if queue.curr_size = 0 then .ok none
  else do
    let taken ← takeHighest queue
    return some taken

/-- The result of `get_work_nonblocking` on an empty queue. -/
def emptyResult [Inhabited π] : QueueRequest π :=
  ⟨-1, -1, -1, default⟩

def get_work_nonblocking [Inhabited π] (queue : PriorityQueue π) :
    Except Fault (QueueRequest π × PriorityQueue π) :=
  if queue.curr_size = 0 then .ok (emptyResult, queue)
  else takeHighest queue

/-! ### Checked subscripts -/

section Subscripts

variable {queue : PriorityQueue π} {i : ℕ} {j : ℤ} {r : QueueRequest π}

theorem request_of_lt (h : i < MAX_QUEUE_SIZE) :
    queue.request i = .ok queue.requests[i] := by
  rw [PriorityQueue.request, dif_pos (by omega)]
  rfl

theorem request_of_not (h : ¬(0 ≤ j ∧ j < MAX_QUEUE_SIZE)) :
    queue.request j = .error (.subscript j) := by
  rw [PriorityQueue.request, dif_neg h]

theorem setRequest_of_lt (h : i < MAX_QUEUE_SIZE) :
    queue.setRequest i r = .ok { queue with requests := queue.requests.set i r } := by
  rw [PriorityQueue.setRequest, dif_pos (by omega)]
  rfl

theorem setRequest_of_not (h : ¬(0 ≤ j ∧ j < MAX_QUEUE_SIZE)) :
    queue.setRequest j r = .error (.subscript j) := by
  rw [PriorityQueue.setRequest, dif_neg h]

end Subscripts

/-! ### What the queue holds -/

/-- `requests[0..curr_size)`. -/
def stored (queue : PriorityQueue π) : List (QueueRequest π) :=
  queue.requests.toList.take queue.curr_size.toNat

/-- **The queue of capacity `q` holds the requests `xs`.** -/
structure Holds (queue : PriorityQueue π) (q : ℤ) (xs : List (QueueRequest π)) : Prop where
  max_size : queue.max_size = q
  curr_size : queue.curr_size = xs.length
  fits : xs.length ≤ MAX_QUEUE_SIZE
  slots : ∀ i, i < xs.length → queue.requests[i]? = xs[i]?

variable {queue queue' : PriorityQueue π} {q : ℤ} {xs : List (QueueRequest π)}

theorem Holds.stored (h : Holds queue q xs) : stored queue = xs := by
  apply List.ext_getElem?
  intro i
  rw [Proxy.stored, List.getElem?_take, h.curr_size, Int.toNat_natCast]
  by_cases hi : i < xs.length
  · rw [if_pos hi, Vector.getElem?_toList, h.slots i hi]
  · rw [if_neg hi, List.getElem?_eq_none (by omega)]

theorem Holds.empty [Inhabited π] (q : ℤ) : Holds (create_queue q : PriorityQueue π) q [] :=
  ⟨rfl, rfl, by simp, by simp⟩

theorem Holds.isEmpty_iff (h : Holds queue q xs) : queue.curr_size = 0 ↔ xs = [] := by
  rw [h.curr_size, Int.natCast_eq_zero, List.length_eq_zero_iff]

theorem Holds.slot (h : Holds queue q xs) {i : ℕ} (hi : i < xs.length) (hmax : i < MAX_QUEUE_SIZE) :
    queue.requests[i] = xs[i] := by
  have := h.slots i hi
  rw [Vector.getElem?_eq_getElem hmax, List.getElem?_eq_getElem hi] at this
  exact Option.some.inj this

/-! ### `add_work` -/

theorem add_work_full (h : queue.curr_size = queue.max_size) (client_fd priority delay : ℤ)
    (path : π) : add_work queue client_fd priority delay path = .ok (queue, -1) := by
  rw [add_work, if_pos h]

/-- **Below its capacity the queue appends the request**, as long as the array has a free slot. -/
theorem add_work_spec (h : Holds queue q xs) (hq : (xs.length : ℤ) ≠ q)
    (hlen : xs.length < MAX_QUEUE_SIZE) (client_fd priority delay : ℤ) (path : π) :
    ∃ queue', add_work queue client_fd priority delay path = .ok (queue', 0) ∧
      Holds queue' q (xs ++ [⟨client_fd, priority, delay, path⟩]) := by
  have hne : queue.curr_size ≠ queue.max_size := by rw [h.curr_size, h.max_size]; exact hq
  rw [add_work, if_neg hne, h.curr_size, setRequest_of_lt hlen]
  refine ⟨_, rfl, h.max_size, ?_, ?_, ?_⟩
  · simp [h.curr_size]
  · rw [List.length_append, List.length_singleton]; omega
  · intro i hi
    rw [List.length_append, List.length_singleton] at hi
    rw [Vector.getElem?_set]
    by_cases hlast : xs.length = i
    · rw [if_pos hlast, ← hlast, List.getElem?_concat_length]
    · rw [if_neg hlast, h.slots i (by omega), List.getElem?_append_left (by omega)]

theorem add_work_overflow (h : Holds queue q xs) (hq : (xs.length : ℤ) ≠ q)
    (hlen : xs.length = MAX_QUEUE_SIZE) (client_fd priority delay : ℤ) (path : π) :
    add_work queue client_fd priority delay path = .error (.subscript MAX_QUEUE_SIZE) := by
  have hne : queue.curr_size ≠ queue.max_size := by rw [h.curr_size, h.max_size]; exact hq
  rw [add_work, if_neg hne, h.curr_size, hlen, setRequest_of_not (by omega)]
  rfl

/-- **`add_work` stays inside the array** exactly when it refuses or a slot is free. -/
theorem add_work_isOk_iff (h : Holds queue q xs) (client_fd priority delay : ℤ) (path : π) :
    (add_work queue client_fd priority delay path).isOk ↔
      (xs.length : ℤ) = q ∨ xs.length < MAX_QUEUE_SIZE := by
  by_cases hq : (xs.length : ℤ) = q
  · have heq : queue.curr_size = queue.max_size := by rw [h.curr_size, h.max_size]; exact hq
    rw [add_work_full heq]
    exact iff_of_true rfl (.inl hq)
  · by_cases hlen : xs.length < MAX_QUEUE_SIZE
    · obtain ⟨queue', hadd, -⟩ := add_work_spec h hq hlen client_fd priority delay path
      rw [hadd]
      exact iff_of_true rfl (.inr hlen)
    · have := h.fits
      rw [add_work_overflow h hq (by omega)]
      exact iff_of_false (by simp [Except.isOk, Except.toBool]) (by tauto)

/-! ### The selection loop -/

/-- **The selection loop scans the stored requests** and ends on the first maximum above `-1`. -/
theorem selectionLoop_spec (h : Holds queue q xs) :
    ∃ best, selectionLoop queue = .ok best ∧ Best QueueRequest.priority (-1) xs best := by
  have hrounds : ∀ n ≤ xs.length, ∃ best,
      (List.range n).foldlM (fun (best : ℤ × ℤ) (i : ℕ) => do
        let r ← queue.request i
        return if best.1 < r.priority then (r.priority, (i : ℤ)) else best) (-1, -1)
        = Except.ok best ∧ Best QueueRequest.priority (-1) (xs.take n) best := by
    intro n
    induction n with
    | zero => intro _; exact ⟨(-1, -1), rfl, by rw [List.take_zero]; exact .nil _⟩
    | succ n ih =>
      intro hn
      obtain ⟨best, hrun, hbest⟩ := ih (by omega)
      have hlt : n < xs.length := hn
      have hnext := hbest.snoc xs[n]
      rw [List.length_take, Nat.min_eq_left hlt.le, ← List.take_concat_get' _ _ hlt] at *
      refine ⟨_, ?_, hnext⟩
      rw [List.range_succ, List.foldlM_append, hrun]
      simp only [List.foldlM_cons, List.foldlM_nil, request_of_lt (hlt.trans_le h.fits),
        h.slot hlt (hlt.trans_le h.fits)]
      rfl
  obtain ⟨best, hrun, hbest⟩ := hrounds xs.length le_rfl
  rw [List.take_length] at hbest
  refine ⟨best, ?_, hbest⟩
  rw [selectionLoop, h.curr_size, Int.toNat_natCast]
  exact hrun

/-- Some request beats the sentinel: the loop ends on the first maximum. -/
theorem selectionLoop_found (h : Holds queue q xs) (hpos : ∃ r ∈ xs, 0 ≤ r.priority) :
    ∃ (i : ℕ) (r : QueueRequest π), selectionLoop queue = .ok (r.priority, (i : ℤ)) ∧
      FirstMax QueueRequest.priority xs i r := by
  obtain ⟨best, hrun, hbest⟩ := selectionLoop_spec h
  obtain ⟨r₀, hr₀, hpos⟩ := hpos
  obtain ⟨i, r, rfl, hmax⟩ := hbest.found ⟨r₀, hr₀, by omega⟩
  exact ⟨i, r, hrun, hmax⟩

/-- Only negative priorities are stored: the sentinel index `-1` stays. -/
theorem selectionLoop_not_found (h : Holds queue q xs) (hneg : ∀ r ∈ xs, r.priority < 0) :
    selectionLoop queue = .ok (-1, -1) := by
  obtain ⟨best, hrun, hbest⟩ := selectionLoop_spec h
  rw [hrun, hbest.not_found fun r hr => by have := hneg r hr; omega]

/-! ### Moving the later requests down -/

/-- After `n` rounds the slots from `index` on hold what the next slots held. -/
theorem shift_rounds (queue : PriorityQueue π) (index n : ℕ) (hn : index + n < MAX_QUEUE_SIZE) :
    ∃ queue', (List.range n).foldlM (fun queue (k : ℕ) => do
        let r ← queue.request ((index : ℤ) + k + 1)
        queue.setRequest ((index : ℤ) + k) r) queue = Except.ok queue' ∧
      queue'.max_size = queue.max_size ∧ queue'.curr_size = queue.curr_size ∧
      ∀ j, queue'.requests[j]? =
        if index ≤ j ∧ j < index + n then queue.requests[j + 1]? else queue.requests[j]? := by
  induction n with
  | zero => exact ⟨queue, rfl, rfl, rfl, fun j => by rw [if_neg (by omega)]⟩
  | succ n ih =>
    obtain ⟨queue₁, hrun, hmax, hcurr, hslots⟩ := ih (by omega)
    have hread : queue₁.request ((index : ℤ) + n + 1) = .ok queue₁.requests[index + n + 1] :=
      request_of_lt (i := index + n + 1) (by omega)
    have hwrite : queue₁.setRequest ((index : ℤ) + n) queue₁.requests[index + n + 1] =
        .ok { queue₁ with
          requests := queue₁.requests.set (index + n) queue₁.requests[index + n + 1] } :=
      setRequest_of_lt (i := index + n) (by omega)
    rw [List.range_succ, List.foldlM_append, hrun, ok_bind, List.foldlM_cons, hread, ok_bind, hwrite,
      ok_bind]
    refine ⟨_, rfl, hmax, hcurr, ?_⟩
    intro j
    rw [Vector.getElem?_set]
    by_cases hj : index + n = j
    · rw [if_pos hj, if_pos (by omega), ← hj]
      have := hslots (index + n + 1)
      rw [if_neg (by omega), Vector.getElem?_eq_getElem (by omega)] at this
      exact this
    · rw [if_neg hj, hslots j]
      by_cases hin : index ≤ j ∧ j < index + n
      · rw [if_pos hin, if_pos (by omega)]
      · rw [if_neg hin, if_neg (by omega)]

/-- **Removal closes the gap**: below a full array the shift removes the request at `index`. -/
theorem shiftLoop_spec (h : Holds queue q xs) {index : ℕ} (hi : index < xs.length)
    (hlen : xs.length < MAX_QUEUE_SIZE) :
    ∃ queue', shiftLoop queue index = .ok queue' ∧
      Holds { queue' with curr_size := queue'.curr_size - 1 } q (xs.eraseIdx index) ∧
      queue'.curr_size = queue.curr_size := by
  obtain ⟨queue', hrun, hmax, hcurr, hslots⟩ :=
    shift_rounds queue index (xs.length - index) (by omega)
  have hrounds : (queue.curr_size - (index : ℤ)).toNat = xs.length - index := by
    rw [h.curr_size]; omega
  refine ⟨queue', ?_, ⟨?_, ?_, ?_, ?_⟩, hcurr⟩
  · rw [shiftLoop, hrounds]
    exact hrun
  · exact hmax.trans h.max_size
  · show queue'.curr_size - 1 = _
    rw [hcurr, h.curr_size, List.length_eraseIdx_of_lt hi]
    omega
  · rw [List.length_eraseIdx_of_lt hi]; omega
  · intro j hj
    rw [List.length_eraseIdx_of_lt hi] at hj
    show queue'.requests[j]? = _
    rw [hslots j, List.getElem?_eraseIdx]
    by_cases hij : j < index
    · rw [if_neg (by omega), if_pos hij, h.slots j (by omega)]
    · rw [if_pos (by omega), if_neg hij, h.slots (j + 1) (by omega)]

/-- A full array makes the shift read the slot behind its end. -/
theorem shiftLoop_overflow (h : Holds queue q xs) {index : ℕ} (hi : index < xs.length)
    (hlen : xs.length = MAX_QUEUE_SIZE) :
    shiftLoop queue index = .error (.subscript MAX_QUEUE_SIZE) := by
  obtain ⟨queue₁, hrun, -⟩ := shift_rounds queue index (xs.length - 1 - index) (by omega)
  have hrounds : (queue.curr_size - (index : ℤ)).toNat = xs.length - 1 - index + 1 := by
    rw [h.curr_size]; omega
  have hlast : (index : ℤ) + (xs.length - 1 - index : ℕ) + 1 = MAX_QUEUE_SIZE := by omega
  rw [shiftLoop, hrounds, List.range_succ, List.foldlM_append, hrun]
  have hout : queue₁.request (MAX_QUEUE_SIZE : ℤ) = .error (.subscript MAX_QUEUE_SIZE) :=
    request_of_not (by omega)
  simp only [ok_bind, List.foldlM_cons, hlast, hout, error_bind]

/-! ### Taking the highest request -/

/-- **`takeHighest` removes the first maximum**, at the index that `peek` returns. -/
theorem takeHighest_spec (h : Holds queue q xs) (hlen : xs.length < MAX_QUEUE_SIZE)
    (hpos : ∃ r ∈ xs, 0 ≤ r.priority) :
    ∃ (i : ℕ) (r : QueueRequest π) (queue' : PriorityQueue π),
      FirstMax QueueRequest.priority xs i r ∧ peek queue = .ok (i : ℤ) ∧
      takeHighest queue = .ok (r, queue') ∧ Holds queue' q (xs.eraseIdx i) := by
  obtain ⟨i, r, hsel, hmax⟩ := selectionLoop_found h hpos
  obtain ⟨queue', hshift, hholds, -⟩ := shiftLoop_spec h hmax.lt_length hlen
  have hr : queue.request i = .ok r := by
    rw [request_of_lt (hmax.lt_length.trans_le h.fits),
      h.slot hmax.lt_length (hmax.lt_length.trans_le h.fits)]
    congr 1
    exact (List.getElem?_eq_some_iff.mp hmax.at_index).2
  refine ⟨i, r, _, hmax, ?_, ?_, hholds⟩
  · rw [peek, if_neg, hsel]
    · rfl
    · rw [h.isEmpty_iff]
      rintro rfl
      exact absurd hmax.lt_length (Nat.not_lt_zero _)
  · simp only [takeHighest, hsel, ok_bind, hr, hshift]
    rfl

/-- Only negative priorities are stored: the request is read at the subscript `-1`. -/
theorem takeHighest_negative (h : Holds queue q xs) (hneg : ∀ r ∈ xs, r.priority < 0) :
    takeHighest queue = .error (.subscript (-1)) := by
  have hout : queue.request (-1) = .error (.subscript (-1)) := request_of_not (by omega)
  simp only [takeHighest, selectionLoop_not_found h hneg, ok_bind, hout, error_bind]

theorem takeHighest_overflow (h : Holds queue q xs) (hlen : xs.length = MAX_QUEUE_SIZE)
    (hpos : ∃ r ∈ xs, 0 ≤ r.priority) :
    takeHighest queue = .error (.subscript MAX_QUEUE_SIZE) := by
  obtain ⟨i, r, hsel, hmax⟩ := selectionLoop_found h hpos
  have hr : queue.request i = .ok r := by
    rw [request_of_lt (hmax.lt_length.trans_le h.fits),
      h.slot hmax.lt_length (hmax.lt_length.trans_le h.fits)]
    congr 1
    exact (List.getElem?_eq_some_iff.mp hmax.at_index).2
  simp only [takeHighest, hsel, ok_bind, hr, shiftLoop_overflow h hmax.lt_length hlen, error_bind]

/-- **Taking a request stays inside the array** exactly when the array is not full and some stored
request has a priority above the sentinel. -/
theorem takeHighest_isOk_iff (h : Holds queue q xs) :
    (takeHighest queue).isOk ↔ xs.length < MAX_QUEUE_SIZE ∧ ∃ r ∈ xs, 0 ≤ r.priority := by
  by_cases hpos : ∃ r ∈ xs, 0 ≤ r.priority
  · by_cases hlen : xs.length < MAX_QUEUE_SIZE
    · obtain ⟨i, r, queue', -, -, htake, -⟩ := takeHighest_spec h hlen hpos
      rw [htake]
      exact iff_of_true rfl ⟨hlen, hpos⟩
    · have := h.fits
      rw [takeHighest_overflow h (by omega) hpos]
      exact iff_of_false (by simp [Except.isOk, Except.toBool]) (fun hc => hlen hc.1)
  · push Not at hpos
    rw [takeHighest_negative h hpos]
    refine iff_of_false (by simp [Except.isOk, Except.toBool]) ?_
    rintro ⟨-, r, hr, hge⟩
    exact absurd (hpos r hr) (not_lt.mpr hge)

/-! ### What a call that stays inside the array has done -/

/-- **`add_work` inverted**: it refused, or appended the request. -/
theorem add_work_inv (h : Holds queue q xs) {client_fd priority delay : ℤ} {path : π} {res : ℤ}
    (hrun : add_work queue client_fd priority delay path = .ok (queue', res)) :
    (res = -1 ∧ queue' = queue ∧ (xs.length : ℤ) = q) ∨
      (res = 0 ∧ Holds queue' q (xs ++ [⟨client_fd, priority, delay, path⟩])) := by
  by_cases hq : (xs.length : ℤ) = q
  · left
    rw [add_work_full (by rw [h.curr_size, h.max_size]; exact hq)] at hrun
    cases hrun
    exact ⟨rfl, rfl, hq⟩
  · right
    have hok := (add_work_isOk_iff h client_fd priority delay path).mp (by rw [hrun]; rfl)
    obtain ⟨queue₁, hadd, hholds⟩ := add_work_spec h hq (hok.resolve_left hq) client_fd priority
      delay path
    rw [hadd] at hrun
    cases hrun
    exact ⟨rfl, hholds⟩

/-- **`takeHighest` inverted**: it removed the first maximum. -/
theorem takeHighest_inv (h : Holds queue q xs) {r : QueueRequest π}
    (hrun : takeHighest queue = .ok (r, queue')) :
    ∃ i, FirstMax QueueRequest.priority xs i r ∧ Holds queue' q (xs.eraseIdx i) := by
  have hok := (takeHighest_isOk_iff h).mp (by rw [hrun]; rfl)
  obtain ⟨i, r₁, queue₁, hmax, -, htake, hholds⟩ := takeHighest_spec h hok.1 hok.2
  rw [htake] at hrun
  cases hrun
  exact ⟨i, hmax, hholds⟩

/-! ### The three callers -/

theorem get_work_empty (h : queue.curr_size = 0) : get_work queue = .ok none := by
  rw [get_work, if_pos h]

theorem get_work_nonempty (h : queue.curr_size ≠ 0) {r : QueueRequest π}
    (htake : takeHighest queue = .ok (r, queue')) : get_work queue = .ok (some (r, queue')) := by
  rw [get_work, if_neg h, htake]
  rfl

/-- **`get_work` inverted**: it waits on an empty queue, or removed the first maximum. -/
theorem get_work_inv (h : Holds queue q xs) {res : Option (QueueRequest π × PriorityQueue π)}
    (hrun : get_work queue = .ok res) :
    (xs = [] ∧ res = none) ∨ ∃ i r queue', res = some (r, queue') ∧
      FirstMax QueueRequest.priority xs i r ∧ Holds queue' q (xs.eraseIdx i) := by
  by_cases hcurr : queue.curr_size = 0
  · rw [get_work_empty hcurr] at hrun
    exact .inl ⟨h.isEmpty_iff.mp hcurr, (Except.ok.inj hrun).symm⟩
  · right
    rw [get_work, if_neg hcurr] at hrun
    cases htake : takeHighest queue with
    | error e => rw [htake] at hrun; cases hrun
    | ok p =>
      rw [htake] at hrun
      obtain ⟨i, hmax, hholds⟩ := takeHighest_inv h htake
      exact ⟨i, p.1, p.2, (Except.ok.inj hrun).symm, hmax, hholds⟩

variable [Inhabited π]

/-- **`get_work_nonblocking` inverted**. -/
theorem get_work_nonblocking_inv (h : Holds queue q xs) {r : QueueRequest π}
    (hrun : get_work_nonblocking queue = .ok (r, queue')) :
    (xs = [] ∧ r = emptyResult ∧ queue' = queue) ∨ ∃ i,
      FirstMax QueueRequest.priority xs i r ∧ Holds queue' q (xs.eraseIdx i) := by
  by_cases hcurr : queue.curr_size = 0
  · left
    rw [get_work_nonblocking, if_pos hcurr] at hrun
    cases hrun
    exact ⟨h.isEmpty_iff.mp hcurr, rfl, rfl⟩
  · right
    rw [get_work_nonblocking, if_neg hcurr] at hrun
    exact takeHighest_inv h hrun

theorem get_work_nonblocking_empty (h : queue.curr_size = 0) :
    get_work_nonblocking queue = .ok (emptyResult, queue) := by
  rw [get_work_nonblocking, if_pos h]

theorem get_work_nonblocking_nonempty (h : queue.curr_size ≠ 0) :
    get_work_nonblocking queue = takeHighest queue := by
  rw [get_work_nonblocking, if_neg h]

end OperatingSystems.Proxy
