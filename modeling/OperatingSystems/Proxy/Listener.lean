import OperatingSystems.Proxy.DelayHeader
import OperatingSystems.Proxy.SafeQueue

/-!
# One connection of a listener

The body of the loop of `request_listen`: it parses what has arrived, uses the request at once, and
answers or queues it.  What a C program must not do is an error here: to leave a buffer, to follow the
null pointer that the parser returns, to leave the array of the queue.

* **`request_listen`** — one iteration, and `Ending` the five ways in which it can end.
* **`request_listen_ends_iff`** — when it does end in one of them.
-/

namespace OperatingSystems.Proxy

inductive ListenFault
  | parse (fault : ParseFault)
  /-- `sprintf` stores behind the end of `request->delay`. -/
  | delayWrite
  /-- `request->delay` for a null pointer. -/
  | nullRequest
  | queue (fault : Fault)
deriving DecidableEq, Repr

/-- How an iteration ends. -/
inductive Ending
  | queued
  | gotJob (path : List Char)
  | unknownType
  | queueEmpty
  | queueFull
deriving DecidableEq, Repr

/-- The status and the message that the client is sent. -/
def Ending.response : Ending → Option (ℕ × String)
  | .queued => none
  | .gotJob path => some (200, String.ofList path)
  | .unknownType => some (400, "Unknown request type")
  | .queueEmpty => some (598, "Priority Queue is empty and GetJob request can't be handled")
  | .queueFull => some (599, "Priority Queue is full and request can't be handled")

def atoi (text : List Char) : ℤ := (scanInt text).getD 0

/-- A call of the queue. -/
def onQueue {α : Type} (call : Except Fault α) : Except ListenFault α :=
  call.mapError .queue

/-- What is done with a parsed request. -/
def dispatch (request : HttpRequest) (client_fd : ℤ) (queue : PriorityQueue (List Char)) :
    Except ListenFault (Ending × PriorityQueue (List Char)) :=
  let delay := atoi request.delay
  match classify request.path with
  | .unknown => .ok (.unknownType, queue)
  | .getJob => do
    let (priority_request, queue) ← onQueue (get_work_nonblocking queue)
    return (if priority_request.priority = -1 then .queueEmpty else .gotJob priority_request.path, queue)
  | .worker request_priority => do
    let (queue, res) ← onQueue (add_work queue client_fd request_priority delay request.path)
    if res = -1 then return (.queueFull, queue)
    let _ ← onQueue (peek queue)
    return (.queued, queue)

/-- **An iteration of `request_listen`** from the accepted connection on. -/
def request_listen (received : Option Peeked) (client_fd : ℤ) (queue : PriorityQueue (List Char)) :
    Except ListenFault (Ending × PriorityQueue (List Char)) :=
  match http_request_parse received with
  | .error fault => .error (.parse fault)
  | .ok parsed =>
    if 0 < parsed.overrun then .error .delayWrite
    else
      match parsed.request with
      | none => .error .nullRequest
      | some request => dispatch request client_fd queue

/-- The computation ends without an error. -/
def Completes {ε α : Type} (run : Except ε α) : Prop :=
  ∃ result, run = .ok result

/-! ### The queue -/

variable {queue : PriorityQueue (List Char)} {q : ℤ} {xs : List (QueueRequest (List Char))}

/-- The queue with the requests `xs` can do what a request with this path asks for. -/
def QueueServes (q : ℤ) (xs : List (QueueRequest (List Char))) (path : List Char) : Prop :=
  match classify path with
  | .worker _ => (xs.length : ℤ) = q ∨ xs.length < MAX_QUEUE_SIZE
  | .getJob => xs = [] ∨ xs.length < MAX_QUEUE_SIZE ∧ ∃ r ∈ xs, 0 ≤ r.priority
  | .unknown => True

theorem completes_iff_isOk {ε α : Type} {run : Except ε α} : Completes run ↔ run.isOk = true := by
  cases run with
  | error e => exact iff_of_false (fun h => by cases h.choose_spec) (by simp [Except.isOk, Except.toBool])
  | ok a => exact iff_of_true ⟨a, rfl⟩ rfl

/-- A call of the queue and what goes on with its result. -/
theorem completes_onQueue_bind {α β : Type} {call : Except Fault α} {f : α → Except ListenFault β}
    (hf : ∀ a, call = .ok a → Completes (f a)) : Completes (onQueue call >>= f) ↔ Completes call := by
  cases call with
  | error e =>
    constructor
    · rintro ⟨b, hb⟩
      cases hb
    · rintro ⟨a, ha⟩
      cases ha
  | ok a => exact iff_of_true (hf a rfl) ⟨a, rfl⟩

theorem peek_completes (h : Holds queue q xs) : Completes (peek queue) := by
  obtain ⟨best, hbest, -⟩ := selectionLoop_spec h
  unfold peek
  split
  · exact ⟨-1, rfl⟩
  · rw [hbest]
    exact ⟨best.2, rfl⟩

theorem get_work_nonblocking_completes_iff (h : Holds queue q xs) :
    Completes (get_work_nonblocking queue) ↔
      xs = [] ∨ xs.length < MAX_QUEUE_SIZE ∧ ∃ r ∈ xs, 0 ≤ r.priority := by
  by_cases hempty : xs = []
  · rw [get_work_nonblocking_empty (h.isEmpty_iff.mpr hempty)]
    exact iff_of_true ⟨_, rfl⟩ (.inl hempty)
  · rw [get_work_nonblocking_nonempty (mt h.isEmpty_iff.mp hempty), completes_iff_isOk,
      takeHighest_isOk_iff h, or_iff_right hempty]

/-- **What is asked of the queue** for a parsed request. -/
theorem dispatch_completes_iff (h : Holds queue q xs) (request : HttpRequest) (client_fd : ℤ) :
    Completes (dispatch request client_fd queue) ↔ QueueServes q xs request.path := by
  rw [dispatch, QueueServes]
  cases classify request.path with
  | unknown => exact iff_of_true ⟨_, rfl⟩ trivial
  | getJob =>
    show Completes (onQueue (get_work_nonblocking queue) >>= _) ↔ _
    rw [completes_onQueue_bind]
    · exact get_work_nonblocking_completes_iff h
    · exact fun taken _ => ⟨_, rfl⟩
  | worker request_priority =>
    show Completes (onQueue (add_work queue client_fd request_priority (atoi request.delay)
      request.path) >>= _) ↔ _
    rw [completes_onQueue_bind, completes_iff_isOk]
    · exact add_work_isOk_iff h client_fd request_priority (atoi request.delay) request.path
    · rintro ⟨queue', res⟩ hadd
      show Completes (if res = -1 then _ else _)
      rcases add_work_inv h hadd with ⟨rfl, -, -⟩ | ⟨rfl, hholds⟩
      · exact ⟨_, rfl⟩
      · show Completes (onQueue (peek queue') >>= _)
        rw [completes_onQueue_bind]
        · exact peek_completes hholds
        · exact fun index _ => ⟨_, rfl⟩

/-! ### The delay string -/

/-- Ten characters of the string are there for the number. -/
theorem decimal_length_le_iff {v : ℤ} (hhi : v < 2 ^ 31) : (decimal v).length ≤ 10 ↔ -10 ^ 9 < v := by
  rw [decimal]
  split
  · have hdigits := @Nat.length_toDigits_le_iff 10 v.natAbs 9 (by decide) (by decide)
    rw [List.length_cons]
    omega
  · rw [Nat.length_toDigits_le_iff (by decide) (by decide)]
    omega

theorem numberAt_lt {text : List Char} {v : ℤ} (h : NumberAt text v) : v < 2 ^ 31 := by
  obtain ⟨_, _, _, _, n, _, _, _, _, _, _, rfl⟩ := h
  exact (storeInt_range n).2

/-- **`sprintf` stays inside the string** for a number of at most ten characters. -/
theorem delayOverrun_eq_zero_iff (text : List Char) :
    delayOverrun text = 0 ↔ ∀ v, NumberAt text v → -10 ^ 9 < v := by
  simp only [← scanDelay_eq_some_iff]
  rw [delayOverrun]
  cases hscan : scanDelay text with
  | none => exact iff_of_true rfl fun v hv => (nomatch hv)
  | some v =>
    have hlt := numberAt_lt (scanDelay_eq_some_iff.mp hscan)
    show (decimal v).length + 1 - delaySize = 0 ↔ _
    have hsize : (decimal v).length + 1 - delaySize = 0 ↔ (decimal v).length ≤ 10 := by
      rw [delaySize]
      omega
    rw [hsize, decimal_length_le_iff hlt]
    constructor
    · intro hv w hw
      rwa [← Option.some.inj hw]
    · exact fun hv => hv v rfl

/-! ### The iteration -/

/-- The iteration in terms of the text that has arrived. -/
theorem request_listen_some (bytes : Peeked) (client_fd : ℤ) (queue : PriorityQueue (List Char)) :
    request_listen (some bytes) client_fd queue =
      if 0 < delayOverrun bytes.text then .error .delayWrite
      else
        match requestLine bytes.text with
        | none => .error .nullRequest
        | some line => dispatch ⟨line.1, line.2, delayText bytes.text⟩ client_fd queue := by
  rw [request_listen, http_request_parse_eq]
  cases requestLine bytes.text <;> rfl

/-- **When an iteration ends** in one of the five ways. -/
theorem request_listen_ends_iff (received : Option Peeked) (client_fd : ℤ)
    (queue : PriorityQueue (List Char)) (q : ℤ) (xs : List (QueueRequest (List Char)))
    (h : Holds queue q xs) :
    Completes (request_listen received client_fd queue) ↔
      ∃ bytes, received = some bytes ∧ (∀ v, NumberAt bytes.text v → -10 ^ 9 < v) ∧
        ∃ M P R, RequestLine bytes.text M P R ∧ QueueServes q xs P := by
  cases received with
  | none =>
    constructor
    · rintro ⟨result, hresult⟩
      cases hresult
    · rintro ⟨bytes, hbytes, -⟩
      cases hbytes
  | some bytes =>
    rw [request_listen_some]
    constructor
    · rintro ⟨result, hresult⟩
      split at hresult
      · cases hresult
      rename_i hoverrun
      cases hline : requestLine bytes.text with
      | none =>
        rw [hline] at hresult
        cases hresult
      | some line =>
        rw [hline] at hresult
        obtain ⟨R, hR⟩ := requestLine_eq_some_iff.mp hline
        exact ⟨bytes, rfl, (delayOverrun_eq_zero_iff _).mp (by omega), line.1, line.2, R, hR,
          (dispatch_completes_iff h _ client_fd).mp ⟨result, hresult⟩⟩
    · rintro ⟨bytes', hbytes, hnumber, M, P, R, hline, hserves⟩
      obtain rfl := Option.some.inj hbytes
      rw [if_neg (by rw [(delayOverrun_eq_zero_iff _).mpr hnumber]; omega),
        requestLine_eq_some_iff.mpr ⟨R, hline⟩]
      exact (dispatch_completes_iff h _ client_fd).mpr hserves

theorem request_listen_ends_get :
    Completes (request_listen (some getRequest) 5 (create_queue 10)) := by
  refine (request_listen_ends_iff (some getRequest) 5 _ 10 [] (.empty 10)).mpr
    ⟨getRequest, rfl, ?_, "GET".toList, "/1/a".toList, ?_⟩
  · intro v hv
    have hscan : scanDelay getRequest.text = some 5 := by decide +kernel
    rw [scanDelay_eq_some_iff.mpr hv] at hscan
    rw [Option.some.inj hscan]
    decide
  · obtain ⟨R, hR⟩ := requestLine_eq_some_iff.mp
      (show requestLine getRequest.text = some ("GET".toList, "/1/a".toList) by decide +kernel)
    refine ⟨R, hR, ?_⟩
    rw [QueueServes, show classify "/1/a".toList = .worker 1 by decide +kernel]
    exact .inr (by decide)

/-- A client that closes the connection at once: the parser's null pointer is followed. -/
theorem request_listen_follows_null :
    ¬∀ (received : Option Peeked) (client_fd : ℤ) (queue : PriorityQueue (List Char)) (q : ℤ)
      (xs : List (QueueRequest (List Char))), Holds queue q xs →
        Completes (request_listen received client_fd queue) := by
  intro h
  obtain ⟨result, hresult⟩ := h (some ⟨[], by decide⟩) 5 (create_queue 10) 10 [] (.empty 10)
  rw [request_listen_some] at hresult
  cases hresult

end OperatingSystems.Proxy
