import Mathlib
import OperatingSystems.Lib.GuardedRuns
import OperatingSystems.Lib.RingBuffer

/-!
# Pipes

`pipe.c` of xv6.  Any number of processes write to a pipe and read from it; what one does while it holds the
lock of the pipe is one step, and it ends when the process returns or sleeps.

* **`State`**, **`next`** — the pipe, where each process stands, and the steps.
* **`Inv`**, **`Inv.step`** — what holds in every state, and that each step keeps it.
* **`pipe_is_a_queue`**, **`sleepers_wait`** — the results for all runs.
-/

namespace OperatingSystems.Files

open RingBuffer GuardedRuns

def PIPESIZE : ℕ := 512

/-- The counters are of type `uint`. -/
def UINT : ℕ := 2 ^ 32

/-- `struct pipe`, with `data`, `nread` and `nwrite` from the ring. -/
structure Pipe extends Buffer UInt8 where
  readopen : Bool
  writeopen : Bool

/-- Where a process stands: in `pipewrite` with the rest of what it writes, or in `piperead`; before it has the
lock, or asleep. -/
inductive Place
  | outside
  | writing (n : ℕ) (rest : List UInt8)
  | writeSleeping (n : ℕ) (rest : List UInt8)
  | reading (n : ℕ)
  | readSleeping (n : ℕ)
deriving DecidableEq

/-- A call: of `pipewrite` with its bytes, and all that the process had written before; or of `piperead` with
the number of bytes it asks for. -/
inductive Call
  | write (bytes before : List UInt8)
  | read (n : ℕ)
deriving DecidableEq

structure State (ι : Type) where
  pipe : Pipe
  place : ι → Place
  killed : ι → Bool
  /-- All that has been written and by whom, all that has been read, and the last call of each process: a record
  of the model. -/
  sent : List (ι × UInt8)
  received : List UInt8
  call : ι → Call

/-- What a process comes to when it gives up the lock. -/
inductive Outcome
  | wrote (n : ℕ)
  | read (bytes : List UInt8)
  | failed
  | sleeps
deriving DecidableEq

/-! ### The loops -/

/-- The loop of `pipewrite`, to its end or to a full buffer; with what is left to write. -/
def writeLoop : List UInt8 → Buffer UInt8 → List UInt8 × Buffer UInt8
  | [], b => ([], b)
  | c :: rest, b =>
    if b.nwrite = (b.nread + PIPESIZE) % UINT then (c :: rest, b)
    else writeLoop rest (b.push PIPESIZE UINT c)

/-- The loop of `piperead`, with what is read. -/
def readLoop : ℕ → Buffer UInt8 → List UInt8 × Buffer UInt8
  | 0, b => ([], b)
  | n + 1, b =>
    if b.nread = b.nwrite then ([], b)
    else
      let r := readLoop n (b.pop UINT)
      (b.front PIPESIZE :: r.1, r.2)

/-! ### The steps -/

/-- `wakeup(&p->nread)` -/
def wakeReader : Place → Place
  | .readSleeping n => .reading n
  | place => place

/-- `wakeup(&p->nwrite)` -/
def wakeWriter : Place → Place
  | .writeSleeping n rest => .writing n rest
  | place => place

variable {ι : Type} [DecidableEq ι]

def pipewrite (p : ι) (n : ℕ) (rest : List UInt8) (s : State ι) : Outcome × State ι :=
  match writeLoop rest s.pipe.toBuffer with
  | ([], b) => (.wrote n, { s with
      pipe := { s.pipe with toBuffer := b }
      place := fun q => wakeReader (Function.update s.place p .outside q)
      sent := s.sent ++ rest.map (Prod.mk p) })
  | (c :: left, b) =>
    let s := { s with
      pipe := { s.pipe with toBuffer := b }
      sent := s.sent ++ (rest.take (rest.length - (c :: left).length)).map (Prod.mk p) }
    if s.pipe.readopen = false ∨ s.killed p then
      (.failed, { s with place := Function.update s.place p .outside })
    else (.sleeps, { s with
      place := Function.update (fun q => wakeReader (s.place q)) p (.writeSleeping n (c :: left)) })

def piperead (p : ι) (n : ℕ) (s : State ι) : Outcome × State ι :=
  if s.pipe.nread = s.pipe.nwrite ∧ s.pipe.writeopen then
    if s.killed p then (.failed, { s with place := Function.update s.place p .outside })
    else (.sleeps, { s with place := Function.update s.place p (.readSleeping n) })
  else
    let r := readLoop n s.pipe.toBuffer
    (.read r.1, { s with
      pipe := { s.pipe with toBuffer := r.2 }
      place := fun q => wakeWriter (Function.update s.place p .outside q)
      received := s.received ++ r.1 })

def run (p : ι) (s : State ι) : Option (Outcome × State ι) :=
  match s.place p with
  | .writing n rest => some (pipewrite p n rest s)
  | .reading n => some (piperead p n s)
  | _ => none

inductive Event (ι : Type)
  | write (p : ι) (bytes : List UInt8)
  | read (p : ι) (n : ℕ)
  /-- The process has the lock; `late` is set when it is killed between its test of `killed` and `sleep`. -/
  | run (p : ι) (late : Bool)
  | kill (p : ι)
  /-- `pipeclose`, when the last descriptor of this end is closed. -/
  | close (writable : Bool)

/-- What a process has written. -/
def sentBy (p : ι) (sent : List (ι × UInt8)) : List UInt8 :=
  (sent.filter fun x => x.1 = p).map Prod.snd

def next (s : State ι) : Event ι → Option (State ι)
  | .write p bytes =>
    if s.place p = .outside then some { s with
      place := Function.update s.place p (.writing bytes.length bytes)
      call := Function.update s.call p (.write bytes (sentBy p s.sent)) }
    else none
  | .read p n =>
    if s.place p = .outside then some { s with
      place := Function.update s.place p (.reading n)
      call := Function.update s.call p (.read n) }
    else none
  | .run p late => (run p s).map fun r =>
      { r.2 with killed := Function.update r.2.killed p (r.2.killed p || late) }
  | .kill p => some { s with
      killed := Function.update s.killed p true
      place := Function.update s.place p (wakeReader (wakeWriter (s.place p))) }
  | .close true => some { s with
      pipe := { s.pipe with writeopen := false }
      place := fun q => wakeReader (s.place q) }
  | .close false => some { s with
      pipe := { s.pipe with readopen := false }
      place := fun q => wakeWriter (s.place q) }

def step (s : State ι) (e : Event ι) (s' : State ι) : Prop :=
  next s e = some s'

/-- A process is in `pipewrite`. -/
def Place.writes : Place → Bool
  | .writing _ _ | .writeSleeping _ _ => true
  | _ => false

/-- A process is in `piperead`. -/
def Place.reads : Place → Bool
  | .reading _ | .readSleeping _ => true
  | _ => false

/-- The guard of the runs: a process uses an end that is open, and as long as it does so the end is not closed,
since it has a descriptor of it. -/
def Held (s : State ι) : Event ι → Prop
  | .write _ _ => s.pipe.writeopen = true
  | .read _ _ => s.pipe.readopen = true
  | .close true => s.pipe.writeopen = true ∧ ∀ p, (s.place p).writes = false
  | .close false => s.pipe.readopen = true ∧ ∀ p, (s.place p).reads = false
  | _ => True

/-- `pipealloc` -/
def init (s : State ι) : Prop :=
  s.pipe.nread = 0 ∧ s.pipe.nwrite = 0 ∧ s.pipe.readopen = true ∧ s.pipe.writeopen = true ∧
    (∀ p, s.place p = .outside) ∧ s.sent = [] ∧ s.received = []

/-! ### What the loops do -/

theorem pipesize_lt : PIPESIZE < UINT := by decide

theorem pipesize_dvd : PIPESIZE ∣ UINT := by decide

/-- What a ring of a pipe contains. -/
abbrev held (b : Buffer UInt8) : List UInt8 := b.contents PIPESIZE UINT

/-- **The loop of `pipewrite`** puts a first part of the bytes behind what is there, and stops early only when
the buffer is full. -/
theorem writeLoop_spec {b : Buffer UInt8} (h : b.Ok PIPESIZE UINT) (rest : List UInt8) :
    ∃ done, rest = done ++ (writeLoop rest b).1 ∧ (writeLoop rest b).2.Ok PIPESIZE UINT ∧
      held (writeLoop rest b).2 = held b ++ done ∧
      ((writeLoop rest b).1 ≠ [] → (writeLoop rest b).2.count UINT = PIPESIZE) := by
  induction rest generalizing b with
  | nil => exact ⟨[], rfl, h, (List.append_nil _).symm, fun hne => absurd rfl hne⟩
  | cons c rest ih =>
    unfold writeLoop
    by_cases hfull : b.nwrite = (b.nread + PIPESIZE) % UINT
    · rw [if_pos hfull]
      exact ⟨[], rfl, h, (List.append_nil _).symm, fun _ => (h.full_iff pipesize_lt).mp hfull⟩
    · rw [if_neg hfull]
      have hroom : b.count UINT < PIPESIZE :=
        Nat.lt_of_le_of_ne h.count_le fun heq => hfull ((h.full_iff pipesize_lt).mpr heq)
      obtain ⟨done, hsplit, hok, hheld, hstop⟩ := ih (h.push pipesize_lt hroom c)
      refine ⟨c :: done, ?_, hok, ?_, hstop⟩
      · rw [List.cons_append, ← hsplit]
      · rw [hheld, held, h.contents_push pipesize_lt pipesize_dvd hroom, List.append_assoc]
        rfl

/-- **The loop of `piperead`** takes the first `n` bytes, or all if there are fewer. -/
theorem readLoop_spec {b : Buffer UInt8} (h : b.Ok PIPESIZE UINT) (n : ℕ) :
    (readLoop n b).2.Ok PIPESIZE UINT ∧ (readLoop n b).1 = (held b).take n ∧
      held (readLoop n b).2 = (held b).drop n := by
  induction n generalizing b with
  | zero => exact ⟨h, rfl, rfl⟩
  | succ n ih =>
    unfold readLoop
    by_cases hempty : b.nread = b.nwrite
    · have hnil : held b = [] := by
        rw [← List.length_eq_zero_iff, Buffer.contents_length]
        exact h.empty_iff.mp hempty
      rw [if_pos hempty, hnil]
      exact ⟨h, rfl, rfl⟩
    · rw [if_neg hempty]
      have hsome : 0 < b.count UINT := Nat.pos_of_ne_zero fun hzero => hempty (h.empty_iff.mpr hzero)
      obtain ⟨hok, hread, hheld⟩ := ih (h.pop hsome)
      have hfront := h.contents_pop pipesize_dvd hsome
      refine ⟨hok, ?_, ?_⟩
      · rw [held, hfront, List.take_succ_cons, ← hread]
      · rw [hheld, held, held, hfront, List.drop_succ_cons]

/-! ### What has been written, and by whom -/

omit [DecidableEq ι] in
theorem map_snd_sent (p : ι) (bytes : List UInt8) : (bytes.map (Prod.mk p)).map Prod.snd = bytes := by
  rw [List.map_map]
  exact List.map_id _

theorem sentBy_self (p : ι) (sent : List (ι × UInt8)) (bytes : List UInt8) :
    sentBy p (sent ++ bytes.map (Prod.mk p)) = sentBy p sent ++ bytes := by
  have hall : (bytes.map (Prod.mk p)).filter (fun x => x.1 = p) = bytes.map (Prod.mk p) := by
    refine List.filter_eq_self.mpr fun x hx => ?_
    obtain ⟨c, -, rfl⟩ := List.mem_map.mp hx
    exact decide_eq_true rfl
  unfold sentBy
  rw [List.filter_append, List.map_append, hall, map_snd_sent]

theorem sentBy_other {p q : ι} (hq : q ≠ p) (sent : List (ι × UInt8)) (bytes : List UInt8) :
    sentBy q (sent ++ bytes.map (Prod.mk p)) = sentBy q sent := by
  have hnone : (bytes.map (Prod.mk p)).filter (fun x => x.1 = q) = [] := by
    refine List.filter_eq_nil_iff.mpr fun x hx => ?_
    obtain ⟨c, -, rfl⟩ := List.mem_map.mp hx
    rw [decide_eq_true_eq]
    exact hq.symm
  unfold sentBy
  rw [List.filter_append, hnone, List.append_nil]

/-! ### The invariant -/

/-- What holds of a process: it sleeps in `pipewrite` only while the buffer is full and can still be read. -/
def Fine (pipe : Pipe) : Place → Prop
  | .outside => True
  | .writing _ _ => pipe.writeopen = true
  | .writeSleeping _ _ => pipe.writeopen = true ∧ pipe.readopen = true ∧ pipe.count UINT = PIPESIZE
  | .reading _ => pipe.readopen = true
  | .readSleeping _ => pipe.readopen = true

/-- **The invariant of a pipe.** -/
structure Inv (s : State ι) : Prop where
  buffer : s.pipe.Ok PIPESIZE UINT
  queue : s.received ++ held s.pipe.toBuffer = s.sent.map Prod.snd
  fine : ∀ p, Fine s.pipe (s.place p)

variable {s s' : State ι} {e : Event ι} {p q : ι} {n : ℕ} {rest : List UInt8} {outcome : Outcome}
  {pipe pipe' : Pipe} {place : Place}

theorem fine_outside : Fine pipe .outside := trivial

theorem Fine.wakeReader (h : Fine pipe place) : Fine pipe (wakeReader place) := by
  cases place with
  | readSleeping n => exact h
  | _ => exact h

/-- The buffer may be full no longer. -/
theorem Fine.wakeWriter (h : Fine pipe place) (hwrite : pipe'.writeopen = pipe.writeopen)
    (hread : pipe'.readopen = pipe.readopen) : Fine pipe' (wakeWriter place) := by
  cases place with
  | outside => trivial
  | writing n rest => exact hwrite.trans h
  | writeSleeping n rest => exact hwrite.trans h.1
  | reading n => exact hread.trans h
  | readSleeping n => exact hread.trans h

/-- The buffer is full if it was. -/
theorem Fine.more (h : Fine pipe place) (hwrite : pipe'.writeopen = pipe.writeopen)
    (hread : pipe'.readopen = pipe.readopen) (hcount : pipe.count UINT = PIPESIZE → pipe'.count UINT = PIPESIZE) :
    Fine pipe' place := by
  cases place with
  | outside => trivial
  | writing n rest => exact hwrite.trans h
  | writeSleeping n rest => exact ⟨hwrite.trans h.1, hread.trans h.2.1, hcount h.2.2⟩
  | reading n => exact hread.trans h
  | readSleeping n => exact hread.trans h

theorem fine_update {places : ι → Place} (h : ∀ q, Fine pipe (places q)) (p : ι) (hp : Fine pipe place) (q : ι) :
    Fine pipe (Function.update places p place q) := by
  by_cases hqp : q = p
  · rw [hqp, Function.update_self]
    exact hp
  · rw [Function.update_of_ne hqp]
    exact h q

omit [DecidableEq ι] in
theorem Inv.init (h : init s) : Inv s := by
  obtain ⟨hread, hwrite, -, -, hplace, hsent, hreceived⟩ := h
  have hcount : s.pipe.count UINT = 0 := by
    unfold Buffer.count
    rw [hread, hwrite]
    decide
  have hnil : held s.pipe.toBuffer = [] := by
    rw [← List.length_eq_zero_iff, Buffer.contents_length]
    exact hcount
  refine ⟨⟨?_, ?_, ?_⟩, ?_, fun q => ?_⟩
  · rw [hread]
    decide
  · rw [hwrite]
    decide
  · rw [hcount]
    decide
  · rw [hnil, hsent, hreceived]
    rfl
  · rw [hplace q]
    trivial

omit [DecidableEq ι] in
/-- **The buffer after the loop of `pipewrite`**: it is full if it was. -/
theorem Inv.writeLoop (h : Inv s) (rest : List UInt8) :
    ∃ done, rest = done ++ (writeLoop rest s.pipe.toBuffer).1 ∧
      (Files.writeLoop rest s.pipe.toBuffer).2.Ok PIPESIZE UINT ∧
      s.received ++ held (Files.writeLoop rest s.pipe.toBuffer).2 = s.sent.map Prod.snd ++ done ∧
      (s.pipe.count UINT = PIPESIZE → (Files.writeLoop rest s.pipe.toBuffer).2.count UINT = PIPESIZE) ∧
      ((Files.writeLoop rest s.pipe.toBuffer).1 ≠ [] →
        (Files.writeLoop rest s.pipe.toBuffer).2.count UINT = PIPESIZE) := by
  obtain ⟨done, hsplit, hok, hheld, hstop⟩ := writeLoop_spec h.buffer rest
  refine ⟨done, hsplit, hok, ?_, fun hfull => ?_, hstop⟩
  · rw [hheld, ← List.append_assoc, h.queue]
  · have hlen := congrArg List.length hheld
    rw [List.length_append, held, held, Buffer.contents_length, Buffer.contents_length, hfull] at hlen
    have hle := hok.count_le
    omega

/-- **A process in `pipewrite` has the lock.** -/
theorem Inv.pipewrite (h : Inv s) (hplace : s.place p = .writing n rest) : Inv (pipewrite p n rest s).2 := by
  obtain ⟨done, hsplit, hok, hqueue, hcount, hstop⟩ := h.writeLoop rest
  have hopen : s.pipe.writeopen = true := by
    have hfine := h.fine p
    rwa [hplace] at hfine
  unfold Files.pipewrite
  split
  · rename_i b heq
    rw [heq] at hsplit hok hqueue hcount
    rw [List.append_nil] at hsplit
    refine ⟨hok, ?_, fun q => ?_⟩
    · rw [List.map_append, map_snd_sent, hsplit]
      exact hqueue
    · refine .wakeReader (fine_update (fun q => ?_) p fine_outside q)
      exact (h.fine q).more rfl rfl hcount
  · rename_i c left b heq
    rw [heq] at hsplit hok hqueue hcount hstop
    have hdone : rest.take (rest.length - (c :: left).length) = done := by
      rw [hsplit, List.length_append, Nat.add_sub_cancel, List.take_left']
      rfl
    have hfull := hstop (List.cons_ne_nil c left)
    rw [← map_snd_sent p done, ← List.map_append] at hqueue
    dsimp only
    rw [hdone]
    split
    · refine ⟨hok, hqueue, fun q => fine_update (fun q => ?_) p fine_outside q⟩
      exact (h.fine q).more rfl rfl hcount
    · rename_i hgo
      have hread : s.pipe.readopen = true := by
        by_contra hclosed
        exact hgo (.inl (Bool.eq_false_iff.mpr hclosed))
      have hsleep : Fine ⟨b, s.pipe.readopen, s.pipe.writeopen⟩ (.writeSleeping n (c :: left)) :=
        ⟨hopen, hread, hfull⟩
      have hwoken : ∀ q, Fine ⟨b, s.pipe.readopen, s.pipe.writeopen⟩ (wakeReader (s.place q)) :=
        fun q => .wakeReader ((h.fine q).more rfl rfl hcount)
      exact ⟨hok, hqueue, fine_update hwoken p hsleep⟩

/-- **A process in `piperead` has the lock.** -/
theorem Inv.piperead (h : Inv s) (hplace : s.place p = .reading n) : Inv (piperead p n s).2 := by
  have hopen : s.pipe.readopen = true := by
    have hfine := h.fine p
    rwa [hplace] at hfine
  unfold Files.piperead
  split
  · split
    · exact ⟨h.buffer, h.queue, fine_update h.fine p fine_outside⟩
    · exact ⟨h.buffer, h.queue, fine_update h.fine p (show Fine s.pipe (.readSleeping n) from hopen)⟩
  · obtain ⟨hok, hread, hheld⟩ := readLoop_spec h.buffer n
    refine ⟨hok, ?_, fun q => ?_⟩
    · show (s.received ++ (readLoop n s.pipe.toBuffer).1) ++ held (readLoop n s.pipe.toBuffer).2 = s.sent.map _
      rw [hread, hheld, List.append_assoc, List.take_append_drop]
      exact h.queue
    · exact (fine_update h.fine p fine_outside q).wakeWriter rfl rfl

/-- **One step keeps the invariant.** -/
theorem Inv.step (h : Inv s) (hok : Held s e) (hstep : step s e s') : Inv s' := by
  unfold Files.step next at hstep
  cases e with
  | write p bytes =>
    dsimp only at hstep
    rw [Option.ite_none_right_eq_some] at hstep
    obtain ⟨-, heq⟩ := hstep
    cases heq
    exact ⟨h.buffer, h.queue, fine_update h.fine p (show Fine s.pipe (.writing _ _) from hok)⟩
  | read p n =>
    dsimp only at hstep
    rw [Option.ite_none_right_eq_some] at hstep
    obtain ⟨-, heq⟩ := hstep
    cases heq
    exact ⟨h.buffer, h.queue, fine_update h.fine p (show Fine s.pipe (.reading _) from hok)⟩
  | run p late =>
    obtain ⟨⟨outcome, t⟩, hrun, heq⟩ := Option.map_eq_some_iff.mp hstep
    have hinv : Inv t := by
      unfold run at hrun
      split at hrun
      · rename_i n rest hplace
        have hkeep := h.pipewrite hplace
        rw [Option.some.inj hrun] at hkeep
        exact hkeep
      · rename_i n hplace
        have hkeep := h.piperead hplace
        rw [Option.some.inj hrun] at hkeep
        exact hkeep
      · cases hrun
    cases heq
    exact ⟨hinv.buffer, hinv.queue, hinv.fine⟩
  | kill p =>
    cases hstep
    exact ⟨h.buffer, h.queue, fine_update h.fine p ((h.fine p).wakeWriter rfl rfl).wakeReader⟩
  | close writable =>
    cases writable with
    | true =>
      cases hstep
      refine ⟨h.buffer, h.queue, fun q => ?_⟩
      have hfine := h.fine q
      have hout := hok.2 q
      dsimp only
      cases hq : s.place q with
      | outside => trivial
      | writing n rest =>
        rw [hq] at hout
        cases hout
      | writeSleeping n rest =>
        rw [hq] at hout
        cases hout
      | reading n =>
        rw [hq] at hfine
        exact hfine
      | readSleeping n =>
        rw [hq] at hfine
        exact hfine
    | false =>
      cases hstep
      refine ⟨h.buffer, h.queue, fun q => ?_⟩
      have hfine := h.fine q
      have hout := hok.2 q
      dsimp only
      cases hq : s.place q with
      | outside => trivial
      | writing n rest =>
        rw [hq] at hfine
        exact hfine
      | writeSleeping n rest =>
        rw [hq] at hfine
        exact hfine.1
      | reading n =>
        rw [hq] at hout
        cases hout
      | readSleeping n =>
        rw [hq] at hout
        cases hout

theorem inv_of_reach (h : Reach init step Held s) : Inv s :=
  h.invariant (fun _ h0 => .init h0) fun _ _ _ hinv hok hstep => hinv.step hok hstep

/-! ### Where a process is in its call -/

/-- In `pipewrite`, what the process has written since the call began and what it still has to write are the
bytes of the call. -/
def Tells (call : Call) (mine : List UInt8) : Place → Prop
  | .outside => True
  | .writing n rest | .writeSleeping n rest => ∃ bytes before done, call = .write bytes before ∧
      n = bytes.length ∧ mine = before ++ done ∧ bytes = done ++ rest
  | .reading n | .readSleeping n => call = .read n

theorem tells_outside {call : Call} {mine : List UInt8} : Tells call mine .outside := trivial

/-- **Every process is where its call has come to.** -/
def Recorded (s : State ι) : Prop :=
  ∀ p, Tells (s.call p) (sentBy p s.sent) (s.place p)

theorem Tells.wakeReader {call : Call} {mine : List UInt8} (h : Tells call mine place) :
    Tells call mine (wakeReader place) := by
  cases place with
  | readSleeping n => exact h
  | _ => exact h

theorem Tells.wakeWriter {call : Call} {mine : List UInt8} (h : Tells call mine place) :
    Tells call mine (wakeWriter place) := by
  cases place with
  | writeSleeping n rest => exact h
  | _ => exact h

/-- A process goes to another place, and what the others have written is the same. -/
theorem Recorded.update {sent : List (ι × UInt8)} (h : Recorded s)
    (hother : ∀ q, q ≠ p → sentBy q sent = sentBy q s.sent)
    (hp : Tells (s.call p) (sentBy p sent) place) (q : ι) :
    Tells (s.call q) (sentBy q sent) (Function.update s.place p place q) := by
  by_cases hqp : q = p
  · rw [hqp, Function.update_self]
    exact hp
  · rw [Function.update_of_ne hqp, hother q hqp]
    exact h q

/-- A call begins. -/
theorem Recorded.begin {call : Call} (h : Recorded s) (hp : Tells call (sentBy p s.sent) place) (q : ι) :
    Tells (Function.update s.call p call q) (sentBy q s.sent) (Function.update s.place p place q) := by
  by_cases hqp : q = p
  · rw [hqp, Function.update_self, Function.update_self]
    exact hp
  · rw [Function.update_of_ne hqp, Function.update_of_ne hqp]
    exact h q

/-! ### What a process comes to -/

/-- **What the outcome says** about the call and the pipe.  A write that returns has written all its bytes, one
that fails or sleeps a first part of them; a read has taken the first bytes in the buffer. -/
def Explained (p : ι) (s s' : State ι) : Outcome → Prop
  | .wrote n => ∃ bytes before, s.call p = .write bytes before ∧ n = bytes.length ∧
      sentBy p s'.sent = before ++ bytes
  | .read bytes => ∃ n, s.call p = .read n ∧ bytes = (held s.pipe.toBuffer).take n ∧
      s'.received = s.received ++ bytes ∧ (held s.pipe.toBuffer = [] → s.pipe.writeopen = false)
  | .failed =>
      (∃ bytes before done left, s.call p = .write bytes before ∧ bytes = done ++ left ∧ left ≠ [] ∧
        sentBy p s'.sent = before ++ done ∧ (s.killed p = true ∨ s.pipe.readopen = false)) ∨
      (∃ n, s.call p = .read n ∧ s'.received = s.received ∧ s.killed p = true)
  | .sleeps =>
      (∃ bytes before done left, s.call p = .write bytes before ∧ bytes = done ++ left ∧ left ≠ [] ∧
        sentBy p s'.sent = before ++ done ∧ s'.place p = .writeSleeping bytes.length left ∧
          s.pipe.readopen = true) ∨
      (∃ n, s.call p = .read n ∧ s'.received = s.received ∧ s'.place p = .readSleeping n ∧
        held s.pipe.toBuffer = [] ∧ s.pipe.writeopen = true)

omit [DecidableEq ι] in
theorem Inv.held_eq_nil_iff (h : Inv s) : held s.pipe.toBuffer = [] ↔ s.pipe.nread = s.pipe.nwrite := by
  rw [h.buffer.empty_iff, ← Buffer.contents_length PIPESIZE, List.length_eq_zero_iff]

/-- What the others have written is the same, and every process is still where its call has come to. -/
structure Keeps (p : ι) (s s' : State ι) : Prop where
  others : ∀ q, q ≠ p → sentBy q s'.sent = sentBy q s.sent
  recorded : Recorded s'

theorem Inv.pipewrite_explained (h : Inv s) (htold : Recorded s) (hplace : s.place p = .writing n rest)
    (hrun : Files.pipewrite p n rest s = (outcome, s')) : Explained p s s' outcome ∧ Keeps p s s' := by
  obtain ⟨done, hsplit, -, -, -⟩ := writeLoop_spec h.buffer rest
  have htells := htold p
  rw [hplace] at htells
  obtain ⟨bytes, before, sofar, hcall, rfl, hmine, hbytes⟩ := htells
  unfold Files.pipewrite at hrun
  split at hrun
  · rename_i b _
    cases hrun
    have hall : sentBy p (s.sent ++ rest.map (Prod.mk p)) = before ++ bytes := by
      rw [sentBy_self, hmine, List.append_assoc, ← hbytes]
    refine ⟨⟨bytes, before, hcall, rfl, hall⟩, fun q hq => sentBy_other hq s.sent rest, fun q => ?_⟩
    exact .wakeReader (htold.update (fun q hq => sentBy_other hq s.sent rest) tells_outside q)
  · rename_i c left b heq
    rw [heq] at hsplit
    have hdone : rest.take (rest.length - (c :: left).length) = done := by
      rw [hsplit, List.length_append, Nat.add_sub_cancel, List.take_left']
      rfl
    have hall : sentBy p (s.sent ++ done.map (Prod.mk p)) = before ++ (sofar ++ done) := by
      rw [sentBy_self, hmine, List.append_assoc]
    have hrest : bytes = sofar ++ done ++ c :: left := by
      rw [List.append_assoc, ← hsplit]
      exact hbytes
    have hothers : ∀ q, q ≠ p → sentBy q (s.sent ++ done.map (Prod.mk p)) = sentBy q s.sent :=
      fun q hq => sentBy_other hq s.sent done
    dsimp only at hrun
    rw [hdone] at hrun
    split at hrun
    · rename_i hfail
      cases hrun
      exact ⟨.inl ⟨bytes, before, sofar ++ done, c :: left, hcall, hrest, List.cons_ne_nil c left, hall,
        hfail.symm⟩, hothers, htold.update hothers tells_outside⟩
    · rename_i hgo
      cases hrun
      have hread : s.pipe.readopen = true := by
        by_contra hclosed
        exact hgo (.inl (Bool.eq_false_iff.mpr hclosed))
      refine ⟨.inl ⟨bytes, before, sofar ++ done, c :: left, hcall, hrest, List.cons_ne_nil c left, hall,
        Function.update_self (f := fun q => Files.wakeReader (s.place q)) .., hread⟩, hothers, fun q => ?_⟩
      have hwoken : Recorded { s with place := fun q => Files.wakeReader (s.place q) } :=
        fun q => .wakeReader (htold q)
      have hasleep : Tells (s.call p) (sentBy p (s.sent ++ done.map (Prod.mk p)))
          (.writeSleeping bytes.length (c :: left)) :=
        ⟨bytes, before, sofar ++ done, hcall, rfl, hall, hrest⟩
      exact hwoken.update hothers hasleep q

theorem Inv.piperead_explained (h : Inv s) (htold : Recorded s) (hplace : s.place p = .reading n)
    (hrun : Files.piperead p n s = (outcome, s')) : Explained p s s' outcome ∧ Keeps p s s' := by
  have hcall : s.call p = .read n := by
    have htells := htold p
    rwa [hplace] at htells
  unfold Files.piperead at hrun
  split at hrun
  · rename_i hempty
    split at hrun
    · rename_i hkilled
      cases hrun
      exact ⟨.inr ⟨n, hcall, rfl, hkilled⟩, fun _ _ => rfl, htold.update (p := p) (fun _ _ => rfl) tells_outside⟩
    · cases hrun
      exact ⟨.inr ⟨n, hcall, rfl, Function.update_self .., h.held_eq_nil_iff.mpr hempty.1, hempty.2⟩,
        fun _ _ => rfl, htold.update (p := p) (fun _ _ => rfl) hcall⟩
  · rename_i hgo
    cases hrun
    refine ⟨⟨n, hcall, (readLoop_spec h.buffer n).2.1, rfl, fun hnil => ?_⟩, fun _ _ => rfl, fun q => ?_⟩
    · by_contra hopen
      exact hgo ⟨h.held_eq_nil_iff.mp hnil, Bool.eq_true_of_not_eq_false hopen⟩
    · exact (htold.update (p := p) (fun _ _ => rfl) tells_outside q).wakeWriter

theorem Inv.run_explained (h : Inv s) (htold : Recorded s) (hrun : Files.run p s = some (outcome, s')) :
    Explained p s s' outcome ∧ Keeps p s s' := by
  unfold Files.run at hrun
  split at hrun
  · rename_i n rest hplace
    exact h.pipewrite_explained htold hplace (Option.some.inj hrun)
  · rename_i n hplace
    exact h.piperead_explained htold hplace (Option.some.inj hrun)
  · cases hrun

theorem Recorded.step (htold : Recorded s) (h : Inv s) (hstep : Files.step s e s') : Recorded s' := by
  unfold Files.step next at hstep
  cases e with
  | write p bytes =>
    dsimp only at hstep
    rw [Option.ite_none_right_eq_some] at hstep
    obtain ⟨-, heq⟩ := hstep
    cases heq
    exact htold.begin ⟨bytes, _, [], rfl, rfl, (List.append_nil _).symm, rfl⟩
  | read p n =>
    dsimp only at hstep
    rw [Option.ite_none_right_eq_some] at hstep
    obtain ⟨-, heq⟩ := hstep
    cases heq
    exact htold.begin rfl
  | run p late =>
    obtain ⟨⟨outcome, t⟩, hrun, heq⟩ := Option.map_eq_some_iff.mp hstep
    cases heq
    exact (h.run_explained htold hrun).2.recorded
  | kill p =>
    cases hstep
    exact htold.update (p := p) (fun _ _ => rfl) (htold p).wakeWriter.wakeReader
  | close writable =>
    cases writable with
    | true =>
      cases hstep
      exact fun q => (htold q).wakeReader
    | false =>
      cases hstep
      exact fun q => (htold q).wakeWriter

theorem recorded_of_reach (h : Reach init step Held s) : Inv s ∧ Recorded s := by
  refine h.invariant (I := fun s => Inv s ∧ Recorded s) (fun s h0 => ⟨.init h0, fun p => ?_⟩)
    fun s e s' hs hok hstep => ⟨hs.1.step hok hstep, hs.2.step hs.1 hstep⟩
  obtain ⟨-, -, -, -, hplace, -, -⟩ := h0
  rw [hplace p]
  trivial

/-- **A pipe is a queue**, also when its counters wrap around: in every state reached by any processes that
write, read, are killed and close the ends in any order, what has been read and what the buffer holds is all that
has been written, in its order.  And whatever a process comes to when it has the lock is explained by its call:
a write that returns has written all its bytes in all its turns together. -/
theorem pipe_is_a_queue (h : Reach init step Held s) :
    s.received ++ held s.pipe.toBuffer = s.sent.map Prod.snd ∧ (held s.pipe.toBuffer).length ≤ PIPESIZE ∧
      ∀ p outcome s', run p s = some (outcome, s') →
        Explained p s s' outcome ∧ ∀ q, q ≠ p → sentBy q s'.sent = sentBy q s.sent := by
  obtain ⟨hinv, htold⟩ := recorded_of_reach h
  refine ⟨hinv.queue, ?_, fun p outcome s' hrun => ?_⟩
  · rw [Buffer.contents_length]
    exact hinv.buffer.count_le
  · obtain ⟨hexplained, hkeeps⟩ := hinv.run_explained htold hrun
    exact ⟨hexplained, hkeeps.others⟩

/-- A test for steps that the guard allows; it leaves out the closing of an end. -/
def usable (s : State ι) : Event ι → Bool
  | .write _ _ => s.pipe.writeopen
  | .read _ _ => s.pipe.readopen
  | .run _ _ => true
  | .kill _ => true
  | .close _ => false

omit [DecidableEq ι] in
theorem held_of_usable (s : State ι) (e : Event ι) (h : usable s e = true) : Held s e := by
  cases e with
  | write p bytes => exact h
  | read p n => exact h
  | run p late => trivial
  | kill p => trivial
  | close writable => cases h

/-- A pipe that has just been made, and two processes. -/
def made : State (Fin 2) :=
  ⟨⟨⟨fun _ => 0, 0, 0⟩, true, true⟩, fun _ => .outside, fun _ => false, [], [], fun _ => .read 0⟩

theorem reach_made (guard : State (Fin 2) → Event (Fin 2) → Prop) : Reach init step guard made :=
  .start ⟨rfl, rfl, rfl, rfl, fun _ => rfl, rfl, rfl⟩

/-- One process writes a byte more than the buffer holds and sleeps, and the other one reads two bytes; then the
first one goes on, and has written all. -/
theorem pipe_is_a_queue_two : ∃ s s' : State (Fin 2), s.place 0 = .writing 513 [7] ∧
    run 0 s = some (.wrote 513, s') ∧ sentBy 0 s'.sent = List.replicate 513 7 := by
  have hrun : (([.write 0 (List.replicate 513 7), .run 0 false, .read 1 2, .run 1 false].foldlM
      (fun s e => if usable s e then next s e else none) made).bind fun s => (run 0 s).map fun r =>
        (s.place 0, s.call 0, r.1)) =
      some (.writing 513 [7], .write (List.replicate 513 7) [], .wrote 513) := by decide +kernel
  obtain ⟨s, hs, hlast⟩ := Option.bind_eq_some_iff.mp hrun
  obtain ⟨⟨outcome, s'⟩, hturn, heq⟩ := Option.map_eq_some_iff.mp hlast
  obtain ⟨hplace, hcall, rfl⟩ : s.place 0 = .writing 513 [7] ∧
      s.call 0 = .write (List.replicate 513 7) [] ∧ outcome = .wrote 513 := by
    rw [Prod.mk.injEq, Prod.mk.injEq] at heq
    exact heq
  have hreach := Reach.foldlM_checked held_of_usable _ made s (reach_made Held) hs
  obtain ⟨⟨bytes, before, hbytes, -, hsent⟩, -⟩ := (pipe_is_a_queue hreach).2.2 0 _ s' hturn
  rw [hcall] at hbytes
  cases hbytes
  exact ⟨s, s', hplace, hturn, hsent⟩

/-! ### Sleepers -/

/-- Besides, no write that has put something into the buffer since it had the lock fails before it wakes the
readers. -/
def NotCut (s : State ι) (e : Event ι) : Prop :=
  Held s e ∧ ∀ p late s', e = .run p late → run p s = some (.failed, s') → s'.sent = s.sent

/-- The same test, without a process that fails. -/
def plain (s : State ι) (e : Event ι) : Bool :=
  usable s e && match e with
    | .run p _ => match run p s with
      | some (.failed, _) => false
      | _ => true
    | _ => true

theorem notCut_of_plain (s : State ι) (e : Event ι) (h : plain s e = true) : NotCut s e := by
  unfold plain at h
  rw [Bool.and_eq_true] at h
  refine ⟨held_of_usable s e h.1, fun p late s' he hrun => ?_⟩
  rw [he] at h
  dsimp only at h
  rw [hrun] at h
  exact absurd h.2 Bool.false_ne_true

/-- A process sleeps in `piperead` only while the buffer is empty and can still be written to. -/
def ReadersWait (s : State ι) : Prop :=
  ∀ q n, s.place q = .readSleeping n → s.pipe.count UINT = 0 ∧ s.pipe.writeopen = true

theorem ReadersWait.update (h : ReadersWait s) (p : ι) (hp : ∀ n, place ≠ .readSleeping n) :
    ∀ q n, Function.update s.place p place q = .readSleeping n →
      s.pipe.count UINT = 0 ∧ s.pipe.writeopen = true := by
  intro q n hq
  by_cases hqp : q = p
  · rw [hqp, Function.update_self] at hq
    exact absurd hq (hp n)
  · rw [Function.update_of_ne hqp] at hq
    exact h q n hq

theorem wakeReader_ne (place : Place) (n : ℕ) : wakeReader place ≠ .readSleeping n := by
  intro h
  cases place <;> cases h

theorem wakeWriter_eq_readSleeping : wakeWriter place = .readSleeping n ↔ place = .readSleeping n := by
  cases place <;> simp [wakeWriter]

/-- A write leaves no reader asleep beside bytes, unless it is cut off. -/
theorem ReadersWait.pipewrite (h : ReadersWait s) (hinv : Inv s) (hrun : Files.pipewrite p n rest s = (outcome, s'))
    (hcut : outcome = .failed → s'.sent = s.sent) : ReadersWait s' := by
  obtain ⟨done, hsplit, hok, hqueue, -, hstop⟩ := hinv.writeLoop rest
  unfold Files.pipewrite at hrun
  split at hrun
  · cases hrun
    exact fun q n hq => absurd hq (wakeReader_ne _ n)
  · rename_i c left b heq
    rw [heq] at hsplit hok hqueue hstop
    have hdone : rest.take (rest.length - (c :: left).length) = done := by
      rw [hsplit, List.length_append, Nat.add_sub_cancel, List.take_left']
      rfl
    dsimp only at hrun
    rw [hdone] at hrun
    split at hrun
    · cases hrun
      -- nothing has been put in, so that the full buffer was full before
      have hnil : done = [] := by
        have hsent : s.sent ++ done.map (Prod.mk p) = s.sent := hcut rfl
        exact List.map_eq_nil_iff.mp (List.append_right_eq_self.mp hsent)
      have hlen := congrArg List.length hqueue
      rw [hnil, List.append_nil, ← hinv.queue, List.length_append, List.length_append, Buffer.contents_length,
        Buffer.contents_length, hstop (List.cons_ne_nil c left)] at hlen
      intro q m hq
      dsimp only at hq
      by_cases hqp : q = p
      · rw [hqp, Function.update_self] at hq
        cases hq
      · rw [Function.update_of_ne hqp] at hq
        have hzero := (h q m hq).1
        rw [hzero] at hlen
        exact absurd (Nat.add_left_cancel hlen) (by decide)
    · cases hrun
      intro q m hq
      dsimp only at hq
      by_cases hqp : q = p
      · rw [hqp, Function.update_self] at hq
        cases hq
      · rw [Function.update_of_ne hqp] at hq
        exact absurd hq (wakeReader_ne _ m)

theorem ReadersWait.piperead (h : ReadersWait s) (hinv : Inv s) (hrun : Files.piperead p n s = (outcome, s')) :
    ReadersWait s' := by
  unfold Files.piperead at hrun
  split at hrun
  · rename_i hempty
    split at hrun
    · cases hrun
      exact h.update p fun n hc => by cases hc
    · cases hrun
      intro q m hq
      by_cases hqp : q = p
      · exact ⟨hinv.buffer.empty_iff.mp hempty.1, hempty.2⟩
      · dsimp only at hq
        rw [Function.update_of_ne hqp] at hq
        exact h q m hq
  · rename_i hgo
    cases hrun
    intro q m hq
    have hsleeps := wakeWriter_eq_readSleeping.mp hq
    by_cases hqp : q = p
    · rw [hqp, Function.update_self] at hsleeps
      cases hsleeps
    · rw [Function.update_of_ne hqp] at hsleeps
      obtain ⟨hzero, hopen⟩ := h q m hsleeps
      exact absurd ⟨hinv.buffer.empty_iff.mpr hzero, hopen⟩ hgo

theorem ReadersWait.step (h : ReadersWait s) (hinv : Inv s) (hok : NotCut s e) (hstep : Files.step s e s') :
    ReadersWait s' := by
  unfold Files.step next at hstep
  cases e with
  | write p bytes =>
    dsimp only at hstep
    rw [Option.ite_none_right_eq_some] at hstep
    obtain ⟨-, heq⟩ := hstep
    cases heq
    exact h.update p fun n hc => by cases hc
  | read p n =>
    dsimp only at hstep
    rw [Option.ite_none_right_eq_some] at hstep
    obtain ⟨-, heq⟩ := hstep
    cases heq
    exact h.update p fun n hc => by cases hc
  | run p late =>
    obtain ⟨⟨outcome, t⟩, hrun, heq⟩ := Option.map_eq_some_iff.mp hstep
    have hcut : outcome = .failed → t.sent = s.sent := fun hfail =>
      hok.2 p late t rfl (hfail ▸ hrun)
    have hwait : ReadersWait t := by
      unfold run at hrun
      split at hrun
      · exact h.pipewrite hinv (Option.some.inj hrun) hcut
      · exact h.piperead hinv (Option.some.inj hrun)
      · cases hrun
    cases heq
    exact hwait
  | kill p =>
    cases hstep
    exact h.update p fun n => wakeReader_ne _ n
  | close writable =>
    cases writable with
    | true =>
      cases hstep
      exact fun q n hq => absurd hq (wakeReader_ne _ n)
    | false =>
      cases hstep
      exact fun q n hq => h q n (wakeWriter_eq_readSleeping.mp hq)

/-- **Nobody sleeps who could go on**: a process sleeps in `pipewrite` only while the buffer is full and can
still be read, and in `piperead` only while it is empty and can still be written to.  So there are never a
writer and a reader asleep at the same time. -/
theorem sleepers_wait (h : Reach init step NotCut s) :
    (∀ p n rest, s.place p = .writeSleeping n rest →
      (held s.pipe.toBuffer).length = PIPESIZE ∧ s.pipe.readopen = true) ∧
    (∀ p n, s.place p = .readSleeping n → held s.pipe.toBuffer = [] ∧ s.pipe.writeopen = true) ∧
    ∀ p q n m rest, s.place p = .writeSleeping n rest → s.place q ≠ .readSleeping m := by
  have hboth : Inv s ∧ ReadersWait s := by
    refine h.invariant (I := fun s => Inv s ∧ ReadersWait s) (fun s h0 => ⟨.init h0, fun q n hq => ?_⟩)
      fun s e s' hs hok hstep => ?_
    · obtain ⟨-, -, -, -, hplace, -, -⟩ := h0
      rw [hplace q] at hq
      cases hq
    · exact ⟨hs.1.step hok.1 hstep, hs.2.step hs.1 hok hstep⟩
  obtain ⟨hinv, hreaders⟩ := hboth
  have hwriter : ∀ p n rest, s.place p = .writeSleeping n rest →
      s.pipe.count UINT = PIPESIZE ∧ s.pipe.readopen = true := by
    intro p n rest hp
    have hfine := hinv.fine p
    rw [hp] at hfine
    exact ⟨hfine.2.2, hfine.2.1⟩
  refine ⟨fun p n rest hp => ?_, fun p n hp => ?_, fun p q n m rest hp hq => ?_⟩
  · rw [Buffer.contents_length]
    exact hwriter p n rest hp
  · rw [← List.length_eq_zero_iff, Buffer.contents_length]
    exact hreaders p n hp
  · have hfull := (hwriter p n rest hp).1
    rw [(hreaders q m hq).1] at hfull
    exact absurd hfull (by decide)

/-- A reader sleeps at an empty pipe, until something is written. -/
theorem sleepers_wait_reader : ∃ s : State (Fin 2), s.place 1 = .readSleeping 1 ∧
    held s.pipe.toBuffer = [] ∧ s.pipe.writeopen = true := by
  have hrun := Reach.foldlM_checked notCut_of_plain
    [.write 0 [7, 8], .run 0 false, .read 1 5, .run 1 false, .read 1 1, .run 1 false] made _ (reach_made NotCut) rfl
  exact ⟨_, rfl, (sleepers_wait hrun).2.1 1 1 rfl⟩

/-- **A write that is cut off strands a reader**: a process that has been killed fills the buffer and returns
without a wakeup, and a reader sleeps beside a full buffer. -/
theorem reader_stranded : ∃ s : State (Fin 2), Reach init step Held s ∧ s.place 1 = .readSleeping 1 ∧
    s.pipe.count UINT = PIPESIZE := by
  have hrun : ([.read 1 1, .run 1 false, .kill 0, .write 0 (List.replicate 513 0), .run 0 false].foldlM
      (fun s e => if usable s e then next s e else none) made).map (fun s => (s.place 1, s.pipe.count UINT)) =
      some (.readSleeping 1, PIPESIZE) := by decide +kernel
  obtain ⟨s, hs, heq⟩ := Option.map_eq_some_iff.mp hrun
  exact ⟨s, Reach.foldlM_checked held_of_usable _ made s (reach_made Held) hs, congrArg Prod.fst heq,
    congrArg Prod.snd heq⟩

end OperatingSystems.Files
