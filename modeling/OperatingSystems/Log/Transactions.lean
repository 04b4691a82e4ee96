import Mathlib

/-!
# The log of the file system

`log.c` of xv6.  The calls of the processes interleave, and so do the writes of a commit with a crash: each
write of a block is a step of its own, and reaches the disk in full or not at all.

A block is given by its words.  Of the buffer cache the model has the buffers that are pinned because they
are dirty; every other buffer has the contents of its block on the disk.

* **`State`** — the disk, the dirty buffers, `struct log`, and where each process stands.
* **`next`** — the steps: `begin_op`, the test and the rest of `log_write`, `end_op`, the writes of `commit`
  and of `recover_from_log`, and a crash.
* **`begin_op_ok`**, …, **`Commits`**, **`Redoes`** — what each step does, when it is taken.
-/

namespace OperatingSystems.Log

/-- The most blocks that a file system call is meant to write. -/
def MAXOPBLOCKS : ℕ := 10

/-- The length of the array in `struct logheader`. -/
def LOGSIZE : ℕ := MAXOPBLOCKS * 3

abbrev Block := ℕ → ℕ

/-! ### The header block -/

/-- `write_head`, in the buffer of the header block: the length, and then the block numbers. -/
def write_head (lh : List ℕ) (hb : Block) : Block
  | 0 => lh.length
  | i + 1 => lh[i]?.getD (hb (i + 1))

def read_head (hb : Block) : List ℕ :=
  (List.range (hb 0)).map fun i => hb (i + 1)

@[simp] theorem read_head_write_head (lh : List ℕ) (hb : Block) : read_head (write_head lh hb) = lh := by
  show (List.range lh.length).map (fun i => lh[i]?.getD (hb (i + 1))) = lh
  refine List.ext_getElem (by rw [List.length_map, List.length_range]) fun i hi hi' => ?_
  rw [List.getElem_map, List.getElem_range, List.getElem?_eq_getElem hi', Option.getD_some]

/-! ### The state -/

/-- `log.start` and `log.size`. -/
structure Config where
  start : ℕ
  size : ℕ

/-- The block does not belong to the log. -/
def Config.Home (cfg : Config) (b : ℕ) : Prop :=
  b < cfg.start ∨ cfg.start + cfg.size ≤ b

/-- What is under way: nothing, `commit` after the last `end_op`, or `recover_from_log` after a start. -/
inductive Phase
  | running
  | write_log (tail : ℕ)
  | write_head
  | install_trans (tail : ℕ)
  | erase
  | committed
  | read_head
  | recover (tail : ℕ)
  | clear
deriving DecidableEq

/-- A process: outside of the file system, in a call, or in `log_write` behind the tests.  With the blocks
that the call has logged. -/
inductive Call
  | outside
  | inside (logged : Finset ℕ)
  | tested (logged : Finset ℕ)
deriving DecidableEq

def Call.logged : Call → Finset ℕ
  | .outside => ∅
  | .inside logged => logged
  | .tested logged => logged

structure State (ι : Type) where
  disk : ℕ → Block
  /-- The buffers with `B_DIRTY`. -/
  buf : ℕ → Option Block
  /-- `log.lh`. -/
  lh : List ℕ
  outstanding : ℕ
  committing : Bool
  phase : Phase
  call : ι → Call
  /-- What the file system contained at the last commit: a record of the model, not of the code. -/
  durable : ℕ → Block

/-- What `bread` returns. -/
def State.bread {ι : Type} (s : State ι) (b : ℕ) : Block :=
  (s.buf b).getD (s.disk b)

/-! ### The steps -/

/-- Why a step is not taken. -/
inductive Stop
  | /-- `sleep(&log, &log.lock)` -/ sleeps
  | /-- the process or the log is at another place -/ elsewhere
  | /-- `panic("too big a transaction")` -/ too_big
  | /-- `panic("log_write outside of trans")` -/ outside_of_trans
  | /-- `panic("log.committing")` -/ committing
deriving DecidableEq

inductive Event (ι : Type)
  | begin_op (p : ι)
  | test (p : ι)
  | log_write (p : ι) (b : ℕ) (data : Block)
  | end_op (p : ι)
  | commit
  | recover
  | crash

variable {ι : Type} [DecidableEq ι]

def begin_op (p : ι) (s : State ι) : Except Stop (State ι) :=
  match s.call p, s.phase with
  | .outside, .read_head | .outside, .recover _ | .outside, .clear => .error .elsewhere
  | .outside, _ =>
    if s.committing then .error .sleeps
    else if s.lh.length + (s.outstanding + 1) * MAXOPBLOCKS > LOGSIZE then .error .sleeps
    else .ok { s with
      outstanding := s.outstanding + 1
      call := Function.update s.call p (.inside ∅) }
  | _, _ => .error .elsewhere

/-- The tests at the beginning of `log_write`, before it acquires the lock. -/
def test (cfg : Config) (p : ι) (s : State ι) : Except Stop (State ι) :=
  match s.call p with
  | .inside logged =>
    if LOGSIZE ≤ s.lh.length ∨ cfg.size - 1 ≤ s.lh.length then .error .too_big
    else if s.outstanding < 1 then .error .outside_of_trans
    else .ok { s with call := Function.update s.call p (.tested logged) }
  | _ => .error .elsewhere

/-- The rest of `log_write`, on a buffer that the call has given the contents `data`. -/
def log_write (p : ι) (b : ℕ) (data : Block) (s : State ι) : Except Stop (State ι) :=
  match s.call p with
  | .tested logged => .ok { s with
      lh := if b ∈ s.lh then s.lh else s.lh ++ [b]
      buf := Function.update s.buf b (some data)
      call := Function.update s.call p (.inside (insert b logged)) }
  | _ => .error .elsewhere

/-- `end_op`, up to the call of `commit`. -/
def end_op (p : ι) (s : State ι) : Except Stop (State ι) :=
  match s.call p with
  | .inside _ =>
    if s.committing then .error .committing
    else
      let s := { s with
        outstanding := s.outstanding - 1
        call := Function.update s.call p .outside }
      if s.outstanding = 0 then .ok { s with
        committing := true
        phase := if 0 < s.lh.length then .write_log 0 else .committed }
      else .ok s
  | _ => .error .elsewhere

/-- A step of `commit`, one block at a time, and the end of `end_op` after it. -/
def commit (cfg : Config) (s : State ι) : Except Stop (State ι) :=
  match s.phase with
  | .write_log tail =>
    match s.lh[tail]? with
    | some b => .ok { s with
        disk := Function.update s.disk (cfg.start + tail + 1) (s.bread b)
        phase := .write_log (tail + 1) }
    | none => .ok { s with phase := .write_head }
  | .write_head => .ok { s with
      disk := Function.update s.disk cfg.start (write_head s.lh (s.bread cfg.start))
      durable := s.bread
      phase := .install_trans 0 }
  | .install_trans tail =>
    match s.lh[tail]? with
    | some b => .ok { s with
        disk := Function.update s.disk b (s.bread (cfg.start + tail + 1))
        buf := Function.update s.buf b none
        phase := .install_trans (tail + 1) }
    | none => .ok { s with lh := [], phase := .erase }
  | .erase => .ok { s with
      disk := Function.update s.disk cfg.start (write_head s.lh (s.bread cfg.start))
      phase := .committed }
  | .committed => .ok { s with committing := false, phase := .running }
  | _ => .error .elsewhere

/-- A step of `recover_from_log`. -/
def recover (cfg : Config) (s : State ι) : Except Stop (State ι) :=
  match s.phase with
  | .read_head => .ok { s with lh := read_head (s.bread cfg.start), phase := .recover 0 }
  | .recover tail =>
    match s.lh[tail]? with
    | some b => .ok { s with
        disk := Function.update s.disk b (s.bread (cfg.start + tail + 1))
        phase := .recover (tail + 1) }
    | none => .ok { s with lh := [], phase := .clear }
  | .clear => .ok { s with
      disk := Function.update s.disk cfg.start (write_head s.lh (s.bread cfg.start))
      phase := .running }
  | _ => .error .elsewhere

/-- The memory is lost, and the machine starts again. -/
def crash (s : State ι) : State ι where
  disk := s.disk
  buf := fun _ => none
  lh := []
  outstanding := 0
  committing := false
  phase := .read_head
  call := fun _ => .outside
  durable := s.durable

def next (cfg : Config) (s : State ι) : Event ι → Except Stop (State ι)
  | .begin_op p => begin_op p s
  | .test p => test cfg p s
  | .log_write p b data => log_write p b data s
  | .end_op p => end_op p s
  | .commit => commit cfg s
  | .recover => recover cfg s
  | .crash => .ok (crash s)

def step (cfg : Config) (s : State ι) (e : Event ι) (s' : State ι) : Prop :=
  next cfg s e = .ok s'

/-- The first start: the log on the disk is empty. -/
def init (cfg : Config) (s : State ι) : Prop :=
  s = crash s ∧ read_head (s.disk cfg.start) = [] ∧ s.durable = s.disk

/-! ### What a step does -/

section Steps

variable {cfg : Config} {s s' : State ι} {p : ι} {b : ℕ} {data : Block}

theorem begin_op_ok (hstep : begin_op p s = .ok s') : s.call p = .outside ∧
    (s.phase ≠ .read_head ∧ (∀ tail, s.phase ≠ .recover tail) ∧ s.phase ≠ .clear) ∧ s.committing = false ∧
    s.lh.length + (s.outstanding + 1) * MAXOPBLOCKS ≤ LOGSIZE ∧
    s' = { s with outstanding := s.outstanding + 1, call := Function.update s.call p (.inside ∅) } := by
  unfold begin_op at hstep
  split at hstep
  · cases hstep
  · cases hstep
  · cases hstep
  · rename_i hcall hread hrecover hclear
    split at hstep
    · cases hstep
    · rename_i hnot
      split at hstep
      · cases hstep
      · rename_i hroom
        cases hstep
        exact ⟨hcall, ⟨hread, hrecover, hclear⟩, Bool.eq_false_iff.mpr hnot, not_lt.mp hroom, rfl⟩
  · cases hstep

theorem test_ok (hstep : test cfg p s = .ok s') : ∃ logged, s.call p = .inside logged ∧
    s' = { s with call := Function.update s.call p (.tested logged) } := by
  unfold test at hstep
  split at hstep
  · rename_i logged hcall
    split at hstep
    · cases hstep
    · split at hstep
      · cases hstep
      · cases hstep
        exact ⟨logged, hcall, rfl⟩
  · cases hstep

theorem log_write_ok (hstep : log_write p b data s = .ok s') : ∃ logged, s.call p = .tested logged ∧
    s' = { s with
      lh := if b ∈ s.lh then s.lh else s.lh ++ [b]
      buf := Function.update s.buf b (some data)
      call := Function.update s.call p (.inside (insert b logged)) } := by
  unfold log_write at hstep
  split at hstep
  · rename_i logged hcall
    cases hstep
    exact ⟨logged, hcall, rfl⟩
  · cases hstep

/-- The last call starts the commit. -/
theorem end_op_ok (hstep : end_op p s = .ok s') : (∃ logged, s.call p = .inside logged) ∧ s.committing = false ∧
    (s.outstanding - 1 = 0 ∧ s' = { s with
      outstanding := s.outstanding - 1
      committing := true
      phase := if 0 < s.lh.length then .write_log 0 else .committed
      call := Function.update s.call p .outside } ∨
    s.outstanding - 1 ≠ 0 ∧ s' = { s with
      outstanding := s.outstanding - 1
      call := Function.update s.call p .outside }) := by
  unfold end_op at hstep
  split at hstep
  · rename_i logged hcall
    split at hstep
    · cases hstep
    · rename_i hnot
      have hfree := Bool.eq_false_iff.mpr hnot
      dsimp only at hstep
      split at hstep
      · rename_i hzero
        cases hstep
        exact ⟨⟨logged, hcall⟩, hfree, .inl ⟨hzero, rfl⟩⟩
      · rename_i hpos
        cases hstep
        exact ⟨⟨logged, hcall⟩, hfree, .inr ⟨hpos, rfl⟩⟩
  · cases hstep

/-- The steps of `commit`. -/
inductive Commits (cfg : Config) (s : State ι) : State ι → Prop
  | copy {tail b : ℕ} (hphase : s.phase = .write_log tail) (hb : s.lh[tail]? = some b) : Commits cfg s { s with
      disk := Function.update s.disk (cfg.start + tail + 1) (s.bread b)
      phase := .write_log (tail + 1) }
  | copied {tail : ℕ} (hphase : s.phase = .write_log tail) (hnone : s.lh[tail]? = none) :
      Commits cfg s { s with phase := .write_head }
  | header (hphase : s.phase = .write_head) : Commits cfg s { s with
      disk := Function.update s.disk cfg.start (write_head s.lh (s.bread cfg.start))
      durable := s.bread
      phase := .install_trans 0 }
  | install {tail b : ℕ} (hphase : s.phase = .install_trans tail) (hb : s.lh[tail]? = some b) : Commits cfg s { s with
      disk := Function.update s.disk b (s.bread (cfg.start + tail + 1))
      buf := Function.update s.buf b none
      phase := .install_trans (tail + 1) }
  | installed {tail : ℕ} (hphase : s.phase = .install_trans tail) (hnone : s.lh[tail]? = none) :
      Commits cfg s { s with lh := [], phase := .erase }
  | erase (hphase : s.phase = .erase) : Commits cfg s { s with
      disk := Function.update s.disk cfg.start (write_head s.lh (s.bread cfg.start))
      phase := .committed }
  | done (hphase : s.phase = .committed) : Commits cfg s { s with committing := false, phase := .running }

omit [DecidableEq ι] in
theorem commit_cases (hstep : commit cfg s = .ok s') : Commits cfg s s' := by
  unfold commit at hstep
  split at hstep
  · rename_i tail hphase
    split at hstep
    · rename_i hb
      cases hstep
      exact .copy hphase hb
    · rename_i hnone
      cases hstep
      exact .copied hphase hnone
  · rename_i hphase
    cases hstep
    exact .header hphase
  · rename_i tail hphase
    split at hstep
    · rename_i hb
      cases hstep
      exact .install hphase hb
    · rename_i hnone
      cases hstep
      exact .installed hphase hnone
  · rename_i hphase
    cases hstep
    exact .erase hphase
  · rename_i hphase
    cases hstep
    exact .done hphase
  · cases hstep

/-- The steps of `recover_from_log`. -/
inductive Redoes (cfg : Config) (s : State ι) : State ι → Prop
  | read (hphase : s.phase = .read_head) :
      Redoes cfg s { s with lh := read_head (s.bread cfg.start), phase := .recover 0 }
  | install {tail b : ℕ} (hphase : s.phase = .recover tail) (hb : s.lh[tail]? = some b) : Redoes cfg s { s with
      disk := Function.update s.disk b (s.bread (cfg.start + tail + 1))
      phase := .recover (tail + 1) }
  | installed {tail : ℕ} (hphase : s.phase = .recover tail) (hnone : s.lh[tail]? = none) :
      Redoes cfg s { s with lh := [], phase := .clear }
  | clear (hphase : s.phase = .clear) : Redoes cfg s { s with
      disk := Function.update s.disk cfg.start (write_head s.lh (s.bread cfg.start))
      phase := .running }

omit [DecidableEq ι] in
theorem recover_cases (hstep : recover cfg s = .ok s') : Redoes cfg s s' := by
  unfold recover at hstep
  split at hstep
  · rename_i hphase
    cases hstep
    exact .read hphase
  · rename_i tail hphase
    split at hstep
    · rename_i hb
      cases hstep
      exact .install hphase hb
    · rename_i hnone
      cases hstep
      exact .installed hphase hnone
  · rename_i hphase
    cases hstep
    exact .clear hphase
  · cases hstep

end Steps

end OperatingSystems.Log
