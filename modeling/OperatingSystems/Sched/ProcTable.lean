import Mathlib

/-!
# The process table and the calls that change it

`proc.c`, with the parts of `trap.c`, `sysproc.c` and `sysfile.c` that change what the scheduler looks
at.  Memory, files and the trap frame are left out.  Each operation is what the kernel does while it
holds `ptable.lock`, so on one CPU it is one change of the table.

* **`Op`**, **`Op.apply`** — the operations a running process can cause and go on.
* **`Runs`** — a process runs from the moment it is switched to until it calls `sched`: it causes any
  operations, takes timer interrupts, and at last is preempted, sleeps or exits.
* **`Interrupts`** — what may happen while no process runs.
-/

namespace OperatingSystems.Sched

def NPROC : ℕ := 64

instance : NeZero NPROC := ⟨by decide⟩

/-- `enum procstate`. -/
inductive ProcState
  | UNUSED | EMBRYO | SLEEPING | RUNNABLE | RUNNING | ZOMBIE
deriving DecidableEq, Repr

abbrev Slot := Fin NPROC

/-- The address a process sleeps on. -/
inductive Chan
  /-- `&ticks` -/
  | ticks
  /-- a slot of the table, for `wait` -/
  | proc (p : Slot)
  /-- a pipe, a buffer, the log, the console -/
  | other (addr : ℕ)
deriving DecidableEq, Repr

/-- `struct proc`; a null pointer is `none`. -/
structure Proc where
  state : ProcState
  pid : ℤ
  parent : Option Slot
  chan : Option Chan
  killed : ℤ
  nice : ℤ
  priority : ℤ
  ticks : ℤ
  cpu : ℤ
  sleepTicks : ℤ
deriving DecidableEq, Repr

abbrev Table := Slot → Proc

/-- `ptable.proc` with the globals beside it. -/
structure Kernel where
  table : Table
  nextpid : ℤ
  ticks : ℕ
  initproc : Slot

/-- One process changes. -/
def Kernel.modify (k : Kernel) (p : Slot) (f : Proc → Proc) : Kernel :=
  { k with table := Function.update k.table p (f (k.table p)) }

@[simp] theorem Kernel.modify_self (k : Kernel) (p : Slot) (f : Proc → Proc) :
    (k.modify p f).table p = f (k.table p) :=
  Function.update_self ..

@[simp] theorem Kernel.modify_of_ne (k : Kernel) {p q : Slot} (h : q ≠ p) (f : Proc → Proc) :
    (k.modify p f).table q = k.table q :=
  Function.update_of_ne h ..

/-- The first slot that meets the condition, in the order of the table. -/
def firstSlot (cond : Slot → Bool) : Option Slot :=
  (List.finRange NPROC).find? cond

/-! ### Wakeups and priorities -/

/-- `wakeup1`: the loop body, which touches its own slot only. -/
def wakeupProc (chan : Option Chan) (p : Proc) : Proc :=
  if p.state = .SLEEPING ∧ p.chan = chan then
    let sleepTicks := if p.sleepTicks > 0 then p.sleepTicks - 1 else p.sleepTicks
    { p with sleepTicks, state := if sleepTicks ≤ 0 then .RUNNABLE else p.state }
  else p

def wakeup1 (chan : Option Chan) (k : Kernel) : Kernel :=
  { k with table := fun i => wakeupProc chan (k.table i) }

/-- `calculatepriority`: halves the CPU usage and returns the priority. -/
def calculatepriority (p : Proc) : Proc × ℤ :=
  let cpu := Int.tdiv p.cpu 2
  ({ p with cpu }, Int.tdiv cpu 2 + p.nice)

def updatepriorities (k : Kernel) : Kernel :=
  { k with table := fun i =>
      if (k.table i).state = .UNUSED then k.table i
      else
        let (p, priority) := calculatepriority (k.table i)
        { p with priority } }

/-- The timer interrupt of `trap`, up to the test for `yield`. -/
def tick (k : Kernel) : Kernel :=
  let k := { k with ticks := (k.ticks + 1) % 2 ^ 32 }
  wakeup1 (some .ticks) (if k.ticks % 100 = 0 then updatepriorities k else k)

/-! ### The calls of the current process -/

/-- `allocproc`, for a kernel stack that is there. -/
def allocproc (k : Kernel) : Option (Slot × Kernel) :=
  (firstSlot fun i => (k.table i).state = .UNUSED).map fun p =>
    (p, { k.modify p (fun q => { q with state := .EMBRYO, pid := k.nextpid }) with
      nextpid := k.nextpid + 1 })

/-- The end of `fork`: the child starts with fresh scheduling fields.  Its parent is stored some statements
earlier, while it is `EMBRYO`; until it is `RUNNABLE` only the parent itself would look at that, in `wait` and
`exit`, and it is still in `fork`. -/
def startChild (cur np : Slot) (k : Kernel) : Kernel :=
  k.modify np fun q => { q with
    parent := some cur, state := .RUNNABLE, nice := 0, priority := 0, ticks := 0, sleepTicks := 0,
    cpu := 0 }

/-- The failing ends of `allocproc` and `fork`. -/
def dropChild (np : Slot) (k : Kernel) : Kernel :=
  k.modify np fun q => { q with state := .UNUSED }

/-- `wait`, when it finds an exited child. -/
def reap (cur : Slot) (k : Kernel) : Option Kernel :=
  (firstSlot fun i => (k.table i).parent = some cur ∧ (k.table i).state = .ZOMBIE).map fun p =>
    k.modify p fun q => { q with pid := 0, parent := none, killed := 0, state := .UNUSED }

def kill (pid : ℤ) (k : Kernel) : Kernel :=
  match firstSlot fun i => (k.table i).pid = pid with
  | some p => k.modify p fun q => { q with
      killed := 1, state := if q.state = .SLEEPING then .RUNNABLE else q.state }
  | none => k

def sys_nice (cur : Slot) (niceValue : ℤ) (k : Kernel) : Kernel :=
  if niceValue < 0 ∨ niceValue > 20 then k
  else k.modify cur fun q => { q with nice := niceValue }

/-- The beginning of `sys_sleep`, before it takes `tickslock`. -/
def sys_sleep_start (cur : Slot) (n : ℤ) (k : Kernel) : Kernel :=
  k.modify cur fun q => { q with sleepTicks := n, state := .SLEEPING }

/-- The end of `sleep`, after the process is switched to again. -/
def tidyUp (cur : Slot) (k : Kernel) : Kernel :=
  k.modify cur fun q => { q with chan := none }

/-- What the current process can cause and go on.  `sleepStart` and `tidyUp` are for runs as `Runs` has them, in
which a process may sleep at any time; where the place of a process in the code counts, they are statements of
`sys_sleep` and `sleep` and no operations. -/
inductive Op
  | allocproc
  | startChild (np : Slot)
  | dropChild (np : Slot)
  | reap
  | wakeup (chan : Chan)
  | kill (pid : ℤ)
  | nice (niceValue : ℤ)
  | sleepStart (n : ℤ)
  | tidyUp

/-- The operation `op` of the process in slot `cur`.  Only its own embryos become children. -/
def Op.apply (cur : Slot) (k : Kernel) : Op → Kernel
  | .allocproc => ((Sched.allocproc k).map Prod.snd).getD k
  | .startChild np => if (k.table np).state = .EMBRYO then Sched.startChild cur np k else k
  | .dropChild np => if (k.table np).state = .EMBRYO then Sched.dropChild np k else k
  | .reap => (Sched.reap cur k).getD k
  | .wakeup chan => wakeup1 (some chan) k
  | .kill pid => Sched.kill pid k
  | .nice niceValue => sys_nice cur niceValue k
  | .sleepStart n => sys_sleep_start cur n k
  | .tidyUp => Sched.tidyUp cur k

/-! ### Giving up the CPU -/

def yield (cur : Slot) (k : Kernel) : Kernel :=
  k.modify cur fun q => { q with state := .RUNNABLE }

def sleep (cur : Slot) (chan : Chan) (k : Kernel) : Kernel :=
  k.modify cur fun q => { q with chan := some chan, state := .SLEEPING }

/-- One round of the loop of `exit` that passes the children to `init`. -/
def abandonChild (cur : Slot) (k : Kernel) (i : Slot) : Kernel :=
  if (k.table i).parent = some cur then
    let k := k.modify i fun q => { q with parent := some k.initproc }
    if (k.table i).state = .ZOMBIE then wakeup1 (some (.proc k.initproc)) k else k
  else k

def abandonChildren (cur : Slot) (k : Kernel) : Kernel :=
  (List.finRange NPROC).foldl (abandonChild cur) k

def exit (cur : Slot) (k : Kernel) : Kernel :=
  let k := wakeup1 ((k.table cur).parent.map .proc) k
  (abandonChildren cur k).modify cur fun q => { q with state := .ZOMBIE }

/-- **The process in slot `cur` runs**, from the switch to it to its call of `sched`. -/
inductive Runs (cur : Slot) : Kernel → Kernel → Prop
  | op {k k' : Kernel} (op : Op) : Runs cur (op.apply cur k) k' → Runs cur k k'
  | tick {k k' : Kernel} : ((tick k).table cur).state ≠ .RUNNING → Runs cur (tick k) k' →
      Runs cur k k'
  | preempted {k : Kernel} : ((tick k).table cur).state = .RUNNING → Runs cur k (yield cur (tick k))
  | sleeps {k : Kernel} (chan : Chan) : Runs cur k (sleep cur chan k)
  | exits {k : Kernel} : cur ≠ k.initproc → Runs cur k (exit cur k)

/-- Interrupts while no process runs: the timer, and devices that wake up processes. -/
inductive Interrupts : Kernel → Kernel → Prop
  | none (k : Kernel) : Interrupts k k
  | tick {k k' : Kernel} : Interrupts (tick k) k' → Interrupts k k'
  | device {k k' : Kernel} (addr : ℕ) :
      Interrupts (wakeup1 (some (.other addr)) k) k' → Interrupts k k'

end OperatingSystems.Sched
