import OperatingSystems.Sched.Scheduler

/-!
# Where each process is in the code

The scheduler of `Scheduler` together with the place of every process: in user mode, in a system call, in
`sys_sleep`, in `exit`, or inside `sched`.  A step is a round of the scheduler, an interrupt, or what the
running process does up to the next point where an interrupt is possible; on one CPU nothing else happens
while a spinlock is held.

* **`Ctl`** — the places.
* **`Machine.step`** — what can happen next: `trap`, `sys_sleep` statement by statement, `sleep`, `yield`,
  `exit` child by child.  System calls other than `sleep` may do any operations of `Op` in any order.
-/

namespace OperatingSystems.Sched

/-- Where a process is in the code, or goes on when it is switched to. -/
inductive Ctl
  /-- in user mode -/
  | user
  /-- a new process, which `forkret` takes to user mode -/
  | forkret
  /-- in the `yield` of `trap`, interrupted in user mode -/
  | preempted
  /-- in a system call -/
  | kernel
  /-- in `trap`, after the return of `syscall` -/
  | sysret
  /-- in `sys_sleep`, before `p->sleepTicks = n` -/
  | sleepArg (n : BitVec 32)
  /-- in `sys_sleep`, before `p->state = SLEEPING` -/
  | sleepStore (n : BitVec 32)
  /-- in `sys_sleep`, before `acquire(&tickslock)` -/
  | sleepLock (n : BitVec 32)
  /-- in `sys_sleep`, before `sleep` takes `tickslock` again -/
  | sleepTest (n : BitVec 32) (ticks0 : ℕ)
  /-- in `exit`, before it takes `ptable.lock` -/
  | exiting
  /-- in `exit`, before slot `j` of the loop over the children -/
  | dying (j : ℕ)
  /-- in the `sched` of `sleep` -/
  | asleep (next : Ctl)
deriving DecidableEq

/-- The kernel, its scheduler and the places of the processes. -/
structure Machine extends State where
  ctl : Slot → Ctl

/-- What can happen next. -/
inductive Act
  /-- the scheduler or the running process goes on -/
  | go
  | timer
  | device (addr : ℕ)
  /-- an exception in user mode -/
  | fault
  /-- a system call other than `sleep` -/
  | syscall
  | sleepCall (n : BitVec 32)
  /-- `sys_exit` calls `exit` -/
  | exitCall
  /-- an operation of a system call -/
  | op (op : Op)
  /-- a call of `sleep` -/
  | block (chan : Chan)

/-- Interrupts are enabled here. -/
def Ctl.interruptible : Ctl → Bool
  | .preempted | .dying _ | .asleep _ => false
  | _ => true

/-- The operations of system calls other than `sleep`; they wake up neither `&ticks` nor a parent. -/
def Op.inCall : Op → Bool
  | .sleepStart _ | .tidyUp => false
  | .wakeup (.other _) => true
  | .wakeup _ => false
  | _ => true

/-- `exit` and `forkret` use pipes, files and the disk. -/
def Op.inExit : Op → Bool
  | .wakeup (.other _) => true
  | _ => false

/-- The places from which `sleep` is called on another channel than `&ticks`: `wait` is a system call. -/
def Ctl.maySleep (i : Slot) : Ctl → Chan → Bool
  | .kernel, .other _ | .exiting, .other _ | .forkret, .other _ => true
  | .kernel, .proc p => p = i
  | _, _ => false

namespace Machine

variable (m : Machine) (i : Slot) (h : ℤ)

/-- The process in slot `i` goes on at `c`. -/
def goTo (k : Kernel) (c : Ctl) : Machine :=
  { m with kernel := k, ctl := Function.update m.ctl i c }

/-- `sched`: the scheduler goes on, and the process later at `c`. -/
def sched (k : Kernel) (c : Ctl) : Machine :=
  { m with kernel := account i k, pc := .run (i + 1) h, ctl := Function.update m.ctl i c }

/-- The process calls `exit`, which panics for `init`. -/
def callExit (k : Kernel) : Option Machine :=
  if i = k.initproc then none else some (m.goTo i k .exiting)

/-- `trap` with a timer interrupt. -/
def timer : Option Machine :=
  let k := tick m.kernel
  if m.ctl i = .user ∧ (k.table i).killed ≠ 0 then m.callExit i k
  else if (k.table i).state = .RUNNING then
    some (m.sched i h (yield i k) (if m.ctl i = .user then .preempted else m.ctl i))
  else some { m with kernel := k }

/-- `trap` with the interrupt of a device. -/
def device (addr : ℕ) : Option Machine :=
  let k := wakeup1 (some (.other addr)) m.kernel
  if m.ctl i = .user ∧ (k.table i).killed ≠ 0 then m.callExit i k else some { m with kernel := k }

/-- `trap` with a system call: it is at `c` then. -/
def enter (c : Ctl) : Option Machine :=
  if (m.kernel.table i).killed ≠ 0 then m.callExit i m.kernel else some (m.goTo i m.kernel c)

/-- The return to user mode after the test of `killed`. -/
def leave : Option Machine :=
  if (m.kernel.table i).killed ≠ 0 then m.callExit i m.kernel else some (m.goTo i m.kernel .user)

/-- The loop of `sys_sleep`, from the test on: the difference is a `uint`, and `n` is converted to one. -/
def sleepLoop (n : BitVec 32) (ticks0 : ℕ) : Machine :=
  if ((m.kernel.ticks : ℤ) - ticks0) % 2 ^ 32 < n.toNat then
    if (m.kernel.table i).killed ≠ 0 then m.goTo i m.kernel .sysret
    else m.sched i h (sleep i .ticks m.kernel) (.asleep (.sleepTest n ticks0))
  else m.goTo i m.kernel .sysret

/-- The operation `op`; a child starts in `forkret`. -/
def doOp (op : Op) : Machine :=
  { m with
    kernel := op.apply i m.kernel
    ctl := match op with
      | .startChild np =>
        if (m.kernel.table np).state = .EMBRYO then Function.update m.ctl np .forkret else m.ctl
      | _ => m.ctl }

/-- The running process goes on from where it is. -/
def goOn : Option Machine :=
  let k := m.kernel
  match m.ctl i with
  | .user => none
  | .forkret => some (m.goTo i k .user)
  | .preempted => m.leave i
  | .kernel => some (m.goTo i k .sysret)
  | .sysret => m.leave i
  | .sleepArg n => some (m.goTo i (k.modify i fun q => { q with sleepTicks := n.toInt }) (.sleepStore n))
  | .sleepStore n => some (m.goTo i (k.modify i fun q => { q with state := .SLEEPING }) (.sleepLock n))
  | .sleepLock n => some (m.sleepLoop i h n k.ticks)
  | .sleepTest n ticks0 => some (m.sleepLoop i h n ticks0)
  | .exiting => some (m.goTo i (wakeup1 ((k.table i).parent.map .proc) k) (.dying 0))
  | .dying j =>
    if hj : j < NPROC then some (m.goTo i (abandonChild i k ⟨j, hj⟩) (.dying (j + 1)))
    else some (m.sched i h (k.modify i fun q => { q with state := .ZOMBIE }) (.dying j))
  | .asleep next => some (m.goTo i (tidyUp i k) next)

/-- What the process in slot `i` and the interrupts do while it runs. -/
def run : Act → Option Machine
  | .go => m.goOn i h
  | .timer => if (m.ctl i).interruptible then m.timer i h else none
  | .device addr => if (m.ctl i).interruptible then m.device i addr else none
  | .fault =>
    if m.ctl i = .user then m.callExit i (m.kernel.modify i fun q => { q with killed := 1 }) else none
  | .syscall => if m.ctl i = .user then m.enter i .kernel else none
  | .sleepCall n => if m.ctl i = .user then m.enter i (.sleepArg n) else none
  | .exitCall => if m.ctl i = .kernel then m.callExit i m.kernel else none
  | .op op =>
    if (m.ctl i = .kernel ∧ op.inCall) ∨ ((m.ctl i = .exiting ∨ m.ctl i = .forkret) ∧ op.inExit) then
      some (m.doOp i op)
    else none
  | .block chan =>
    if (m.ctl i).maySleep i chan then some (m.sched i h (sleep i chan m.kernel) (.asleep (m.ctl i)))
    else none

/-- **One step**: of the process that is switched to, or of the scheduler.  Interrupts reach the scheduler
between two passes only. -/
def step (a : Act) : Option Machine :=
  match m.pc with
  | .switched i h => m.run i h a
  | pc =>
    match a with
    | .go => (Sched.go m.toState).map fun s => { m with toState := s }
    | .timer => if pc = .idle then some { m with kernel := tick m.kernel } else none
    | .device addr =>
      if pc = .idle then some { m with kernel := wakeup1 (some (.other addr)) m.kernel } else none
    | _ => none

end Machine

end OperatingSystems.Sched
