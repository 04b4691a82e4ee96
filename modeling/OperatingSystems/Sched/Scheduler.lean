import Mathlib
import OperatingSystems.Lib.GuardedRuns
import OperatingSystems.Sched.ProcTable

/-!
# The scheduler

`scheduler` on one CPU, slot by slot.  A pass takes `ptable.lock`, scans the table for the smallest
priority value among the runnable processes, and then goes through the table once more and switches
to every runnable process of that priority in turn.  While a process runs, and between two passes,
the table may change; during the two loops themselves it does not.

* **`step`** — one round of one of the two loops, a switch, or a change of the table from outside.
* **`KernelAllowed`** — the changes that the kernel allows: without it a change is arbitrary.
* **`Dispatches`** — the scheduler is about to switch to the process of a slot.
-/

namespace OperatingSystems.Sched

open GuardedRuns

/-- `__INT_MAX__`. -/
def INT_MAX : ℤ := 2 ^ 31 - 1

/-- Where the scheduler stands. -/
inductive Pc
  /-- between two passes, interrupts enabled and the lock free -/
  | idle
  /-- before slot `i` of the first loop -/
  | scan (i : ℕ) (highestPriority : ℤ)
  /-- before slot `i` of the second loop -/
  | run (i : ℕ) (highestPriority : ℤ)
  /-- inside `swtch`: the process of slot `i` runs -/
  | switched (i : Slot) (highestPriority : ℤ)
deriving DecidableEq

/-- The kernel and its scheduler; `atScan` is the table when the pass took the lock. -/
structure State where
  kernel : Kernel
  pc : Pc
  atScan : Table

/-- What can happen next. -/
inductive Label
  /-- the scheduler goes on -/
  | go
  /-- interrupts between two passes leave this kernel -/
  | interrupts (k : Kernel)
  /-- the running process has called `sched` and leaves this kernel -/
  | back (k : Kernel)

/-- One round of the first loop. -/
def scanSlot (p : Proc) (highestPriority : ℤ) : ℤ :=
  if p.state = .RUNNABLE ∧ highestPriority > p.priority then p.priority else highestPriority

/-- After `swtch` returns: one more tick of the process that just ran. -/
def account (i : Slot) (k : Kernel) : Kernel :=
  k.modify i fun q => { q with ticks := q.ticks + 1, cpu := q.cpu + 1 }

/-- The test of the second loop. -/
def Picks (t : Table) (i : Slot) (highestPriority : ℤ) : Prop :=
  (t i).state = .RUNNABLE ∧ highestPriority = (t i).priority

instance (t : Table) (i : Slot) (h : ℤ) : Decidable (Picks t i h) := by
  unfold Picks
  infer_instance

/-- The scheduler goes on from where it stands; while a process runs it does not. -/
def go (s : State) : Option State :=
  match s.pc with
  | .idle => some ⟨s.kernel, .scan 0 INT_MAX, s.kernel.table⟩
  | .scan i h =>
    if hi : i < NPROC then
      some { s with pc := .scan (i + 1) (scanSlot (s.kernel.table ⟨i, hi⟩) h) }
    else some { s with pc := .run 0 h }
  | .run i h =>
    if hi : i < NPROC then
      if Picks s.kernel.table ⟨i, hi⟩ h then
        some { s with
          kernel := s.kernel.modify ⟨i, hi⟩ fun q => { q with state := .RUNNING }
          pc := .switched ⟨i, hi⟩ h }
      else some { s with pc := .run (i + 1) h }
    else some { s with pc := .idle }
  | .switched _ _ => none

def step (s : State) : Label → State → Prop
  | .go, s' => go s = some s'
  | .interrupts k, s' => s.pc = .idle ∧ s' = { s with kernel := k }
  | .back k, s' => ∃ i h, s.pc = .switched i h ∧
      s' = { s with kernel := account i k, pc := .run (i + 1) h }

/-- The changes of the table that the kernel allows. -/
def KernelAllowed (s : State) : Label → Prop
  | .go => True
  | .interrupts k => Interrupts s.kernel k
  | .back k => ∀ i h, s.pc = .switched i h → Runs i s.kernel k

/-- The scheduler is about to switch to the process of slot `i`. -/
def Dispatches (s : State) (i : Slot) : Prop :=
  ∃ h, s.pc = .run i h ∧ Picks s.kernel.table i h

end OperatingSystems.Sched
