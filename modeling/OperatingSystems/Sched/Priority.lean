import Mathlib
import OperatingSystems.Sched.Scheduler

/-!
# Which processes the scheduler runs

A pass computes the smallest priority value among the runnable processes once, when it takes the
lock, and then switches to every process of that value.  A process that becomes runnable or gets a
smaller value while another process of the pass runs is looked at by the next pass.

* **`Inv`** — what the scheduler knows at each place of its two loops.
* **`dispatch_least_of_pass`** — the process switched to has the smallest value among those that were
  runnable when the pass began; only a process that changed since then can be ahead of it.
* **`smaller_value_waits`** — such a process exists in a run of the kernel.
-/

namespace OperatingSystems.Sched.Priority

open GuardedRuns

/-- The priority values of the runnable processes. -/
def values (t : Table) : Set ℤ :=
  {x | ∃ i, (t i).state = .RUNNABLE ∧ (t i).priority = x}

/-- After `n` rounds of the first loop: `h` is at most every value seen. -/
def Scanned (t : Table) (n : ℕ) (h : ℤ) : Prop :=
  ∀ i : Slot, i.val < n → (t i).state = .RUNNABLE → h ≤ (t i).priority

/-- The scheduler's knowledge in the state `s`. -/
def Inv (s : State) : Prop :=
  match s.pc with
  | .idle => True
  | .scan i h => s.atScan = s.kernel.table ∧ Scanned s.atScan i h
  | .run _ h => Scanned s.atScan NPROC h ∧ (s.atScan = s.kernel.table ∨ h ∈ values s.atScan)
  | .switched _ h => Scanned s.atScan NPROC h ∧ h ∈ values s.atScan

/-- Any process table, between two passes. -/
def init (s : State) : Prop :=
  s.pc = .idle

/-- One round of the first loop. -/
theorem Scanned.next {t : Table} {n : ℕ} {h : ℤ} (hscan : Scanned t n h) (hn : n < NPROC) :
    Scanned t (n + 1) (scanSlot (t ⟨n, hn⟩) h) := by
  have hle : scanSlot (t ⟨n, hn⟩) h ≤ h := by
    rw [scanSlot]
    split
    · omega
    · exact le_rfl
  intro i hi hrun
  rcases Nat.lt_succ_iff_lt_or_eq.mp hi with hlt | heq
  · exact hle.trans (hscan i hlt hrun)
  · have hslot : i = ⟨n, hn⟩ := Fin.ext heq
    subst hslot
    rw [scanSlot]
    split
    · exact le_rfl
    · rename_i hc
      rw [not_and] at hc
      exact not_lt.mp (hc hrun)

/-- **The step lemma.** -/
theorem step_inv {s s' : State} {a : Label} (hinv : Inv s) (hstep : step s a s') : Inv s' := by
  cases a with
  | go =>
    have hgo : go s = some s' := hstep
    cases hpc : s.pc with
    | idle =>
      simp only [go, hpc] at hgo
      rw [← Option.some.inj hgo]
      exact ⟨rfl, fun i hi => absurd hi (Nat.not_lt_zero _)⟩
    | scan i h =>
      simp only [Inv, hpc] at hinv
      simp only [go, hpc] at hgo
      by_cases hi : i < NPROC
      · rw [dif_pos hi] at hgo
        rw [← Option.some.inj hgo]
        refine ⟨hinv.1, ?_⟩
        rw [← hinv.1]
        exact hinv.2.next hi
      · rw [dif_neg hi] at hgo
        rw [← Option.some.inj hgo]
        exact ⟨fun j hj => hinv.2 j (hj.trans_le (not_lt.mp hi)), .inl hinv.1⟩
    | run i h =>
      simp only [Inv, hpc] at hinv
      simp only [go, hpc] at hgo
      by_cases hi : i < NPROC
      · rw [dif_pos hi] at hgo
        by_cases hpick : Picks s.kernel.table ⟨i, hi⟩ h
        · rw [if_pos hpick] at hgo
          rw [← Option.some.inj hgo]
          refine ⟨hinv.1, ?_⟩
          rcases hinv.2 with heq | hmem
          · rw [heq]
            exact ⟨⟨i, hi⟩, hpick.1, hpick.2.symm⟩
          · exact hmem
        · rw [if_neg hpick] at hgo
          rw [← Option.some.inj hgo]
          exact hinv
      · rw [dif_neg hi] at hgo
        rw [← Option.some.inj hgo]
        exact trivial
    | switched i h =>
      simp only [go, hpc] at hgo
      cases hgo
  | interrupts k =>
    obtain ⟨hpc, rfl⟩ := hstep
    simp only [Inv, hpc]
  | back k =>
    obtain ⟨i, h, hpc, rfl⟩ := hstep
    simp only [Inv, hpc] at hinv
    exact ⟨hinv.1, .inr hinv.2⟩

/-- The run lemma. -/
theorem reach_inv {guard : State → Label → Prop} {s : State} (h : Reach init step guard s) :
    Inv s := by
  apply h.invariant
  · intro s hs
    rw [init] at hs
    simp only [Inv, hs]
  · exact fun s a s' hinv _ hstep => step_inv hinv hstep

/-- **The process switched to is of the smallest value of its pass.**  Whatever changes between two
switches: its priority is the least among the processes that were runnable when the pass began, and
a process runnable now with a smaller value became runnable or got that value during the pass.  So
the first switch of a pass is to a process of the smallest value. -/
theorem dispatch_least_of_pass {s : State} {i : Slot}
    (h : Reach init step (fun _ _ => True) s) (hi : Dispatches s i) :
    IsLeast (values s.atScan) (s.kernel.table i).priority ∧
      (∀ j, (s.kernel.table j).state = .RUNNABLE →
        (s.kernel.table j).priority < (s.kernel.table i).priority →
        (s.atScan j).state ≠ .RUNNABLE ∨ (s.kernel.table j).priority < (s.atScan j).priority) ∧
      (s.atScan = s.kernel.table → ∀ j, (s.kernel.table j).state = .RUNNABLE →
        (s.kernel.table i).priority ≤ (s.kernel.table j).priority) := by
  have hinv := reach_inv h
  obtain ⟨p, hpc, hrun, hp⟩ := hi
  simp only [Inv, hpc] at hinv
  obtain ⟨hscan, hvalue⟩ := hinv
  have hle : ∀ j, (s.atScan j).state = .RUNNABLE → p ≤ (s.atScan j).priority :=
    fun j hj => hscan j j.isLt hj
  rw [← hp]
  refine ⟨⟨?_, ?_⟩, ?_, ?_⟩
  · rcases hvalue with heq | hmem
    · rw [heq]
      exact ⟨i, hrun, hp.symm⟩
    · exact hmem
  · intro x ⟨j, hj, hx⟩
    rw [← hx]
    exact hle j hj
  · intro j _ hlt
    by_cases hj : (s.atScan j).state = .RUNNABLE
    · exact .inr (hlt.trans_le (hle j hj))
    · exact .inl hj
  · intro heq j hj
    have := hle j
    rw [heq] at this
    exact this hj

/-! ### A run from the boot of the kernel -/

/-- The kernel after `userinit`: the first process is runnable, all other slots are free. -/
def bootKernel : Kernel where
  table i := if i = 0 then ⟨.RUNNABLE, 1, none, none, 0, 0, 0, 0, 0, 0⟩
    else ⟨.UNUSED, 0, none, none, 0, 0, 0, 0, 0, 0⟩
  nextpid := 2
  ticks := 0
  initproc := 0

def boot (s : State) : Prop :=
  s.kernel = bootKernel ∧ s.pc = .idle

/-- The scheduler goes on until it has switched to a process. -/
def advance (s : State) : State :=
  (go s).getD s

theorem Reach.advance {s : State} (h : Reach boot step KernelAllowed s) (n : ℕ) :
    Reach boot step KernelAllowed (advance^[n] s) := by
  induction n with
  | zero => exact h
  | succ n ih =>
    rw [Function.iterate_succ_apply', Priority.advance]
    cases hgo : go (Priority.advance^[n] s) with
    | none => exact ih
    | some s' => exact .next (a := .go) ih trivial hgo

/-- The process that was switched to comes back. -/
def comeBack (s : State) (i : Slot) (h : ℤ) (k : Kernel) : State :=
  { s with kernel := account i k, pc := .run (i + 1) h }

theorem Reach.comeBack {s : State} (hs : Reach boot step KernelAllowed s) {i : Slot} {h : ℤ}
    {k : Kernel} (hpc : s.pc = .switched i h) (hruns : Runs i s.kernel k) :
    Reach boot step KernelAllowed (comeBack s i h k) := by
  refine .next (a := .back k) hs ?_ ⟨i, h, hpc, rfl⟩
  intro i' h' hpc'
  rw [hpc] at hpc'
  cases hpc'
  exact hruns

theorem Interrupts.ticks {k k' : Kernel} (n : ℕ) (h : Interrupts (tick^[n] k) k') :
    Interrupts k k' := by
  induction n with
  | zero => exact h
  | succ n ih =>
    rw [Function.iterate_succ_apply'] at h
    exact ih (.tick h)

/-- The console, as an address to sleep on. -/
def console : Chan := .other 7

/-- The process forks a child into slot `np`, sets its nice value and waits for the console. -/
def forkAndWait (i np : Slot) (niceValue : ℤ) (k : Kernel) : Kernel :=
  sleep i console ((Op.nice niceValue).apply i
    ((Op.startChild np).apply i (Op.allocproc.apply i k)))

theorem runs_forkAndWait (i np : Slot) (niceValue : ℤ) (k : Kernel) :
    Runs i k (forkAndWait i np niceValue k) :=
  .op .allocproc (.op (.startChild np) (.op (.nice niceValue) (.sleeps console)))

/-- `init` runs for the first time. -/
def state₁ : State := advance^[67] ⟨bootKernel, .idle, bootKernel.table⟩

/-- Its child in slot `1` runs next. -/
def state₂ : State := advance (comeBack state₁ 0 0 (forkAndWait 0 1 1 state₁.kernel))

/-- Both wait for the console, and the pass ends. -/
def state₃ : State :=
  advance^[63] (comeBack state₂ 1 0 (sleep 1 console ((Op.nice 1).apply 1 state₂.kernel)))

/-- After 100 ticks the console wakes them up, both of priority `1`. -/
def state₄ : State :=
  { state₃ with kernel := wakeup1 (some console) (tick^[100] state₃.kernel) }

/-- `init` runs again. -/
def state₅ : State := advance^[67] state₄

/-- It has forked a second child, of priority `0`, and waits; the pass stands at slot `1`. -/
def state₆ : State :=
  comeBack state₅ 0 1 (forkAndWait 0 2 1 (Op.tidyUp.apply 0 state₅.kernel))

theorem reach_state₆ : Reach boot step KernelAllowed state₆ := by
  have h₁ : Reach boot step KernelAllowed state₁ := Reach.advance (.start ⟨rfl, rfl⟩) 67
  have h₂ : Reach boot step KernelAllowed state₂ :=
    Reach.advance (Reach.comeBack h₁ (by decide +kernel) (runs_forkAndWait 0 1 1 _)) 1
  have h₃ : Reach boot step KernelAllowed state₃ :=
    Reach.advance (Reach.comeBack h₂ (by decide +kernel) (.op (.nice 1) (.sleeps console))) 63
  have h₄ : Reach boot step KernelAllowed state₄ := by
    refine .next (a := .interrupts _) h₃ ?_ ⟨by decide +kernel, rfl⟩
    exact Interrupts.ticks 100 (.device 7 (.none _))
  have h₅ : Reach boot step KernelAllowed state₅ := Reach.advance h₄ 67
  exact Reach.comeBack h₅ (by decide +kernel) (.op .tidyUp (runs_forkAndWait 0 2 1 _))

theorem dispatches_state₆ : Dispatches state₆ 1 :=
  ⟨1, rfl, by decide +kernel⟩

theorem dispatch_least_of_pass_state₆ :
    IsLeast (values state₆.atScan) (state₆.kernel.table 1).priority ∧
      (∀ j, (state₆.kernel.table j).state = .RUNNABLE →
        (state₆.kernel.table j).priority < (state₆.kernel.table 1).priority →
        (state₆.atScan j).state ≠ .RUNNABLE ∨
          (state₆.kernel.table j).priority < (state₆.atScan j).priority) ∧
      (state₆.atScan = state₆.kernel.table → ∀ j, (state₆.kernel.table j).state = .RUNNABLE →
        (state₆.kernel.table 1).priority ≤ (state₆.kernel.table j).priority) :=
  dispatch_least_of_pass (reach_state₆.invariant (I := Reach init step fun _ _ => True)
    (fun _ hs => .start hs.2) fun _ _ _ hr _ hstep => .next hr trivial hstep) dispatches_state₆

/-- **A process of a smaller value waits**: the second process of a pass is switched to while the child
that the first one has forked is runnable with priority `0`. -/
theorem smaller_value_waits : ¬∀ s, Reach boot step KernelAllowed s → ∀ i, Dispatches s i →
    ∀ j, (s.kernel.table j).state = .RUNNABLE →
      (s.kernel.table i).priority ≤ (s.kernel.table j).priority := by
  intro hall
  have hchild : (state₆.kernel.table 2).state = .RUNNABLE ∧
      ¬(state₆.kernel.table 1).priority ≤ (state₆.kernel.table 2).priority := by decide +kernel
  exact hchild.2 (hall state₆ reach_state₆ 1 dispatches_state₆ 2 hchild.1)

end OperatingSystems.Sched.Priority
