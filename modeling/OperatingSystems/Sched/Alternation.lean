import Mathlib
import OperatingSystems.Sched.Scheduler

/-!
# Processes of equal priority alternate

Let `p` be switched to twice, and let `q` be runnable with the same priority in between.  If the slot of
`q` comes after that of `p`, the rest of the first pass reaches `q`.  If it comes before, the pass of
the second switch does, because that pass is for the priority of `p`, which is the one of `q`.

* **`step_within`** — the first case: until `q` is switched to the pass stays between the two slots.
* **`step_beyond`** — the second case: a pass for the priority of `q` does not get past its slot.
* **`equal_priority_alternates`** — the result over arbitrary runs.
-/

namespace OperatingSystems.Sched.Alternation

/-- The process of slot `i` has been switched to and has not called `sched` yet. -/
def BeingRun (s : State) (i : Slot) : Prop :=
  ∃ h, s.pc = .switched i h

/-- What `q` is between the two switches: being run or runnable, of priority `L`. -/
structure Waits (s : State) (q : Slot) (L : ℤ) : Prop where
  runnable : ¬BeingRun s q → (s.kernel.table q).state = .RUNNABLE
  priority : (s.kernel.table q).priority = L

section Steps

variable {s s' : State} {a : Label} {p q : Slot} {L : ℤ} {i : ℕ} {h : ℤ}

/-- Every step from the second loop: it switches to the process of the slot, or goes on, or the pass
is over. -/
theorem step_run (hpc : s.pc = .run i h) (hstep : step s a s') :
    (∃ hi : i < NPROC, Picks s.kernel.table ⟨i, hi⟩ h ∧ s'.pc = .switched ⟨i, hi⟩ h) ∨
      (∃ hi : i < NPROC, ¬Picks s.kernel.table ⟨i, hi⟩ h ∧ s'.pc = .run (i + 1) h) ∨
      (NPROC ≤ i ∧ s'.pc = .idle) := by
  cases a with
  | go =>
    have hgo : go s = some s' := hstep
    simp only [go, hpc] at hgo
    by_cases hi : i < NPROC
    · rw [dif_pos hi] at hgo
      by_cases hpick : Picks s.kernel.table ⟨i, hi⟩ h
      · rw [if_pos hpick] at hgo
        rw [← Option.some.inj hgo]
        exact .inl ⟨hi, hpick, rfl⟩
      · rw [if_neg hpick] at hgo
        rw [← Option.some.inj hgo]
        exact .inr (.inl ⟨hi, hpick, rfl⟩)
    · rw [dif_neg hi] at hgo
      rw [← Option.some.inj hgo]
      exact .inr (.inr ⟨not_lt.mp hi, rfl⟩)
  | interrupts k =>
    obtain ⟨hidle, -⟩ := hstep
    rw [hpc] at hidle
    cases hidle
  | back k =>
    obtain ⟨j, h', hsw, -⟩ := hstep
    rw [hpc] at hsw
    cases hsw

/-- Every step from inside `swtch` goes on with the next slot. -/
theorem step_switched {j : Slot} (hpc : s.pc = .switched j h) (hstep : step s a s') :
    s'.pc = .run (j + 1) h := by
  cases a with
  | go =>
    have hgo : go s = some s' := hstep
    simp only [go, hpc] at hgo
    cases hgo
  | interrupts k =>
    obtain ⟨hidle, -⟩ := hstep
    rw [hpc] at hidle
    cases hidle
  | back k =>
    obtain ⟨j', h', hsw, rfl⟩ := hstep
    rw [hpc] at hsw
    cases hsw
    rfl

/-- Outside the second loop a step leads to the first loop, or to slot `0` of the second. -/
theorem step_outside (hout : s.pc = .idle ∨ ∃ i h, s.pc = .scan i h) (hstep : step s a s') :
    (s'.pc = .idle ∨ ∃ i h, s'.pc = .scan i h) ∨ ∃ h, s'.pc = .run 0 h := by
  cases a with
  | go =>
    have hgo : go s = some s' := hstep
    rcases hout with hpc | ⟨i, h, hpc⟩
    · simp only [go, hpc] at hgo
      rw [← Option.some.inj hgo]
      exact .inl (.inr ⟨0, INT_MAX, rfl⟩)
    · simp only [go, hpc] at hgo
      by_cases hi : i < NPROC
      · rw [dif_pos hi] at hgo
        rw [← Option.some.inj hgo]
        exact .inl (.inr ⟨i + 1, _, rfl⟩)
      · rw [dif_neg hi] at hgo
        rw [← Option.some.inj hgo]
        exact .inr ⟨h, rfl⟩
  | interrupts k =>
    obtain ⟨hidle, rfl⟩ := hstep
    exact .inl (.inl hidle)
  | back k =>
    obtain ⟨j, h', hsw, -⟩ := hstep
    rcases hout with hpc | ⟨i, h, hpc⟩
    · rw [hpc] at hsw
      cases hsw
    · rw [hpc] at hsw
      cases hsw

/-- A waiting process is switched to when the loop for its priority stands at its slot. -/
theorem Waits.dispatches (hw : Waits s q L) (hpc : s.pc = .run q L) : Dispatches s q := by
  refine ⟨L, hpc, hw.runnable ?_, hw.priority.symm⟩
  intro ⟨h, hsw⟩
  rw [hpc] at hsw
  cases hsw

/-! ### The slot of `q` comes after that of `p` -/

/-- The pass for priority `L` stands after slot `p` and not after slot `q`. -/
def Within (p q : Slot) (L : ℤ) (s : State) : Prop :=
  (∃ i : ℕ, s.pc = .run i L ∧ p.val < i ∧ i ≤ q.val) ∨
    ∃ i : Slot, s.pc = .switched i L ∧ p ≤ i ∧ i < q

/-- **Until `q` is switched to the pass stays between the slots.** -/
theorem step_within (hin : Within p q L s) (hw : Waits s q L) (hnot : ¬Dispatches s q)
    (hstep : step s a s') : Within p q L s' := by
  rcases hin with ⟨i, hpc, hpi, hiq⟩ | ⟨i, hpc, hpi, hiq⟩
  · have hne : i ≠ q.val := by
      intro heq
      subst heq
      exact hnot (hw.dispatches hpc)
    have hlt : i < q.val := lt_of_le_of_ne hiq hne
    rcases step_run hpc hstep with ⟨hi, -, hpc'⟩ | ⟨hi, -, hpc'⟩ | ⟨hi, -⟩
    · exact .inr ⟨⟨i, hi⟩, hpc', hpi.le, hlt⟩
    · exact .inl ⟨i + 1, hpc', by omega, hlt⟩
    · exact absurd (hlt.trans q.isLt) (not_lt.mpr hi)
  · exact .inl ⟨i + 1, step_switched hpc hstep, Nat.lt_succ_of_le hpi, hiq⟩

/-! ### The slot of `q` comes before that of `p` -/

/-- The pass in which `p` was switched to is beyond slot `p`, or no pass for priority `L` is beyond
slot `q`. -/
def Beyond (p q : Slot) (L : ℤ) (s : State) : Prop :=
  match s.pc with
  | .idle => True
  | .scan _ _ => True
  | .run i h => p.val < i ∨ i ≤ q.val ∨ h ≠ L
  | .switched i h => p ≤ i ∨ i < q ∨ h ≠ L

/-- **A pass for the priority of `q` does not get past its slot** without switching to it. -/
theorem step_beyond (hin : Beyond p q L s) (hw : Waits s q L) (hnot : ¬Dispatches s q)
    (hstep : step s a s') : Beyond p q L s' := by
  cases hpc : s.pc with
  | idle =>
    rcases step_outside (.inl hpc) hstep with (hpc' | ⟨i, h, hpc'⟩) | ⟨h, hpc'⟩
    · simp only [Beyond, hpc']
    · simp only [Beyond, hpc']
    · simp only [Beyond, hpc']
      exact .inr (.inl (Nat.zero_le _))
  | scan i h =>
    rcases step_outside (.inr ⟨i, h, hpc⟩) hstep with (hpc' | ⟨i, h, hpc'⟩) | ⟨h, hpc'⟩
    · simp only [Beyond, hpc']
    · simp only [Beyond, hpc']
    · simp only [Beyond, hpc']
      exact .inr (.inl (Nat.zero_le _))
  | run i h =>
    simp only [Beyond, hpc] at hin
    have hpassed : p.val < i ∨ i < q.val ∨ h ≠ L := by
      rcases hin with hp | hq | hne
      · exact .inl hp
      · rcases hq.lt_or_eq with hlt | heq
        · exact .inr (.inl hlt)
        · refine .inr (.inr ?_)
          intro hL
          rw [heq, hL] at hpc
          exact hnot (hw.dispatches hpc)
      · exact .inr (.inr hne)
    rcases step_run hpc hstep with ⟨hi, -, hpc'⟩ | ⟨hi, -, hpc'⟩ | ⟨-, hpc'⟩
    · simp only [Beyond, hpc']
      rcases hpassed with hp | hq | hne
      · exact .inl hp.le
      · exact .inr (.inl hq)
      · exact .inr (.inr hne)
    · simp only [Beyond, hpc']
      rcases hpassed with hp | hq | hne
      · exact .inl (by omega)
      · exact .inr (.inl hq)
      · exact .inr (.inr hne)
    · simp only [Beyond, hpc']
  | switched i h =>
    simp only [Beyond, hpc] at hin
    simp only [Beyond, step_switched hpc hstep]
    rcases hin with hp | hq | hne
    · exact .inl (Nat.lt_succ_of_le hp)
    · exact .inr (.inl hq)
    · exact .inr (.inr hne)

end Steps

/-! ### Runs -/

/-- The part of a run from one moment to another. -/
def Segment (run : ℕ → State) (m₁ m₂ : ℕ) : Prop :=
  ∀ n, m₁ ≤ n → n < m₂ → ∃ a, step (run n) a (run (n + 1))

/-- What every step of a segment keeps holds at its end. -/
theorem Segment.keeps {run : ℕ → State} {m₁ m₂ : ℕ} (hseg : Segment run m₁ m₂) {I : State → Prop}
    (hle : m₁ ≤ m₂) (hstart : I (run m₁))
    (hstep : ∀ n, m₁ ≤ n → n < m₂ → ∀ a, step (run n) a (run (n + 1)) → I (run n) →
      I (run (n + 1))) : I (run m₂) := by
  induction m₂, hle using Nat.le_induction with
  | base => exact hstart
  | succ n hn ih =>
    obtain ⟨a, ha⟩ := hseg n hn (Nat.lt_succ_self n)
    refine hstep n hn (Nat.lt_succ_self n) a ha (ih ?_ ?_)
    · exact fun k hk hlt => hseg k hk (hlt.trans (Nat.lt_succ_self n))
    · exact fun k hk hlt => hstep k hk (hlt.trans (Nat.lt_succ_self n))

/-- **Processes of equal priority alternate.**  If `p` is switched to at two moments of a run, and in
between `q` is runnable whenever it is not being run and both keep the priority `L`, then `q` is
switched to in between.  Every other change of the table is arbitrary. -/
theorem equal_priority_alternates (run : ℕ → State) {m₁ m₂ : ℕ} {p q : Slot} {L : ℤ}
    (hseg : Segment run m₁ m₂) (hlt : m₁ < m₂) (hpq : p ≠ q)
    (hp₁ : Dispatches (run m₁) p) (hp₂ : Dispatches (run m₂) p)
    (hprio : ∀ n, m₁ ≤ n → n ≤ m₂ → ((run n).kernel.table p).priority = L)
    (hwaits : ∀ n, m₁ ≤ n → n ≤ m₂ → Waits (run n) q L) :
    ∃ n, m₁ < n ∧ n < m₂ ∧ Dispatches (run n) q := by
  by_contra hnone
  push Not at hnone
  obtain ⟨h, hpc, hpick⟩ := hp₁
  have hL : h = L := hpick.2.trans (hprio m₁ le_rfl hlt.le)
  obtain ⟨h₂, hpc₂, hpick₂⟩ := hp₂
  have hL₂ : h₂ = L := hpick₂.2.trans (hprio m₂ hlt.le le_rfl)
  rw [hL] at hpc hpick
  rw [hL₂] at hpc₂
  -- the switch to `p` itself, the first step of the segment
  have hfirst : (run (m₁ + 1)).pc = .switched p L := by
    obtain ⟨a, ha⟩ := hseg m₁ le_rfl hlt
    rcases step_run hpc ha with ⟨_, _, hpc'⟩ | ⟨_, hn, _⟩ | ⟨hi, _⟩
    · exact hpc'
    · exact absurd hpick hn
    · exact absurd p.isLt (not_lt.mpr hi)
  have hrest : Segment run (m₁ + 1) m₂ := fun n hn => hseg n (by omega)
  rcases lt_or_gt_of_ne hpq with hbefore | hafter
  · have hin : Within p q L (run m₂) := by
      refine hrest.keeps (by omega) (.inr ⟨p, hfirst, le_rfl, hbefore⟩) ?_
      intro n hn hnm a ha hin
      exact step_within hin (hwaits n (by omega) hnm.le) (hnone n hn hnm) ha
    rcases hin with ⟨i, hpc', hpi, -⟩ | ⟨i, hpc', -⟩
    · rw [hpc₂] at hpc'
      cases hpc'
      exact lt_irrefl _ hpi
    · rw [hpc₂] at hpc'
      cases hpc'
  · have hin : Beyond p q L (run m₂) := by
      refine hrest.keeps (by omega) ?_ ?_
      · simp only [Beyond, hfirst]
        exact .inl le_rfl
      · intro n hn hnm a ha hin
        exact step_beyond hin (hwaits n (by omega) hnm.le) (hnone n hn hnm) ha
    simp only [Beyond, hpc₂] at hin
    rcases hin with hp | hq | hne
    · exact lt_irrefl _ hp
    · exact absurd hafter (not_lt.mpr hq)
    · exact hne rfl

/-! ### Two processes that are always preempted -/

/-- The scheduler goes on; the process that it switches to is preempted at once. -/
def drive (s : State) : State :=
  match s.pc with
  | .switched i h => { s with kernel := account i (yield i s.kernel), pc := .run (i + 1) h }
  | _ => (go s).getD s

theorem drive_step (s : State) : ∃ a, step s a (drive s) := by
  cases hpc : s.pc with
  | switched i h =>
    refine ⟨.back (yield i s.kernel), i, h, hpc, ?_⟩
    rw [drive, hpc]
  | idle => exact ⟨.go, by simp only [step, drive, go, hpc, Option.getD_some]⟩
  | scan i h =>
    refine ⟨.go, ?_⟩
    by_cases hi : i < NPROC
    · simp only [step, drive, go, hpc, dif_pos hi, Option.getD_some]
    · simp only [step, drive, go, hpc, dif_neg hi, Option.getD_some]
  | run i h =>
    refine ⟨.go, ?_⟩
    by_cases hi : i < NPROC
    · by_cases hpick : Picks s.kernel.table ⟨i, hi⟩ h
      · simp only [step, drive, go, hpc, dif_pos hi, if_pos hpick, Option.getD_some]
      · simp only [step, drive, go, hpc, dif_pos hi, if_neg hpick, Option.getD_some]
    · simp only [step, drive, go, hpc, dif_neg hi, Option.getD_some]

/-- A table that is unchanged keeps a process waiting that was not being run. -/
theorem Waits.of_table {s s' : State} {q : Slot} {L : ℤ} (hw : Waits s q L) (hnot : ¬BeingRun s q)
    (ht : s'.kernel.table q = s.kernel.table q) : Waits s' q L :=
  ⟨fun _ => ht ▸ hw.runnable hnot, ht ▸ hw.priority⟩

theorem drive_waits {s : State} {q : Slot} {L : ℤ} (hw : Waits s q L) : Waits (drive s) q L := by
  have hnot : (∀ i h, s.pc ≠ .switched i h) → ¬BeingRun s q := fun hne ⟨h, hsw⟩ => hne q h hsw
  cases hpc : s.pc with
  | idle =>
    refine hw.of_table (hnot (by simp [hpc])) ?_
    simp only [drive, go, hpc, Option.getD_some]
  | scan i h =>
    refine hw.of_table (hnot (by simp [hpc])) ?_
    by_cases hi : i < NPROC
    · simp only [drive, go, hpc, dif_pos hi, Option.getD_some]
    · simp only [drive, go, hpc, dif_neg hi, Option.getD_some]
  | run i h =>
    by_cases hi : i < NPROC
    · by_cases hpick : Picks s.kernel.table ⟨i, hi⟩ h
      · have hdrive : drive s = { s with
            kernel := s.kernel.modify ⟨i, hi⟩ fun q => { q with state := .RUNNING }
            pc := .switched ⟨i, hi⟩ h } := by
          simp only [drive, go, hpc, dif_pos hi, if_pos hpick, Option.getD_some]
        rw [hdrive]
        by_cases hq : q = ⟨i, hi⟩
        · subst hq
          refine ⟨fun hn => absurd ⟨h, rfl⟩ hn, ?_⟩
          rw [← hw.priority]
          simp
        · refine hw.of_table (hnot (by simp [hpc])) ?_
          show (s.kernel.modify ⟨i, hi⟩ fun q => { q with state := .RUNNING }).table q = _
          rw [Kernel.modify_of_ne _ hq]
      · refine hw.of_table (hnot (by simp [hpc])) ?_
        simp only [drive, go, hpc, dif_pos hi, if_neg hpick, Option.getD_some]
    · refine hw.of_table (hnot (by simp [hpc])) ?_
      simp only [drive, go, hpc, dif_neg hi, Option.getD_some]
  | switched i h =>
    have hdrive : drive s =
        { s with kernel := account i (yield i s.kernel), pc := .run (i + 1) h } := by
      rw [drive, hpc]
    rw [hdrive]
    by_cases hq : q = i
    · subst hq
      refine ⟨fun _ => by simp [account, yield], ?_⟩
      rw [← hw.priority]
      simp [account, yield]
    · refine hw.of_table ?_ ?_
      · intro ⟨h', hsw⟩
        rw [hpc] at hsw
        cases hsw
        exact hq rfl
      · show (account i (yield i s.kernel)).table q = _
        rw [account, yield, Kernel.modify_of_ne _ hq, Kernel.modify_of_ne _ hq]

theorem drive_waits_iterate {s : State} {q : Slot} {L : ℤ} (hw : Waits s q L) (n : ℕ) :
    Waits (drive^[n] s) q L := by
  induction n with
  | zero => exact hw
  | succ n ih =>
    rw [Function.iterate_succ_apply']
    exact drive_waits ih

def aProc (pid : ℤ) : Proc := ⟨.RUNNABLE, pid, none, none, 0, 0, 0, 0, 0, 0⟩

def noProc : Proc := ⟨.UNUSED, 0, none, none, 0, 0, 0, 0, 0, 0⟩

/-- A pass for priority `0` that stands before the first of two runnable processes. -/
def twoProcs : State :=
  let table : Table := fun i => if i.val < 2 then aProc (i.val + 1) else noProc
  ⟨⟨table, 3, 0, 0⟩, .run 0 0, table⟩

/-- The first of the two is switched to at once and again in the next pass; the second one in between. -/
theorem equal_priority_alternates_two :
    ∃ n, 0 < n ∧ n < 133 ∧ Dispatches (drive^[n] twoProcs) 1 := by
  have hwaits : ∀ q : Slot, q.val < 2 → Waits twoProcs q 0 := by
    intro q hq
    have htable : twoProcs.kernel.table q = aProc (q.val + 1) := if_pos hq
    exact ⟨fun _ => by rw [htable]; rfl, by rw [htable]; rfl⟩
  have hagain : (drive^[133] twoProcs).pc = .run 0 0 ∧
      Picks (drive^[133] twoProcs).kernel.table 0 0 := by decide +kernel
  refine equal_priority_alternates (fun n => drive^[n] twoProcs) (p := 0) (L := 0) ?_ (by decide)
    (by decide) ⟨0, rfl, by decide⟩ ⟨0, hagain⟩ ?_ ?_
  · intro n _ _
    simp only [Function.iterate_succ_apply']
    exact drive_step _
  · exact fun n _ _ => (drive_waits_iterate (hwaits 0 (by decide)) n).priority
  · exact fun n _ _ => drive_waits_iterate (hwaits 1 (by decide)) n

end OperatingSystems.Sched.Alternation
