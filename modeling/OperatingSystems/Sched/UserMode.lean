import OperatingSystems.Sched.Moves

/-!
# The state of a process in user mode

`trap` preempts a process only if its state is `RUNNING`, so every way back to user mode must restore it.  The
store of `SLEEPING` in `sys_sleep` comes before the code knows that it will sleep at all: an argument of `0` goes
back to user mode without sleeping.

* **`Disciplined.move`** — where a process runs in another state than `RUNNING`, without calls of `sleep(0)`.
* **`user_is_running`** — so a process in user mode is `RUNNING`, and a timer interrupt takes it to `yield`, or to
  `exit` if it has been killed; the latter only if it was killed before it was switched to for the first time.
* `sleep_zero_keeps_cpu` — after `sleep(0)` a process is `SLEEPING` in user mode.
-/

namespace OperatingSystems.Sched.UserMode

open GuardedRuns

/-- No process calls `sleep(0)`. -/
def noZeroSleep : Limits where
  kill _ := True
  call n := n ≠ 0
  store _ _ := True

/-- Moreover no free slot and no process that has not yet left `forkret` is killed. -/
def noEarlyKill : Limits where
  kill v := v.proc.state ≠ .UNUSED ∧ v.proc.state ≠ .EMBRYO ∧ v.ctl ≠ .forkret ∧ v.ctl ≠ .asleep .forkret
  call n := n ≠ 0
  store _ _ := True

/-- The argument of `sys_sleep` is not zero, and a running process is `RUNNING` but for the places that do not
lead back to user mode before it is again. -/
structure Disciplined (v : View) : Prop where
  placed : Placed v
  arg : ∀ n, v.ctl = .sleepArg n ∨ v.ctl = .sleepStore n ∨ v.ctl = .sleepLock n → n ≠ 0
  state : v.running = true → v.proc.state = .RUNNING ∨ (∃ n, v.ctl = .sleepLock n) ∨
    v.ctl = .sysret ∧ v.proc.killed ≠ 0 ∨ v.ctl = .exiting ∨ ∃ j, v.ctl = .dying j

variable {G : Limits} {c c' : Ctl} {p p' : Proc} {r : Bool} {v v' : View}

/-- Only the place and whether the process runs matter for the argument. -/
theorem Disciplined.of_state (h : Disciplined ⟨c, p, r⟩) (hp : Placed ⟨c, p', r⟩)
    (hkilled : p.killed ≠ 0 → p'.killed ≠ 0)
    (hstate : r = true → p.state = .RUNNING → p'.state = .RUNNING) : Disciplined ⟨c, p', r⟩ := by
  refine ⟨hp, h.arg, fun hr => ?_⟩
  rcases h.state hr with hs | hs | ⟨hc, hk⟩ | hs
  · exact .inl (hstate hr hs)
  · exact .inr (.inl hs)
  · exact .inr (.inr (.inl ⟨hc, hkilled hk⟩))
  · exact .inr (.inr (.inr hs))

/-- A process that does not run. -/
theorem Disciplined.of_resting (hp : Placed ⟨c, p, false⟩)
    (harg : ∀ n, c = .sleepArg n ∨ c = .sleepStore n ∨ c = .sleepLock n → n ≠ 0) :
    Disciplined ⟨c, p, false⟩ :=
  ⟨hp, harg, fun hr => (by cases hr)⟩

/-- A slot without a live process. -/
theorem Disciplined.of_notLive (h : Disciplined ⟨c, p, r⟩)
    (hstate : p.state = .UNUSED ∨ p.state = .EMBRYO ∨ p.state = .ZOMBIE) (hp : Placed ⟨c, p', r⟩) :
    Disciplined ⟨c, p', r⟩ := by
  obtain ⟨rfl, -, -⟩ := h.placed.notLive hstate
  exact .of_resting hp h.arg

/-- A running process elsewhere is `RUNNING`. -/
theorem Disciplined.isRunning (h : Disciplined ⟨c, p, true⟩) (hlock : ∀ n, c ≠ .sleepLock n)
    (hret : c = .sysret → p.killed = 0) (hexit : c ≠ .exiting) (hdying : ∀ j, c ≠ .dying j) :
    p.state = .RUNNING := by
  rcases h.state rfl with hs | ⟨n, hc⟩ | ⟨hc, hk⟩ | hc | ⟨j, hc⟩
  · exact hs
  · exact absurd hc (hlock n)
  · exact absurd (hret hc) hk
  · exact absurd hc hexit
  · exact absurd hc (hdying j)

theorem wakeup_killed (chan : Option Chan) (p : Proc) : (wakeupProc chan p).killed = p.killed := by
  rcases wakeupProc_cases chan p with ⟨-, heq⟩ | ⟨-, -, ⟨-, heq⟩ | ⟨t, -, heq⟩⟩ <;> rw [heq]

theorem wakeup_awake (chan : Option Chan) (p : Proc) (h : p.state ≠ .SLEEPING) : wakeupProc chan p = p := by
  rcases wakeupProc_cases chan p with ⟨-, heq⟩ | ⟨hs, -⟩
  · exact heq
  · exact absurd hs h

theorem Disciplined.wakeup (h : Disciplined ⟨c, p, r⟩) (chan : Option Chan) :
    Disciplined ⟨c, wakeupProc chan p, r⟩ := by
  refine h.of_state (h.placed.wakeup chan) (by rw [wakeup_killed]; exact id) fun _ hs => ?_
  rw [wakeup_awake _ _ (by rw [hs]; decide)]
  exact hs

/-- The running process goes elsewhere. -/
theorem Disciplined.goes (h : Disciplined ⟨c, p, true⟩) (hgo : Goes G p c c')
    (hG : ∀ n, G.call n → n ≠ 0) (hp : Placed ⟨c', p, true⟩) : Disciplined ⟨c', p, true⟩ := by
  cases hgo with
  | syscall hk => exact ⟨hp, by simp, fun _ => .inl (h.isRunning (by simp) (by simp) (by simp) (by simp))⟩
  | sleepCall n hk hcall =>
    refine ⟨hp, fun n' hn => ?_, fun _ => .inl (h.isRunning (by simp) (by simp) (by simp) (by simp))⟩
    obtain rfl : n = n' := by simpa using hn
    exact hG n hcall
  | forkret => exact ⟨hp, by simp, fun _ => .inl (h.isRunning (by simp) (by simp) (by simp) (by simp))⟩
  | kernel => exact ⟨hp, by simp, fun _ => .inl (h.isRunning (by simp) (by simp) (by simp) (by simp))⟩
  | leave hc hk =>
    refine ⟨hp, by simp, fun _ => .inl ?_⟩
    rcases hc with rfl | rfl
    · exact h.isRunning (by simp) (by simp) (by simp) (by simp)
    · exact h.isRunning (by simp) (fun _ => hk) (by simp) (by simp)
  | exit hc => exact ⟨hp, by simp, fun _ => .inr (.inr (.inr (.inl rfl)))⟩
  | @skip n hskip =>
    refine ⟨hp, by simp, fun _ => .inr (.inr (.inl ⟨rfl, hskip.resolve_left fun hzero => ?_⟩))⟩
    -- only `sleep(0)` does not sleep at all
    exact h.arg n (.inr (.inr rfl)) (BitVec.eq_of_toNat_eq hzero)
  | slept => exact ⟨hp, by simp, fun _ => .inl (h.isRunning (by simp) (by simp) (by simp) (by simp))⟩
  | wakeParent => exact ⟨hp, by simp, fun _ => .inr (.inr (.inr (.inr ⟨_, rfl⟩)))⟩
  | nextChild => exact ⟨hp, by simp, fun _ => .inr (.inr (.inr (.inr ⟨_, rfl⟩)))⟩

/-- **Every move keeps processes disciplined**, if `sleep(0)` is not called. -/
theorem Disciplined.move (hG : ∀ n, G.call n → n ≠ 0) (h : Disciplined v) (hm : Move G v v') :
    Disciplined v' := by
  have hp := h.placed.move hm
  cases hm with
  | numbers => exact h.of_state hp id fun _ => id
  | adopt => exact h.of_state hp id fun _ => id
  | wakeup chan => exact h.wakeup _
  | wakeNull => exact h.wakeup _
  | kill => exact h.of_state hp (fun _ => one_ne_zero) fun _ hs => (if_neg (by rw [hs]; decide)).trans hs
  | alloc pid hstate => exact h.of_notLive (.inl hstate) hp
  | start parent hstate =>
    obtain ⟨rfl, -, -⟩ := h.placed.notLive (.inr (.inl hstate))
    exact .of_resting hp (by simp)
  | drop hstate => exact h.of_notLive (.inr (.inl hstate)) hp
  | reap hstate => exact h.of_notLive (.inr (.inr hstate)) hp
  | dispatch => exact ⟨hp, h.arg, fun _ => .inl rfl⟩
  | @yield c p =>
    by_cases huser : c = .user
    · subst huser
      exact .of_resting hp (by simp)
    · rw [if_neg huser] at hp ⊢
      exact .of_resting hp h.arg
  | goes hgo => exact h.goes hgo hG hp
  | fault => exact ⟨hp, by simp, fun _ => .inr (.inr (.inr (.inl rfl)))⟩
  | sleepArg n =>
    refine ⟨hp, fun n' hn => ?_, fun _ => .inl (h.isRunning (by simp) (by simp) (by simp) (by simp))⟩
    obtain rfl : n = n' := by simpa using hn
    exact h.arg n (.inl rfl)
  | sleepStore n =>
    refine ⟨hp, fun n' hn => ?_, fun _ => .inr (.inl ⟨n, rfl⟩)⟩
    obtain rfl : n = n' := by simpa using hn
    exact h.arg n (.inr (.inl rfl))
  | sleepTicks => exact .of_resting hp (by simp)
  | block => exact .of_resting hp (by simp)
  | @tidyUp c p =>
    have hc := (h.placed.asleep c rfl).1
    refine ⟨hp, fun n hn => ?_, fun _ => .inl (h.isRunning (by simp) (by simp) (by simp) (by simp))⟩
    rcases hn with rfl | rfl | rfl <;> exact hc.elim
  | zombie => exact .of_resting hp (by simp)

/-! ### Killed processes in user mode -/

/-- Neither a process in user mode nor one that is not yet started nor a free slot has been killed. -/
structure Unkilled (v : View) : Prop where
  placed : Placed v
  user : v.ctl = .user → v.running = true ∧ v.proc.killed = 0
  fresh : v.ctl = .forkret ∨ v.ctl = .asleep .forkret → v.proc.killed = 0
  free : v.proc.state = .UNUSED ∨ v.proc.state = .EMBRYO → v.proc.killed = 0

/-- The slot changes, but neither `killed` nor whether it is free. -/
theorem Unkilled.of_slot (h : Unkilled ⟨c, p, r⟩) (hp : Placed ⟨c, p', r⟩) (hkilled : p'.killed = p.killed)
    (hfree : p'.state = .UNUSED ∨ p'.state = .EMBRYO → p.state = .UNUSED ∨ p.state = .EMBRYO) :
    Unkilled ⟨c, p', r⟩ :=
  ⟨hp, fun hc => ⟨(h.user hc).1, hkilled.trans (h.user hc).2⟩, fun hc => hkilled.trans (h.fresh hc),
    fun hs => hkilled.trans (h.free (hfree hs))⟩

/-- A live process elsewhere than in user mode or `forkret`. -/
theorem Unkilled.of_place (hp : Placed ⟨c, p, r⟩) (huser : c ≠ .user) (hfresh : c ≠ .forkret)
    (hasleep : c ≠ .asleep .forkret) (hfree : p.state = .UNUSED ∨ p.state = .EMBRYO → p.killed = 0) :
    Unkilled ⟨c, p, r⟩ :=
  ⟨hp, fun hc => absurd hc huser, fun hc => absurd hc (not_or.mpr ⟨hfresh, hasleep⟩), hfree⟩

theorem Unkilled.wakeup (h : Unkilled ⟨c, p, r⟩) (chan : Option Chan) :
    Unkilled ⟨c, wakeupProc chan p, r⟩ := by
  refine h.of_slot (h.placed.wakeup chan) (wakeup_killed chan p) fun hs => ?_
  rcases wakeupProc_cases chan p with ⟨-, heq⟩ | ⟨hsleep, -, ⟨-, heq⟩ | ⟨t, -, heq⟩⟩
  · rwa [heq] at hs
  · rwa [heq] at hs
  · rw [heq] at hs
    exact absurd hs (by simp)

/-- The running process goes elsewhere. -/
theorem Unkilled.goes (h : Unkilled ⟨c, p, true⟩) (hgo : Goes G p c c') (hp : Placed ⟨c', p, true⟩) :
    Unkilled ⟨c', p, true⟩ := by
  cases hgo with
  | forkret => exact ⟨hp, fun _ => ⟨rfl, h.fresh (.inl rfl)⟩, by simp, h.free⟩
  | leave hc hk => exact ⟨hp, fun _ => ⟨rfl, hk⟩, by simp, h.free⟩
  | _ => exact .of_place hp (by simp) (by simp) (by simp) h.free

theorem Unkilled.move (h : Unkilled v) (hm : Move noEarlyKill v v') : Unkilled v' := by
  have hp := h.placed.move hm
  cases hm with
  | numbers => exact h.of_slot hp rfl id
  | adopt => exact h.of_slot hp rfl id
  | wakeup chan => exact h.wakeup _
  | wakeNull => exact h.wakeup _
  | @kill c p r hself hkill =>
    obtain ⟨hunused, hembryo, hforkret, hasleep⟩ := hkill
    refine .of_place hp (fun hc => ?_) hforkret hasleep fun hs => ?_
    · -- a process does not kill while it is in user mode, and others do not run then
      cases (hself (h.user hc).1).symm.trans hc
    · by_cases hsleep : p.state = .SLEEPING
      · simp [hsleep] at hs
      · simp only [if_neg hsleep] at hs
        exact absurd hs (not_or.mpr ⟨hunused, hembryo⟩)
  | alloc pid hstate => exact h.of_slot hp rfl fun _ => .inl hstate
  | start parent hstate =>
    exact ⟨hp, by simp, fun _ => h.free (.inr hstate), by simp⟩
  | drop hstate => exact h.of_slot hp rfl fun _ => .inr hstate
  | reap => exact ⟨hp, fun hc => ⟨(h.user hc).1, rfl⟩, fun _ => rfl, fun _ => rfl⟩
  | dispatch => exact ⟨hp, fun hc => ⟨rfl, (h.user hc).2⟩, h.fresh, by simp⟩
  | @yield c p =>
    by_cases huser : c = .user
    · subst huser
      exact .of_place hp (by simp) (by simp) (by simp) (by simp)
    · rw [if_neg huser] at hp ⊢
      exact ⟨hp, fun hc => absurd hc huser, h.fresh, by simp⟩
  | goes hgo => exact h.goes hgo hp
  | @fault p =>
    refine .of_place hp (by simp) (by simp) (by simp) fun hs => ?_
    exact absurd (h.placed.notLive (hs.imp id .inl)).1 (by simp)
  | sleepArg => exact .of_place hp (by simp) (by simp) (by simp) h.free
  | sleepStore => exact .of_place hp (by simp) (by simp) (by simp) (by simp)
  | sleepTicks => exact .of_place hp (by simp) (by simp) (by simp) (by simp)
  | block chan hplace =>
    rcases hplace with rfl | rfl | rfl
    · exact .of_place hp (by simp) (by simp) (by simp) (by simp)
    · exact .of_place hp (by simp) (by simp) (by simp) (by simp)
    · exact ⟨hp, by simp, fun _ => h.fresh (.inl rfl), by simp⟩
  | @tidyUp c p =>
    have hc := (h.placed.asleep c rfl).1
    refine ⟨hp, fun huser => ?_, fun hfresh => ?_, h.free⟩
    · rw [show c = .user from huser] at hc
      exact hc.elim
    · rcases hfresh with rfl | rfl
      · exact h.fresh (.inr rfl)
      · exact hc.elim
  | zombie => exact .of_place hp (by simp) (by simp) (by simp) (by simp)

/-! ### Runs -/

/-- A process in user mode, which runs in slot `i`, is preempted by the next timer interrupt: it calls `yield`, or
`exit` if it has been killed. -/
structure InUserMode (m : Machine) (i : Slot) (h : ℤ) : Prop where
  state : (m.kernel.table i).state = .RUNNING
  yields : (m.kernel.table i).killed = 0 →
    m.step .timer = some (m.sched i h (yield i (tick m.kernel)) .preempted)
  exits : (m.kernel.table i).killed ≠ 0 → m.step .timer = m.callExit i (tick m.kernel)

/-- The priorities are recalculated for a running process, and nothing else changes. -/
theorem updatepriorities_running {k : Kernel} {i : Slot} (hs : (k.table i).state = .RUNNING) :
    ((updatepriorities k).table i).state = .RUNNING ∧
      ((updatepriorities k).table i).killed = (k.table i).killed := by
  simp [updatepriorities, hs, calculatepriority]

/-- A tick leaves a running process alone, but for its priority. -/
theorem tick_running {k : Kernel} {i : Slot} (hs : (k.table i).state = .RUNNING) :
    ((tick k).table i).state = .RUNNING ∧ ((tick k).table i).killed = (k.table i).killed := by
  have hwake : ∀ k' : Kernel, (k'.table i).state = .RUNNING →
      (wakeup1 (some .ticks) k').table i = k'.table i :=
    fun k' hk => wakeup_awake _ _ (by rw [hk]; decide)
  unfold tick
  simp only
  split
  · have hupdate := updatepriorities_running (k := { k with ticks := (k.ticks + 1) % 2 ^ 32 }) hs
    rw [hwake _ hupdate.1]
    exact hupdate
  · rw [hwake { k with ticks := (k.ticks + 1) % 2 ^ 32 } hs]
    exact ⟨hs, rfl⟩

theorem inUserMode {m : Machine} {i : Slot} {h : ℤ} (hrun : m.pc = .switched i h) (huser : m.ctl i = .user)
    (hs : (m.kernel.table i).state = .RUNNING) : InUserMode m i h := by
  obtain ⟨hstate, hkilled⟩ := tick_running hs
  have hstep : m.step .timer = m.timer i h := by
    simp only [Machine.step, hrun, Machine.run, huser, Ctl.interruptible, if_true]
  refine ⟨hs, fun hk => ?_, fun hk => ?_⟩
  · rw [hstep, Machine.timer, if_neg (by simp [hkilled, hk]), if_pos hstate, if_pos huser]
  · rw [hstep, Machine.timer, if_pos ⟨huser, by rw [hkilled]; exact hk⟩]

/-- **A process in user mode is `RUNNING`**, in every run without a call of `sleep(0)`, and the next timer
interrupt makes it yield or, if it has been killed, exit; it has not been killed unless a free slot or a process
that had not left `forkret` was. -/
theorem user_is_running {m : Machine} (hm : MachineReach noZeroSleep.allow m) {i : Slot} {h : ℤ}
    (hrun : m.pc = .switched i h) (huser : m.ctl i = .user) :
    InUserMode m i h ∧ (MachineReach noEarlyKill.allow m → (m.kernel.table i).killed = 0) := by
  have hboot : ∀ p, p = Priority.bootKernel.table 0 ∨ p = Priority.bootKernel.table 1 →
      Placed ⟨.forkret, p, false⟩ ∧ p.killed = 0 := by
    rintro p (rfl | rfl) <;> exact ⟨.idle (by simp) rfl (by decide), rfl⟩
  have hdisc : Disciplined (m.view i) :=
    hm.process (fun _ _ => id) (fun p hp => .of_resting (hboot p hp).1 (by simp))
      (fun v v' hv hmove => hv.move (fun _ => id) hmove) i
  rw [view_self hrun, huser] at hdisc
  refine ⟨inUserMode hrun huser (hdisc.isRunning (by simp) (by simp) (by simp) (by simp)), fun hm' => ?_⟩
  have hunkilled : Unkilled (m.view i) :=
    hm'.process (fun _ _ => id) (fun p hp => ⟨(hboot p hp).1, by simp, fun _ => (hboot p hp).2,
      fun _ => (hboot p hp).2⟩) (fun v v' hv hmove => hv.move hmove) i
  rw [view_self hrun, huser] at hunkilled
  exact (hunkilled.user rfl).2

/-! ### A call of `sleep(0)` -/

/-- From the boot, `init` reaches user mode. -/
def initStarts : List Act := List.replicate 68 .go

/-- In user mode `init` is `RUNNING` and has not been killed. -/
theorem user_is_running_init : ∃ m : Machine, m.pc = .switched 0 0 ∧ m.ctl 0 = .user ∧
    InUserMode m 0 0 ∧ (m.kernel.table 0).killed = 0 := by
  have hgo : ∀ G : Limits, (∀ v n, G.store v n) → ∀ (m : Machine) (a : Act), a matches .go → G.allow m a := by
    intro G hG m a ha
    cases a with
    | go => exact fun i _ n _ _ => hG (m.view i) n
    | _ => cases ha
  have hrun : (initStarts.foldlM (fun m a => if a matches .go then m.step a else none) bootMachine).any
      fun m : Machine => m.pc = .switched 0 0 ∧ m.ctl 0 = .user := by decide +kernel
  obtain ⟨m, hm, huser⟩ := (Option.any_eq_true _ _).mp hrun
  obtain ⟨hpc, hctl⟩ := of_decide_eq_true huser
  have hreach : ∀ G : Limits, (∀ v n, G.store v n) → MachineReach G.allow m := fun G hG =>
    Reach.foldlM_checked (hgo G hG) initStarts bootMachine m (.start ⟨⟨rfl, rfl⟩, rfl⟩) hm
  obtain ⟨hmode, hkilled⟩ :=
    user_is_running (hreach noZeroSleep fun _ _ => trivial) hpc hctl
  exact ⟨m, hpc, hctl, hmode, hkilled (hreach noEarlyKill fun _ _ => trivial)⟩

/-- It calls `sleep(0)`. -/
def sleepsZero : List Act := initStarts ++ [.sleepCall 0, .go, .go, .go, .go]

/-- **After `sleep(0)` a process in user mode is `SLEEPING`**, and a timer interrupt does not reach `yield`. -/
theorem sleep_zero_keeps_cpu : ¬∀ m, MachineReach (fun _ _ => True) m → ∀ i h, m.pc = .switched i h →
    m.ctl i = .user → (m.kernel.table i).state = .RUNNING := by
  intro hall
  have hrun : (sleepsZero.foldlM (fun m a => if true then m.step a else none) bootMachine).any fun m =>
      m.pc = .switched 0 0 ∧ m.ctl 0 = .user ∧ (m.kernel.table 0).state = .SLEEPING := by decide +kernel
  obtain ⟨m, hm, huser⟩ := (Option.any_eq_true _ _).mp hrun
  obtain ⟨hpc, hctl, hstate⟩ := of_decide_eq_true huser
  have hreach : MachineReach (fun _ _ => True) m :=
    Reach.foldlM_checked (fun _ _ _ => trivial) sleepsZero bootMachine m (.start ⟨⟨rfl, rfl⟩, rfl⟩) hm
  cases hstate.symm.trans (hall m hreach 0 0 hpc hctl)

end OperatingSystems.Sched.UserMode
