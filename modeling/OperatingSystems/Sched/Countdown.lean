import OperatingSystems.Sched.Moves

/-!
# A timed sleep ends at its tick

`sys_sleep` stores the number of ticks in `sleepTicks` before it takes a lock, and reads `ticks0` under
`tickslock`.  From then on two counters run: `ticks - ticks0` up, modulo `2 ^ 32`, and `sleepTicks` down with every
`wakeup(&ticks)`.

* **`Armed.move`** — where `ticks0` is read, `sleepTicks` still has the value stored.
* **`step_resting`** — what a step does to a process that sleeps on `&ticks` or waits for the CPU.
* **`Phase.step`** — every step keeps the two counters together, until the process is back from the loop.
* **`sleep_ends_at_tick`** — so the process is woken up by the last tick and no earlier, and leaves the loop when
  it runs again.
-/

namespace OperatingSystems.Sched.Countdown

open GuardedRuns

/-! ### The time in the loop -/

/-- The timer interrupts in a step. -/
def ticksOf : Act → ℕ
  | .timer => 1
  | _ => 0

/-- **The time in the loop of `sys_sleep`**: all steps from `start` on, until the process in slot `i`, which nobody
kills, has left the loop.  The number counts the ticks. -/
inductive Sleeps (i : Slot) (start : Machine) : ℕ → Machine → Prop
  | read : Sleeps i start 0 start
  | next {t : ℕ} {m m' : Machine} {a : Act} : Sleeps i start t m → m.ctl i ≠ .sysret →
      m.step a = some m' → (m'.kernel.table i).killed = 0 → Sleeps i start (t + ticksOf a) m'

/-- In any run of the machine the process in slot `i`, which is not killed, takes `tickslock` in `sys_sleep(n)` and
reads `ticks0`. -/
structure ReadsTicks (i : Slot) (n : BitVec 32) (m start : Machine) : Prop where
  reach : MachineReach (fun _ _ => True) m
  runs : m.pc.current = some i
  place : m.ctl i = .sleepLock n
  alive : (m.kernel.table i).killed = 0
  step : m.step .go = some start

/-- **The sleep of `n` ticks ends at its tick**: what holds `t` ticks after `ticks0` has been read. -/
structure EndsAtTick (i : Slot) (n t : ℕ) (m : Machine) : Prop where
  early : t < n → (m.kernel.table i).state = .SLEEPING ∧ m.ctl i ≠ .sysret
  last : t + 1 = n → ∀ m', m.step .timer = some m' → (m'.kernel.table i).state = .RUNNABLE
  late : n ≤ t → ((m.kernel.table i).state = .RUNNABLE ∨ (m.kernel.table i).state = .RUNNING) ∧
    (m.kernel.table i).sleepTicks = 0
  leaves : m.pc.current = some i → m.ctl i ≠ .sysret → ∃ as m', (as = [.go] ∨ as = [.go, .go]) ∧
    as.foldlM Machine.step m = some m' ∧ m'.ctl i = .sysret ∧ (m'.kernel.table i).sleepTicks = 0

/-! ### The stored counter -/

variable {G : Limits} {m m' : Machine} {k : Kernel} {i q : Slot} {c : Ctl} {p p' : Proc} {r : Bool} {h : ℤ}
  {n : BitVec 32} {ticks0 t : ℕ} {a : Act}

/-- Between the store and the read of `ticks0` the counter is the argument. -/
structure Armed (v : View) : Prop where
  placed : Placed v
  count : ∀ n, v.ctl = .sleepStore n ∨ v.ctl = .sleepLock n → v.proc.sleepTicks = n.toInt

theorem Armed.elsewhere {v : View} (hp : Placed v)
    (hc : ∀ n, v.ctl ≠ .sleepStore n ∧ v.ctl ≠ .sleepLock n) : Armed v :=
  ⟨hp, fun n hn => hn.elim (fun he => absurd he (hc n).1) fun he => absurd he (hc n).2⟩

/-- A process in a timed sleep that does not sleep yet has no channel. -/
theorem Armed.wakeup (h : Armed ⟨c, p, r⟩) (chan : Option Chan)
    (hnull : chan = none → r = true → c = .exiting) : Armed ⟨c, wakeupProc chan p, r⟩ := by
  refine ⟨h.placed.wakeup chan, ?_⟩
  intro n hn
  have hawake : ∀ d, c ≠ .asleep d := by
    intro d hd
    rw [hd] at hn
    rcases hn with hn | hn <;> cases hn
  have hnone : p.chan = none := h.placed.awake hawake
  rcases wakeupProc_cases chan p with ⟨-, heq⟩ | ⟨hsleep, hchan, -⟩
  · rw [heq]
    exact h.count n hn
  · rw [hnone] at hchan
    cases r with
    | true =>
      rw [hnull hchan.symm rfl] at hn
      rcases hn with hn | hn <;> cases hn
    | false => exact absurd hnone (h.placed.resting rfl hsleep)

/-- **Every move keeps the counter.** -/
theorem Armed.move {v v' : View} (h : Armed v) (hm : Move G v v') : Armed v' := by
  have hp := h.placed.move hm
  cases hm with
  | numbers => exact ⟨hp, h.count⟩
  | adopt => exact ⟨hp, h.count⟩
  | wakeup chan => exact h.wakeup _ fun he => (nomatch he)
  | wakeNull hself => exact h.wakeup _ fun _ => hself
  | kill => exact ⟨hp, h.count⟩
  | alloc => exact ⟨hp, h.count⟩
  | start => exact .elsewhere hp (by simp)
  | drop => exact ⟨hp, h.count⟩
  | reap => exact ⟨hp, h.count⟩
  | dispatch => exact ⟨hp, h.count⟩
  | @yield c p =>
    by_cases huser : c = .user
    · exact .elsewhere hp (by simp [huser])
    · refine ⟨hp, ?_⟩
      simp only [if_neg huser]
      exact h.count
  | goes hgo => exact .elsewhere hp (by cases hgo <;> simp)
  | fault => exact .elsewhere hp (by simp)
  | sleepArg n =>
    refine ⟨hp, ?_⟩
    intro n' hn
    obtain rfl : n = n' := by simpa using hn
    rfl
  | sleepStore n =>
    refine ⟨hp, ?_⟩
    intro n' hn
    obtain rfl : n = n' := by simpa using hn
    exact h.count n (.inl rfl)
  | sleepTicks => exact .elsewhere hp (by simp)
  | block => exact .elsewhere hp (by simp)
  | @tidyUp c p =>
    have hc := (h.placed.asleep c rfl).1
    refine .elsewhere hp ?_
    intro n
    constructor <;> rintro rfl <;> exact hc
  | zombie => exact .elsewhere hp (by simp)

/-- No restriction. -/
def anything : Limits where
  kill _ := True
  call _ := True
  store _ _ := True

theorem anything_allow (m : Machine) (a : Act) : anything.allow m a := by
  unfold Limits.allow
  split
  · exact fun _ _ => trivial
  · trivial
  · exact fun _ _ _ _ _ => trivial
  · trivial

theorem armed_of_reach (hm : MachineReach (fun _ _ => True) m) (q : Slot) : Armed (m.view q) := by
  refine hm.process (G := anything) (P := Armed) (fun m a _ => anything_allow m a) ?_
    (fun v v' hv hmove => hv.move hmove) q
  rintro p (rfl | rfl) <;> exact .elsewhere (.idle (by simp) rfl (by decide)) (by simp)

/-! ### What others do to a process that rests -/

/-- What counts for a sleep is the same. -/
structure Same (p p' : Proc) : Prop where
  state : p'.state = p.state
  chan : p'.chan = p.chan
  killed : p'.killed = p.killed
  sleepTicks : p'.sleepTicks = p.sleepTicks

theorem Same.refl (p : Proc) : Same p p := ⟨rfl, rfl, rfl, rfl⟩

theorem Same.trans {p'' : Proc} (h : Same p p') (h' : Same p' p'') : Same p p'' :=
  ⟨h'.state.trans h.state, h'.chan.trans h.chan, h'.killed.trans h.killed,
    h'.sleepTicks.trans h.sleepTicks⟩

theorem Same.wakeup (h : Same p p') (chan : Option Chan) :
    Same (wakeupProc chan p) (wakeupProc chan p') := by
  unfold wakeupProc
  rw [h.state, h.chan, h.sleepTicks]
  split
  · exact ⟨rfl, rfl, h.killed, rfl⟩
  · exact h

/-- The process sleeps on `&ticks`, or waits for the CPU. -/
def Resting (p : Proc) : Prop :=
  p.state = .SLEEPING ∧ p.chan = some .ticks ∨ p.state = .RUNNABLE

theorem Resting.same (h : Resting p) (hp : Same p p') : Resting p' := by
  unfold Resting
  rw [hp.state, hp.chan]
  exact h

theorem Resting.wakeup (h : Resting p) {chan : Option Chan} (hchan : chan ≠ some .ticks) :
    wakeupProc chan p = p := by
  unfold wakeupProc
  apply if_neg
  intro ⟨hstate, hc⟩
  rcases h with ⟨-, hticks⟩ | hrun
  · exact hchan (hc.symm.trans hticks)
  · rw [hrun] at hstate
    cases hstate

/-- The kernel goes on, and the process in slot `q` and the clock stay. -/
structure Calm (k k' : Kernel) (q : Slot) : Prop where
  proc : Same (k.table q) (k'.table q)
  clock : k'.ticks = k.ticks

theorem Calm.refl (k : Kernel) (q : Slot) : Calm k k q := ⟨.refl _, rfl⟩

theorem calm_modify {j : Slot} (hq : q ≠ j) (f : Proc → Proc) : Calm k (k.modify j f) q :=
  ⟨by rw [Kernel.modify_of_ne k hq]; exact .refl _, rfl⟩

theorem calm_wakeup1 (hrest : Resting (k.table q)) {chan : Option Chan} (hchan : chan ≠ some .ticks) :
    Calm k (wakeup1 chan k) q := by
  constructor
  · show Same _ (wakeupProc chan (k.table q))
    rw [hrest.wakeup hchan]
    exact .refl _
  · rfl

theorem calm_abandonChild (hrest : Resting (k.table q)) (j : Slot) : Calm k (abandonChild i k j) q := by
  unfold abandonChild
  split
  · have hadopt : Same (k.table q) ((k.modify j fun p => { p with parent := some k.initproc }).table q) := by
      by_cases hq : q = j
      · subst hq
        rw [Kernel.modify_self]
        exact ⟨rfl, rfl, rfl, rfl⟩
      · rw [Kernel.modify_of_ne _ hq]
        exact .refl _
    simp only
    split
    · have hother : some (Chan.proc k.initproc) ≠ some .ticks := by simp
      have hwake := calm_wakeup1 (hrest.same hadopt) hother
      exact ⟨hadopt.trans hwake.proc, rfl⟩
    · exact ⟨hadopt, rfl⟩
  · exact .refl ..

/-- A slot that rests is not free, and not one of a new or an exited process. -/
theorem Resting.ne (h : Resting (k.table q)) {j : Slot}
    (hj : (k.table j).state = .UNUSED ∨ (k.table j).state = .EMBRYO ∨ (k.table j).state = .ZOMBIE) :
    q ≠ j := by
  rintro rfl
  rcases h with ⟨hs, -⟩ | hs <;> rw [hs] at hj <;> simp at hj

/-- **An operation of another process**, if it does not kill the process. -/
theorem calm_op {op : Op} (hop : op.inCall) (hq : q ≠ i) (hrest : Resting (m.kernel.table q))
    (halive : ((m.doOp i op).kernel.table q).killed = 0) :
    Calm m.kernel (m.doOp i op).kernel q ∧ (m.doOp i op).ctl q = m.ctl q := by
  cases op with
  | allocproc =>
    refine ⟨?_, rfl⟩
    show Calm m.kernel (((allocproc m.kernel).map Prod.snd).getD m.kernel) q
    unfold allocproc
    cases hslot : firstSlot fun i => (m.kernel.table i).state = .UNUSED with
    | none => exact .refl ..
    | some j =>
      have hj : (m.kernel.table j).state = .UNUSED := by simpa using firstSlot_some hslot
      have hmodify := calm_modify (k := m.kernel) (hrest.ne (.inl hj)) fun p =>
        { p with state := .EMBRYO, pid := m.kernel.nextpid }
      exact ⟨hmodify.proc, hmodify.clock⟩
  | startChild np =>
    show Calm m.kernel (if _ then _ else _) q ∧ (if _ then _ else _ : Slot → Ctl) q = m.ctl q
    by_cases hst : (m.kernel.table np).state = .EMBRYO
    · have hne := hrest.ne (.inr (.inl hst))
      rw [if_pos hst, if_pos hst, Function.update_of_ne hne]
      exact ⟨calm_modify hne _, rfl⟩
    · rw [if_neg hst, if_neg hst]
      exact ⟨.refl .., rfl⟩
  | dropChild np =>
    refine ⟨?_, rfl⟩
    show Calm m.kernel (if _ then _ else _) q
    split
    · rename_i hst
      exact calm_modify (hrest.ne (.inr (.inl hst))) _
    · exact .refl ..
  | reap =>
    refine ⟨?_, rfl⟩
    show Calm m.kernel ((reap i m.kernel).getD m.kernel) q
    unfold reap
    cases hslot : firstSlot fun j => (m.kernel.table j).parent = some i ∧ (m.kernel.table j).state = .ZOMBIE with
    | none => exact .refl ..
    | some j =>
      have hj := firstSlot_some hslot
      simp only [Bool.decide_and, Bool.and_eq_true, decide_eq_true_eq] at hj
      exact calm_modify (k := m.kernel) (hrest.ne (.inr (.inr hj.2))) fun p =>
        { p with pid := 0, parent := none, killed := 0, state := .UNUSED }
  | wakeup chan =>
    refine ⟨calm_wakeup1 hrest ?_, rfl⟩
    rintro ⟨⟩
    cases hop
  | kill pid =>
    refine ⟨?_, rfl⟩
    change ((kill pid m.kernel).table q).killed = 0 at halive
    show Calm m.kernel (kill pid m.kernel) q
    unfold kill at halive ⊢
    cases hslot : firstSlot fun i => (m.kernel.table i).pid = pid with
    | none => exact .refl ..
    | some j =>
      rw [hslot] at halive
      apply calm_modify
      rintro rfl
      simp only [Kernel.modify_self] at halive
      cases halive
  | nice niceValue =>
    refine ⟨?_, rfl⟩
    show Calm m.kernel (sys_nice i niceValue m.kernel) q
    unfold sys_nice
    split
    · exact .refl ..
    · exact calm_modify hq _
  | sleepStart n => cases hop
  | tidyUp => cases hop

/-! ### Steps of others -/

/-- The process that rests after the step: a tick wakes it up. -/
def felt (a : Act) (p : Proc) : Proc :=
  match a with
  | .timer => wakeupProc (some .ticks) p
  | _ => p

/-- `ticks` after the step. -/
def ticksAfter (a : Act) (ticks : ℕ) : ℕ :=
  match a with
  | .timer => (ticks + 1) % 2 ^ 32
  | _ => ticks

/-- The process in slot `q` still rests where it was. -/
structure Rests (m m' : Machine) (q : Slot) (p : Proc) (ticks : ℕ) : Prop where
  place : m'.ctl q = m.ctl q
  idle : m'.pc.current ≠ some q
  proc : Same p (m'.kernel.table q)
  clock : m'.kernel.ticks = ticks

theorem Calm.felt (h : Calm m.kernel k q) : Same (m.kernel.table q) (k.table q) ∧ k.ticks = m.kernel.ticks :=
  ⟨h.proc, h.clock⟩

theorem tick_felt (k : Kernel) (q : Slot) :
    Same (wakeupProc (some .ticks) (k.table q)) ((tick k).table q) ∧ (tick k).ticks = (k.ticks + 1) % 2 ^ 32 := by
  unfold tick
  simp only
  split
  · refine ⟨?_, rfl⟩
    apply Same.wakeup
    show Same _ (if (k.table q).state = .UNUSED then _ else _)
    split
    · exact .refl _
    · exact ⟨rfl, rfl, rfl, rfl⟩
  · exact ⟨.refl _, rfl⟩

theorem idle_of_running (hrun : m.pc = .switched i h) (hq : q ≠ i) : m.pc.current ≠ some q := by
  rw [hrun]
  exact fun he => hq (Option.some.inj he).symm

theorem rests_goTo (hrun : m.pc = .switched i h) (hq : q ≠ i) {ticks : ℕ}
    (hk : Same p (k.table q) ∧ k.ticks = ticks) : Rests m (m.goTo i k c) q p ticks :=
  ⟨Function.update_of_ne hq .., idle_of_running hrun hq, hk.1, hk.2⟩

theorem rests_sched (hq : q ≠ i) {ticks : ℕ} (hk : Same p (k.table q) ∧ k.ticks = ticks) :
    Rests m (m.sched i h k c) q p ticks := by
  refine ⟨Function.update_of_ne hq .., by simp [Machine.sched, Pc.current], ?_, hk.2⟩
  show Same p ((account i k).table q)
  rw [account, Kernel.modify_of_ne _ hq]
  exact hk.1

theorem rests_keep (hidle : m.pc.current ≠ some q) {ticks : ℕ} (hk : Same p (k.table q) ∧ k.ticks = ticks) :
    Rests m { m with kernel := k } q p ticks :=
  ⟨rfl, hidle, hk.1, hk.2⟩

theorem rests_unlessKilled (hrun : m.pc = .switched i h) (hq : q ≠ i)
    (hm : (if (m.kernel.table i).killed ≠ 0 then m.callExit i m.kernel
      else some (m.goTo i m.kernel c)) = some m') : Rests m m' q (m.kernel.table q) m.kernel.ticks := by
  split at hm
  · rw [callExit_eq hm]
    exact rests_goTo hrun hq ⟨.refl _, rfl⟩
  · rw [← Option.some.inj hm]
    exact rests_goTo hrun hq ⟨.refl _, rfl⟩

theorem rests_sleepLoop (hrun : m.pc = .switched i h) (hq : q ≠ i) :
    Rests m (m.sleepLoop i h n ticks0) q (m.kernel.table q) m.kernel.ticks := by
  unfold Machine.sleepLoop
  split
  · split
    · exact rests_goTo hrun hq ⟨.refl _, rfl⟩
    · exact rests_sched hq (calm_modify hq _).felt
  · exact rests_goTo hrun hq ⟨.refl _, rfl⟩

theorem rests_goOn (hrun : m.pc = .switched i h) (hq : q ≠ i) (hrest : Resting (m.kernel.table q))
    (hm : m.goOn i h = some m') : Rests m m' q (m.kernel.table q) m.kernel.ticks := by
  unfold Machine.goOn at hm
  cases hctl : m.ctl i with
  | user => rw [hctl] at hm; cases hm
  | forkret =>
    rw [hctl] at hm
    rw [← Option.some.inj hm]
    exact rests_goTo hrun hq ⟨.refl _, rfl⟩
  | preempted =>
    rw [hctl] at hm
    exact rests_unlessKilled hrun hq hm
  | kernel =>
    rw [hctl] at hm
    rw [← Option.some.inj hm]
    exact rests_goTo hrun hq ⟨.refl _, rfl⟩
  | sysret =>
    rw [hctl] at hm
    exact rests_unlessKilled hrun hq hm
  | sleepArg n =>
    rw [hctl] at hm
    rw [← Option.some.inj hm]
    exact rests_goTo hrun hq (calm_modify hq _).felt
  | sleepStore n =>
    rw [hctl] at hm
    rw [← Option.some.inj hm]
    exact rests_goTo hrun hq (calm_modify hq _).felt
  | sleepLock n =>
    rw [hctl] at hm
    rw [← Option.some.inj hm]
    exact rests_sleepLoop hrun hq
  | sleepTest n ticks0 =>
    rw [hctl] at hm
    rw [← Option.some.inj hm]
    exact rests_sleepLoop hrun hq
  | exiting =>
    rw [hctl] at hm
    rw [← Option.some.inj hm]
    apply rests_goTo hrun hq
    apply Calm.felt
    apply calm_wakeup1 hrest
    intro he
    obtain ⟨_, -, hp⟩ := Option.map_eq_some_iff.mp he
    cases hp
  | dying j =>
    rw [hctl] at hm
    simp only at hm
    split at hm
    · rw [← Option.some.inj hm]
      exact rests_goTo hrun hq (calm_abandonChild hrest _).felt
    · rw [← Option.some.inj hm]
      exact rests_sched hq (calm_modify hq _).felt
  | asleep next =>
    rw [hctl] at hm
    rw [← Option.some.inj hm]
    exact rests_goTo hrun hq (calm_modify hq _).felt

theorem rests_timer (hrun : m.pc = .switched i h) (hq : q ≠ i) (hm : m.timer i h = some m') :
    Rests m m' q (wakeupProc (some .ticks) (m.kernel.table q)) ((m.kernel.ticks + 1) % 2 ^ 32) := by
  have htick := tick_felt m.kernel q
  unfold Machine.timer at hm
  simp only at hm
  split at hm
  · rw [callExit_eq hm]
    exact rests_goTo hrun hq htick
  · split at hm
    · rw [← Option.some.inj hm]
      apply rests_sched hq
      have hyield := calm_modify (k := tick m.kernel) hq fun p => { p with state := .RUNNABLE }
      exact ⟨htick.1.trans hyield.proc, hyield.clock.trans htick.2⟩
    · rw [← Option.some.inj hm]
      exact rests_keep (idle_of_running hrun hq) htick

/-- **Every step of another process** leaves a process that rests as it is, but for the tick. -/
theorem rests_run (hrun : m.pc = .switched i h) (hq : q ≠ i) (hrest : Resting (m.kernel.table q))
    (hm : m.run i h a = some m') (halive : a ≠ .timer → (m'.kernel.table q).killed = 0) :
    Rests m m' q (felt a (m.kernel.table q)) (ticksAfter a m.kernel.ticks) := by
  cases a with
  | go => exact rests_goOn hrun hq hrest hm
  | timer =>
    rw [Machine.run, Option.ite_none_right_eq_some] at hm
    exact rests_timer hrun hq hm.2
  | device addr =>
    rw [Machine.run, Option.ite_none_right_eq_some] at hm
    have hother : some (Chan.other addr) ≠ some .ticks := by simp
    have hwake := (calm_wakeup1 hrest hother).felt
    obtain ⟨-, hm⟩ := hm
    unfold Machine.device at hm
    simp only at hm
    split at hm
    · rw [callExit_eq hm]
      exact rests_goTo hrun hq hwake
    · rw [← Option.some.inj hm]
      exact rests_keep (idle_of_running hrun hq) hwake
  | fault =>
    rw [Machine.run, Option.ite_none_right_eq_some] at hm
    rw [callExit_eq hm.2]
    exact rests_goTo hrun hq (calm_modify hq _).felt
  | syscall =>
    rw [Machine.run, Option.ite_none_right_eq_some] at hm
    exact rests_unlessKilled hrun hq hm.2
  | sleepCall n =>
    rw [Machine.run, Option.ite_none_right_eq_some] at hm
    exact rests_unlessKilled hrun hq hm.2
  | exitCall =>
    rw [Machine.run, Option.ite_none_right_eq_some] at hm
    rw [callExit_eq hm.2]
    exact rests_goTo hrun hq ⟨.refl _, rfl⟩
  | op op =>
    rw [Machine.run, Option.ite_none_right_eq_some] at hm
    obtain ⟨hop, hm⟩ := hm
    have hkilled := halive (by simp)
    rw [← Option.some.inj hm] at hkilled ⊢
    have hcall : op.inCall := by
      rcases hop with ⟨-, hop⟩ | ⟨-, hop⟩
      · exact hop
      · cases op with
        | wakeup chan => cases chan <;> exact hop
        | _ => cases hop
    obtain ⟨hcalm, hctl⟩ := calm_op hcall hq hrest hkilled
    exact ⟨hctl, idle_of_running hrun hq, hcalm.proc, hcalm.clock⟩
  | block chan =>
    rw [Machine.run, Option.ite_none_right_eq_some] at hm
    rw [← Option.some.inj hm.2]
    exact rests_sched hq (calm_modify hq _).felt

/-- The scheduler switches to the process in slot `q`. -/
structure Switches (m m' : Machine) (q : Slot) : Prop where
  place : m'.ctl q = m.ctl q
  current : m'.pc.current = some q
  runnable : (m.kernel.table q).state = .RUNNABLE
  proc : m'.kernel.table q = { m.kernel.table q with state := .RUNNING }
  clock : m'.kernel.ticks = m.kernel.ticks

theorem rests_scheduler {s : State} (hs : go m.toState = some s) (q : Slot) :
    Rests m { m with toState := s } q (m.kernel.table q) m.kernel.ticks ∨
      Switches m { m with toState := s } q := by
  have hstay : ∀ pc atScan, pc.current = none → s = ⟨m.kernel, pc, atScan⟩ →
      Rests m { m with toState := s } q (m.kernel.table q) m.kernel.ticks := by
    rintro pc atScan hpc rfl
    refine ⟨rfl, ?_, .refl _, rfl⟩
    show pc.current ≠ some q
    rw [hpc]
    simp
  unfold go at hs
  cases hpc : m.pc with
  | idle =>
    rw [hpc] at hs
    exact .inl (hstay _ _ rfl (Option.some.inj hs).symm)
  | scan i h =>
    rw [hpc] at hs
    simp only at hs
    split at hs
    · exact .inl (hstay _ _ rfl (Option.some.inj hs).symm)
    · exact .inl (hstay _ _ rfl (Option.some.inj hs).symm)
  | run i h =>
    rw [hpc] at hs
    simp only at hs
    split at hs
    · rename_i hi
      split at hs
      · rename_i hpick
        obtain rfl := Option.some.inj hs
        by_cases hq : q = ⟨i, hi⟩
        · subst hq
          have hdispatch := m.kernel.modify_self ⟨i, hi⟩ fun p => { p with state := .RUNNING }
          exact .inr ⟨rfl, rfl, hpick.1, hdispatch, rfl⟩
        · have hdispatch := calm_modify (k := m.kernel) hq fun p => { p with state := .RUNNING }
          exact .inl ⟨rfl, fun he => hq (Option.some.inj he).symm, hdispatch.proc, rfl⟩
      · exact .inl (hstay _ _ rfl (Option.some.inj hs).symm)
    · exact .inl (hstay _ _ rfl (Option.some.inj hs).symm)
  | switched i h =>
    rw [hpc] at hs
    cases hs

/-- **What a step does to a process that rests**: nothing but the tick, or the scheduler switches to it. -/
theorem step_resting (hidle : m.pc.current ≠ some q) (hrest : Resting (m.kernel.table q))
    (hm : m.step a = some m') (halive : a ≠ .timer → (m'.kernel.table q).killed = 0) :
    Rests m m' q (felt a (m.kernel.table q)) (ticksAfter a m.kernel.ticks) ∨ a = .go ∧ Switches m m' q := by
  unfold Machine.step at hm
  split at hm
  · rename_i i h hrun
    have hq : q ≠ i := by
      rintro rfl
      exact hidle (by rw [hrun]; rfl)
    exact .inl (rests_run hrun hq hrest hm halive)
  · split at hm
    · obtain ⟨s, hs, hm⟩ := Option.map_eq_some_iff.mp hm
      rw [← hm]
      exact (rests_scheduler hs q).imp id fun hswitch => ⟨rfl, hswitch⟩
    · rw [Option.ite_none_right_eq_some] at hm
      rw [← Option.some.inj hm.2]
      exact .inl (rests_keep hidle (tick_felt _ _))
    · rw [Option.ite_none_right_eq_some] at hm
      rw [← Option.some.inj hm.2]
      exact .inl (rests_keep hidle (calm_wakeup1 hrest (by simp)).felt)
    · cases hm

/-! ### The two counters -/

/-- Before the last tick the process sleeps, and the counter is what is left of `n`. -/
structure Waiting (i : Slot) (n : BitVec 32) (ticks0 t : ℕ) (m : Machine) : Prop where
  early : t < n.toNat
  place : m.ctl i = .asleep (.sleepTest n ticks0)
  idle : m.pc.current ≠ some i
  state : (m.kernel.table i).state = .SLEEPING
  chan : (m.kernel.table i).chan = some .ticks
  left : (m.kernel.table i).sleepTicks + t = n.toNat

/-- After it the process runs or can run, and the counter is used up. -/
structure Woken (i : Slot) (n : BitVec 32) (ticks0 t : ℕ) (m : Machine) : Prop where
  late : n.toNat ≤ t
  place : m.ctl i = .asleep (.sleepTest n ticks0) ∨ m.ctl i = .sleepTest n ticks0 ∨ m.ctl i = .sysret
  state : m.pc.current = some i ∧ (m.kernel.table i).state = .RUNNING ∨
    m.pc.current ≠ some i ∧ (m.kernel.table i).state = .RUNNABLE
  used : (m.kernel.table i).sleepTicks = 0

/-- The clock is `t` ticks past `ticks0`, modulo `2 ^ 32`. -/
def Elapsed (ticks0 t ticks : ℕ) : Prop :=
  ((ticks : ℤ) - ticks0) % 2 ^ 32 = (t : ℤ) % 2 ^ 32

theorem Elapsed.step {ticks : ℕ} (h : Elapsed ticks0 t ticks) (a : Act) :
    Elapsed ticks0 (t + ticksOf a) (ticksAfter a ticks) := by
  cases a with
  | timer =>
    show (((ticks + 1) % 2 ^ 32 : ℕ) - ticks0 : ℤ) % 2 ^ 32 = ((t + 1 : ℕ) : ℤ) % 2 ^ 32
    unfold Elapsed at h
    omega
  | _ => exact h

/-- **The process in the loop of `sys_sleep`**, `t` ticks after it has read `ticks0`. -/
structure Phase (i : Slot) (n : BitVec 32) (ticks0 t : ℕ) (m : Machine) : Prop where
  alive : (m.kernel.table i).killed = 0
  clock : Elapsed ticks0 t m.kernel.ticks
  phase : Waiting i n ticks0 t m ∨ Woken i n ticks0 t m

/-- A wakeup of a process that does not sleep. -/
theorem wakeupProc_awake {chan : Option Chan} (hstate : p.state ≠ .SLEEPING) : wakeupProc chan p = p :=
  if_neg fun hp => hstate hp.1

/-- A tick of a process that sleeps on `&ticks`. -/
theorem wakeupProc_ticks (hstate : p.state = .SLEEPING) (hchan : p.chan = some .ticks)
    (hpos : 0 < p.sleepTicks) : wakeupProc (some .ticks) p =
      { p with
        sleepTicks := p.sleepTicks - 1
        state := if p.sleepTicks - 1 ≤ 0 then .RUNNABLE else p.state } := by
  unfold wakeupProc
  rw [if_pos ⟨hstate, hchan⟩]
  simp only [gt_iff_lt, if_pos hpos]

theorem felt_awake (hstate : p.state ≠ .SLEEPING) (a : Act) : felt a p = p := by
  cases a with
  | timer => exact wakeupProc_awake hstate
  | _ => rfl

/-- **A step while the process sleeps**: the last tick wakes it up, and no other step does. -/
theorem Waiting.step (h : Waiting i n ticks0 t m) (hm : m.step a = some m')
    (halive : a ≠ .timer → (m'.kernel.table i).killed = 0) :
    m'.kernel.ticks = ticksAfter a m.kernel.ticks ∧
      (t + ticksOf a < n.toNat ∧ Waiting i n ticks0 (t + ticksOf a) m' ∨
        a = .timer ∧ t + 1 = n.toNat ∧ (m'.kernel.table i).state = .RUNNABLE ∧
          Woken i n ticks0 (t + 1) m') := by
  have hrest : Resting (m.kernel.table i) := .inl ⟨h.state, h.chan⟩
  rcases step_resting h.idle hrest hm halive with hrests | ⟨-, hswitch⟩
  · refine ⟨hrests.clock, ?_⟩
    have hproc := hrests.proc
    have hplace := hrests.place.trans h.place
    have hleft := h.left
    have hearly := h.early
    cases a with
    | timer =>
      change Same (wakeupProc (some .ticks) (m.kernel.table i)) _ at hproc
      rw [wakeupProc_ticks h.state h.chan (by omega)] at hproc
      have hcount : (m'.kernel.table i).sleepTicks = (m.kernel.table i).sleepTicks - 1 := hproc.sleepTicks
      by_cases hlast : t + 1 = n.toNat
      · have hready : (m'.kernel.table i).state = .RUNNABLE := hproc.state.trans (if_pos (by omega))
        refine .inr ⟨rfl, hlast, hready, hlast.ge, .inl hplace, .inr ⟨hrests.idle, hready⟩, ?_⟩
        omega
      · have hnext : t + ticksOf .timer < n.toNat := by
          show t + 1 < n.toNat
          omega
        refine .inl ⟨hnext, hnext, hplace, hrests.idle, ?_, hproc.chan.trans h.chan, ?_⟩
        · exact (hproc.state.trans (if_neg (by omega))).trans h.state
        · show _ + ((t + 1 : ℕ) : ℤ) = _
          omega
    | _ =>
      exact .inl ⟨hearly, hearly, hplace, hrests.idle, hproc.state.trans h.state, hproc.chan.trans h.chan,
        by rw [hproc.sleepTicks]; exact hleft⟩
  · have hrun := hswitch.runnable
    rw [h.state] at hrun
    cases hrun

/-- The process waits for the CPU, or is switched to. -/
theorem Woken.step_idle (h : Woken i n ticks0 t m) (hidle : m.pc.current ≠ some i)
    (hm : m.step a = some m') (halive : (m'.kernel.table i).killed = 0) :
    m'.kernel.ticks = ticksAfter a m.kernel.ticks ∧ Woken i n ticks0 (t + ticksOf a) m' := by
  have hstate : (m.kernel.table i).state = .RUNNABLE :=
    (h.state.resolve_left fun hrun => hidle hrun.1).2
  have hlate : n.toNat ≤ t + ticksOf a := h.late.trans (Nat.le_add_right ..)
  rcases step_resting hidle (.inr hstate) hm (fun _ => halive) with hrests | ⟨rfl, hswitch⟩
  · have hproc := hrests.proc
    rw [felt_awake (by rw [hstate]; decide)] at hproc
    refine ⟨hrests.clock, hlate, ?_, .inr ⟨hrests.idle, hproc.state.trans hstate⟩,
      hproc.sleepTicks.trans h.used⟩
    rw [hrests.place]
    exact h.place
  · refine ⟨hswitch.clock, hlate, ?_, .inl ⟨hswitch.current, ?_⟩, ?_⟩
    · rw [hswitch.place]
      exact h.place
    · rw [hswitch.proc]
    · rw [hswitch.proc]
      exact h.used

theorem switched_of_current (hcur : m.pc.current = some i) : ∃ highest, m.pc = .switched i highest := by
  cases hpc : m.pc with
  | switched j highest =>
    rw [hpc] at hcur
    exact ⟨highest, by rw [Option.some.inj hcur]⟩
  | _ => rw [hpc] at hcur; cases hcur

/-- The test of the loop, after the last tick and before the counter of ticks has gone round. -/
theorem sleepLoop_late (hclock : Elapsed ticks0 t m.kernel.ticks) (hlate : n.toNat ≤ t)
    (hwithin : t < 2 ^ 32) : m.sleepLoop i h n ticks0 = m.goTo i m.kernel .sysret := by
  unfold Machine.sleepLoop
  apply if_neg
  unfold Elapsed at hclock
  omega

/-- The process goes on inside `sleep`. -/
theorem goOn_asleep (hplace : m.ctl i = .asleep c) : m.goOn i h = some (m.goTo i (tidyUp i m.kernel) c) := by
  unfold Machine.goOn
  rw [hplace]

theorem goOn_test (hplace : m.ctl i = .sleepTest n ticks0) (hclock : Elapsed ticks0 t m.kernel.ticks)
    (hlate : n.toNat ≤ t) (hwithin : t < 2 ^ 32) : m.goOn i h = some (m.goTo i m.kernel .sysret) := by
  unfold Machine.goOn
  rw [hplace]
  exact congrArg some (sleepLoop_late hclock hlate hwithin)

/-- Where the running process stands after it has gone on. -/
theorem Woken.goTo (h : Woken i n ticks0 t m) (hcur : m.pc.current = some i)
    (hc : c = .sleepTest n ticks0 ∨ c = .sysret) (hk : Same (m.kernel.table i) (k.table i) ∨
      k = tidyUp i m.kernel) : Woken i n ticks0 t (m.goTo i k c) := by
  have hstate : (m.kernel.table i).state = .RUNNING :=
    (h.state.resolve_right fun hidle => hidle.1 hcur).2
  have hproc : (k.table i).state = (m.kernel.table i).state ∧
      (k.table i).sleepTicks = (m.kernel.table i).sleepTicks := by
    rcases hk with hk | rfl
    · exact ⟨hk.state, hk.sleepTicks⟩
    · rw [tidyUp, Kernel.modify_self]
      exact ⟨rfl, rfl⟩
  refine ⟨h.late, .inr ?_, .inl ⟨hcur, hproc.1.trans hstate⟩, hproc.2.trans h.used⟩
  show Function.update m.ctl i c i = _ ∨ Function.update m.ctl i c i = _
  rw [Function.update_self]
  exact hc

/-- **A step of the process itself**, inside `sleep` or before the test of the loop. -/
theorem Woken.step_running (h : Woken i n ticks0 t m) (hcur : m.pc.current = some i)
    (hin : m.ctl i ≠ .sysret) (hclock : Elapsed ticks0 t m.kernel.ticks) (hwithin : t < 2 ^ 32)
    (hm : m.step a = some m') :
    m'.kernel.ticks = ticksAfter a m.kernel.ticks ∧ Woken i n ticks0 (t + ticksOf a) m' := by
  have hstate : (m.kernel.table i).state = .RUNNING :=
    (h.state.resolve_right fun hidle => hidle.1 hcur).2
  obtain ⟨highest, hpc⟩ := switched_of_current hcur
  have hrun : m.run i highest a = some m' := by
    unfold Machine.step at hm
    rw [hpc] at hm
    exact hm
  rcases h.place with hplace | hplace | hplace
  · cases a with
    | go =>
      change m.goOn i highest = some m' at hrun
      rw [goOn_asleep hplace] at hrun
      rw [← Option.some.inj hrun]
      exact ⟨rfl, h.goTo hcur (.inl rfl) (.inr rfl)⟩
    | _ => simp [Machine.run, hplace, Ctl.interruptible, Ctl.maySleep] at hrun
  · cases a with
    | go =>
      change m.goOn i highest = some m' at hrun
      rw [goOn_test hplace hclock h.late hwithin] at hrun
      rw [← Option.some.inj hrun]
      exact ⟨rfl, h.goTo hcur (.inr rfl) (.inl (.refl _))⟩
    | timer =>
      rw [Machine.run, Option.ite_none_right_eq_some] at hrun
      have htick := tick_felt m.kernel i
      rw [wakeupProc_awake (by rw [hstate]; decide)] at htick
      have hnot : m.ctl i ≠ .user := by rw [hplace]; simp
      replace hrun := hrun.2
      unfold Machine.timer at hrun
      simp only at hrun
      rw [if_neg fun hand => hnot hand.1, if_pos (htick.1.state.trans hstate), if_neg hnot] at hrun
      rw [← Option.some.inj hrun]
      refine ⟨htick.2, h.late.trans (Nat.le_add_right ..), .inr (.inl ?_), .inr ⟨?_, ?_⟩, ?_⟩
      · show Function.update m.ctl i (m.ctl i) i = _
        rw [Function.update_self]
        exact hplace
      · simp [Machine.sched, Pc.current]
      · show ((account i (yield i (tick m.kernel))).table i).state = _
        rw [account, Kernel.modify_self, yield, Kernel.modify_self]
      · show ((account i (yield i (tick m.kernel))).table i).sleepTicks = _
        rw [account, Kernel.modify_self, yield, Kernel.modify_self]
        exact htick.1.sleepTicks.trans h.used
    | device addr =>
      rw [Machine.run, Option.ite_none_right_eq_some] at hrun
      have hnot : m.ctl i ≠ .user := by rw [hplace]; simp
      replace hrun := hrun.2
      unfold Machine.device at hrun
      simp only at hrun
      rw [if_neg fun hand => hnot hand.1] at hrun
      rw [← Option.some.inj hrun]
      have hwake : (wakeup1 (some (.other addr)) m.kernel).table i = m.kernel.table i :=
        wakeupProc_awake (by rw [hstate]; decide)
      refine ⟨rfl, h.late, h.place, .inl ⟨hcur, ?_⟩, ?_⟩
      · show ((wakeup1 (some (.other addr)) m.kernel).table i).state = _
        rw [hwake]
        exact hstate
      · show ((wakeup1 (some (.other addr)) m.kernel).table i).sleepTicks = _
        rw [hwake]
        exact h.used
    | _ => simp [Machine.run, hplace, Ctl.maySleep] at hrun
  · exact absurd hplace hin

/-- **Every step keeps the two counters together**, until the counter of ticks has gone round. -/
theorem Phase.step (h : Phase i n ticks0 t m) (hin : m.ctl i ≠ .sysret) (hwithin : t < 2 ^ 32)
    (hm : m.step a = some m') (halive : (m'.kernel.table i).killed = 0) :
    Phase i n ticks0 (t + ticksOf a) m' := by
  have hclock : m'.kernel.ticks = ticksAfter a m.kernel.ticks → Elapsed ticks0 (t + ticksOf a) m'.kernel.ticks := by
    intro he
    rw [he]
    exact h.clock.step a
  rcases h.phase with hwaiting | hwoken
  · obtain ⟨hticks, ⟨-, hwait⟩ | ⟨rfl, -, -, hwoke⟩⟩ := hwaiting.step hm fun _ => halive
    · exact ⟨halive, hclock hticks, .inl hwait⟩
    · exact ⟨halive, hclock hticks, .inr hwoke⟩
  · by_cases hcur : m.pc.current = some i
    · obtain ⟨hticks, hwoke⟩ := hwoken.step_running hcur hin h.clock hwithin hm
      exact ⟨halive, hclock hticks, .inr hwoke⟩
    · obtain ⟨hticks, hwoke⟩ := hwoken.step_idle hcur hm halive
      exact ⟨halive, hclock hticks, .inr hwoke⟩

/-! ### The whole sleep -/

theorem toInt_of_pos (hn : 0 < n.toInt) : n.toInt = n.toNat ∧ 0 < n.toNat := by
  have hlt := n.isLt
  rw [BitVec.toInt_eq_toNat_cond] at hn ⊢
  split at hn
  · rename_i hhalf
    rw [if_pos hhalf]
    omega
  · omega

/-- **The process reads `ticks0`**: the counter is `n` then, and it goes to sleep. -/
theorem ReadsTicks.phase {start : Machine} (h : ReadsTicks i n m start) (hn : 0 < n.toInt) :
    Phase i n m.kernel.ticks 0 start := by
  obtain ⟨hint, hpos⟩ := toInt_of_pos hn
  have hcount : (m.kernel.table i).sleepTicks = n.toInt :=
    (armed_of_reach h.reach i).count n (.inr h.place)
  obtain ⟨highest, hpc⟩ := switched_of_current h.runs
  have hstart : start = m.sched i highest (sleep i .ticks m.kernel)
      (.asleep (.sleepTest n m.kernel.ticks)) := by
    have hrun := h.step
    unfold Machine.step at hrun
    rw [hpc] at hrun
    change m.goOn i highest = some start at hrun
    unfold Machine.goOn at hrun
    rw [h.place] at hrun
    rw [← Option.some.inj hrun]
    unfold Machine.sleepLoop
    rw [if_pos (by omega), if_neg (by rw [h.alive]; decide)]
  have hproc : start.kernel.table i = { m.kernel.table i with
      chan := some .ticks
      state := .SLEEPING
      ticks := (m.kernel.table i).ticks + 1
      cpu := (m.kernel.table i).cpu + 1 } := by
    rw [hstart]
    show (account i (sleep i .ticks m.kernel)).table i = _
    rw [account, Kernel.modify_self, sleep, Kernel.modify_self]
  refine ⟨?_, ?_, .inl ⟨hpos, ?_, ?_, ?_, ?_, ?_⟩⟩
  · rw [hproc]
    exact h.alive
  · rw [hstart]
    show ((m.kernel.ticks : ℤ) - m.kernel.ticks) % 2 ^ 32 = ((0 : ℕ) : ℤ) % 2 ^ 32
    rw [sub_self]
    rfl
  · rw [hstart]
    exact Function.update_self ..
  · rw [hstart]
    simp [Machine.sched, Pc.current]
  · rw [hproc]
  · rw [hproc]
  · rw [hproc, Nat.cast_zero, add_zero]
    exact hcount.trans hint

theorem Sleeps.phase {start : Machine} (hstart : Phase i n ticks0 0 start) (h : Sleeps i start t m)
    (hwithin : t < 2 ^ 32) : Phase i n ticks0 t m := by
  induction h with
  | read => exact hstart
  | next _ hin hm halive ih =>
    have hle := lt_of_le_of_lt (Nat.le_add_right ..) hwithin
    exact (ih hle).step hin hle hm halive

theorem step_go (hpc : m.pc = .switched i h) : m.step .go = m.goOn i h := by
  unfold Machine.step
  rw [hpc]
  rfl

/-- When the process runs again, it leaves the loop. -/
theorem Phase.leaves (hphase : Phase i n ticks0 t m) (hwithin : t < 2 ^ 32) (hcur : m.pc.current = some i)
    (hin : m.ctl i ≠ .sysret) : ∃ as m', (as = [Act.go] ∨ as = [.go, .go]) ∧
      as.foldlM Machine.step m = some m' ∧ m'.ctl i = .sysret ∧ (m'.kernel.table i).sleepTicks = 0 := by
  have hwoken : Woken i n ticks0 t m := by
    apply hphase.phase.resolve_left
    intro hwaiting
    exact hwaiting.idle hcur
  obtain ⟨highest, hpc⟩ := switched_of_current hcur
  have hret : ∀ m : Machine, (m.goTo i m.kernel .sysret).ctl i = .sysret :=
    fun m => Function.update_self ..
  have htest : ∀ m : Machine, Woken i n ticks0 t m → Elapsed ticks0 t m.kernel.ticks →
      m.pc = .switched i highest → m.ctl i = .sleepTest n ticks0 →
      m.step .go = some (m.goTo i m.kernel .sysret) := by
    intro m hm hclock hpc hplace
    rw [step_go hpc]
    exact goOn_test hplace hclock hm.late hwithin
  rcases hwoken.place with hplace | hplace | hplace
  · have hgo := step_go hpc
    rw [goOn_asleep hplace] at hgo
    have hwoken₁ := hwoken.goTo hcur (.inl rfl) (.inr rfl)
    have hgo₁ := htest (m.goTo i (tidyUp i m.kernel) (.sleepTest n ticks0)) hwoken₁ hphase.clock hpc
      (Function.update_self ..)
    refine ⟨[.go, .go], (m.goTo i (tidyUp i m.kernel) (.sleepTest n ticks0)).goTo i (tidyUp i m.kernel) .sysret,
      .inr rfl, ?_, hret _, hwoken₁.used⟩
    rw [List.foldlM_cons, hgo]
    show (([Act.go].foldlM Machine.step _ : Option Machine)) = _
    rw [List.foldlM_cons, hgo₁]
    rfl
  · refine ⟨[.go], _, .inl rfl, ?_, hret m, hwoken.used⟩
    rw [List.foldlM_cons, htest m hwoken hphase.clock hpc hplace]
    rfl
  · exact absurd hplace hin

/-- **A timed sleep ends at its tick**: in every run, with every value of the counter of ticks, the process is
not runnable before the last tick, that tick wakes it up, and when it runs again, before the counter has gone
round, it leaves the loop with its own counter used up. -/
theorem sleep_ends_at_tick {start : Machine} (hread : ReadsTicks i n m start) (hn : 0 < n.toInt)
    (hsleeps : Sleeps i start t m') (hwithin : t < 2 ^ 32) : EndsAtTick i n.toNat t m' := by
  have hphase := hsleeps.phase (hread.phase hn) hwithin
  constructor
  case early =>
    intro hearly
    have hwaiting := hphase.phase.resolve_right fun hwoken => not_lt.mpr hwoken.late hearly
    exact ⟨hwaiting.state, by rw [hwaiting.place]; simp⟩
  case last =>
    intro hlast m₁ hm₁
    have hwaiting := hphase.phase.resolve_right fun hwoken => by
      have := hwoken.late
      omega
    obtain ⟨-, ⟨hnext, -⟩ | ⟨-, -, hready, -⟩⟩ := hwaiting.step hm₁ fun hnot => absurd rfl hnot
    · exact absurd hlast hnext.ne
    · exact hready
  case late =>
    intro hlate
    have hwoken := hphase.phase.resolve_left fun hwaiting => not_lt.mpr hlate hwaiting.early
    refine ⟨?_, hwoken.used⟩
    rcases hwoken.state with ⟨-, hrun⟩ | ⟨-, hready⟩
    · exact .inr hrun
    · exact .inl hready
  case leaves => exact hphase.leaves hwithin

/-- From the boot, `init` calls `sleep(1)`, up to the lock. -/
def initSleeps : List Act :=
  List.replicate 68 .go ++ [.sleepCall 1, .go, .go]

theorem sleep_of_init : ∃ m start, ReadsTicks 0 1 m start ∧ EndsAtTick 0 1 0 start := by
  have hrun : (initSleeps.foldlM (fun m a => if true then m.step a else none) bootMachine).any fun m =>
      m.pc.current = some 0 ∧ m.ctl 0 = .sleepLock 1 ∧ (m.kernel.table 0).killed = 0 ∧
        (m.step .go).isSome := by decide +kernel
  obtain ⟨m, hm, hplace⟩ := (Option.any_eq_true _ _).mp hrun
  obtain ⟨hcur, hctl, halive, hgo⟩ := of_decide_eq_true hplace
  obtain ⟨start, hstart⟩ := Option.isSome_iff_exists.mp hgo
  have hreach : MachineReach (fun _ _ => True) m :=
    Reach.foldlM_checked (fun _ _ _ => trivial) initSleeps bootMachine m (.start ⟨⟨rfl, rfl⟩, rfl⟩) hm
  have hread : ReadsTicks 0 1 m start := ⟨hreach, hcur, hctl, halive, hstart⟩
  exact ⟨m, start, hread, sleep_ends_at_tick hread (by decide) .read (by decide)⟩

end OperatingSystems.Sched.Countdown
