import OperatingSystems.Sched.Moves

/-!
# Wakeups and the counter of timed sleeps

`wakeup1` counts down `sleepTicks` of every process it meets, whatever the channel, and wakes up only those
whose counter is used up.  The counter is positive from the store of `sys_sleep` until its last tick, so a wakeup
on another channel is never swallowed as long as no process leaves `sys_sleep` early: by a `kill`.

* **`Timed.move`** — a positive counter belongs to a process inside `sys_sleep`, on its way to sleep on `&ticks`
  or asleep there.
* **`wakeups_wake`** — so every wakeup on another channel makes all its sleepers runnable.
* `killed_sleeper_stays_asleep` — a process killed in a timed sleep keeps its counter, and the wakeup on the
  channel it sleeps on inside `exit` is lost.
-/

namespace OperatingSystems.Sched.TimedSleep

open GuardedRuns

/-- No process is killed while its counter is positive, and no killed process starts to count. -/
def noStaleTicks : Limits where
  kill v := v.proc.sleepTicks ≤ 0
  call _ := True
  store v n := v.proc.killed = 0 ∨ n.toInt ≤ 0

/-- A wakeup on a channel other than `&ticks` makes every process runnable that sleeps on it. -/
def WakesAll (k : Kernel) : Prop :=
  ∀ chan, chan ≠ .ticks → ∀ q, (k.table q).state = .SLEEPING → (k.table q).chan = some chan →
    ((wakeup1 (some chan) k).table q).state = .RUNNABLE

/-- The kernels in which a step from `m` calls `wakeup` or `wakeup1`: its own, and in the loop of `exit` also
that whose child has got its new parent. -/
def CallsWakeup (m : Machine) (k : Kernel) : Prop :=
  k = m.kernel ∨ ∃ j, k = m.kernel.modify j fun q => { q with parent := some m.kernel.initproc }

/-- A process inside `sys_sleep` that is going to sleep on `&ticks`, or sleeps there. -/
structure Counting (v : View) : Prop where
  alive : v.proc.killed = 0
  place : (∃ n : BitVec 32, 0 < n.toInt ∧ (v.ctl = .sleepStore n ∨ v.ctl = .sleepLock n)) ∨
    ∃ n ticks0, v.ctl = .asleep (.sleepTest n ticks0) ∧ v.proc.state = .SLEEPING ∧
      v.proc.chan = some .ticks ∧ v.running = false

/-- The counter of a process is positive only inside `sys_sleep`. -/
def Timed (v : View) : Prop := 0 < v.proc.sleepTicks → Counting v

variable {c : Ctl} {p p' : Proc} {r : Bool} {v v' : View}

/-- A process whose slot changes, but not what counts. -/
theorem Counting.same (h : Counting ⟨c, p, r⟩) (hkilled : p'.killed = p.killed)
    (hstate : p'.state = p.state) (hchan : p'.chan = p.chan) : Counting ⟨c, p', r⟩ :=
  ⟨hkilled ▸ h.alive, hstate ▸ hchan ▸ h.place⟩

/-- A process that does not sleep is on its way to sleep. -/
theorem Counting.onTheWay (h : Counting ⟨c, p, r⟩) (hawake : p.state ≠ .SLEEPING ∨ r = true) :
    ∃ n : BitVec 32, 0 < n.toInt ∧ (c = .sleepStore n ∨ c = .sleepLock n) := by
  refine h.place.resolve_right fun ⟨n, ticks0, _, hs, _, hr⟩ => ?_
  rcases hawake with hawake | hawake
  · exact hawake hs
  · cases hawake.symm.trans hr

theorem Counting.idle (h : Counting ⟨c, p, r⟩) (hawake : p.state ≠ .SLEEPING ∨ r = true) {r' : Bool}
    (hkilled : p'.killed = 0) : Counting ⟨c, p', r'⟩ :=
  ⟨hkilled, .inl (h.onTheWay hawake)⟩

theorem Timed.wakeup (h : Timed ⟨c, p, r⟩) (chan : Option Chan) : Timed ⟨c, wakeupProc chan p, r⟩ := by
  rcases wakeupProc_cases chan p with ⟨-, heq⟩ | ⟨-, -, ⟨hone, heq⟩ | ⟨t, ht, heq⟩⟩
  · rw [heq]
    exact h
  · rw [heq]
    have hpos : 0 < p.sleepTicks := by omega
    exact fun _ => (h hpos).same rfl rfl rfl
  · rw [heq]
    exact fun hpos => absurd hpos (not_lt.mpr ht)

/-- **Every move keeps the counters timed.** -/
theorem Timed.move (h : Timed v) (hm : Move noStaleTicks v v') : Timed v' := by
  cases hm with
  | numbers => exact fun hpos => (h hpos).same rfl rfl rfl
  | adopt => exact fun hpos => (h hpos).same rfl rfl rfl
  | wakeup chan => exact h.wakeup _
  | wakeNull => exact h.wakeup _
  | kill hself hkill => exact fun hpos => absurd hpos (not_lt.mpr hkill)
  | alloc pid hstate => exact fun hpos => (h hpos).idle (.inl (by rw [hstate]; decide)) (h hpos).alive
  | start parent => exact fun hpos => absurd hpos (lt_irrefl 0)
  | drop hstate => exact fun hpos => (h hpos).idle (.inl (by rw [hstate]; decide)) (h hpos).alive
  | reap hstate => exact fun hpos => (h hpos).idle (.inl (by rw [hstate]; decide)) rfl
  | dispatch hstate => exact fun hpos => (h hpos).idle (.inl (by rw [hstate]; decide)) (h hpos).alive
  | yield hstate =>
    intro hpos
    obtain ⟨n, hn, hc⟩ := (h hpos).onTheWay (.inr rfl)
    refine ⟨(h hpos).alive, .inl ⟨n, hn, ?_⟩⟩
    rcases hc with rfl | rfl <;> simp
  | goes hgo =>
    intro hpos
    obtain ⟨n, hn, rfl | rfl⟩ := (h hpos).onTheWay (.inr rfl)
    · cases hgo with
      | leave hc => exact absurd hc (by simp)
      | exit hc => exact absurd hc (by simp)
    · cases hgo with
      | leave hc => exact absurd hc (by simp)
      | exit hc => exact absurd hc (by simp)
      | skip hskip =>
        -- a positive argument makes the first test of the loop true
        rcases hskip with hzero | hkilled
        · rw [show n = 0#32 from BitVec.eq_of_toNat_eq hzero] at hn
          exact absurd hn (by decide)
        · exact absurd (h hpos).alive hkilled
  | fault =>
    intro hpos
    obtain ⟨n, -, hc⟩ := (h hpos).onTheWay (.inr rfl)
    exact absurd hc (by simp)
  | sleepArg n hstore =>
    exact fun hpos => ⟨hstore.resolve_right (not_le.mpr hpos), .inl ⟨n, hpos, .inl rfl⟩⟩
  | sleepStore n =>
    intro hpos
    obtain ⟨n', hn, hc⟩ := (h hpos).onTheWay (.inr rfl)
    obtain rfl : n = n' := by simpa using hc
    exact ⟨(h hpos).alive, .inl ⟨n, hn, .inr rfl⟩⟩
  | sleepTicks n ticks0 =>
    exact fun hpos => ⟨(h hpos).alive, .inr ⟨n, ticks0, rfl, rfl, rfl, rfl⟩⟩
  | block chan hplace =>
    intro hpos
    obtain ⟨n, -, hc⟩ := (h hpos).onTheWay (.inr rfl)
    rcases hplace with rfl | rfl | rfl <;> exact absurd hc (by simp)
  | tidyUp =>
    intro hpos
    obtain ⟨n, -, hc⟩ := (h hpos).onTheWay (.inr rfl)
    exact absurd hc (by simp)
  | zombie =>
    intro hpos
    obtain ⟨n, -, hc⟩ := (h hpos).onTheWay (.inr rfl)
    exact absurd hc (by simp)

/-- A process that sleeps on another channel has used up its counter. -/
theorem Timed.usedUp (h : Timed v) (hplaced : Placed v) {chan : Chan} (hne : chan ≠ .ticks)
    (hchan : v.proc.chan = some chan) : v.proc.sleepTicks ≤ 0 := by
  by_contra hpos
  rcases (h (not_le.mp hpos)).place with ⟨n, -, hc⟩ | ⟨n, ticks0, -, -, hticks, -⟩
  · -- outside `sleep` a process has no channel
    have hnone : v.proc.chan = none := hplaced.awake fun d hd => by
      rw [hd] at hc
      exact absurd hc (by simp)
    cases hnone.symm.trans hchan
  · exact hne (Option.some.inj (hchan.symm.trans hticks))

theorem wakesAll_of_usedUp {k : Kernel} (h : ∀ q chan, chan ≠ .ticks →
    (k.table q).chan = some chan → (k.table q).sleepTicks ≤ 0) : WakesAll k := by
  intro chan hne q hstate hchan
  show (wakeupProc (some chan) (k.table q)).state = .RUNNABLE
  rcases wakeupProc_cases (some chan) (k.table q) with ⟨hno, -⟩ | ⟨-, -, ⟨hone, -⟩ | ⟨t, -, heq⟩⟩
  · exact absurd ⟨hstate, hchan⟩ hno
  · have := h q chan hne hchan
    omega
  · rw [heq]

/-- **Wakeups on other channels wake up all sleepers**, in every run in which no process is killed while its
counter of ticks is positive and no killed process sets it. -/
theorem wakeups_wake {m : Machine} (h : MachineReach noStaleTicks.allow m) (k : Kernel)
    (hk : CallsWakeup m k) : WakesAll k := by
  have htimed : ∀ q, Timed (m.view q) ∧ Placed (m.view q) := fun q => by
    refine h.process (P := fun v => Timed v ∧ Placed v) (fun _ _ => id) ?_
      (fun v v' hv hm => ⟨hv.1.move hm, hv.2.move hm⟩) q
    rintro p (rfl | rfl)
    · exact ⟨fun hpos => absurd hpos (lt_irrefl 0), .idle (by simp) rfl (by decide)⟩
    · exact ⟨fun hpos => absurd hpos (lt_irrefl 0), .idle (by simp) rfl (by decide)⟩
  have hused : ∀ q chan, chan ≠ .ticks → (m.kernel.table q).chan = some chan →
      (m.kernel.table q).sleepTicks ≤ 0 :=
    fun q chan hne hchan => (htimed q).1.usedUp (htimed q).2 hne hchan
  refine wakesAll_of_usedUp fun q chan hne hchan => ?_
  rcases hk with rfl | ⟨j, rfl⟩
  · exact hused q chan hne hchan
  · by_cases hq : q = j
    · subst hq
      rw [Kernel.modify_self] at hchan ⊢
      exact hused q chan hne hchan
    · rw [Kernel.modify_of_ne _ hq] at hchan ⊢
      exact hused q chan hne hchan

/-! ### A child that sleeps -/

/-- From the boot, `init` forks a child and is preempted; the child calls `sleep(1000)` and sleeps, and `init`
runs again, up to a system call. -/
def childSleeps : List Act :=
  List.replicate 67 .go ++ [.go, .syscall, .op .allocproc, .op (.startChild 1), .go, .go, .timer] ++
    [.go, .go, .sleepCall 1000, .go, .go, .go] ++ List.replicate 130 .go ++ [.go, .syscall]

/-- A test of the steps of a run in which nobody is killed. -/
def nobodyKilled (m : Machine) : Act → Bool
  | .op (.kill _) => false
  | .go => m.pc.current.all fun i => (m.kernel.table i).killed = 0
  | _ => true

theorem allow_of_nobodyKilled (m : Machine) (a : Act) (h : nobodyKilled m a) : noStaleTicks.allow m a := by
  unfold nobodyKilled at h
  split at h
  · cases h
  · intro i k n hpc _
    rw [hpc, Pc.current, Option.all_some, decide_eq_true_eq] at h
    exact .inl h
  · unfold Limits.allow
    split
    · rename_i hno _
      exact absurd rfl (hno _)
    · trivial
    · rename_i hno
      exact absurd rfl hno
    · trivial

/-- While the child counts its ticks, `init` sleeps on the disk and is woken up by it. -/
theorem wakeups_wake_init : ∃ m : Machine, ((m.kernel.table 0).state = .SLEEPING ∧
    (m.kernel.table 0).chan = some (.other 9) ∧ (m.kernel.table 1).state = .SLEEPING ∧
      (m.kernel.table 1).sleepTicks = 1000) ∧
    ((wakeup1 (some (.other 9)) m.kernel).table 0).state = .RUNNABLE := by
  have hrun : ((childSleeps ++ [Act.block (.other 9)]).foldlM
      (fun m a => if nobodyKilled m a then m.step a else none) bootMachine).any fun m : Machine =>
        (m.kernel.table 0).state = .SLEEPING ∧ (m.kernel.table 0).chan = some (.other 9) ∧
          (m.kernel.table 1).state = .SLEEPING ∧ (m.kernel.table 1).sleepTicks = 1000 := by decide +kernel
  obtain ⟨m, hm, hsleep⟩ := (Option.any_eq_true _ _).mp hrun
  have hstate := of_decide_eq_true hsleep
  have hreach : MachineReach noStaleTicks.allow m :=
    Reach.foldlM_checked allow_of_nobodyKilled _ bootMachine m (.start ⟨⟨rfl, rfl⟩, rfl⟩) hm
  exact ⟨m, hstate, wakeups_wake hreach m.kernel (.inl rfl) (.other 9) (by decide) 0 hstate.1 hstate.2.1⟩

/-- Then `init` kills the child, which leaves `sleep` and waits for the disk in `exit`. -/
def childKilled : List Act :=
  childSleeps ++ [.op (.kill 2), .go, .go, .timer, .go, .go, .go, .go, .block (.other 9)]

/-- **A process killed in a timed sleep stays asleep**: the wakeup of the disk only counts its ticks down. -/
theorem killed_sleeper_stays_asleep :
    ¬∀ m, MachineReach (fun _ _ => True) m → ∀ k, CallsWakeup m k → WakesAll k := by
  intro hall
  have hrun : (childKilled.foldlM (fun m a => if true then m.step a else none) bootMachine).any fun m =>
      (m.kernel.table 1).state = .SLEEPING ∧ (m.kernel.table 1).chan = some (.other 9) ∧
        ((wakeup1 (some (.other 9)) m.kernel).table 1).state = .SLEEPING := by decide +kernel
  obtain ⟨m, hm, hsleep⟩ := (Option.any_eq_true _ _).mp hrun
  obtain ⟨hstate, hchan, hstill⟩ := of_decide_eq_true hsleep
  have hreach : MachineReach (fun _ _ => True) m :=
    Reach.foldlM_checked (fun _ _ _ => trivial) childKilled bootMachine m (.start ⟨⟨rfl, rfl⟩, rfl⟩) hm
  have hwake := hall m hreach _ (.inl rfl) (.other 9) (by decide) 1 hstate hchan
  cases hstill.symm.trans hwake

end OperatingSystems.Sched.TimedSleep
