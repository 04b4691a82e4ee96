import OperatingSystems.Sched.Control
import OperatingSystems.Sched.Priority

/-!
# What a step does to one process

A step of the machine changes the running process, and through `wakeup1`, `kill`, `fork`, `wait` and the
accounting of the scheduler also others.  `Move` lists what can happen to one process, whoever causes it, so an
invariant of single processes is checked move by move.

* **`moves_step`** — every step of the machine takes every process along a sequence of moves.
* **`Reach.process`** — so what all moves keep holds of every process in every state of a run.
-/

namespace OperatingSystems.Sched

open GuardedRuns

/-- The process in slot `q`: its place, its slot of the table, and whether it runs. -/
structure View where
  ctl : Ctl
  proc : Proc
  running : Bool

/-- The process that runs. -/
def Pc.current : Pc → Option Slot
  | .switched i _ => some i
  | _ => none

def Machine.view (m : Machine) (q : Slot) : View :=
  ⟨m.ctl q, m.kernel.table q, m.pc.current = some q⟩

/-- Restrictions of a run: which processes may be killed, which arguments `sys_sleep` may have, and for which
processes it may store one. -/
structure Limits where
  kill : View → Prop
  call : BitVec 32 → Prop
  store : View → BitVec 32 → Prop

/-- The steps that a restriction allows. -/
def Limits.allow (G : Limits) (m : Machine) : Act → Prop
  | .op (.kill pid) => ∀ p, (firstSlot fun i => (m.kernel.table i).pid = pid) = some p → G.kill (m.view p)
  | .sleepCall n => G.call n
  | .go => ∀ i h n, m.pc = .switched i h → m.ctl i = .sleepArg n → G.store (m.view i) n
  | _ => True

/-- Where the running process goes without a change of its slot. -/
inductive Goes (G : Limits) (p : Proc) : Ctl → Ctl → Prop
  | syscall : p.killed = 0 → Goes G p .user .kernel
  | sleepCall (n : BitVec 32) : p.killed = 0 → G.call n → Goes G p .user (.sleepArg n)
  | forkret : Goes G p .forkret .user
  | kernel : Goes G p .kernel .sysret
  | leave {c : Ctl} : c = .preempted ∨ c = .sysret → p.killed = 0 → Goes G p c .user
  | exit {c : Ctl} : c = .user ∨ c = .preempted ∨ c = .sysret ∨ c = .kernel → Goes G p c .exiting
  | skip {n : BitVec 32} : n.toNat = 0 ∨ p.killed ≠ 0 → Goes G p (.sleepLock n) .sysret
  | slept {n : BitVec 32} {ticks0 : ℕ} : Goes G p (.sleepTest n ticks0) .sysret
  | wakeParent : Goes G p .exiting (.dying 0)
  | nextChild {j : ℕ} : Goes G p (.dying j) (.dying (j + 1))

/-- **What can happen to one process.** -/
inductive Move (G : Limits) : View → View → Prop
  /-- the numbers of the scheduler -/
  | numbers {c : Ctl} {p : Proc} {r : Bool} (nice priority ticks cpu : ℤ) :
      Move G ⟨c, p, r⟩ ⟨c, { p with nice, priority, ticks, cpu }, r⟩
  | adopt {c : Ctl} {p : Proc} {r : Bool} (parent : Option Slot) :
      Move G ⟨c, p, r⟩ ⟨c, { p with parent }, r⟩
  | wakeup {c : Ctl} {p : Proc} {r : Bool} (chan : Chan) :
      Move G ⟨c, p, r⟩ ⟨c, wakeupProc (some chan) p, r⟩
  /-- `exit` of a process without a parent -/
  | wakeNull {c : Ctl} {p : Proc} {r : Bool} : (r = true → c = .exiting) →
      Move G ⟨c, p, r⟩ ⟨c, wakeupProc none p, r⟩
  | kill {c : Ctl} {p : Proc} {r : Bool} : (r = true → c = .kernel) → G.kill ⟨c, p, r⟩ →
      Move G ⟨c, p, r⟩
        ⟨c, { p with killed := 1, state := if p.state = .SLEEPING then .RUNNABLE else p.state }, r⟩
  | alloc {c : Ctl} {p : Proc} {r : Bool} (pid : ℤ) : p.state = .UNUSED →
      Move G ⟨c, p, r⟩ ⟨c, { p with state := .EMBRYO, pid }, r⟩
  | start {c : Ctl} {p : Proc} {r : Bool} (parent : Slot) : p.state = .EMBRYO →
      Move G ⟨c, p, r⟩ ⟨.forkret, { p with
        parent := some parent, state := .RUNNABLE, nice := 0, priority := 0, ticks := 0,
        sleepTicks := 0, cpu := 0 }, r⟩
  | drop {c : Ctl} {p : Proc} {r : Bool} : p.state = .EMBRYO →
      Move G ⟨c, p, r⟩ ⟨c, { p with state := .UNUSED }, r⟩
  | reap {c : Ctl} {p : Proc} {r : Bool} : p.state = .ZOMBIE →
      Move G ⟨c, p, r⟩ ⟨c, { p with pid := 0, parent := none, killed := 0, state := .UNUSED }, r⟩
  | dispatch {c : Ctl} {p : Proc} : p.state = .RUNNABLE →
      Move G ⟨c, p, false⟩ ⟨c, { p with state := .RUNNING }, true⟩
  | yield {c : Ctl} {p : Proc} : p.state = .RUNNING → (c = .user → p.killed = 0) →
      Move G ⟨c, p, true⟩ ⟨if c = .user then .preempted else c, { p with state := .RUNNABLE }, false⟩
  | goes {c c' : Ctl} {p : Proc} : Goes G p c c' → Move G ⟨c, p, true⟩ ⟨c', p, true⟩
  | fault {p : Proc} : Move G ⟨.user, p, true⟩ ⟨.exiting, { p with killed := 1 }, true⟩
  | sleepArg {p : Proc} (n : BitVec 32) : G.store ⟨.sleepArg n, p, true⟩ n →
      Move G ⟨.sleepArg n, p, true⟩ ⟨.sleepStore n, { p with sleepTicks := n.toInt }, true⟩
  | sleepStore {p : Proc} (n : BitVec 32) :
      Move G ⟨.sleepStore n, p, true⟩ ⟨.sleepLock n, { p with state := .SLEEPING }, true⟩
  | sleepTicks {c : Ctl} {p : Proc} (n : BitVec 32) (ticks0 : ℕ) :
      c = .sleepLock n ∨ c = .sleepTest n ticks0 → p.killed = 0 →
      Move G ⟨c, p, true⟩
        ⟨.asleep (.sleepTest n ticks0), { p with chan := some .ticks, state := .SLEEPING }, false⟩
  | block {c : Ctl} {p : Proc} (chan : Chan) : c = .kernel ∨ c = .exiting ∨ c = .forkret →
      chan ≠ .ticks →
      Move G ⟨c, p, true⟩ ⟨.asleep c, { p with chan := some chan, state := .SLEEPING }, false⟩
  | tidyUp {c : Ctl} {p : Proc} : Move G ⟨.asleep c, p, true⟩ ⟨c, { p with chan := none }, true⟩
  | zombie {j : ℕ} {p : Proc} :
      Move G ⟨.dying j, p, true⟩ ⟨.dying j, { p with state := .ZOMBIE }, false⟩

/-- A sequence of moves. -/
abbrev Moves (G : Limits) : View → View → Prop := Relation.ReflTransGen (Move G)

variable {G : Limits} {m m' : Machine} {k : Kernel} {i q : Slot} {c : Ctl} {r : Bool} {h : ℤ}

/-! ### Operations on the table -/

theorem firstSlot_some {cond : Slot → Bool} {p : Slot} (h : firstSlot cond = some p) : cond p :=
  List.find?_some h

/-- An operation on one slot. -/
theorem moves_modify {f : Proc → Proc} {j : Slot}
    (hf : q = j → Moves G ⟨c, k.table q, r⟩ ⟨c, f (k.table q), r⟩) :
    Moves G ⟨c, k.table q, r⟩ ⟨c, (k.modify j f).table q, r⟩ := by
  by_cases hq : q = j
  · subst hq
    rw [Kernel.modify_self]
    exact hf rfl
  · rw [Kernel.modify_of_ne k hq]

theorem moves_wakeup1 (chan : Chan) :
    Moves G ⟨c, k.table q, r⟩ ⟨c, (wakeup1 (some chan) k).table q, r⟩ :=
  .single (.wakeup chan)

theorem moves_numbers (p : Proc) (nice priority ticks cpu : ℤ) :
    Moves G ⟨c, p, r⟩ ⟨c, { p with nice, priority, ticks, cpu }, r⟩ :=
  .single (.numbers nice priority ticks cpu)

theorem moves_account : Moves G ⟨c, k.table q, r⟩ ⟨c, (account i k).table q, r⟩ :=
  moves_modify fun _ => moves_numbers ..

theorem moves_updatepriorities :
    Moves G ⟨c, k.table q, r⟩ ⟨c, (updatepriorities k).table q, r⟩ := by
  show Moves G _ ⟨c, if (k.table q).state = .UNUSED then _ else _, r⟩
  split
  · exact .refl
  · exact moves_numbers ..

theorem moves_tick : Moves G ⟨c, k.table q, r⟩ ⟨c, (tick k).table q, r⟩ := by
  unfold tick
  refine Relation.ReflTransGen.trans ?_ (moves_wakeup1 .ticks)
  split
  · exact moves_updatepriorities (k := { k with ticks := (k.ticks + 1) % 2 ^ 32 })
  · exact .refl

theorem moves_abandonChild (j : Slot) :
    Moves G ⟨c, k.table q, r⟩ ⟨c, (abandonChild i k j).table q, r⟩ := by
  unfold abandonChild
  split
  · have hadopt : Moves G ⟨c, k.table q, r⟩
        ⟨c, (k.modify j fun p => { p with parent := some k.initproc }).table q, r⟩ :=
      moves_modify fun _ => .single (.adopt _)
    simp only
    split
    · exact hadopt.trans (moves_wakeup1 _)
    · exact hadopt
  · exact .refl

/-- **An operation of a system call** moves every process, and a child to `forkret`. -/
theorem moves_op {op : Op} (hop : op.inCall) (hrun : m.pc = .switched i h)
    (hctl : m.ctl i = .kernel ∨ op.inExit) (hG : G.allow m (.op op)) :
    Moves G (m.view q) ((m.doOp i op).view q) := by
  cases op with
  | allocproc =>
    show Moves G _ ⟨m.ctl q, (((allocproc m.kernel).map Prod.snd).getD m.kernel).table q, _⟩
    unfold allocproc
    cases hslot : firstSlot fun i => (m.kernel.table i).state = .UNUSED with
    | none => exact .refl
    | some p =>
      refine moves_modify (f := fun p => { p with state := .EMBRYO, pid := m.kernel.nextpid })
        fun hq => .single (.alloc _ ?_)
      subst hq
      simpa using firstSlot_some hslot
  | startChild np =>
    show Moves G _ ⟨(if _ then _ else _ : Slot → Ctl) q, (if _ then _ else _ : Kernel).table q, _⟩
    by_cases hst : (m.kernel.table np).state = .EMBRYO
    · rw [if_pos hst, if_pos hst]
      by_cases hq : q = np
      · subst hq
        rw [Function.update_self, startChild, Kernel.modify_self]
        exact .single (.start i hst)
      · rw [Function.update_of_ne hq, startChild, Kernel.modify_of_ne _ hq]
        exact .refl
    · rw [if_neg hst, if_neg hst]
      exact .refl
  | dropChild np =>
    show Moves G _ ⟨m.ctl q, (if _ then _ else _ : Kernel).table q, _⟩
    split
    · rename_i hst
      exact moves_modify (k := m.kernel) fun hq => .single (.drop (hq ▸ hst))
    · exact .refl
  | reap =>
    show Moves G _ ⟨m.ctl q, ((reap i m.kernel).getD m.kernel).table q, _⟩
    unfold reap
    cases hslot : firstSlot fun j => (m.kernel.table j).parent = some i ∧ (m.kernel.table j).state = .ZOMBIE with
    | none => exact .refl
    | some p =>
      refine moves_modify
        (f := fun p => { p with pid := 0, parent := none, killed := 0, state := .UNUSED })
        fun hq => .single (.reap ?_)
      subst hq
      have := firstSlot_some hslot
      simp only [Bool.decide_and, Bool.and_eq_true, decide_eq_true_eq] at this
      exact this.2
  | wakeup chan => exact .single (.wakeup chan)
  | kill pid =>
    show Moves G _ ⟨m.ctl q, (kill pid m.kernel).table q, _⟩
    unfold kill
    cases hslot : firstSlot fun i => (m.kernel.table i).pid = pid with
    | none => exact .refl
    | some p =>
      refine moves_modify (k := m.kernel) fun hq => .single (.kill (fun hr => ?_) ?_)
      · have hcur : i = q := by simpa [hrun, Pc.current] using hr
        exact hcur ▸ hctl.resolve_right (by simp [Op.inExit])
      · exact hq ▸ hG p hslot
  | nice niceValue =>
    show Moves G _ ⟨m.ctl q, (sys_nice i niceValue m.kernel).table q, _⟩
    unfold sys_nice
    split
    · exact .refl
    · exact moves_modify (k := m.kernel) fun _ => moves_numbers ..
  | sleepStart n => cases hop
  | tidyUp => cases hop

/-! ### Steps of the running process -/

theorem view_self (hrun : m.pc = .switched i h) : m.view i = ⟨m.ctl i, m.kernel.table i, true⟩ := by
  rw [Machine.view, hrun, Pc.current, decide_eq_true rfl]

theorem view_other (hrun : m.pc = .switched i h) (hq : q ≠ i) :
    m.view q = ⟨m.ctl q, m.kernel.table q, false⟩ := by
  rw [Machine.view, hrun, Pc.current, decide_eq_false fun heq => hq (Option.some.inj heq).symm]

/-- The other processes move along with the table. -/
def OthersMove (G : Limits) (m : Machine) (i : Slot) (k : Kernel) : Prop :=
  ∀ q, q ≠ i → Moves G ⟨m.ctl q, m.kernel.table q, false⟩ ⟨m.ctl q, k.table q, false⟩

theorem othersMove_refl : OthersMove G m i m.kernel := fun _ _ => .refl

theorem othersMove_modify (f : Proc → Proc) : OthersMove G m i (m.kernel.modify i f) := by
  intro q hq
  rw [Kernel.modify_of_ne _ hq]

/-- The process goes on and still runs. -/
theorem moves_goTo (hrun : m.pc = .switched i h) (hother : OthersMove G m i k)
    (hi : Moves G ⟨m.ctl i, m.kernel.table i, true⟩ ⟨c, k.table i, true⟩) (q : Slot) :
    Moves G (m.view q) ((m.goTo i k c).view q) := by
  have hrun' : (m.goTo i k c).pc = .switched i h := hrun
  by_cases hq : q = i
  · subst hq
    rw [view_self hrun, view_self hrun']
    show Moves G _ ⟨Function.update m.ctl q c q, k.table q, true⟩
    rw [Function.update_self]
    exact hi
  · rw [view_other hrun hq, view_other hrun' hq]
    show Moves G _ ⟨Function.update m.ctl i c q, k.table q, false⟩
    rw [Function.update_of_ne hq]
    exact hother q hq

/-- The process gives up the CPU. -/
theorem moves_sched (hrun : m.pc = .switched i h) (hother : OthersMove G m i k)
    (hi : Moves G ⟨m.ctl i, m.kernel.table i, true⟩ ⟨c, k.table i, false⟩) (q : Slot) :
    Moves G (m.view q) ((m.sched i h k c).view q) := by
  have hview : (m.sched i h k c).view q =
      ⟨Function.update m.ctl i c q, (account i k).table q, false⟩ := rfl
  rw [hview]
  refine Relation.ReflTransGen.trans ?_ moves_account
  by_cases hq : q = i
  · subst hq
    rw [view_self hrun, Function.update_self]
    exact hi
  · rw [view_other hrun hq, Function.update_of_ne hq]
    exact hother q hq

/-- Only the table changes. -/
theorem moves_keep (hk : ∀ c r, Moves G ⟨c, m.kernel.table q, r⟩ ⟨c, k.table q, r⟩) :
    Moves G (m.view q) (({ m with kernel := k } : Machine).view q) :=
  hk _ _

theorem callExit_eq (hm : m.callExit i k = some m') : m' = m.goTo i k .exiting := by
  unfold Machine.callExit at hm
  split at hm
  · cases hm
  · exact (Option.some.inj hm).symm

/-- A test of `killed` on the way to `c`. -/
theorem moves_unlessKilled (hrun : m.pc = .switched i h)
    (hexit : m.ctl i = .user ∨ m.ctl i = .preempted ∨ m.ctl i = .sysret ∨ m.ctl i = .kernel)
    (hgo : (m.kernel.table i).killed = 0 → Goes G (m.kernel.table i) (m.ctl i) c)
    (hm : (if (m.kernel.table i).killed ≠ 0 then m.callExit i m.kernel
      else some (m.goTo i m.kernel c)) = some m') (q : Slot) : Moves G (m.view q) (m'.view q) := by
  split at hm
  · rw [callExit_eq hm]
    exact moves_goTo hrun othersMove_refl (.single (.goes (.exit hexit))) q
  · rename_i hk
    rw [← Option.some.inj hm]
    exact moves_goTo hrun othersMove_refl (.single (.goes (hgo (not_not.mp hk)))) q

theorem moves_sleepLoop (hrun : m.pc = .switched i h) {n : BitVec 32} {ticks0 : ℕ}
    (hctl : m.ctl i = .sleepLock n ∧ ticks0 = m.kernel.ticks ∨ m.ctl i = .sleepTest n ticks0)
    (q : Slot) :
    Moves G (m.view q) ((m.sleepLoop i h n ticks0).view q) := by
  have hret : (n.toNat = 0 ∨ (m.kernel.table i).killed ≠ 0 ∨ m.ctl i = .sleepTest n ticks0) →
      Goes G (m.kernel.table i) (m.ctl i) .sysret := by
    intro hwhy
    rcases hctl with ⟨hctl, -⟩ | hctl
    · rw [hctl] at hwhy ⊢
      exact .skip (hwhy.imp id fun hk => hk.resolve_right (by simp))
    · rw [hctl]
      exact .slept
  unfold Machine.sleepLoop
  split
  · split
    · rename_i hk
      exact moves_goTo hrun othersMove_refl (.single (.goes (hret (.inr (.inl hk))))) q
    · rename_i hk
      refine moves_sched hrun (othersMove_modify _) ?_ q
      show Moves G _ ⟨_, (m.kernel.modify i _).table i, false⟩
      rw [Kernel.modify_self]
      exact .single (.sleepTicks n ticks0 (hctl.imp (·.1) id) (not_not.mp hk))
  · rename_i hlt
    refine moves_goTo hrun othersMove_refl (.single (.goes (hret ?_))) q
    rcases hctl with ⟨-, hticks⟩ | hctl
    · -- the first test of the loop compares with `0`
      rw [hticks, sub_self, Int.zero_emod] at hlt
      exact .inl (by omega)
    · exact .inr (.inr hctl)

/-- **The running process goes on.** -/
theorem moves_goOn (hrun : m.pc = .switched i h) (hG : G.allow m .go) (hm : m.goOn i h = some m')
    (q : Slot) : Moves G (m.view q) (m'.view q) := by
  unfold Machine.goOn at hm
  cases hctl : m.ctl i with
  | user => rw [hctl] at hm; cases hm
  | forkret =>
    rw [hctl] at hm
    rw [← Option.some.inj hm]
    exact moves_goTo hrun othersMove_refl (hctl ▸ .single (.goes .forkret)) q
  | preempted =>
    rw [hctl] at hm
    exact moves_unlessKilled hrun (by simp [hctl])
      (fun hk => .leave (.inl hctl) hk) hm q
  | kernel =>
    rw [hctl] at hm
    rw [← Option.some.inj hm]
    exact moves_goTo hrun othersMove_refl (hctl ▸ .single (.goes .kernel)) q
  | sysret =>
    rw [hctl] at hm
    exact moves_unlessKilled hrun (by simp [hctl]) (fun hk => .leave (.inr hctl) hk) hm q
  | sleepArg n =>
    rw [hctl] at hm
    rw [← Option.some.inj hm]
    refine moves_goTo hrun (othersMove_modify _) ?_ q
    have hstore := hG i h n hrun hctl
    rw [view_self hrun, hctl] at hstore
    rw [Kernel.modify_self, hctl]
    exact .single (.sleepArg n hstore)
  | sleepStore n =>
    rw [hctl] at hm
    rw [← Option.some.inj hm]
    refine moves_goTo hrun (othersMove_modify _) ?_ q
    rw [Kernel.modify_self, hctl]
    exact .single (.sleepStore n)
  | sleepLock n =>
    rw [hctl] at hm
    rw [← Option.some.inj hm]
    exact moves_sleepLoop hrun (.inl ⟨hctl, rfl⟩) q
  | sleepTest n ticks0 =>
    rw [hctl] at hm
    rw [← Option.some.inj hm]
    exact moves_sleepLoop hrun (.inr hctl) q
  | exiting =>
    rw [hctl] at hm
    rw [← Option.some.inj hm]
    cases hp : (m.kernel.table i).parent with
    | some parent =>
      refine moves_goTo hrun (fun q _ => moves_wakeup1 (.proc parent)) ?_ q
      rw [hctl]
      exact (moves_wakeup1 (.proc parent)).trans (.single (.goes .wakeParent))
    | none =>
      refine moves_goTo hrun (fun q _ => .single (.wakeNull (by simp))) ?_ q
      rw [hctl]
      exact .trans (.single (.wakeNull fun _ => rfl)) (.single (.goes .wakeParent))
  | dying j =>
    rw [hctl] at hm
    simp only at hm
    split at hm
    · rw [← Option.some.inj hm]
      refine moves_goTo hrun (fun q _ => moves_abandonChild _) ?_ q
      rw [hctl]
      exact (moves_abandonChild _).trans (.single (.goes .nextChild))
    · rw [← Option.some.inj hm]
      refine moves_sched hrun (othersMove_modify _) ?_ q
      rw [Kernel.modify_self, hctl]
      exact .single .zombie
  | asleep next =>
    rw [hctl] at hm
    rw [← Option.some.inj hm]
    refine moves_goTo hrun (othersMove_modify _) ?_ q
    rw [Kernel.modify_self, hctl]
    exact .single .tidyUp

/-- An interrupt changes the table, and then the process goes on, yields or exits. -/
theorem moves_timer (hrun : m.pc = .switched i h) (hm : m.timer i h = some m') (q : Slot) :
    Moves G (m.view q) (m'.view q) := by
  have htick : OthersMove G m i (tick m.kernel) := fun _ _ => moves_tick
  unfold Machine.timer at hm
  simp only at hm
  split at hm
  · rename_i hkilled
    rw [callExit_eq hm]
    refine moves_goTo hrun htick ?_ q
    exact moves_tick.trans (.single (.goes (.exit (.inl hkilled.1))))
  · rename_i hkilled
    split at hm
    · rename_i hstate
      rw [← Option.some.inj hm]
      refine moves_sched hrun (fun q hq => ?_) ?_ q
      · show Moves G _ ⟨_, ((tick m.kernel).modify i _).table q, false⟩
        rw [Kernel.modify_of_ne _ hq]
        exact htick q hq
      · show Moves G _ ⟨_, ((tick m.kernel).modify i _).table i, false⟩
        rw [Kernel.modify_self]
        refine moves_tick.trans (.single (.yield hstate fun huser => ?_))
        exact not_not.mp fun hk => hkilled ⟨huser, hk⟩
    · rw [← Option.some.inj hm]
      exact moves_keep fun c r => moves_tick

theorem moves_device (hrun : m.pc = .switched i h) {addr : ℕ} (hm : m.device i addr = some m')
    (q : Slot) : Moves G (m.view q) (m'.view q) := by
  unfold Machine.device at hm
  simp only at hm
  split at hm
  · rename_i hkilled
    rw [callExit_eq hm]
    refine moves_goTo hrun (fun q _ => moves_wakeup1 _) ?_ q
    exact (moves_wakeup1 _).trans (.single (.goes (.exit (.inl hkilled.1))))
  · rw [← Option.some.inj hm]
    exact moves_keep fun c r => moves_wakeup1 _

/-- **Every step of the running process moves all processes.** -/
theorem moves_run (hrun : m.pc = .switched i h) {a : Act} (hG : G.allow m a)
    (hm : m.run i h a = some m') (q : Slot) : Moves G (m.view q) (m'.view q) := by
  cases a with
  | go => exact moves_goOn hrun hG hm q
  | timer =>
    rw [Machine.run, Option.ite_none_right_eq_some] at hm
    exact moves_timer hrun hm.2 q
  | device addr =>
    rw [Machine.run, Option.ite_none_right_eq_some] at hm
    exact moves_device hrun hm.2 q
  | fault =>
    rw [Machine.run, Option.ite_none_right_eq_some] at hm
    rw [callExit_eq hm.2]
    refine moves_goTo hrun (othersMove_modify _) ?_ q
    rw [Kernel.modify_self, hm.1]
    exact .single .fault
  | syscall =>
    rw [Machine.run, Option.ite_none_right_eq_some] at hm
    exact moves_unlessKilled hrun (.inl hm.1) (fun hk => hm.1 ▸ .syscall hk) hm.2 q
  | sleepCall n =>
    rw [Machine.run, Option.ite_none_right_eq_some] at hm
    exact moves_unlessKilled hrun (.inl hm.1) (fun hk => hm.1 ▸ .sleepCall n hk hG) hm.2 q
  | exitCall =>
    rw [Machine.run, Option.ite_none_right_eq_some] at hm
    rw [callExit_eq hm.2]
    exact moves_goTo hrun othersMove_refl (.single (.goes (.exit (by simp [hm.1])))) q
  | op op =>
    rw [Machine.run, Option.ite_none_right_eq_some] at hm
    obtain ⟨hop, hm⟩ := hm
    rw [← Option.some.inj hm]
    rcases hop with ⟨hctl, hop⟩ | ⟨-, hop⟩
    · exact moves_op hop hrun (.inl hctl) hG
    · refine moves_op ?_ hrun (.inr hop) hG
      cases op with
      | wakeup chan => cases chan <;> exact hop
      | _ => cases hop
  | block chan =>
    rw [Machine.run, Option.ite_none_right_eq_some] at hm
    obtain ⟨hmay, hm⟩ := hm
    rw [← Option.some.inj hm]
    have hplace : (m.ctl i = .kernel ∨ m.ctl i = .exiting ∨ m.ctl i = .forkret) ∧ chan ≠ .ticks := by
      cases hctl : m.ctl i <;> cases chan <;> simp [hctl, Ctl.maySleep] at hmay ⊢
    refine moves_sched hrun (othersMove_modify _) ?_ q
    show Moves G _ ⟨_, (m.kernel.modify i _).table i, false⟩
    rw [Kernel.modify_self]
    exact .single (.block chan hplace.1 hplace.2)

/-! ### Steps of the machine -/

/-- The scheduler moves the process that it switches to, and no other. -/
theorem moves_scheduler {s : State} (hcur : m.pc.current = none) (hs : go m.toState = some s) (q : Slot) :
    Moves G (m.view q) (({ m with toState := s } : Machine).view q) := by
  have hidle : m.view q = ⟨m.ctl q, m.kernel.table q, false⟩ := by
    rw [Machine.view, hcur]
    rfl
  unfold go at hs
  rw [hidle]
  cases hpc : m.pc with
  | idle =>
    rw [hpc] at hs
    rw [← Option.some.inj hs]
    exact .refl
  | scan i h =>
    rw [hpc] at hs
    simp only at hs
    split at hs
    · rw [← Option.some.inj hs]
      exact .refl
    · rw [← Option.some.inj hs]
      exact .refl
  | run i h =>
    rw [hpc] at hs
    simp only at hs
    split at hs
    · rename_i hi
      split at hs
      · rename_i hpick
        have hrun : ({ m with toState := s } : Machine).pc = .switched ⟨i, hi⟩ h := by
          rw [← Option.some.inj hs]
        have htable : s.kernel = m.kernel.modify ⟨i, hi⟩ fun p => { p with state := .RUNNING } := by
          rw [← Option.some.inj hs]
        by_cases hq : q = ⟨i, hi⟩
        · subst hq
          rw [view_self hrun, htable, Kernel.modify_self]
          exact .single (.dispatch hpick.1)
        · rw [view_other hrun hq, htable, Kernel.modify_of_ne _ hq]
      · rw [← Option.some.inj hs]
        exact .refl
    · rw [← Option.some.inj hs]
      exact .refl
  | switched i h =>
    rw [hpc] at hs
    cases hs

/-- **Every step of the machine moves every process.** -/
theorem moves_step {a : Act} (hG : G.allow m a) (hm : m.step a = some m') (q : Slot) :
    Moves G (m.view q) (m'.view q) := by
  unfold Machine.step at hm
  split at hm
  · rename_i i h hrun
    exact moves_run hrun hG hm q
  · rename_i pc hpc
    have hcur : m.pc.current = none := by
      cases hpc' : m.pc with
      | switched i h => exact absurd hpc' (hpc i h)
      | _ => rfl
    split at hm
    · obtain ⟨s, hs, hm⟩ := Option.map_eq_some_iff.mp hm
      rw [← hm]
      exact moves_scheduler hcur hs q
    · rw [Option.ite_none_right_eq_some] at hm
      rw [← Option.some.inj hm.2]
      exact moves_keep fun c r => moves_tick
    · rw [Option.ite_none_right_eq_some] at hm
      rw [← Option.some.inj hm.2]
      exact moves_keep fun c r => moves_wakeup1 _
    · cases hm

/-! ### Runs -/

/-- The machine after `userinit`. -/
def Booted (m : Machine) : Prop :=
  Priority.boot m.toState ∧ m.ctl = fun _ => .forkret

/-- The machine from which the examples run. -/
def bootMachine : Machine := ⟨⟨Priority.bootKernel, .idle, Priority.bootKernel.table⟩, fun _ => .forkret⟩

/-- The runs of the machine whose steps meet `guard`. -/
abbrev MachineReach (guard : Machine → Act → Prop) : Machine → Prop :=
  Reach Booted (fun m a m' => m.step a = some m') guard

/-- **What all moves keep holds of every process** in every state of a run. -/
theorem MachineReach.process {P : View → Prop} {guard : Machine → Act → Prop}
    (hm : MachineReach guard m) (hguard : ∀ m a, guard m a → G.allow m a)
    (hboot : ∀ p, p = Priority.bootKernel.table 0 ∨ p = Priority.bootKernel.table 1 →
      P ⟨.forkret, p, false⟩)
    (hmove : ∀ v v', P v → Move G v v' → P v') (q : Slot) : P (m.view q) := by
  have hstart : ∀ m, Booted m → ∀ q, P (m.view q) := by
    intro m ⟨⟨hkernel, hpc⟩, hctl⟩ q
    have hview : m.view q = ⟨.forkret, Priority.bootKernel.table q, false⟩ := by
      rw [Machine.view, hkernel, hpc, hctl]
      rfl
    rw [hview]
    by_cases hq : q = 0
    · exact hboot _ (.inl (hq ▸ rfl))
    · exact hboot _ (.inr (by simp [Priority.bootKernel, hq, NPROC]))
  exact Reach.slotwise hstart (fun m a m' hg hs q => moves_step (hguard m a hg) hs q) hmove hm q

/-! ### Where processes sleep -/

/-- What `wakeup1` does to one process: nothing, or one tick less, or it becomes runnable. -/
theorem wakeupProc_cases (chan : Option Chan) (p : Proc) :
    (¬(p.state = .SLEEPING ∧ p.chan = chan) ∧ wakeupProc chan p = p) ∨
    (p.state = .SLEEPING ∧ p.chan = chan ∧
      (1 < p.sleepTicks ∧ wakeupProc chan p = { p with sleepTicks := p.sleepTicks - 1 } ∨
        ∃ t ≤ 0, wakeupProc chan p = { p with sleepTicks := t, state := .RUNNABLE })) := by
  unfold wakeupProc
  by_cases hp : p.state = .SLEEPING ∧ p.chan = chan
  · rw [if_pos hp]
    refine .inr ⟨hp.1, hp.2, ?_⟩
    by_cases hpos : 0 < p.sleepTicks
    · simp only [gt_iff_lt, if_pos hpos]
      by_cases hone : p.sleepTicks - 1 ≤ 0
      · exact .inr ⟨p.sleepTicks - 1, hone, by rw [if_pos hone]⟩
      · exact .inl ⟨by omega, by rw [if_neg hone]⟩
    · simp only [gt_iff_lt, if_neg hpos]
      exact .inr ⟨p.sleepTicks, by omega, by rw [if_pos (by omega)]⟩
  · rw [if_neg hp]
    exact .inl ⟨hp, rfl⟩

/-- The places from which `sleep` is called. -/
def Ctl.resumes : Ctl → Prop
  | .kernel | .exiting | .forkret | .sleepTest _ _ => True
  | _ => False

theorem Ctl.resumes.awake (hc : c.resumes) : ∀ d, c ≠ .asleep d := by
  rintro d rfl
  exact hc

/-- A process has a channel only inside `sleep`, and sleeps there on one until it is woken up; a free slot does
not run. -/
structure Placed (v : View) : Prop where
  live : v.running = true →
    v.proc.state = .RUNNING ∨ v.proc.state = .SLEEPING ∨ v.proc.state = .RUNNABLE
  awake : (∀ c, v.ctl ≠ .asleep c) → v.proc.chan = none
  asleep : ∀ c, v.ctl = .asleep c → c.resumes ∧ (v.proc.state = .RUNNING ∨
    v.running = false ∧ (v.proc.state = .SLEEPING ∨ v.proc.state = .RUNNABLE))
  resting : v.running = false → v.proc.state = .SLEEPING → v.proc.chan ≠ none

/-- Neither the state nor the channel of the process changes. -/
theorem Placed.same {p p' : Proc} (h : Placed ⟨c, p, r⟩) (hstate : p'.state = p.state)
    (hchan : p'.chan = p.chan) : Placed ⟨c, p', r⟩ := by
  obtain ⟨live, awake, asleep, resting⟩ := h
  exact ⟨hstate ▸ live, hchan ▸ awake, hstate ▸ asleep, hstate ▸ hchan ▸ resting⟩

/-- A sleeping process becomes runnable. -/
theorem Placed.wake {p p' : Proc} (h : Placed ⟨c, p, r⟩) (hchan : p'.chan = p.chan)
    (hself : r = true → ∀ d, c ≠ .asleep d) (hstate : p'.state = .RUNNABLE) : Placed ⟨c, p', r⟩ := by
  refine ⟨fun _ => .inr (.inr hstate), hchan ▸ h.awake, fun d hc => ⟨(h.asleep d hc).1, ?_⟩, fun _ hs => ?_⟩
  · cases r with
    | false => exact .inr ⟨rfl, .inr hstate⟩
    | true => exact absurd hc (hself rfl d)
  · rw [hstate] at hs
    cases hs

/-- A running process outside `sleep`. -/
theorem Placed.run {p : Proc} (hc : ∀ d, c ≠ .asleep d) (hchan : p.chan = none)
    (hstate : p.state = .RUNNING ∨ p.state = .SLEEPING ∨ p.state = .RUNNABLE) : Placed ⟨c, p, true⟩ :=
  ⟨fun _ => hstate, fun _ => hchan, fun d hd => absurd hd (hc d), fun hr => (by cases hr)⟩

/-- A process that neither runs nor sleeps. -/
theorem Placed.idle {p : Proc} (hc : ∀ d, c ≠ .asleep d) (hchan : p.chan = none)
    (hstate : p.state ≠ .SLEEPING) : Placed ⟨c, p, false⟩ :=
  ⟨fun hr => (by cases hr), fun _ => hchan, fun d hd => absurd hd (hc d), fun _ hs => absurd hs hstate⟩

/-- A process that has gone to sleep. -/
theorem Placed.rest {p : Proc} (hc : c.resumes) (hchan : p.chan ≠ none)
    (hstate : p.state = .SLEEPING) : Placed ⟨.asleep c, p, false⟩ := by
  refine ⟨fun hr => (by cases hr), fun h => absurd rfl (h c), fun d hd => ⟨?_, .inr ⟨rfl, .inl hstate⟩⟩,
    fun _ _ => hchan⟩
  cases hd
  exact hc

/-- A slot without a live process. -/
theorem Placed.notLive {p : Proc} (h : Placed ⟨c, p, r⟩)
    (hstate : p.state = .UNUSED ∨ p.state = .EMBRYO ∨ p.state = .ZOMBIE) :
    r = false ∧ (∀ d, c ≠ .asleep d) ∧ p.chan = none := by
  have hother : p.state ≠ .RUNNING ∧ p.state ≠ .SLEEPING ∧ p.state ≠ .RUNNABLE := by
    rcases hstate with hs | hs | hs <;> rw [hs] <;> decide
  have hc : ∀ d, c ≠ .asleep d := by
    intro d hd
    rcases (h.asleep d hd).2 with hs | ⟨-, hs | hs⟩
    · exact hother.1 hs
    · exact hother.2.1 hs
    · exact hother.2.2 hs
  refine ⟨?_, hc, h.awake hc⟩
  by_contra hr
  rcases h.live (by simpa using hr) with hs | hs | hs
  · exact hother.1 hs
  · exact hother.2.1 hs
  · exact hother.2.2 hs

theorem Goes.awake {p : Proc} {c' : Ctl} (h : Goes G p c c') :
    (∀ d, c ≠ .asleep d) ∧ ∀ d, c' ≠ .asleep d := by
  cases h with
  | leave hc => rcases hc with rfl | rfl <;> simp
  | exit hc => rcases hc with rfl | rfl | rfl | rfl <;> simp
  | _ => simp

theorem Placed.wakeup {p : Proc} (h : Placed ⟨c, p, r⟩) (chan : Option Chan) :
    Placed ⟨c, wakeupProc chan p, r⟩ := by
  rcases wakeupProc_cases chan p with ⟨-, heq⟩ | ⟨hsleep, hchan, ⟨-, heq⟩ | ⟨t, -, heq⟩⟩
  · rw [heq]
    exact h
  · rw [heq]
    exact h.same rfl rfl
  · rw [heq]
    refine h.wake rfl (fun hr d hd => ?_) rfl
    -- a process inside `sleep` that runs does not sleep any more
    rcases (h.asleep d hd).2 with hs | ⟨hr', -⟩
    · cases hsleep.symm.trans hs
    · cases hr.symm.trans hr'

/-- **Every move keeps processes placed.** -/
theorem Placed.move {v v' : View} (h : Placed v) (hm : Move G v v') : Placed v' := by
  cases hm with
  | numbers => exact h.same rfl rfl
  | adopt => exact h.same rfl rfl
  | wakeup chan => exact h.wakeup _
  | wakeNull => exact h.wakeup _
  | @kill c p r hself =>
    by_cases hs : p.state = .SLEEPING
    · exact h.wake rfl (fun hr d => hself hr ▸ by simp) (if_pos hs)
    · exact h.same (if_neg hs) rfl
  | alloc pid hstate =>
    obtain ⟨rfl, hc, hchan⟩ := h.notLive (.inl hstate)
    exact .idle hc hchan (by simp)
  | start parent hstate =>
    obtain ⟨rfl, -, hchan⟩ := h.notLive (.inr (.inl hstate))
    exact .idle (by simp) hchan (by simp)
  | drop hstate =>
    obtain ⟨rfl, hc, hchan⟩ := h.notLive (.inr (.inl hstate))
    exact .idle hc hchan (by simp)
  | reap hstate =>
    obtain ⟨rfl, hc, hchan⟩ := h.notLive (.inr (.inr hstate))
    exact .idle hc hchan (by simp)
  | dispatch hstate =>
    exact ⟨fun _ => .inl rfl, h.awake, fun d hd => ⟨(h.asleep d hd).1, .inl rfl⟩, fun hr => (by cases hr)⟩
  | @yield c p hstate =>
    by_cases huser : c = .user
    · subst huser
      exact .idle (by simp) (h.awake (by simp)) (by simp)
    · rw [if_neg huser]
      exact ⟨fun hr => (by cases hr), h.awake, fun d hd => ⟨(h.asleep d hd).1, .inr ⟨rfl, .inr rfl⟩⟩,
        fun _ hs => (by cases hs)⟩
  | goes hgo => exact .run hgo.awake.2 (h.awake hgo.awake.1) (h.live rfl)
  | fault => exact .run (by simp) (h.awake (by simp)) (h.live rfl)
  | sleepArg n => exact .run (by simp) (h.awake (by simp)) (h.live rfl)
  | sleepStore n => exact .run (by simp) (h.awake (by simp)) (.inr (.inl rfl))
  | sleepTicks n ticks0 => exact .rest trivial (by simp) rfl
  | block chan hplace =>
    refine .rest ?_ (by simp) rfl
    rcases hplace with rfl | rfl | rfl <;> trivial
  | @tidyUp c p =>
    obtain ⟨hc, hstate⟩ := h.asleep c rfl
    exact .run hc.awake rfl (.inl (hstate.resolve_right fun hr => by cases hr.1))
  | zombie => exact .idle (by simp) (h.awake (by simp)) (by simp)

end OperatingSystems.Sched
