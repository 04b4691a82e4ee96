import OperatingSystems.Lib.ParentTree
import OperatingSystems.Sched.Moves

/-!
# The family of processes

`fork` makes children, `exit` passes them to `init`, and `wait` takes a child that has exited off the table.

* **`Family`** — every process descends from `init` by processes that have not exited, and no number is given
  to two processes.
* **`FamilyInv.step`** — every step of the machine keeps it.
* **`family_of_init`** — so in every state of a run a process that has exited has a parent that can wait for it.
-/

namespace OperatingSystems.Sched

open GuardedRuns ParentTree

/-- How the state of a process matters to its family. -/
inductive Standing
  | free | embryo | alive | zombie
deriving DecidableEq

def ProcState.standing : ProcState → Standing
  | .UNUSED => .free
  | .EMBRYO => .embryo
  | .ZOMBIE => .zombie
  | .SLEEPING | .RUNNABLE | .RUNNING => .alive

def Kernel.standing (k : Kernel) (q : Slot) : Standing := (k.table q).state.standing

/-- The process has been started and has not exited. -/
def Kernel.Alive (k : Kernel) (q : Slot) : Prop := k.standing q = .alive

def Kernel.parent (k : Kernel) (q : Slot) : Option Slot := (k.table q).parent

/-- A chain of parents leads from the process to `init`, and none of them has exited. -/
def Kernel.Descends (k : Kernel) (q : Slot) : Prop := Rooted k.parent k.Alive k.initproc q

/-- **The family of processes.** -/
structure Family (k : Kernel) : Prop where
  init_alive : k.Alive k.initproc
  descends : ∀ q, k.standing q = .alive ∨ k.standing q = .zombie → k.Descends q

/-- **No number is given to two processes**, and it is taken from a slot only when a parent has waited. -/
structure Numbered (k : Kernel) : Prop where
  lt : ∀ q, (k.table q).pid < k.nextpid
  nonneg : ∀ q, 0 ≤ (k.table q).pid
  pos : ∀ q, k.standing q ≠ .free → 0 < (k.table q).pid
  unique : ∀ p q, (k.table p).pid = (k.table q).pid → p = q ∨ (k.table p).pid = 0

/-- Nothing has changed that matters to the family. -/
structure Same (k k' : Kernel) : Prop where
  standing : ∀ q, k'.standing q = k.standing q
  parent : k'.parent = k.parent
  pid : ∀ q, (k'.table q).pid = (k.table q).pid
  nextpid : k'.nextpid = k.nextpid
  initproc : k'.initproc = k.initproc

variable {m m' : Machine} {k k' k₁ k₂ : Kernel} {i q np cur : Slot} {h : ℤ} {c : Ctl} {a : Act} {j : ℕ}

theorem Same.alive (hs : Same k k') (q : Slot) : k'.Alive q ↔ k.Alive q := by
  unfold Kernel.Alive
  rw [hs.standing q]

theorem Same.refl (k : Kernel) : Same k k :=
  ⟨fun _ => rfl, rfl, fun _ => rfl, rfl, rfl⟩

theorem Same.trans (h₁ : Same k k₁) (h₂ : Same k₁ k₂) : Same k k₂ where
  standing q := (h₂.standing q).trans (h₁.standing q)
  parent := h₂.parent.trans h₁.parent
  pid q := (h₂.pid q).trans (h₁.pid q)
  nextpid := h₂.nextpid.trans h₁.nextpid
  initproc := h₂.initproc.trans h₁.initproc

theorem Family.same (hf : Family k) (hs : Same k k') : Family k' where
  init_alive := by
    rw [hs.initproc]
    exact (hs.alive _).mpr hf.init_alive
  descends q hq := by
    rw [hs.standing q] at hq
    unfold Kernel.Descends
    rw [hs.parent, hs.initproc]
    exact (hf.descends q hq).of_alive fun _ p _ hp => (hs.alive p).mpr hp

theorem Numbered.same (hn : Numbered k) (hs : Same k k') : Numbered k' where
  lt q := by
    rw [hs.pid q, hs.nextpid]
    exact hn.lt q
  nonneg q := by
    rw [hs.pid q]
    exact hn.nonneg q
  pos q hq := by
    rw [hs.pid q]
    rw [hs.standing q] at hq
    exact hn.pos q hq
  unique p q hpq := by
    rw [hs.pid p, hs.pid q] at hpq
    rw [hs.pid p]
    exact hn.unique p q hpq

/-! ### Operations that do not matter -/

/-- One slot changes in what does not matter. -/
theorem same_modify (k : Kernel) (i : Slot) {f : Proc → Proc}
    (hstate : (f (k.table i)).state.standing = (k.table i).state.standing)
    (hparent : (f (k.table i)).parent = (k.table i).parent) (hpid : (f (k.table i)).pid = (k.table i).pid) :
    Same k (k.modify i f) := by
  refine ⟨fun q => ?_, funext fun q => ?_, fun q => ?_, rfl, rfl⟩
  · unfold Kernel.standing
    by_cases hq : q = i
    · rw [hq, Kernel.modify_self, hstate]
    · rw [Kernel.modify_of_ne k hq]
  · unfold Kernel.parent
    by_cases hq : q = i
    · rw [hq, Kernel.modify_self, hparent]
    · rw [Kernel.modify_of_ne k hq]
  · by_cases hq : q = i
    · rw [hq, Kernel.modify_self, hpid]
    · rw [Kernel.modify_of_ne k hq]

theorem same_wakeup1 (chan : Option Chan) (k : Kernel) : Same k (wakeup1 chan k) := by
  refine ⟨fun q => ?_, funext fun q => ?_, fun q => ?_, rfl, rfl⟩
  · show (wakeupProc chan (k.table q)).state.standing = (k.table q).state.standing
    unfold wakeupProc
    split
    · rename_i hsleep
      dsimp only
      rw [apply_ite ProcState.standing, hsleep.1]
      exact ite_self _
    · rfl
  · show (wakeupProc chan (k.table q)).parent = (k.table q).parent
    unfold wakeupProc
    split
    · rfl
    · rfl
  · show (wakeupProc chan (k.table q)).pid = (k.table q).pid
    unfold wakeupProc
    split
    · rfl
    · rfl

theorem same_updatepriorities (k : Kernel) : Same k (updatepriorities k) := by
  have hslot : ∀ q, ((updatepriorities k).table q).state = (k.table q).state ∧
      ((updatepriorities k).table q).parent = (k.table q).parent ∧
      ((updatepriorities k).table q).pid = (k.table q).pid := by
    intro q
    unfold updatepriorities
    dsimp only
    split
    · exact ⟨rfl, rfl, rfl⟩
    · exact ⟨rfl, rfl, rfl⟩
  refine ⟨fun q => ?_, funext fun q => (hslot q).2.1, fun q => (hslot q).2.2, rfl, rfl⟩
  unfold Kernel.standing
  rw [(hslot q).1]

theorem same_tick (k : Kernel) : Same k (tick k) := by
  have hticks : Same k { k with ticks := (k.ticks + 1) % 2 ^ 32 } := ⟨fun _ => rfl, rfl, fun _ => rfl, rfl, rfl⟩
  unfold tick
  refine Same.trans ?_ (same_wakeup1 _ _)
  split
  · exact hticks.trans (same_updatepriorities _)
  · exact hticks

theorem same_account (i : Slot) (k : Kernel) : Same k (account i k) :=
  same_modify k i rfl rfl rfl

theorem same_kill (pid : ℤ) (k : Kernel) : Same k (kill pid k) := by
  unfold kill
  split
  · rename_i p _
    refine same_modify k p ?_ rfl rfl
    dsimp only
    split
    · rename_i hsleep
      rw [hsleep]
      rfl
    · rfl
  · exact .refl k

theorem same_sys_nice (cur : Slot) (niceValue : ℤ) (k : Kernel) : Same k (sys_nice cur niceValue k) := by
  unfold sys_nice
  split
  · exact .refl k
  · exact same_modify k cur rfl rfl rfl

/-- A process that is alive goes to a state in which it is alive. -/
theorem same_alive (hi : k.Alive i) {f : Proc → Proc} (hstate : (f (k.table i)).state.standing = .alive)
    (hparent : (f (k.table i)).parent = (k.table i).parent) (hpid : (f (k.table i)).pid = (k.table i).pid) :
    Same k (k.modify i f) :=
  same_modify k i (hstate.trans hi.symm) hparent hpid

/-! ### Operations that do matter -/

theorem Kernel.standing_modify_self (k : Kernel) (i : Slot) (f : Proc → Proc) :
    (k.modify i f).standing i = (f (k.table i)).state.standing := by
  unfold Kernel.standing
  rw [Kernel.modify_self]

theorem Kernel.standing_modify_of_ne (k : Kernel) (hq : q ≠ i) (f : Proc → Proc) :
    (k.modify i f).standing q = k.standing q := by
  unfold Kernel.standing
  rw [Kernel.modify_of_ne k hq]

theorem Kernel.parent_modify (k : Kernel) (i : Slot) (f : Proc → Proc) :
    (k.modify i f).parent = Function.update k.parent i (f (k.table i)).parent := by
  funext q
  unfold Kernel.parent
  by_cases hq : q = i
  · rw [hq, Function.update_self, Kernel.modify_self]
  · rw [Function.update_of_ne hq, Kernel.modify_of_ne k hq]

/-- A slot that is not alive changes: for the other processes nothing has. -/
theorem Family.modify_dead (hf : Family k) (hi : ¬k.Alive i) {f : Proc → Proc}
    (hself : (k.modify i f).standing i = .alive ∨ (k.modify i f).standing i = .zombie →
      ∃ p, (f (k.table i)).parent = some p ∧ k.Alive p) : Family (k.modify i f) := by
  have halive : ∀ q, q ≠ i → ((k.modify i f).Alive q ↔ k.Alive q) := by
    intro q hq
    unfold Kernel.Alive
    rw [k.standing_modify_of_ne hq]
  have hne : ∀ {q}, k.Alive q → q ≠ i := fun hq heq => hi (heq ▸ hq)
  have hkeep : ∀ q, q ≠ i → k.Descends q → (k.modify i f).Descends q := by
    intro q hq hd
    unfold Kernel.Descends
    rw [k.parent_modify]
    exact (Rooted.of_leaf hd hq hi _).of_alive fun _ p _ hp => (halive p (hne hp)).mpr hp
  refine ⟨(halive _ (hne hf.init_alive)).mpr hf.init_alive, fun q hq => ?_⟩
  by_cases hqi : q = i
  · rw [hqi] at hq ⊢
    obtain ⟨p, hparent, hp⟩ := hself hq
    have hroot := hkeep p (hne hp) (hf.descends p (.inl hp))
    refine .child ?_ ((halive p (hne hp)).mpr hp) hroot
    rw [k.parent_modify, Function.update_self]
    exact hparent
  · rw [k.standing_modify_of_ne hqi] at hq
    exact hkeep q hqi (hf.descends q hq)

/-- A slot keeps its number, and is not taken without one. -/
theorem Numbered.modify (hn : Numbered k) {f : Proc → Proc} (hpid : (f (k.table i)).pid = (k.table i).pid)
    (hused : (f (k.table i)).state.standing ≠ .free → k.standing i ≠ .free) : Numbered (k.modify i f) := by
  have hpids : ∀ q, ((k.modify i f).table q).pid = (k.table q).pid := by
    intro q
    by_cases hq : q = i
    · rw [hq, Kernel.modify_self, hpid]
    · rw [Kernel.modify_of_ne k hq]
  refine ⟨fun q => ?_, fun q => ?_, fun q hq => ?_, fun p q hpq => ?_⟩
  · rw [hpids q]
    exact hn.lt q
  · rw [hpids q]
    exact hn.nonneg q
  · rw [hpids q]
    refine hn.pos q ?_
    by_cases hqi : q = i
    · rw [hqi, k.standing_modify_self] at hq
      rw [hqi]
      exact hused hq
    · rwa [k.standing_modify_of_ne hqi] at hq
  · rw [hpids p, hpids q] at hpq
    rw [hpids p]
    exact hn.unique p q hpq

/-! ### `fork` and `wait` -/

/-- The number is taken from the slot of a process that has been waited for. -/
theorem Numbered.reap (hn : Numbered k) {f : Proc → Proc} (hpid : (f (k.table i)).pid = 0)
    (hfree : (f (k.table i)).state = .UNUSED) : Numbered (k.modify i f) := by
  have hpids : ∀ q, q ≠ i → ((k.modify i f).table q).pid = (k.table q).pid := fun q hq => by
    rw [Kernel.modify_of_ne k hq]
  have hself : ((k.modify i f).table i).pid = 0 := by rw [Kernel.modify_self, hpid]
  refine ⟨fun q => ?_, fun q => ?_, fun q hq => ?_, fun p q hpq => ?_⟩
  · by_cases hqi : q = i
    · rw [hqi, hself]
      exact (hn.nonneg i).trans_lt (hn.lt i)
    · rw [hpids q hqi]
      exact hn.lt q
  · by_cases hqi : q = i
    · rw [hqi, hself]
    · rw [hpids q hqi]
      exact hn.nonneg q
  · by_cases hqi : q = i
    · rw [hqi, k.standing_modify_self, hfree] at hq
      exact absurd rfl hq
    · rw [k.standing_modify_of_ne hqi] at hq
      rw [hpids q hqi]
      exact hn.pos q hq
  · by_cases hpi : p = i
    · rw [hpi]
      exact .inr hself
    · rw [hpids p hpi] at hpq ⊢
      by_cases hqi : q = i
      · rw [hqi, hself] at hpq
        exact .inr hpq
      · rw [hpids q hqi] at hpq
        exact hn.unique p q hpq

/-- What an operation keeps: the family and the numbers, and who is alive, but for a child that it starts. -/
structure Kept (k k' : Kernel) (child : Slot → Prop) : Prop where
  family : Family k'
  numbered : Numbered k'
  initproc : k'.initproc = k.initproc
  alive : ∀ q, k.Alive q → k'.Alive q
  started : ∀ q, k'.Alive q → k.Alive q ∨ child q

theorem Kept.of_same {child : Slot → Prop} (hf : Family k) (hn : Numbered k) (hs : Same k k') : Kept k k' child where
  family := hf.same hs
  numbered := hn.same hs
  initproc := hs.initproc
  alive q hq := (hs.alive q).mpr hq
  started q hq := .inl ((hs.alive q).mp hq)

theorem Kept.modify_dead {child : Slot → Prop} {f : Proc → Proc} (hf : Family (k.modify i f))
    (hn : Numbered (k.modify i f)) (hi : ¬k.Alive i) (hchild : (f (k.table i)).state.standing = .alive → child i) :
    Kept k (k.modify i f) child where
  family := hf
  numbered := hn
  initproc := rfl
  alive q hq := by
    have hne : q ≠ i := fun heq => hi (heq ▸ hq)
    unfold Kernel.Alive
    rw [k.standing_modify_of_ne hne]
    exact hq
  started q hq := by
    unfold Kernel.Alive at hq
    by_cases hqi : q = i
    · rw [hqi, k.standing_modify_self] at hq
      rw [hqi]
      exact .inr (hchild hq)
    · rw [k.standing_modify_of_ne hqi] at hq
      exact .inl hq

/-- A new process gets a number that no process has had. -/
theorem Numbered.alloc (hn : Numbered k) (hpos : 0 < k.nextpid) {f : Proc → Proc}
    (hpid : (f (k.table i)).pid = k.nextpid) : Numbered { k.modify i f with nextpid := k.nextpid + 1 } := by
  have hpids : ∀ q, q ≠ i → ((k.modify i f).table q).pid = (k.table q).pid := fun q hq => by
    rw [Kernel.modify_of_ne k hq]
  have hself : ((k.modify i f).table i).pid = k.nextpid := by rw [Kernel.modify_self, hpid]
  refine ⟨fun q => ?_, fun q => ?_, fun q hq => ?_, fun p q hpq => ?_⟩
  · show ((k.modify i f).table q).pid < k.nextpid + 1
    by_cases hqi : q = i
    · rw [hqi, hself]
      omega
    · rw [hpids q hqi]
      have hlt := hn.lt q
      omega
  · show 0 ≤ ((k.modify i f).table q).pid
    by_cases hqi : q = i
    · rw [hqi, hself]
      exact hpos.le
    · rw [hpids q hqi]
      exact hn.nonneg q
  · show 0 < ((k.modify i f).table q).pid
    by_cases hqi : q = i
    · rw [hqi, hself]
      exact hpos
    · rw [hpids q hqi]
      refine hn.pos q ?_
      rwa [← k.standing_modify_of_ne hqi]
  · change ((k.modify i f).table p).pid = ((k.modify i f).table q).pid at hpq
    show p = q ∨ ((k.modify i f).table p).pid = 0
    by_cases hpi : p = i
    · by_cases hqi : q = i
      · exact .inl (hpi.trans hqi.symm)
      · rw [hpi, hself, hpids q hqi] at hpq
        have hlt := hn.lt q
        omega
    · rw [hpids p hpi] at hpq ⊢
      by_cases hqi : q = i
      · rw [hqi, hself] at hpq
        have hlt := hn.lt p
        omega
      · rw [hpids q hqi] at hpq
        exact hn.unique p q hpq

theorem kept_allocproc {child : Slot → Prop} (hf : Family k) (hn : Numbered k) :
    Kept k (((allocproc k).map Prod.snd).getD k) child := by
  unfold allocproc
  cases hslot : firstSlot fun i => (k.table i).state = .UNUSED with
  | none => exact .of_same hf hn (.refl k)
  | some p =>
    have hunused : (k.table p).state = .UNUSED := by simpa using firstSlot_some hslot
    have hfree : k.standing p = .free := by
      unfold Kernel.standing
      rw [hunused]
      rfl
    have hdead : ¬k.Alive p := by
      unfold Kernel.Alive
      rw [hfree]
      decide
    have hpos : 0 < k.nextpid := (hn.nonneg p).trans_lt (hn.lt p)
    have hfamily : Family (k.modify p fun q => { q with state := .EMBRYO, pid := k.nextpid }) := by
      refine hf.modify_dead hdead fun hc => ?_
      rw [k.standing_modify_self] at hc
      rcases hc with hc | hc
      · cases hc
      · cases hc
    have halive : ∀ q, (k.modify p fun q => { q with state := .EMBRYO, pid := k.nextpid }).Alive q ↔ k.Alive q := by
      intro q
      unfold Kernel.Alive
      by_cases hq : q = p
      · rw [hq, k.standing_modify_self, hfree]
        exact ⟨fun hc => (by cases hc), fun hc => (by cases hc)⟩
      · rw [k.standing_modify_of_ne hq]
    exact ⟨⟨hfamily.init_alive, hfamily.descends⟩, hn.alloc hpos rfl, rfl,
      fun q hq => (halive q).mpr hq, fun q hq => .inl ((halive q).mp hq)⟩

/-- **An operation of a system call** keeps the family; it starts a child from an embryo only. -/
theorem kept_op {op : Op} (hop : op.inCall) (hf : Family k) (hn : Numbered k) (hcur : k.Alive cur) :
    Kept k (op.apply cur k) fun q => op = .startChild q ∧ (k.table q).state = .EMBRYO := by
  cases op with
  | allocproc => exact kept_allocproc hf hn
  | startChild np =>
    show Kept k (if (k.table np).state = .EMBRYO then startChild cur np k else k) _
    split
    · rename_i hembryo
      have hstanding : k.standing np = .embryo := by
        unfold Kernel.standing
        rw [hembryo]
        rfl
      have hdead : ¬k.Alive np := by
        unfold Kernel.Alive
        rw [hstanding]
        decide
      exact Kept.modify_dead (hf.modify_dead hdead fun _ => ⟨cur, rfl, hcur⟩)
        (hn.modify rfl fun _ => by rw [hstanding]; decide) hdead fun _ => ⟨rfl, hembryo⟩
    · exact .of_same hf hn (.refl k)
  | dropChild np =>
    show Kept k (if (k.table np).state = .EMBRYO then dropChild np k else k) _
    split
    · rename_i hembryo
      have hstanding : k.standing np = .embryo := by
        unfold Kernel.standing
        rw [hembryo]
        rfl
      have hdead : ¬k.Alive np := by
        unfold Kernel.Alive
        rw [hstanding]
        decide
      refine Kept.modify_dead (hf.modify_dead hdead fun hc => ?_)
        (hn.modify rfl fun hc => absurd rfl hc) hdead fun hc => by cases hc
      rw [k.standing_modify_self] at hc
      rcases hc with hc | hc
      · cases hc
      · cases hc
    · exact .of_same hf hn (.refl k)
  | reap =>
    show Kept k ((reap cur k).getD k) _
    unfold reap
    cases hslot : firstSlot fun j => (k.table j).parent = some cur ∧ (k.table j).state = .ZOMBIE with
    | none => exact .of_same hf hn (.refl k)
    | some p =>
      have hzombie : (k.table p).state = .ZOMBIE := by
        have hcond := firstSlot_some hslot
        rw [decide_eq_true_eq] at hcond
        exact hcond.2
      have hdead : ¬k.Alive p := by
        unfold Kernel.Alive Kernel.standing
        rw [hzombie]
        decide
      show Kept k (k.modify p fun q => { q with pid := 0, parent := none, killed := 0, state := .UNUSED }) _
      refine Kept.modify_dead (hf.modify_dead hdead fun hc => ?_) (hn.reap rfl rfl) hdead
        fun hc => by cases hc
      rw [k.standing_modify_self] at hc
      rcases hc with hc | hc
      · cases hc
      · cases hc
  | wakeup chan => exact .of_same hf hn (same_wakeup1 _ k)
  | kill pid => exact .of_same hf hn (same_kill pid k)
  | nice niceValue => exact .of_same hf hn (same_sys_nice cur niceValue k)
  | sleepStart n => cases hop
  | tidyUp => cases hop

/-! ### `exit` -/

/-- What one slot of the loop of `exit` does: afterwards it has no child of the process. -/
structure Abandons (cur i : Slot) (k k' : Kernel) : Prop where
  family : Family k'
  numbered : Numbered k'
  initproc : k'.initproc = k.initproc
  alive : ∀ q, k'.Alive q ↔ k.Alive q
  gone : k'.parent i ≠ some cur
  others : ∀ q, k'.parent q = some cur → k.parent q = some cur

theorem Abandons.same (ha : Abandons cur i k k₁) (hs : Same k₁ k₂) : Abandons cur i k k₂ where
  family := ha.family.same hs
  numbered := ha.numbered.same hs
  initproc := hs.initproc.trans ha.initproc
  alive q := (hs.alive q).trans (ha.alive q)
  gone := by
    rw [hs.parent]
    exact ha.gone
  others q hq := by
    rw [hs.parent] at hq
    exact ha.others q hq

/-- A child is passed to `init`. -/
theorem abandons_adopt (hf : Family k) (hn : Numbered k) (hcur : cur ≠ k.initproc) (hchild : k.parent i = some cur) :
    Abandons cur i k (k.modify i fun q => { q with parent := some k.initproc }) := by
  have hstanding : ∀ q, (k.modify i fun q => { q with parent := some k.initproc }).standing q = k.standing q := by
    intro q
    by_cases hq : q = i
    · rw [hq, k.standing_modify_self]
      rfl
    · rw [k.standing_modify_of_ne hq]
  have halive : ∀ q, (k.modify i fun q => { q with parent := some k.initproc }).Alive q ↔ k.Alive q := by
    intro q
    unfold Kernel.Alive
    rw [hstanding]
  refine ⟨⟨(halive _).mpr hf.init_alive, fun q hq => ?_⟩, hn.modify rfl id, rfl, halive, ?_,
    fun q hq => ?_⟩
  · rw [hstanding] at hq
    unfold Kernel.Descends
    rw [k.parent_modify]
    exact ((hf.descends q hq).adopt hf.init_alive i).of_alive fun _ p _ hp => (halive p).mpr hp
  · rw [k.parent_modify, Function.update_self]
    exact fun heq => hcur (Option.some.inj heq).symm
  · rw [k.parent_modify] at hq
    by_cases hqi : q = i
    · rw [hqi]
      exact hchild
    · rwa [Function.update_of_ne hqi] at hq

theorem abandons_child (hf : Family k) (hn : Numbered k) (hcur : cur ≠ k.initproc) :
    Abandons cur i k (abandonChild cur k i) := by
  unfold abandonChild
  split
  · rename_i hchild
    have hadopt := abandons_adopt hf hn hcur hchild
    dsimp only
    split
    · exact hadopt.same (same_wakeup1 _ _)
    · exact hadopt
  · rename_i hchild
    exact ⟨hf, hn, rfl, fun _ => Iff.rfl, hchild, fun _ hq => hq⟩

/-- **The process becomes a zombie** when it has no child left. -/
theorem family_zombie (hf : Family k) (hi : k.Alive i) (hne : i ≠ k.initproc)
    (hnone : ∀ q, k.parent q ≠ some i) : Family (k.modify i fun q => { q with state := .ZOMBIE }) := by
  have hstanding : ∀ q, q ≠ i → (k.modify i fun q => { q with state := .ZOMBIE }).standing q = k.standing q :=
    fun q hq => k.standing_modify_of_ne hq _
  have hparent : (k.modify i fun q => { q with state := .ZOMBIE }).parent = k.parent := by
    rw [k.parent_modify]
    exact Function.update_eq_self i k.parent
  refine ⟨?_, fun q hq => ?_⟩
  · exact (hstanding _ hne.symm).trans hf.init_alive
  · have hold : k.standing q = .alive ∨ k.standing q = .zombie := by
      by_cases hqi : q = i
      · rw [hqi]
        exact .inl hi
      · rwa [← hstanding q hqi]
    unfold Kernel.Descends
    rw [hparent]
    refine (hf.descends q hold).of_alive fun x p hx hp => ?_
    have hpi : p ≠ i := fun heq => hnone x (heq ▸ hx)
    unfold Kernel.Alive
    rw [hstanding p hpi]
    exact hp

/-! ### The machine -/

/-- The process is on its way through `exit`. -/
def Ctl.exits : Ctl → Bool
  | .exiting | .dying _ => true
  | .asleep next => next.exits
  | _ => false

/-- The process is not in the loop of `exit`, nor will it be when it is woken. -/
def Ctl.calm : Ctl → Bool
  | .dying _ => false
  | .asleep next => next.calm
  | _ => true

/-- **The invariant of the machine**: the process that runs is alive, only the running process is in the loop of
`exit`, and the slots that it has passed have no child of it; `init` does not exit. -/
structure FamilyInv (m : Machine) : Prop where
  family : Family m.kernel
  numbered : Numbered m.kernel
  current : ∀ i, m.pc.current = some i → m.kernel.Alive i
  places : ∀ i, (m.ctl i).calm = true ∨ ∃ j, m.ctl i = .dying j
  dying : ∀ i j, m.ctl i = .dying j → m.kernel.Alive i →
    m.pc.current = some i ∧ ∀ q : Slot, q.val < j → m.kernel.parent q ≠ some i
  init_stays : (m.ctl m.kernel.initproc).exits = false

theorem Ctl.ne_dying (hc : c.calm = true) (j : ℕ) : c ≠ .dying j := by
  rintro rfl
  cases hc

/-- **The running process goes to another place**, while the kernel keeps the family. -/
theorem FamilyInv.next (hinv : FamilyInv m) (hrun : m.pc.current = some i) (hf : Family m'.kernel)
    (hn : Numbered m'.kernel) (hinit : m'.kernel.initproc = m.kernel.initproc)
    (hpc : m'.pc.current = some i ∨ m'.pc.current = none) (hself : m'.kernel.Alive i)
    (hc : (m'.ctl i).calm = true) (hexit : (m'.ctl i).exits = true → (m.ctl i).exits = true ∨ i ≠ m.kernel.initproc)
    (hother : ∀ q, q ≠ i → m'.ctl q = .forkret ∨
      m'.ctl q = m.ctl q ∧ (m'.kernel.Alive q → m.kernel.Alive q)) : FamilyInv m' := by
  refine ⟨hf, hn, fun q hq => ?_, fun q => ?_, fun q j hq halive => ?_, ?_⟩
  · rcases hpc with hpc | hpc
    · rw [hpc] at hq
      rwa [← Option.some.inj hq]
    · rw [hpc] at hq
      cases hq
  · by_cases hqi : q = i
    · rw [hqi]
      exact .inl hc
    · rcases hother q hqi with hctl | ⟨hctl, -⟩
      · rw [hctl]
        exact .inl rfl
      · rw [hctl]
        exact hinv.places q
  · by_cases hqi : q = i
    · rw [hqi] at hq
      exact absurd hq (Ctl.ne_dying hc j)
    · rcases hother q hqi with hctl | ⟨hctl, hold⟩
      · rw [hctl] at hq
        cases hq
      · rw [hctl] at hq
        have hcur := (hinv.dying q j hq (hold halive)).1
        rw [hrun] at hcur
        exact absurd (Option.some.inj hcur).symm hqi
  · rw [hinit]
    by_cases hqi : m.kernel.initproc = i
    · by_contra hexits
      rw [Bool.not_eq_false, hqi] at hexits
      rcases hexit hexits with hold | hne
      · rw [← hqi, hinv.init_stays] at hold
        cases hold
      · exact hne hqi.symm
    · rcases hother _ hqi with hctl | ⟨hctl, -⟩
      · rw [hctl]
        rfl
      · rw [hctl]
        exact hinv.init_stays

/-- Nothing has changed for the family. -/
theorem FamilyInv.quiet (hinv : FamilyInv m) (hrun : m.pc.current = some i) (hs : Same m.kernel m'.kernel)
    (hctl : m'.ctl = Function.update m.ctl i c) (hpc : m'.pc.current = some i ∨ m'.pc.current = none)
    (hc : c.calm = true) (hexit : c.exits = true → (m.ctl i).exits = true ∨ i ≠ m.kernel.initproc) :
    FamilyInv m' := by
  have hself : m'.ctl i = c := by rw [hctl, Function.update_self]
  refine hinv.next hrun (hinv.family.same hs) (hinv.numbered.same hs) hs.initproc hpc
    ((hs.alive i).mpr (hinv.current i hrun)) (by rwa [hself]) (by rwa [hself]) fun q hq => .inr ⟨?_, ?_⟩
  · rw [hctl, Function.update_of_ne hq]
  · exact (hs.alive q).mp

theorem FamilyInv.goTo (hinv : FamilyInv m) (hrun : m.pc = .switched i h) (hs : Same m.kernel k)
    (hc : c.calm = true) (hexit : c.exits = true → (m.ctl i).exits = true ∨ i ≠ m.kernel.initproc) :
    FamilyInv (m.goTo i k c) := by
  have hcur : m.pc.current = some i := by rw [hrun]; rfl
  exact hinv.quiet hcur hs rfl (.inl hcur) hc hexit

theorem FamilyInv.sched (hinv : FamilyInv m) (hrun : m.pc = .switched i h) (hs : Same m.kernel k)
    (hc : c.calm = true) (hexit : c.exits = true → (m.ctl i).exits = true ∨ i ≠ m.kernel.initproc) :
    FamilyInv (m.sched i h k c) := by
  have hcur : m.pc.current = some i := by rw [hrun]; rfl
  exact hinv.quiet hcur (hs.trans (same_account i k)) rfl (.inr rfl) hc hexit

theorem FamilyInv.keep (hinv : FamilyInv m) (hrun : m.pc = .switched i h) (hs : Same m.kernel k)
    (hc : (m.ctl i).calm = true) : FamilyInv { m with kernel := k } := by
  have hcur : m.pc.current = some i := by rw [hrun]; rfl
  exact hinv.quiet hcur hs (Function.update_eq_self i m.ctl).symm (.inl hcur) hc .inl

/-- `exit` is called by other processes than `init`. -/
theorem FamilyInv.callExit (hinv : FamilyInv m) (hrun : m.pc = .switched i h) (hs : Same m.kernel k)
    (hm : m.callExit i k = some m') : FamilyInv m' := by
  have hne : i ≠ m.kernel.initproc := by
    intro heq
    unfold Machine.callExit at hm
    rw [if_pos (heq.trans hs.initproc.symm)] at hm
    cases hm
  rw [callExit_eq hm]
  exact hinv.goTo hrun hs rfl fun _ => .inr hne

theorem Ctl.calm_of_interruptible (hc : c.interruptible = true) : c.calm = true := by
  cases c with
  | preempted => cases hc
  | dying j => cases hc
  | asleep next => cases hc
  | _ => rfl

theorem FamilyInv.timer (hinv : FamilyInv m) (hrun : m.pc = .switched i h) (hint : (m.ctl i).interruptible = true)
    (hm : m.timer i h = some m') : FamilyInv m' := by
  have hcur : m.pc.current = some i := by rw [hrun]; rfl
  have htick := same_tick m.kernel
  unfold Machine.timer at hm
  dsimp only at hm
  split at hm
  · exact hinv.callExit hrun htick hm
  · split at hm
    · cases hm
      have hyield : Same (tick m.kernel) (yield i (tick m.kernel)) :=
        same_alive ((htick.alive i).mpr (hinv.current i hcur)) rfl rfl rfl
      refine hinv.sched hrun (htick.trans hyield) ?_ fun hexits => ?_
      · split
        · rfl
        · exact Ctl.calm_of_interruptible hint
      · split at hexits
        · cases hexits
        · exact .inl hexits
    · cases hm
      exact hinv.keep hrun htick (Ctl.calm_of_interruptible hint)

theorem FamilyInv.device (hinv : FamilyInv m) (hrun : m.pc = .switched i h)
    (hint : (m.ctl i).interruptible = true) {addr : ℕ} (hm : m.device i addr = some m') : FamilyInv m' := by
  have hwake := same_wakeup1 (some (.other addr)) m.kernel
  unfold Machine.device at hm
  dsimp only at hm
  split at hm
  · exact hinv.callExit hrun hwake hm
  · cases hm
    exact hinv.keep hrun hwake (Ctl.calm_of_interruptible hint)

/-- To a place outside of `exit`, unless the process has been killed. -/
theorem FamilyInv.unlessKilled (hinv : FamilyInv m) (hrun : m.pc = .switched i h) (hc : c.calm = true)
    (hexit : c.exits = false)
    (hm : (if (m.kernel.table i).killed ≠ 0 then m.callExit i m.kernel
      else some (m.goTo i m.kernel c)) = some m') : FamilyInv m' := by
  split at hm
  · exact hinv.callExit hrun (.refl _) hm
  · cases hm
    exact hinv.goTo hrun (.refl _) hc fun hexits => by rw [hexit] at hexits; cases hexits

theorem FamilyInv.sleepLoop (hinv : FamilyInv m) (hrun : m.pc = .switched i h) (n : BitVec 32) (ticks0 : ℕ) :
    FamilyInv (m.sleepLoop i h n ticks0) := by
  have hcur : m.pc.current = some i := by rw [hrun]; rfl
  have hsleep : Same m.kernel (sleep i .ticks m.kernel) := same_alive (hinv.current i hcur) rfl rfl rfl
  unfold Machine.sleepLoop
  split
  · split
    · exact hinv.goTo hrun (.refl _) rfl fun hexits => by cases hexits
    · exact hinv.sched hrun hsleep rfl fun hexits => by cases hexits
  · exact hinv.goTo hrun (.refl _) rfl fun hexits => by cases hexits

/-- **The loop of `exit`**, and its end. -/
theorem FamilyInv.goOn_dying (hinv : FamilyInv m) (hrun : m.pc = .switched i h) (hctl : m.ctl i = .dying j)
    (hm : m.goOn i h = some m') : FamilyInv m' := by
  have hcur : m.pc.current = some i := by rw [hrun]; rfl
  have hi := hinv.current i hcur
  have hpassed := (hinv.dying i j hctl hi).2
  have hne : i ≠ m.kernel.initproc := by
    intro heq
    have hstays := hinv.init_stays
    rw [← heq, hctl] at hstays
    cases hstays
  have hplaces : ∀ q j', (Function.update m.ctl i (.dying j') q).calm = true ∨
      ∃ x, Function.update m.ctl i (.dying j') q = .dying x := by
    intro q j'
    by_cases hqi : q = i
    · rw [hqi, Function.update_self]
      exact .inr ⟨j', rfl⟩
    · rw [Function.update_of_ne hqi]
      exact hinv.places q
  have hothers : ∀ q x, q ≠ i → m.ctl q = .dying x → ¬m.kernel.Alive q := by
    intro q x hqi hq halive
    have hcurq := (hinv.dying q x hq halive).1
    rw [hcur] at hcurq
    exact hqi (Option.some.inj hcurq).symm
  have hstays : ∀ j', (Function.update m.ctl i (.dying j') m.kernel.initproc).exits = false := by
    intro j'
    rw [Function.update_of_ne hne.symm]
    exact hinv.init_stays
  unfold Machine.goOn at hm
  dsimp only at hm
  rw [hctl] at hm
  dsimp only at hm
  split at hm
  · rename_i hj
    cases hm
    have habandons := abandons_child (i := ⟨j, hj⟩) hinv.family hinv.numbered hne
    refine ⟨habandons.family, habandons.numbered, fun q hq => (habandons.alive q).mpr (hinv.current q hq),
      fun q => hplaces q (j + 1), fun q x hq halive => ?_, ?_⟩
    · change Function.update m.ctl i (.dying (j + 1)) q = .dying x at hq
      by_cases hqi : q = i
      · rw [hqi, Function.update_self, Ctl.dying.injEq] at hq
        rw [hqi, ← hq]
        refine ⟨hcur, fun c hc => ?_⟩
        rcases Nat.lt_succ_iff_lt_or_eq.mp hc with hc | hc
        · exact fun hparent => hpassed c hc (habandons.others c hparent)
        · rw [show c = ⟨j, hj⟩ from Fin.ext hc]
          exact habandons.gone
      · rw [Function.update_of_ne hqi] at hq
        exact absurd ((habandons.alive q).mp halive) (hothers q x hqi hq)
    · show (Function.update m.ctl i (.dying (j + 1)) (abandonChild i m.kernel ⟨j, hj⟩).initproc).exits = false
      rw [habandons.initproc]
      exact hstays (j + 1)
  · rename_i hj
    cases hm
    have hzombie := family_zombie hinv.family hi hne fun q => hpassed q (q.isLt.trans_le (not_lt.mp hj))
    have hnumbered : Numbered (m.kernel.modify i fun q => { q with state := .ZOMBIE }) :=
      hinv.numbered.modify rfl fun _ => by rw [hi]; decide
    have haccount := same_account i (m.kernel.modify i fun q => { q with state := .ZOMBIE })
    refine ⟨hzombie.same haccount, hnumbered.same haccount, fun q hq => (by cases hq), fun q => hplaces q j,
      fun q x hq halive => ?_, hstays j⟩
    have hafter := (haccount.alive q).mp halive
    unfold Kernel.Alive at hafter
    change Function.update m.ctl i (.dying j) q = .dying x at hq
    by_cases hqi : q = i
    · rw [hqi, m.kernel.standing_modify_self] at hafter
      cases hafter
    · rw [Function.update_of_ne hqi] at hq
      rw [m.kernel.standing_modify_of_ne hqi] at hafter
      exact absurd hafter (hothers q x hqi hq)

/-- **The running process goes on.** -/
theorem FamilyInv.goOn (hinv : FamilyInv m) (hrun : m.pc = .switched i h) (hm : m.goOn i h = some m') :
    FamilyInv m' := by
  have hcur : m.pc.current = some i := by rw [hrun]; rfl
  have hi := hinv.current i hcur
  have hplace := hinv.places i
  cases hctl : m.ctl i with
  | dying j => exact hinv.goOn_dying hrun hctl hm
  | user =>
    unfold Machine.goOn at hm
    rw [hctl] at hm
    cases hm
  | forkret =>
    unfold Machine.goOn at hm
    rw [hctl] at hm
    cases hm
    exact hinv.goTo hrun (.refl _) rfl fun hexits => by cases hexits
  | preempted =>
    unfold Machine.goOn at hm
    rw [hctl] at hm
    exact hinv.unlessKilled hrun rfl rfl hm
  | kernel =>
    unfold Machine.goOn at hm
    rw [hctl] at hm
    cases hm
    exact hinv.goTo hrun (.refl _) rfl fun hexits => by cases hexits
  | sysret =>
    unfold Machine.goOn at hm
    rw [hctl] at hm
    exact hinv.unlessKilled hrun rfl rfl hm
  | sleepArg n =>
    unfold Machine.goOn at hm
    rw [hctl] at hm
    cases hm
    exact hinv.goTo hrun (same_modify m.kernel i rfl rfl rfl) rfl fun hexits => by cases hexits
  | sleepStore n =>
    unfold Machine.goOn at hm
    rw [hctl] at hm
    cases hm
    exact hinv.goTo hrun (same_alive hi rfl rfl rfl) rfl fun hexits => by cases hexits
  | sleepLock n =>
    unfold Machine.goOn at hm
    rw [hctl] at hm
    cases hm
    exact hinv.sleepLoop hrun n _
  | sleepTest n ticks0 =>
    unfold Machine.goOn at hm
    rw [hctl] at hm
    cases hm
    exact hinv.sleepLoop hrun n ticks0
  | exiting =>
    have hne : i ≠ m.kernel.initproc := by
      intro heq
      have hstays := hinv.init_stays
      rw [← heq, hctl] at hstays
      cases hstays
    have hwake := same_wakeup1 ((m.kernel.table i).parent.map .proc) m.kernel
    unfold Machine.goOn at hm
    rw [hctl] at hm
    cases hm
    refine ⟨hinv.family.same hwake, hinv.numbered.same hwake, fun q hq => (hwake.alive q).mpr (hinv.current q hq),
      fun q => ?_, fun q j hq halive => ?_, ?_⟩
    · show (Function.update m.ctl i (.dying 0) q).calm = true ∨ ∃ j, Function.update m.ctl i (.dying 0) q = .dying j
      by_cases hqi : q = i
      · rw [hqi, Function.update_self]
        exact .inr ⟨0, rfl⟩
      · rw [Function.update_of_ne hqi]
        exact hinv.places q
    · change Function.update m.ctl i (.dying 0) q = .dying j at hq
      by_cases hqi : q = i
      · rw [hqi, Function.update_self, Ctl.dying.injEq] at hq
        rw [hqi, ← hq]
        exact ⟨hcur, fun c hc => absurd hc (Nat.not_lt_zero _)⟩
      · rw [Function.update_of_ne hqi] at hq
        have hcurq := (hinv.dying q j hq ((hwake.alive q).mp halive)).1
        rw [hcur] at hcurq
        exact absurd (Option.some.inj hcurq).symm hqi
    · show (Function.update m.ctl i (.dying 0) m.kernel.initproc).exits = false
      rw [Function.update_of_ne hne.symm]
      exact hinv.init_stays
  | asleep next =>
    have hcalm : next.calm = true := by
      rcases hplace with hcalm | ⟨j, hj⟩
      · rwa [hctl] at hcalm
      · rw [hctl] at hj
        cases hj
    unfold Machine.goOn at hm
    rw [hctl] at hm
    cases hm
    refine hinv.goTo hrun (same_modify m.kernel i rfl rfl rfl) hcalm fun hexits => .inl ?_
    rw [hctl]
    exact hexits

/-- **An operation of the running process.** -/
theorem FamilyInv.doOp (hinv : FamilyInv m) (hrun : m.pc = .switched i h) {op : Op} (hop : op.inCall)
    (hcalm : (m.ctl i).calm = true) : FamilyInv (m.doOp i op) := by
  have hcur : m.pc.current = some i := by rw [hrun]; rfl
  have hi := hinv.current i hcur
  have hkept := kept_op hop hinv.family hinv.numbered hi
  have hctl : ∀ q, (m.doOp i op).ctl q = .forkret ∧ op = .startChild q ∧ (m.kernel.table q).state = .EMBRYO ∨
      (m.doOp i op).ctl q = m.ctl q ∧ ¬(op = .startChild q ∧ (m.kernel.table q).state = .EMBRYO) := by
    intro q
    unfold Machine.doOp
    cases op with
    | startChild np =>
      dsimp only
      by_cases hst : (m.kernel.table np).state = .EMBRYO
      · rw [if_pos hst]
        by_cases hq : q = np
        · rw [hq, Function.update_self]
          exact .inl ⟨rfl, rfl, hst⟩
        · rw [Function.update_of_ne hq]
          exact .inr ⟨rfl, fun hc => hq (Op.startChild.inj hc.1).symm⟩
      · rw [if_neg hst]
        refine .inr ⟨rfl, fun hc => hst ?_⟩
        rw [Op.startChild.inj hc.1]
        exact hc.2
    | _ => exact .inr ⟨rfl, fun hc => by cases hc.1⟩
  have hself : (m.doOp i op).ctl i = m.ctl i := by
    rcases hctl i with ⟨-, -, hembryo⟩ | ⟨heq, -⟩
    · unfold Kernel.Alive Kernel.standing at hi
      rw [hembryo] at hi
      cases hi
    · exact heq
  refine hinv.next hcur hkept.family hkept.numbered hkept.initproc (.inl hcur)
    (hkept.alive i hi) (by rwa [hself]) (by rw [hself]; exact .inl) fun q _ => ?_
  rcases hctl q with ⟨hfork, -⟩ | ⟨heq, hno⟩
  · exact .inl hfork
  · exact .inr ⟨heq, fun halive => (hkept.started q halive).resolve_right hno⟩

/-- **What the running process and the interrupts do.** -/
theorem FamilyInv.run (hinv : FamilyInv m) (hrun : m.pc = .switched i h) (hm : m.run i h a = some m') :
    FamilyInv m' := by
  have hcur : m.pc.current = some i := by rw [hrun]; rfl
  cases a with
  | go => exact hinv.goOn hrun hm
  | timer =>
    rw [Machine.run, Option.ite_none_right_eq_some] at hm
    exact hinv.timer hrun hm.1 hm.2
  | device addr =>
    rw [Machine.run, Option.ite_none_right_eq_some] at hm
    exact hinv.device hrun hm.1 hm.2
  | fault =>
    rw [Machine.run, Option.ite_none_right_eq_some] at hm
    exact hinv.callExit hrun (same_modify m.kernel i rfl rfl rfl) hm.2
  | syscall =>
    rw [Machine.run, Option.ite_none_right_eq_some] at hm
    exact hinv.unlessKilled hrun rfl rfl hm.2
  | sleepCall n =>
    rw [Machine.run, Option.ite_none_right_eq_some] at hm
    exact hinv.unlessKilled hrun rfl rfl hm.2
  | exitCall =>
    rw [Machine.run, Option.ite_none_right_eq_some] at hm
    exact hinv.callExit hrun (.refl _) hm.2
  | op op =>
    rw [Machine.run, Option.ite_none_right_eq_some] at hm
    obtain ⟨hop, hm⟩ := hm
    cases hm
    rcases hop with ⟨hctl, hop⟩ | ⟨hctl, hop⟩
    · exact hinv.doOp hrun hop (by rw [hctl]; rfl)
    · refine hinv.doOp hrun ?_ ?_
      · cases op with
        | wakeup chan => cases chan <;> exact hop
        | _ => cases hop
      · rcases hctl with hctl | hctl <;> rw [hctl] <;> rfl
  | block chan =>
    rw [Machine.run, Option.ite_none_right_eq_some] at hm
    obtain ⟨hmay, hm⟩ := hm
    cases hm
    have hsleep : Same m.kernel (sleep i chan m.kernel) := same_alive (hinv.current i hcur) rfl rfl rfl
    refine hinv.sched hrun hsleep ?_ .inl
    cases hctl : m.ctl i with
    | dying j => rw [hctl] at hmay; cases hmay
    | asleep next => rw [hctl] at hmay; cases hmay
    | _ => rfl

/-- No process runs, and nothing changes for the family. -/
theorem FamilyInv.idle (hinv : FamilyInv m) (hidle : m.pc.current = none) (hs : Same m.kernel m'.kernel)
    (hctl : m'.ctl = m.ctl) (hpc : ∀ i, m'.pc.current = some i → m'.kernel.Alive i) : FamilyInv m' := by
  refine ⟨hinv.family.same hs, hinv.numbered.same hs, hpc, ?_, fun q j hq halive => ?_, ?_⟩
  · rw [hctl]
    exact hinv.places
  · rw [hctl] at hq
    have hcur := (hinv.dying q j hq ((hs.alive q).mp halive)).1
    rw [hidle] at hcur
    cases hcur
  · rw [hctl, hs.initproc]
    exact hinv.init_stays

/-- **The scheduler goes on**: it switches to a process that is alive. -/
theorem FamilyInv.scheduler (hinv : FamilyInv m) (hidle : m.pc.current = none) {s : State}
    (hs : Sched.go m.toState = some s) : FamilyInv { m with toState := s } := by
  unfold Sched.go at hs
  cases hpc : m.pc with
  | idle =>
    rw [hpc] at hs
    cases hs
    exact hinv.idle hidle (.refl _) rfl fun i hi => by cases hi
  | scan n h =>
    rw [hpc] at hs
    dsimp only at hs
    split at hs
    · cases hs
      exact hinv.idle hidle (.refl _) rfl fun i hi => by cases hi
    · cases hs
      exact hinv.idle hidle (.refl _) rfl fun i hi => by cases hi
  | run n h =>
    rw [hpc] at hs
    dsimp only at hs
    split at hs
    · rename_i hn
      split at hs
      · rename_i hpick
        cases hs
        have halive : m.kernel.Alive ⟨n, hn⟩ := by
          unfold Kernel.Alive Kernel.standing
          rw [hpick.1]
          rfl
        have hsame : Same m.kernel (m.kernel.modify ⟨n, hn⟩ fun q => { q with state := .RUNNING }) :=
          same_alive halive rfl rfl rfl
        refine hinv.idle hidle hsame rfl fun i hi => ?_
        rw [← Option.some.inj (hi : some (⟨n, hn⟩ : Slot) = some i)]
        exact (hsame.alive _).mpr halive
      · cases hs
        exact hinv.idle hidle (.refl _) rfl fun i hi => by cases hi
    · cases hs
      exact hinv.idle hidle (.refl _) rfl fun i hi => by cases hi
  | switched i h =>
    rw [hpc] at hs
    cases hs

/-- **Every step of the machine keeps the family.** -/
theorem FamilyInv.step (hinv : FamilyInv m) (hm : m.step a = some m') : FamilyInv m' := by
  unfold Machine.step at hm
  split at hm
  · rename_i i h hrun
    exact hinv.run hrun hm
  · rename_i pc hpc
    have hidle : m.pc.current = none := by
      cases hpc' : m.pc with
      | switched i h => exact absurd hpc' (hpc i h)
      | _ => rfl
    have hnot : ∀ i, m.pc.current = some i → ∀ k : Kernel, k.Alive i := fun i hi => by
      rw [hidle] at hi
      cases hi
    split at hm
    · obtain ⟨s, hs, hm⟩ := Option.map_eq_some_iff.mp hm
      cases hm
      exact hinv.scheduler hidle hs
    · rw [Option.ite_none_right_eq_some] at hm
      obtain ⟨-, hm⟩ := hm
      cases hm
      exact hinv.idle hidle (same_tick _) rfl fun i hi => hnot i hi _
    · rw [Option.ite_none_right_eq_some] at hm
      obtain ⟨-, hm⟩ := hm
      cases hm
      exact hinv.idle hidle (same_wakeup1 _ _) rfl fun i hi => hnot i hi _
    · cases hm

/-! ### Runs -/

/-- Only `init` is there after `userinit`. -/
theorem FamilyInv.boot (hm : Booted m) : FamilyInv m := by
  obtain ⟨⟨hkernel, hpc⟩, hctl⟩ := hm
  have hstanding : ∀ q, m.kernel.standing q = if q = 0 then .alive else .free := by
    intro q
    unfold Kernel.standing
    rw [hkernel]
    show (if q = 0 then _ else _ : Proc).state.standing = _
    split
    · rfl
    · rfl
  have hpid : ∀ q, (m.kernel.table q).pid = if q = 0 then 1 else 0 := by
    intro q
    rw [hkernel]
    show (if q = 0 then _ else _ : Proc).pid = _
    split
    · rfl
    · rfl
  have hinit : m.kernel.initproc = 0 := by rw [hkernel]; rfl
  have hnext : m.kernel.nextpid = 2 := by rw [hkernel]; rfl
  refine ⟨⟨?_, fun q hq => ?_⟩, ⟨fun q => ?_, fun q => ?_, fun q hq => ?_, fun p q hpq => ?_⟩,
    fun i hi => ?_, fun i => ?_, fun i j hi => ?_, ?_⟩
  · unfold Kernel.Alive
    rw [hinit, hstanding, if_pos rfl]
  · have hzero : q = 0 := by
      by_contra hne
      rw [hstanding, if_neg hne] at hq
      rcases hq with hq | hq
      · cases hq
      · cases hq
    unfold Kernel.Descends
    rw [hinit, hzero]
    exact .root
  · rw [hpid, hnext]
    split <;> omega
  · rw [hpid]
    split <;> omega
  · rw [hstanding] at hq
    rw [hpid]
    split
    · omega
    · rename_i hne
      rw [if_neg hne] at hq
      exact absurd rfl hq
  · rw [hpid, hpid] at hpq
    rw [hpid]
    by_cases hp : p = 0
    · by_cases hq : q = 0
      · exact .inl (hp.trans hq.symm)
      · rw [if_pos hp, if_neg hq] at hpq
        cases hpq
    · exact .inr (if_neg hp)
  · rw [hpc] at hi
    cases hi
  · rw [hctl]
    exact .inl rfl
  · rw [hctl] at hi
    cases hi
  · rw [hctl]
    rfl

theorem reach_familyInv (hm : MachineReach (fun _ _ => True) m) : FamilyInv m :=
  hm.invariant (I := FamilyInv) (fun _ => .boot) fun _ _ _ hinv _ hstep => hinv.step hstep

theorem Kernel.standing_of_zombie (hq : (k.table q).state = .ZOMBIE) : k.standing q = .zombie := by
  unfold Kernel.standing
  rw [hq]
  rfl

/-- **The family of `init`**, in every state of a run: `init` has not exited; every process descends from it by
processes that have not exited; a process that has exited has such a parent, and `wait` of that parent takes a
child off the table; and a number belongs to one process. -/
theorem family_of_init (hm : MachineReach (fun _ _ => True) m) : Family m.kernel ∧
    (∀ q, (m.kernel.table q).state = .ZOMBIE → ∃ p, (m.kernel.table q).parent = some p ∧ m.kernel.Alive p ∧
      (reap p m.kernel).isSome) ∧
    (m.kernel.nextpid ≤ INT_MAX → ∀ p q, (m.kernel.table p).state ≠ .UNUSED →
      (m.kernel.table p).pid = (m.kernel.table q).pid → p = q) := by
  obtain ⟨hfamily, hnumbered, -, -, -, -⟩ := reach_familyInv hm
  refine ⟨hfamily, fun q hq => ?_, fun _ p q hused hpid => ?_⟩
  · have hzombie := Kernel.standing_of_zombie hq
    have hne : q ≠ m.kernel.initproc := by
      rintro rfl
      cases hzombie.symm.trans hfamily.init_alive
    obtain ⟨p, hparent, halive, -⟩ := (hfamily.descends q (.inr hzombie)).parent_alive hne
    refine ⟨p, hparent, halive, ?_⟩
    unfold reap
    rw [Option.isSome_map, firstSlot, List.find?_isSome]
    exact ⟨q, List.mem_finRange q, decide_eq_true ⟨hparent, hq⟩⟩
  · have hfree : m.kernel.standing p ≠ .free := by
      unfold Kernel.standing
      cases hstate : (m.kernel.table p).state with
      | UNUSED => exact absurd hstate hused
      | _ => decide
    exact (hnumbered.unique p q hpid).resolve_right (hnumbered.pos p hfree).ne'

/-- `init` forks a child and waits for it; the child forks another process and exits. -/
def childExits : List Act :=
  List.replicate 68 .go ++ [.syscall, .op .allocproc, .op (.startChild 1), .block (.proc 0)] ++
  [.go, .go, .syscall, .op .allocproc, .op (.startChild 2), .exitCall] ++ List.replicate 66 .go

/-- The child has exited, and its own child has been passed to `init`. -/
theorem family_of_init_child : ∃ m : Machine,
    ((m.kernel.table 1).state = .ZOMBIE ∧ (m.kernel.table 1).parent = some 0) ∧
    ((m.kernel.table 2).state = .RUNNABLE ∧ (m.kernel.table 2).parent = some 0) ∧ Family m.kernel ∧
    (∃ p, (m.kernel.table 1).parent = some p ∧ m.kernel.Alive p ∧ (reap p m.kernel).isSome) ∧
    ∀ q, (m.kernel.table 1).pid = (m.kernel.table q).pid → 1 = q := by
  have hrun : (childExits.foldlM (fun m a => if true then m.step a else none) bootMachine).any fun m =>
      ((m.kernel.table 1).state = .ZOMBIE ∧ (m.kernel.table 1).parent = some 0) ∧
        ((m.kernel.table 2).state = .RUNNABLE ∧ (m.kernel.table 2).parent = some 0) ∧
        m.kernel.nextpid ≤ INT_MAX := by decide +kernel
  obtain ⟨m, hm, hstates⟩ := (Option.any_eq_true _ _).mp hrun
  obtain ⟨hone, htwo, hnext⟩ := of_decide_eq_true hstates
  have hreach : MachineReach (fun _ _ => True) m :=
    Reach.foldlM_checked (fun _ _ _ => trivial) childExits bootMachine m (.start ⟨⟨rfl, rfl⟩, rfl⟩) hm
  obtain ⟨hfamily, hwaited, hnumbers⟩ := family_of_init hreach
  exact ⟨m, hone, htwo, hfamily, hwaited 1 hone.1, fun q => hnumbers hnext 1 q (by rw [hone.1]; decide)⟩

end OperatingSystems.Sched
