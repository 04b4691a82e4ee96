import Mathlib

/-!
# Runs whose steps all meet a condition

A machine is given by the states it may start in and a labelled step relation.  `Reach` collects the
states of its runs, where each step must meet a guard that only looks at the state before the step
and at the label (the call and its arguments).  The guard `fun _ _ => True` gives all runs.

* **`Reach.invariant`** — the induction over a run, done once: what holds at the start and is kept by
  every guarded step holds in every state reached.
* **`Reach.slotwise`** — the same for a property of one slot of the state, when every step moves each slot
  along one relation.
* **`Reach.mono`** — a weaker guard reaches more states.
* **`Reach.run`**, **`Reach.foldlM`**, **`Reach.foldlM_checked`** — the state met when a list of labels is
  executed by a deterministic machine, total or not.
-/

namespace OperatingSystems.GuardedRuns

variable {σ α : Type*}

/-- The states reached from `init` by steps that meet `guard` in the state they start from. -/
inductive Reach (init : σ → Prop) (step : σ → α → σ → Prop) (guard : σ → α → Prop) : σ → Prop
  | start {s : σ} : init s → Reach init step guard s
  | next {s s' : σ} {a : α} :
      Reach init step guard s → guard s a → step s a s' → Reach init step guard s'

variable {init : σ → Prop} {step : σ → α → σ → Prop} {guard : σ → α → Prop}

/-- **The run rule.**  What holds at the start and is kept by each guarded step holds throughout. -/
theorem Reach.invariant {I : σ → Prop} (hinit : ∀ s, init s → I s)
    (hstep : ∀ s a s', I s → guard s a → step s a s' → I s') {s : σ}
    (h : Reach init step guard s) : I s := by
  induction h with
  | start h0 => exact hinit _ h0
  | next _ hg hs ih => exact hstep _ _ _ ih hg hs

/-- **The run rule slot by slot.**  A state has slots, and each step moves the view of every slot along
`move`: what `move` keeps holds of every slot throughout. -/
theorem Reach.slotwise {ι V : Type*} {view : σ → ι → V} {move : V → V → Prop} {P : V → Prop}
    (hinit : ∀ s, init s → ∀ q, P (view s q))
    (hstep : ∀ s a s', guard s a → step s a s' → ∀ q,
      Relation.ReflTransGen move (view s q) (view s' q))
    (hmove : ∀ v v', P v → move v v' → P v') {s : σ} (h : Reach init step guard s) (q : ι) :
    P (view s q) := by
  have hmoves : ∀ v v', Relation.ReflTransGen move v v' → P v → P v' := by
    intro v v' hm hv
    induction hm with
    | refl => exact hv
    | tail _ hlast ih => exact hmove _ _ ih hlast
  refine h.invariant (I := fun s => ∀ q, P (view s q)) hinit (fun s a s' hI hg hs q => ?_) q
  exact hmoves _ _ (hstep s a s' hg hs q) (hI q)

/-- A weaker guard reaches at least the same states. -/
theorem Reach.mono {guard' : σ → α → Prop} (hle : ∀ s a, guard s a → guard' s a) {s : σ}
    (h : Reach init step guard s) : Reach init step guard' s := by
  induction h with
  | start h0 => exact .start h0
  | next _ hg hs ih => exact .next ih (hle _ _ hg) hs

/-- Executing a list of labels with a deterministic machine `next`. -/
def run (next : σ → α → σ) : σ → List α → σ
  | s, [] => s
  | s, a :: as => run next (next s a) as

/-- **A concrete run reaches its last state**, when every label meets the guard. -/
theorem Reach.run {next : σ → α → σ} (hguard : ∀ s a, guard s a) :
    ∀ (as : List α) (s : σ), Reach init (fun s a s' => s' = next s a) guard s →
      Reach init (fun s a s' => s' = next s a) guard (GuardedRuns.run next s as) := by
  intro as
  induction as with
  | nil => intro s h; exact h
  | cons a as ih => intro s h; exact ih (next s a) (.next h (hguard s a) rfl)

/-- The same for a machine whose steps can fail, along a run in which none does. -/
theorem Reach.foldlM {ε : Type*} {next : σ → α → Except ε σ} :
    ∀ (as : List α) (s s' : σ), (∀ a ∈ as, ∀ s, guard s a) →
      Reach init (fun s a s' => next s a = .ok s') guard s → as.foldlM next s = .ok s' →
      Reach init (fun s a s' => next s a = .ok s') guard s' := by
  intro as
  induction as with
  | nil =>
    intro s s' _ h hrun
    rw [← Except.ok.inj (hrun : Except.ok s = Except.ok s')]
    exact h
  | cons a as ih =>
    intro s s' hguard h hrun
    rw [List.foldlM_cons] at hrun
    cases hnext : next s a with
    | error e => rw [hnext] at hrun; cases hrun
    | ok t =>
      rw [hnext] at hrun
      exact ih t s' (fun b hb => hguard b (List.mem_cons_of_mem _ hb))
        (.next h (hguard a List.mem_cons_self s) hnext) hrun

/-- The same for steps that may be impossible, along a run whose steps pass a test of the guard. -/
theorem Reach.foldlM_checked {next : σ → α → Option σ} {ok : σ → α → Bool}
    (hok : ∀ s a, ok s a → guard s a) :
    ∀ (as : List α) (s s' : σ), Reach init (fun s a s' => next s a = some s') guard s →
      (as.foldlM (fun s a => if ok s a then next s a else none) s) = some s' →
      Reach init (fun s a s' => next s a = some s') guard s' := by
  intro as
  induction as with
  | nil =>
    intro s s' h hrun
    rw [← Option.some.inj (hrun : some s = some s')]
    exact h
  | cons a as ih =>
    intro s s' h hrun
    rw [List.foldlM_cons, Option.bind_eq_bind, Option.bind_eq_some_iff] at hrun
    obtain ⟨t, ht, hrun⟩ := hrun
    rw [Option.ite_none_right_eq_some] at ht
    exact ih t s' (.next h (hok s a ht.1) ht.2) hrun

end OperatingSystems.GuardedRuns
