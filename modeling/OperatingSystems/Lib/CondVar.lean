import Mathlib

/-!
# Waiting on a condition variable

Threads `ι` share a number of tokens under a mutex.  A thread that finds no token sleeps on the
condition variable; a woken thread must get the mutex again before it can look.  A signal wakes at
least one sleeper if there is one, a sleeper may also wake by itself, and others may take tokens
without waiting.

* **`Step`** — one critical section, or one wakeup.
* **`Covered`** — while somebody sleeps there are as many woken threads as tokens.
* **`Step.covered`** — every step keeps that, so no token waits while all threads sleep.
-/

namespace OperatingSystems.CondVar

/-- Where a thread stands with respect to the condition variable. -/
inductive Phase
  | outside
  | blocked
  | woken
deriving DecidableEq, Repr

variable {ι : Type*} [DecidableEq ι]

/-- The threads woken that have not got the mutex again. -/
def woken [Fintype ι] (phase : ι → Phase) : Finset ι :=
  Finset.univ.filter fun i => phase i = .woken

/-- Some thread sleeps. -/
def Sleeping (phase : ι → Phase) : Prop :=
  ∃ i, phase i = .blocked

/-- What one signal may wake: sleepers only, and one of them at least when there is one. -/
structure Signals (phase : ι → Phase) (signalled : Finset ι) : Prop where
  sleepers : ∀ i ∈ signalled, phase i = .blocked
  some_wakes : Sleeping phase → signalled.Nonempty

/-- The signalled threads are woken. -/
def wake (phase : ι → Phase) (signalled : Finset ι) : ι → Phase :=
  fun i => if i ∈ signalled then .woken else phase i

/-- One step of the threads and of those that add or take tokens without waiting. -/
inductive Step : ℕ × (ι → Phase) → ℕ × (ι → Phase) → Prop
  | stay (n : ℕ) (phase : ι → Phase) : Step (n, phase) (n, phase)
  | produce (n : ℕ) (phase : ι → Phase) (signalled : Finset ι) :
      Signals phase signalled → Step (n, phase) (n + 1, wake phase signalled)
  | consume (n : ℕ) (phase : ι → Phase) : Step (n + 1, phase) (n, phase)
  | wait (phase : ι → Phase) (i : ι) : Step (0, phase) (0, Function.update phase i .blocked)
  | take (n : ℕ) (phase : ι → Phase) (i : ι) : phase i ≠ .blocked →
      Step (n + 1, phase) (n, Function.update phase i .outside)
  | spurious (n : ℕ) (phase : ι → Phase) (i : ι) : phase i = .blocked →
      Step (n, phase) (n, Function.update phase i .woken)

/-- **While somebody sleeps every token has a woken thread of its own.** -/
def Covered [Fintype ι] (s : ℕ × (ι → Phase)) : Prop :=
  Sleeping s.2 → s.1 ≤ (woken s.2).card

variable {phase : ι → Phase} {i : ι}

section Counting

variable [Fintype ι]

omit [DecidableEq ι] in
@[simp] theorem mem_woken : i ∈ woken phase ↔ phase i = .woken := by
  simp [woken]

/-- A thread that goes back to work is woken no more. -/
theorem woken_update_outside (phase : ι → Phase) (i : ι) :
    woken (Function.update phase i .outside) = (woken phase).erase i := by
  ext j
  by_cases hj : j = i
  · subst hj
    simp
  · simp [hj]

theorem woken_update_woken (phase : ι → Phase) (i : ι) :
    woken (Function.update phase i .woken) = insert i (woken phase) := by
  ext j
  by_cases hj : j = i
  · subst hj
    simp
  · simp [hj]

theorem woken_wake (phase : ι → Phase) (signalled : Finset ι) :
    woken (wake phase signalled) = signalled ∪ woken phase := by
  ext j
  by_cases hj : j ∈ signalled <;> simp [wake, hj]

end Counting

/-- Nobody falls asleep by a signal, by leaving, or by waking up. -/
theorem Sleeping.of_update {p : Phase} (hp : p ≠ .blocked)
    (h : Sleeping (Function.update phase i p)) : Sleeping phase := by
  obtain ⟨j, hj⟩ := h
  by_cases hji : j = i
  · subst hji
    rw [Function.update_self] at hj
    exact absurd hj hp
  · rw [Function.update_of_ne hji] at hj
    exact ⟨j, hj⟩

theorem Sleeping.of_wake {signalled : Finset ι} (h : Sleeping (wake phase signalled)) :
    Sleeping phase := by
  obtain ⟨j, hj⟩ := h
  refine ⟨j, ?_⟩
  by_cases hmem : j ∈ signalled
  · rw [wake, if_pos hmem] at hj
    cases hj
  · rw [wake, if_neg hmem] at hj
    exact hj

variable [Fintype ι]

/-- A signal to a sleeper adds at least one woken thread. -/
theorem card_woken_wake {signalled : Finset ι} (h : Signals phase signalled)
    (hs : Sleeping phase) : (woken phase).card + 1 ≤ (woken (wake phase signalled)).card := by
  have hdisj : Disjoint signalled (woken phase) := by
    rw [Finset.disjoint_left]
    intro j hj hw
    rw [mem_woken, h.sleepers j hj] at hw
    cases hw
  have hpos : 0 < signalled.card := (h.some_wakes hs).card_pos
  rw [woken_wake, Finset.card_union_of_disjoint hdisj]
  omega

/-- **Every step keeps the tokens covered.** -/
theorem Step.covered {s s' : ℕ × (ι → Phase)} (h : Step s s') (hc : Covered s) : Covered s' := by
  cases h with
  | stay => exact hc
  | produce n phase signalled hsig =>
    intro hs
    have hold : n ≤ (woken phase).card := hc hs.of_wake
    have hnew := card_woken_wake hsig hs.of_wake
    show n + 1 ≤ (woken (wake phase signalled)).card
    omega
  | consume n phase =>
    intro hs
    have hold : n + 1 ≤ (woken phase).card := hc hs
    show n ≤ (woken phase).card
    omega
  | wait phase i => exact fun _ => Nat.zero_le _
  | take n phase i hi =>
    intro hs
    have hold : n + 1 ≤ (woken phase).card := hc (hs.of_update (by decide))
    have hpred := Finset.pred_card_le_card_erase (s := woken phase) (a := i)
    show n ≤ (woken (Function.update phase i .outside)).card
    rw [woken_update_outside]
    omega
  | spurious n phase i hi =>
    intro hs
    have hold : n ≤ (woken phase).card := hc (hs.of_update (by decide))
    show n ≤ (woken (Function.update phase i .woken)).card
    rw [woken_update_woken]
    exact hold.trans (Finset.card_le_card (Finset.subset_insert _ _))

omit [DecidableEq ι] in
/-- A covered state never lets a token wait while every thread at the condition variable sleeps. -/
theorem Covered.woken_nonempty {s : ℕ × (ι → Phase)} (h : Covered s) (hn : 0 < s.1)
    (hs : Sleeping s.2) : ∃ i, s.2 i = .woken := by
  have hcard := h hs
  obtain ⟨i, hi⟩ := Finset.card_pos.mp (hn.trans_le hcard)
  exact ⟨i, mem_woken.mp hi⟩

end OperatingSystems.CondVar
