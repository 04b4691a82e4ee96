import Mathlib

/-!
# Resources that have one owner until they are released

A resource is acquired, handed from place to place, and released; afterwards the same name may be
acquired again.  `Account` counts, for each resource, the places that own it, and records every
acquisition and every release.

* **`OneOwner`** — no release without an acquisition of its own, and a resource that is acquired and
  not yet released is owned by exactly one place.
* **`Balanced`** — the invariant behind it: owners and releases add up to the acquisitions.
* **`holders`** — how many of a finite number of places hold a resource, and what an update of one
  place does to it.
-/

namespace OperatingSystems.Ownership

variable {ρ : Type*} [DecidableEq ρ]

/-- The owners of each resource, with all acquisitions and releases so far. -/
structure Account (ρ : Type*) where
  owners : ρ → ℕ
  acquired : List ρ
  released : List ρ

/-- Acquired and not yet released. -/
def Account.Held (a : Account ρ) (x : ρ) : Prop :=
  a.released.count x < a.acquired.count x

/-- **Every resource has exactly one owner until it is released**, and no release is one too many. -/
def Account.OneOwner (a : Account ρ) : Prop :=
  ∀ x, a.released.count x ≤ a.acquired.count x ∧ (a.Held x → a.owners x = 1)

/-- Owners and releases add up to the acquisitions, and nothing has two owners. -/
def Account.Balanced (a : Account ρ) : Prop :=
  ∀ x, a.owners x + a.released.count x = a.acquired.count x ∧ a.owners x ≤ 1

theorem Account.Balanced.oneOwner {a : Account ρ} (h : a.Balanced) : a.OneOwner := by
  intro x
  obtain ⟨hsum, hle⟩ := h x
  refine ⟨by omega, fun hheld => ?_⟩
  rw [Account.Held] at hheld
  omega

/-- An owner of a resource keeps it held. -/
theorem Account.Balanced.held {a : Account ρ} (h : a.Balanced) {x : ρ} (hx : 0 < a.owners x) :
    a.Held x := by
  have := (h x).1
  rw [Account.Held]
  omega

/-- **Handing over** a resource: the places change, their number does not. -/
theorem Account.Balanced.handOver {a b : Account ρ} (h : a.Balanced)
    (howners : ∀ y, b.owners y = a.owners y) (hacq : b.acquired = a.acquired)
    (hrel : b.released = a.released) : b.Balanced := by
  intro y
  rw [howners, hacq, hrel]
  exact h y

/-- **Acquiring** a resource that is not held, by one place. -/
theorem Account.Balanced.acquire {a b : Account ρ} (h : a.Balanced) {x : ρ} (hx : ¬a.Held x)
    (howners : ∀ y, b.owners y = a.owners y + if y = x then 1 else 0)
    (hacq : b.acquired = x :: a.acquired) (hrel : b.released = a.released) : b.Balanced := by
  intro y
  obtain ⟨hsum, hle⟩ := h y
  rw [howners, hacq, hrel, List.count_cons]
  by_cases hyx : y = x
  · subst hyx
    rw [Account.Held] at hx
    simp only [if_true, beq_self_eq_true]
    omega
  · have hxy : ¬x = y := fun hc => hyx hc.symm
    simp only [if_neg hyx, beq_iff_eq, if_neg hxy]
    omega

/-- **Releasing** a resource, by the place that owns it. -/
theorem Account.Balanced.release {a b : Account ρ} (h : a.Balanced) {x : ρ}
    (howners : ∀ y, a.owners y = b.owners y + if y = x then 1 else 0)
    (hacq : b.acquired = a.acquired) (hrel : b.released = x :: a.released) : b.Balanced := by
  intro y
  obtain ⟨hsum, hle⟩ := h y
  have hown := howners y
  rw [hacq, hrel, List.count_cons]
  by_cases hyx : y = x
  · subst hyx
    simp only [if_true, beq_self_eq_true] at hown ⊢
    omega
  · have hxy : ¬x = y := fun hc => hyx hc.symm
    simp only [if_neg hyx, beq_iff_eq, if_neg hxy] at hown ⊢
    omega

/-- **Dropping** a resource that is owned: it stays acquired, with no owner. -/
theorem Account.Balanced.drop {a b : Account ρ} (h : a.Balanced) {x : ρ}
    (howners : ∀ y, a.owners y = b.owners y + if y = x then 1 else 0)
    (hacq : b.acquired = a.acquired) (hrel : b.released = a.released) : ¬b.OneOwner := by
  intro hone
  have hown := howners x
  obtain ⟨hsum, hle⟩ := h x
  have hheld : b.Held x := by
    rw [Account.Held, hacq, hrel]
    rw [if_pos rfl] at hown
    omega
  have := (hone x).2 hheld
  rw [if_pos rfl] at hown
  omega

/-! ### Counting the holders -/

section Holders

variable {ι : Type*} [Fintype ι] [DecidableEq ι]

/-- The number of places that hold `x`. -/
def holders (held : ι → Option ρ) (x : ρ) : ℕ :=
  ∑ i, if held i = some x then 1 else 0

omit [DecidableEq ι] in
theorem holders_none (x : ρ) : holders (fun _ : ι => (none : Option ρ)) x = 0 := by
  simp [holders]

/-- **One place changes what it holds.** -/
theorem holders_update (held : ι → Option ρ) (i : ι) (new : Option ρ) (x : ρ) :
    holders (Function.update held i new) x + (if held i = some x then 1 else 0) =
      holders held x + if new = some x then 1 else 0 := by
  have hrest : ∑ j ∈ Finset.univ.erase i,
        (if Function.update held i new j = some x then 1 else 0) =
      ∑ j ∈ Finset.univ.erase i, if held j = some x then 1 else 0 := by
    apply Finset.sum_congr rfl
    intro j hj
    rw [Function.update_of_ne (Finset.ne_of_mem_erase hj)]
  have hnew := Finset.add_sum_erase Finset.univ
    (fun j => if Function.update held i new j = some x then 1 else 0) (Finset.mem_univ i)
  have hold := Finset.add_sum_erase Finset.univ
    (fun j => if held j = some x then 1 else 0) (Finset.mem_univ i)
  simp only [Function.update_self] at hnew
  rw [holders, holders, ← hnew, ← hold, hrest]
  ring

theorem holders_take (held : ι → Option ρ) {i : ι} (h : held i = none) (x y : ρ) :
    holders (Function.update held i (some x)) y = holders held y + if y = x then 1 else 0 := by
  have := holders_update held i (some x) y
  rw [h, if_neg (by simp)] at this
  simpa [eq_comm] using this

theorem holders_give (held : ι → Option ρ) {i : ι} {x : ρ} (h : held i = some x) (y : ρ) :
    holders held y = holders (Function.update held i none) y + if y = x then 1 else 0 := by
  have := holders_update held i none y
  rw [h] at this
  simpa [eq_comm] using this.symm

end Holders

end OperatingSystems.Ownership
