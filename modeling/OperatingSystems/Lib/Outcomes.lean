import Mathlib

/-!
# Outcomes of fallible steps

Computations in `Except`: what the outcome of a sequence says about its parts.

* **`bind_eq_ok`**, **`bind_eq_error`** — a sequence that succeeds, and one that fails.
* **`Fails`** — what holds of a failure; **`Fails.bind`** is its rule for a sequence.
* **`foldlM_ok`** — what each step of a loop keeps, the loop keeps.
* **`Meets`** — a postcondition for the value together with one for the error; **`Meets.bind`** and
  **`Meets.foldlM`** are its rules for a sequence and for a loop.
-/

namespace OperatingSystems.Outcomes

variable {ε α β σ : Type}

theorem ok_bind (a : α) (f : α → Except ε β) : (Except.ok a >>= f) = f a := rfl

theorem error_bind (e : ε) (f : α → Except ε β) :
    ((Except.error e : Except ε α) >>= f) = .error e := rfl

theorem bind_eq_ok {x : Except ε α} {f : α → Except ε β} {b : β} (h : (x >>= f) = .ok b) :
    ∃ a, x = .ok a ∧ f a = .ok b := by
  cases x with
  | error e => cases h
  | ok a => exact ⟨a, rfl, h⟩

theorem bind_eq_error {x : Except ε α} {f : α → Except ε β} {e : ε} (h : (x >>= f) = .error e) :
    x = .error e ∨ ∃ a, x = .ok a ∧ f a = .error e := by
  cases x with
  | error e' =>
    refine Or.inl ?_
    rw [error_bind] at h
    rw [Except.error.inj h]
  | ok a => exact Or.inr ⟨a, rfl, h⟩

/-! ### Failures -/

/-- A failure satisfies `E`. -/
def Fails (E : ε → Prop) (x : Except ε α) : Prop :=
  ∀ e, x = .error e → E e

theorem Fails.ok {E : ε → Prop} {a : α} : Fails E (.ok a) := by
  intro e h
  cases h

theorem Fails.error {E : ε → Prop} {e : ε} (h : E e) : Fails E (.error e : Except ε α) := by
  intro e' he
  rw [← Except.error.inj he]
  exact h

/-- The second part of a sequence fails with a value of the first. -/
theorem Fails.bind {E : ε → Prop} {x : Except ε α} {f : α → Except ε β} (hx : Fails E x)
    (hf : ∀ a, x = .ok a → Fails E (f a)) : Fails E (x >>= f) := by
  intro e h
  obtain hfirst | ⟨a, ha, hsecond⟩ := bind_eq_error h
  · exact hx e hfirst
  · exact hf a ha e hsecond

theorem Fails.map {E : ε → Prop} {x : Except ε α} (hx : Fails E x) (f : α → β) : Fails E (x.map f) := by
  cases x with
  | error e => exact .error (hx e rfl)
  | ok a => exact .ok

/-! ### Postconditions -/

/-- The value of a computation satisfies `P`, or its error satisfies `E`. -/
def Meets (P : α → Prop) (E : ε → Prop) : Except ε α → Prop
  | .ok a => P a
  | .error e => E e

variable {P : α → Prop} {Q : β → Prop} {E : ε → Prop}

theorem Meets.bind {x : Except ε α} {f : α → Except ε β} (hx : Meets P E x)
    (hf : ∀ a, P a → Meets Q E (f a)) : Meets Q E (x >>= f) := by
  cases x with
  | error e => exact hx
  | ok a => exact hf a hx

/-- A loop keeps what each of its steps keeps. -/
theorem Meets.foldlM {I : σ → Prop} {f : σ → α → Except ε σ} {xs : List α} {s : σ} (hs : I s)
    (hstep : ∀ s, I s → ∀ x ∈ xs, Meets I E (f s x)) : Meets I E (xs.foldlM f s) := by
  induction xs generalizing s with
  | nil => exact hs
  | cons x xs ih =>
    rw [List.foldlM_cons]
    apply (hstep s hs x List.mem_cons_self).bind
    intro t ht
    exact ih ht fun s hs y hy => hstep s hs y (List.mem_cons_of_mem _ hy)

end OperatingSystems.Outcomes
