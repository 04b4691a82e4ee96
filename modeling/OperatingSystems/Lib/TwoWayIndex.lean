import Mathlib

/-!
# Two tables that point at each other

An index takes identifiers to slots, and each slot is labelled with the identifier it is listed under.
The two are separate tables, so an operation has to change both to keep them in step.

* **`Linked`** — the index and the labels say the same.
* **`Linked.link`**, **`Linked.unlink`** — a pair is entered in both tables, or removed from both.
* **`Linked.index_eq_none`** — an identifier is free exactly when no slot carries it.
-/

namespace OperatingSystems.TwoWayIndex

variable {I K : Type*} {index : I → Option K} {label : K → Option I} {i : I} {k : K}

/-- The index lists a slot under an identifier exactly when the slot is labelled with it. -/
def Linked (index : I → Option K) (label : K → Option I) : Prop :=
  ∀ i k, index i = some k ↔ label k = some i

theorem linked_empty : Linked (fun _ : I => (none : Option K)) fun _ => none := by
  intro i k
  constructor <;> intro h <;> cases h

/-- An identifier is free exactly when no slot carries it. -/
theorem Linked.index_eq_none (h : Linked index label) : index i = none ↔ ∀ k, label k ≠ some i := by
  constructor
  · intro hi k hk
    rw [(h i k).mpr hk] at hi
    cases hi
  · intro hno
    cases hi : index i with
    | none => rfl
    | some k => exact absurd ((h i k).mp hi) (hno k)

section Update

variable [DecidableEq I] [DecidableEq K]

/-- **A free identifier and an unlabelled slot are linked** by one entry in each table. -/
theorem Linked.link (h : Linked index label) (hi : index i = none) (hk : label k = none) :
    Linked (Function.update index i (some k)) (Function.update label k (some i)) := by
  intro j l
  rcases eq_or_ne j i with rfl | hj
  · rcases eq_or_ne l k with rfl | hl
    · rw [Function.update_self, Function.update_self]
      exact iff_of_true rfl rfl
    · rw [Function.update_self, Function.update_of_ne hl, ← h, hi]
      exact iff_of_false (fun he => hl (Option.some.inj he).symm) (fun he => nomatch he)
  · rcases eq_or_ne l k with rfl | hl
    · rw [Function.update_self, Function.update_of_ne hj, h, hk]
      exact iff_of_false (fun he => nomatch he) (fun he => hj (Option.some.inj he).symm)
    · rw [Function.update_of_ne hj, Function.update_of_ne hl]
      exact h j l

/-- **A linked pair is removed** by clearing its entry in each table. -/
theorem Linked.unlink (h : Linked index label) (hi : index i = some k) :
    Linked (Function.update index i none) (Function.update label k none) := by
  intro j l
  rcases eq_or_ne j i with rfl | hj
  · rcases eq_or_ne l k with rfl | hl
    · rw [Function.update_self, Function.update_self]
      exact iff_of_false (fun he => nomatch he) (fun he => nomatch he)
    · rw [Function.update_self, Function.update_of_ne hl, ← h, hi]
      exact iff_of_false (fun he => nomatch he) (fun he => hl (Option.some.inj he).symm)
  · rcases eq_or_ne l k with rfl | hl
    · rw [Function.update_self, Function.update_of_ne hj, h, (h i l).mp hi]
      exact iff_of_false (fun he => hj (Option.some.inj he).symm) (fun he => nomatch he)
    · rw [Function.update_of_ne hj, Function.update_of_ne hl]
      exact h j l

end Update

end OperatingSystems.TwoWayIndex
