import Mathlib

/-!
# Counting references

Finitely many places, each of which holds a value: `refs f x` places hold the value `x`.

* **`refs_update`** — how the counts change when one place gets another value.
* **`refs_eq_zero`** — no place holds the value.
-/

namespace OperatingSystems.RefCounts

variable {ι β : Type*} [Fintype ι] [DecidableEq β] {f : ι → β} {x y : β}

/-- How many places hold `x`. -/
def refs (f : ι → β) (x : β) : ℕ := (Finset.univ.filter fun p => f p = x).card

theorem refs_eq_zero : refs f x = 0 ↔ ∀ p, f p ≠ x := by
  unfold refs
  rw [Finset.card_eq_zero, Finset.filter_eq_empty_iff]
  exact ⟨fun h p => h (Finset.mem_univ p), fun h p _ => h p⟩

theorem refs_pos (p : ι) (hp : f p = x) : 0 < refs f x :=
  Nat.pos_of_ne_zero fun hzero => refs_eq_zero.mp hzero p hp

theorem refs_const (hne : y ≠ x) : refs (fun _ : ι => y) x = 0 :=
  refs_eq_zero.mpr fun _ => hne

/-- **One place gets another value.** -/
theorem refs_update [DecidableEq ι] (f : ι → β) (p : ι) (x y : β) :
    refs (Function.update f p y) x + (if f p = x then 1 else 0) = refs f x + (if y = x then 1 else 0) := by
  have hrest : ∀ q ∈ Finset.univ.erase p,
      (if Function.update f p y q = x then 1 else 0) = if f q = x then 1 else 0 := by
    intro q hq
    rw [Function.update_of_ne (Finset.ne_of_mem_erase hq)]
  unfold refs
  rw [Finset.card_filter, Finset.card_filter, ← Finset.sum_erase_add _ _ (Finset.mem_univ p),
    ← Finset.sum_erase_add Finset.univ (fun q => if f q = x then 1 else 0) (Finset.mem_univ p),
    Finset.sum_congr rfl hrest, Function.update_self]
  omega

end OperatingSystems.RefCounts
