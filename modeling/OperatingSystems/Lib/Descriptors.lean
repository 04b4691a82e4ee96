import Mathlib

/-!
# Descriptor tables

A process has a table of descriptors, each of which is closed or open on something.  What is opened gets the
lowest descriptor that is closed, below a limit.

* **`allocate`**, **`dup2`**, **`close`** — the operations.
* **`free`** — the descriptors that are left; `allocate` fails exactly when there is none.
-/

namespace OperatingSystems.Descriptors

/-- What each descriptor is open on. -/
abbrev Table (ε : Type*) := ℕ → Option ε

variable {ε : Type*} {limit fd old new : ℕ} {e : ε} {t t' : Table ε}

def lowest (limit : ℕ) (t : Table ε) : Option ℕ :=
  (List.range limit).find? fun fd => (t fd).isNone

def allocate (limit : ℕ) (e : ε) (t : Table ε) : Option (ℕ × Table ε) :=
  (lowest limit t).map fun fd => (fd, Function.update t fd (some e))

def dup2 (old new : ℕ) (t : Table ε) : Table ε :=
  match t old with
  | some e => Function.update t new (some e)
  | none => t

def close (fd : ℕ) (t : Table ε) : Table ε := Function.update t fd none

/-- The descriptors that can still be opened. -/
def free (limit : ℕ) (t : Table ε) : Finset ℕ :=
  (Finset.range limit).filter fun fd => (t fd).isNone

@[simp] theorem mem_free : fd ∈ free limit t ↔ fd < limit ∧ t fd = none := by
  simp [free]

theorem lowest_eq_some : lowest limit t = some fd ↔ fd ∈ free limit t ∧ ∀ x < fd, t x ≠ none := by
  unfold lowest
  rw [List.find?_range_eq_some, mem_free]
  simp only [Option.isNone_iff_eq_none, List.mem_range, Bool.not_eq_eq_eq_not, Bool.not_true,
    Option.isNone_eq_false_iff, Option.isSome_iff_ne_none, ne_eq]
  exact ⟨fun ⟨hnone, hlt, hmin⟩ => ⟨⟨hlt, hnone⟩, hmin⟩, fun ⟨⟨hlt, hnone⟩, hmin⟩ => ⟨hnone, hlt, hmin⟩⟩

/-- **What is opened** gets the lowest descriptor that is closed. -/
theorem allocate_eq_some (h : allocate limit e t = some (fd, t')) :
    fd ∈ free limit t ∧ (∀ x < fd, t x ≠ none) ∧ t' = Function.update t fd (some e) := by
  obtain ⟨x, hx, heq⟩ := Option.map_eq_some_iff.mp h
  cases heq
  obtain ⟨hfree, hmin⟩ := lowest_eq_some.mp hx
  exact ⟨hfree, hmin, rfl⟩

theorem allocate_isSome (h : (free limit t).Nonempty) (e : ε) : ∃ r, allocate limit e t = some r := by
  obtain ⟨fd, hfd⟩ := h
  cases hlow : lowest limit t with
  | some x => exact ⟨_, by rw [allocate, hlow]; rfl⟩
  | none =>
    obtain ⟨hlt, hnone⟩ := mem_free.mp hfd
    have hall := List.find?_eq_none.mp hlow fd (List.mem_range.mpr hlt)
    rw [hnone] at hall
    exact absurd rfl hall

theorem free_update_some (fd : ℕ) (e : ε) : free limit (Function.update t fd (some e)) = (free limit t).erase fd := by
  ext x
  rw [mem_free, Finset.mem_erase, mem_free]
  by_cases hx : x = fd
  · rw [hx, Function.update_self]
    simp
  · rw [Function.update_of_ne hx]
    exact ⟨fun h => ⟨hx, h⟩, fun h => h.2⟩

/-- One descriptor less is left. -/
theorem card_free_allocate (h : allocate limit e t = some (fd, t')) :
    (free limit t').card + 1 = (free limit t).card := by
  obtain ⟨hfree, -, rfl⟩ := allocate_eq_some h
  rw [free_update_some]
  exact Finset.card_erase_add_one hfree

theorem dup2_of_open (h : t old = some e) (new : ℕ) : dup2 old new t = Function.update t new (some e) := by
  unfold dup2
  rw [h]

end OperatingSystems.Descriptors
