import Mathlib

/-!
# Trees given by pointers to parents

Every node may point to a parent.  A node is rooted when the pointers lead from it to the root, and all nodes on
the way are alive; the node itself need not be.

* **`Rooted.transfer`** — what has to hold of the edges so that rooted nodes stay rooted.
* **`Rooted.adopt`**, **`Rooted.of_alive`** — a node is passed to the root; others come and go.
-/

namespace OperatingSystems.ParentTree

variable {α : Type*} {parent parent' : α → Option α} {alive alive' : α → Prop} {root p q c : α}

/-- **The pointers lead from the node to the root**, by nodes that are alive. -/
inductive Rooted (parent : α → Option α) (alive : α → Prop) (root : α) : α → Prop
  | root : Rooted parent alive root root
  | child {p q : α} : parent q = some p → alive p → Rooted parent alive root p → Rooted parent alive root q

/-- Each edge is still there, or its lower end is rooted in another way. -/
theorem Rooted.transfer (h : Rooted parent alive root q)
    (hedge : ∀ q p, parent q = some p → alive p →
      (parent' q = some p ∧ alive' p) ∨ Rooted parent' alive' root q) : Rooted parent' alive' root q := by
  induction h with
  | root => exact .root
  | child hparent halive _ ih =>
    rcases hedge _ _ hparent halive with ⟨hparent', halive'⟩ | hrooted
    · exact .child hparent' halive' ih
    · exact hrooted

/-- Nodes that nobody points to may die, and others come alive. -/
theorem Rooted.of_alive (h : Rooted parent alive root q)
    (halive : ∀ q p, parent q = some p → alive p → alive' p) : Rooted parent alive' root q :=
  h.transfer fun q p hparent hp => .inl ⟨hparent, halive q p hparent hp⟩

/-- A node is passed to the root. -/
theorem Rooted.adopt [DecidableEq α] (h : Rooted parent alive root q) (hroot : alive root) (c : α) :
    Rooted (Function.update parent c (some root)) alive root q := by
  refine h.transfer fun q p hparent hp => ?_
  by_cases hq : q = c
  · refine .inr (.child ?_ hroot .root)
    rw [hq, Function.update_self]
  · refine .inl ⟨?_, hp⟩
    rw [Function.update_of_ne hq]
    exact hparent

/-- A node that is not alive gets another parent: nothing else hangs on it. -/
theorem Rooted.of_leaf [DecidableEq α] (h : Rooted parent alive root q) (hq : q ≠ c) (hc : ¬alive c)
    (o : Option α) : Rooted (Function.update parent c o) alive root q := by
  induction h with
  | root => exact .root
  | child hparent halive _ ih =>
    refine .child ?_ halive (ih fun heq => hc (heq ▸ halive))
    rw [Function.update_of_ne hq]
    exact hparent

/-- The node next to a rooted one on the way to the root is alive. -/
theorem Rooted.parent_alive (h : Rooted parent alive root q) (hq : q ≠ root) :
    ∃ p, parent q = some p ∧ alive p ∧ Rooted parent alive root p := by
  cases h with
  | root => exact absurd rfl hq
  | child hparent halive hrooted => exact ⟨_, hparent, halive, hrooted⟩

end OperatingSystems.ParentTree
