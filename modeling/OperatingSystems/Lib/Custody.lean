import Mathlib

/-!
# Things that have one keeper, beside things in common use

A multiset of things that are kept somewhere, each at one place, beside a set of things that any number of
places may use.  Things go from the one to the other and back.

* **`Exclusive`** — nothing is kept twice, and nothing that is kept is in common use.
* **`Exclusive.exchange`** — some things are given to common use, others are taken back from it.
* **`sum_update_add`** — what all keepers have, when one of them changes.
* **`holdings`** — what the cells of a table hold, and how that changes with one cell.
-/

namespace OperatingSystems.Custody

variable {α ι κ : Type*}

/-! ### Kept and common -/

/-- Everything that is kept is kept once, and is not in common use. -/
structure Exclusive (kept : Multiset α) (common : Set α) : Prop where
  nodup : kept.Nodup
  apart : ∀ x ∈ kept, x ∉ common

variable {kept kept' given back : Multiset α} {common common' : Set α}

/-- **Giving and taking back.**  What is kept afterwards, with all that is given to common use, comes from
what was kept and what is taken back; and that was in common use and is not any more. -/
theorem Exclusive.exchange (h : Exclusive kept common) (hkept : kept' + given ≤ back + kept)
    (hback : back.Nodup) (hwas : ∀ x ∈ back, x ∈ common) (hgone : ∀ x ∈ back, x ∉ common')
    (hcommon : ∀ x ∈ common', x ∈ kept' → x ∈ common ∨ x ∈ given) : Exclusive kept' common' := by
  have hall : (back + kept).Nodup := by
    rw [Multiset.nodup_add]
    refine ⟨hback, h.nodup, Multiset.disjoint_left.mpr fun hx hkeep => ?_⟩
    exact h.apart _ hkeep (hwas _ hx)
  have hnodup := Multiset.nodup_of_le hkept hall
  refine ⟨(Multiset.nodup_add.mp hnodup).1, fun x hx hin => ?_⟩
  have hfrom := Multiset.mem_of_le hkept (Multiset.mem_add.mpr (.inl hx))
  rcases Multiset.mem_add.mp hfrom with hb | hk
  · exact hgone x hb hin
  · rcases hcommon x hin hx with hc | hg
    · exact h.apart x hk hc
    · exact Multiset.disjoint_left.mp (Multiset.nodup_add.mp hnodup).2.2 hx hg

/-! ### Finitely many keepers -/

theorem sum_update_add [Fintype ι] [DecidableEq ι] (own : ι → Multiset α) (i : ι) (m : Multiset α) :
    (∑ j, Function.update own i m j) + own i = m + ∑ j, own j := by
  rw [Finset.sum_update_of_mem (Finset.mem_univ i), ← Finset.add_sum_erase _ _ (Finset.mem_univ i),
    Finset.sdiff_singleton_eq_erase]
  abel

/-! ### Tables -/

/-- What the cells of a list hold. -/
def holdings (cells : List κ) (table : κ → Option α) : Multiset α :=
  (cells.filterMap table : List α)

variable {cells : List κ} {table table' : κ → Option α} {p q : κ} {x : α}

theorem mem_holdings : x ∈ holdings cells table ↔ ∃ p ∈ cells, table p = some x := by
  rw [holdings, Multiset.mem_coe, List.mem_filterMap]

theorem holdings_congr (h : ∀ p ∈ cells, table' p = table p) :
    holdings cells table' = holdings cells table := by
  unfold holdings
  rw [List.filterMap_congr h]

variable [DecidableEq κ]

/-- One cell, and the others. -/
theorem holdings_cons (hp : p ∈ cells) (hnodup : cells.Nodup) :
    holdings cells table =
      (table p).toList + holdings cells (Function.update table p none) := by
  have hother : (cells.erase p).filterMap (Function.update table p none) =
      (cells.erase p).filterMap table := by
    refine List.filterMap_congr fun r hr => ?_
    exact Function.update_of_ne (fun he => (hnodup.mem_erase_iff.mp hr).1 he) ..
  unfold holdings
  rw [Multiset.coe_eq_coe.mpr ((List.perm_cons_erase hp).filterMap table),
    Multiset.coe_eq_coe.mpr ((List.perm_cons_erase hp).filterMap (Function.update table p none)),
    List.filterMap_cons, List.filterMap_cons, Function.update_self, hother]
  cases table p with
  | none => exact (zero_add _).symm
  | some x => rfl

/-- A cell that was empty is filled. -/
theorem holdings_fill_le (hnodup : cells.Nodup) (hp : table p = none) :
    holdings cells (Function.update table p (some x)) ≤ x ::ₘ holdings cells table := by
  by_cases hmem : p ∈ cells
  · have hself : Function.update table p none = table := by
      rw [← hp]
      exact Function.update_eq_self ..
    rw [holdings_cons hmem hnodup, Function.update_self, Function.update_idem, hself]
    exact le_of_eq rfl
  · have hsame : holdings cells (Function.update table p (some x)) = holdings cells table := by
      refine holdings_congr fun r hr => Function.update_of_ne ?_ ..
      rintro rfl
      exact hmem hr
    rw [hsame]
    exact Multiset.le_cons_self ..

/-- A cell is emptied. -/
theorem holdings_empty (hmem : p ∈ cells) (hnodup : cells.Nodup) (hp : table p = some x) :
    holdings cells table = x ::ₘ holdings cells (Function.update table p none) := by
  rw [holdings_cons hmem hnodup, hp]
  rfl

theorem holdings_empty_le (hnodup : cells.Nodup) :
    holdings cells (Function.update table p none) ≤ holdings cells table := by
  by_cases hmem : p ∈ cells
  · conv_rhs => rw [holdings_cons hmem hnodup]
    exact Multiset.le_add_left ..
  · refine le_of_eq (holdings_congr fun r hr => Function.update_of_ne ?_ ..)
    rintro rfl
    exact hmem hr

omit [DecidableEq κ] in
/-- Cells that hold different things hold nothing twice. -/
theorem nodup_holdings (hnodup : cells.Nodup)
    (h : ∀ p ∈ cells, ∀ q ∈ cells, ∀ x, table p = some x → table q = some x → p = q) :
    (holdings cells table).Nodup := by
  induction cells with
  | nil => exact Multiset.nodup_zero
  | cons r rest ih =>
    obtain ⟨hr, hrest⟩ := List.nodup_cons.mp hnodup
    have hrec := ih hrest fun p hp q hq => h p (List.mem_cons_of_mem _ hp) q (List.mem_cons_of_mem _ hq)
    unfold holdings
    rw [List.filterMap_cons]
    cases hx : table r with
    | none => exact hrec
    | some x =>
      refine Multiset.nodup_cons.mpr ⟨fun hmem => ?_, hrec⟩
      obtain ⟨q, hq, hqx⟩ := mem_holdings.mp hmem
      exact hr (h r List.mem_cons_self q (List.mem_cons_of_mem _ hq) x hx hqx ▸ hq)

end OperatingSystems.Custody
