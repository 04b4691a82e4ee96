import Mathlib

/-!
# Lists in the order of use

The entries of a list stand in the order in which they were last used, the latest first.  To use an entry moves
it to the front; to look for one from the back finds the one that has not been used for the longest time.

* **`ByRecency.touch`** — the order is kept.
* **`ByRecency.find?_reverse`** — what a search from the back finds.
-/

namespace OperatingSystems.RecencyList

variable {α : Type*} {a b : α} {l : List α} {used : α → ℕ} {n : ℕ} {p : α → Bool}

/-- The entry moves to the front. -/
def touch [DecidableEq α] (a : α) (l : List α) : List α := a :: l.erase a

theorem perm_touch [DecidableEq α] (ha : a ∈ l) : (touch a l).Perm l :=
  (List.perm_cons_erase ha).symm

/-- The entries stand in the order in which they were last used. -/
def ByRecency (used : α → ℕ) (l : List α) : Prop :=
  l.Pairwise fun a b => used b ≤ used a

/-- **To use an entry keeps the order.** -/
theorem ByRecency.touch [DecidableEq α] (h : ByRecency used l) (hnodup : l.Nodup) (hn : ∀ b, used b ≤ n) :
    ByRecency (Function.update used a n) (RecencyList.touch a l) := by
  have hother : ∀ b ∈ l.erase a, Function.update used a n b = used b := by
    intro b hb
    exact Function.update_of_ne (hnodup.mem_erase_iff.mp hb).1 n used
  refine List.Pairwise.cons (fun b hb => ?_) ?_
  · rw [hother b hb, Function.update_self]
    exact hn b
  · refine (List.Pairwise.sublist List.erase_sublist h).imp_of_mem fun {x y} hx hy hxy => ?_
    rw [hother x hx, hother y hy]
    exact hxy

/-- **A search from the back** finds the entry that has not been used for the longest time. -/
theorem ByRecency.find?_reverse (h : ByRecency used l) (hfind : l.reverse.find? p = some a) :
    p a ∧ ∀ b ∈ l, p b → used a ≤ used b := by
  obtain ⟨hp, later, earlier, hsplit, hnone⟩ := List.find?_eq_some_iff_append.mp hfind
  have hl : l = earlier.reverse ++ a :: later.reverse := by
    rw [← List.reverse_reverse l, hsplit, List.reverse_append, List.reverse_cons, List.append_assoc]
    rfl
  refine ⟨hp, fun b hb hpb => ?_⟩
  unfold ByRecency at h
  rw [hl] at h hb
  rcases List.mem_append.mp hb with hb | hb
  · exact (List.pairwise_append.mp h).2.2 b hb a List.mem_cons_self
  · rcases List.mem_cons.mp hb with rfl | hb
    · exact le_rfl
    · have hno := hnone b (List.mem_reverse.mp hb)
      rw [hpb] at hno
      cases hno

end OperatingSystems.RecencyList
