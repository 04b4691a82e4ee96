import Mathlib

/-!
# Stable priority queues

A queue is the list of its items in the order of their arrival, `key` gives an item's priority.  The
item served next is the first one of the greatest priority.

* **`FirstMax`** — the item at an index is the first maximum.  It is unique (`FirstMax.unique`), and
  where the items carry increasing arrival stamps it is the earliest of its priority
  (`FirstMax.earliest`).
* **`Best`** — the invariant of a selection loop that starts below every priority and moves to a
  later item only when that is strictly better; **`Best.snoc`** is one round of it.
* **`Ledger`** — a queue with all items accepted and returned so far; **`Ledger.Balanced`** says that
  nothing is lost, duplicated or reordered.
-/

namespace OperatingSystems.StableQueue

variable {α κ : Type*} [LinearOrder κ] {key : α → κ} {xs : List α} {x y : α} {i j : ℕ}

/-- `x` stands at index `i`, no item has a greater key, and every earlier one has a smaller key. -/
structure FirstMax (key : α → κ) (xs : List α) (i : ℕ) (x : α) : Prop where
  at_index : xs[i]? = some x
  max : ∀ y ∈ xs, key y ≤ key x
  first : ∀ y ∈ xs.take i, key y < key x

theorem FirstMax.mem (h : FirstMax key xs i x) : x ∈ xs :=
  List.mem_of_getElem? h.at_index

theorem FirstMax.lt_length (h : FirstMax key xs i x) : i < xs.length :=
  (List.getElem?_eq_some_iff.mp h.at_index).1

/-- An item at a smaller index is among those taken before. -/
theorem mem_take_of_lt (h : xs[i]? = some x) (hij : i < j) : x ∈ xs.take j := by
  apply List.mem_of_getElem?
  rw [List.getElem?_take_of_lt hij]
  exact h

/-- **There is only one first maximum.** -/
theorem FirstMax.unique (h : FirstMax key xs i x) (h' : FirstMax key xs j y) : i = j ∧ x = y := by
  have hij : i = j := by
    rcases lt_trichotomy i j with hlt | heq | hlt
    · exact absurd (h'.first x (mem_take_of_lt h.at_index hlt)) (not_lt.mpr (h.max y h'.mem))
    · exact heq
    · exact absurd (h.first y (mem_take_of_lt h'.at_index hlt)) (not_lt.mpr (h'.max x h.mem))
  subst hij
  exact ⟨rfl, Option.some.inj (h.at_index.symm.trans h'.at_index)⟩

/-! ### The selection loop -/

/-- What a selection loop knows after the items `xs`: either none of them beats the `floor` it
started from, or it stands on their first maximum.  The index `-1` stands for no item. -/
def Best (key : α → κ) (floor : κ) (xs : List α) (best : κ × ℤ) : Prop :=
  (best = (floor, -1) ∧ ∀ y ∈ xs, key y ≤ floor) ∨
    ∃ (i : ℕ) (x : α), best = (key x, (i : ℤ)) ∧ floor < key x ∧ FirstMax key xs i x

theorem Best.nil (floor : κ) : Best key floor [] (floor, -1) :=
  .inl ⟨rfl, by simp⟩

/-- A first maximum that beats the next item stays one. -/
theorem FirstMax.snoc_of_le (h : FirstMax key xs i x) (hy : key y ≤ key x) :
    FirstMax key (xs ++ [y]) i x where
  at_index := by rw [List.getElem?_append_left h.lt_length]; exact h.at_index
  max := by
    intro z hz
    rcases List.mem_append.mp hz with hz | hz
    · exact h.max z hz
    · rw [List.mem_singleton.mp hz]; exact hy
  first := by
    rw [List.take_append_of_le_length h.lt_length.le]
    exact h.first

/-- An item above all earlier ones is the first maximum. -/
theorem FirstMax.snoc_of_lt (hy : ∀ z ∈ xs, key z < key y) :
    FirstMax key (xs ++ [y]) xs.length y where
  at_index := List.getElem?_concat_length
  max := by
    intro z hz
    rcases List.mem_append.mp hz with hz | hz
    · exact (hy z hz).le
    · rw [List.mem_singleton.mp hz]
  first := by
    rw [List.take_left]
    exact hy

/-- **One round of the selection loop**, with its strict comparison. -/
theorem Best.snoc {floor : κ} {best : κ × ℤ} (h : Best key floor xs best) (y : α) :
    Best key floor (xs ++ [y]) (if best.1 < key y then (key y, (xs.length : ℤ)) else best) := by
  rcases h with ⟨rfl, hle⟩ | ⟨i, x, rfl, hfloor, hmax⟩
  · by_cases hy : floor < key y
    · rw [if_pos hy]
      exact .inr ⟨xs.length, y, rfl, hy, .snoc_of_lt fun z hz => (hle z hz).trans_lt hy⟩
    · rw [if_neg hy]
      refine .inl ⟨rfl, fun z hz => ?_⟩
      rcases List.mem_append.mp hz with hz | hz
      · exact hle z hz
      · rw [List.mem_singleton.mp hz]; exact not_lt.mp hy
  · by_cases hy : key x < key y
    · rw [if_pos hy]
      exact .inr ⟨xs.length, y, rfl, hfloor.trans hy,
        .snoc_of_lt fun z hz => (hmax.max z hz).trans_lt hy⟩
    · rw [if_neg hy]
      exact .inr ⟨i, x, rfl, hfloor, hmax.snoc_of_le (not_lt.mp hy)⟩

/-- The loop finds the first maximum exactly when some item beats the floor. -/
theorem Best.found {floor : κ} {best : κ × ℤ} (h : Best key floor xs best)
    (hsome : ∃ y ∈ xs, floor < key y) :
    ∃ (i : ℕ) (x : α), best = (key x, (i : ℤ)) ∧ FirstMax key xs i x := by
  rcases h with ⟨-, hle⟩ | ⟨i, x, hbest, -, hmax⟩
  · obtain ⟨y, hy, hlt⟩ := hsome
    exact absurd hlt (not_lt.mpr (hle y hy))
  · exact ⟨i, x, hbest, hmax⟩

theorem Best.not_found {floor : κ} {best : κ × ℤ} (h : Best key floor xs best)
    (hnone : ∀ y ∈ xs, key y ≤ floor) : best = (floor, -1) := by
  rcases h with ⟨hbest, -⟩ | ⟨i, x, -, hfloor, hmax⟩
  · exact hbest
  · exact absurd hfloor (not_lt.mpr (hnone x hmax.mem))

/-! ### Arrival stamps and the ledger -/

variable {stamp : α → ℕ}

/-- Among the items in arrival order the first maximum is the earliest of its priority. -/
theorem FirstMax.earliest (h : FirstMax key xs i x)
    (hstamp : xs.Pairwise fun a b => stamp a < stamp b) :
    ∀ y ∈ xs, key y = key x → stamp x ≤ stamp y := by
  intro y hy hkey
  obtain ⟨j, hj⟩ := List.mem_iff_getElem?.mp hy
  obtain ⟨hi', hix⟩ := List.getElem?_eq_some_iff.mp h.at_index
  obtain ⟨hj', hjy⟩ := List.getElem?_eq_some_iff.mp hj
  rcases lt_trichotomy i j with hlt | rfl | hlt
  · have := List.pairwise_iff_getElem.mp hstamp i j hi' hj' hlt
    rw [hix, hjy] at this
    exact this.le
  · rw [Option.some.inj (h.at_index.symm.trans hj)]
  · exact absurd hkey (h.first y (mem_take_of_lt hj hlt)).ne

/-- A queue together with everything it accepted and returned. -/
structure Ledger (α : Type*) where
  accepted : List α
  returned : List α
  stored : List α

/-- Every item accepted was returned or is still stored, as often as it was accepted; the stored
items stand in the order of their arrival; an item's stamp is the number of its arrival. -/
structure Ledger.Balanced (stamp : α → ℕ) (l : Ledger α) : Prop where
  accounts : (l.accepted : Multiset α) = l.returned + l.stored
  in_order : l.stored.Pairwise fun a b => stamp a < stamp b
  stamped : ∀ y ∈ l.stored, l.accepted[stamp y]? = some y

/-- The next arrival. -/
def Ledger.accept (l : Ledger α) (x : α) : Ledger α :=
  { l with accepted := l.accepted ++ [x], stored := l.stored ++ [x] }

/-- The item at index `i` is handed out. -/
def Ledger.handOut (l : Ledger α) (i : ℕ) (x : α) : Ledger α :=
  { l with returned := l.returned ++ [x], stored := l.stored.eraseIdx i }

theorem Ledger.Balanced.empty : Ledger.Balanced stamp ⟨[], [], []⟩ :=
  ⟨rfl, .nil, by simp⟩

theorem Ledger.Balanced.accept {l : Ledger α} (h : l.Balanced stamp)
    (hx : stamp x = l.accepted.length) : (l.accept x).Balanced stamp where
  accounts := by
    have := h.accounts
    simp only [Ledger.accept, ← Multiset.coe_add, this, add_assoc]
  in_order := by
    rw [Ledger.accept, List.pairwise_append]
    refine ⟨h.in_order, List.pairwise_singleton _ _, ?_⟩
    intro a ha b hb
    rw [List.mem_singleton.mp hb, hx]
    exact (List.getElem?_eq_some_iff.mp (h.stamped a ha)).1
  stamped := by
    intro y hy
    rcases List.mem_append.mp hy with hy | hy
    · have hlt := (List.getElem?_eq_some_iff.mp (h.stamped y hy)).1
      rw [Ledger.accept, List.getElem?_append_left hlt]
      exact h.stamped y hy
    · rw [List.mem_singleton.mp hy, hx]
      exact List.getElem?_concat_length

theorem Ledger.Balanced.handOut {l : Ledger α} (h : l.Balanced stamp)
    (hx : l.stored[i]? = some x) : (l.handOut i x).Balanced stamp where
  accounts := by
    obtain ⟨hi, rfl⟩ := List.getElem?_eq_some_iff.mp hx
    have hperm : (l.stored : Multiset α) = [l.stored[i]] + l.stored.eraseIdx i :=
      Multiset.coe_eq_coe.mpr (List.getElem_cons_eraseIdx_perm hi).symm
    simp only [Ledger.handOut, h.accounts, hperm, ← Multiset.coe_add, add_assoc]
  in_order := h.in_order.sublist (List.eraseIdx_sublist _ _)
  stamped := fun y hy => h.stamped y ((List.eraseIdx_sublist _ _).subset hy)

end OperatingSystems.StableQueue
