import Mathlib

/-!
# Texts cut at a separator

A text is a list of characters, one of which, `sep`, separates.  Its fields are what lies between two
separators, and may be empty; its runs are the longest pieces without a separator.

* **`fields`**, **`runs`** — the two ways to cut.
* **`filter_fields`** — the runs are the fields that are not empty.
-/

namespace OperatingSystems.Fields

variable {α : Type*} [DecidableEq α] {sep c : α} {acc t : List α}

/-- The fields of a text, where `acc` has been read of the current one. -/
def fieldsFrom (sep : α) : List α → List α → List (List α)
  | acc, [] => [acc]
  | acc, c :: t => if c = sep then acc :: fieldsFrom sep [] t else fieldsFrom sep (acc ++ [c]) t

/-- **The fields of a text.**  There is always a first one. -/
def fields (sep : α) (t : List α) : List (List α) := fieldsFrom sep [] t

/-- The runs of a text, where `acc` has been read of the current one. -/
def runsFrom (sep : α) : List α → List α → List (List α)
  | [], [] => []
  | a :: acc, [] => [a :: acc]
  | [], c :: t => if c = sep then runsFrom sep [] t else runsFrom sep [c] t
  | a :: acc, c :: t => if c = sep then (a :: acc) :: runsFrom sep [] t else runsFrom sep (a :: acc ++ [c]) t

/-- **The runs of a text**: its longest pieces without a separator. -/
def runs (sep : α) (t : List α) : List (List α) := runsFrom sep [] t

theorem fieldsFrom_sep : fieldsFrom sep acc (sep :: t) = acc :: fields sep t := if_pos rfl

theorem fieldsFrom_other (h : c ≠ sep) : fieldsFrom sep acc (c :: t) = fieldsFrom sep (acc ++ [c]) t := if_neg h

theorem runsFrom_other (h : c ≠ sep) : runsFrom sep acc (c :: t) = runsFrom sep (acc ++ [c]) t := by
  cases acc with
  | nil => exact if_neg h
  | cons a acc => exact if_neg h

theorem filter_fieldsFrom : (fieldsFrom sep acc t).filter (· ≠ []) = runsFrom sep acc t := by
  induction t generalizing acc with
  | nil =>
    cases acc with
    | nil => rfl
    | cons a acc => rfl
  | cons c t ih =>
    by_cases hc : c = sep
    · rw [hc, fieldsFrom_sep]
      cases acc with
      | nil =>
        rw [List.filter_cons_of_neg (by simp)]
        exact ih.trans (if_pos rfl).symm
      | cons a acc =>
        rw [List.filter_cons_of_pos (by simp)]
        show (a :: acc) :: (fieldsFrom sep [] t).filter (· ≠ []) = _
        rw [ih]
        exact (if_pos rfl).symm
    · rw [fieldsFrom_other hc, runsFrom_other hc, ih]

/-- **The runs are the fields that are not empty.** -/
theorem filter_fields : (fields sep t).filter (· ≠ []) = runs sep t := filter_fieldsFrom

theorem runsFrom_eq_nil_iff : runsFrom sep acc t = [] ↔ acc = [] ∧ ∀ c ∈ t, c = sep := by
  induction t generalizing acc with
  | nil =>
    cases acc with
    | nil => exact iff_of_true rfl ⟨rfl, fun c hc => absurd hc List.not_mem_nil⟩
    | cons a acc => exact iff_of_false (List.cons_ne_nil _ _) fun h => List.cons_ne_nil _ _ h.1
  | cons c t ih =>
    rw [List.forall_mem_cons]
    by_cases hc : c = sep
    · rw [hc]
      cases acc with
      | nil =>
        have hrest : runsFrom sep [] (sep :: t) = runsFrom sep [] t := if_pos rfl
        rw [hrest, ih, and_iff_right rfl, and_iff_right rfl, and_iff_right rfl]
      | cons a acc =>
        have hrest : runsFrom sep (a :: acc) (sep :: t) = (a :: acc) :: runsFrom sep [] t := if_pos rfl
        rw [hrest]
        exact iff_of_false (List.cons_ne_nil _ _) fun h => List.cons_ne_nil _ _ h.1
    · rw [runsFrom_other hc, ih]
      refine iff_of_false ?_ fun h => hc h.2.1
      exact fun h => List.append_ne_nil_of_right_ne_nil acc (List.cons_ne_nil c []) h.1

/-- Only a text of separators has no run. -/
theorem runs_eq_nil_iff : runs sep t = [] ↔ ∀ c ∈ t, c = sep :=
  runsFrom_eq_nil_iff.trans (and_iff_right rfl)

theorem fieldsFrom_eq : ∃ rest, fieldsFrom sep acc t = (acc ++ t.takeWhile (· ≠ sep)) :: rest := by
  induction t generalizing acc with
  | nil => exact ⟨[], by rw [List.takeWhile_nil, List.append_nil]; rfl⟩
  | cons c t ih =>
    by_cases hc : c = sep
    · refine ⟨fields sep t, ?_⟩
      rw [hc, fieldsFrom_sep, List.takeWhile_cons_of_neg (by simp), List.append_nil]
    · obtain ⟨rest, hrest⟩ := @ih (acc ++ [c])
      refine ⟨rest, ?_⟩
      rw [fieldsFrom_other hc, hrest, List.takeWhile_cons_of_pos (by simp [hc]), List.append_assoc]
      rfl

/-- The first field ends before the first separator. -/
theorem head_mem_fields : t.takeWhile (· ≠ sep) ∈ fields sep t := by
  obtain ⟨rest, hrest⟩ := @fieldsFrom_eq _ _ sep [] t
  unfold fields
  rw [hrest, List.nil_append]
  exact List.mem_cons_self

end OperatingSystems.Fields
