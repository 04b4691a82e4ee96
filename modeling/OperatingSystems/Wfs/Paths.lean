import OperatingSystems.Wfs.Layout

/-!
# Paths, their tokens and their last component

`strtok_r` and `strrchr` cut a path in two ways that must fit together: creating `parent/name` looks up
the tokens of the whole path and of the parent, and then writes the part after the last slash as a name.

* **`separate_spec`** — the tokens of a path are those of its parent path and, unless it is empty, the
  part after the last slash, whose first 31 characters are the file name.
* **`dentryName_nameField`** — a name of at most 31 characters reads back from its field.
-/

namespace OperatingSystems.Wfs

open OperatingSystems.ByteMemory

/-! ### Tokens -/

/-- A slash ends a token. -/
theorem strtok_slash (ys : Str) : ∀ (xs acc : Str),
    strtok acc (xs ++ slash :: ys) = strtok acc xs ++ strtok [] ys := by
  intro xs
  induction xs with
  | nil =>
    intro acc
    cases acc with
    | nil => simp [strtok]
    | cons a acc => simp [strtok]
  | cons x xs ih =>
    intro acc
    cases acc with
    | nil =>
      rw [List.cons_append, strtok, strtok]
      split <;> exact ih _
    | cons a acc =>
      rw [List.cons_append, strtok, strtok]
      split
      · rw [ih, List.cons_append]
      · exact ih _

theorem tokens_slash (xs ys : Str) : tokens (xs ++ slash :: ys) = tokens xs ++ tokens ys :=
  strtok_slash ys xs []

/-- A string without slashes goes on with the token that has been begun. -/
theorem strtok_noSlash : ∀ (f acc : Str), slash ∉ f → acc ++ f ≠ [] →
    strtok acc f = [acc.reverse ++ f] := by
  intro f
  induction f with
  | nil =>
    intro acc _ hne
    cases acc with
    | nil => simp at hne
    | cons a acc => simp [strtok]
  | cons c cs ih =>
    intro acc hf _
    have hc : c ≠ slash := fun h => hf (by simp [h])
    have hcs : slash ∉ cs := fun h => hf (List.mem_cons_of_mem _ h)
    cases acc with
    | nil =>
      rw [strtok, if_neg hc, ih [c] hcs (by simp)]
      rfl
    | cons a acc =>
      rw [strtok, if_neg hc, ih (c :: a :: acc) hcs (by simp)]
      simp

/-- A component is its own token, and the empty one is none. -/
theorem tokens_noSlash {f : Str} (hf : slash ∉ f) : tokens f = if f = [] then [] else [f] := by
  by_cases h : f = []
  · rw [if_pos h, h]
    rfl
  · rw [if_neg h, tokens, strtok_noSlash f [] hf (by simpa using h)]
    rfl

/-! ### The last slash -/

theorem strrchr_none {p : Str} (h : strrchr p = none) : slash ∉ p := by
  induction p with
  | nil => simp
  | cons c cs ih =>
    rw [strrchr] at h
    cases hcs : strrchr cs with
    | none =>
      rw [hcs] at h
      simp only [ite_eq_right_iff, reduceCtorEq, imp_false] at h
      rintro hmem
      rcases List.mem_cons.mp hmem with rfl | hmem
      · exact h rfl
      · exact ih hcs hmem
    | some q => simp [hcs] at h

theorem strrchr_some {p a f : Str} (h : strrchr p = some (a, f)) :
    p = a ++ slash :: f ∧ slash ∉ f := by
  induction p generalizing a with
  | nil => simp [strrchr] at h
  | cons c cs ih =>
    rw [strrchr] at h
    cases hcs : strrchr cs with
    | none =>
      rw [hcs] at h
      simp only [Option.ite_none_right_eq_some, Option.some.injEq, Prod.mk.injEq] at h
      obtain ⟨rfl, rfl, rfl⟩ := h
      exact ⟨rfl, strrchr_none hcs⟩
    | some q =>
      obtain ⟨b, g⟩ := q
      rw [hcs] at h
      simp only [Option.some.injEq, Prod.mk.injEq] at h
      obtain ⟨rfl, rfl⟩ := h
      obtain ⟨hp, hf⟩ := ih hcs
      exact ⟨by rw [hp, List.cons_append], hf⟩

/-- The first components of a path are those of some path. -/
theorem exists_prefix_path {path : Str} (h0 : 0 ∉ path) {xs : List Str} (hxs : xs <+: tokens path) :
    ∃ q : Str, 0 ∉ q ∧ tokens q = xs := by
  induction hn : path.length using Nat.strong_induction_on generalizing path with
  | _ n ih =>
    cases hs : strrchr path with
    | none =>
      rw [tokens_noSlash (strrchr_none hs)] at hxs
      split at hxs
      · exact ⟨[], by simp, (List.prefix_nil.mp hxs).symm⟩
      · rename_i hne
        rcases List.prefix_cons_iff.mp hxs with rfl | ⟨t, rfl, ht⟩
        · exact ⟨[], by simp, rfl⟩
        · rw [List.prefix_nil.mp ht]
          exact ⟨path, h0, by rw [tokens_noSlash (strrchr_none hs), if_neg hne]⟩
    | some af =>
      obtain ⟨a, f⟩ := af
      obtain ⟨rfl, hf⟩ := strrchr_some hs
      have ha : 0 ∉ a := fun h => h0 (List.mem_append_left _ h)
      have hlen : a.length < n := by
        rw [← hn, List.length_append, List.length_cons]
        omega
      rw [tokens_slash, tokens_noSlash hf] at hxs
      split at hxs
      · rw [List.append_nil] at hxs
        exact ih a.length hlen ha hxs rfl
      · rename_i hne
        rcases List.prefix_concat_iff.mp hxs with rfl | hxs
        · exact ⟨_, h0, by rw [tokens_slash, tokens_noSlash hf, if_neg hne]⟩
        · exact ih a.length hlen ha hxs rfl

/-- The part of a path after its last slash. -/
def lastComponent (path : Str) : Str := ((strrchr path).map Prod.snd).getD path

/-- **The parts of a path fit together.** -/
theorem separate_spec (p : Path) :
    p.str = (separate_path_and_file p.str).parent_path ++ slash :: lastComponent p.str ∧
      (separate_path_and_file p.str).filename =
        (lastComponent p.str).take (MAX_FILE_NAME_LEN - 1) ∧
      tokens p.str = tokens (separate_path_and_file p.str).parent_path ++
        (if lastComponent p.str = [] then [] else [lastComponent p.str]) := by
  cases h : strrchr p.str with
  | none =>
    have habs := p.absolute
    exact absurd (List.mem_of_head? habs) (strrchr_none h)
  | some q =>
    obtain ⟨a, f⟩ := q
    obtain ⟨hp, hf⟩ := strrchr_some h
    have hlast : lastComponent p.str = f := by rw [lastComponent, h]; rfl
    have hsep : separate_path_and_file p.str = ⟨f.take (MAX_FILE_NAME_LEN - 1), a⟩ := by
      rw [separate_path_and_file, h]
    rw [hsep, hlast]
    refine ⟨hp, rfl, ?_⟩
    rw [← tokens_noSlash hf, ← tokens_slash, ← hp]

theorem no_nul_parent (p : Path) : 0 ∉ (separate_path_and_file p.str).parent_path := by
  intro h
  refine p.no_nul ?_
  rw [(separate_spec p).1]
  exact List.mem_append_left _ h

theorem no_nul_last (p : Path) : 0 ∉ lastComponent p.str := by
  intro h
  refine p.no_nul ?_
  rw [(separate_spec p).1]
  exact List.mem_append_right _ (List.mem_cons_of_mem _ h)

/-! ### Name fields -/

theorem length_nameField (f : Str) : (nameField f).length = MAX_FILE_NAME_LEN := by
  simp [nameField, MAX_FILE_NAME_LEN]

/-- The last byte of a name field is NUL. -/
theorem nameField_last {f : Str} (hf : f.length < MAX_FILE_NAME_LEN) : (nameField f).getD 31 0 = 0 := by
  have h31 : 31 < (nameField f).length := by rw [length_nameField]; decide
  rw [MAX_FILE_NAME_LEN] at hf
  rw [List.getD_eq_getElem _ _ h31]
  simp only [nameField, List.getElem_take]
  rw [List.getElem_append_right (by omega), List.getElem_replicate]

/-- **A short name reads back from its field.** -/
theorem takeWhile_nameField {f : Str} (h0 : 0 ∉ f) (hf : f.length < MAX_FILE_NAME_LEN) :
    (nameField f).takeWhile (· != 0) = f := by
  obtain ⟨k, hk⟩ : ∃ k, MAX_FILE_NAME_LEN - f.length = k + 1 :=
    ⟨MAX_FILE_NAME_LEN - f.length - 1, by omega⟩
  have hmin : min (MAX_FILE_NAME_LEN - f.length) MAX_FILE_NAME_LEN = k + 1 := by omega
  rw [nameField, List.take_append, List.take_of_length_le hf.le, List.take_replicate, hmin,
    List.replicate_succ, List.takeWhile_append_of_pos, List.takeWhile_cons_of_neg (by simp),
    List.append_nil]
  intro c hc
  have : c ≠ 0 := fun h => h0 (h ▸ hc)
  simpa using this

end OperatingSystems.Wfs
