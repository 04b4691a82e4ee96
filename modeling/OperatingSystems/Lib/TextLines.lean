import Mathlib

/-!
# Texts read line by line through a buffer

A text is a list of characters in which one character, `nl`, ends the lines.  A reader with a buffer of `n`
characters takes it in pieces: a piece ends after the first `nl`, or when the buffer is full.

* **`pieces`** — the pieces of a text; **`flatten_pieces`** puts them together again.
* **`pieces_append`** — after the end of a line the reader starts afresh.
* **`pieces_line`**, **`pieces_long`** — a line that fits is one piece, a longer one is cut.
* **`pieces_lines`** — where every line fits, the pieces are the lines.
* **`infix_append_cons`** — a word does not reach across a character that it does not contain.
-/

namespace OperatingSystems.TextLines

variable {α : Type*} [DecidableEq α] {nl : α} {n : ℕ} {cur l t u x y w : List α}

/-! ### Pieces -/

/-- The pieces of a text, where `cur` is already in the buffer. -/
def piecesFrom (nl : α) (n : ℕ) : List α → List α → List (List α)
  | cur, [] => if cur = [] then [] else [cur]
  | cur, c :: t =>
    if c = nl ∨ cur.length + 1 = n then (cur ++ [c]) :: piecesFrom nl n [] t
    else piecesFrom nl n (cur ++ [c]) t

/-- **The pieces of a text** that is read through a buffer of `n` characters. -/
def pieces (nl : α) (n : ℕ) (t : List α) : List (List α) := piecesFrom nl n [] t

@[simp] theorem pieces_nil : pieces nl n [] = [] := rfl

theorem piecesFrom_cut {c : α} (h : c = nl ∨ cur.length + 1 = n) :
    piecesFrom nl n cur (c :: t) = (cur ++ [c]) :: pieces nl n t := if_pos h

theorem piecesFrom_go {c : α} (h : ¬(c = nl ∨ cur.length + 1 = n)) :
    piecesFrom nl n cur (c :: t) = piecesFrom nl n (cur ++ [c]) t := if_neg h

theorem flatten_piecesFrom : (piecesFrom nl n cur t).flatten = cur ++ t := by
  induction t generalizing cur with
  | nil =>
    unfold piecesFrom
    split
    · rename_i h
      rw [h]
      rfl
    · simp
  | cons c t ih =>
    unfold piecesFrom
    split
    · rw [List.flatten_cons, ih, List.append_assoc]
      rfl
    · rw [ih, List.append_assoc]
      rfl

theorem flatten_pieces : (pieces nl n t).flatten = t := flatten_piecesFrom

theorem infix_of_mem_pieces (h : l ∈ pieces nl n t) : l <:+: t := by
  have := List.infix_of_mem_flatten h
  rwa [flatten_pieces] at this

theorem length_of_mem_piecesFrom (hcur : cur.length < n) (h : l ∈ piecesFrom nl n cur t) :
    l.length ≤ n := by
  induction t generalizing cur with
  | nil =>
    unfold piecesFrom at h
    split at h
    · cases h
    · rw [List.mem_singleton.mp h]
      exact hcur.le
  | cons c t ih =>
    have hlen : (cur ++ [c]).length = cur.length + 1 := by simp
    by_cases hc : c = nl ∨ cur.length + 1 = n
    · rw [piecesFrom_cut hc] at h
      rcases List.mem_cons.mp h with rfl | h
      · omega
      · exact ih (by rw [List.length_nil]; omega) h
    · rw [piecesFrom_go hc] at h
      exact ih (by omega) h

theorem length_of_mem_pieces (hn : 0 < n) (h : l ∈ pieces nl n t) : l.length ≤ n :=
  length_of_mem_piecesFrom (show [].length < n from hn) h

theorem piecesFrom_append :
    piecesFrom nl n cur (x ++ nl :: t) = piecesFrom nl n cur (x ++ [nl]) ++ pieces nl n t := by
  induction x generalizing cur with
  | nil =>
    rw [List.nil_append, List.nil_append, piecesFrom_cut (.inl rfl), piecesFrom_cut (.inl rfl)]
    rfl
  | cons c x ih =>
    rw [List.cons_append, List.cons_append]
    by_cases h : c = nl ∨ cur.length + 1 = n
    · rw [piecesFrom_cut h, piecesFrom_cut h]
      exact congrArg _ ih
    · rw [piecesFrom_go h, piecesFrom_go h]
      exact ih

/-- **After the end of a line** the reader starts afresh. -/
theorem pieces_append : pieces nl n (x ++ nl :: t) = pieces nl n (x ++ [nl]) ++ pieces nl n t :=
  piecesFrom_append

/-- What fits is read into the buffer. -/
theorem piecesFrom_fill (hl : nl ∉ l) (hn : cur.length + l.length < n) :
    piecesFrom nl n cur (l ++ t) = piecesFrom nl n (cur ++ l) t := by
  induction l generalizing cur with
  | nil => rw [List.nil_append, List.append_nil]
  | cons c l ih =>
    rw [List.mem_cons, not_or] at hl
    rw [List.length_cons] at hn
    have hgo : ¬(c = nl ∨ cur.length + 1 = n) := by
      rintro (h | h)
      · exact hl.1 h.symm
      · omega
    have hlen : (cur ++ [c]).length + l.length < n := by
      rw [List.length_append, List.length_singleton]
      omega
    rw [List.cons_append, piecesFrom_go hgo, ih hl.2 hlen, List.append_assoc]
    rfl

/-- A line that fits into the buffer is one piece. -/
theorem pieces_line (hl : nl ∉ l) (hn : l.length < n) :
    pieces nl n (l ++ nl :: t) = (l ++ [nl]) :: pieces nl n t := by
  show piecesFrom nl n [] (l ++ nl :: t) = _
  rw [piecesFrom_fill hl (by rw [List.length_nil, Nat.zero_add]; exact hn), List.nil_append,
    piecesFrom_cut (.inl rfl)]

theorem head_piecesFrom (h : cur ≠ []) : ∃ l ls, piecesFrom nl n cur t = l :: ls ∧ cur <+: l := by
  induction t generalizing cur with
  | nil => exact ⟨cur, [], if_neg h, List.prefix_rfl⟩
  | cons c t ih =>
    by_cases hc : c = nl ∨ cur.length + 1 = n
    · exact ⟨cur ++ [c], _, piecesFrom_cut hc, List.prefix_append cur [c]⟩
    · obtain ⟨l, ls, hls, hpre⟩ := ih (List.append_ne_nil_of_left_ne_nil h [c])
      exact ⟨l, ls, (piecesFrom_go hc).trans hls, (List.prefix_append cur [c]).trans hpre⟩

/-- The first piece starts with what fits. -/
theorem head_pieces (hl : nl ∉ l) (hne : l ≠ []) (hn : l.length < n) :
    ∃ l' ls, pieces nl n (l ++ t) = l' :: ls ∧ l <+: l' := by
  obtain ⟨l', ls, hls, hpre⟩ := @head_piecesFrom α _ nl n l t hne
  refine ⟨l', ls, ?_, hpre⟩
  rw [← hls]
  exact piecesFrom_fill hl (by rw [List.length_nil, Nat.zero_add]; exact hn)

/-- A line that does not fit is cut after `n` characters. -/
theorem pieces_long (hl : nl ∉ l) (hn : n ≤ l.length) (hpos : 0 < n) :
    pieces nl n (l ++ t) = l.take n :: pieces nl n (l.drop n ++ t) := by
  have htake : (l.take n).length = n := List.length_take_of_le hn
  have hne : l.take n ≠ [] := by
    intro h
    rw [h, List.length_nil] at htake
    omega
  have hlast : (l.take n).dropLast ++ [(l.take n).getLast hne] = l.take n :=
    List.dropLast_append_getLast hne
  have hsplit : l ++ t = (l.take n).dropLast ++ ((l.take n).getLast hne :: (l.drop n ++ t)) := by
    rw [← List.singleton_append, ← List.append_assoc, hlast, ← List.append_assoc, List.take_append_drop]
  have hlen : (l.take n).dropLast.length + 1 = n := by
    rw [List.length_dropLast, htake]
    omega
  have hfill : ([] : List α).length + (l.take n).dropLast.length < n := by
    rw [List.length_nil]
    omega
  show piecesFrom nl n [] (l ++ t) = _
  rw [hsplit, piecesFrom_fill (fun h => hl (List.mem_of_mem_take (List.mem_of_mem_dropLast h))) hfill,
    List.nil_append, piecesFrom_cut (.inr hlen), hlast]

/-! ### Lines -/

/-- Every piece is a whole line; only the last may lack the `nl`. -/
def Lines (nl : α) : List (List α) → Prop
  | [] => True
  | l :: ls => (∃ c, nl ∉ c ∧ (l = c ++ [nl] ∨ l = c ∧ ls = [])) ∧ Lines nl ls

theorem piecesFrom_lines (hcur : nl ∉ cur)
    (h : ∀ l, l <:+: cur ++ t → nl ∉ l → l.length < n) : Lines nl (piecesFrom nl n cur t) := by
  induction t generalizing cur with
  | nil =>
    unfold piecesFrom
    split
    · trivial
    · exact ⟨⟨cur, hcur, .inr ⟨rfl, rfl⟩⟩, trivial⟩
  | cons c t ih =>
    unfold piecesFrom
    split
    · rename_i hc
      have hnl : c = nl := by
        by_contra hne
        have hfree : nl ∉ cur ++ [c] := by
          rw [List.mem_append, List.mem_singleton, not_or]
          exact ⟨hcur, fun h => hne h.symm⟩
        have hlt := h (cur ++ [c]) ⟨[], t, by simp⟩ hfree
        rw [List.length_append, List.length_singleton, hc.resolve_left hne] at hlt
        exact lt_irrefl _ hlt
      refine ⟨⟨cur, hcur, .inl (by rw [hnl])⟩, ?_⟩
      apply ih List.not_mem_nil
      intro l hl
      apply h l
      exact hl.trans ⟨cur ++ [c], [], by simp⟩
    · rename_i hc
      apply ih
      · rw [List.mem_append, List.mem_singleton, not_or]
        exact ⟨hcur, fun h => hc (.inl h.symm)⟩
      · intro l hl
        apply h l
        rwa [List.append_assoc] at hl

/-- **The pieces are the lines** where no stretch without `nl` fills the buffer. -/
theorem pieces_lines (h : ∀ l, l <:+: t → nl ∉ l → l.length < n) : Lines nl (pieces nl n t) :=
  piecesFrom_lines List.not_mem_nil h

/-! ### Words -/

omit [DecidableEq α] in
/-- **A word does not reach across** a character that it does not contain. -/
theorem infix_append_cons {c : α} (hc : c ∉ w) : w <:+: x ++ c :: y ↔ w <:+: x ∨ w <:+: y := by
  constructor
  · rintro ⟨a, b, hab⟩
    rcases List.append_eq_append_iff.mp hab with ⟨d, hx, -⟩ | ⟨d, haw, hd⟩
    · exact .inl ⟨a, d, hx.symm⟩
    · cases d with
      | nil =>
        rw [List.append_nil] at haw
        exact .inl ⟨a, [], by rw [List.append_nil]; exact haw⟩
      | cons c' d =>
        obtain ⟨rfl, hy⟩ := List.cons.inj hd
        rcases List.append_eq_append_iff.mp haw with ⟨e, -, hw⟩ | ⟨e, -, he⟩
        · rw [hw] at hc
          exact absurd (List.mem_append_right e List.mem_cons_self) hc
        · cases e with
          | nil =>
            rw [List.nil_append] at he
            exact absurd (he ▸ List.mem_cons_self) hc
          | cons c' e =>
            obtain ⟨-, he⟩ := List.cons.inj he
            refine .inr ⟨e, b, ?_⟩
            rw [hy, he]
            rfl
  · rintro (h | h)
    · exact h.trans (List.infix_append_left ..)
    · exact h.trans ⟨x ++ [c], [], by simp⟩

end OperatingSystems.TextLines
