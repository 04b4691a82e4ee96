import OperatingSystems.Man.Wgroff

/-!
# One scan and five passes

The manual describes the conversion of a line as one scan from left to right.  `convertFormattingMarks`
makes five passes through an array of 1024 characters instead, and each sees what those before it have
made.  A line is cut into marks, slashes and other characters; a pass replaces the marks of one letter.

* **`translate`** — the scan.
* **`convertFormattingMarks_eq`** — the result of the passes, mark by mark and slash by slash.
* **`convertFormattingMarks_eq_translate_iff`** — when it is that of the scan.
* **`writtenIndices_lt_iff`** — when the passes stay inside their arrays.
-/

namespace OperatingSystems.Man

open Outcomes

/-! ### Specification -/

/-- One scan, which converts at each place the mark that stands there; the first argument counts the
characters of a mark still to be skipped. -/
def scanFrom : ℕ → Str → Str
  | _, [] => []
  | skip + 1, _ :: cs => scanFrom skip cs
  | 0, c :: cs =>
    match marks.find? fun mark => decide (mark.1 <+: c :: cs) with
    | some mark => mark.2 ++ scanFrom (mark.1.length - 1) cs
    | none => c :: scanFrom 0 cs

/-- **The translation of a line** as the manual describes it. -/
def translate (line : Str) : Str := scanFrom 0 line

/-- The letters of the marks. -/
inductive Letter
  | B
  | I
  | U
  | P
  deriving DecidableEq

def letters : List Letter := [.P, .U, .I, .B]

theorem mem_letters (l : Letter) : l ∈ letters := by
  cases l <;> decide

def Letter.byte : Letter → UInt8
  | .B => 66
  | .I => 73
  | .U => 85
  | .P => 80

/-- The number in the escape sequence. -/
def Letter.code : Letter → UInt8
  | .B => 49
  | .I => 51
  | .U => 52
  | .P => 48

def Letter.mark (l : Letter) : Str := [47, 102, l.byte]

def Letter.sequence (l : Letter) : Str := [27, 91, l.code, 109]

theorem marks_eq :
    marks = letters.reverse.map (fun l => (l.mark, l.sequence)) ++ [([47, 47], [47])] := by
  decide

theorem forall_marks {p : Str → Prop} :
    (∀ mark ∈ marks, p mark.1) ↔ (∀ l : Letter, p l.mark) ∧ p [47, 47] := by
  rw [marks_eq]
  constructor
  · intro h
    refine ⟨fun l => h (l.mark, l.sequence) (List.mem_append_left _ ?_), h ([47, 47], [47]) ?_⟩
    · exact List.mem_map_of_mem (List.mem_reverse.mpr (mem_letters l))
    · exact List.mem_append_right _ (List.mem_singleton_self _)
  · intro ⟨hletter, hslash⟩ mark hmark
    cases List.mem_append.mp hmark with
    | inl h =>
      obtain ⟨l, _, heq⟩ := List.mem_map.mp h
      rw [← heq]
      exact hletter l
    | inr h =>
      rw [List.mem_singleton.mp h]
      exact hslash

/-- The places of a line where one of the marks with a letter stands. -/
def markCount : Str → ℕ
  | [] => 0
  | c :: cs => (if ∃ l ∈ letters, l.mark <+: c :: cs then 1 else 0) + markCount cs

/-- Every run of slashes directly before one of `fB`, `fI`, `fU`, `fP` is of odd length; the first argument
counts the slashes directly before the text. -/
def OddSlashes : ℕ → Str → Prop
  | _, [] => True
  | n, c :: cs =>
    if c = 47 then OddSlashes (n + 1) cs
    else ((∃ l ∈ letters, [102, l.byte] <+: c :: cs) → n = 0 ∨ n % 2 = 1) ∧ OddSlashes 0 cs

instance OddSlashes.decidable : (n : ℕ) → (cs : Str) → Decidable (OddSlashes n cs)
  | _, [] => isTrue trivial
  | n, c :: cs =>
    have := OddSlashes.decidable (n + 1) cs
    have := OddSlashes.decidable 0 cs
    inferInstanceAs (Decidable (if c = 47 then OddSlashes (n + 1) cs
      else ((∃ l ∈ letters, [102, l.byte] <+: c :: cs) → n = 0 ∨ n % 2 = 1) ∧ OddSlashes 0 cs))

/-! ### The writes -/

/-- The places of `result` that one pass writes to; `strcpy` also writes the terminator behind a
replacement. -/
def passIndices (find replace : Str) : (skip resultIndex : ℕ) → Str → List ℕ
  | _, resultIndex, [] => [resultIndex]
  | skip + 1, resultIndex, _ :: cs => passIndices find replace skip resultIndex cs
  | 0, resultIndex, c :: cs =>
    if find <+: c :: cs then
      List.range' resultIndex (replace.length + 1) ++
        passIndices find replace (find.length - 1) (resultIndex + replace.length) cs
    else resultIndex :: passIndices find replace 0 (resultIndex + 1) cs

/-- The places of `result` and of `line` that the passes write to. -/
def writtenIndices : List (Str × Str) → Str → List ℕ
  | [], _ => []
  | mark :: ms, line =>
    let result := replaceFrom mark.1 mark.2 0 line
    passIndices mark.1 mark.2 0 0 line ++ List.range (result.length + 1) ++ writtenIndices ms result

/-- A pass writes up to the terminator of its result. -/
theorem passIndices_lt_iff {find replace line : Str} {skip i n : ℕ} :
    (∀ x ∈ passIndices find replace skip i line, x < n) ↔
      i + (replaceFrom find replace skip line).length < n := by
  induction line generalizing skip i with
  | nil =>
    unfold passIndices replaceFrom
    simp
  | cons c cs ih =>
    cases skip with
    | succ skip => exact ih
    | zero =>
      unfold passIndices replaceFrom
      split
      · rw [List.forall_mem_append, ih, List.length_append, Nat.add_assoc, and_iff_right_iff_imp]
        intro hlt x hx
        have hx := (List.mem_range'_1.mp hx).2
        omega
      · rw [List.forall_mem_cons, ih, List.length_cons]
        constructor
        · exact fun h => by omega
        · exact fun h => ⟨by omega, by omega⟩

theorem writtenIndices_lt_cons {mark : Str × Str} {ms : List (Str × Str)} {line : Str} {n : ℕ} :
    (∀ x ∈ writtenIndices (mark :: ms) line, x < n) ↔
      (replaceFrom mark.1 mark.2 0 line).length < n ∧
        ∀ x ∈ writtenIndices ms (replaceFrom mark.1 mark.2 0 line), x < n := by
  show (∀ x ∈ passIndices mark.1 mark.2 0 0 line ++
      List.range ((replaceFrom mark.1 mark.2 0 line).length + 1) ++
      writtenIndices ms (replaceFrom mark.1 mark.2 0 line), x < n) ↔ _
  rw [List.forall_mem_append, List.forall_mem_append, passIndices_lt_iff, Nat.zero_add]
  have hrange : (∀ x ∈ List.range ((replaceFrom mark.1 mark.2 0 line).length + 1), x < n) ↔
      (replaceFrom mark.1 mark.2 0 line).length < n := by
    constructor
    · exact fun h => h _ (List.mem_range.mpr (Nat.lt_succ_self _))
    · intro h x hx
      have := List.mem_range.mp hx
      omega
  rw [hrange, and_self]

/-- **The passes stay inside their arrays** exactly where the model has a result. -/
theorem writtenIndices_lt_iff_ok {line : Str} :
    (∀ x ∈ writtenIndices marks line, x < 1024) ↔ ∃ line', convertFormattingMarks line = .ok line' := by
  unfold convertFormattingMarks
  generalize marks = ms
  induction ms generalizing line with
  | nil => exact iff_of_true (fun x hx => by cases hx) ⟨line, rfl⟩
  | cons mark ms ih =>
    rw [writtenIndices_lt_cons, ih, List.foldlM_cons]
    unfold fits
    by_cases hlt : (replaceFrom mark.1 mark.2 0 line).length < 1024
    · rw [if_pos hlt, and_iff_right hlt]
      rfl
    · rw [if_neg hlt]
      constructor
      · exact fun h => absurd h.1 hlt
      · rintro ⟨line', h⟩
        cases h

/-! ### Marks, slashes and other characters -/

inductive Token
  | mark (l : Letter)
  | slash
  | char (c : UInt8) (hc : c ≠ 47)

/-- The letters whose passes are `done` have their marks replaced. -/
def Token.render (done : List Letter) : Token → Str
  | .mark l => if l ∈ done then l.sequence else l.mark
  | .slash => [47]
  | .char c _ => [c]

def render (done : List Letter) (ts : List Token) : Str := ts.flatMap (Token.render done)

def text (ts : List Token) : Str := render [] ts

/-- No slash stands before characters with which it would make a mark. -/
def Tight : List Token → Prop
  | [] => True
  | .slash :: ts => (∀ l : Letter, ¬[102, l.byte] <+: text ts) ∧ Tight ts
  | .mark _ :: ts => Tight ts
  | .char _ _ :: ts => Tight ts

/-- The marks with these letters. -/
def marksIn (letters : List Letter) : List Token → ℕ
  | [] => 0
  | .mark l :: ts => (if l ∈ letters then 1 else 0) + marksIn letters ts
  | .slash :: ts => marksIn letters ts
  | .char _ _ :: ts => marksIn letters ts

@[simp] theorem render_nil (done : List Letter) : render done [] = [] := rfl

@[simp] theorem render_cons (done : List Letter) (t : Token) (ts : List Token) :
    render done (t :: ts) = t.render done ++ render done ts := rfl

theorem Token.render_done {done : List Letter} {l : Letter} (h : l ∈ done) :
    Token.render done (.mark l) = l.sequence := if_pos h

theorem Token.render_mark {done : List Letter} {l : Letter} (h : l ∉ done) :
    Token.render done (.mark l) = l.mark := if_neg h

theorem Letter.byte_ne (l : Letter) : l.byte ≠ 47 ∧ l.byte ≠ 27 ∧ l.byte ≠ 102 := by
  cases l <;> decide

theorem Letter.byte_inj {l l' : Letter} (h : l.byte = l'.byte) : l = l' := by
  cases l <;> cases l' <;> first | rfl | exact absurd h (by decide)

theorem Letter.slash_notMem_sequence (l : Letter) : 47 ∉ l.sequence := by
  cases l <;> decide

/-- Every line is cut in this way. -/
theorem exists_tokens (line : Str) : ∃ ts, Tight ts ∧ text ts = line := by
  induction hn : line.length using Nat.strong_induction_on generalizing line with
  | _ n ih =>
    cases line with
    | nil => exact ⟨[], trivial, rfl⟩
    | cons c cs =>
      rw [List.length_cons] at hn
      by_cases hc : c = 47
      · by_cases hmark : ∃ l : Letter, [102, l.byte] <+: cs
        · obtain ⟨l, rest, rfl⟩ := hmark
          obtain ⟨ts, htight, htext⟩ := ih rest.length (by simp at hn; omega) rest rfl
          refine ⟨.mark l :: ts, htight, ?_⟩
          rw [hc, ← htext]
          rfl
        · obtain ⟨ts, htight, htext⟩ := ih cs.length (by omega) cs rfl
          refine ⟨.slash :: ts, ⟨fun l hl => hmark ⟨l, htext ▸ hl⟩, htight⟩, ?_⟩
          rw [hc, ← htext]
          rfl
      · obtain ⟨ts, htight, htext⟩ := ih cs.length (by omega) cs rfl
        refine ⟨.char c hc :: ts, htight, ?_⟩
        rw [← htext]
        rfl

/-- Of the blocks only an ordinary character starts with neither a slash nor an escape. -/
theorem cons_prefix_render_iff {done : List Letter} {b : UInt8} {t : Token} {ts : List Token} {u : Str}
    (hslash : b ≠ 47) (hescape : b ≠ 27) :
    b :: u <+: render done (t :: ts) ↔ ∃ hb, t = .char b hb ∧ u <+: render done ts := by
  rw [render_cons]
  cases t with
  | mark l =>
    have hfirst : ¬b :: u <+: Token.render done (.mark l) ++ render done ts := by
      by_cases hl : l ∈ done
      · rw [Token.render_done hl]
        exact fun h => hescape (List.cons_prefix_cons.mp h).1
      · rw [Token.render_mark hl]
        exact fun h => hslash (List.cons_prefix_cons.mp h).1
    exact iff_of_false hfirst fun ⟨_, h, _⟩ => by cases h
  | slash =>
    have hfirst : ¬b :: u <+: Token.render done .slash ++ render done ts :=
      fun h => hslash (List.cons_prefix_cons.mp h).1
    exact iff_of_false hfirst fun ⟨_, h, _⟩ => by cases h
  | char c hc =>
    show b :: u <+: c :: render done ts ↔ _
    rw [List.cons_prefix_cons]
    constructor
    · intro ⟨hbc, hu⟩
      subst hbc
      exact ⟨hc, rfl, hu⟩
    · intro ⟨hb, h, hu⟩
      cases h
      exact ⟨rfl, hu⟩

/-- A slash stands before the same letters, however many passes are done. -/
theorem prefix_render_iff {done : List Letter} {l : Letter} {ts : List Token} :
    [102, l.byte] <+: render done ts ↔ [102, l.byte] <+: text ts := by
  unfold text
  cases ts with
  | nil => rfl
  | cons t ts =>
    rw [cons_prefix_render_iff (by decide) (by decide), cons_prefix_render_iff (by decide) (by decide)]
    refine exists_congr fun _ => and_congr_right fun _ => ?_
    cases ts with
    | nil => rfl
    | cons t' ts =>
      rw [cons_prefix_render_iff l.byte_ne.1 l.byte_ne.2.1,
        cons_prefix_render_iff l.byte_ne.1 l.byte_ne.2.1]
      simp only [List.nil_prefix]

/-! ### The passes -/

/-- What a mark cannot start in is copied. -/
theorem replaceFrom_copy {find replace block cs : Str} (h : (47 : UInt8) ∉ block) :
    replaceFrom (47 :: find) replace 0 (block ++ cs) =
      block ++ replaceFrom (47 :: find) replace 0 cs := by
  induction block with
  | nil => rfl
  | cons c block ih =>
    rw [List.mem_cons, not_or] at h
    have hno : ¬47 :: find <+: c :: (block ++ cs) := fun hpre => h.1 (List.cons_prefix_cons.mp hpre).1
    rw [List.cons_append, replaceFrom_other hno, ih h.2]
    rfl

/-- **A pass for one letter** replaces the marks with this letter and nothing else. -/
theorem replaceFrom_mark {done : List Letter} {l : Letter} {ts : List Token} (htight : Tight ts) :
    replaceFrom l.mark l.sequence 0 (render done ts) = render (l :: done) ts := by
  induction ts with
  | nil => rfl
  | cons t ts ih =>
    rw [render_cons, render_cons]
    cases t with
    | mark l' =>
      have ih := ih htight
      by_cases hdone : l' ∈ done
      · rw [Token.render_done hdone, Token.render_done (List.mem_cons_of_mem l hdone), ← ih]
        exact replaceFrom_copy l'.slash_notMem_sequence
      · rw [Token.render_mark hdone]
        by_cases heq : l' = l
        · rw [heq, Token.render_done List.mem_cons_self, ← ih]
          have hfound : l.mark <+: 47 :: 102 :: l.byte :: render done ts := List.prefix_append l.mark _
          exact replaceFrom_found hfound
        · have hmem : l' ∉ l :: done := fun h => (List.mem_cons.mp h).elim heq hdone
          have hother : ¬l.mark <+: 47 :: 102 :: l'.byte :: render done ts := by
            intro hpre
            have hbyte := (List.cons_prefix_cons.mp (List.cons_prefix_cons.mp hpre).2).2
            exact heq (Letter.byte_inj (List.cons_prefix_cons.mp hbyte).1.symm)
          have hrest : (47 : UInt8) ∉ [102, l'.byte] := by
            cases l' <;> decide
          rw [Token.render_mark hmem, ← ih]
          show replaceFrom l.mark l.sequence 0 (47 :: 102 :: l'.byte :: render done ts) = _
          rw [replaceFrom_other hother]
          show _ = 47 :: ([102, l'.byte] ++ replaceFrom l.mark l.sequence 0 (render done ts))
          exact congrArg (47 :: ·) (replaceFrom_copy hrest)
    | slash =>
      have hno : ¬l.mark <+: 47 :: render done ts := by
        intro hpre
        exact htight.1 l (prefix_render_iff.mp (List.cons_prefix_cons.mp hpre).2)
      show replaceFrom l.mark l.sequence 0 (47 :: render done ts) = 47 :: render (l :: done) ts
      rw [replaceFrom_other hno, ih htight.2]
    | char c hc =>
      have hno : ¬l.mark <+: c :: render done ts := fun hpre => hc (List.cons_prefix_cons.mp hpre).1.symm
      show replaceFrom l.mark l.sequence 0 (c :: render done ts) = c :: render (l :: done) ts
      rw [replaceFrom_other hno, ih htight]

/-- A pass makes the line longer by one character for each mark. -/
theorem length_render {done : List Letter} {ts : List Token} :
    (render done ts).length = (text ts).length + marksIn done ts := by
  induction ts with
  | nil => rfl
  | cons t ts ih =>
    unfold text at ih ⊢
    rw [render_cons, render_cons, List.length_append, List.length_append, ih]
    cases t with
    | mark l =>
      show _ = _ + ((if l ∈ done then 1 else 0) + marksIn done ts)
      rw [Token.render_mark (List.not_mem_nil)]
      by_cases hl : l ∈ done
      · rw [Token.render_done hl, if_pos hl]
        show 4 + _ = 3 + _ + _
        omega
      · rw [Token.render_mark hl, if_neg hl]
        omega
    | slash =>
      show _ = _ + marksIn done ts
      exact (Nat.add_assoc _ _ _).symm
    | char c hc =>
      show _ = _ + marksIn done ts
      exact (Nat.add_assoc _ _ _).symm

theorem marksIn_mono {xs ys : List Letter} {ts : List Token} (h : xs ⊆ ys) :
    marksIn xs ts ≤ marksIn ys ts := by
  induction ts with
  | nil => exact le_rfl
  | cons t ts ih =>
    cases t with
    | mark l =>
      apply Nat.add_le_add _ ih
      by_cases hl : l ∈ xs
      · rw [if_pos hl, if_pos (h hl)]
      · rw [if_neg hl]
        exact Nat.zero_le _
    | slash => exact ih
    | char c hc => exact ih

/-! ### The last pass and the scan -/

/-- What the last pass leaves: slashes in pairs, whatever follows them. -/
def pairs : List Token → Str
  | [] => []
  | [.slash] => [47]
  | .slash :: .slash :: ts => 47 :: pairs ts
  | .slash :: .mark l :: ts => 47 :: (l.sequence ++ pairs ts)
  | .slash :: .char c _ :: ts => 47 :: c :: pairs ts
  | .mark l :: ts => l.sequence ++ pairs ts
  | .char c _ :: ts => c :: pairs ts

/-- What the scan leaves: a slash before a mark makes a pair with the mark's own. -/
def scanned : List Token → Str
  | [] => []
  | [.slash] => [47]
  | .slash :: .slash :: ts => 47 :: scanned ts
  | .slash :: .mark l :: ts => 47 :: 102 :: l.byte :: scanned ts
  | .slash :: .char c _ :: ts => 47 :: c :: scanned ts
  | .mark l :: ts => l.sequence ++ scanned ts
  | .char c _ :: ts => c :: scanned ts

/-- The slashes directly before each mark come in pairs. -/
def SlashesPaired : List Token → Prop
  | [] => True
  | [.slash] => True
  | .slash :: .slash :: ts => SlashesPaired ts
  | .slash :: .mark _ :: _ => False
  | .slash :: .char _ _ :: ts => SlashesPaired ts
  | .mark _ :: ts => SlashesPaired ts
  | .char _ _ :: ts => SlashesPaired ts

/-- **The last pass**, after those for the letters. -/
theorem replaceFrom_slashes (ts : List Token) :
    replaceFrom [47, 47] [47] 0 (render letters ts) = pairs ts := by
  have hmark : ∀ (l : Letter) (cs : Str), replaceFrom [47, 47] [47] 0 (l.sequence ++ cs) =
      l.sequence ++ replaceFrom [47, 47] [47] 0 cs :=
    fun l cs => replaceFrom_copy l.slash_notMem_sequence
  have hchar : ∀ (c : UInt8) (cs : Str), c ≠ 47 → replaceFrom [47, 47] [47] 0 (c :: cs) =
      c :: replaceFrom [47, 47] [47] 0 cs :=
    fun c cs hc => replaceFrom_other fun h => hc (List.cons_prefix_cons.mp h).1.symm
  have hslash : ∀ (c : UInt8) (cs : Str), c ≠ 47 → replaceFrom [47, 47] [47] 0 (47 :: c :: cs) =
      47 :: replaceFrom [47, 47] [47] 0 (c :: cs) := by
    intro c cs hc
    apply replaceFrom_other
    intro h
    exact hc (List.cons_prefix_cons.mp (List.cons_prefix_cons.mp h).2).1.symm
  induction ts using pairs.induct with
  | case1 => rfl
  | case2 => rfl
  | case3 ts ih =>
    show replaceFrom [47, 47] [47] 0 (47 :: 47 :: render letters ts) = 47 :: pairs ts
    have hfound : ([47, 47] : Str) <+: 47 :: 47 :: render letters ts := List.prefix_append [47, 47] _
    rw [replaceFrom_found hfound, ← ih]
    rfl
  | case4 l ts ih =>
    show replaceFrom [47, 47] [47] 0 (47 :: (Token.render letters (.mark l) ++ render letters ts)) =
      47 :: (l.sequence ++ pairs ts)
    rw [Token.render_done (mem_letters l), ← ih, ← hmark]
    exact hslash 27 _ (by decide)
  | case5 c hc ts ih =>
    show replaceFrom [47, 47] [47] 0 (47 :: c :: render letters ts) = 47 :: c :: pairs ts
    rw [hslash c _ hc, hchar c _ hc, ih]
  | case6 l ts ih =>
    rw [render_cons, Token.render_done (mem_letters l), hmark, ih]
    rfl
  | case7 c hc ts ih =>
    show replaceFrom [47, 47] [47] 0 (c :: render letters ts) = c :: pairs ts
    rw [hchar c _ hc, ih]

theorem scanFrom_found {mark : Str × Str} {c : UInt8} {cs : Str}
    (h : marks.find? (fun mark => decide (mark.1 <+: c :: cs)) = some mark) :
    scanFrom 0 (c :: cs) = mark.2 ++ scanFrom (mark.1.length - 1) cs := by
  show (match marks.find? fun mark => decide (mark.1 <+: c :: cs) with
    | some mark => mark.2 ++ scanFrom (mark.1.length - 1) cs
    | none => c :: scanFrom 0 cs) = _
  rw [h]

theorem scanFrom_other {c : UInt8} {cs : Str}
    (h : ∀ mark ∈ marks, ¬mark.1 <+: c :: cs) : scanFrom 0 (c :: cs) = c :: scanFrom 0 cs := by
  have hnone : marks.find? (fun mark => decide (mark.1 <+: c :: cs)) = none := by
    apply List.find?_eq_none.mpr
    intro mark hmark
    rw [decide_eq_true_iff]
    exact h mark hmark
  show (match marks.find? fun mark => decide (mark.1 <+: c :: cs) with
    | some mark => mark.2 ++ scanFrom (mark.1.length - 1) cs
    | none => c :: scanFrom 0 cs) = _
  rw [hnone]

/-- No mark starts with anything but a slash. -/
theorem scanFrom_char {c : UInt8} {cs : Str} (hc : c ≠ 47) :
    scanFrom 0 (c :: cs) = c :: scanFrom 0 cs := by
  have hno : ∀ mark : Str, ¬47 :: mark <+: c :: cs := fun mark h => hc (List.cons_prefix_cons.mp h).1.symm
  exact scanFrom_other (forall_marks (p := fun mark => ¬mark <+: c :: cs) |>.mpr ⟨fun l => hno _, hno [47]⟩)

theorem scanFrom_slash_slash {cs : Str} : scanFrom 0 (47 :: 47 :: cs) = 47 :: scanFrom 0 cs := by
  have hfind : marks.find? (fun mark => decide (mark.1 <+: 47 :: 47 :: cs)) = some ([47, 47], [47]) := by
    rw [marks_eq]
    simp [letters, Letter.mark]
  rw [scanFrom_found hfind]
  rfl

theorem scanFrom_mark {l : Letter} {cs : Str} :
    scanFrom 0 (l.mark ++ cs) = l.sequence ++ scanFrom 0 cs := by
  have hfind : marks.find? (fun mark => decide (mark.1 <+: 47 :: 102 :: l.byte :: cs)) =
      some (l.mark, l.sequence) := by
    rw [marks_eq]
    cases l <;> simp [letters, Letter.mark, Letter.byte]
  exact scanFrom_found hfind

theorem scanFrom_slash {cs : Str} (hletter : ∀ l : Letter, ¬[102, l.byte] <+: cs)
    (hslash : ¬[47] <+: cs) : scanFrom 0 (47 :: cs) = 47 :: scanFrom 0 cs := by
  apply scanFrom_other
  rw [forall_marks (p := fun mark => ¬mark <+: 47 :: cs)]
  constructor
  · exact fun l h => hletter l (List.cons_prefix_cons.mp h).2
  · exact fun h => hslash (List.cons_prefix_cons.mp h).2

/-- **The scan**, block by block. -/
theorem translate_text {ts : List Token} (htight : Tight ts) : translate (text ts) = scanned ts := by
  unfold translate
  induction ts using scanned.induct with
  | case1 => rfl
  | case2 => rfl
  | case3 ts ih =>
    show scanFrom 0 (47 :: 47 :: text ts) = 47 :: scanned ts
    rw [scanFrom_slash_slash, ih htight.2.2]
  | case4 l ts ih =>
    show scanFrom 0 (47 :: 47 :: 102 :: l.byte :: text ts) = 47 :: 102 :: l.byte :: scanned ts
    rw [scanFrom_slash_slash, scanFrom_char (by decide), scanFrom_char l.byte_ne.1, ih htight.2]
  | case5 c hc ts ih =>
    show scanFrom 0 (47 :: c :: text ts) = 47 :: c :: scanned ts
    have hletter : ∀ l : Letter, ¬[102, l.byte] <+: c :: text ts := htight.1
    have hslash : ¬[47] <+: c :: text ts := fun h => hc (List.cons_prefix_cons.mp h).1.symm
    rw [scanFrom_slash hletter hslash, scanFrom_char hc, ih htight.2]
  | case6 l ts ih =>
    show scanFrom 0 (l.mark ++ text ts) = l.sequence ++ scanned ts
    rw [scanFrom_mark, ih htight]
  | case7 c hc ts ih =>
    show scanFrom 0 (c :: text ts) = c :: scanned ts
    rw [scanFrom_char hc, ih htight]

/-- The two agree up to the first mark with an unpaired slash before it. -/
theorem pairs_eq_scanned_iff (ts : List Token) : pairs ts = scanned ts ↔ SlashesPaired ts := by
  have hcons : ∀ (c : UInt8) (xs ys : Str), c :: xs = c :: ys ↔ xs = ys :=
    fun c xs ys => List.cons_inj_right c
  induction ts using pairs.induct with
  | case1 => exact iff_of_true rfl trivial
  | case2 => exact iff_of_true rfl trivial
  | case3 ts ih => exact (hcons _ _ _).trans ih
  | case4 l ts ih =>
    refine iff_of_false ?_ id
    intro h
    have htail := List.tail_eq_of_cons_eq h
    exact absurd (List.head_eq_of_cons_eq htail) (by decide)
  | case5 c hc ts ih => exact (hcons _ _ _).trans ((hcons _ _ _).trans ih)
  | case6 l ts ih => exact (List.append_right_inj l.sequence).trans ih
  | case7 c hc ts ih => exact (hcons _ _ _).trans ih

/-! ### The condition on the line -/

theorem slashesPaired_mark {n : ℕ} {l : Letter} {ts : List Token} :
    SlashesPaired (List.replicate n .slash ++ .mark l :: ts) ↔ n % 2 = 0 ∧ SlashesPaired ts := by
  induction n using Nat.twoStepInduction with
  | zero => exact (and_iff_right rfl).symm
  | one => exact iff_of_false id fun h => absurd h.1 (by decide)
  | more n ih _ =>
    rw [Nat.add_mod_right]
    exact ih

theorem slashesPaired_char {n : ℕ} {c : UInt8} {hc : c ≠ 47} {ts : List Token} :
    SlashesPaired (List.replicate n .slash ++ .char c hc :: ts) ↔ SlashesPaired ts := by
  induction n using Nat.twoStepInduction with
  | zero => rfl
  | one => rfl
  | more n ih _ => exact ih

theorem slashesPaired_slashes {n : ℕ} : SlashesPaired (List.replicate n .slash) := by
  induction n using Nat.twoStepInduction with
  | zero => trivial
  | one => trivial
  | more n ih _ => exact ih

/-- An ordinary character right after a slash does not make a mark with it. -/
theorem Tight.not_prefix {n : ℕ} {ts : List Token} (h : Tight (List.replicate n .slash ++ ts)) (hn : n ≠ 0)
    (l : Letter) : ¬[102, l.byte] <+: text ts := by
  induction n with
  | zero => exact absurd rfl hn
  | succ n ih =>
    by_cases hzero : n = 0
    · rw [hzero] at h
      exact h.1 l
    · exact ih h.2 hzero

theorem Tight.drop {n : ℕ} {ts : List Token} (h : Tight (List.replicate n .slash ++ ts)) : Tight ts := by
  induction n with
  | zero => exact h
  | succ n ih => exact ih h.2

theorem oddSlashes_char {n : ℕ} {c : UInt8} {cs : Str} (hc : c ≠ 47) :
    OddSlashes n (c :: cs) ↔
      ((∃ l ∈ letters, [102, l.byte] <+: c :: cs) → n = 0 ∨ n % 2 = 1) ∧ OddSlashes 0 cs := by
  show (if c = 47 then OddSlashes (n + 1) cs
    else ((∃ l ∈ letters, [102, l.byte] <+: c :: cs) → n = 0 ∨ n % 2 = 1) ∧ OddSlashes 0 cs) ↔ _
  rw [if_neg hc]

/-- An odd run of slashes before the letters is an even one before the mark. -/
theorem oddSlashes_text {n : ℕ} {ts : List Token} (htight : Tight (List.replicate n .slash ++ ts)) :
    OddSlashes n (text ts) ↔ SlashesPaired (List.replicate n .slash ++ ts) := by
  induction ts generalizing n with
  | nil =>
    rw [List.append_nil]
    exact iff_of_true trivial slashesPaired_slashes
  | cons t ts ih =>
    have hrest : OddSlashes 0 (text ts) ↔ SlashesPaired ts := by
      apply ih (n := 0)
      cases t with
      | slash => exact htight.drop.2
      | mark l => exact htight.drop
      | char c hc => exact htight.drop
    cases t with
    | slash =>
      have hsnoc : List.replicate n Token.slash ++ .slash :: ts = List.replicate (n + 1) .slash ++ ts := by
        rw [List.replicate_succ', List.append_assoc]
        rfl
      rw [hsnoc] at htight ⊢
      exact ih htight
    | mark l =>
      rw [slashesPaired_mark, ← hrest]
      show OddSlashes (n + 1) (102 :: l.byte :: text ts) ↔ _
      have hbefore : ∃ l' ∈ letters, [102, l'.byte] <+: 102 :: l.byte :: text ts :=
        ⟨l, mem_letters l, List.prefix_append [102, l.byte] _⟩
      have hafter : ¬∃ l' ∈ letters, [102, l'.byte] <+: l.byte :: text ts := by
        intro ⟨l', _, h⟩
        exact l.byte_ne.2.2 (List.cons_prefix_cons.mp h).1.symm
      rw [oddSlashes_char (by decide), oddSlashes_char l.byte_ne.1]
      constructor
      · intro h
        have := h.1 hbefore
        exact ⟨by omega, h.2.2⟩
      · intro h
        exact ⟨fun _ => by omega, fun h' => absurd h' hafter, h.2⟩
    | char c hc =>
      rw [slashesPaired_char, ← hrest]
      show OddSlashes n (c :: text ts) ↔ _
      have hfree : n ≠ 0 → ¬∃ l ∈ letters, [102, l.byte] <+: c :: text ts := by
        intro hn ⟨l, _, h⟩
        exact htight.not_prefix hn l h
      rw [oddSlashes_char hc, and_iff_right_iff_imp]
      intro _ h
      by_cases hn : n = 0
      · exact .inl hn
      · exact absurd h (hfree hn)

theorem markCount_text {ts : List Token} (htight : Tight ts) :
    markCount (text ts) = marksIn letters ts := by
  have hno : ∀ (c : UInt8) (cs : Str), c ≠ 47 → markCount (c :: cs) = markCount cs := by
    intro c cs hc
    have hfree : ¬∃ l ∈ letters, l.mark <+: c :: cs := by
      intro ⟨l, _, h⟩
      exact hc (List.cons_prefix_cons.mp h).1.symm
    show (if ∃ l ∈ letters, l.mark <+: c :: cs then 1 else 0) + markCount cs = markCount cs
    rw [if_neg hfree, Nat.zero_add]
  induction ts with
  | nil => rfl
  | cons t ts ih =>
    cases t with
    | mark l =>
      have hmark : ∃ l' ∈ letters, l'.mark <+: 47 :: 102 :: l.byte :: text ts :=
        ⟨l, mem_letters l, List.prefix_append l.mark _⟩
      show (if ∃ l' ∈ letters, l'.mark <+: 47 :: 102 :: l.byte :: text ts then 1 else 0) +
        markCount (102 :: l.byte :: text ts) = (if l ∈ letters then 1 else 0) + marksIn letters ts
      rw [if_pos hmark, if_pos (mem_letters l), hno 102 _ (by decide), hno l.byte _ l.byte_ne.1, ih htight]
    | slash =>
      have hfree : ¬∃ l ∈ letters, l.mark <+: 47 :: text ts := by
        intro ⟨l, _, h⟩
        exact htight.1 l (List.cons_prefix_cons.mp h).2
      show (if ∃ l ∈ letters, l.mark <+: 47 :: text ts then 1 else 0) + markCount (text ts) = _
      rw [if_neg hfree, Nat.zero_add, ih htight.2]
      rfl
    | char c hc =>
      show markCount (c :: text ts) = _
      rw [hno c _ hc, ih htight]
      rfl

/-! ### All passes -/

/-- The passes for some letters fit when what the last of them leaves does. -/
theorem foldlM_letters {ls done : List Letter} {ts : List Token} (htight : Tight ts) (hls : ls ≠ []) :
    ls.foldlM (fun line l => fits 1024 (replaceFrom l.mark l.sequence 0 line)) (render done ts) =
      fits 1024 (render (ls.reverse ++ done) ts) := by
  induction ls generalizing done with
  | nil => exact absurd rfl hls
  | cons l ls ih =>
    rw [List.foldlM_cons, replaceFrom_mark htight, List.reverse_cons, List.append_assoc, List.singleton_append]
    by_cases hlast : ls = []
    · rw [hlast]
      exact bind_pure _
    · by_cases hlt : (render (l :: done) ts).length < 1024
      · rw [fits, if_pos hlt, ok_bind, ih hlast]
      · have hmono : marksIn (l :: done) ts ≤ marksIn (ls.reverse ++ l :: done) ts :=
          marksIn_mono (List.subset_append_right _ _)
        rw [length_render] at hlt
        rw [fits, fits, length_render, length_render, if_neg hlt, if_neg (by omega)]
        rfl

theorem length_pairs_le (ts : List Token) : (pairs ts).length ≤ (render letters ts).length := by
  have hletter : ∀ l : Letter, (Token.render letters (.mark l)).length = l.sequence.length :=
    fun l => by rw [Token.render_done (mem_letters l)]
  induction ts using pairs.induct with
  | case1 => exact le_rfl
  | case2 => exact le_rfl
  | case3 ts ih =>
    show (pairs ts).length + 1 ≤ (render letters ts).length + 1 + 1
    omega
  | case4 l ts ih =>
    show (l.sequence ++ pairs ts).length + 1 ≤
      (Token.render letters (.mark l) ++ render letters ts).length + 1
    rw [List.length_append, List.length_append, hletter]
    omega
  | case5 c hc ts ih => exact Nat.succ_le_succ (Nat.succ_le_succ ih)
  | case6 l ts ih =>
    show (l.sequence ++ pairs ts).length ≤ (Token.render letters (.mark l) ++ render letters ts).length
    rw [List.length_append, List.length_append, hletter]
    exact Nat.add_le_add_left ih _
  | case7 c hc ts ih => exact Nat.succ_le_succ ih

/-- **`convertFormattingMarks`** on the blocks of a line: it stays in its arrays while the line and one more
character for each mark do. -/
theorem convertFormattingMarks_text {ts : List Token} (htight : Tight ts) :
    convertFormattingMarks (text ts) =
      if (text ts).length + marksIn letters ts < 1024 then .ok (pairs ts) else .error .undefined := by
  have hletters : (letters.reverse.map fun l => (l.mark, l.sequence)).foldlM
      (fun line mark => fits 1024 (replaceFrom mark.1 mark.2 0 line)) (text ts) =
      fits 1024 (render letters ts) := by
    rw [List.foldlM_map]
    exact foldlM_letters htight (by decide)
  unfold convertFormattingMarks
  rw [marks_eq, List.foldlM_append, hletters, fits, length_render]
  by_cases hlt : (text ts).length + marksIn letters ts < 1024
  · have hle := length_pairs_le ts
    rw [length_render] at hle
    rw [if_pos hlt, if_pos hlt, ok_bind, List.foldlM_cons, replaceFrom_slashes, fits, if_pos (by omega)]
    rfl
  · rw [if_neg hlt, if_neg hlt]
    rfl

theorem convertFormattingMarks_eq_translate_text {ts : List Token} (htight : Tight ts) :
    convertFormattingMarks (text ts) = .ok (translate (text ts)) ↔
      (text ts).length + marksIn letters ts < 1024 ∧ OddSlashes 0 (text ts) := by
  have hodd : OddSlashes 0 (text ts) ↔ SlashesPaired ts := oddSlashes_text htight
  rw [convertFormattingMarks_text htight, translate_text htight, hodd, ← pairs_eq_scanned_iff]
  by_cases hlt : (text ts).length + marksIn letters ts < 1024
  · rw [if_pos hlt, and_iff_right hlt]
    exact ⟨Except.ok.inj, congrArg Except.ok⟩
  · rw [if_neg hlt]
    refine iff_of_false ?_ fun h => hlt h.1
    intro h
    cases h

/-- **When the passes do what the scan does.** -/
theorem convertFormattingMarks_eq_translate_iff (line : Str) :
    convertFormattingMarks line = .ok (translate line) ↔
      line.length + markCount line < 1024 ∧ OddSlashes 0 line := by
  obtain ⟨ts, htight, htext⟩ := exists_tokens line
  rw [← htext, markCount_text htight]
  exact convertFormattingMarks_eq_translate_text htight

/-- A slash before a mark: the line of the manual that shows how bold text is marked. -/
theorem slash_before_mark :
    convertFormattingMarks (bytes ['/', '/', 'f', 'B']) ≠ .ok (translate (bytes ['/', '/', 'f', 'B'])) := by
  decide

theorem writtenIndices_lt_text {ts : List Token} (htight : Tight ts) :
    (∀ x ∈ writtenIndices marks (text ts), x < 1024) ↔ (text ts).length + marksIn letters ts < 1024 := by
  rw [writtenIndices_lt_iff_ok, convertFormattingMarks_text htight]
  by_cases hlt : (text ts).length + marksIn letters ts < 1024
  · rw [if_pos hlt]
    exact iff_of_true ⟨pairs ts, rfl⟩ hlt
  · rw [if_neg hlt]
    refine iff_of_false ?_ hlt
    intro ⟨line', h⟩
    cases h

/-- **When the passes stay inside their arrays.** -/
theorem writtenIndices_lt_iff (line : Str) :
    (∀ x ∈ writtenIndices marks line, x < 1024) ↔ line.length + markCount line < 1024 := by
  obtain ⟨ts, htight, htext⟩ := exists_tokens line
  rw [← htext, markCount_text htight]
  exact writtenIndices_lt_text htight

/-- A line of `n` marks for bold text. -/
def boldMarks (n : ℕ) : List Token := List.replicate n (.mark .B)

theorem boldMarks_counts (n : ℕ) : Tight (boldMarks n) ∧ (text (boldMarks n)).length = 3 * n ∧
    marksIn letters (boldMarks n) = n ∧ newline ∉ text (boldMarks n) ∧ 0 ∉ text (boldMarks n) := by
  induction n with
  | zero => exact ⟨trivial, rfl, rfl, List.not_mem_nil, List.not_mem_nil⟩
  | succ n ih =>
    obtain ⟨htight, hlength, hmarks, hnl, hnul⟩ := ih
    have htext : text (boldMarks (n + 1)) = Letter.B.mark ++ text (boldMarks n) := rfl
    refine ⟨htight, ?_, ?_, ?_, ?_⟩
    · rw [htext, List.length_append, hlength]
      show 3 + 3 * n = 3 * (n + 1)
      omega
    · show 1 + marksIn letters (boldMarks n) = n + 1
      omega
    · rw [htext, List.mem_append]
      exact fun h => h.elim (by decide) hnl
    · rw [htext, List.mem_append]
      exact fun h => h.elim (by decide) hnul

/-- A line of 1023 characters, all of them marks, ends beyond the array. -/
theorem marks_overrun : ∃ line : Str, line.length = 1023 ∧ newline ∉ line ∧ 0 ∉ line ∧
    ∃ x ∈ writtenIndices marks line, 1024 ≤ x := by
  obtain ⟨htight, hlength, hmarks, hnl, hnul⟩ := boldMarks_counts 341
  refine ⟨text (boldMarks 341), hlength, hnl, hnul, ?_⟩
  by_contra hno
  have hall : ∀ x ∈ writtenIndices marks (text (boldMarks 341)), x < 1024 :=
    fun x hx => not_le.mp fun hle => hno ⟨x, hx, hle⟩
  rw [writtenIndices_lt_text htight, hlength, hmarks] at hall
  exact absurd hall (by decide)

end OperatingSystems.Man
