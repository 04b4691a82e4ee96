import OperatingSystems.Man.Marks

/-!
# The kinds of lines

`convertFile` tells comments, section headers and ordinary lines apart by patterns of `sscanf`, in which
white space stands for any amount of it, none included, and newlines too.  The manual tells them apart by
their first characters.

* **`treatLine`** — what the loop of `convertFile` does with one line; **`writeLines_cons`** says that it does
  so with every line.
* **`documentedLine`** — what the manual wants.
* **`outputs_eq_documented_iff`** — for which files the two agree on every line.
-/

namespace OperatingSystems.Man

open Outcomes

/-! ### One line at a time -/

/-- The body of the loop of `convertFile`, for the line with this number. -/
def treatLine (lineNumber : ℕ) (line : Str) : Except Failure (Option Written) :=
  match scanHashTag line with
  | some hashTagContent => do
    let _ ← fits 256 hashTagContent
    .ok none
  | none =>
    match scanSectionName line with
    | some sectionName => do
      let sectionName ← fits 256 sectionName
      .ok (some (.header (sectionName.map toupper)))
    | none =>
      if bytes ['.', 'S', 'H'] ++ [newline] <+: line then .error (.improper lineNumber)
      else do
        let line ← convertFormattingMarks line
        .ok (some (.body line))

/-- The loop treats each line in this way. -/
theorem writeLines_cons (lineNumber : ℕ) (line : Str) (lines : List Str) :
    writeLines lineNumber (line :: lines) =
      (treatLine (lineNumber + 1) line >>= fun written =>
        writeLines (lineNumber + 1) lines >>= fun rest => .ok (written.toList ++ rest)) := by
  unfold treatLine
  rw [writeLines]
  cases scanHashTag line with
  | some hashTagContent =>
    dsimp only
    cases fits 256 hashTagContent with
    | error e => rfl
    | ok _ => exact (bind_pure (writeLines (lineNumber + 1) lines)).symm
  | none =>
    dsimp only
    cases scanSectionName line with
    | some sectionName =>
      dsimp only
      cases fits 256 sectionName with
      | error e => rfl
      | ok _ => rfl
    | none =>
      dsimp only
      by_cases himproper : bytes ['.', 'S', 'H'] ++ [newline] <+: line
      · rw [if_pos himproper, if_pos himproper]
        rfl
      · rw [if_neg himproper, if_neg himproper]
        cases convertFormattingMarks line with
        | error e => rfl
        | ok line' => rfl

/-- What a line adds to the text of the page. -/
def lineText (written : Option Written) : Str := written.elim [] Written.text

/-! ### Specification -/

/-- What the manual wants for the line with this number, when `convert` translates formatting marks. -/
def documentedLine (convert : Str → Except Failure Str) (lineNumber : ℕ) (line : Str) :
    Except Failure Str :=
  if bytes ['#'] <+: line then .ok []
  else if bytes ['.', 'S', 'H', ' '] <+: line ∧ (line.drop 4).any (!isspace ·) then
    let name := ((line.drop 4).dropWhile isspace).takeWhile (· != newline)
    .ok ([newline] ++ (escape :: bytes ['[', '1', 'm']) ++ name.map toupper ++
      (escape :: bytes ['[', '0', 'm']) ++ [newline])
  else if bytes ['.', 'S', 'H'] <+: line ∧ (line.drop 3).all isspace then .error (.improper lineNumber)
  else do
    let translation ← convert line
    .ok (List.replicate 7 space ++ translation)

/-- The outcomes for the lines after the one with this number, up to the first failure. -/
def outputs (treat : ℕ → Str → Except Failure Str) : ℕ → List Str → List (Except Failure Str)
  | _, [] => []
  | lineNumber, line :: lines =>
    match treat (lineNumber + 1) line with
    | .error e => [.error e]
    | .ok text => .ok text :: outputs treat (lineNumber + 1) lines

theorem outputs_error {treat : ℕ → Str → Except Failure Str} {k : ℕ} {line : Str} {lines : List Str}
    {e : Failure} (h : treat (k + 1) line = .error e) : outputs treat k (line :: lines) = [.error e] := by
  unfold outputs
  rw [h]

theorem outputs_ok {treat : ℕ → Str → Except Failure Str} {k : ℕ} {line text : Str} {lines : List Str}
    (h : treat (k + 1) line = .ok text) :
    outputs treat k (line :: lines) = .ok text :: outputs treat (k + 1) lines := by
  rw [outputs, h]

/-- There is a word after a `#`; after `.SH` comes the newline, with nothing else in the line, or else a space
and a name. -/
def PlainKind (line : Str) : Prop :=
  (bytes ['#'] <+: line → (line.drop 1).any (!isspace ·)) ∧
    (bytes ['.', 'S', 'H'] <+: line →
      if (line.drop 3).all isspace then bytes ['.', 'S', 'H'] ++ [newline] <+: line
      else bytes ['.', 'S', 'H', ' '] <+: line)

instance (line : Str) : Decidable (PlainKind line) := inferInstanceAs (Decidable (_ ∧ _))

/-- Neither a comment nor a section header. -/
def Ordinary (line : Str) : Prop := ¬bytes ['#'] <+: line ∧ ¬bytes ['.', 'S', 'H'] <+: line

instance (line : Str) : Decidable (Ordinary line) := inferInstanceAs (Decidable (_ ∧ _))

/-- The line at which the page is given up. -/
def isBareHeader (line : Str) : Bool :=
  (bytes ['.', 'S', 'H'] ++ [newline]).isPrefixOf line && (line.drop 3).all isspace

/-! ### White space in the patterns -/

/-- After white space is skipped, something is stored unless the rest is white space. -/
theorem scan_eq_nil_iff {q : UInt8 → Bool} (hq : ∀ c, isspace c = false → q c = true) (s : Str) :
    (s.dropWhile isspace).takeWhile q = [] ↔ s.all isspace = true := by
  induction s with
  | nil => exact iff_of_true rfl rfl
  | cons c s ih =>
    cases hc : isspace c with
    | true => rw [List.dropWhile_cons_of_pos hc, List.all_cons, hc, Bool.true_and, ih]
    | false =>
      have hneg : ¬isspace c = true := by rw [hc]; exact Bool.false_ne_true
      rw [List.dropWhile_cons_of_neg hneg, List.takeWhile_cons_of_pos (hq c hc), List.all_cons, hc]
      exact iff_of_false (List.cons_ne_nil _ _) Bool.false_ne_true

theorem any_not_isspace (s : Str) : s.any (!isspace ·) = !s.all isspace := by
  rw [List.all_eq_not_any_not, Bool.not_not]

theorem scanHashTag_hash (rest : Str) :
    scanHashTag (35 :: rest) =
      if rest.all isspace then none
      else some ((rest.dropWhile isspace).takeWhile (!isspace ·)) := by
  have hiff := scan_eq_nil_iff (q := fun c => !isspace c) (fun c hc => by rw [hc]; rfl) rest
  show (if (rest.dropWhile isspace).takeWhile (!isspace ·) = [] then none
    else some ((rest.dropWhile isspace).takeWhile (!isspace ·))) = _
  simp only [hiff]

theorem scanHashTag_other {line : Str} (h : ¬bytes ['#'] <+: line) : scanHashTag line = none := by
  unfold scanHashTag
  split
  · exact absurd (List.prefix_append (bytes ['#']) _) h
  · rfl

theorem scanSectionName_header (rest : Str) :
    scanSectionName (bytes ['.', 'S', 'H'] ++ rest) =
      if rest.all isspace then none
      else some ((rest.dropWhile isspace).takeWhile (· != newline)) := by
  have hnl : ∀ c, isspace c = false → (c != newline) = true := by
    intro c hc
    rw [bne_iff_ne]
    intro heq
    rw [heq] at hc
    cases hc
  have hiff := scan_eq_nil_iff hnl rest
  unfold scanSectionName
  rw [if_pos (List.prefix_append _ _)]
  show (if (rest.dropWhile isspace).takeWhile (· != newline) = [] then none
    else some ((rest.dropWhile isspace).takeWhile (· != newline))) = _
  simp only [hiff]

theorem scanSectionName_other {line : Str} (h : ¬bytes ['.', 'S', 'H'] <+: line) :
    scanSectionName line = none := if_neg h

/-! ### One line -/

theorem markCount_le_length (line : Str) : markCount line ≤ line.length := by
  induction line with
  | nil => exact le_rfl
  | cons c cs ih =>
    show (if ∃ l ∈ letters, l.mark <+: c :: cs then 1 else 0) + markCount cs ≤ cs.length + 1
    split
    · omega
    · omega

/-- Short lines fit the arrays of the conversion. -/
theorem convertFormattingMarks_short {line : Str} (hlen : line.length ≤ 200) :
    ∃ line', convertFormattingMarks line = .ok line' := by
  rw [← writtenIndices_lt_iff_ok]
  obtain ⟨ts, htight, htext⟩ := exists_tokens line
  have hcount := markCount_le_length line
  rw [← htext] at hcount hlen ⊢
  rw [markCount_text htight] at hcount
  rw [writtenIndices_lt_text htight]
  omega

theorem convertFormattingMarks_short_iff {line : Str} (hlen : line.length ≤ 200) :
    convertFormattingMarks line = .ok (translate line) ↔ OddSlashes 0 line := by
  obtain ⟨ts, htight, htext⟩ := exists_tokens line
  have hcount := markCount_le_length line
  rw [← htext] at hcount hlen ⊢
  rw [markCount_text htight] at hcount
  rw [convertFormattingMarks_eq_translate_text htight]
  exact and_iff_right (by omega)

theorem fits_short {s line : Str} (h : s.length ≤ line.length) (hlen : line.length ≤ 200) :
    fits 256 s = .ok s := if_pos (by omega)

/-- What is stored for a conversion is no longer than what the pattern is applied to. -/
theorem length_scan_le {p q : UInt8 → Bool} (s : Str) :
    ((s.dropWhile p).takeWhile q).length ≤ s.length :=
  ((List.takeWhile_sublist q).trans (List.dropWhile_sublist p)).length_le

/-- A line that no pattern accepts is written with its marks converted. -/
theorem treatLine_body {k : ℕ} {line line' : Str} (hhash : scanHashTag line = none)
    (hsection : scanSectionName line = none) (hbare : ¬bytes ['.', 'S', 'H'] ++ [newline] <+: line)
    (hconv : convertFormattingMarks line = .ok line') :
    (treatLine k line).map lineText = .ok (List.replicate 7 space ++ line') := by
  unfold treatLine
  rw [hhash, hsection]
  dsimp only
  rw [if_neg hbare, hconv]
  rfl

/-- A line with a `#`. -/
theorem treatLine_hash {convert : Str → Except Failure Str} {k : ℕ} {rest : Str}
    (hlen : (bytes ['#'] ++ rest).length ≤ 200) :
    (treatLine k (bytes ['#'] ++ rest)).map lineText = documentedLine convert k (bytes ['#'] ++ rest) ↔
      rest.all isspace = false := by
  have hdoc : documentedLine convert k (bytes ['#'] ++ rest) = .ok [] :=
    if_pos (List.prefix_append _ _)
  have hscan : scanHashTag (bytes ['#'] ++ rest) = _ := scanHashTag_hash rest
  rw [hdoc]
  cases hall : rest.all isspace with
  | false =>
    rw [hall] at hscan
    refine iff_of_true ?_ rfl
    have hle : ((rest.dropWhile isspace).takeWhile (!isspace ·)).length ≤ (bytes ['#'] ++ rest).length :=
      (length_scan_le rest).trans (List.sublist_append_right _ _).length_le
    unfold treatLine
    rw [hscan]
    show Except.map lineText (fits 256 _ >>= fun _ => .ok none) = _
    rw [fits_short hle hlen]
    rfl
  | true =>
    rw [hall] at hscan
    refine iff_of_false ?_ Bool.true_eq_false.mp
    obtain ⟨line', hconv⟩ := convertFormattingMarks_short hlen
    have hsection : scanSectionName (bytes ['#'] ++ rest) = none :=
      scanSectionName_other fun h => absurd (List.cons_prefix_cons.mp h).1 (by decide)
    have hbare : ¬bytes ['.', 'S', 'H'] ++ [newline] <+: bytes ['#'] ++ rest :=
      fun h => absurd (List.cons_prefix_cons.mp h).1 (by decide)
    rw [treatLine_body hscan hsection hbare hconv]
    intro h
    cases h

/-- A line with `.SH` and a name in it. -/
theorem treatLine_named {k : ℕ} {rest : Str} (hlen : (bytes ['.', 'S', 'H'] ++ rest).length ≤ 200)
    (hall : rest.all isspace = false) :
    (treatLine k (bytes ['.', 'S', 'H'] ++ rest)).map lineText =
      .ok (Written.header (((rest.dropWhile isspace).takeWhile (· != newline)).map toupper)).text := by
  have hhash : ¬bytes ['#'] <+: bytes ['.', 'S', 'H'] ++ rest :=
    fun h => absurd (List.cons_prefix_cons.mp h).1 (by decide)
  have hsection := scanSectionName_header rest
  rw [hall] at hsection
  have hle : ((rest.dropWhile isspace).takeWhile (· != newline)).length ≤
      (bytes ['.', 'S', 'H'] ++ rest).length :=
    (length_scan_le rest).trans (List.sublist_append_right _ _).length_le
  unfold treatLine
  rw [scanHashTag_other hhash, hsection]
  show Except.map lineText (fits 256 _ >>= fun sectionName => .ok (some (.header (sectionName.map toupper)))) = _
  rw [fits_short hle hlen]
  rfl

/-- A line with `.SH` and only white space behind it. -/
theorem treatLine_unnamed {k : ℕ} {rest : Str} (hlen : (bytes ['.', 'S', 'H'] ++ rest).length ≤ 200)
    (hall : rest.all isspace = true) :
    (treatLine k (bytes ['.', 'S', 'H'] ++ rest)).map lineText = .error (.improper k) ↔
      [newline] <+: rest := by
  have hhash : ¬bytes ['#'] <+: bytes ['.', 'S', 'H'] ++ rest :=
    fun h => absurd (List.cons_prefix_cons.mp h).1 (by decide)
  have hbare : bytes ['.', 'S', 'H'] ++ [newline] <+: bytes ['.', 'S', 'H'] ++ rest ↔ [newline] <+: rest :=
    List.prefix_append_right_inj (bytes ['.', 'S', 'H'])
  have hsection := scanSectionName_header rest
  rw [hall, if_pos rfl] at hsection
  rw [← hbare]
  by_cases himproper : bytes ['.', 'S', 'H'] ++ [newline] <+: bytes ['.', 'S', 'H'] ++ rest
  · refine iff_of_true ?_ himproper
    unfold treatLine
    rw [scanHashTag_other hhash, hsection]
    dsimp only
    rw [if_pos himproper]
    rfl
  · refine iff_of_false ?_ himproper
    obtain ⟨line', hconv⟩ := convertFormattingMarks_short hlen
    rw [treatLine_body (scanHashTag_other hhash) hsection himproper hconv]
    intro h
    cases h

/-- A line with `.SH`. -/
theorem treatLine_header {convert : Str → Except Failure Str} {k : ℕ} {rest : Str}
    (hlen : (bytes ['.', 'S', 'H'] ++ rest).length ≤ 200) :
    (treatLine k (bytes ['.', 'S', 'H'] ++ rest)).map lineText =
        documentedLine convert k (bytes ['.', 'S', 'H'] ++ rest) ↔
      if rest.all isspace then [newline] <+: rest else [space] <+: rest := by
  have hhash : ¬bytes ['#'] <+: bytes ['.', 'S', 'H'] ++ rest :=
    fun h => absurd (List.cons_prefix_cons.mp h).1 (by decide)
  have hspace : bytes ['.', 'S', 'H', ' '] <+: bytes ['.', 'S', 'H'] ++ rest ↔ [space] <+: rest :=
    List.prefix_append_right_inj (bytes ['.', 'S', 'H'])
  have hdrop : (bytes ['.', 'S', 'H'] ++ rest).drop 4 = rest.drop 1 := by
    cases rest <;> rfl
  have hdoc : documentedLine convert k (bytes ['.', 'S', 'H'] ++ rest) =
      if [space] <+: rest ∧ (rest.drop 1).any (!isspace ·) then
        .ok (Written.header ((((rest.drop 1).dropWhile isspace).takeWhile (· != newline)).map toupper)).text
      else if rest.all isspace then .error (.improper k)
      else convert (bytes ['.', 'S', 'H'] ++ rest) >>= fun t => .ok (List.replicate 7 space ++ t) := by
    unfold documentedLine
    rw [if_neg hhash, hdrop]
    simp only [hspace, List.prefix_append, true_and]
    rfl
  rw [hdoc]
  cases hall : rest.all isspace with
  | false =>
    rw [treatLine_named hlen hall]
    by_cases hsp : [space] <+: rest
    · obtain ⟨rest', rfl⟩ := hsp
      have hany : rest'.any (!isspace ·) = true := by
        rw [any_not_isspace]
        have hall' : rest'.all isspace = false := hall
        rw [hall']
        rfl
      refine iff_of_true ?_ (List.prefix_append _ _)
      rw [if_pos ⟨List.prefix_append _ _, hany⟩]
      rfl
    · refine iff_of_false ?_ hsp
      rw [if_neg fun h => hsp h.1, if_neg Bool.false_ne_true]
      intro h
      cases hconv : convert (bytes ['.', 'S', 'H'] ++ rest) with
      | error e =>
        rw [hconv] at h
        cases h
      | ok t =>
        rw [hconv] at h
        have hfirst := List.head_eq_of_cons_eq (Except.ok.inj h)
        exact absurd hfirst (by decide)
  | true =>
    have hany : (rest.drop 1).any (!isspace ·) = false := by
      rw [List.any_eq_false]
      intro c hc
      have := List.all_eq_true.mp hall c (List.mem_of_mem_drop hc)
      rw [this]
      exact Bool.false_ne_true
    rw [if_neg fun h => absurd (hany.symm.trans h.2) Bool.false_ne_true, if_pos rfl, treatLine_unnamed hlen hall]
    exact Iff.rfl

/-- **One line** is treated by its kind where the first characters and the patterns tell it apart in the same
way and its marks are translated as the manual says. -/
theorem treatLine_eq_documentedLine_iff {convert : Str → Except Failure Str} {k : ℕ} {line : Str}
    (hlen : line.length ≤ 200) :
    (treatLine k line).map lineText = documentedLine convert k line ↔
      PlainKind line ∧ (Ordinary line → convert line = convertFormattingMarks line) := by
  by_cases hhash : bytes ['#'] <+: line
  · have hother : ¬Ordinary line := fun h => h.1 hhash
    obtain ⟨rest, rfl⟩ := hhash
    have hheader : ¬bytes ['.', 'S', 'H'] <+: bytes ['#'] ++ rest :=
      fun h => absurd (List.cons_prefix_cons.mp h).1 (by decide)
    have hkind : PlainKind (bytes ['#'] ++ rest) ↔ rest.any (!isspace ·) = true :=
      ⟨fun h => h.1 (List.prefix_append _ _), fun h => ⟨fun _ => h, fun h' => absurd h' hheader⟩⟩
    rw [treatLine_hash hlen, hkind, any_not_isspace, and_iff_left fun h => absurd h hother]
    cases rest.all isspace <;> decide
  · by_cases hheader : bytes ['.', 'S', 'H'] <+: line
    · have hother : ¬Ordinary line := fun h => h.2 hheader
      obtain ⟨rest, rfl⟩ := hheader
      have hkind : PlainKind (bytes ['.', 'S', 'H'] ++ rest) ↔
          if rest.all isspace then [newline] <+: rest else [space] <+: rest := by
        have hno : ¬bytes ['#'] <+: bytes ['.', 'S', 'H'] ++ rest := hhash
        have hif : (if rest.all isspace then bytes ['.', 'S', 'H'] ++ [newline] <+: bytes ['.', 'S', 'H'] ++ rest
            else bytes ['.', 'S', 'H', ' '] <+: bytes ['.', 'S', 'H'] ++ rest) ↔
            if rest.all isspace then [newline] <+: rest else [space] <+: rest := by
          cases rest.all isspace with
          | false => exact List.prefix_append_right_inj (bytes ['.', 'S', 'H'])
          | true => exact List.prefix_append_right_inj (bytes ['.', 'S', 'H'])
        rw [← hif]
        exact ⟨fun h => h.2 (List.prefix_append _ _), fun h => ⟨fun h' => absurd h' hno, fun _ => h⟩⟩
      rw [treatLine_header hlen, hkind, and_iff_left fun h => absurd h hother]
    · have hkind : PlainKind line := ⟨fun h => absurd h hhash, fun h => absurd h hheader⟩
      have hbare : ¬bytes ['.', 'S', 'H'] ++ [newline] <+: line :=
        fun h => hheader ((List.prefix_append _ _).trans h)
      have hnamed : ¬bytes ['.', 'S', 'H', ' '] <+: line :=
        fun h => hheader ((List.prefix_append (bytes ['.', 'S', 'H']) (bytes [' '])).trans h)
      obtain ⟨line', hconv⟩ := convertFormattingMarks_short hlen
      rw [treatLine_body (scanHashTag_other hhash) (scanSectionName_other hheader) hbare hconv,
        and_iff_right hkind, hconv]
      unfold documentedLine
      rw [if_neg hhash, if_neg fun h => hnamed h.1, if_neg fun h => hheader h.1]
      constructor
      · intro h _
        cases ht : convert line with
        | error e =>
          rw [ht] at h
          cases h
        | ok t =>
          rw [ht] at h
          rw [List.append_cancel_left (Except.ok.inj h)]
      · intro h
        rw [h ⟨hhash, hheader⟩]
        rfl

/-! ### All lines -/

/-- The lines that the loop comes to before it gives up. -/
def linesBefore (lines : List Str) : List Str := lines.takeWhile (!isBareHeader ·)

/-- Two treatments of a list of lines agree when they agree on each line up to one that both give up at. -/
theorem outputs_eq_iff {treat treat' : ℕ → Str → Except Failure Str} {stops : Str → Bool} {good : Str → Prop}
    {lines : List Str} {k : ℕ}
    (hline : ∀ line ∈ lines, ∀ k, treat k line = treat' k line ↔ good line)
    (hstop : ∀ line ∈ lines, ∀ k, stops line = true ↔ ∃ e, treat k line = .error e)
    (hgood : ∀ line, stops line = true → good line) :
    outputs treat k lines = outputs treat' k lines ↔ ∀ line ∈ lines.takeWhile (!stops ·), good line := by
  induction lines generalizing k with
  | nil => exact iff_of_true rfl fun _ h => by cases h
  | cons line lines ih =>
    rw [List.forall_mem_cons] at hline hstop
    have ih := @ih (k + 1) hline.2 hstop.2
    by_cases hg : good line
    · have heq := (hline.1 (k + 1)).mpr hg
      cases hs : stops line with
      | true =>
        obtain ⟨e, he⟩ := (hstop.1 (k + 1)).mp hs
        have hnone : (line :: lines).takeWhile (!stops ·) = [] := by
          rw [List.takeWhile_cons, hs]
          rfl
        rw [hnone]
        refine iff_of_true ?_ fun _ h => by cases h
        rw [outputs_error he, outputs_error (heq.symm.trans he)]
      | false =>
        have hsome : (line :: lines).takeWhile (!stops ·) = line :: lines.takeWhile (!stops ·) := by
          rw [List.takeWhile_cons, hs]
          rfl
        rw [hsome, List.forall_mem_cons, and_iff_right hg, ← ih]
        cases ht : treat (k + 1) line with
        | error e => exact absurd ((hstop.1 (k + 1)).mpr ⟨e, ht⟩) (by rw [hs]; exact Bool.false_ne_true)
        | ok text =>
          rw [outputs_ok ht, outputs_ok (heq.symm.trans ht)]
          exact List.cons_inj_right _
    · have hs : stops line = false := by
        cases hs : stops line with
        | true => exact absurd (hgood line hs) hg
        | false => rfl
      have hsome : (line :: lines).takeWhile (!stops ·) = line :: lines.takeWhile (!stops ·) := by
        rw [List.takeWhile_cons, hs]
        rfl
      rw [hsome, List.forall_mem_cons]
      refine iff_of_false ?_ fun h => hg h.1
      intro h
      apply hg
      rw [← hline.1 (k + 1)]
      cases ht : treat (k + 1) line with
      | error e => exact absurd ((hstop.1 (k + 1)).mpr ⟨e, ht⟩) (by rw [hs]; exact Bool.false_ne_true)
      | ok text =>
        rw [outputs_ok ht] at h
        cases ht' : treat' (k + 1) line with
        | error e =>
          rw [outputs_error ht'] at h
          exact List.head_eq_of_cons_eq h
        | ok text' =>
          rw [outputs_ok ht'] at h
          exact List.head_eq_of_cons_eq h

/-- What the loop of `convertFile` adds to the text for a line. -/
def treatedText (lineNumber : ℕ) (line : Str) : Except Failure Str := (treatLine lineNumber line).map lineText

/-- The text between the first and the last line of the page is that of its lines. -/
theorem outputs_of_writeLines {k : ℕ} {lines : List Str} {ws : List Written}
    (h : writeLines k lines = .ok ws) :
    ∃ texts : List Str, outputs treatedText k lines = texts.map .ok ∧ texts.flatten = ws.flatMap Written.text := by
  induction lines generalizing k ws with
  | nil =>
    rw [← Except.ok.inj (h : Except.ok [] = .ok ws)]
    exact ⟨[], rfl, rfl⟩
  | cons line lines ih =>
    rw [writeLines_cons] at h
    obtain ⟨written, hwritten, h⟩ := bind_eq_ok h
    obtain ⟨rest, hrest, h⟩ := bind_eq_ok h
    obtain ⟨texts, htexts, hflatten⟩ := ih hrest
    have htext : treatedText (k + 1) line = .ok (lineText written) := by
      unfold treatedText
      rw [hwritten]
      rfl
    refine ⟨lineText written :: texts, ?_, ?_⟩
    · rw [outputs_ok htext, htexts]
      rfl
    · rw [← Except.ok.inj h, List.flatten_cons, hflatten, List.flatMap_append]
      cases written with
      | none => rfl
      | some w => exact congrArg (· ++ _) (List.append_nil _).symm

theorem scanHashTag_length {line word : Str} (h : scanHashTag line = some word) :
    word.length ≤ line.length := by
  unfold scanHashTag at h
  split at h
  · rename_i rest
    dsimp only at h
    split at h
    · cases h
    · rw [← Option.some.inj h]
      exact (length_scan_le rest).trans (Nat.le_succ _)
  · cases h

theorem scanSectionName_length {line name : Str} (h : scanSectionName line = some name) :
    name.length ≤ line.length := by
  unfold scanSectionName at h
  split at h
  · dsimp only at h
    split at h
    · cases h
    · rw [← Option.some.inj h]
      exact (length_scan_le _).trans (List.drop_sublist 3 line).length_le
  · cases h

/-- A page is given up at a line with a bare `.SH`. -/
theorem treatedText_error_iff {k : ℕ} {line : Str} (hlen : line.length ≤ 200) :
    isBareHeader line = true ↔ ∃ e, treatedText k line = .error e := by
  have hbare : isBareHeader line = true ↔ bytes ['.', 'S', 'H'] ++ [newline] <+: line ∧
      scanSectionName line = none := by
    unfold isBareHeader
    rw [Bool.and_eq_true, List.isPrefixOf_iff_prefix]
    refine and_congr_right fun h => ?_
    obtain ⟨rest, rfl⟩ := h
    have hsection := scanSectionName_header (newline :: rest)
    show (newline :: rest).all isspace = true ↔ scanSectionName (bytes ['.', 'S', 'H'] ++ newline :: rest) = none
    rw [hsection]
    cases (newline :: rest).all isspace with
    | false => exact iff_of_false Bool.false_ne_true fun h => by cases h
    | true => exact iff_of_true rfl rfl
  rw [hbare]
  unfold treatedText treatLine
  cases hhash : scanHashTag line with
  | some word =>
    dsimp only
    rw [fits_short (scanHashTag_length hhash) hlen]
    refine iff_of_false ?_ fun ⟨e, h⟩ => by cases h
    intro h
    have hother : ¬bytes ['#'] <+: line := by
      obtain ⟨rest, rfl⟩ := h.1
      exact fun h => absurd (List.cons_prefix_cons.mp h).1 (by decide)
    rw [scanHashTag_other hother] at hhash
    cases hhash
  | none =>
    cases hsection : scanSectionName line with
    | some name =>
      dsimp only
      rw [fits_short (scanSectionName_length hsection) hlen]
      exact iff_of_false (fun h => by cases h.2) fun ⟨e, h⟩ => by cases h
    | none =>
      dsimp only
      by_cases himproper : bytes ['.', 'S', 'H'] ++ [newline] <+: line
      · rw [if_pos himproper]
        exact iff_of_true ⟨himproper, rfl⟩ ⟨_, rfl⟩
      · obtain ⟨line', hconv⟩ := convertFormattingMarks_short hlen
        rw [if_neg himproper, hconv]
        exact iff_of_false (fun h => himproper h.1) fun ⟨e, h⟩ => by cases h

theorem plainKind_of_bare {line : Str} (h : isBareHeader line = true) : PlainKind line ∧ ¬Ordinary line := by
  unfold isBareHeader at h
  rw [Bool.and_eq_true, List.isPrefixOf_iff_prefix] at h
  have hheader : bytes ['.', 'S', 'H'] <+: line := (List.prefix_append _ [newline]).trans h.1
  refine ⟨⟨?_, fun _ => ?_⟩, fun ho => ho.2 hheader⟩
  · intro hhash
    obtain ⟨rest, rfl⟩ := hheader
    exact absurd (List.cons_prefix_cons.mp hhash).1 (by decide)
  · rw [if_pos h.2]
    exact h.1

/-- **The lines of a file** are treated by their kinds, with the conversion of the code and with the
translation of the manual. -/
theorem outputs_eq_documented_iff {file : Str} (hshort : ∀ line ∈ (fgetsAll file).tail, line.length ≤ 200) :
    (outputs treatedText 1 (fgetsAll file).tail =
        outputs (documentedLine convertFormattingMarks) 1 (fgetsAll file).tail ↔
      ∀ line ∈ linesBefore (fgetsAll file).tail, PlainKind line) ∧
    (outputs treatedText 1 (fgetsAll file).tail =
        outputs (documentedLine fun line => .ok (translate line)) 1 (fgetsAll file).tail ↔
      ∀ line ∈ linesBefore (fgetsAll file).tail, PlainKind line ∧ (Ordinary line → OddSlashes 0 line)) := by
  have hstop : ∀ line ∈ (fgetsAll file).tail, ∀ k,
      isBareHeader line = true ↔ ∃ e, treatedText k line = .error e :=
    fun line hline k => treatedText_error_iff (hshort line hline)
  constructor
  · apply outputs_eq_iff _ hstop fun line h => (plainKind_of_bare h).1
    intro line hline k
    exact (treatLine_eq_documentedLine_iff (hshort line hline)).trans (and_iff_left fun _ => rfl)
  · apply outputs_eq_iff _ hstop fun line h =>
      ⟨(plainKind_of_bare h).1, fun ho => absurd ho (plainKind_of_bare h).2⟩
    intro line hline k
    have hlen := hshort line hline
    refine (treatLine_eq_documentedLine_iff hlen).trans (and_congr_right fun _ => imp_congr_right fun _ => ?_)
    rw [eq_comm]
    exact convertFormattingMarks_short_iff hlen

/-- `.TH a 1 2020-01-01`, `# b`, `.SH c`, `/fBd` -/
def page : Str :=
  bytes ['.', 'T', 'H', ' ', 'a', ' ', '1', ' ', '2', '0', '2', '0', '-', '0', '1', '-', '0', '1', '\n',
    '#', ' ', 'b', '\n', '.', 'S', 'H', ' ', 'c', '\n', '/', 'f', 'B', 'd', '\n']

/-- `.TH a 1 2020-01-01`, `//fB` -/
def slashes : Str :=
  bytes ['.', 'T', 'H', ' ', 'a', ' ', '1', ' ', '2', '0', '2', '0', '-', '0', '1', '-', '0', '1', '\n',
    '/', '/', 'f', 'B', '\n']

/-- The first page is as the manual has it; on the second one the marks are converted otherwise. -/
theorem outputs_page :
    outputs treatedText 1 (fgetsAll page).tail =
        outputs (documentedLine convertFormattingMarks) 1 (fgetsAll page).tail ∧
      outputs treatedText 1 (fgetsAll page).tail =
        outputs (documentedLine fun line => .ok (translate line)) 1 (fgetsAll page).tail ∧
      outputs treatedText 1 (fgetsAll slashes).tail =
        outputs (documentedLine convertFormattingMarks) 1 (fgetsAll slashes).tail ∧
      outputs treatedText 1 (fgetsAll slashes).tail ≠
        outputs (documentedLine fun line => .ok (translate line)) 1 (fgetsAll slashes).tail := by
  have hpage := @outputs_eq_documented_iff page (by decide)
  have hslashes := @outputs_eq_documented_iff slashes (by decide)
  refine ⟨hpage.1.mpr (by decide), hpage.2.mpr (by decide), hslashes.1.mpr (by decide), ?_⟩
  exact fun h => absurd (hslashes.2.mp h) (by decide)

/-- `.TH a 1 2020-01-01`, `#` -/
def emptyComment : Str :=
  bytes ['.', 'T', 'H', ' ', 'a', ' ', '1', ' ', '2', '0', '2', '0', '-', '0', '1', '-', '0', '1', '\n',
    '#', '\n']

/-- A `#` with nothing behind it is written to the page. -/
theorem outputs_emptyComment : (∀ line ∈ (fgetsAll emptyComment).tail, line.length ≤ 200) ∧
    outputs treatedText 1 (fgetsAll emptyComment).tail = [.ok (List.replicate 7 space ++ bytes ['#', '\n'])] ∧
    outputs (documentedLine convertFormattingMarks) 1 (fgetsAll emptyComment).tail = [.ok []] ∧
    outputs (documentedLine fun line => .ok (translate line)) 1 (fgetsAll emptyComment).tail = [.ok []] := by
  decide

end OperatingSystems.Man
