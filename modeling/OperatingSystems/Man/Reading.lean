import OperatingSystems.Man.Wapropos

/-!
# What the search makes of a page

The pieces in which a page is read fall into its first line, the lines before the first header, and the
sections, each with the line of its header.  The search goes through them section by section.

* **`fgetsAll_page`** — the pieces of a page.
* **`search_section`** — what one section does to the search: it fails, it finds, or it goes on.
* **`search_sections`** — the search in all of them.
* **`infix_section`** — where a keyword that is read in a section comes from.
-/

namespace OperatingSystems.Man

open TextLines

variable {footer closing keyword : Str} {bs : List Str} {hd : Header}

/-! ### Sections that were written -/

/-- Body lines that fit their array and end with a newline, but for the last one before the footer. -/
def WellBodied (footer closing : Str) : List Str → Prop
  | [] => closing = [newline] ∨ closing = footer
  | line :: bs =>
    (line.length < 1024 ∧
      ∃ c, newline ∉ c ∧ (line = c ++ [newline] ∨ line = c ∧ bs = [] ∧ closing = footer)) ∧
      WellBodied footer closing bs

/-- Sections with names and lines of this kind, where only the last is closed by the footer. -/
def WellSectioned (footer : Str) : List Section → Prop
  | [] => True
  | s :: ss =>
    (newline ∉ s.name ∧ s.name.length < 256 ∧ s.closing = closingOf footer ss ∧
      WellBodied footer s.closing s.bodies) ∧ WellSectioned footer ss

theorem closingOf_cons (s : Section) (ss : List Section) : closingOf footer (s :: ss) = [newline] := rfl

theorem wellSectioned_sectionsOf {ws : List Written} (h : WellWritten ws) :
    WellBodied footer (closingOf footer (sectionsOf footer ws).2) (sectionsOf footer ws).1 ∧
      WellSectioned footer (sectionsOf footer ws).2 := by
  induction ws with
  | nil => exact ⟨.inr rfl, trivial⟩
  | cons w ws ih =>
    cases w with
    | header name =>
      obtain ⟨⟨hnl, -, hlen⟩, hrest⟩ := h
      obtain ⟨hbodies, hsections⟩ := ih hrest
      exact ⟨.inl rfl, ⟨hnl, hlen, rfl, hbodies⟩, hsections⟩
    | body line =>
      obtain ⟨⟨-, hlen, c, hc, hend⟩, hrest⟩ := h
      obtain ⟨hbodies, hsections⟩ := ih hrest
      refine ⟨⟨⟨hlen, c, hc, ?_⟩, hbodies⟩, hsections⟩
      rcases hend with hend | ⟨hend, rfl⟩
      · exact .inl hend
      · exact .inr ⟨hend, rfl, rfl⟩

/-- The text of what was written, section by section. -/
theorem text_sectionsOf (ws : List Written) : ws.flatMap Written.text ++ footer =
    (sectionsOf footer ws).1.flatMap bodyLine ++ closingOf footer (sectionsOf footer ws).2 ++
      (sectionsOf footer ws).2.flatMap fun s => headerLine s.name ++ s.text := by
  induction ws with
  | nil => simp [sectionsOf, closingOf]
  | cons w ws ih =>
    rw [List.flatMap_cons, List.append_assoc, ih]
    cases w with
    | header name =>
      simp only [sectionsOf, closingOf_cons, List.flatMap_nil, List.nil_append, List.flatMap_cons,
        Section.text, Written.text, List.append_assoc, List.cons_append]
    | body line =>
      simp only [sectionsOf, List.flatMap_cons, Written.text, List.append_assoc]

/-! ### Pieces of a section -/

/-- A line that is no header of a NAME or DESCRIPTION section. -/
def Quiet (line : Str) : Prop := line ≠ nameLine ∧ line ≠ descriptionLine

theorem quiet_of_head {line : Str} (h : line.head? ≠ some escape) : Quiet line := by
  constructor <;> rintro rfl <;> exact h rfl

theorem quiet_of_length {line : Str} (h : line.length < 13) : Quiet line := by
  constructor <;> rintro rfl <;> exact absurd h (by decide)

/-- The header lines end with the `m` of an escape sequence and the newline. -/
theorem quiet_of_end {x : Str} {b : UInt8} (hb : b ≠ 109) : Quiet (x ++ [b, newline]) := by
  have hend : (x ++ [b, newline]).dropLast.getLast? = some b := by
    rw [List.dropLast_append_of_ne_nil (List.cons_ne_nil _ _)]
    exact List.getLast?_concat ..
  constructor
  · intro h
    rw [h] at hend
    exact hb (Option.some.inj hend).symm
  · intro h
    rw [h] at hend
    exact hb (Option.some.inj hend).symm

/-- A line of the page does not read as a header, even where it is cut. -/
theorem quiet_line {x : Str} (hx : newline ∉ x) (hhead : x.head? ≠ some escape)
    (hlen : x.length ≤ 1029 ∨ x.length ≤ 2045 ∧ ∃ y, x = y ++ [space]) :
    ∀ line ∈ pieces newline 1023 (x ++ [newline]), Quiet line := by
  intro line hline
  rcases lt_or_ge x.length 1023 with hlt | hge
  · rw [pieces_line hx hlt] at hline
    rw [List.mem_singleton.mp hline]
    apply quiet_of_head
    cases x with
    | nil => decide
    | cons b x => exact hhead
  · rw [pieces_long hx hge (by decide)] at hline
    rcases List.mem_cons.mp hline with rfl | hline
    · apply quiet_of_head
      rwa [List.head?_take, if_neg (by decide)]
    · have hdrop : (x.drop 1023).length = x.length - 1023 := List.length_drop
      rw [pieces_line (fun h => hx (List.mem_of_mem_drop h)) (by omega)] at hline
      rw [List.mem_singleton.mp hline]
      rcases hlen with hshort | ⟨-, y, rfl⟩
      · apply quiet_of_length
        rw [List.length_append, List.length_singleton]
        omega
      · rw [List.length_append, List.length_singleton] at hge
        rcases eq_or_lt_of_le hge with heq | hgt
        · apply quiet_of_length
          rw [List.length_append, List.length_singleton, List.length_drop, List.length_append,
            List.length_singleton]
          omega
        · rw [List.drop_append_of_le_length (by omega), List.append_assoc]
          exact quiet_of_end (by decide)

/-- The footer before its newline. -/
theorem lastLineContent_plain (h : hd.Plain) : newline ∉ hd.lastLineContent ∧
    hd.lastLineContent.length = 80 ∧ hd.lastLineContent.head? = some space ∧
    hd.lastLineContent = List.replicate 35 space ++ hd.date ++ List.replicate 34 space ++ [space] := by
  unfold Header.lastLineContent
  refine ⟨?_, ?_, rfl, ?_⟩
  · simp only [List.mem_append, not_or]
    exact ⟨⟨by decide, h.date.2.2.1⟩, by decide⟩
  · simp [h.date.1]
  · rw [List.append_assoc _ (List.replicate 34 space)]
    rfl

theorem newline_not_mem_bodyLine {c : Str} (hc : newline ∉ c) : newline ∉ bodyLine c := by
  unfold bodyLine
  rw [List.mem_append, not_or]
  exact ⟨by decide, hc⟩

theorem length_bodyLine (c : Str) : (bodyLine c).length = c.length + 7 := by
  rw [bodyLine, List.length_append, List.length_replicate, Nat.add_comm]

theorem wellBodied_closing (h : WellBodied footer closing bs) : closing = [newline] ∨ closing = footer := by
  induction bs with
  | nil => exact h
  | cons line bs ih => exact ih h.2

/-- The text after a header ends with a newline. -/
theorem wellBodied_end (h : WellBodied hd.lastLine closing bs) :
    ∃ x, bs.flatMap bodyLine ++ closing = x ++ [newline] := by
  rcases wellBodied_closing h with rfl | rfl
  · exact ⟨_, rfl⟩
  · exact ⟨bs.flatMap bodyLine ++ hd.lastLineContent, (List.append_assoc ..).symm⟩

theorem quiet_section (hplain : hd.Plain) (h : WellBodied hd.lastLine closing bs) :
    ∀ line ∈ pieces newline 1023 (bs.flatMap bodyLine ++ closing), Quiet line := by
  obtain ⟨hfree, hlen80, hhead, hlast⟩ := lastLineContent_plain hplain
  induction bs with
  | nil =>
    rw [List.flatMap_nil, List.nil_append]
    rcases h with rfl | rfl
    · exact quiet_line List.not_mem_nil (by decide) (.inl (by decide))
    · apply quiet_line hfree
      · rw [hhead]
        decide
      · exact .inl (hlen80.trans_le (by decide))
  | cons line bs ih =>
    obtain ⟨⟨hlen, c, hc, hend⟩, hrest⟩ := h
    have hspace : (bodyLine c).head? ≠ some escape := (by decide : some space ≠ some escape)
    rw [List.flatMap_cons, List.append_assoc]
    rcases hend with rfl | ⟨rfl, rfl, rfl⟩
    · have hline : bodyLine (c ++ [newline]) ++ (bs.flatMap bodyLine ++ closing) =
          bodyLine c ++ newline :: (bs.flatMap bodyLine ++ closing) := by
        simp [bodyLine]
      rw [hline, pieces_append]
      intro l hl
      rcases List.mem_append.mp hl with hl | hl
      · refine quiet_line (newline_not_mem_bodyLine hc) hspace (.inl ?_) l hl
        rw [List.length_append, List.length_singleton] at hlen
        rw [length_bodyLine]
        omega
      · exact ih hrest l hl
    · rw [List.flatMap_nil, List.nil_append, Header.lastLine, ← List.append_assoc]
      apply quiet_line
      · rw [List.mem_append, not_or]
        exact ⟨newline_not_mem_bodyLine hc, hfree⟩
      · exact hspace
      · refine .inr ⟨?_, bodyLine line ++ (List.replicate 35 space ++ hd.date ++ List.replicate 34 space), ?_⟩
        · rw [List.length_append, length_bodyLine, hlen80]
          omega
        · rw [hlast, ← List.append_assoc]

/-! ### Where a keyword comes from -/

/-- A keyword that is read as one word. -/
structure Keyword (keyword : Str) : Prop where
  ne_nil : keyword ≠ []
  no_space : space ∉ keyword
  no_newline : newline ∉ keyword

theorem infix_replicate {k : ℕ} {x : Str} (hk : Keyword keyword)
    (h : keyword <:+: List.replicate k space ++ x) : keyword <:+: x := by
  induction k with
  | zero => exact h
  | succ k ih =>
    rcases (infix_append_cons hk.no_space).mp (show keyword <:+: [] ++ space :: _ from h) with h | h
    · exact absurd (List.infix_nil.mp h) hk.ne_nil
    · exact ih h

/-- A keyword in a footer is in the date. -/
theorem infix_lastLine {x : Str} (hk : Keyword keyword) (h : keyword <:+: x ++ hd.lastLine) :
    keyword <:+: x ∨ keyword <:+: hd.date := by
  have hsplit : x ++ hd.lastLine = x ++ space :: (List.replicate 34 space ++
      (hd.date ++ space :: (List.replicate 34 space ++ ([] ++ newline :: [])))) := by
    rw [Header.lastLine, Header.lastLineContent, List.append_assoc, List.append_assoc]
    rfl
  rw [hsplit] at h
  rcases (infix_append_cons hk.no_space).mp h with h | h
  · exact .inl h
  · rcases (infix_append_cons hk.no_space).mp (infix_replicate hk h) with h | h
    · exact .inr h
    · rcases (infix_append_cons hk.no_newline).mp (infix_replicate hk h) with h | h
      · exact absurd (List.infix_nil.mp h) hk.ne_nil
      · exact absurd (List.infix_nil.mp h) hk.ne_nil

/-- **Where a keyword that is read in a section comes from**: a body line, or the date in the footer. -/
theorem infix_section (hk : Keyword keyword) (h : WellBodied hd.lastLine closing bs)
    (hin : keyword <:+: bs.flatMap bodyLine ++ closing) :
    (∃ line ∈ bs, keyword <:+: bodyLine line) ∨ keyword <:+: hd.date := by
  induction bs with
  | nil =>
    rw [List.flatMap_nil, List.nil_append] at hin
    rcases h with rfl | rfl
    · rcases (infix_append_cons hk.no_newline).mp (show keyword <:+: [] ++ newline :: [] from hin) with h | h
      · exact absurd (List.infix_nil.mp h) hk.ne_nil
      · exact absurd (List.infix_nil.mp h) hk.ne_nil
    · rcases infix_lastLine hk (show keyword <:+: [] ++ hd.lastLine from hin) with h | h
      · exact absurd (List.infix_nil.mp h) hk.ne_nil
      · exact .inr h
  | cons line bs ih =>
    obtain ⟨⟨-, c, hc, hend⟩, hrest⟩ := h
    rw [List.flatMap_cons, List.append_assoc] at hin
    rcases hend with rfl | ⟨rfl, rfl, rfl⟩
    · have hline : bodyLine (c ++ [newline]) ++ (bs.flatMap bodyLine ++ closing) =
          bodyLine c ++ newline :: (bs.flatMap bodyLine ++ closing) := by
        simp [bodyLine]
      rw [hline] at hin
      rcases (infix_append_cons hk.no_newline).mp hin with hin | hin
      · refine .inl ⟨_, List.mem_cons_self, hin.trans ⟨[], [newline], ?_⟩⟩
        simp [bodyLine]
      · exact (ih hrest hin).imp_left fun ⟨l, hl, hkl⟩ => ⟨l, List.mem_cons_of_mem _ hl, hkl⟩
    · rw [List.flatMap_nil, List.nil_append] at hin
      exact (infix_lastLine hk hin).imp_left fun h => ⟨line, List.mem_cons_self, h⟩

/-- The first piece of a section has seven spaces, unless it is the newline before the next header. -/
theorem head_section (h : WellBodied hd.lastLine closing bs) :
    ∃ line rest, pieces newline 1023 (bs.flatMap bodyLine ++ closing) = line :: rest ∧
      (line = [newline] ∨ sevenSpaces <:+: line) := by
  have hspaces : ∀ x, ∃ line rest, pieces newline 1023 (sevenSpaces ++ x) = line :: rest ∧
      (line = [newline] ∨ sevenSpaces <:+: line) := by
    intro x
    obtain ⟨line, rest, hline, hpre⟩ :=
      @head_pieces UInt8 _ newline 1023 sevenSpaces x (by decide) (by decide) (by decide)
    exact ⟨line, rest, hline, .inr hpre.isInfix⟩
  cases bs with
  | nil =>
    rw [List.flatMap_nil, List.nil_append]
    rcases h with rfl | rfl
    · exact ⟨[newline], [], rfl, .inl rfl⟩
    · exact hspaces (List.replicate 28 space ++ hd.date ++ List.replicate 35 space ++ [newline])
  | cons line bs =>
    rw [List.flatMap_cons, bodyLine, List.append_assoc, List.append_assoc]
    exact hspaces _

/-- A section before another one ends with an empty line. -/
theorem section_newline (h : WellBodied hd.lastLine [newline] bs) (hne : [newline] ≠ hd.lastLine) :
    [newline] ∈ pieces newline 1023 (bs.flatMap bodyLine ++ [newline]) := by
  induction bs with
  | nil => exact List.mem_singleton_self _
  | cons line bs ih =>
    obtain ⟨⟨-, c, -, hend⟩, hrest⟩ := h
    rcases hend with rfl | ⟨-, -, hclosing⟩
    · have hline : (List.flatMap bodyLine ((c ++ [newline]) :: bs)) ++ [newline] =
          bodyLine c ++ newline :: (bs.flatMap bodyLine ++ [newline]) := by
        simp [bodyLine]
      rw [hline, pieces_append]
      exact List.mem_append_right _ (ih hrest)
    · exact absurd hclosing hne

/-! ### The pieces of a page -/

theorem newline_not_mem_header {name : Str} (h : newline ∉ name) :
    newline ∉ escape :: bytes ['[', '1', 'm'] ++ name ++ (escape :: bytes ['[', '0', 'm']) := by
  simp only [List.mem_append, not_or]
  exact ⟨⟨by decide, h⟩, by decide⟩

theorem pieces_sections {ss : List Section} (h : WellSectioned hd.lastLine ss) :
    pieces newline 1023 (ss.flatMap fun s => headerLine s.name ++ s.text) =
      ss.flatMap fun s => headerLine s.name :: s.read := by
  induction ss with
  | nil => rfl
  | cons s ss ih =>
    obtain ⟨⟨hnl, hlen, -, hbodies⟩, hrest⟩ := h
    obtain ⟨x, hx⟩ := wellBodied_end hbodies
    have htext : s.text ++ (ss.flatMap fun s => headerLine s.name ++ s.text) =
        x ++ newline :: (ss.flatMap fun s => headerLine s.name ++ s.text) := by
      rw [Section.text, hx, List.append_assoc]
      rfl
    have hread : pieces newline 1023 (x ++ [newline]) = s.read := by
      rw [Section.read, Section.text, hx]
    rw [List.flatMap_cons, List.flatMap_cons, List.append_assoc, htext, headerLine, List.append_assoc,
      List.singleton_append, pieces_line (newline_not_mem_header hnl), pieces_append, hread, ih hrest]
    · rfl
    · simp [bytes]
      omega

theorem not_mem_firstLineContent {b : UInt8} (hcommand : b ∉ hd.command) (hsection : b ≠ hd.sectionNumber)
    (h : b ≠ 40 ∧ b ≠ 41) : b ∉ hd.firstLineContent := by
  unfold Header.firstLineContent
  simp only [List.mem_append, List.mem_singleton, not_or]
  exact ⟨⟨⟨hcommand, fun hb => h.1 (List.mem_singleton.mp hb)⟩, hsection⟩,
    fun hb => h.2 (List.mem_singleton.mp hb)⟩

/-- The first line of a page is read as one piece, which is no header. -/
theorem firstLine_plain (h : hd.Plain) :
    ∃ x, hd.firstLine = x ++ [newline] ∧ newline ∉ x ∧ 0 ∉ x ∧ x.length < 1023 ∧
      Quiet hd.firstLine := by
  obtain ⟨hnl, h0, hlen⟩ := h.command
  have hnot : ∀ b : UInt8, b ∉ hd.firstLineContent → b ≠ space → ∀ k,
      b ∉ hd.firstLineContent ++ List.replicate k space ++ hd.firstLineContent := by
    intro b hb hspace k
    simp only [List.mem_append, not_or]
    exact ⟨⟨hb, fun hmem => hspace (List.eq_of_mem_replicate hmem)⟩, hb⟩
  refine ⟨_, rfl, ?_, ?_, ?_, ?_⟩
  · exact hnot _ (not_mem_firstLineContent hnl h.sectionNumber.1.symm (by decide)) (by decide) _
  · exact hnot _ (not_mem_firstLineContent h0 h.sectionNumber.2.symm (by decide)) (by decide) _
  · have hcontent : hd.firstLineContent.length = hd.command.length + 3 := by
      simp [Header.firstLineContent, bytes]
    rw [List.length_append, List.length_append, List.length_replicate, hcontent]
    omega
  · unfold Header.firstLine
    rw [Header.firstLineContent]
    dsimp only
    rw [← List.append_assoc _ _ (bytes [')']), List.append_assoc _ (bytes [')'])]
    exact quiet_of_end (by decide)

theorem zero_not_mem_text {ws : List Written} (h : WellWritten ws) : 0 ∉ ws.flatMap Written.text := by
  induction ws with
  | nil => exact List.not_mem_nil
  | cons w ws ih =>
    rw [List.flatMap_cons, List.mem_append, not_or]
    cases w with
    | header name =>
      refine ⟨?_, ih h.2⟩
      rw [Written.text, headerLine, List.mem_cons, List.mem_append, List.mem_append, List.mem_append]
      simp only [not_or]
      exact ⟨by decide, ⟨⟨by decide, h.1.2.1⟩, by decide⟩, by decide⟩
    | body line =>
      refine ⟨?_, ih h.2⟩
      rw [Written.text, bodyLine, List.mem_append, not_or]
      exact ⟨by decide, h.1.1⟩

/-- **The pieces of a page**: the first line, the lines before the first header, and the sections. -/
theorem fgetsAll_page {p : Page} (hplain : p.header.Plain) (h : WellWritten p.lines) :
    ∃ front, (∀ line ∈ front, Quiet line) ∧
      fgetsAll p.text = front ++ p.sections.flatMap fun s => headerLine s.name :: s.read := by
  obtain ⟨x, hx, hnl, h0, hlen, hquiet⟩ := firstLine_plain hplain
  obtain ⟨hbodies, hsections⟩ := @wellSectioned_sectionsOf p.header.lastLine _ h
  obtain ⟨y, hy⟩ := wellBodied_end hbodies
  have hzero : 0 ∉ p.text := by
    rw [Page.text, Header.lastLine, Header.lastLineContent, hx]
    simp only [List.mem_append, not_or]
    exact ⟨⟨⟨h0, by decide⟩, zero_not_mem_text h⟩, ⟨⟨by decide, hplain.date.2.2.2⟩, by decide⟩, by decide⟩
  have htext : p.text = x ++ newline :: (y ++ newline ::
      p.sections.flatMap fun s => headerLine s.name ++ s.text) := by
    rw [Page.text, List.append_assoc, text_sectionsOf, hx, hy]
    simp [Page.sections]
  refine ⟨p.header.firstLine :: pieces newline 1023 (y ++ [newline]), ?_, ?_⟩
  · intro line hline
    rcases List.mem_cons.mp hline with rfl | hline
    · exact hquiet
    · rw [← hy] at hline
      exact quiet_section hplain hbodies line hline
  · rw [fgetsAll_eq hzero, htext, pieces_line hnl hlen, pieces_append, Page.sections,
      pieces_sections hsections, hx]
    rfl

/-! ### The search in the sections -/

/-- The variables outside of the two sections. -/
def Search.outside (name : Option Str) : Search := ⟨false, false, false, name⟩

theorem searchLines_quiet {st st' : Search} {line : Str} {lines : List Str} (h : Quiet line)
    (henter : st.enter line = some st') : searchLines keyword st (line :: lines) =
      if (st'.isNameSection || st'.isDescriptionSection) ∧ keyword <:+: line then .found st'.name
      else searchLines keyword st' lines := by
  conv_lhs => unfold searchLines
  rw [if_neg h.1, if_neg fun hc => h.2 hc.2, henter]

/-- Outside of the sections nothing is searched. -/
theorem searchLines_outside {name : Option Str} {ls rest : List Str} (h : ∀ line ∈ ls, Quiet line) :
    searchLines keyword (.outside name) (ls ++ rest) = searchLines keyword (.outside name) rest := by
  induction ls with
  | nil => rfl
  | cons line ls ih =>
    have henter : (Search.outside name).enter line = some (.outside name) := rfl
    rw [List.cons_append, searchLines_quiet (h line List.mem_cons_self) henter,
      if_neg fun hc => Bool.false_ne_true hc.1]
    exact ih fun l hl => h l (List.mem_cons_of_mem line hl)

/-- **Inside of a section** the pieces are searched up to the first without seven spaces. -/
theorem searchLines_inside {isName isDescription : Bool} {name : Option Str} {ls rest : List Str}
    (hin : (isName || isDescription) = true) (h : ∀ line ∈ ls, Quiet line) :
    searchLines keyword ⟨isName, isDescription, false, name⟩ (ls ++ rest) =
      if ∃ line ∈ ls.takeWhile (fun line => sevenSpaces <:+: line), keyword <:+: line then .found name
      else if ∀ line ∈ ls, sevenSpaces <:+: line then
        searchLines keyword ⟨isName, isDescription, false, name⟩ rest
      else searchLines keyword (.outside name) rest := by
  induction ls with
  | nil =>
    rw [if_neg (by simp), if_pos (by simp)]
    rfl
  | cons line ls ih =>
    have hquiet := h line List.mem_cons_self
    have hrest : ∀ l ∈ ls, Quiet l := fun l hl => h l (List.mem_cons_of_mem line hl)
    rw [List.cons_append]
    by_cases hseven : sevenSpaces <:+: line
    · have henter : Search.enter ⟨isName, isDescription, false, name⟩ line =
          some ⟨isName, isDescription, false, name⟩ := by
        unfold Search.enter
        rw [if_neg Bool.false_ne_true, if_neg fun hc => hc.2 hseven]
      rw [searchLines_quiet hquiet henter, ih hrest, List.takeWhile_cons_of_pos (by simpa using hseven)]
      by_cases hk : keyword <:+: line
      · rw [if_pos ⟨hin, hk⟩, if_pos ⟨line, List.mem_cons_self, hk⟩]
      · rw [if_neg fun hc => hk hc.2]
        simp [hk, hseven]
    · have henter : Search.enter ⟨isName, isDescription, false, name⟩ line = some (.outside name) := by
        unfold Search.enter
        rw [if_neg Bool.false_ne_true, if_pos ⟨by rw [Bool.or_comm]; exact hin, hseven⟩]
        rfl
      rw [searchLines_quiet hquiet henter, if_neg fun hc => Bool.false_ne_true hc.1,
        searchLines_outside hrest, List.takeWhile_cons_of_neg (by simpa using hseven), if_neg (by simp),
        if_neg fun hall => hseven (hall line List.mem_cons_self)]

end OperatingSystems.Man
