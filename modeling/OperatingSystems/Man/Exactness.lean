import OperatingSystems.Man.Reading

/-!
# When the search is exact on the pages of text files

A search reaches the sections of a page one after the other.  It fails at a NAME section whose first line has
no dash, and it looks at the footer as if it were a line of the section before it.

* **`search_section`** — one section: the search fails, finds the keyword, or goes on behind it.
* **`search_sections`** — the search in all sections of a page.
* **`textFile_exact_iff`** — when `fileSearch` answers exactly on the page of a text file.
* **`kept_of_short`** — no line is lost in a page whose lines fit into the buffer of `fgets`.
-/

namespace OperatingSystems.Man

open TextLines

variable {keyword : Str} {hd : Header} {s : Section} {ss : List Section} {name : Option Str}

/-! ### One section -/

/-- The pieces of these sections with their headers. -/
def readSections (ss : List Section) : List Str := ss.flatMap fun s => headerLine s.name :: s.read

theorem readSections_cons (s : Section) (ss : List Section) :
    readSections (s :: ss) = headerLine s.name :: (s.read ++ readSections ss) := rfl

theorem newline_ne_lastLine (h : hd.Plain) : [newline] ≠ hd.lastLine := by
  intro heq
  have hlen := congrArg List.length heq
  rw [Header.lastLine, List.length_append, (lastLineContent_plain h).2.1] at hlen
  exact absurd hlen (by decide)

/-- Inside of a section the search finds the keyword in what counts to it, or goes on outside. -/
theorem search_read {isName isDescription : Bool} (hin : (isName || isDescription) = true)
    (hplain : hd.Plain) (h : WellSectioned hd.lastLine (s :: ss)) :
    searchLines keyword ⟨isName, isDescription, false, name⟩ (s.read ++ readSections ss) =
      if ∃ line ∈ s.counted, keyword <:+: line then .found name
      else searchLines keyword (.outside name) (readSections ss) := by
  obtain ⟨⟨-, -, hclosing, hbodies⟩, -⟩ := h
  have hquiet : ∀ line ∈ s.read, Quiet line := quiet_section hplain hbodies
  rw [searchLines_inside hin hquiet]
  apply if_congr Iff.rfl rfl
  cases ss with
  | nil => split <;> rfl
  | cons t ss =>
    rw [closingOf_cons] at hclosing
    rw [hclosing] at hbodies
    have hempty : [newline] ∈ s.read := by
      rw [Section.read, Section.text, hclosing]
      exact section_newline hbodies (newline_ne_lastLine hplain)
    rw [if_neg fun hall => absurd (hall _ hempty) (by decide)]

theorem afterDash_eq_none {line : Str} : afterDash line = none ↔ dash ∉ line := by
  unfold afterDash
  constructor
  · intro h hmem
    split at h
    · rename_i hdrop
      have := List.dropWhile_eq_nil_iff.mp hdrop dash hmem
      exact absurd this (by decide)
    · cases h
  · intro hmem
    have hdrop : line.dropWhile (· != dash) = [] := by
      apply List.dropWhile_eq_nil_iff.mpr
      intro b hb
      rw [bne_iff_ne]
      rintro rfl
      exact hmem hb
    rw [hdrop]

theorem headerLine_injective {x y : Str} (h : headerLine x = headerLine y) : x = y := by
  unfold headerLine at h
  exact List.append_cancel_left (List.append_cancel_right (List.append_cancel_right h))

/-- The line after a NAME header is searched like any other once its dash has been found. -/
theorem search_nameLine {line : Str} {lines : List Str} {oneLine : Str} (hquiet : Quiet line)
    (hseven : sevenSpaces <:+: line) (hdash : afterDash line = some oneLine) :
    searchLines keyword ⟨true, false, true, name⟩ (line :: lines) =
      searchLines keyword ⟨true, false, false, some oneLine⟩ (line :: lines) := by
  have henter : Search.enter ⟨true, false, true, name⟩ line = some ⟨true, false, false, some oneLine⟩ := by
    unfold Search.enter
    rw [if_pos rfl, hdash]
    rfl
  have henter' : Search.enter ⟨true, false, false, some oneLine⟩ line =
      some ⟨true, false, false, some oneLine⟩ := by
    unfold Search.enter
    rw [if_neg Bool.false_ne_true, if_neg fun hc => hc.2 hseven]
  rw [searchLines_quiet hquiet henter, searchLines_quiet hquiet henter']

/-- What a section does to a search that reaches its header. -/
inductive Passed (keyword : Str) (s : Section) (ss : List Section) (r : Result) : Prop
  | fails : s.Dashless → r = .nullDeref → Passed keyword s ss r
  | finds (name : Option Str) : ¬s.Dashless → s.Hit keyword → r = .found name → Passed keyword s ss r
  | goesOn (name : Option Str) : ¬s.Dashless → ¬s.Hit keyword →
      r = searchLines keyword (.outside name) (readSections ss) → Passed keyword s ss r

theorem passed_read {isName isDescription : Bool} (hin : (isName || isDescription) = true)
    (hplain : hd.Plain) (h : WellSectioned hd.lastLine (s :: ss)) (hdash : ¬s.Dashless)
    (hs : s.Searched) : Passed keyword s ss
      (searchLines keyword ⟨isName, isDescription, false, name⟩ (s.read ++ readSections ss)) := by
  rw [search_read hin hplain h]
  split
  · rename_i hhit
    exact .finds name hdash ⟨hs, hhit⟩ rfl
  · rename_i hno
    exact .goesOn name hdash (fun hhit => hno hhit.2) rfl

/-- **One section**: the search fails, finds the keyword, or goes on behind it. -/
theorem search_section (hplain : hd.Plain) (h : WellSectioned hd.lastLine (s :: ss)) :
    Passed keyword s ss (searchLines keyword (.outside name) (readSections (s :: ss))) := by
  rw [readSections_cons]
  have hbodies := h.1.2.2.2
  by_cases hname : s.name = bytes ['N', 'A', 'M', 'E']
  · have henter : searchLines keyword (.outside name) (headerLine s.name :: (s.read ++ readSections ss)) =
        searchLines keyword ⟨true, false, true, name⟩ (s.read ++ readSections ss) := by
      rw [hname]
      exact if_pos rfl
    obtain ⟨line, rest, hread, hhead⟩ := head_section hbodies
    have hfirst : s.read = line :: rest := hread
    have hquiet : Quiet line := by
      apply quiet_section hplain hbodies
      rw [hread]
      exact List.mem_cons_self
    rw [henter]
    cases hafter : afterDash line with
    | none =>
      have hdash : s.Dashless := by
        refine ⟨hname, ?_⟩
        intro l hl
        rw [hfirst, List.head?_cons, Option.mem_some_iff] at hl
        rw [← hl]
        exact afterDash_eq_none.mp hafter
      refine .fails hdash ?_
      have hfail : Search.enter ⟨true, false, true, name⟩ line = none := by
        unfold Search.enter
        rw [if_pos rfl, hafter]
        rfl
      rw [hfirst, List.cons_append]
      unfold searchLines
      rw [if_neg hquiet.1, if_neg fun hc => hc.1 rfl, hfail]
    | some oneLine =>
      have hmem : dash ∈ line := by
        by_contra hno
        rw [afterDash_eq_none.mpr hno] at hafter
        cases hafter
      have hseven : sevenSpaces <:+: line := by
        rcases hhead with rfl | hseven
        · exact absurd hmem (by decide)
        · exact hseven
      have hdash : ¬s.Dashless := by
        intro hc
        exact hc.2 line (by rw [hfirst]; rfl) hmem
      have hsame := @search_nameLine keyword name line (rest ++ readSections ss) oneLine hquiet hseven hafter
      rw [← List.cons_append, ← hfirst] at hsame
      rw [hsame]
      exact passed_read rfl hplain h hdash (.inl hname)
  · have hdash : ¬s.Dashless := fun hc => hname hc.1
    have hne : headerLine s.name ≠ nameLine := fun hc => hname (headerLine_injective hc)
    by_cases hdesc : s.name = bytes ['D', 'E', 'S', 'C', 'R', 'I', 'P', 'T', 'I', 'O', 'N']
    · have henter : searchLines keyword (.outside name)
          (headerLine s.name :: (s.read ++ readSections ss)) =
          searchLines keyword ⟨false, true, false, name⟩ (s.read ++ readSections ss) := by
        conv_lhs => unfold searchLines
        rw [if_neg hne, if_pos ⟨Bool.false_ne_true, congrArg headerLine hdesc⟩]
        rfl
      rw [henter]
      exact passed_read rfl hplain h hdash (.inr hdesc)
    · have hquiet : ∀ line ∈ headerLine s.name :: s.read, Quiet line := by
        intro line hline
        rcases List.mem_cons.mp hline with rfl | hline
        · exact ⟨hne, fun hc => hdesc (headerLine_injective hc)⟩
        · exact quiet_section hplain hbodies line hline
      have hskip := @searchLines_outside keyword name _ (readSections ss) hquiet
      rw [List.cons_append] at hskip
      exact .goesOn name hdash (fun hhit => hhit.1.elim hname hdesc) hskip

/-! ### All sections -/

/-- **Every NAME section that the search reaches has a dash in its first line**: those with a section before
them that the keyword was found in are not reached. -/
def Dashed (keyword : Str) (ss : List Section) : Prop :=
  ∀ xs s ys, ss = xs ++ s :: ys → (∀ t ∈ xs, ¬t.Hit keyword) → ¬s.Dashless

theorem dashed_cons : Dashed keyword (s :: ss) ↔ ¬s.Dashless ∧ (s.Hit keyword ∨ Dashed keyword ss) := by
  constructor
  · intro h
    refine ⟨h [] s ss rfl (fun t ht => nomatch ht), ?_⟩
    by_cases hhit : s.Hit keyword
    · exact .inl hhit
    · refine .inr fun xs t ys hss hxs => h (s :: xs) t ys (by rw [hss]; rfl) ?_
      intro u hu
      rcases List.mem_cons.mp hu with rfl | hu
      · exact hhit
      · exact hxs u hu
  · intro ⟨hs, hrest⟩ xs t ys hss hxs
    cases xs with
    | nil =>
      obtain ⟨rfl, -⟩ := List.cons.inj hss
      exact hs
    | cons x xs =>
      obtain ⟨rfl, hss'⟩ := List.cons.inj hss
      rcases hrest with hhit | hrest
      · exact absurd hhit (hxs s List.mem_cons_self)
      · exact hrest xs t ys hss' fun u hu => hxs u (List.mem_cons_of_mem s hu)

/-- **The search in all sections** fails exactly where a dash is missing, and else finds a keyword exactly
where a section has it. -/
theorem search_sections (hplain : hd.Plain) (h : WellSectioned hd.lastLine ss) :
    (searchLines keyword (.outside name) (readSections ss) ≠ .nullDeref ↔ Dashed keyword ss) ∧
    (Dashed keyword ss → ((∃ found, searchLines keyword (.outside name) (readSections ss) = .found found) ↔
      ∃ s ∈ ss, s.Hit keyword)) := by
  induction ss generalizing name with
  | nil =>
    refine ⟨iff_of_true (fun hc => nomatch hc) ?_, fun _ => iff_of_false ?_ ?_⟩
    · intro xs s ys hss
      cases xs <;> cases hss
    · exact fun ⟨_, hfound⟩ => nomatch hfound
    · exact fun ⟨_, hs, _⟩ => nomatch hs
  | cons s ss ih =>
    rw [dashed_cons]
    cases @search_section keyword hd s ss name hplain h with
    | fails hdash hr =>
      rw [hr]
      exact ⟨iff_of_false (fun hc => hc rfl) fun hc => hc.1 hdash, fun hc => absurd hdash hc.1⟩
    | finds found hdash hhit hr =>
      rw [hr]
      exact ⟨iff_of_true (fun hc => nomatch hc) ⟨hdash, .inl hhit⟩,
        fun _ => iff_of_true ⟨found, rfl⟩ ⟨s, List.mem_cons_self, hhit⟩⟩
    | goesOn next hdash hno hr =>
      obtain ⟨hfail, hfound⟩ := @ih next h.2
      rw [hr]
      refine ⟨hfail.trans ⟨fun hc => ⟨hdash, .inr hc⟩, fun hc => hc.2.resolve_left hno⟩, fun hc => ?_⟩
      refine (hfound (hc.2.resolve_left hno)).trans ⟨?_, ?_⟩
      · exact fun ⟨t, ht, hhit⟩ => ⟨t, List.mem_cons_of_mem s ht, hhit⟩
      · intro ⟨t, ht, hhit⟩
        rcases List.mem_cons.mp ht with rfl | ht
        · exact absurd hhit hno
        · exact ⟨t, ht, hhit⟩

/-! ### Pages -/

/-- **No line is lost**: if a body line of a NAME or DESCRIPTION section contains the keyword, then so does a
piece that `fgets` reads before the section ends for the reader. -/
def Kept (keyword : Str) (p : Page) : Prop := p.Contains keyword → ∃ s ∈ p.sections, s.Hit keyword

/-- **The footer adds nothing**: if a piece of the last section that still counts contains a keyword that is part of
the date, then so does a body line. -/
def Undated (keyword : Str) (p : Page) : Prop :=
  keyword <:+: p.header.date → ∀ s ∈ p.sections.getLast?, s.Searched → ∀ line ∈ s.counted, keyword <:+: line →
    p.Contains keyword

theorem wellBodied_of_mem {footer : Str} (h : WellSectioned footer ss) (hs : s ∈ ss) :
    WellBodied footer s.closing s.bodies := by
  induction ss with
  | nil => cases hs
  | cons t ss ih =>
    rcases List.mem_cons.mp hs with rfl | hs
    · exact h.1.2.2.2
    · exact ih h.2 hs

theorem closing_of_not_last {footer : Str} {xs ys : List Section} {t : Section}
    (h : WellSectioned footer (xs ++ s :: t :: ys)) : s.closing = [newline] := by
  induction xs with
  | nil => exact h.1.2.2.1
  | cons x xs ih => exact ih h.2

/-- The sections of a page: a section is the last, or another one follows. -/
theorem last_or_followed (hs : s ∈ ss) : ss.getLast? = some s ∨ ∃ xs t ys, ss = xs ++ s :: t :: ys := by
  obtain ⟨xs, ys, rfl⟩ := List.append_of_mem hs
  cases ys with
  | nil => exact .inl List.getLast?_concat
  | cons t ys => exact .inr ⟨xs, t, ys, rfl⟩

/-- Before the next header only the body lines have keywords. -/
theorem infix_bodies {bs : List Str} (hk : Keyword keyword) (hin : keyword <:+: bs.flatMap bodyLine ++ [newline]) :
    ∃ line ∈ bs, keyword <:+: bodyLine line := by
  induction bs with
  | nil =>
    rcases (infix_append_cons hk.no_newline).mp (show keyword <:+: [] ++ newline :: [] from hin) with h | h
    · exact absurd (List.infix_nil.mp h) hk.ne_nil
    · exact absurd (List.infix_nil.mp h) hk.ne_nil
  | cons line bs ih =>
    have hrest : ∃ c rest, bs.flatMap bodyLine ++ [newline] = c :: rest ∧ c ∉ keyword := by
      cases bs with
      | nil => exact ⟨newline, [], rfl, hk.no_newline⟩
      | cons b bs => exact ⟨space, _, rfl, hk.no_space⟩
    obtain ⟨c, rest, heq, hc⟩ := hrest
    rw [List.flatMap_cons, List.append_assoc, heq] at hin
    rcases (infix_append_cons hc).mp hin with h | h
    · exact ⟨line, List.mem_cons_self, h⟩
    · obtain ⟨b, hb, hkb⟩ := ih (by rw [heq]; exact h.trans (List.suffix_cons c rest).isInfix)
      exact ⟨b, List.mem_cons_of_mem _ hb, hkb⟩

/-- A section in which the keyword is found has it in a body line, or it is the last and the date has it. -/
theorem hit_source {p : Page} (hk : Keyword keyword) (h : WellSectioned p.header.lastLine p.sections)
    (hs : s ∈ p.sections) (hhit : s.Hit keyword) :
    p.Contains keyword ∨ keyword <:+: p.header.date ∧ p.sections.getLast? = some s := by
  obtain ⟨hsearched, line, hline, hin⟩ := hhit
  have hread : line ∈ s.read := (List.takeWhile_sublist _).subset hline
  have htext : keyword <:+: s.text := hin.trans (infix_of_mem_pieces hread)
  rcases last_or_followed hs with hlast | ⟨xs, t, ys, hsplit⟩
  · rcases infix_section hk (wellBodied_of_mem h hs) htext with hbody | hdate
    · exact .inl ⟨s, hs, hsearched, hbody⟩
    · exact .inr ⟨hdate, hlast⟩
  · rw [hsplit] at h
    rw [Section.text, closing_of_not_last h] at htext
    exact .inl ⟨s, hs, hsearched, infix_bodies hk htext⟩

/-- The search answers exactly: no null pointer is dereferenced, and `0` is returned for the keywords in the
body lines of the NAME and DESCRIPTION sections. -/
def SearchExact (p : Page) (keyword : Str) : Prop :=
  fileSearch p.text keyword ≠ .nullDeref ∧
    ((∃ name, fileSearch p.text keyword = .found name) ↔ p.Contains keyword)

/-- **When a search is exact, for text files.**  On a page that `convertFile` has written from a file without zeros
and with short lines, the search answers exactly if and only if a dash is missing nowhere, no line is lost and the
footer adds nothing. -/
theorem textFile_exact_iff {canWrite : Str → Bool} {file : Str} {p : Page} (hnul : 0 ∉ file)
    (hshort : ShortLines file) (hpage : convertFile canWrite file = .ok p) (hk : Keyword keyword) :
    SearchExact p keyword ↔ Dashed keyword p.sections ∧ Kept keyword p ∧ Undated keyword p := by
  obtain ⟨hplain, hlines⟩ := convertFile_wellWritten hnul hshort hpage
  have hsections : WellSectioned p.header.lastLine p.sections := (wellSectioned_sectionsOf hlines).2
  obtain ⟨front, hfront, hread⟩ := fgetsAll_page hplain hlines
  have hsearch : fileSearch p.text keyword = searchLines keyword (.outside none) (readSections p.sections) := by
    rw [fileSearch, hread]
    exact searchLines_outside hfront
  obtain ⟨hfail, hfound⟩ := @search_sections keyword p.header p.sections none hplain hsections
  rw [SearchExact, hsearch, hfail]
  apply and_congr_right
  intro hdashed
  rw [hfound hdashed]
  constructor
  · intro hiff
    exact ⟨hiff.mpr, fun _ s hs hsearched line hline hin =>
      hiff.mp ⟨s, List.mem_of_getLast? hs, hsearched, line, hline, hin⟩⟩
  · intro ⟨hkept, hundated⟩
    refine ⟨fun ⟨s, hs, hhit⟩ => ?_, hkept⟩
    rcases hit_source hk hsections hs hhit with hcontains | ⟨hdate, hlast⟩
    · exact hcontains
    · obtain ⟨hsearched, line, hline, hin⟩ := hhit
      exact hundated hdate s hlast hsearched line hline hin

/-- A body line that fits is read as one piece that counts to its section. -/
theorem counted_of_short {closing line : Str} {bs : List Str} (hplain : hd.Plain)
    (h : WellBodied hd.lastLine closing bs) (hshort : ∀ b ∈ bs, b.length ≤ 935) (hline : line ∈ bs) :
    ∃ l ∈ (pieces newline 1023 (bs.flatMap bodyLine ++ closing)).takeWhile
      (fun l => sevenSpaces <:+: l), bodyLine line <:+: l := by
  have hseven : ∀ x, sevenSpaces <:+: bodyLine x := fun x => (List.prefix_append _ x).isInfix
  have hcons : ∀ (l : Str) (ls : List Str), sevenSpaces <:+: l →
      (l :: ls).takeWhile (fun l => sevenSpaces <:+: l) =
        l :: ls.takeWhile (fun l => sevenSpaces <:+: l) :=
    fun l ls h => List.takeWhile_cons_of_pos (decide_eq_true h)
  obtain ⟨hfree, hlen80, -, -⟩ := lastLineContent_plain hplain
  induction bs with
  | nil => cases hline
  | cons b bs ih =>
    obtain ⟨⟨-, c, hc, hend⟩, hrest⟩ := h
    have hlen := hshort b List.mem_cons_self
    rw [List.flatMap_cons, List.append_assoc]
    rcases hend with rfl | ⟨rfl, rfl, rfl⟩
    · have hsplit : bodyLine (c ++ [newline]) ++ (bs.flatMap bodyLine ++ closing) =
          bodyLine c ++ newline :: (bs.flatMap bodyLine ++ closing) := by
        simp [bodyLine]
      rw [List.length_append, List.length_singleton] at hlen
      have hfits : (bodyLine c).length < 1023 := by
        rw [length_bodyLine]
        omega
      have hpos : sevenSpaces <:+: bodyLine c ++ [newline] := (hseven c).trans (List.infix_append_left ..)
      rw [hsplit, pieces_line (newline_not_mem_bodyLine hc) hfits,
        hcons _ _ hpos]
      rcases List.mem_cons.mp hline with rfl | hline
      · refine ⟨_, List.mem_cons_self, ?_⟩
        rw [bodyLine, bodyLine, List.append_assoc]
      · obtain ⟨l, hl, hin⟩ := ih hrest (fun b hb => hshort b (List.mem_cons_of_mem _ hb)) hline
        exact ⟨l, List.mem_cons_of_mem _ hl, hin⟩
    · have hfits : (bodyLine b ++ hd.lastLineContent).length < 1023 := by
        rw [List.length_append, length_bodyLine, hlen80]
        omega
      have hnl : newline ∉ bodyLine b ++ hd.lastLineContent := by
        rw [List.mem_append, not_or]
        exact ⟨newline_not_mem_bodyLine hc, hfree⟩
      have hpos : sevenSpaces <:+: bodyLine b ++ hd.lastLineContent ++ [newline] :=
        (hseven b).trans ((List.infix_append_left ..).trans (List.infix_append_left ..))
      rw [List.flatMap_nil, List.nil_append, Header.lastLine, ← List.append_assoc, pieces_line hnl hfits,
        hcons _ _ hpos]
      rw [List.mem_singleton.mp hline]
      exact ⟨_, List.mem_cons_self, (List.infix_append_left ..).trans (List.infix_append_left ..)⟩

/-- **No line is lost** in a page whose converted lines have at most 935 characters. -/
theorem kept_of_short {canWrite : Str → Bool} {file : Str} {p : Page} (hnul : 0 ∉ file)
    (hshort : ShortLines file) (hpage : convertFile canWrite file = .ok p)
    (hlen : ∀ s ∈ p.sections, ∀ line ∈ s.bodies, line.length ≤ 935) : Kept keyword p := by
  obtain ⟨hplain, hlines⟩ := convertFile_wellWritten hnul hshort hpage
  intro ⟨s, hs, hsearched, line, hline, hin⟩
  have hbodies := wellBodied_of_mem (wellSectioned_sectionsOf hlines).2 hs
  obtain ⟨l, hl, hbody⟩ := counted_of_short hplain hbodies (hlen s hs) hline
  exact ⟨s, hs, hsearched, l, hl, hin.trans hbody⟩

/-! ### Two small pages -/

/-- A file whose only section is a NAME section with this line. -/
def nameFile (line : List Char) : Str :=
  bytes (['.', 'T', 'H', ' ', 'a', ' ', '1', ' ', '2', '0', '2', '3', '-', '0', '8', '-', '1', '5', '\n',
    '.', 'S', 'H', ' ', 'n', 'a', 'm', 'e', '\n'] ++ line ++ ['\n'])

/-- Its page. -/
def namePage (line : List Char) : Page :=
  ⟨⟨bytes ['a'], 49, bytes ['2', '0', '2', '3', '-', '0', '8', '-', '1', '5']⟩,
    [.header (bytes ['N', 'A', 'M', 'E']), .body (bytes (line ++ ['\n']))]⟩

/-- The page of `.SH name`, `ab` fails for every keyword, and in the page of `.SH name`, `a - b` the year of
the footer is found. -/
theorem search_not_exact :
    (convertFile (fun _ => true) (nameFile ['a', 'b']) = .ok (namePage ['a', 'b']) ∧
      ¬SearchExact (namePage ['a', 'b']) (bytes ['b'])) ∧
    (convertFile (fun _ => true) (nameFile ['a', ' ', '-', ' ', 'b']) =
        .ok (namePage ['a', ' ', '-', ' ', 'b']) ∧
      ¬SearchExact (namePage ['a', ' ', '-', ' ', 'b']) (bytes ['2', '0', '2', '3'])) := by
  have hnull : fileSearch (namePage ['a', 'b']).text (bytes ['b']) = .nullDeref := by decide +kernel
  have hfound : fileSearch (namePage ['a', ' ', '-', ' ', 'b']).text (bytes ['2', '0', '2', '3']) =
      .found (some (bytes [' ', 'b', '\n'])) := by decide +kernel
  have hno : ¬(namePage ['a', ' ', '-', ' ', 'b']).Contains (bytes ['2', '0', '2', '3']) := by
    unfold Page.Contains
    decide +kernel
  refine ⟨⟨by decide +kernel, fun h => h.1 hnull⟩, by decide +kernel, fun h => hno (h.2.mp ⟨_, hfound⟩)⟩

end OperatingSystems.Man
