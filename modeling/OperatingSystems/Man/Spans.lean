import OperatingSystems.Man.Exactness

/-!
# What the search takes for sections

An input line with a zero in it is written without its newline, so that lines of a page run together, and `fgets`
cuts a long line anywhere.  Then a piece may read like a header without being one, and a section may not end where
it does in the page.  What the search takes for sections are the spans of the pieces, from one that reads like a
NAME or DESCRIPTION header to the next.

* **`spansOf`** — the spans of a file.
* **`search_spans`** — the search in all of them.
* **`fileSearch_exact_iff`** — when `fileSearch` answers exactly, on any page.
-/

namespace OperatingSystems.Man

open TextLines Outcomes

/-! ### Spans -/

/-- The pieces behind one that reads like a header of a NAME or of a DESCRIPTION section. -/
structure Span where
  isName : Bool
  read : List Str
  deriving DecidableEq

def Span.header (s : Span) : Str := if s.isName then nameLine else descriptionLine

/-- The pieces before the first header, and the spans. -/
def spansOf : List Str → List Str × List Span
  | [] => ([], [])
  | line :: lines =>
    let rest := spansOf lines
    if line = nameLine then ([], ⟨true, rest.1⟩ :: rest.2)
    else if line = descriptionLine then ([], ⟨false, rest.1⟩ :: rest.2)
    else (line :: rest.1, rest.2)

/-- The pieces that count: those up to the first without seven spaces, and the one behind a NAME header. -/
def Span.counted : Span → List Str
  | ⟨true, line :: lines⟩ => line :: lines.takeWhile fun line => sevenSpaces <:+: line
  | ⟨_, lines⟩ => lines.takeWhile fun line => sevenSpaces <:+: line

/-- A piece that counts contains the keyword. -/
def Span.Hit (keyword : Str) (s : Span) : Prop := ∃ line ∈ s.counted, keyword <:+: line

instance (keyword : Str) (s : Span) : Decidable (s.Hit keyword) := inferInstanceAs (Decidable (∃ _ ∈ _, _))

/-- The piece behind a NAME header, which may be the header of the next span. -/
def Span.behind (s : Span) (next : List Span) : Option Str := (s.read ++ next.map Span.header).head?

/-- The piece behind a NAME header is no NAME header and has no dash. -/
def Span.Dashless (s : Span) (next : List Span) : Prop :=
  s.isName = true ∧ ∃ line ∈ s.behind next, line ≠ nameLine ∧ dash ∉ line

/-- The pieces of these spans. -/
def readSpans (ss : List Span) : List Str := ss.flatMap fun s => s.header :: s.read

variable {keyword : Str} {s : Span} {ss : List Span} {st : Search}

theorem readSpans_cons (s : Span) (ss : List Span) : readSpans (s :: ss) = s.header :: (s.read ++ readSpans ss) := rfl

theorem spansOf_join (lines : List Str) : (spansOf lines).1 ++ readSpans (spansOf lines).2 = lines := by
  induction lines with
  | nil => rfl
  | cons line lines ih =>
    unfold spansOf
    dsimp only
    split
    · rename_i h
      rw [readSpans_cons, ih, h]
      rfl
    · split
      · rename_i h
        rw [readSpans_cons, ih, h]
        rfl
      · rw [List.cons_append, ih]

/-- Between the headers no piece reads like a header. -/
theorem spansOf_quiet (lines : List Str) : (∀ line ∈ (spansOf lines).1, Quiet line) ∧
    ∀ s ∈ (spansOf lines).2, ∀ line ∈ s.read, Quiet line := by
  induction lines with
  | nil => exact ⟨fun _ h => (nomatch h), fun _ h => (nomatch h)⟩
  | cons line lines ih =>
    unfold spansOf
    dsimp only
    split
    · refine ⟨fun _ h => (nomatch h), fun s hs => ?_⟩
      rcases List.mem_cons.mp hs with rfl | hs
      · exact ih.1
      · exact ih.2 s hs
    · rename_i hname
      split
      · refine ⟨fun _ h => (nomatch h), fun s hs => ?_⟩
        rcases List.mem_cons.mp hs with rfl | hs
        · exact ih.1
        · exact ih.2 s hs
      · rename_i hdescription
        refine ⟨fun l hl => ?_, ih.2⟩
        rcases List.mem_cons.mp hl with rfl | hl
        · exact ⟨hname, hdescription⟩
        · exact ih.1 l hl

/-! ### The search in one span -/

/-- The search at the header of a span: a DESCRIPTION header is not seen behind a NAME header. -/
def Search.Sees (st : Search) (ss : List Span) : Prop :=
  st.isNameLine = true → ∀ s ∈ ss.head?, s.isName = true

/-- What a span does to a search that reaches its header. -/
inductive SpanPassed (keyword : Str) (s : Span) (ss : List Span) (r : Result) : Prop
  | fails : s.Dashless ss → r = .nullDeref → SpanPassed keyword s ss r
  | finds (name : Option Str) : ¬s.Dashless ss → s.Hit keyword → r = .found name → SpanPassed keyword s ss r
  | goesOn (st : Search) : ¬s.Dashless ss → ¬s.Hit keyword → st.Sees ss →
      r = searchLines keyword st (readSpans ss) → SpanPassed keyword s ss r

/-- The pieces that are searched one like another. -/
theorem search_counted (keyword : Str) (isName isDescription : Bool) (name : Option Str) {ls : List Str}
    (hin : (isName || isDescription) = true) (hquiet : ∀ line ∈ ls, Quiet line) (ss : List Span) :
    ∃ st : Search, st.Sees ss ∧
      searchLines keyword ⟨isName, isDescription, false, name⟩ (ls ++ readSpans ss) =
        if ∃ line ∈ ls.takeWhile (fun line => sevenSpaces <:+: line), keyword <:+: line then .found name
        else searchLines keyword st (readSpans ss) := by
  rw [searchLines_inside hin hquiet]
  by_cases hall : ∀ line ∈ ls, sevenSpaces <:+: line
  · refine ⟨⟨isName, isDescription, false, name⟩, fun hc => absurd hc Bool.false_ne_true, ?_⟩
    rw [if_pos hall]
  · refine ⟨.outside name, fun hc => absurd hc Bool.false_ne_true, ?_⟩
    rw [if_neg hall]

theorem search_description {read : List Str} (hsees : st.Sees (⟨false, read⟩ :: ss))
    (hquiet : ∀ line ∈ read, Quiet line) :
    SpanPassed keyword ⟨false, read⟩ ss (searchLines keyword st (readSpans (⟨false, read⟩ :: ss))) := by
  have hline : st.isNameLine = false := by
    by_contra hname
    have hfalse := hsees (Bool.eq_true_of_not_eq_false hname) _ rfl
    cases hfalse
  have henter : searchLines keyword st (readSpans (⟨false, read⟩ :: ss)) =
      searchLines keyword ⟨false, true, false, st.name⟩ (read ++ readSpans ss) := by
    have hne : descriptionLine ≠ nameLine := by decide
    rw [readSpans_cons]
    conv_lhs => unfold searchLines
    rw [show Span.header ⟨false, read⟩ = descriptionLine from rfl, if_neg hne,
      if_pos ⟨by rw [hline]; exact Bool.false_ne_true, rfl⟩, hline]
  have hdash : ¬Span.Dashless ⟨false, read⟩ ss := fun hc => absurd hc.1 Bool.false_ne_true
  obtain ⟨st', hsees', hsearch⟩ := search_counted keyword false true st.name rfl hquiet ss
  rw [henter, hsearch]
  split
  · rename_i hhit
    exact .finds _ hdash hhit rfl
  · rename_i hno
    exact .goesOn st' hdash hno hsees' rfl

theorem search_name {read : List Str} (hquiet : ∀ line ∈ read, Quiet line) :
    SpanPassed keyword ⟨true, read⟩ ss (searchLines keyword st (readSpans (⟨true, read⟩ :: ss))) := by
  have henter : searchLines keyword st (readSpans (⟨true, read⟩ :: ss)) =
      searchLines keyword ⟨true, false, true, st.name⟩ (read ++ readSpans ss) := if_pos rfl
  rw [henter]
  cases read with
  | nil =>
    have hno : ¬Span.Hit keyword ⟨true, []⟩ := fun ⟨_, hline, _⟩ => (nomatch hline)
    cases ss with
    | nil =>
      exact .goesOn ⟨true, false, true, st.name⟩ (fun ⟨_, _, hline, _⟩ => (nomatch hline)) hno
        (fun _ _ hs => (nomatch hs)) rfl
    | cons t ss =>
      cases hkind : t.isName with
      | true =>
        have hheader : t.header = nameLine := if_pos hkind
        refine .goesOn ⟨true, false, true, st.name⟩ ?_ hno (fun _ u hu => ?_) rfl
        · rintro ⟨-, line, hline, hne, -⟩
          exact hne ((Option.some.inj hline).symm.trans hheader)
        · rw [← Option.some.inj hu]
          exact hkind
      | false =>
        have hheader : t.header = descriptionLine := if_neg (by rw [hkind]; exact Bool.false_ne_true)
        refine .fails ⟨rfl, t.header, rfl, ?_, ?_⟩ ?_
        · rw [hheader]
          decide
        · rw [hheader]
          decide
        · rw [List.nil_append, readSpans_cons, hheader]
          unfold searchLines
          rw [if_neg (by decide), if_neg fun hc => hc.1 rfl]
          rfl
  | cons line lines =>
    have hline := hquiet line List.mem_cons_self
    cases hafter : afterDash line with
    | none =>
      have hfail : Search.enter ⟨true, false, true, st.name⟩ line = none := by
        unfold Search.enter
        rw [if_pos rfl, hafter]
        rfl
      refine .fails ⟨rfl, line, rfl, hline.1, afterDash_eq_none.mp hafter⟩ ?_
      rw [List.cons_append]
      unfold searchLines
      rw [if_neg hline.1, if_neg fun hc => hc.1 rfl, hfail]
    | some oneLine =>
      have hdash : ¬Span.Dashless ⟨true, line :: lines⟩ ss := by
        rintro ⟨-, l, hl, -, hno⟩
        rw [← Option.some.inj hl] at hno
        rw [afterDash_eq_none.mpr hno] at hafter
        cases hafter
      have hname : Search.enter ⟨true, false, true, st.name⟩ line = some ⟨true, false, false, some oneLine⟩ := by
        unfold Search.enter
        rw [if_pos rfl, hafter]
        rfl
      rw [List.cons_append, searchLines_quiet hline hname]
      by_cases hk : keyword <:+: line
      · rw [if_pos ⟨rfl, hk⟩]
        exact .finds _ hdash ⟨line, List.mem_cons_self, hk⟩ rfl
      · obtain ⟨st', hsees', hsearch⟩ := search_counted keyword true false (some oneLine) rfl
          (fun l hl => hquiet l (List.mem_cons_of_mem line hl)) ss
        rw [if_neg fun hc => hk hc.2, hsearch]
        split
        · rename_i hhit
          obtain ⟨l, hl, hkl⟩ := hhit
          exact .finds _ hdash ⟨l, List.mem_cons_of_mem line hl, hkl⟩ rfl
        · rename_i hno
          refine .goesOn st' hdash ?_ hsees' rfl
          rintro ⟨l, hl, hkl⟩
          rcases List.mem_cons.mp hl with rfl | hl
          · exact hk hkl
          · exact hno ⟨l, hl, hkl⟩

/-- **One span**: the search fails, finds the keyword, or goes on behind it. -/
theorem search_span (hsees : st.Sees (s :: ss)) (hquiet : ∀ line ∈ s.read, Quiet line) :
    SpanPassed keyword s ss (searchLines keyword st (readSpans (s :: ss))) := by
  obtain ⟨isName, read⟩ := s
  cases isName with
  | true => exact search_name hquiet
  | false => exact search_description hsees hquiet

/-! ### All spans -/

/-- **Behind every NAME header that the search reaches there is a dash**, where a span with a span before it that
has the keyword is not reached. -/
def DashedSpans (keyword : Str) (ss : List Span) : Prop :=
  ∀ xs s ys, ss = xs ++ s :: ys → (∀ t ∈ xs, ¬t.Hit keyword) → ¬s.Dashless ys

theorem dashedSpans_cons :
    DashedSpans keyword (s :: ss) ↔ ¬s.Dashless ss ∧ (s.Hit keyword ∨ DashedSpans keyword ss) := by
  constructor
  · intro h
    refine ⟨h [] s ss rfl (fun t ht => nomatch ht), ?_⟩
    by_cases hhit : s.Hit keyword
    · exact .inl hhit
    · refine .inr fun xs t ys hss hxs => h (s :: xs) t ys (by rw [hss]; rfl) fun u hu => ?_
      rcases List.mem_cons.mp hu with rfl | hu
      · exact hhit
      · exact hxs u hu
  · intro ⟨hs, hrest⟩ xs t ys hss hxs
    cases xs with
    | nil =>
      obtain ⟨rfl, rfl⟩ := List.cons.inj hss
      exact hs
    | cons x xs =>
      obtain ⟨rfl, hss'⟩ := List.cons.inj hss
      rcases hrest with hhit | hrest
      · exact absurd hhit (hxs s List.mem_cons_self)
      · exact hrest xs t ys hss' fun u hu => hxs u (List.mem_cons_of_mem s hu)

/-- **The search in all spans** fails exactly where a dash is missing, and else finds a keyword exactly where a
piece that counts has it. -/
theorem search_spans (hsees : st.Sees ss) (hquiet : ∀ s ∈ ss, ∀ line ∈ s.read, Quiet line) :
    (searchLines keyword st (readSpans ss) ≠ .nullDeref ↔ DashedSpans keyword ss) ∧
    (DashedSpans keyword ss → ((∃ found, searchLines keyword st (readSpans ss) = .found found) ↔
      ∃ s ∈ ss, s.Hit keyword)) := by
  induction ss generalizing st with
  | nil =>
    refine ⟨iff_of_true (fun hc => nomatch hc) ?_, fun _ => iff_of_false ?_ ?_⟩
    · intro xs s ys hss
      cases xs <;> cases hss
    · exact fun ⟨_, hfound⟩ => nomatch hfound
    · exact fun ⟨_, hs, _⟩ => nomatch hs
  | cons s ss ih =>
    rw [dashedSpans_cons]
    have hpassed : SpanPassed keyword s ss (searchLines keyword st (readSpans (s :: ss))) :=
      search_span hsees (hquiet s List.mem_cons_self)
    cases hpassed with
    | fails hdash hr =>
      rw [hr]
      exact ⟨iff_of_false (fun hc => hc rfl) fun hc => hc.1 hdash, fun hc => absurd hdash hc.1⟩
    | finds found hdash hhit hr =>
      rw [hr]
      exact ⟨iff_of_true (fun hc => nomatch hc) ⟨hdash, .inl hhit⟩,
        fun _ => iff_of_true ⟨found, rfl⟩ ⟨s, List.mem_cons_self, hhit⟩⟩
    | goesOn st' hdash hno hsees' hr =>
      obtain ⟨hfail, hfound⟩ := ih hsees' fun t ht => hquiet t (List.mem_cons_of_mem s ht)
      rw [hr]
      refine ⟨hfail.trans ⟨fun hc => ⟨hdash, .inr hc⟩, fun hc => hc.2.resolve_left hno⟩, fun hc => ?_⟩
      refine (hfound (hc.2.resolve_left hno)).trans ⟨?_, ?_⟩
      · exact fun ⟨t, ht, hhit⟩ => ⟨t, List.mem_cons_of_mem s ht, hhit⟩
      · intro ⟨t, ht, hhit⟩
        rcases List.mem_cons.mp ht with rfl | ht
        · exact absurd hhit hno
        · exact ⟨t, ht, hhit⟩

/-! ### Pages -/

/-- What the search takes for sections in the page. -/
def Page.spans (p : Page) : List Span := (spansOf (fgetsAll p.text)).2

/-- The lines of the page that are no body lines of NAME and DESCRIPTION sections, but for the footer. -/
def Page.elsewhere (p : Page) : List Str :=
  p.header.firstLine :: (sectionsOf p.header.lastLine p.lines).1.map bodyLine ++
    p.sections.flatMap fun s => headerLine s.name :: if s.Searched then [] else s.bodies.map bodyLine

/-- If a body line of a NAME or DESCRIPTION section contains the keyword, then so does a piece that counts. -/
def Page.Kept (keyword : Str) (p : Page) : Prop := p.Contains keyword → ∃ s ∈ p.spans, s.Hit keyword

/-- The footer adds nothing: if a piece of the last span that counts contains a keyword that is part of the date,
then so does a body line. -/
def Page.Undated (keyword : Str) (p : Page) : Prop :=
  keyword <:+: p.header.date → ∀ s ∈ p.spans.getLast?, ∀ line ∈ s.counted, keyword <:+: line → p.Contains keyword

/-- The other lines add nothing: if a piece that counts contains a keyword that is part of one of them, then so does
a body line. -/
def Page.Apart (keyword : Str) (p : Page) : Prop :=
  ∀ x ∈ p.elsewhere, keyword <:+: x → ∀ s ∈ p.spans, ∀ line ∈ s.counted, keyword <:+: line → p.Contains keyword

theorem zero_not_mem_cstr (s : Str) : 0 ∉ cstr s := by
  intro h
  have hne := List.mem_takeWhile_imp h
  cases hne

theorem zero_not_mem_fgetsAll {file line : Str} (h : line ∈ fgetsAll file) : 0 ∉ line := by
  obtain ⟨s, -, rfl⟩ := List.mem_map.mp h
  exact zero_not_mem_cstr s

/-- No zero comes into a line. -/
theorem zero_not_mem_convert {line line' : Str} (h0 : 0 ∉ line) (h : convertFormattingMarks line = .ok line') :
    0 ∉ line' := by
  have hstep : ∀ (ms : List (Str × Str)), (∀ m ∈ ms, m ∈ marks) → ∀ l : Str, 0 ∉ l →
      ∀ l', ms.foldlM (fun line mark => fits 1024 (replaceFrom mark.1 mark.2 0 line)) l = .ok l' → 0 ∉ l' := by
    intro ms
    induction ms with
    | nil =>
      intro _ l hl l' hl'
      rw [← Except.ok.inj (hl' : Except.ok l = .ok l')]
      exact hl
    | cons m ms ih =>
      intro hms l hl l' hl'
      rw [List.foldlM_cons] at hl'
      obtain ⟨l₁, h₁, h₂⟩ := bind_eq_ok hl'
      obtain ⟨rfl, -⟩ := fits_ok h₁
      refine ih (fun x hx => hms x (List.mem_cons_of_mem m hx)) _ (fun hmem => ?_) l' h₂
      exact (mem_replaceFrom hmem).elim hl (marks_plain m (hms m List.mem_cons_self)).2.2.2
  exact hstep marks (fun _ hm => hm) line h0 line' h

theorem zero_not_mem_headerLine {name : Str} (h : 0 ∉ name) : 0 ∉ newline :: headerLine name := by
  rw [headerLine, List.mem_cons, List.mem_append, List.mem_append, List.mem_append]
  simp only [not_or]
  exact ⟨by decide, ⟨⟨by decide, h⟩, by decide⟩, by decide⟩

theorem zero_not_mem_written {k : ℕ} {lines : List Str} {ws : List Written} (hnul : ∀ l ∈ lines, 0 ∉ l)
    (h : writeLines k lines = .ok ws) : ∀ w ∈ ws, 0 ∉ w.text := by
  induction lines generalizing k ws with
  | nil =>
    rw [← Except.ok.inj (h : Except.ok [] = .ok ws)]
    exact fun _ hw => nomatch hw
  | cons line lines ih =>
    have h0 := hnul line List.mem_cons_self
    have hrest : ∀ {ws'}, writeLines (k + 1) lines = .ok ws' → ∀ w ∈ ws', 0 ∉ w.text :=
      ih fun l hl => hnul l (List.mem_cons_of_mem _ hl)
    unfold writeLines at h
    split at h
    · obtain ⟨_, -, h⟩ := bind_eq_ok h
      exact hrest h
    · split at h
      · rename_i name hname
        obtain ⟨name', hfits, h₁⟩ := bind_eq_ok h
        obtain ⟨ws', hws, h₂⟩ := bind_eq_ok h₁
        obtain ⟨rfl, -⟩ := fits_ok hfits
        rw [← Except.ok.inj h₂]
        intro w hw
        rcases List.mem_cons.mp hw with rfl | hw
        · exact zero_not_mem_headerLine (scanSectionName_ok h0 hname).2
        · exact hrest hws w hw
      · split at h
        · cases h
        · obtain ⟨line', hconv, h⟩ := bind_eq_ok h
          obtain ⟨ws', hws, h⟩ := bind_eq_ok h
          rw [← Except.ok.inj h]
          intro w hw
          rcases List.mem_cons.mp hw with rfl | hw
          · rw [Written.text, bodyLine, List.mem_append, not_or]
            exact ⟨by decide, zero_not_mem_convert h0 hconv⟩
          · exact hrest hws w hw

/-- **The pages of any files** have no zeros, and a header that was matched. -/
theorem convertFile_plain {canWrite : Str → Bool} {file : Str} {p : Page} (h : convertFile canWrite file = .ok p) :
    p.header.Plain ∧ 0 ∉ p.text := by
  unfold convertFile at h
  split at h
  · cases h
  · rename_i first lines hfile
    have hzero : ∀ l ∈ first :: lines, 0 ∉ l := fun l hl => zero_not_mem_fgetsAll (hfile ▸ hl)
    split at h
    · cases h
    · rename_i hd hmatch
      obtain ⟨hnl, h0, hsection, hdate⟩ := matchHeader_ok (hzero first List.mem_cons_self) hmatch
      obtain ⟨command, hfits, h⟩ := bind_eq_ok h
      split at h
      · obtain ⟨ws, hws, h⟩ := bind_eq_ok h
        have hplain : hd.Plain := ⟨⟨hnl, h0, (fits_ok hfits).2⟩, hsection, hdate⟩
        rw [← Except.ok.inj h]
        refine ⟨hplain, ?_⟩
        obtain ⟨x, hx, -, hx0, -, -⟩ := firstLine_plain hplain
        rw [Page.text, Header.lastLine, Header.lastLineContent, hx]
        simp only [List.mem_append, List.mem_flatMap, not_or, not_exists, not_and]
        exact ⟨⟨⟨hx0, by decide⟩, zero_not_mem_written (fun l hl => hzero l (List.mem_cons_of_mem _ hl)) hws⟩,
          ⟨⟨by decide, hdate.2.2.2⟩, by decide⟩, by decide⟩
      · cases h

/-! ### Where a keyword comes from -/

/-- No keyword reaches into a text that starts like this one. -/
def Starts (keyword x : Str) : Prop := ∀ c ∈ x.head?, c ∉ keyword

theorem infix_append {x y : Str} (hy : Starts keyword y) (h : keyword <:+: x ++ y) :
    keyword <:+: x ∨ keyword <:+: y := by
  cases y with
  | nil =>
    rw [List.append_nil] at h
    exact .inl h
  | cons c y =>
    rcases (infix_append_cons (hy c rfl)).mp h with h | h
    · exact .inl h
    · exact .inr (h.trans (List.suffix_cons c y).isInfix)

theorem starts_written {ws : List Written} {x : Str} (hk : Keyword keyword) (hx : Starts keyword x) :
    Starts keyword (ws.flatMap Written.text ++ x) := by
  cases ws with
  | nil => exact hx
  | cons w ws =>
    intro c hc
    cases w with
    | header name =>
      rw [← Option.some.inj hc]
      exact hk.no_newline
    | body line =>
      rw [← Option.some.inj hc]
      exact hk.no_space

/-- A keyword in what was written is in a body line or in the line of a header. -/
theorem infix_written {ws : List Written} {x : Str} (footer : Str) (hk : Keyword keyword) (hx : Starts keyword x)
    (h : keyword <:+: ws.flatMap Written.text ++ x) :
    (∃ line ∈ (sectionsOf footer ws).1, keyword <:+: bodyLine line) ∨
    (∃ s ∈ (sectionsOf footer ws).2, keyword <:+: headerLine s.name ∨
      ∃ line ∈ s.bodies, keyword <:+: bodyLine line) ∨ keyword <:+: x := by
  induction ws with
  | nil => exact .inr (.inr h)
  | cons w ws ih =>
    rw [List.flatMap_cons, List.append_assoc] at h
    cases w with
    | header name =>
      rcases infix_append (starts_written hk hx) h with h | h
      · rcases (infix_append_cons hk.no_newline).mp (show keyword <:+: [] ++ newline :: headerLine name from h)
          with h | h
        · exact absurd (List.infix_nil.mp h) hk.ne_nil
        · exact .inr (.inl ⟨_, List.mem_cons_self, .inl h⟩)
      · rcases ih h with hbody | ⟨s, hs, hin⟩ | hrest
        · exact .inr (.inl ⟨_, List.mem_cons_self, .inr hbody⟩)
        · exact .inr (.inl ⟨s, List.mem_cons_of_mem _ hs, hin⟩)
        · exact .inr (.inr hrest)
    | body line =>
      rcases infix_append (starts_written hk hx) h with h | h
      · exact .inl ⟨line, List.mem_cons_self, h⟩
      · rcases ih h with ⟨l, hl, hin⟩ | hrest
        · exact .inl ⟨l, List.mem_cons_of_mem _ hl, hin⟩
        · exact .inr hrest

/-- **A keyword in the page** is in a body line of a NAME or DESCRIPTION section, in another line, or in the rest. -/
theorem infix_page {p : Page} {x : Str} (hk : Keyword keyword) (hx : Starts keyword x)
    (h : keyword <:+: p.header.firstLine ++ p.lines.flatMap Written.text ++ x) :
    p.Contains keyword ∨ (∃ y ∈ p.elsewhere, keyword <:+: y) ∨ keyword <:+: x := by
  rw [List.append_assoc] at h
  rcases infix_append (starts_written hk hx) h with h | h
  · exact .inr (.inl ⟨_, List.mem_cons_self, h⟩)
  · rcases infix_written p.header.lastLine hk hx h with ⟨line, hline, hin⟩ | ⟨s, hs, hin⟩ | hrest
    · refine .inr (.inl ⟨bodyLine line, List.mem_cons_of_mem _ (List.mem_append_left _ ?_), hin⟩)
      exact List.mem_map_of_mem hline
    · have helse : ∀ y ∈ headerLine s.name :: (if s.Searched then [] else s.bodies.map bodyLine), y ∈ p.elsewhere :=
        fun y hy => List.mem_cons_of_mem _ (List.mem_append_right _ (List.mem_flatMap.mpr ⟨s, hs, hy⟩))
      rcases hin with hin | ⟨line, hline, hin⟩
      · exact .inr (.inl ⟨_, helse _ List.mem_cons_self, hin⟩)
      · by_cases hsearched : s.Searched
        · exact .inl ⟨s, hs, hsearched, line, hline, hin⟩
        · refine .inr (.inl ⟨bodyLine line, helse _ (List.mem_cons_of_mem _ ?_), hin⟩)
          rw [if_neg hsearched]
          exact List.mem_map_of_mem hline
    · exact .inr (.inr hrest)

/-! ### The footer is read in the last span -/

theorem Span.header_end (s : Span) : ∃ x, s.header = x ++ [109, newline] := by
  unfold Span.header
  split
  · exact ⟨nameLine.dropLast.dropLast, by decide⟩
  · exact ⟨descriptionLine.dropLast.dropLast, by decide⟩

/-- What ends like a header in a page ends before the footer. -/
theorem header_before_footer {hd : Header} {x y rest : Str} (hplain : hd.Plain)
    (h : x ++ [109, newline] ++ rest = y ++ hd.lastLine) : x ++ [109, newline] <+: y := by
  obtain ⟨hfree, -, -, hlast⟩ := lastLineContent_plain hplain
  rcases List.append_eq_append_iff.mp h with ⟨d, hy, -⟩ | ⟨d, hx, hfooter⟩
  · exact ⟨d, hy.symm⟩
  · rcases List.eq_nil_or_concat d with rfl | ⟨e, c, rfl⟩
    · rw [List.append_nil] at hx
      exact ⟨[], by rw [List.append_nil]; exact hx⟩
    · -- the newline of the footer is its only one, and a space stands before it
      rw [List.concat_eq_append] at hx hfooter
      have hsplit : x ++ [109] ++ [newline] = y ++ e ++ [c] := by
        rw [List.append_assoc, List.append_assoc]
        exact hx
      obtain ⟨hxe, hc⟩ := List.append_inj' hsplit rfl
      rw [← List.singleton_inj.mp hc, Header.lastLine, List.append_assoc] at hfooter
      have he : e = hd.lastLineContent := by
        rcases List.append_eq_append_iff.mp hfooter with ⟨f, hef, hrest⟩ | ⟨f, hef, hrest⟩
        · cases f with
          | nil =>
            rw [List.append_nil] at hef
            exact hef
          | cons b f =>
            have hlen := congrArg List.length hrest
            simp at hlen
        · cases f with
          | nil =>
            rw [List.append_nil] at hef
            exact hef.symm
          | cons b f =>
            obtain ⟨rfl, -⟩ := List.cons.inj hrest
            rw [hef] at hfree
            exact absurd (List.mem_append_right e List.mem_cons_self) hfree
      rw [he, hlast, ← List.append_assoc] at hxe
      obtain ⟨-, hspace⟩ := List.append_inj' hxe rfl
      cases List.singleton_inj.mp hspace

/-- **Only the last span reaches the footer.** -/
theorem read_before_footer {p : Page} {xs : List Span} {t : Span} {line : Str} (hplain : p.header.Plain)
    (h0 : 0 ∉ p.text) (hspans : p.spans = xs ++ [s]) (ht : t ∈ xs) (hline : line ∈ t.read) :
    line <:+: p.header.firstLine ++ p.lines.flatMap Written.text := by
  obtain ⟨x, hx⟩ := s.header_end
  have hread : (spansOf (fgetsAll p.text)).1 ++ readSpans xs ++ (s.header :: s.read) = fgetsAll p.text := by
    have hjoin := spansOf_join (fgetsAll p.text)
    rw [show (spansOf (fgetsAll p.text)).2 = xs ++ [s] from hspans] at hjoin
    unfold readSpans at hjoin ⊢
    rw [List.flatMap_append, List.flatMap_singleton] at hjoin
    rw [List.append_assoc]
    exact hjoin
  have htext : (((spansOf (fgetsAll p.text)).1 ++ readSpans xs).flatten ++ x) ++ [109, newline] ++ s.read.flatten =
      p.header.firstLine ++ p.lines.flatMap Written.text ++ p.header.lastLine := by
    have hflat : (fgetsAll p.text).flatten = p.text := by rw [fgetsAll_eq h0, flatten_pieces]
    have hpage : p.text = p.header.firstLine ++ p.lines.flatMap Written.text ++ p.header.lastLine := rfl
    have hparts := congrArg List.flatten hread
    rw [List.flatten_append, List.flatten_cons, hflat, hx] at hparts
    rw [← hpage]
    refine Eq.trans ?_ hparts
    simp only [List.append_assoc]
  have hmem : line ∈ (spansOf (fgetsAll p.text)).1 ++ readSpans xs :=
    List.mem_append_right _ (List.mem_flatMap.mpr ⟨t, ht, List.mem_cons_of_mem _ hline⟩)
  refine (List.infix_of_mem_flatten hmem).trans (List.IsInfix.trans ?_ (header_before_footer hplain htext).isInfix)
  rw [List.append_assoc]
  exact (List.prefix_append _ _).isInfix

theorem Span.counted_subset (s : Span) : ∀ line ∈ s.counted, line ∈ s.read := by
  intro line hline
  unfold Span.counted at hline
  split at hline
  · rcases List.mem_cons.mp hline with rfl | hline
    · exact List.mem_cons_self
    · exact List.mem_cons_of_mem _ ((List.takeWhile_sublist _).subset hline)
  · exact (List.takeWhile_sublist _).subset hline

/-- **Where a keyword that is found comes from**: a body line, another line, or the date in the last span. -/
theorem spanHit_source {p : Page} {line : Str} (hk : Keyword keyword) (hplain : p.header.Plain) (h0 : 0 ∉ p.text)
    (hs : s ∈ p.spans) (hline : line ∈ s.counted) (hin : keyword <:+: line) : p.Contains keyword ∨
      (∃ x ∈ p.elsewhere, keyword <:+: x) ∨ keyword <:+: p.header.date ∧ p.spans.getLast? = some s := by
  have hread := s.counted_subset line hline
  obtain ⟨xs, ys, hsplit⟩ := List.append_of_mem hs
  rcases List.eq_nil_or_concat ys with rfl | ⟨ys, u, rfl⟩
  · have htext : keyword <:+: p.text := by
      have hmem : line ∈ fgetsAll p.text := by
        rw [← spansOf_join (fgetsAll p.text)]
        exact List.mem_append_right _ (List.mem_flatMap.mpr ⟨s, hs, List.mem_cons_of_mem _ hread⟩)
      rw [fgetsAll_eq h0] at hmem
      exact hin.trans (infix_of_mem_pieces hmem)
    have hstart : Starts keyword p.header.lastLine := fun c hc => by
      rw [← Option.some.inj hc]
      exact hk.no_space
    rcases infix_page hk hstart htext with hcontains | helse | hfooter
    · exact .inl hcontains
    · exact .inr (.inl helse)
    · rcases infix_lastLine (x := []) hk hfooter with hnil | hdate
      · exact absurd (List.infix_nil.mp hnil) hk.ne_nil
      · exact .inr (.inr ⟨hdate, by rw [hsplit]; exact List.getLast?_concat⟩)
  · have hlast : p.spans = (xs ++ s :: ys) ++ [u] := by
      rw [hsplit, List.concat_eq_append, List.append_assoc]
      rfl
    have htext := hin.trans (read_before_footer hplain h0 hlast
      (List.mem_append_right xs List.mem_cons_self) hread)
    rw [← List.append_nil (p.header.firstLine ++ _)] at htext
    rcases infix_page hk (fun c hc => by cases hc) htext with hcontains | helse | hnil
    · exact .inl hcontains
    · exact .inr (.inl helse)
    · exact absurd (List.infix_nil.mp hnil) hk.ne_nil

/-- **When a search is exact.**  On a page that `convertFile` has written, from whatever file, the search answers
exactly if and only if a dash is missing nowhere, no line is lost, and neither the footer nor the lines outside of
the two sections add anything. -/
theorem fileSearch_exact_iff {canWrite : Str → Bool} {file : Str} {p : Page}
    (hpage : convertFile canWrite file = .ok p) (hk : Keyword keyword) :
    SearchExact p keyword ↔
      DashedSpans keyword p.spans ∧ p.Kept keyword ∧ p.Undated keyword ∧ p.Apart keyword := by
  obtain ⟨hplain, h0⟩ := convertFile_plain hpage
  obtain ⟨hfront, hquiet⟩ := spansOf_quiet (fgetsAll p.text)
  have hsearch : fileSearch p.text keyword = searchLines keyword (.outside none) (readSpans p.spans) := by
    rw [fileSearch, ← spansOf_join (fgetsAll p.text)]
    exact searchLines_outside hfront
  have hsees : (Search.outside none).Sees p.spans := fun hc => absurd hc Bool.false_ne_true
  obtain ⟨hfail, hfound⟩ := @search_spans keyword _ _ hsees hquiet
  rw [SearchExact, hsearch, hfail]
  apply and_congr_right
  intro hdashed
  rw [hfound hdashed]
  constructor
  · intro hiff
    refine ⟨hiff.mpr, fun _ s hs line hline hin => ?_, fun _ _ _ s hs line hline hin => ?_⟩
    · exact hiff.mp ⟨s, List.mem_of_getLast? hs, line, hline, hin⟩
    · exact hiff.mp ⟨s, hs, line, hline, hin⟩
  · rintro ⟨hkept, hundated, hapart⟩
    refine ⟨fun hhit => ?_, hkept⟩
    obtain ⟨s, hs, line, hline, hin⟩ := hhit
    rcases spanHit_source hk hplain h0 hs hline hin with hcontains | ⟨x, hx, hkx⟩ | ⟨hdate, hlast⟩
    · exact hcontains
    · exact hapart x hx hkx s hs line hline hin
    · exact hundated hdate s hlast line hline hin

/-- `.TH a 1 2023-08-15`, `#x` and `y` with a zero between them, `.SH name`, `a - ` and `x` with a zero between them,
`b` -/
def zeroFile : Str :=
  bytes ['.', 'T', 'H', ' ', 'a', ' ', '1', ' ', '2', '0', '2', '3', '-', '0', '8', '-', '1', '5', '\n', '#', 'x'] ++
    [0] ++ bytes ['y', '\n', '.', 'S', 'H', ' ', 'n', 'a', 'm', 'e', '\n', 'a', ' ', '-', ' '] ++ [0] ++
    bytes ['x', '\n', 'b', '\n']

/-- Its page, in which the last two lines run together. -/
def zeroPage : Page :=
  ⟨⟨bytes ['a'], 49, bytes ['2', '0', '2', '3', '-', '0', '8', '-', '1', '5']⟩,
    [.header (bytes ['N', 'A', 'M', 'E']), .body (bytes ['a', ' ', '-', ' ']), .body (bytes ['b', '\n'])]⟩

theorem fileSearch_exact_zeroPage : convertFile (fun _ => true) zeroFile = .ok zeroPage ∧
    SearchExact zeroPage (bytes ['b']) := by
  have hpage : convertFile (fun _ => true) zeroFile = .ok zeroPage := by decide +kernel
  refine ⟨hpage, (fileSearch_exact_iff hpage ⟨by decide, by decide, by decide⟩).mpr ⟨?_, fun _ => ?_, ?_, ?_⟩⟩
  · have hspans : zeroPage.spans = [⟨true, [bodyLine (bytes ['a', ' ', '-', ' ']) ++ bodyLine (bytes ['b', '\n']),
        zeroPage.header.lastLine]⟩] := by decide +kernel
    rw [hspans, dashedSpans_cons]
    refine ⟨?_, .inl (by decide +kernel)⟩
    rintro ⟨-, line, hline, -, hno⟩
    rw [← Option.some.inj hline] at hno
    exact absurd hno (by decide)
  · have hhit : ∃ s ∈ zeroPage.spans, s.Hit (bytes ['b']) := by decide +kernel
    exact hhit
  · intro hdate
    exact absurd hdate (by decide)
  · intro x hx hin
    have hno : ∀ x ∈ zeroPage.elsewhere, ¬bytes ['b'] <:+: x := by decide +kernel
    exact absurd hin (hno x hx)

end OperatingSystems.Man
