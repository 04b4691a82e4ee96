import OperatingSystems.Lib.Outcomes
import OperatingSystems.Lib.TextLines

/-!
# `wgroff`: the pages that it writes

`convertFile` turns a formatted input file into a manual page, line by line.  Strings are lists of bytes;
where the code would write past one of its arrays, or use a line that was never read, the outcome is
`undefined`.

* **`convertFile`** — the page that is written, or why there is none.
* **`Page.text`** — the bytes of the page.
* **`WellWritten`** — the shape of what is written between the first and the last line, which every page of
  a text file has by **`convertFile_wellWritten`**.
-/

namespace OperatingSystems.Man

open Outcomes TextLines

/-! ### Strings -/

abbrev Str := List UInt8

def newline : UInt8 := 10

def space : UInt8 := 32

def escape : UInt8 := 27

def dash : UInt8 := 45

/-- The bytes of a string literal. -/
def bytes (cs : List Char) : Str := cs.map Char.toUInt8

def isspace (b : UInt8) : Bool := b == 32 || (9 ≤ b && b ≤ 13)

def isdigit (b : UInt8) : Bool := 48 ≤ b && b ≤ 57

def toupper (b : UInt8) : UInt8 := if 97 ≤ b ∧ b ≤ 122 then b - 32 else b

/-- The string in an array of characters ends before the first zero. -/
def cstr (s : Str) : Str := s.takeWhile (· != 0)

/-- The strings that `fgets(line, 1024, file)` yields until it returns `NULL`. -/
def fgetsAll (file : Str) : List Str := (pieces newline 1023 file).map cstr

/-! ### Why there is no page -/

inductive Failure
  /-- The output file cannot be opened. -/
  | cannotOpen
  /-- `Improper formatting on line` -/
  | improper (lineNumber : ℕ)
  /-- The code has no defined behaviour. -/
  | undefined
  deriving DecidableEq

/-- A string that is stored in an array of `n` characters. -/
def fits (n : ℕ) (s : Str) : Except Failure Str := if s.length < n then .ok s else .error .undefined

/-! ### Formatting marks -/

/-- One pass of `convertFormattingMarks`; the first argument counts the characters still to be skipped. -/
def replaceFrom (find replace : Str) : ℕ → Str → Str
  | _, [] => []
  | skip + 1, _ :: cs => replaceFrom find replace skip cs
  | 0, c :: cs =>
    if find <+: c :: cs then replace ++ replaceFrom find replace (find.length - 1) cs
    else c :: replaceFrom find replace 0 cs

/-- The arrays `find` and `replace`. -/
def marks : List (Str × Str) :=
  [(bytes ['/', 'f', 'B'], escape :: bytes ['[', '1', 'm']),
    (bytes ['/', 'f', 'I'], escape :: bytes ['[', '3', 'm']),
    (bytes ['/', 'f', 'U'], escape :: bytes ['[', '4', 'm']),
    (bytes ['/', 'f', 'P'], escape :: bytes ['[', '0', 'm']),
    (bytes ['/', '/'], bytes ['/'])]

/-- `convertFormattingMarks`: each pass goes through the array `result`. -/
def convertFormattingMarks (line : Str) : Except Failure Str :=
  marks.foldlM (fun line mark => fits 1024 (replaceFrom mark.1 mark.2 0 line)) line

/-! ### The lines of an input file -/

/-- The parts of the first line. -/
structure Header where
  command : Str
  sectionNumber : UInt8
  date : Str
  deriving DecidableEq

/-- `([0-9]{4}-[0-9]{2}-[0-9]{2})\n$` -/
def matchDate : Str → Option Str
  | [y₁, y₂, y₃, y₄, e₁, m₁, m₂, e₂, d₁, d₂, c] =>
    if ([y₁, y₂, y₃, y₄, m₁, m₂, d₁, d₂].all isdigit && e₁ == dash && e₂ == dash && c == newline) then
      some [y₁, y₂, y₃, y₄, e₁, m₁, m₂, e₂, d₁, d₂]
    else none
  | _ => none

/-- `headerPattern`, the regular expression for the first line. -/
def matchHeader (line : Str) : Option Header :=
  if bytes ['.', 'T', 'H'] <+: line then
    match line.drop 3 with
    | [] => none
    | s₁ :: rest =>
      -- `\S+` takes all up to the next whitespace, since `\s` has to follow
      let command := rest.takeWhile (!isspace ·)
      match rest.dropWhile (!isspace ·) with
      | _ :: n :: s₃ :: tail =>
        if isspace s₁ ∧ command ≠ [] ∧ 49 ≤ n ∧ n ≤ 57 ∧ isspace s₃ then
          (matchDate tail).map fun date => ⟨command, n, date⟩
        else none
      | _ => none
  else none

/-- `sscanf(line, "#%s", hashTagContent)` -/
def scanHashTag : Str → Option Str
  | 35 :: rest =>
    let word := (rest.dropWhile isspace).takeWhile (!isspace ·)
    if word = [] then none else some word
  | _ => none

/-- `sscanf(line, ".SH %[^\n]", sectionName)` -/
def scanSectionName (line : Str) : Option Str :=
  if bytes ['.', 'S', 'H'] <+: line then
    let name := ((line.drop 3).dropWhile isspace).takeWhile (· != newline)
    if name = [] then none else some name
  else none

/-- What one line of the input adds to the page. -/
inductive Written
  | header (sectionName : Str)
  | body (line : Str)
  deriving DecidableEq

/-- The loop of `convertFile`, after the line with this number. -/
def writeLines : ℕ → List Str → Except Failure (List Written)
  | _, [] => .ok []
  | lineNumber, line :: lines =>
    match scanHashTag line with
    | some hashTagContent => do
      let _ ← fits 256 hashTagContent
      writeLines (lineNumber + 1) lines
    | none =>
      match scanSectionName line with
      | some sectionName => do
        let sectionName ← fits 256 sectionName
        let written ← writeLines (lineNumber + 1) lines
        .ok (.header (sectionName.map toupper) :: written)
      | none =>
        if bytes ['.', 'S', 'H'] ++ [newline] <+: line then .error (.improper (lineNumber + 1))
        else do
          let line ← convertFormattingMarks line
          let written ← writeLines (lineNumber + 1) lines
          .ok (.body line :: written)

/-! ### Pages -/

/-- A complete page. -/
structure Page where
  header : Header
  lines : List Written
  deriving DecidableEq

/-- `convertFile`, where `canWrite` says which paths can be opened for writing. -/
def convertFile (canWrite : Str → Bool) (file : Str) : Except Failure Page :=
  match fgetsAll file with
  | [] => .error .undefined
  | first :: lines =>
    match matchHeader first with
    | none => .error (.improper 1)
    | some header => do
      let command ← fits 256 header.command
      if canWrite (bytes ['.', '/'] ++ command ++ bytes ['.'] ++ [header.sectionNumber]) then
        let written ← writeLines 1 lines
        .ok ⟨header, written⟩
      else .error .cannotOpen

/-- The line of a section header. -/
def headerLine (sectionName : Str) : Str :=
  escape :: bytes ['[', '1', 'm'] ++ sectionName ++ (escape :: bytes ['[', '0', 'm']) ++ [newline]

/-- A body line is indented by seven spaces. -/
def bodyLine (line : Str) : Str := List.replicate 7 space ++ line

def Written.text : Written → Str
  | .header sectionName => newline :: headerLine sectionName
  | .body line => bodyLine line

def Header.firstLineContent (h : Header) : Str :=
  h.command ++ bytes ['('] ++ [h.sectionNumber] ++ bytes [')']

/-- The first line of a page. -/
def Header.firstLine (h : Header) : Str :=
  -- a negative width pads to its absolute value
  let firstLineSpacesCount := (80 - 2 * (h.firstLineContent.length : ℤ)).natAbs
  h.firstLineContent ++ List.replicate firstLineSpacesCount space ++ h.firstLineContent ++ [newline]

def Header.lastLineContent (h : Header) : Str :=
  List.replicate 35 space ++ h.date ++ List.replicate 35 space

/-- The last line of a page, the footer. -/
def Header.lastLine (h : Header) : Str := h.lastLineContent ++ [newline]

/-- **The bytes of a page.** -/
def Page.text (p : Page) : Str :=
  p.header.firstLine ++ p.lines.flatMap Written.text ++ p.header.lastLine

/-! ### The shape of a page -/

/-- What is written between the first and the last line: names and lines without zeros that fit their
arrays, where each line ends with its newline, but for the last one of the page. -/
def WellWritten : List Written → Prop
  | [] => True
  | .header name :: ws => (newline ∉ name ∧ 0 ∉ name ∧ name.length < 256) ∧ WellWritten ws
  | .body line :: ws =>
    (0 ∉ line ∧ line.length < 1024 ∧
      ∃ c, newline ∉ c ∧ (line = c ++ [newline] ∨ line = c ∧ ws = [])) ∧ WellWritten ws

theorem replaceFrom_found {find replace cs : Str} {c : UInt8} (h : find <+: c :: cs) :
    replaceFrom find replace 0 (c :: cs) = replace ++ replaceFrom find replace (find.length - 1) cs :=
  if_pos h

theorem replaceFrom_other {find replace cs : Str} {c : UInt8} (h : ¬find <+: c :: cs) :
    replaceFrom find replace 0 (c :: cs) = c :: replaceFrom find replace 0 cs := if_neg h

theorem mem_replaceFrom {find replace line : Str} {skip : ℕ} {b : UInt8}
    (h : b ∈ replaceFrom find replace skip line) : b ∈ line ∨ b ∈ replace := by
  induction line generalizing skip with
  | nil =>
    unfold replaceFrom at h
    cases h
  | cons c cs ih =>
    cases skip with
    | succ skip => exact (ih h).imp_left (List.mem_cons_of_mem c)
    | zero =>
      unfold replaceFrom at h
      split at h
      · rcases List.mem_append.mp h with h | h
        · exact .inr h
        · exact (ih h).imp_left (List.mem_cons_of_mem c)
      · rcases List.mem_cons.mp h with rfl | h
        · exact .inl List.mem_cons_self
        · exact (ih h).imp_left (List.mem_cons_of_mem c)

/-- A pass does not touch a last character that its mark does not contain. -/
theorem replaceFrom_snoc {find replace line : Str} {skip : ℕ} {b : UInt8} (hfind : find ≠ [])
    (hb : b ∉ find) (hskip : skip ≤ line.length) :
    replaceFrom find replace skip (line ++ [b]) = replaceFrom find replace skip line ++ [b] := by
  have hfront : ∀ l, find <+: l ++ [b] ↔ find <+: l := by
    intro l
    rw [List.prefix_concat_iff]
    constructor
    · rintro (h | h)
      · rw [h] at hb
        exact absurd (List.mem_append_right l (List.mem_singleton_self b)) hb
      · exact h
    · exact .inr
  induction line generalizing skip with
  | nil =>
    rw [List.length_nil, Nat.le_zero] at hskip
    have hno : ¬find <+: [b] := by
      intro h
      have := (hfront []).mp h
      exact hfind (List.prefix_nil.mp this)
    rw [hskip]
    exact replaceFrom_other hno
  | cons c cs ih =>
    rw [List.length_cons] at hskip
    cases skip with
    | succ skip => exact ih (Nat.le_of_succ_le_succ hskip)
    | zero =>
      by_cases h : find <+: c :: cs
      · have hlen := h.length_le
        rw [List.length_cons] at hlen
        have hsnoc : find <+: c :: (cs ++ [b]) := (hfront (c :: cs)).mpr h
        rw [List.cons_append, replaceFrom_found hsnoc, replaceFrom_found h, ih (by omega),
          List.append_assoc]
      · have hsnoc : ¬find <+: c :: (cs ++ [b]) := fun hc => h ((hfront (c :: cs)).mp hc)
        rw [List.cons_append, replaceFrom_other hsnoc, replaceFrom_other h, ih (Nat.zero_le _)]
        rfl

theorem fits_ok {n : ℕ} {s s' : Str} (h : fits n s = .ok s') : s' = s ∧ s.length < n := by
  unfold fits at h
  split at h
  · rename_i hlt
    exact ⟨(Except.ok.inj h).symm, hlt⟩
  · cases h

theorem marks_plain : ∀ m ∈ marks, m.1 ≠ [] ∧ newline ∉ m.1 ∧ newline ∉ m.2 ∧ (0 : UInt8) ∉ m.2 := by
  decide

/-- What the conversion of a line keeps: it stays inside the array, without zeros and newlines before its
end. -/
theorem convertFormattingMarks_ok {line line' c e : Str} (he : e = [newline] ∨ e = [])
    (hline : line = c ++ e) (hc : newline ∉ c) (hnul : 0 ∉ line) (hlen : line.length < 1024)
    (h : convertFormattingMarks line = .ok line') :
    0 ∉ line' ∧ line'.length < 1024 ∧ ∃ c', newline ∉ c' ∧ line' = c' ++ e := by
  have hstep : ∀ (ms : List (Str × Str)), (∀ m ∈ ms, m ∈ marks) → ∀ l : Str,
      (0 ∉ l ∧ l.length < 1024 ∧ ∃ c', newline ∉ c' ∧ l = c' ++ e) →
      ∀ l', ms.foldlM (fun line mark => fits 1024 (replaceFrom mark.1 mark.2 0 line)) l = .ok l' →
      0 ∉ l' ∧ l'.length < 1024 ∧ ∃ c', newline ∉ c' ∧ l' = c' ++ e := by
    intro ms
    induction ms with
    | nil =>
      intro _ l hl l' hl'
      rw [← Except.ok.inj (hl' : Except.ok l = .ok l')]
      exact hl
    | cons m ms ih =>
      intro hms l ⟨hl0, _, c', hc', hl⟩ l' hl'
      rw [List.foldlM_cons] at hl'
      obtain ⟨l₁, h₁, h₂⟩ := bind_eq_ok hl'
      obtain ⟨rfl, hlt⟩ := fits_ok h₁
      obtain ⟨hne, hnl, hnl', h0⟩ := marks_plain m (hms m List.mem_cons_self)
      apply ih (fun x hx => hms x (List.mem_cons_of_mem m hx)) _ _ l' h₂
      refine ⟨fun hmem => (mem_replaceFrom hmem).elim hl0 h0, hlt, replaceFrom m.1 m.2 0 c', ?_, ?_⟩
      · exact fun hmem => (mem_replaceFrom hmem).elim hc' hnl'
      · rw [hl]
        rcases he with rfl | rfl
        · exact replaceFrom_snoc hne hnl (Nat.zero_le _)
        · rw [List.append_nil, List.append_nil]
  exact hstep marks (fun m hm => hm) line ⟨hnul, hlen, c, hc, hline⟩ line' h

theorem toupper_low {b v : UInt8} (hv : v.toNat < 65) (h : toupper b = v) : b = v := by
  unfold toupper at h
  split at h
  · rename_i hb
    have hlo : 97 ≤ b.toNat := UInt8.le_iff_toNat_le.mp hb.1
    have hsub : (b - 32).toNat = b.toNat - 32 := UInt8.toNat_sub_of_le b 32 (by
      rw [UInt8.le_iff_toNat_le]
      exact le_trans (by decide) hlo)
    rw [← h, hsub] at hv
    omega
  · exact h

/-- The name of a section is free of what its line was free of, and of newlines. -/
theorem scanSectionName_ok {line name : Str} (hnul : 0 ∉ line) (h : scanSectionName line = some name) :
    newline ∉ name.map toupper ∧ 0 ∉ name.map toupper := by
  unfold scanSectionName at h
  split at h
  · dsimp only at h
    split at h
    · cases h
    · rw [← Option.some.inj h]
      constructor
      · intro hmem
        obtain ⟨b, hb, hup⟩ := List.mem_map.mp hmem
        have hne := List.mem_takeWhile_imp hb
        rw [toupper_low (by decide) hup] at hne
        cases hne
      · intro hmem
        obtain ⟨b, hb, hup⟩ := List.mem_map.mp hmem
        rw [toupper_low (by decide) hup] at hb
        exact hnul (List.mem_of_mem_drop ((List.dropWhile_sublist _).subset
          ((List.takeWhile_sublist _).subset hb)))
  · cases h

theorem writeLines_wellWritten {k : ℕ} {lines : List Str} {ws : List Written}
    (hlines : Lines newline lines) (hnul : ∀ l ∈ lines, 0 ∉ l) (hlen : ∀ l ∈ lines, l.length < 1024)
    (h : writeLines k lines = .ok ws) : WellWritten ws := by
  induction lines generalizing k ws with
  | nil =>
    rw [← Except.ok.inj (h : Except.ok [] = .ok ws)]
    trivial
  | cons line lines ih =>
    obtain ⟨⟨c, hc, hend⟩, hlines⟩ := hlines
    have hrest : ∀ {ws'}, writeLines (k + 1) lines = .ok ws' → WellWritten ws' :=
      ih hlines (fun l hl => hnul l (List.mem_cons_of_mem _ hl))
        (fun l hl => hlen l (List.mem_cons_of_mem _ hl))
    unfold writeLines at h
    split at h
    · obtain ⟨_, -, h⟩ := bind_eq_ok h
      exact hrest h
    · split at h
      · rename_i name hname
        obtain ⟨name', hfits, h₁⟩ := bind_eq_ok h
        obtain ⟨ws', hws, h₂⟩ := bind_eq_ok h₁
        obtain ⟨rfl, hlt⟩ := fits_ok hfits
        rw [← Except.ok.inj h₂]
        obtain ⟨hnl, h0⟩ := scanSectionName_ok (hnul line List.mem_cons_self) hname
        exact ⟨⟨hnl, h0, by rw [List.length_map]; exact hlt⟩, hrest hws⟩
      · split at h
        · cases h
        · obtain ⟨line', hconv, h⟩ := bind_eq_ok h
          obtain ⟨ws', hws, h⟩ := bind_eq_ok h
          rw [← Except.ok.inj h]
          have h0 := hnul line List.mem_cons_self
          have hlt := hlen line List.mem_cons_self
          refine ⟨?_, hrest hws⟩
          rcases hend with hend | ⟨hend, rfl⟩
          · obtain ⟨h0', hlt', c', hc', heq⟩ :=
              convertFormattingMarks_ok (.inl rfl) hend hc h0 hlt hconv
            exact ⟨h0', hlt', c', hc', .inl heq⟩
          · obtain ⟨h0', hlt', c', hc', heq⟩ := convertFormattingMarks_ok (.inr rfl)
              (by rw [hend, List.append_nil]) hc h0 hlt hconv
            rw [List.append_nil] at heq
            refine ⟨h0', hlt', c', hc', .inr ⟨heq, ?_⟩⟩
            exact (Except.ok.inj (hws : Except.ok [] = .ok ws')).symm

/-! ### Input files -/

/-- All lines are shorter than 1000 characters. -/
def ShortLines (file : Str) : Prop := ∀ l, l <:+: file → newline ∉ l → l.length < 1000

theorem cstr_eq {s : Str} (h : 0 ∉ s) : cstr s = s := by
  apply List.takeWhile_eq_self_iff.mpr
  intro b hb
  rw [bne_iff_ne]
  rintro rfl
  exact h hb

/-- A text without zeros is read as it is. -/
theorem fgetsAll_eq {file : Str} (h : 0 ∉ file) : fgetsAll file = pieces newline 1023 file := by
  unfold fgetsAll
  rw [List.map_congr_left fun l hl => cstr_eq fun h0 => h ((infix_of_mem_pieces hl).subset h0)]
  exact List.map_id _

/-- What the first line of the page is made of. -/
structure Header.Plain (h : Header) : Prop where
  command : newline ∉ h.command ∧ 0 ∉ h.command ∧ h.command.length < 256
  sectionNumber : h.sectionNumber ≠ newline ∧ h.sectionNumber ≠ 0
  date : h.date.length = 10 ∧ dash ∈ h.date ∧ newline ∉ h.date ∧ 0 ∉ h.date

theorem matchDate_ok {tail date : Str} (h : matchDate tail = some date) :
    date.length = 10 ∧ dash ∈ date ∧ newline ∉ date ∧ 0 ∉ date := by
  unfold matchDate at h
  split at h
  · split at h
    · rename_i hall
      rw [Bool.and_eq_true, Bool.and_eq_true, Bool.and_eq_true, List.all_eq_true, beq_iff_eq, beq_iff_eq,
        beq_iff_eq] at hall
      obtain ⟨⟨⟨hdigits, he₁⟩, he₂⟩, -⟩ := hall
      have hplain : ∀ b ∈ date, isdigit b = true ∨ b = dash := by
        intro b hb
        rw [← Option.some.inj h] at hb
        simp only [List.mem_cons, List.not_mem_nil, or_false] at hb hdigits
        rcases hb with rfl | rfl | rfl | rfl | rfl | rfl | rfl | rfl | rfl | rfl
        all_goals first | exact .inr he₁ | exact .inr he₂ | exact .inl (hdigits _ (by simp))
      refine ⟨by rw [← Option.some.inj h]; rfl, ?_, ?_, ?_⟩
      · rw [← Option.some.inj h, he₁]
        simp
      · intro hmem
        exact absurd (hplain _ hmem) (by decide)
      · intro hmem
        exact absurd (hplain _ hmem) (by decide)
    · cases h
  · cases h

theorem matchHeader_ok {line : Str} {hd : Header} (hnul : 0 ∉ line) (h : matchHeader line = some hd) :
    newline ∉ hd.command ∧ 0 ∉ hd.command ∧ (hd.sectionNumber ≠ newline ∧ hd.sectionNumber ≠ 0) ∧
      hd.date.length = 10 ∧ dash ∈ hd.date ∧ newline ∉ hd.date ∧ 0 ∉ hd.date := by
  unfold matchHeader at h
  split at h
  · split at h
    · cases h
    · rename_i s₁ rest hdrop
      dsimp only at h
      split at h
      · rename_i n s₃ tail hword
        split at h
        · rename_i hparts
          obtain ⟨date, hdate, heq⟩ := Option.map_eq_some_iff.mp h
          rw [← heq]
          refine ⟨?_, ?_, ⟨?_, ?_⟩, matchDate_ok hdate⟩
          · intro hmem
            have := List.mem_takeWhile_imp hmem
            cases this
          · intro hmem
            have hrest : 0 ∈ s₁ :: rest := List.mem_cons_of_mem _ ((List.takeWhile_sublist _).subset hmem)
            rw [← hdrop] at hrest
            exact hnul (List.mem_of_mem_drop hrest)
          · rintro rfl
            exact absurd hparts.2.2.1 (by decide)
          · rintro rfl
            exact absurd hparts.2.2.1 (by decide)
        · cases h
      · cases h
  · cases h

/-- **The pages of text files** have this shape. -/
theorem convertFile_wellWritten {canWrite : Str → Bool} {file : Str} {p : Page} (hnul : 0 ∉ file)
    (hshort : ShortLines file) (h : convertFile canWrite file = .ok p) :
    p.header.Plain ∧ WellWritten p.lines := by
  have hlines : Lines newline (fgetsAll file) := by
    rw [fgetsAll_eq hnul]
    apply pieces_lines
    intro l hl hnl
    exact (hshort l hl hnl).trans (by decide)
  have hzero : ∀ l ∈ fgetsAll file, 0 ∉ l := by
    intro l hl h0
    rw [fgetsAll_eq hnul] at hl
    exact hnul ((infix_of_mem_pieces hl).subset h0)
  have hlen : ∀ l ∈ fgetsAll file, l.length < 1024 := by
    intro l hl
    rw [fgetsAll_eq hnul] at hl
    exact Nat.lt_succ_of_le (length_of_mem_pieces (by decide) hl)
  unfold convertFile at h
  split at h
  · cases h
  · rename_i first lines hfile
    rw [hfile] at hlines hzero hlen
    split at h
    · cases h
    · rename_i hd hmatch
      obtain ⟨hnl, h0, hsection, hdate⟩ := matchHeader_ok (hzero first List.mem_cons_self) hmatch
      obtain ⟨command, hfits, h⟩ := bind_eq_ok h
      split at h
      · obtain ⟨ws, hws, h⟩ := bind_eq_ok h
        rw [← Except.ok.inj h]
        refine ⟨⟨⟨hnl, h0, (fits_ok hfits).2⟩, hsection, hdate⟩, ?_⟩
        exact writeLines_wellWritten hlines.2 (fun l hl => hzero l (List.mem_cons_of_mem _ hl))
          (fun l hl => hlen l (List.mem_cons_of_mem _ hl)) hws
      · cases h

end OperatingSystems.Man
