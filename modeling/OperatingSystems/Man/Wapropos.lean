import OperatingSystems.Man.Wgroff

/-!
# `wapropos`: the search in a page

`fileSearch` reads a page line by line and recognises the NAME and DESCRIPTION sections by their headers and
by runs of seven spaces.

* **`fileSearch`** — what it finds, or the null pointer that it dereferences.
* **`sectionsOf`** — the sections of a page, as `wgroff` wrote them.
* **`Page.Contains`** — a body line of a NAME or DESCRIPTION section contains the keyword.
-/

namespace OperatingSystems.Man

open TextLines

/-! ### The search -/

/-- The local variables of `fileSearch`.  Nothing is stored in `name` before a NAME section. -/
structure Search where
  isNameSection : Bool
  isDescriptionSection : Bool
  isNameLine : Bool
  name : Option Str

/-- The variables before the first line. -/
def Search.start : Search := ⟨false, false, false, none⟩

/-- What `fileSearch` returns: `0` after a line with the name, `-1`, or it dereferences `NULL + 1`. -/
inductive Result
  | found (name : Option Str)
  | notFound
  | nullDeref
  deriving DecidableEq

def nameLine : Str := headerLine (bytes ['N', 'A', 'M', 'E'])

def descriptionLine : Str :=
  headerLine (bytes ['D', 'E', 'S', 'C', 'R', 'I', 'P', 'T', 'I', 'O', 'N'])

def sevenSpaces : Str := List.replicate 7 space

/-- `strstr(line, "-") + 1`, unless the line has no dash. -/
def afterDash (line : Str) : Option Str :=
  match line.dropWhile (· != dash) with
  | [] => none
  | _ :: rest => some rest

/-- The variables with which a line that is no NAME or DESCRIPTION header is searched. -/
def Search.enter (st : Search) (line : Str) : Option Search :=
  if st.isNameLine then
    (afterDash line).map fun name => { st with isNameLine := false, name := some name }
  else if (st.isDescriptionSection || st.isNameSection) ∧ ¬sevenSpaces <:+: line then
    some { st with isDescriptionSection := false, isNameSection := false }
  else some st

/-- The loop of `fileSearch`. -/
def searchLines (keyword : Str) : Search → List Str → Result
  | _, [] => .notFound
  | st, line :: lines =>
    if line = nameLine then
      searchLines keyword
        { st with isNameSection := true, isNameLine := true, isDescriptionSection := false } lines
    else if ¬st.isNameLine ∧ line = descriptionLine then
      searchLines keyword { st with isNameSection := false, isDescriptionSection := true } lines
    else
      match st.enter line with
      | none => .nullDeref
      | some st =>
        if (st.isNameSection || st.isDescriptionSection) ∧ keyword <:+: line then .found st.name
        else searchLines keyword st lines

/-- `fileSearch` on a file with this content. -/
def fileSearch (file keyword : Str) : Result := searchLines keyword .start (fgetsAll file)

/-! ### The sections of a page -/

/-- A section: the body lines after its header, and what follows them, the newline before the next header or
the footer. -/
structure Section where
  name : Str
  bodies : List Str
  closing : Str

/-- What follows the body lines before these sections. -/
def closingOf (footer : Str) (sections : List Section) : Str :=
  if sections.isEmpty then footer else [newline]

/-- The body lines before the first header, and the sections. -/
def sectionsOf (footer : Str) : List Written → List Str × List Section
  | [] => ([], [])
  | .body line :: ws => (line :: (sectionsOf footer ws).1, (sectionsOf footer ws).2)
  | .header name :: ws =>
    let rest := sectionsOf footer ws
    ([], ⟨name, rest.1, closingOf footer rest.2⟩ :: rest.2)

def Page.sections (p : Page) : List Section := (sectionsOf p.header.lastLine p.lines).2

/-- A NAME or DESCRIPTION section. -/
def Section.Searched (s : Section) : Prop :=
  s.name = bytes ['N', 'A', 'M', 'E'] ∨
    s.name = bytes ['D', 'E', 'S', 'C', 'R', 'I', 'P', 'T', 'I', 'O', 'N']

instance (s : Section) : Decidable s.Searched := inferInstanceAs (Decidable (_ ∨ _))

/-- What follows the header of a section in the page. -/
def Section.text (s : Section) : Str := s.bodies.flatMap bodyLine ++ s.closing

/-- The pieces in which `fgets` reads it. -/
def Section.read (s : Section) : List Str := pieces newline 1023 s.text

/-- The pieces that still count to the section: those up to the first without seven spaces. -/
def Section.counted (s : Section) : List Str := s.read.takeWhile fun line => sevenSpaces <:+: line

/-- **A body line of a NAME or DESCRIPTION section contains the keyword.** -/
def Page.Contains (p : Page) (keyword : Str) : Prop :=
  ∃ s ∈ p.sections, s.Searched ∧ ∃ line ∈ s.bodies, keyword <:+: bodyLine line

/-- The search finds the keyword in a section. -/
def Section.Hit (keyword : Str) (s : Section) : Prop :=
  s.Searched ∧ ∃ line ∈ s.counted, keyword <:+: line

/-- A NAME section whose first line has no dash. -/
def Section.Dashless (s : Section) : Prop :=
  s.name = bytes ['N', 'A', 'M', 'E'] ∧ ∀ line ∈ s.read.head?, dash ∉ line

end OperatingSystems.Man
