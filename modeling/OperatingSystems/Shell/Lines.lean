import OperatingSystems.Lib.Fields
import OperatingSystems.Lib.Outcomes

/-!
# From a line to the commands that are run

Both loops of the shell treat a line in the same way: it is cut at `|`, and what is not empty is kept; then
two or more commands are a pipeline, and otherwise the line itself, which now ends at its first `|`, is cut
again as a single command.

* **`runLine`** — what a line comes to, with the arrays and pointers that go wrong.
* **`expected`** — what the line says.
* **`agrees_iff_plain`** — for which lines the two agree.
-/

namespace OperatingSystems.Shell.Lines

open Fields Outcomes

/-! ### Arrays of words -/

abbrev Str := List Char

/-- An element of an array of strings. -/
inductive Cell
  | null
  | word (w : Str)
  /-- Not the address of a string. -/
  | wild
  deriving DecidableEq

abbrev Cells := ℕ → Cell

/-- The array after these words have been stored from its start on. -/
def fill (ws : List Str) (old : Cells) : Cells := fun i =>
  match ws[i]? with
  | some w => .word w
  | none => old i

/-- `arguments[i] = NULL` -/
def setNull (arguments : Cells) (i : ℕ) : Cells := Function.update arguments i .null

/-- Undefined behaviour. -/
inductive Fault
  | outOfBounds
  | nullArgument
  | wildPointer
  deriving DecidableEq

/-! ### Parsing -/

def bar : Str := ['|']

def ampersand : Str := ['&']

/-- The tokens of `strsep` that are not empty, in an array of this size; a null pointer is stored behind
them. -/
def parse (size : ℕ) (delim : Char) (s : Str) : Except Fault (List Str) :=
  let tokens := (fields delim s).filter (· ≠ [])
  if tokens.length < size then .ok tokens else .error .outOfBounds

def parseLine (inputLine : Str) : Except Fault (List Str) := parse 256 '|' inputLine

def parseCommand (command : Str) : Except Fault (List Str) := parse 256 ' ' command

/-! ### Running a line -/

/-- What a line comes to. -/
inductive Outcome
  | builtin (arguments : List Str)
  /-- The vectors for `execvp`; the array for `storeJobInfo`, in case the job is stored, and its size. -/
  | external (vectors : List (List Str)) (background : Bool) (arguments : Cells) (size : ℕ)
  /-- The shell exits, since there is nothing to be run in the background. -/
  | refused

def builtins : List Str := [['e', 'x', 'i', 't'], ['c', 'd'], ['j', 'o', 'b', 's'], ['f', 'g'], ['b', 'g']]

def execExternalCommand (arguments : List Str) : Except Fault Outcome :=
  match arguments.getLast? with
  -- `arguments[-1]`
  | none => .error .outOfBounds
  | some last =>
    if arguments = [ampersand] then .ok .refused
    else
      let inputLineArgs := fill arguments fun _ => .null
      if last = ampersand then
        .ok (.external [arguments.dropLast] true (setNull inputLineArgs (arguments.length - 1)) 256)
      else .ok (.external [arguments] false inputLineArgs 256)

/-- `execExternalJob`, where `stack` is in the array `arguments` before. -/
def execExternalJob (commands : List Str) (stack : Cells) : Except Fault Outcome := do
  let finalCommandArgs ← parseCommand (commands.getLastD [])
  match finalCommandArgs.getLast? with
  -- `finalCommandArgs[-1]`
  | none => .error .outOfBounds
  | some last =>
    if finalCommandArgs = [ampersand] then .ok .refused
    else
      let isBackgroundJob := decide (last = ampersand)
      let currentCommandArgs ← commands.mapM parseCommand
      let words := [bar].intercalate currentCommandArgs
      if 1024 < words.length then .error .outOfBounds
      else
        let arguments := fill words stack
        let vectors := if isBackgroundJob then currentCommandArgs.dropLast ++ [finalCommandArgs.dropLast]
          else currentCommandArgs
        -- `execvp(inputLineArgs[0], inputLineArgs)`
        if [] ∈ vectors then .error .nullArgument
        else .ok (.external vectors isBackgroundJob
          (if isBackgroundJob then setNull arguments (words.length - 1) else arguments) 1024)

/-- **The body of the loops** of `runInteractiveMode` and `runBatchMode`, after the newline is cut off. -/
def runLine (inputLine : Str) (stack : Cells) : Except Fault Outcome := do
  let commandList ← parseLine inputLine
  if 1 < commandList.length then execExternalJob commandList stack
  else
    -- `parseLine` has put a terminator in place of each bar
    let inputLineArgs ← parseCommand (inputLine.takeWhile (· ≠ '|'))
    match inputLineArgs with
    -- `strcmp(inputLineArgs[0], "exit")`
    | [] => .error .nullArgument
    | name :: _ =>
      if name ∈ builtins then .ok (.builtin inputLineArgs) else execExternalCommand inputLineArgs

/-! ### Specification -/

/-- The words of a segment. -/
def words (s : Str) : List Str := runs ' ' s

/-- The segments of a line with something else than spaces in them. -/
def segments (line : Str) : List Str := (fields '|' line).filter fun s => s.any (· ≠ ' ')

/-- A final `&` is removed from the last vector. -/
def dropAmpersand (vectors : List (List Str)) : List (List Str) :=
  match vectors.getLast? with
  | none => []
  | some last =>
    if last.getLast? = some ampersand then vectors.dropLast ++ [last.dropLast] else vectors

/-- What a line says is to be run. -/
inductive Run
  | nothing
  /-- There is no command before the `&`. -/
  | refused
  | run (vectors : List (List Str))
  deriving DecidableEq

def expected (line : Str) : Run :=
  let vectors := (segments line).map words
  if vectors = [] then .nothing
  else if vectors.getLast? = some [ampersand] then .refused
  else .run (dropAmpersand vectors)

/-- The vectors that are handed over. -/
def Outcome.run : Outcome → Run
  | .builtin arguments => .run [arguments]
  | .external vectors _ _ _ => .run vectors
  | .refused => .refused

/-! ### The condition -/

/-- What lies between the bars of a line, where it is not empty. -/
def pieces (line : Str) : List Str := (fields '|' line).filter (· ≠ [])

/-- A single command stands before the first bar, and is no built-in one with a final `&`. -/
def PlainCommand (line : Str) : Prop :=
  line.head? ≠ some '|' ∧ ∃ p ∈ pieces line, words p ≠ [] ∧ (words p).length ≤ 255 ∧
    ∀ name ∈ (words p).head?, name ∈ builtins → (words p).getLast? ≠ some ampersand

/-- No segment of a pipeline is blank, and its words fit the arrays; or the last one is `&` alone. -/
def PlainPipeline (line : Str) : Prop :=
  (∀ p ∈ (pieces line).getLast?, words p = [ampersand]) ∨
    (∀ p ∈ pieces line, words p ≠ [] ∧ (words p).length ≤ 255) ∧
      ([bar].intercalate ((pieces line).map words)).length ≤ 1024

def Plain (line : Str) : Prop :=
  (pieces line).length ≤ 255 ∧
    if 1 < (pieces line).length then PlainPipeline line else PlainCommand line

variable {line command : Str} {commands : List Str} {stack : Cells}

/-! ### The parts of a line -/

theorem parseCommand_eq (command : Str) :
    parseCommand command =
      if (words command).length ≤ 255 then .ok (words command) else .error .outOfBounds := by
  show (if ((fields ' ' command).filter (· ≠ [])).length < 256 then
    Except.ok ((fields ' ' command).filter (· ≠ [])) else .error Fault.outOfBounds) = _
  rw [filter_fields]
  exact if_congr Nat.lt_succ_iff rfl rfl

theorem parseLine_eq (line : Str) :
    parseLine line = if (pieces line).length ≤ 255 then .ok (pieces line) else .error .outOfBounds :=
  if_congr Nat.lt_succ_iff rfl rfl

theorem any_iff (s : Str) : s.any (· ≠ ' ') = true ↔ words s ≠ [] := by
  rw [List.any_eq_true, words, Ne, runs_eq_nil_iff]
  push Not
  simp only [decide_eq_true_eq]

/-- The segments are the pieces with a word. -/
theorem segments_eq (line : Str) : segments line = (pieces line).filter fun s => words s ≠ [] := by
  unfold segments pieces
  rw [List.filter_filter]
  apply List.filter_congr
  intro s _
  rw [Bool.eq_iff_iff, any_iff, Bool.and_eq_true, decide_eq_true_iff, decide_eq_true_iff]
  refine ⟨fun h => ⟨h, ?_⟩, fun h => h.1⟩
  rintro rfl
  exact h rfl

theorem mapM_parseCommand (commands : List Str) :
    commands.mapM parseCommand = if ∀ p ∈ commands, (words p).length ≤ 255 then .ok (commands.map words)
      else .error .outOfBounds := by
  induction commands with
  | nil => rfl
  | cons p ps ih =>
    rw [List.mapM_cons, parseCommand_eq, ih]
    have hcons := List.forall_mem_cons (p := fun p => (words p).length ≤ 255) (a := p) (l := ps)
    by_cases hp : (words p).length ≤ 255
    · rw [if_pos hp, ok_bind]
      by_cases hps : ∀ p ∈ ps, (words p).length ≤ 255
      · rw [if_pos hps, if_pos (hcons.mpr ⟨hp, hps⟩)]
        rfl
      · rw [if_neg hps, if_neg fun h => hps (hcons.mp h).2]
        rfl
    · rw [if_neg hp, if_neg fun h => hp (hcons.mp h).1]
      rfl

/-! ### The jobs that are run -/

/-- The last word of a job is a `&`. -/
def isBackground (vectors : List (List Str)) : Bool :=
  (vectors.getLast?.bind List.getLast?) = some ampersand

/-- The words of a command line, with a bar between two segments. -/
def typed (vectors : List (List Str)) : List Str := [bar].intercalate vectors

/-- What running these vectors comes to, where `base` was in the array before. -/
def job (vectors : List (List Str)) (base : Cells) (size : ℕ) : Outcome :=
  .external (dropAmpersand vectors) (isBackground vectors)
    (if isBackground vectors then setNull (fill (typed vectors) base) ((typed vectors).length - 1)
      else fill (typed vectors) base) size

theorem isBackground_eq {vectors : List (List Str)} {last : List Str} {w : Str}
    (hlast : vectors.getLast? = some last) (hw : last.getLast? = some w) :
    isBackground vectors = decide (w = ampersand) := by
  unfold isBackground
  rw [hlast, Option.bind_some, hw]
  exact decide_eq_decide.mpr Option.some_inj

theorem dropAmpersand_eq {vectors : List (List Str)} {last : List Str} {w : Str}
    (hlast : vectors.getLast? = some last) (hw : last.getLast? = some w) :
    dropAmpersand vectors =
      if decide (w = ampersand) then vectors.dropLast ++ [last.dropLast] else vectors := by
  unfold dropAmpersand
  rw [hlast]
  dsimp only
  rw [hw]
  exact if_congr (Option.some_inj.trans decide_eq_true_iff.symm) rfl rfl

theorem execExternalCommand_eq {arguments : List Str} (h : arguments ≠ []) :
    execExternalCommand arguments =
      .ok (if arguments = [ampersand] then .refused else job [arguments] (fun _ => .null) 256) := by
  have hw := List.getLast?_eq_some_getLast h
  have htyped : typed [arguments] = arguments := List.append_nil arguments
  unfold execExternalCommand job
  rw [hw, dropAmpersand_eq List.getLast?_singleton hw, isBackground_eq List.getLast?_singleton hw, htyped]
  dsimp only
  by_cases halone : arguments = [ampersand]
  · rw [if_pos halone, if_pos halone]
  · rw [if_neg halone, if_neg halone]
    by_cases hlast : arguments.getLast h = ampersand
    · rw [if_pos hlast, decide_eq_true hlast]
      rfl
    · rw [if_neg hlast, decide_eq_false hlast]
      rfl

theorem execExternalJob_refused (hlast : commands.getLast? = some command) (h : words command = [ampersand]) :
    execExternalJob commands stack = .ok .refused := by
  unfold execExternalJob
  rw [List.getLastD_eq_getLast?, hlast]
  show (parseCommand command >>= _) = _
  rw [parseCommand_eq, h]
  rfl

theorem getLast?_map_words (hlast : commands.getLast? = some command) :
    (commands.map words).getLast? = some (words command) := by
  rw [List.getLast?_map, hlast]
  rfl

/-- The checks of `execExternalJob`, once all commands are parsed. -/
theorem execExternalJob_eq (hlast : commands.getLast? = some command) (hwords : words command ≠ [])
    (halone : words command ≠ [ampersand]) (hall : ∀ p ∈ commands, (words p).length ≤ 255) :
    execExternalJob commands stack =
      if 1024 < (typed (commands.map words)).length then .error .outOfBounds
      else if [] ∈ dropAmpersand (commands.map words) then .error .nullArgument
      else .ok (job (commands.map words) stack 1024) := by
  have hw := List.getLast?_eq_some_getLast hwords
  have hvectors := getLast?_map_words hlast
  unfold execExternalJob job
  rw [List.getLastD_eq_getLast?, hlast]
  show (parseCommand command >>= _) = _
  rw [parseCommand_eq, if_pos (hall command (List.mem_of_getLast? hlast)), ok_bind, hw, mapM_parseCommand,
    if_pos hall, dropAmpersand_eq hvectors hw, isBackground_eq hvectors hw]
  dsimp only
  rw [if_neg halone, ok_bind]
  rfl

/-- Where the last segment has too many words, or none, or another one has too many. -/
theorem execExternalJob_fault (hlast : commands.getLast? = some command)
    (halone : words command ≠ [ampersand])
    (h : words command = [] ∨ ¬∀ p ∈ commands, (words p).length ≤ 255) :
    ∃ e, execExternalJob commands stack = .error e := by
  unfold execExternalJob
  rw [List.getLastD_eq_getLast?, hlast]
  show ∃ e, (parseCommand command >>= _) = _
  rw [parseCommand_eq]
  by_cases hlength : (words command).length ≤ 255
  · rw [if_pos hlength, ok_bind]
    by_cases hwords : words command = []
    · rw [hwords]
      exact ⟨_, rfl⟩
    · rw [List.getLast?_eq_some_getLast hwords, mapM_parseCommand, if_neg (h.resolve_left hwords)]
      dsimp only
      rw [if_neg halone]
      exact ⟨_, rfl⟩
  · rw [if_neg hlength]
    exact ⟨_, rfl⟩

/-- Removing a `&` leaves no vector empty that was not empty before. -/
theorem nil_mem_dropAmpersand {vectors : List (List Str)} {last : List Str}
    (hlast : vectors.getLast? = some last) (hne : last ≠ []) (halone : last ≠ [ampersand]) :
    [] ∈ dropAmpersand vectors ↔ [] ∈ vectors := by
  have hw := List.getLast?_eq_some_getLast hne
  have hsplit : vectors.dropLast ++ [last] = vectors := List.dropLast_append_getLast? last hlast
  rw [dropAmpersand_eq hlast hw]
  by_cases hamp : last.getLast hne = ampersand
  · have hdrop : last.dropLast ≠ [] := by
      intro hnil
      have heq := List.dropLast_concat_getLast hne
      rw [hnil, hamp] at heq
      exact halone heq.symm
    rw [decide_eq_true hamp, if_pos rfl, ← hsplit, List.dropLast_concat, List.mem_append, List.mem_append,
      List.mem_singleton, List.mem_singleton, or_iff_left hdrop.symm, or_iff_left hne.symm]
  · rw [decide_eq_false hamp, if_neg Bool.false_ne_true]

/-! ### The two kinds of line -/

theorem runLine_pipeline (hone : 1 < (pieces line).length) (hlength : (pieces line).length ≤ 255) :
    runLine line stack = execExternalJob (pieces line) stack := by
  unfold runLine
  rw [parseLine_eq, if_pos hlength, ok_bind, if_pos hone]

theorem runLine_long (hlength : ¬(pieces line).length ≤ 255) :
    runLine line stack = .error .outOfBounds := by
  unfold runLine
  rw [parseLine_eq, if_neg hlength]
  rfl

/-- A single command is what stands before the first bar. -/
def firstCommand (line : Str) : Str := line.takeWhile (· ≠ '|')

theorem runLine_command (hone : ¬1 < (pieces line).length) :
    runLine line stack =
      if (words (firstCommand line)).length ≤ 255 then
        match words (firstCommand line) with
        | [] => .error .nullArgument
        | name :: _ =>
          if name ∈ builtins then .ok (.builtin (words (firstCommand line)))
          else execExternalCommand (words (firstCommand line))
      else .error .outOfBounds := by
  have hlength : (pieces line).length ≤ 255 := by omega
  unfold runLine
  rw [parseLine_eq, if_pos hlength, ok_bind, if_neg hone]
  show (parseCommand (firstCommand line) >>= _) = _
  rw [parseCommand_eq]
  by_cases hwords : (words (firstCommand line)).length ≤ 255
  · rw [if_pos hwords, if_pos hwords]
    rfl
  · rw [if_neg hwords, if_neg hwords]
    rfl

theorem firstCommand_mem (h : firstCommand line ≠ []) : firstCommand line ∈ pieces line :=
  List.mem_filter.mpr ⟨head_mem_fields, decide_eq_true h⟩

theorem firstCommand_eq_nil_iff : firstCommand line = [] ↔ line = [] ∨ line.head? = some '|' := by
  unfold firstCommand
  cases line with
  | nil => exact iff_of_true rfl (.inl rfl)
  | cons c cs =>
    by_cases hc : c = '|'
    · rw [hc]
      exact iff_of_true (List.takeWhile_cons_of_neg (by simp)) (.inr rfl)
    · rw [List.takeWhile_cons_of_pos (by simpa using hc)]
      refine iff_of_false (List.cons_ne_nil _ _) ?_
      intro h
      rcases h with h | h
      · cases h
      · exact hc (Option.some.inj h)

theorem pieces_eq_of_mem {p : Str} (hone : ¬1 < (pieces line).length) (h : p ∈ pieces line) :
    pieces line = [p] := by
  have hpos := List.length_pos_of_mem h
  obtain ⟨q, hq⟩ := List.length_eq_one_iff.mp (show (pieces line).length = 1 by omega)
  rw [hq, List.mem_singleton] at h
  rw [hq, h]

/-- With at most one piece, a first command with a word is all there is. -/
theorem pieces_eq_of_words (hone : ¬1 < (pieces line).length) (h : words (firstCommand line) ≠ []) :
    pieces line = [firstCommand line] := by
  have hne : firstCommand line ≠ [] := by
    intro hnil
    rw [hnil] at h
    exact h rfl
  exact pieces_eq_of_mem hone (firstCommand_mem hne)

theorem words_of_mem_pieces (hone : ¬1 < (pieces line).length) (h : words (firstCommand line) ≠ []) :
    ∀ p ∈ pieces line, words p ≠ [] := by
  rw [pieces_eq_of_words hone h]
  exact List.forall_mem_singleton.mpr h

theorem plainCommand_iff (hone : ¬1 < (pieces line).length) :
    PlainCommand line ↔ words (firstCommand line) ≠ [] ∧ (words (firstCommand line)).length ≤ 255 ∧
      ∀ name ∈ (words (firstCommand line)).head?, name ∈ builtins →
        (words (firstCommand line)).getLast? ≠ some ampersand := by
  unfold PlainCommand
  constructor
  · intro ⟨hbar, p, hp, hcond⟩
    have hline : line ≠ [] := by
      intro hnil
      rw [hnil] at hp
      cases hp
    have hne : firstCommand line ≠ [] := fun hnil => (firstCommand_eq_nil_iff.mp hnil).elim hline hbar
    rw [pieces_eq_of_mem hone (firstCommand_mem hne), List.mem_singleton] at hp
    rw [← hp]
    exact hcond
  · intro hcond
    have hpieces := pieces_eq_of_words hone hcond.1
    refine ⟨?_, firstCommand line, hpieces ▸ List.mem_singleton_self _, hcond⟩
    intro hbar
    have hnil := firstCommand_eq_nil_iff.mpr (.inr hbar)
    rw [hnil] at hcond
    exact hcond.1 rfl

theorem segments_of_words (h : ∀ p ∈ pieces line, words p ≠ []) : segments line = pieces line := by
  rw [segments_eq, List.filter_eq_self]
  exact fun p hp => decide_eq_true (h p hp)

/-- A first command with a word is the only segment. -/
theorem segments_eq_of_words (hone : ¬1 < (pieces line).length) (h : words (firstCommand line) ≠ []) :
    segments line = [firstCommand line] := by
  rw [segments_of_words (words_of_mem_pieces hone h), pieces_eq_of_words hone h]

/-- The last segment is the last piece, if that has a word. -/
theorem getLast?_segments (hlast : (pieces line).getLast? = some command) (h : words command ≠ []) :
    ((segments line).map words).getLast? = some (words command) := by
  have hkept : [command].filter (fun s => words s ≠ []) = [command] := by
    apply List.filter_eq_self.mpr
    intro s hs
    rw [List.mem_singleton.mp hs]
    exact decide_eq_true h
  rw [segments_eq, ← List.dropLast_append_getLast? command hlast, List.filter_append, hkept, List.map_append,
    List.map_singleton]
  exact List.getLast?_concat

/-! ### What a line comes to -/

/-- What a line comes to when nothing goes wrong. -/
def outcome (line : Str) (stack : Cells) : Outcome :=
  let vectors := (segments line).map words
  if vectors.getLast? = some [ampersand] then .refused
  else
    match vectors with
    | [arguments] =>
      if ∃ name ∈ arguments.head?, name ∈ builtins then .builtin arguments
      else job [arguments] (fun _ => .null) 256
    | vectors => job vectors stack 1024

theorem ampersand_notMem_builtins : ampersand ∉ builtins := by decide

theorem outcome_command {name : Str} {rest : List Str} (hsegments : segments line = [command])
    (hwords : words command = name :: rest) :
    outcome line stack = if name :: rest = [ampersand] then .refused
      else if name ∈ builtins then .builtin (name :: rest)
      else job [name :: rest] (fun _ => .null) 256 := by
  have hhead : (∃ name' ∈ (name :: rest).head?, name' ∈ builtins) ↔ name ∈ builtins := by
    constructor
    · intro ⟨name', hname', hmem⟩
      rw [Option.some.inj hname']
      exact hmem
    · exact fun hmem => ⟨name, rfl, hmem⟩
  unfold outcome
  rw [hsegments, List.map_singleton, hwords]
  exact if_congr Option.some_inj rfl (if_congr hhead rfl rfl)

theorem outcome_pipeline (hone : 1 < (segments line).length)
    (hlast : ((segments line).map words).getLast? ≠ some [ampersand]) :
    outcome line stack = job ((segments line).map words) stack 1024 := by
  unfold outcome
  dsimp only
  rw [if_neg hlast]
  cases hsegments : segments line with
  | nil =>
    rw [hsegments] at hone
    exact absurd hone (by decide)
  | cons p ps =>
    cases ps with
    | nil =>
      rw [hsegments] at hone
      exact absurd hone (Nat.lt_irrefl 1)
    | cons q qs => rfl

theorem runLine_of_plainCommand (hone : ¬1 < (pieces line).length) (h : PlainCommand line) :
    runLine line stack = .ok (outcome line stack) := by
  obtain ⟨hne, hlength, -⟩ := (plainCommand_iff hone).mp h
  have hsegments := segments_eq_of_words hone hne
  rw [runLine_command hone, if_pos hlength]
  cases hwords : words (firstCommand line) with
  | nil => exact absurd hwords hne
  | cons name rest =>
    dsimp only
    rw [outcome_command hsegments hwords, execExternalCommand_eq (List.cons_ne_nil name rest)]
    by_cases halone : name :: rest = [ampersand]
    · have hno : name ∉ builtins := by
        rw [List.head_eq_of_cons_eq halone]
        exact ampersand_notMem_builtins
      rw [if_neg hno, if_pos halone, if_pos halone]
    · rw [if_neg halone, if_neg halone]
      by_cases hname : name ∈ builtins
      · rw [if_pos hname, if_pos hname]
      · rw [if_neg hname, if_neg hname]

/-- What a line without blank segments says. -/
theorem expected_of_words {last : List Str} (hwords : ∀ p ∈ pieces line, words p ≠ [])
    (hlast : ((pieces line).map words).getLast? = some last) :
    expected line = if last = [ampersand] then .refused
      else .run (dropAmpersand ((pieces line).map words)) := by
  have hne : (pieces line).map words ≠ [] := by
    intro hnil
    rw [hnil] at hlast
    cases hlast
  unfold expected
  rw [segments_of_words hwords]
  dsimp only
  rw [if_neg hne, hlast]
  exact if_congr Option.some_inj rfl rfl

/-- A line that is no plain command goes wrong, or hands a `&` to a built-in command. -/
theorem runLine_of_not_plainCommand (hone : ¬1 < (pieces line).length) (h : ¬PlainCommand line) :
    (∃ e, runLine line stack = .error e) ∨
      ∃ arguments, runLine line stack = .ok (.builtin arguments) ∧ expected line ≠ .run [arguments] := by
  rw [plainCommand_iff hone] at h
  rw [runLine_command hone]
  by_cases hlength : (words (firstCommand line)).length ≤ 255
  · rw [if_pos hlength]
    cases hwords : words (firstCommand line) with
    | nil => exact .inl ⟨_, rfl⟩
    | cons name rest =>
      have hne : words (firstCommand line) ≠ [] := by
        rw [hwords]
        exact List.cons_ne_nil name rest
      have hw := List.getLast?_eq_some_getLast (List.cons_ne_nil name rest)
      have hboth : name ∈ builtins ∧ (name :: rest).getLast (List.cons_ne_nil name rest) = ampersand := by
        by_contra hno
        apply h
        rw [hwords] at hne hlength ⊢
        refine ⟨hne, hlength, fun name' hname' hmem heq => hno ⟨?_, Option.some.inj (hw.symm.trans heq)⟩⟩
        rw [Option.some.inj hname']
        exact hmem
      refine .inr ⟨name :: rest, if_pos hboth.1, ?_⟩
      have halone : name :: rest ≠ [ampersand] := by
        intro heq
        rw [List.head_eq_of_cons_eq heq] at hboth
        exact ampersand_notMem_builtins hboth.1
      have hvectors : (pieces line).map words = [name :: rest] := by
        rw [pieces_eq_of_words hone hne, List.map_singleton, hwords]
      rw [expected_of_words (words_of_mem_pieces hone hne) (hvectors ▸ List.getLast?_singleton), if_neg halone, hvectors,
        dropAmpersand_eq List.getLast?_singleton hw, decide_eq_true hboth.2, if_pos rfl]
      -- the vector without its last word is shorter
      intro heq
      have hlengths := congrArg List.length (List.head_eq_of_cons_eq (Run.run.inj heq))
      rw [List.length_dropLast, List.length_cons] at hlengths
      omega
  · rw [if_neg hlength]
    exact .inl ⟨_, rfl⟩

theorem exists_last (hone : 1 < (pieces line).length) :
    ∃ command, (pieces line).getLast? = some command := by
  have hne : pieces line ≠ [] := by
    intro hnil
    rw [hnil] at hone
    exact absurd hone (by decide)
  exact ⟨_, List.getLast?_eq_some_getLast hne⟩

theorem plainPipeline_iff (hlast : (pieces line).getLast? = some command)
    (halone : words command ≠ [ampersand]) :
    PlainPipeline line ↔ (∀ p ∈ pieces line, (words p).length ≤ 255) ∧ (∀ p ∈ pieces line, words p ≠ []) ∧
      (typed ((pieces line).map words)).length ≤ 1024 := by
  unfold PlainPipeline
  rw [hlast, or_iff_right fun h => halone (h command rfl), forall₂_and, and_assoc, and_left_comm]
  exact Iff.rfl

theorem runLine_of_plainPipeline (hone : 1 < (pieces line).length) (hlength : (pieces line).length ≤ 255)
    (h : PlainPipeline line) : runLine line stack = .ok (outcome line stack) := by
  obtain ⟨command, hlast⟩ := exists_last hone
  rw [runLine_pipeline hone hlength]
  by_cases halone : words command = [ampersand]
  · have hvectors := getLast?_segments hlast (by rw [halone]; exact List.cons_ne_nil _ _)
    rw [halone] at hvectors
    rw [execExternalJob_refused hlast halone]
    exact congrArg Except.ok (if_pos hvectors).symm
  · obtain ⟨hall, hwords, hfits⟩ := (plainPipeline_iff hlast halone).mp h
    have hmem : command ∈ pieces line := List.mem_of_getLast? hlast
    have hvectors := getLast?_map_words hlast
    have hnil : [] ∉ dropAmpersand ((pieces line).map words) := by
      rw [nil_mem_dropAmpersand hvectors (hwords command hmem) halone, List.mem_map]
      exact fun ⟨p, hp, heq⟩ => hwords p hp heq
    have hsegments := segments_of_words hwords
    rw [execExternalJob_eq hlast (hwords command hmem) halone hall, if_neg (not_lt.mpr hfits), if_neg hnil,
      outcome_pipeline (by rw [hsegments]; exact hone), hsegments]
    rw [hsegments, hvectors]
    exact fun heq => halone (Option.some.inj heq)

theorem runLine_of_not_plainPipeline (hone : 1 < (pieces line).length)
    (hlength : (pieces line).length ≤ 255) (h : ¬PlainPipeline line) :
    ∃ e, runLine line stack = .error e := by
  obtain ⟨command, hlast⟩ := exists_last hone
  have halone : words command ≠ [ampersand] := by
    intro halone
    apply h
    unfold PlainPipeline
    rw [hlast]
    exact .inl fun p hp => Option.some.inj hp ▸ halone
  have hvectors := getLast?_map_words hlast
  rw [plainPipeline_iff hlast halone] at h
  rw [runLine_pipeline hone hlength]
  by_cases hwords : words command = []
  · exact execExternalJob_fault hlast halone (.inl hwords)
  · by_cases hall : ∀ p ∈ pieces line, (words p).length ≤ 255
    · rw [execExternalJob_eq hlast hwords halone hall]
      by_cases hlong : 1024 < (typed ((pieces line).map words)).length
      · rw [if_pos hlong]
        exact ⟨_, rfl⟩
      · have hblank : [] ∈ dropAmpersand ((pieces line).map words) := by
          rw [nil_mem_dropAmpersand hvectors hwords halone, List.mem_map]
          by_contra hno
          exact h ⟨hall, fun p hp heq => hno ⟨p, hp, heq⟩, not_lt.mp hlong⟩
        rw [if_neg hlong, if_pos hblank]
        exact ⟨_, rfl⟩
    · exact execExternalJob_fault hlast halone (.inr hall)

/-- **A plain line** comes to its outcome. -/
theorem runLine_of_plain (h : Plain line) : runLine line stack = .ok (outcome line stack) := by
  obtain ⟨hlength, hplain⟩ := h
  by_cases hone : 1 < (pieces line).length
  · rw [if_pos hone] at hplain
    exact runLine_of_plainPipeline hone hlength hplain
  · rw [if_neg hone] at hplain
    exact runLine_of_plainCommand hone hplain

/-- **Any other line** goes wrong, or hands a `&` to a built-in command. -/
theorem runLine_of_not_plain (stack : Cells) (h : ¬Plain line) :
    (∃ e, runLine line stack = .error e) ∨
      ∃ arguments, runLine line stack = .ok (.builtin arguments) ∧ expected line ≠ .run [arguments] := by
  by_cases hlength : (pieces line).length ≤ 255
  · have hplain : ¬if 1 < (pieces line).length then PlainPipeline line else PlainCommand line :=
      fun hplain => h ⟨hlength, hplain⟩
    by_cases hone : 1 < (pieces line).length
    · rw [if_pos hone] at hplain
      exact .inl (runLine_of_not_plainPipeline hone hlength hplain)
    · rw [if_neg hone] at hplain
      exact runLine_of_not_plainCommand hone hplain
  · exact .inl ⟨_, runLine_long hlength⟩

/-- What a plain line comes to is what it says. -/
theorem run_outcome (h : Plain line) : (outcome line stack).run = expected line := by
  obtain ⟨-, hplain⟩ := h
  by_cases halone : ((segments line).map words).getLast? = some [ampersand]
  · have hne : (segments line).map words ≠ [] := by
      intro hnil
      rw [hnil] at halone
      cases halone
    have houtcome : outcome line stack = .refused := if_pos halone
    have hexpected : expected line = .refused := (if_neg hne).trans (if_pos halone)
    rw [houtcome, hexpected]
    rfl
  · by_cases hone : 1 < (pieces line).length
    · rw [if_pos hone] at hplain
      obtain ⟨command, hlast⟩ := exists_last hone
      have hcommand : words command ≠ [ampersand] := by
        intro heq
        apply halone
        rw [getLast?_segments hlast (by rw [heq]; exact List.cons_ne_nil _ _), heq]
      obtain ⟨-, hwords, -⟩ := (plainPipeline_iff hlast hcommand).mp hplain
      have hvectors := getLast?_map_words hlast
      have hsegments := segments_of_words hwords
      rw [outcome_pipeline (by rw [hsegments]; exact hone) halone, expected_of_words hwords hvectors,
        if_neg hcommand, hsegments]
      rfl
    · rw [if_neg hone, plainCommand_iff hone] at hplain
      obtain ⟨hne, -, hbuiltin⟩ := hplain
      have hsegments := segments_eq_of_words hone hne
      have hvectors : (pieces line).map words = [words (firstCommand line)] := by
        rw [pieces_eq_of_words hone hne, List.map_singleton]
      rw [hsegments, List.map_singleton, List.getLast?_singleton] at halone
      rw [expected_of_words (words_of_mem_pieces hone hne) (hvectors ▸ List.getLast?_singleton),
        if_neg fun heq => halone (congrArg some heq), hvectors]
      cases hwords : words (firstCommand line) with
      | nil => exact absurd hwords hne
      | cons name rest =>
        rw [hwords] at halone hbuiltin
        rw [outcome_command hsegments hwords, if_neg fun heq => halone (congrArg some heq)]
        by_cases hname : name ∈ builtins
        · have hw := List.getLast?_eq_some_getLast (List.cons_ne_nil name rest)
          have hlast : (name :: rest).getLast (List.cons_ne_nil name rest) ≠ ampersand :=
            fun heq => hbuiltin name rfl hname (hw.trans (congrArg some heq))
          rw [if_pos hname, dropAmpersand_eq List.getLast?_singleton hw, decide_eq_false hlast,
            if_neg Bool.false_ne_true]
          rfl
        · rw [if_neg hname]
          rfl

/-! ### Where the two agree -/

/-- The vectors that are handed over are those that the line says, and nothing goes wrong. -/
def Agrees (line : Str) (stack : Cells) : Prop := (runLine line stack).map Outcome.run = .ok (expected line)

/-- **Which lines are run as they say.** -/
theorem agrees_iff_plain (line : Str) (stack : Cells) : Agrees line stack ↔ Plain line := by
  unfold Agrees
  by_cases h : Plain line
  · refine iff_of_true ?_ h
    rw [runLine_of_plain h, ← run_outcome h]
    rfl
  · refine iff_of_false ?_ h
    intro hagrees
    rcases runLine_of_not_plain stack h with ⟨e, he⟩ | ⟨arguments, heq, hne⟩
    · rw [he] at hagrees
      cases hagrees
    · rw [heq] at hagrees
      exact hne (Except.ok.inj hagrees).symm

/-- An empty line compares a null pointer with the names of the built-in commands. -/
theorem not_agrees_empty : ¬∃ stack, Agrees [] stack := by
  intro ⟨stack, h⟩
  have hfault : runLine [] stack = .error .nullArgument := rfl
  unfold Agrees at h
  rw [hfault] at h
  cases h

end OperatingSystems.Shell.Lines
