import OperatingSystems.Shell.Lines

/-!
# The words that a job remembers

`storeJobInfo` copies an array up to its null pointer into a structure on the stack, and the built-in command
`jobs` prints that structure up to a null pointer.  Neither array is cleared before it is used, and the copy
writes no null pointer.

* **`remembered`** — the words that `jobs` prints for the job of a line, for any former contents of the arrays.
* **`remembered_iff`** — when they are those of the line.
-/

namespace OperatingSystems.Shell.Lines

open Outcomes

/-! ### Storing and printing -/

/-- A loop over an array up to its null pointer, with this many elements before the end of the array. -/
def readWords (arguments : Cells) : ℕ → ℕ → Except Fault (List Str)
  | 0, _ => .error .outOfBounds
  | n + 1, i =>
    match arguments i with
    | .null => .ok []
    | .wild => .error .wildPointer
    | .word w => do
      let ws ← readWords arguments n (i + 1)
      .ok (w :: ws)

/-- `storeJobInfo`, where `old` is in the array of the structure before. -/
def storeJobInfo (arguments : Cells) (size : ℕ) (old : Cells) : Except Fault Cells := do
  let copied ← readWords arguments size 0
  if 1024 < copied.length then .error .outOfBounds else .ok (fill copied old)

/-- The words that `execJobsCommand` prints for a job; the first is printed without a test. -/
def execJobsCommand (arguments : Cells) : Except Fault (List Str) :=
  match arguments 0 with
  | .wild => .error .wildPointer
  | .null => do
    let ws ← readWords arguments 1023 1
    .ok (['(', 'n', 'u', 'l', 'l', ')'] :: ws)
  | .word w => do
    let ws ← readWords arguments 1023 1
    .ok (w :: ws)

/-- What is printed for the job of a line, if it has one that is stored: it is started in the background, or
stopped in the foreground. -/
def remembered (line : Str) (stack old : Cells) : Except Fault (Option (List Str)) := do
  match ← runLine line stack with
  | .external _ _ arguments size =>
    let stored ← storeJobInfo arguments size old
    let printed ← execJobsCommand stored
    .ok (some printed)
  | .builtin _ => .ok none
  | .refused => .ok none

/-! ### Specification -/

/-- **The words of a job**: its segments, with a bar between two of them, without a final `&`. -/
def jobWords (line : Str) : List Str := [bar].intercalate (dropAmpersand ((segments line).map words))

/-- There is a command before a final `&`, and the line is not that of a built-in command. -/
def StartsJob (line : Str) : Prop :=
  ((segments line).map words).getLast? ≠ some [ampersand] ∧
    ∀ p, segments line = [p] → ∀ name ∈ (words p).head?, name ∉ builtins

variable {ws rest : List Str} {cells cells' base old stack : Cells} {line : Str} {i n size : ℕ}

/-! ### Reading arrays -/

theorem fill_of_lt (old : Cells) (h : i < ws.length) : fill ws old i = .word ws[i] := by
  unfold fill
  rw [List.getElem?_eq_getElem h]

theorem fill_of_le (h : ws.length ≤ i) : fill ws old i = old i := by
  unfold fill
  rw [List.getElem?_eq_none h]

theorem readWords_word {w : Str} (h : cells i = .word w) :
    readWords cells (n + 1) i = (readWords cells n (i + 1) >>= fun ws => .ok (w :: ws)) := by
  rw [readWords, h]

theorem readWords_congr (h : ∀ j, i ≤ j → cells j = cells' j) : readWords cells n i = readWords cells' n i := by
  induction n generalizing i with
  | zero => rfl
  | succ n ih =>
    rw [readWords, readWords, h i le_rfl, ih fun j hj => h j (Nat.le_of_succ_le hj)]

/-- The words in front are read one by one. -/
theorem readWords_front (h : ∀ j (hj : j < ws.length), cells (i + j) = .word ws[j]) :
    readWords cells (ws.length + n) i =
      (readWords cells n (i + ws.length) >>= fun rest => .ok (ws ++ rest)) := by
  induction ws generalizing i with
  | nil =>
    rw [List.length_nil, Nat.zero_add, Nat.add_zero]
    exact (bind_pure _).symm
  | cons w ws ih =>
    have hfirst : cells i = .word w := h 0 (Nat.succ_pos _)
    have hnext : ∀ j (hj : j < ws.length), cells (i + 1 + j) = .word ws[j] := by
      intro j hj
      rw [Nat.add_assoc, Nat.add_comm 1 j]
      exact h (j + 1) (Nat.succ_lt_succ hj)
    rw [List.length_cons, Nat.add_right_comm, readWords_word hfirst, ih hnext, Nat.add_assoc i 1,
      Nat.add_comm 1 ws.length]
    cases readWords cells n (i + (ws.length + 1)) with
    | error e => rfl
    | ok rest => rfl

/-- **An array filled with words** is read on into what was there before. -/
theorem readWords_fill (h : ws.length ≤ n) :
    readWords (fill ws old) n 0 =
      (readWords old (n - ws.length) ws.length >>= fun rest => .ok (ws ++ rest)) := by
  have hwords : ∀ j (hj : j < ws.length), fill ws old (0 + j) = .word ws[j] := by
    intro j hj
    rw [Nat.zero_add]
    exact fill_of_lt old hj
  have hfront := readWords_front hwords (n := n - ws.length)
  have hbehind : readWords (fill ws old) (n - ws.length) ws.length = readWords old (n - ws.length) ws.length :=
    readWords_congr fun j hj => fill_of_le hj
  rw [Nat.add_sub_cancel' h, Nat.zero_add] at hfront
  rw [hfront, hbehind]

theorem readWords_eq_nil_iff : readWords cells n i = .ok [] ↔ 0 < n ∧ cells i = .null := by
  cases n with
  | zero => exact iff_of_false (fun h => by cases h) fun h => Nat.lt_irrefl 0 h.1
  | succ n =>
    rw [and_iff_right (Nat.succ_pos n), readWords]
    cases cells i with
    | null => exact iff_of_true rfl rfl
    | wild => exact iff_of_false (fun h => by cases h) fun h => by cases h
    | word w =>
      refine iff_of_false ?_ fun h => by cases h
      intro h
      obtain ⟨rest, -, heq⟩ := bind_eq_ok h
      cases heq

theorem length_of_readWords (h : readWords cells n i = .ok ws) : ws.length < n := by
  induction n generalizing i ws with
  | zero => cases h
  | succ n ih =>
    rw [readWords] at h
    cases hcell : cells i with
    | null =>
      rw [hcell] at h
      rw [← Except.ok.inj h]
      exact Nat.succ_pos n
    | wild =>
      rw [hcell] at h
      cases h
    | word w =>
      rw [hcell] at h
      obtain ⟨rest, hrest, heq⟩ := bind_eq_ok h
      rw [← Except.ok.inj heq]
      exact Nat.succ_lt_succ (ih hrest)

/-- The null pointer stored over the last word ends the array before it. -/
theorem setNull_fill (h : ws ≠ []) :
    setNull (fill ws base) (ws.length - 1) = fill ws.dropLast (setNull base (ws.length - 1)) := by
  have hlength := List.length_pos_iff.mpr h
  funext j
  unfold setNull
  by_cases hj : j = ws.length - 1
  · rw [hj, Function.update_self, fill_of_le (by rw [List.length_dropLast]), Function.update_self]
  · rw [Function.update_of_ne hj]
    by_cases hlt : j < ws.length - 1
    · have hdrop : j < ws.dropLast.length := by rw [List.length_dropLast]; exact hlt
      rw [fill_of_lt base (by omega), fill_of_lt _ hdrop, List.getElem_dropLast]
    · rw [fill_of_le (by omega), fill_of_le (by rw [List.length_dropLast]; omega), Function.update_of_ne hj]

/-! ### Words of a line -/

/-- The last segment ends the words of the line. -/
theorem typed_concat (vectors : List (List Str)) :
    ∃ front, ∀ last, typed (vectors ++ [last]) = front ++ last := by
  induction vectors with
  | nil => exact ⟨[], fun last => List.intercalate_singleton⟩
  | cons v vs ih =>
    obtain ⟨front, hfront⟩ := ih
    refine ⟨v ++ [bar] ++ front, fun last => ?_⟩
    have hne : vs ++ [last] ≠ [] := List.append_ne_nil_of_right_ne_nil vs (List.cons_ne_nil last [])
    show [bar].intercalate (v :: (vs ++ [last])) = _
    rw [List.intercalate_cons_of_ne_nil hne, List.append_assoc _ front]
    exact congrArg (v ++ [bar] ++ ·) (hfront last)

/-- Without its `&` a job has one word less than was typed. -/
theorem typed_dropAmpersand {vectors : List (List Str)} {last : List Str} (hlast : vectors.getLast? = some last)
    (hne : last ≠ []) :
    typed (dropAmpersand vectors) =
      if isBackground vectors then (typed vectors).dropLast else typed vectors := by
  have hw := List.getLast?_eq_some_getLast hne
  obtain ⟨front, hfront⟩ := typed_concat vectors.dropLast
  have hsplit : vectors.dropLast ++ [last] = vectors := List.dropLast_append_getLast? last hlast
  rw [dropAmpersand_eq hlast hw, isBackground_eq hlast hw]
  split
  · have htyped := hfront last
    rw [hsplit] at htyped
    rw [hfront, htyped, List.dropLast_append_of_ne_nil hne]
  · rfl

/-! ### Storing and printing together -/

/-- What is read behind the words of the job is stored with them, and what the structure held behind these is
printed with them. -/
theorem store_print_iff {arguments : Cells} {read : Except Fault (List Str)} (hws : ws ≠ [])
    (hsize : size ≤ 1024)
    (hread : readWords arguments size 0 = (read >>= fun rest => .ok (ws ++ rest))) :
    (storeJobInfo arguments size old >>= execJobsCommand) = .ok ws ↔
      read = .ok [] ∧ ws.length < 1024 ∧ old ws.length = .null := by
  unfold storeJobInfo
  cases read with
  | error e =>
    rw [hread]
    exact iff_of_false (fun h => by cases h) fun h => by cases h.1
  | ok rest =>
    have hcopied : readWords arguments size 0 = .ok (ws ++ rest) := hread
    have hlength := length_of_readWords hcopied
    have hroom : ¬1024 < (ws ++ rest).length := by omega
    have hne : ws ++ rest ≠ [] := List.append_ne_nil_of_left_ne_nil hws rest
    have hfirst : execJobsCommand (fill (ws ++ rest) old) = readWords (fill (ws ++ rest) old) 1024 0 := by
      have hcell := fill_of_lt old (List.length_pos_iff.mpr hne)
      unfold execJobsCommand
      rw [readWords_word hcell, hcell]
    rw [hcopied, ok_bind, if_neg hroom, ok_bind, hfirst, readWords_fill (not_lt.mp hroom)]
    constructor
    · intro h
      obtain ⟨more, hmore, heq⟩ := bind_eq_ok h
      have hlengths := congrArg List.length (Except.ok.inj heq)
      rw [List.length_append, List.length_append] at hlengths
      have hrest : rest = [] := List.eq_nil_of_length_eq_zero (by omega)
      have hmore' : more = [] := List.eq_nil_of_length_eq_zero (by omega)
      rw [hrest, hmore', List.append_nil] at hmore
      obtain ⟨hpos, hnull⟩ := readWords_eq_nil_iff.mp hmore
      exact ⟨congrArg Except.ok hrest, by omega, hnull⟩
    · intro ⟨hnil, hlt, hnull⟩
      rw [Except.ok.inj hnil, List.append_nil]
      have hend : readWords old (1024 - ws.length) ws.length = .ok [] :=
        readWords_eq_nil_iff.mpr ⟨by omega, hnull⟩
      rw [hend, ok_bind, List.append_nil]

/-- **A job that is stored and printed**: what is behind its words in both arrays. -/
theorem job_iff {vectors : List (List Str)} {last : List Str} (hlast : vectors.getLast? = some last)
    (hne : last ≠ []) (halone : last ≠ [ampersand]) (hfits : (typed vectors).length ≤ size)
    (hsize : size ≤ 1024) :
    (storeJobInfo (if isBackground vectors then setNull (fill (typed vectors) base) ((typed vectors).length - 1)
        else fill (typed vectors) base) size old >>= execJobsCommand) = .ok (typed (dropAmpersand vectors)) ↔
      (typed (dropAmpersand vectors)).length < 1024 ∧ old (typed (dropAmpersand vectors)).length = .null ∧
        (isBackground vectors = false → (typed (dropAmpersand vectors)).length < size ∧
          base (typed (dropAmpersand vectors)).length = .null) := by
  obtain ⟨front, hfront⟩ := typed_concat vectors.dropLast
  have htyped := hfront last
  rw [List.dropLast_append_getLast? last hlast] at htyped
  have hpos := List.length_pos_iff.mpr hne
  have hlength : (typed vectors).length = front.length + last.length := by
    rw [htyped, List.length_append]
  have htypedne : typed vectors ≠ [] := List.length_pos_iff.mp (by omega)
  rw [typed_dropAmpersand hlast hne]
  cases hback : isBackground vectors with
  | true =>
    have htwo : last.length ≠ 1 := by
      intro hone
      obtain ⟨w, hw⟩ := List.length_eq_one_iff.mp hone
      rw [hw] at hlast
      rw [isBackground_eq hlast List.getLast?_singleton, decide_eq_true_iff] at hback
      rw [hw, hback] at halone
      exact halone rfl
    have hdrop : (typed vectors).dropLast ≠ [] := by
      apply List.length_pos_iff.mp
      rw [List.length_dropLast]
      omega
    have hread : readWords (setNull base ((typed vectors).length - 1))
        (size - (typed vectors).dropLast.length) (typed vectors).dropLast.length = .ok [] := by
      rw [readWords_eq_nil_iff, List.length_dropLast]
      exact ⟨by omega, Function.update_self ..⟩
    have hdroplength : (typed vectors).dropLast.length ≤ size := by
      rw [List.length_dropLast]
      omega
    rw [if_pos rfl, if_pos rfl, setNull_fill htypedne,
      store_print_iff hdrop hsize (readWords_fill hdroplength), and_iff_right hread]
    refine and_congr_right fun _ => (and_iff_left ?_).symm
    intro h
    cases h
  | false =>
    rw [if_neg Bool.false_ne_true, if_neg Bool.false_ne_true,
      store_print_iff htypedne hsize (readWords_fill hfits), readWords_eq_nil_iff, Nat.sub_pos_iff_lt,
      forall_prop_of_true rfl]
    exact and_rotate

/-! ### Jobs of lines -/

/-- A plain line that starts a job: its last segment, and the array that its words are in. -/
theorem outcome_job (stack : Cells) (hplain : Plain line) (hjob : StartsJob line) :
    ∃ base size last, outcome line stack = job ((segments line).map words) base size ∧
      ((segments line).map words).getLast? = some last ∧ last ≠ [] ∧ last ≠ [ampersand] ∧
      (typed ((segments line).map words)).length ≤ size ∧ size ≤ 1024 ∧
      ((1 < (pieces line).length ∧ base = stack ∧ size = 1024) ∨
        (¬1 < (pieces line).length ∧ base = (fun _ => .null) ∧
          (typed ((segments line).map words)).length < size)) := by
  obtain ⟨-, hplain⟩ := hplain
  by_cases hone : 1 < (pieces line).length
  · rw [if_pos hone] at hplain
    obtain ⟨command, hlast⟩ := exists_last hone
    have halone : words command ≠ [ampersand] := by
      intro heq
      apply hjob.1
      rw [getLast?_segments hlast (by rw [heq]; exact List.cons_ne_nil _ _), heq]
    obtain ⟨-, hwords, hfits⟩ := (plainPipeline_iff hlast halone).mp hplain
    have hne := hwords command (List.mem_of_getLast? hlast)
    have hsegments := segments_of_words hwords
    refine ⟨stack, 1024, words command, outcome_pipeline (by rw [hsegments]; exact hone) hjob.1,
      getLast?_segments hlast hne, hne, halone, ?_, le_rfl, .inl ⟨hone, rfl, rfl⟩⟩
    rw [hsegments]
    exact hfits
  · rw [if_neg hone, plainCommand_iff hone] at hplain
    obtain ⟨hne, hlength, -⟩ := hplain
    have hsegments := segments_eq_of_words hone hne
    have hvectors : (segments line).map words = [words (firstCommand line)] := by
      rw [hsegments, List.map_singleton]
    have htyped : typed ((segments line).map words) = words (firstCommand line) := by
      rw [hvectors]
      exact List.intercalate_singleton
    have halone : words (firstCommand line) ≠ [ampersand] := by
      intro heq
      apply hjob.1
      rw [hvectors, heq]
      rfl
    refine ⟨fun _ => .null, 256, words (firstCommand line), ?_, by rw [hvectors]; rfl, hne, halone, ?_, by decide,
      .inr ⟨hone, rfl, ?_⟩⟩
    · cases hwords : words (firstCommand line) with
      | nil => exact absurd hwords hne
      | cons name rest =>
        have hname : name ∉ builtins :=
          hjob.2 (firstCommand line) hsegments name (by rw [hwords]; rfl)
        rw [hwords] at halone
        rw [hvectors, outcome_command hsegments hwords, if_neg halone, if_neg hname, hwords]
    · rw [htyped]
      omega
    · rw [htyped]
      omega

/-- A plain line that starts no job is refused or that of a built-in command. -/
theorem outcome_of_not_job (stack : Cells) (hjob : ¬StartsJob line) :
    outcome line stack = .refused ∨ ∃ arguments, outcome line stack = .builtin arguments := by
  by_cases halone : ((segments line).map words).getLast? = some [ampersand]
  · exact .inl (if_pos halone)
  · have hbuiltin : ∃ p, segments line = [p] ∧ ∃ name ∈ (words p).head?, name ∈ builtins := by
      by_contra hno
      apply hjob
      exact ⟨halone, fun p hp name hname hmem => hno ⟨p, hp, name, hname, hmem⟩⟩
    obtain ⟨p, hp, hname⟩ := hbuiltin
    refine .inr ⟨words p, ?_⟩
    unfold outcome
    rw [hp] at halone ⊢
    exact (if_neg halone).trans (if_pos hname)

/-- **When a job remembers its command line**: the line is run as it says, and the elements behind the last
word happen to be null. -/
theorem remembered_iff (line : Str) (stack old : Cells) :
    remembered line stack old = .ok (some (jobWords line)) ↔
      (Plain line ∧ StartsJob line) ∧ (jobWords line).length < 1024 ∧ old (jobWords line).length = .null ∧
        (1 < (pieces line).length → isBackground ((segments line).map words) = false →
          stack (jobWords line).length = .null) := by
  unfold remembered
  by_cases hplain : Plain line
  · rw [runLine_of_plain hplain, ok_bind, and_iff_right hplain]
    by_cases hjob : StartsJob line
    · obtain ⟨base, size, last, houtcome, hlast, hne, halone, hfits, hsize, harray⟩ :=
        outcome_job stack hplain hjob
      have hprinted : ∀ printed : Except Fault (List Str),
          (printed >>= fun ws => Except.ok (some ws)) = .ok (some (jobWords line)) ↔
            printed = .ok (jobWords line) := by
        intro printed
        cases printed with
        | error e => exact iff_of_false (fun h => by cases h) fun h => by cases h
        | ok ws =>
          rw [ok_bind, Except.ok.injEq, Except.ok.injEq]
          exact Option.some_inj
      have hassoc : ∀ arguments, (storeJobInfo arguments size old >>= fun stored =>
          execJobsCommand stored >>= fun printed => Except.ok (some printed)) =
          ((storeJobInfo arguments size old >>= execJobsCommand) >>= fun printed => .ok (some printed)) :=
        fun arguments => (bind_assoc _ _ _).symm
      rw [houtcome, and_iff_right hjob]
      unfold job
      dsimp only
      rw [hassoc, hprinted]
      show _ = Except.ok (typed (dropAmpersand ((segments line).map words))) ↔ _
      rw [job_iff hlast hne halone hfits hsize]
      refine and_congr_right fun hlt => and_congr_right fun _ => ?_
      rcases harray with ⟨hone, rfl, rfl⟩ | ⟨hone, rfl, hfits⟩
      · rw [forall_prop_of_true hone]
        exact forall_congr' fun _ => and_iff_right hlt
      · refine iff_of_true ?_ fun hmany => absurd hmany hone
        intro hforeground
        rw [typed_dropAmpersand hlast hne, hforeground]
        exact ⟨hfits, rfl⟩
    · rcases outcome_of_not_job stack hjob with heq | ⟨arguments, heq⟩
      · rw [heq]
        exact iff_of_false (fun h => by cases h) fun h => hjob h.1
      · rw [heq]
        exact iff_of_false (fun h => by cases h) fun h => hjob h.1
  · refine iff_of_false ?_ fun h => hplain h.1.1
    rcases runLine_of_not_plain stack hplain with ⟨e, he⟩ | ⟨arguments, heq, -⟩
    · rw [he]
      exact fun h => by cases h
    · rw [heq]
      exact fun h => by cases h

/-- The structure held another word behind the place of the first one. -/
def leftover : Cells := fill [['w'], ['x']] fun _ => .null

/-- For `ls &` that word is printed as well. -/
theorem remembered_leftover :
    remembered ['l', 's', ' ', '&'] (fun _ => .null) leftover = .ok (some [['l', 's'], ['x']]) ∧
      jobWords ['l', 's', ' ', '&'] = [['l', 's']] :=
  ⟨rfl, rfl⟩

end OperatingSystems.Shell.Lines
