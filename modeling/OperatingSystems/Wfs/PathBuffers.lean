import OperatingSystems.Lib.Outcomes
import OperatingSystems.Lib.StringBlocks
import OperatingSystems.Wfs.Paths

/-!
# The buffers that paths are copied to

`wfs_mknod` and `wfs_mkdir` copy the path into `char path_copy[MAX_PATH_NAME_LEN]` and cut it into the
two arrays of a `struct wfs_path_info`; `find_log_entry_by_path` copies it to take it apart with
`strtok_r`.  Here every access goes to a block of the size that the source declares.

* **`separateBlocks`**, **`strtokBlock`** — the two functions on blocks.
* **`separatePath_eq`**, **`tokenisePath_eq`** — on a path that leaves room for its NUL they stay inside
  and do what `separate_path_and_file` and `tokens` say.
* **`path_split_exact_iff`** — when the parts are exact.
-/

namespace OperatingSystems.Wfs

open StringBlocks Outcomes

/-- `struct wfs_path_info` in memory. -/
structure PathBlocks where
  filename : List UInt8
  parent_path : List UInt8
deriving DecidableEq, Repr

/-- `n` bytes of a stack frame that hold anything. -/
def uninitialised (stack : ℕ → UInt8) (offset n : ℕ) : List UInt8 :=
  (List.range n).map fun i => stack (offset + i)

/-- `separate_path_and_file`, for a pointer into a block. -/
def separateBlocks (path : List UInt8) (info : PathBlocks) : Except Overrun PathBlocks := do
  let s ← readString path
  match strrchr s with
  | some (parent, _) => do
    let path_len := parent.length
    let parent_path ← strncpy info.parent_path path path_len
    let parent_path ← store parent_path path_len 0
    let filename ← strncpy info.filename (path.drop (path_len + 1)) (MAX_FILE_NAME_LEN - 1)
    let filename ← store filename (MAX_FILE_NAME_LEN - 1) 0
    return ⟨filename, parent_path⟩
  | none => do
    let parent_path ← strncpy info.parent_path [slash, 0] 2
    let filename ← strncpy info.filename path (MAX_FILE_NAME_LEN - 1)
    let filename ← store filename (MAX_FILE_NAME_LEN - 1) 0
    return ⟨filename, parent_path⟩

/-- The calls of `strtok_r(path_copy, "/", &saveptr)` up to the null pointer; `acc` has been read of the
current token. -/
def strtokBlock : Str → List UInt8 → Except Overrun (List Str)
  | _, [] => .error .read
  | [], c :: rest =>
    if c = 0 then .ok []
    else if c = slash then strtokBlock [] rest
    else strtokBlock [c] rest
  | a :: acc, c :: rest =>
    if c = 0 then .ok [(a :: acc).reverse]
    else if c = slash then do
      let ts ← strtokBlock [] rest
      return (a :: acc).reverse :: ts
    else strtokBlock (c :: a :: acc) rest

/-- `char path_copy[MAX_PATH_NAME_LEN]; strncpy(path_copy, path, MAX_PATH_NAME_LEN)` -/
def copyPath (stack : ℕ → UInt8) (path : Str) : Except Overrun (List UInt8) :=
  strncpy (uninitialised stack 0 MAX_PATH_NAME_LEN) (path ++ [0]) MAX_PATH_NAME_LEN

/-- What `wfs_mknod` and `wfs_mkdir` do with the path. -/
def separatePath (stack : ℕ → UInt8) (path : Str) : Except Overrun PathBlocks := do
  let path_copy ← copyPath stack path
  separateBlocks path_copy
    ⟨uninitialised stack MAX_PATH_NAME_LEN MAX_FILE_NAME_LEN,
      uninitialised stack (MAX_PATH_NAME_LEN + MAX_FILE_NAME_LEN) MAX_PATH_NAME_LEN⟩

/-- What `find_log_entry_by_path` does with it. -/
def tokenisePath (stack : ℕ → UInt8) (path : Str) : Except Overrun (List Str) := do
  let path_copy ← copyPath stack path
  strtokBlock [] path_copy

/-! ### A path with room for its NUL -/

theorem length_uninitialised (stack : ℕ → UInt8) (offset n : ℕ) :
    (uninitialised stack offset n).length = n := by
  rw [uninitialised, List.length_map, List.length_range]

variable {path : Str}

/-- The copy of a short path has its NUL. -/
theorem copyPath_short (stack : ℕ → UInt8) (hnul : 0 ∉ path) (hlen : path.length < MAX_PATH_NAME_LEN) :
    ∃ junk, copyPath stack path = .ok (path ++ 0 :: junk) := by
  obtain ⟨k, hk⟩ : ∃ k, MAX_PATH_NAME_LEN - path.length = k + 1 :=
    ⟨MAX_PATH_NAME_LEN - path.length - 1, by omega⟩
  refine ⟨List.replicate k 0 ++ (uninitialised stack 0 MAX_PATH_NAME_LEN).drop MAX_PATH_NAME_LEN, ?_⟩
  rw [copyPath, strncpy_string hnul (length_uninitialised _ _ _).ge, hk, List.take_of_length_le hlen.le,
    List.replicate_succ, List.append_assoc]
  rfl

/-- The copy of a path of 128 characters has none. -/
theorem copyPath_full (stack : ℕ → UInt8) (hnul : 0 ∉ path) (hlen : path.length = MAX_PATH_NAME_LEN) :
    copyPath stack path = .ok path := by
  rw [copyPath, strncpy_string hnul (length_uninitialised _ _ _).ge, hlen, Nat.sub_self,
    List.replicate_zero, List.append_nil, ← hlen, List.take_length, hlen, List.drop_of_length_le,
    List.append_nil]
  rw [length_uninitialised]

theorem strtokBlock_string {s : Str} (hnul : 0 ∉ s) (acc : Str) (junk : List UInt8) :
    strtokBlock acc (s ++ 0 :: junk) = .ok (strtok acc s) := by
  induction s generalizing acc with
  | nil => cases acc <;> rfl
  | cons c s ih =>
    rw [List.mem_cons, not_or] at hnul
    have hc : c ≠ 0 := fun h => hnul.1 h.symm
    cases acc with
    | nil =>
      rw [List.cons_append, strtokBlock, strtok, if_neg hc]
      split
      · exact ih hnul.2 []
      · exact ih hnul.2 [c]
    | cons a acc =>
      rw [List.cons_append, strtokBlock, strtok, if_neg hc]
      split
      · rw [ih hnul.2 []]
        rfl
      · exact ih hnul.2 (c :: a :: acc)

theorem strtokBlock_unterminated {block : List UInt8} (hnul : 0 ∉ block) (acc : Str) :
    strtokBlock acc block = .error .read := by
  induction block generalizing acc with
  | nil => cases acc <;> rfl
  | cons c block ih =>
    rw [List.mem_cons, not_or] at hnul
    have hc : c ≠ 0 := fun h => hnul.1 h.symm
    cases acc with
    | nil =>
      rw [strtokBlock, if_neg hc]
      split
      · exact ih hnul.2 []
      · exact ih hnul.2 [c]
    | cons a acc =>
      rw [strtokBlock, if_neg hc]
      split
      · rw [ih hnul.2 []]
        rfl
      · exact ih hnul.2 (c :: a :: acc)

/-- **The tokens of a short path** are taken inside the buffer. -/
theorem tokenisePath_eq (stack : ℕ → UInt8) (hnul : 0 ∉ path) (hlen : path.length < MAX_PATH_NAME_LEN) :
    tokenisePath stack path = .ok (tokens path) := by
  obtain ⟨junk, hcopy⟩ := copyPath_short stack hnul hlen
  rw [tokenisePath, hcopy]
  exact strtokBlock_string hnul [] junk

/-- **A short path is cut inside the buffers**, into the parts that `separate_path_and_file` gives. -/
theorem separatePath_eq (stack : ℕ → UInt8) (hnul : 0 ∉ path) (habs : slash ∈ path)
    (hlen : path.length < MAX_PATH_NAME_LEN) :
    ∃ info, separatePath stack path = .ok info ∧
      readString info.parent_path = .ok (separate_path_and_file path).parent_path ∧
      readString info.filename = .ok (separate_path_and_file path).filename := by
  obtain ⟨junk, hcopy⟩ := copyPath_short stack hnul hlen
  cases hs : strrchr path with
  | none => exact absurd habs (strrchr_none hs)
  | some parts =>
    obtain ⟨parent, name⟩ := parts
    obtain ⟨hpath, -⟩ := strrchr_some hs
    have hlt : parent.length < MAX_PATH_NAME_LEN := by
      rw [hpath, List.length_append] at hlen
      omega
    have hname : 0 ∉ name := fun h => hnul (by rw [hpath]; simp [h])
    have htake : path.take parent.length = parent := by rw [hpath, List.take_left]
    have hdrop : (path ++ 0 :: junk).drop (parent.length + 1) = name ++ 0 :: junk := by
      rw [hpath, List.append_assoc, ← List.drop_drop, List.drop_left]
      rfl
    obtain ⟨parent₁, rest₁, hcopy₁, hstore₁⟩ := strncpy_store hnul
      (show parent.length < (uninitialised stack (MAX_PATH_NAME_LEN + MAX_FILE_NAME_LEN)
        MAX_PATH_NAME_LEN).length by rwa [length_uninitialised]) junk
    obtain ⟨name₁, rest₂, hcopy₂, hstore₂⟩ := strncpy_store (n := MAX_FILE_NAME_LEN - 1)
      hname (show _ < (uninitialised stack MAX_PATH_NAME_LEN MAX_FILE_NAME_LEN).length by
        rw [length_uninitialised]; decide) junk
    rw [htake] at hstore₁
    have hrun : separatePath stack path = .ok
        ⟨name.take (MAX_FILE_NAME_LEN - 1) ++ 0 :: rest₂, parent ++ 0 :: rest₁⟩ := by
      simp only [separatePath, hcopy, separateBlocks, ok_bind, readString_string hnul, hs, hcopy₁,
        hstore₁, hdrop, hcopy₂, hstore₂]
      rfl
    have hsep : separate_path_and_file path = ⟨name.take (MAX_FILE_NAME_LEN - 1), parent⟩ := by
      rw [separate_path_and_file, hs]
    refine ⟨_, hrun, ?_, ?_⟩
    · rw [hsep]
      exact readString_string fun h => hnul (by rw [hpath]; simp [h])
    · rw [hsep]
      exact readString_string fun h => hname (List.mem_of_mem_take h)

/-- A path of 128 characters makes both functions read behind the copy. -/
theorem path_full (stack : ℕ → UInt8) (hnul : 0 ∉ path) (hlen : path.length = MAX_PATH_NAME_LEN) :
    separatePath stack path = .error .read ∧ tokenisePath stack path = .error .read := by
  have hcopy := copyPath_full stack hnul hlen
  constructor
  · simp only [separatePath, hcopy, ok_bind, separateBlocks, readString_unterminated hnul, error_bind]
  · rw [tokenisePath, hcopy, ok_bind]
    exact strtokBlock_unterminated hnul []

/-! ### The parts together -/

/-- **The splitting is exact**: nothing outside the buffers is touched, and the two strings give the path
again. -/
def SplitsExactly (stack : ℕ → UInt8) (path : Str) : Prop :=
  ∃ info parent filename ts, separatePath stack path = .ok info ∧ tokenisePath stack path = .ok ts ∧
    readString info.parent_path = .ok parent ∧ readString info.filename = .ok filename ∧
    parent ++ slash :: filename = path

/-- **When the splitting is exact**, for a path within the documented limits. -/
theorem path_split_exact_iff (stack : ℕ → UInt8) (path : Str) (habs : path.head? = some slash)
    (hnul : 0 ∉ path) (hlen : path.length ≤ 128)
    (hname : 1 ≤ (lastComponent path).length ∧ (lastComponent path).length ≤ 32) :
    SplitsExactly stack path ↔ path.length < MAX_PATH_NAME_LEN ∧
      (lastComponent path).length < MAX_FILE_NAME_LEN := by
  have hslash := List.mem_of_head? habs
  by_cases hshort : path.length < MAX_PATH_NAME_LEN
  · obtain ⟨info, hrun, hparent, hfilename⟩ := separatePath_eq stack hnul hslash hshort
    obtain ⟨hpath, hlast, -⟩ := separate_spec ⟨path, habs, hnul, hshort⟩
    dsimp only at hpath hlast
    rw [and_iff_right hshort]
    constructor
    · rintro ⟨info', parent, filename, ts, hrun', -, hparent', hfilename', hjoin⟩
      rw [hrun] at hrun'
      obtain rfl := Except.ok.inj hrun'
      rw [hparent] at hparent'
      rw [hfilename] at hfilename'
      obtain rfl := Except.ok.inj hparent'
      obtain rfl := Except.ok.inj hfilename'
      have hwhole := (List.cons.inj (List.append_cancel_left (hjoin.trans hpath))).2
      rw [hlast] at hwhole
      have := congrArg List.length hwhole
      rw [List.length_take] at this
      have hmax : MAX_FILE_NAME_LEN = 32 := rfl
      omega
    · intro hlt
      refine ⟨info, _, _, _, hrun, tokenisePath_eq stack hnul hshort, hparent, hfilename, ?_⟩
      rw [hlast, List.take_of_length_le (by omega)]
      exact hpath.symm
  · have hfull : path.length = MAX_PATH_NAME_LEN := by
      have hmax : MAX_PATH_NAME_LEN = 128 := rfl
      omega
    constructor
    · rintro ⟨info, parent, filename, ts, hrun, -⟩
      rw [(path_full stack hnul hfull).1] at hrun
      cases hrun
    · exact fun h => absurd h.1 hshort

/-- `"/aa"` -/
theorem path_split_exact_aa : SplitsExactly (fun _ => 255) [slash, 97, 97] :=
  (path_split_exact_iff (fun _ => 255) [slash, 97, 97] rfl (by decide) (by decide) (by decide)).mpr
    (by decide)

/-- A name of 32 characters loses its last one. -/
theorem path_split_loses_character :
    ¬∀ (stack : ℕ → UInt8) (path : Str), path.head? = some slash → 0 ∉ path → path.length ≤ 128 →
      1 ≤ (lastComponent path).length ∧ (lastComponent path).length ≤ 32 →
        SplitsExactly stack path := by
  intro h
  have hnul : (0 : UInt8) ∉ slash :: List.replicate 32 97 := by decide
  obtain ⟨info, parent, filename, ts, hrun, -, hparent, hfilename, hjoin⟩ :=
    h (fun _ => 255) (slash :: List.replicate 32 97) rfl hnul (by decide) (by decide)
  have hblocks : separatePath (fun _ => 255) (slash :: List.replicate 32 97) =
      .ok ⟨List.replicate 31 97 ++ [0], 0 :: List.replicate 127 255⟩ := by decide +kernel
  rw [hblocks] at hrun
  obtain rfl := Except.ok.inj hrun
  obtain rfl : [] = parent := Except.ok.inj hparent
  rw [readString_string (by decide)] at hfilename
  obtain rfl := Except.ok.inj hfilename
  exact absurd hjoin (by decide)

end OperatingSystems.Wfs
