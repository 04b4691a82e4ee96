import OperatingSystems.Lib.BoundedLoop
import OperatingSystems.Wfs.Layout

/-!
# Scanning the log and looking up a path

The read-only helpers of `mount.wfs.c` and `fsck.wfs.c`, and `delete_log_entries`, over the bytes of the
image.  All of them walk the log from `sizeof(struct wfs_sb)` to `sb->head` in steps of
`sizeof(struct wfs_log_entry) + inode.size`; `scanLog` is that loop, and each helper is it with its own
body.

`find_log_entry_by_path` is a loop of its own: it walks the log in the same steps, but when a directory
entry of any inode holds the current token with a live inode number, it jumps to the latest entry of
that inode and goes on with the next token.

* **`find_log_entry_by_path_ends`** — both loops end on every image.
-/

namespace OperatingSystems.Wfs

open OperatingSystems.ByteMemory OperatingSystems.BoundedLoop

/-- `while (current_offset < sb->head) { body; current_offset += sizeof(…) + log_entry->inode.size; }`
with an accumulator next to the memory.  Every round moves on by at least one entry header, so
`sb->head + 1` rounds always suffice. -/
def scanLog {α : Type*} (body : ℕ → Mem × α → Mem × α) (m : Mem) (acc : α) : Mem × α :=
  (iterate (scanBody (fun s => head s.1) (fun s => nextEntry s.1) body) (head m + 1)
    (sizeof_sb, (m, acc))).getD (m, acc)

/-- The entry at `e` belongs to inode `i` and is not deleted. -/
def isLive (m : Mem) (i e : ℕ) : Bool := inode_number m e == i && deleted m e == 0

/-- `find_latest_log_entry`: the last entry of inode `i` that is not deleted, `none` for `NULL`. -/
def find_latest_log_entry (m : Mem) (i : ℕ) : Option ℕ :=
  (scanLog (fun e s => (s.1, if isLive s.1 i e then some e else s.2)) m none).2

/-- `find_max_inode_number`, as a 32-bit pattern: the `int` maximum is compared as an unsigned number. -/
def find_max_inode_number (m : Mem) : ℕ :=
  (scanLog (fun e s => (s.1, if s.2 < inode_number s.1 e then inode_number s.1 e else s.2)) m 0).2

/-- `delete_log_entries`: set the `deleted` field of every entry of inode `i` that has it clear; the flag
says whether there was one. -/
def delete_log_entries (m : Mem) (i : ℕ) : Mem × Bool :=
  scanLog (fun e s => if isLive s.1 i e then (s.1.put32 (e + 4) 1, true) else s) m false

/-- The inner `for` loop of `find_log_entry_by_path` at the entry `e`: the latest entry of the first
directory entry that has the name `t` and a live inode number. -/
def dentryHit (m : Mem) (t : Str) (e : ℕ) : Option ℕ :=
  if S_ISDIR (mode m e) then
    (List.range (num_entries m e)).findSome? fun i =>
      let d := dentryAt (data e) i
      if streq m d t then find_latest_log_entry m (dentryIno m d % 2 ^ 32) else none
  else none

/-- The variables of the lookup loop: the tokens not yet matched (the current one first, `[]` for
`token == NULL`), `current_offset` and `log_entry`. -/
structure LookupState where
  toks : List Str
  current_offset : ℕ
  log_entry : ℕ

/-- One round of the lookup loop. -/
def lookupBody (m : Mem) (s : LookupState) : LookupState ⊕ Option ℕ :=
  match s.toks with
  | [] => .inr (some s.log_entry)
  | t :: ts =>
    if s.current_offset < head m then
      match dentryHit m t s.current_offset with
      | some e => .inl ⟨ts, e, e⟩
      | none => .inl ⟨t :: ts, nextEntry m s.current_offset, s.current_offset⟩
    else .inr none

/-- Rounds that suffice for `k` tokens: between two hits the offset rises and stays below the head. -/
def lookupFuel (m : Mem) (k : ℕ) : ℕ := (k + 1) * (head m + 2)

/-- `find_log_entry_by_path`, `none` for `NULL`. -/
def find_log_entry_by_path (m : Mem) (path : Str) : Option ℕ :=
  match tokens path with
  | [] => find_latest_log_entry m (inode_number m sizeof_sb)
  | t :: ts =>
    (iterate (lookupBody m) (lookupFuel m (ts.length + 1)) ⟨t :: ts, sizeof_sb, sizeof_sb⟩).getD none

/-! ### The loops end -/

theorem lt_nextEntry (m : Mem) (o : ℕ) : o < nextEntry m o := by
  simp only [nextEntry, sizeof_log_entry]
  omega

/-- The body of the loop of `find_latest_log_entry`. -/
def latestBody (i e : ℕ) (s : Mem × Option ℕ) : Mem × Option ℕ :=
  (s.1, if isLive s.1 i e then some e else s.2)

/-- Each round of a scan that leaves the head alone comes closer to it. -/
theorem scan_isSome {α : Type*} {body : ℕ → Mem × α → Mem × α}
    (hbody : ∀ e s, head (body e s).1 = head s.1) (m : Mem) (acc : α) :
    (iterate (scanBody (fun s => head s.1) (fun s => nextEntry s.1) body) (head m + 1)
      (sizeof_sb, (m, acc))).isSome := by
  apply iterate_isSome fun p => head p.2.1 - p.1
  · intro p p' h
    unfold scanBody at h
    split at h
    · rename_i hlt
      have hlt : p.1 < head p.2.1 := hlt
      have hnext := lt_nextEntry (body p.1 p.2).1 p.1
      cases h
      show head (body p.1 p.2).1 - nextEntry (body p.1 p.2).1 p.1 < head p.2.1 - p.1
      rw [hbody]
      omega
    · cases h
  · show head m - sizeof_sb < head m + 1
    omega

/-- What a lookup still has before it: the tokens first, then the way to the head. -/
def LookupState.rank (h : ℕ) (s : LookupState) : ℕ :=
  s.toks.length * (h + 1) + (h - s.current_offset)

/-- A hit may go back in the log, but takes a token; a miss goes on in the log. -/
theorem LookupState.rank_lt {m : Mem} {s s' : LookupState} (h : lookupBody m s = .inl s') :
    s'.rank (head m) < s.rank (head m) := by
  obtain ⟨toks, current_offset, log_entry⟩ := s
  unfold lookupBody at h
  cases toks with
  | nil => cases h
  | cons t ts =>
    dsimp only at h
    split at h
    · rename_i hlt
      unfold LookupState.rank
      split at h
      · cases h
        dsimp only
        rw [List.length_cons, Nat.succ_mul]
        omega
      · have hnext := lt_nextEntry m current_offset
        cases h
        dsimp only
        omega
    · cases h

/-- A round of the lookup on an image with this head, whose other bytes may be read as anything. -/
def LookupRound (h : ℕ) (s s' : LookupState) : Prop := ∃ m, head m = h ∧ lookupBody m s = .inl s'

/-- **A path lookup ends**, and so does the scan that each hit makes, on every image: within the rounds
that the model allows, and with no infinite sequence of rounds even when the bytes change between them. -/
theorem find_log_entry_by_path_ends (m : Mem) (path : Str) :
    (∀ i, (iterate (scanBody (fun s => head s.1) (fun s => nextEntry s.1) (latestBody i)) (head m + 1)
      (sizeof_sb, (m, none))).isSome) ∧
    (iterate (lookupBody m) (lookupFuel m (tokens path).length)
      ⟨tokens path, sizeof_sb, sizeof_sb⟩).isSome ∧
    WellFounded fun s' s => LookupRound (head m) s s' := by
  refine ⟨fun i => ?_, ?_, ?_⟩
  · apply scan_isSome
    intro e s
    rfl
  · apply iterate_isSome (LookupState.rank (head m))
    · intro s s'
      exact LookupState.rank_lt
    · show (tokens path).length * (head m + 1) + (head m - sizeof_sb) <
        ((tokens path).length + 1) * (head m + 2)
      rw [Nat.succ_mul, Nat.mul_succ, Nat.mul_add]
      omega
  · refine Subrelation.wf ?_ (measure (LookupState.rank (head m))).wf
    intro s' s h
    obtain ⟨m', hhead, h⟩ := h
    have hlt := LookupState.rank_lt h
    rw [hhead] at hlt
    exact hlt

end OperatingSystems.Wfs
