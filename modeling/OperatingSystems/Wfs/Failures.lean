import OperatingSystems.Wfs.Tiling

/-!
# Calls that fail

A call that returns an error should leave the image as it was.  Two calls can fail after they have stored
something: a creation checks the room for its second entry after it has appended the first, and an unlink
checks the room for the parent after it has marked the inode deleted.

* **`failed_call_changes_nothing`** — outside these two windows (`RoomForAll`) a failing call changes no
  byte of the disk, in every state reached by writes that do not overflow an `int`.
* `failed_creation_moves_head` — a creation in the first window.

None of this needs the log to tile: whatever the bytes are, a found entry is live and on the path of the
scan, so an unlink never misses the entry it has found.
-/

namespace OperatingSystems.Wfs

open OperatingSystems.ByteMemory OperatingSystems.ByteMemory.Mem OperatingSystems.BoundedLoop
open OperatingSystems.GuardedRuns

variable {im : Image} {m : Mem} {offs : List ℕ} {e i : ℕ} {path : Str}

/-- No write makes a file of `2 ^ 31` bytes or more. -/
def SmallWrites (im : Image) : Call → Prop
  | .write _ p buffer offset => ∀ e, find_log_entry_by_path im.mem p.str = some e →
      max (size im.mem e) (offset + buffer.length) < 2 ^ 31
  | _ => True

/-- A call that gets past its lookups and its first check of the room has room for all it appends. -/
def RoomForAll (im : Image) : Call → Prop
  | .mknod _ p | .mkdir _ p => ∀ q, find_log_entry_by_path im.mem p.str = none →
      find_log_entry_by_path im.mem (separate_path_and_file p.str).parent_path = some q →
      head im.mem + sizeof_log_entry + size im.mem q + sizeof_dentry ≤ im.disk_size →
      head im.mem + sizeof_log_entry + size im.mem q + sizeof_dentry + sizeof_log_entry ≤ im.disk_size
  | .write _ _ _ _ => True
  | .unlink _ p => ∀ e q, find_log_entry_by_path im.mem p.str = some e → ¬S_ISDIR (mode im.mem e) →
      find_log_entry_by_path im.mem (separate_path_and_file p.str).parent_path = some q →
      (head im.mem + sizeof_log_entry + unlinkSize (num_entries im.mem q)) % 2 ^ 64 ≤ im.disk_size

/-! ### Found entries -/

/-- Once no token is left, the current entry of the lookup is the latest one of some inode. -/
def LookupState.Done (m : Mem) (s : LookupState) : Prop :=
  s.toks = [] → ∃ i, find_latest_log_entry m i = some s.log_entry

/-- A hit leads to a latest entry. -/
theorem dentryHit_latest {t : Str} {o : ℕ} (h : dentryHit m t o = some e) :
    ∃ i, find_latest_log_entry m i = some e := by
  unfold dentryHit at h
  split at h
  · obtain ⟨j, -, hj⟩ := List.exists_of_findSome?_eq_some h
    simp only [Option.ite_none_right_eq_some] at hj
    exact ⟨_, hj.2⟩
  · cases h

theorem lookupBody_done {s s' : LookupState} (h : lookupBody m s = .inl s') : s'.Done m := by
  obtain ⟨toks, off, le⟩ := s
  cases toks with
  | nil => cases h
  | cons t ts =>
    simp only [lookupBody] at h
    split at h
    · split at h
      · rename_i e' hhit
        obtain rfl := Sum.inl.inj h
        exact fun _ => dentryHit_latest hhit
      · obtain rfl := Sum.inl.inj h
        exact fun hs => by cases hs
    · cases h

theorem lookupBody_result {s : LookupState} (hs : s.Done m) (h : lookupBody m s = .inr (some e)) :
    ∃ i, find_latest_log_entry m i = some e := by
  obtain ⟨toks, off, le⟩ := s
  cases toks with
  | nil =>
    obtain rfl := Option.some.inj (Sum.inr.inj h)
    exact hs rfl
  | cons t ts =>
    simp only [lookupBody] at h
    split at h
    · split at h <;> cases h
    · cases h

/-- Whatever the bytes are, a found entry is the latest one of some inode. -/
theorem find_path_latest (h : find_log_entry_by_path m path = some e) :
    ∃ i, find_latest_log_entry m i = some e := by
  unfold find_log_entry_by_path at h
  cases htok : tokens path with
  | nil =>
    simp only [htok] at h
    exact ⟨_, h⟩
  | cons t ts =>
    simp only [htok] at h
    cases hit : iterate (lookupBody m) (lookupFuel m (ts.length + 1)) ⟨t :: ts, sizeof_sb, sizeof_sb⟩ with
    | none =>
      rw [hit] at h
      cases h
    | some r =>
      rw [hit, Option.getD_some] at h
      obtain ⟨s, hs, hb⟩ := iterate_result (I := LookupState.Done m) (fun _ _ _ => lookupBody_done)
        (fun hs => by cases hs) hit
      exact lookupBody_result hs (h ▸ hb)

/-- A scan visits the entry that a lookup finds. -/
theorem found_visited (hv : Visits m offs) (h : find_log_entry_by_path m path = some e) :
    e ∈ offs ∧ isLive m (inode_number m e) e := by
  obtain ⟨i, hi⟩ := find_path_latest h
  rw [find_latest_visits hv] at hi
  obtain ⟨he, hl⟩ := List.mem_filter.mp (List.mem_of_getLast? hi)
  have hino : inode_number m e = i := by
    rw [isLive, Bool.and_eq_true, beq_iff_eq] at hl
    exact hl.1
  exact ⟨he, hino ▸ hl⟩

/-- The entry that is found is among those that `delete_log_entries` marks. -/
theorem delete_found (h : find_log_entry_by_path m path = some e) :
    (delete_log_entries m (inode_number m e)).2 = true := by
  obtain ⟨offs, hv⟩ := exists_visits m
  rw [(delete_log_entries_marked hv _).2, List.any_eq_true]
  exact ⟨e, found_visited hv h⟩

/-- Marking entries leaves the size of a found entry alone. -/
theorem delete_size (h : find_log_entry_by_path m path = some e) (i : ℕ) :
    size (delete_log_entries m i).1 e = size m e := by
  obtain ⟨offs, hv⟩ := exists_visits m
  have he := (found_visited hv h).1
  refine (delete_log_entries_marked hv i).1.u32 fun o ho => ?_
  rcases lt_trichotomy o e with hoe | rfl | hoe
  · have := visits_apart hv ho he hoe
    rw [sizeof_log_entry] at this
    omega
  · omega
  · have := visits_apart hv he ho hoe
    rw [sizeof_log_entry] at this
    omega

/-! ### The head along a run -/

/-- The head lies behind the superblock and on the disk (or behind the root of a fresh image). -/
def HeadInside (im : Image) : Prop :=
  sizeof_sb ≤ head im.mem ∧ head im.mem ≤ max (sizeof_sb + sizeof_log_entry) im.disk_size

/-- The head after the new version of a parent. -/
theorem appendParent_head (parent : ℕ) (f : Str) (ino : ℕ) (hsb : sizeof_sb ≤ head m)
    (hlt : head m + sizeof_log_entry + (size m parent + sizeof_dentry) < 2 ^ 32) :
    head (appendParent m parent f ino) =
      head m + sizeof_log_entry + (size m parent + sizeof_dentry) := by
  rw [appendParent_eq parent f ino hsb (by omega), head, putHead, u32_put32, Nat.mod_eq_of_lt hlt]

theorem headInside_createEntry (h : HeadInside im) {type : ℕ} (htype : type < 2 ^ 32) (env : Env)
    (path : Str) : HeadInside (createEntry type env im path).2 := by
  have hds := im.disk_size_lt
  unfold createEntry
  cases find_log_entry_by_path im.mem path with
  | some e => exact h
  | none =>
    simp only
    cases find_log_entry_by_path im.mem (separate_path_and_file path).parent_path with
    | none => exact h
    | some q =>
      simp only
      split
      · exact h
      · rename_i hroom
        have hhead := appendParent_head q (separate_path_and_file path).filename
          (newInodeNumber im.mem) h.1 (by omega)
        have h₁ := h.1
        split
        · refine ⟨?_, le_max_of_le_right ?_⟩ <;> simp only <;> omega
        · rename_i hroom₁
          have hk : newInodeNumber im.mem < 2 ^ 32 := Nat.mod_lt _ (by decide)
          have hfresh := appendEmpty_fresh env (by omega) hk htype
            (by omega : head (appendParent im.mem q (separate_path_and_file path).filename
              (newInodeNumber im.mem)) + sizeof_log_entry < 2 ^ 32)
          refine ⟨?_, le_max_of_le_right ?_⟩ <;> simp only [hfresh.head_eq] <;> omega

theorem headInside_write (h : HeadInside im) (env : Env) {path : Str} {buffer : List UInt8} {offset : ℕ}
    (hsmall : ∀ e, find_log_entry_by_path im.mem path = some e →
      max (size im.mem e) (offset + buffer.length) < 2 ^ 31) :
    HeadInside (wfs_write env im path buffer offset).2 := by
  have hds := im.disk_size_lt
  have hhead := head_lt im.mem
  unfold wfs_write
  cases hfind : find_log_entry_by_path im.mem path with
  | none => exact h
  | some e =>
    have hmax := hsmall e hfind
    obtain ⟨hse, hend⟩ := max_lt_iff.mp hmax
    have hnew : newSize im.mem e buffer.length offset = _ := newSize_eq hend
    simp only [hnew, intToSize_of_lt hmax]
    rw [Nat.mod_eq_of_lt (show head im.mem + sizeof_log_entry +
      max (size im.mem e) (offset + buffer.length) < 2 ^ 64 by rw [sizeof_log_entry]; omega)]
    split
    · exact h
    · rename_i hroom
      have hfresh := appendFile_fresh env e offset buffer (k := inode_number im.mem e) h.1 (u32_lt _ _)
        (by omega : head im.mem + sizeof_log_entry + max (size im.mem e) (offset + buffer.length) < 2 ^ 32)
      have h₁ := h.1
      refine ⟨?_, le_max_of_le_right ?_⟩ <;> simp only [hfresh.head_eq] <;> omega

/-- With room for it, the new head is the sum that the check has computed. -/
theorem unlink_head {h n d : ℕ} (hh : h < 2 ^ 32) (hn : n ≤ 2 ^ 32 / 40) (hd : d < 2 ^ 31)
    (hroom : (h + sizeof_log_entry + unlinkSize n) % 2 ^ 64 ≤ d) :
    h < (h + sizeof_log_entry + unlinkSize n % 2 ^ 32) % 2 ^ 32 ∧
      (h + sizeof_log_entry + unlinkSize n % 2 ^ 32) % 2 ^ 32 ≤ d := by
  rw [sizeof_log_entry] at hroom ⊢
  rcases Nat.eq_zero_or_pos n with rfl | hpos
  · have hsize : unlinkSize 0 = 2 ^ 64 - 40 := by decide
    rw [hsize] at hroom ⊢
    omega
  · have hsize : unlinkSize n = 40 * (n - 1) := by
      rw [unlinkSize, sizeof_dentry]
      omega
    rw [hsize] at hroom ⊢
    rw [Nat.mod_eq_of_lt (by omega)] at hroom
    rw [Nat.mod_eq_of_lt (show 40 * (n - 1) < 2 ^ 32 by omega), Nat.mod_eq_of_lt (by omega)]
    omega

/-- Marking entries leaves the head alone. -/
theorem delete_head (m : Mem) (i : ℕ) : head (delete_log_entries m i).1 = head m := by
  obtain ⟨offs, hv⟩ := exists_visits m
  refine u32_congr fun k hk => (delete_log_entries_marked hv i).1.frame _ fun o ho _ => ?_
  obtain ⟨b, hc, -, -⟩ := hv
  have := (hc.bounds (lt_nextEntry m) o ho).1
  rw [sizeof_sb] at this
  omega

theorem headInside_unlink (h : HeadInside im) (env : Env) (path : Str) :
    HeadInside (wfs_unlink env im path).2 := by
  have hds := im.disk_size_lt
  unfold wfs_unlink
  cases find_log_entry_by_path im.mem path with
  | none => exact h
  | some e =>
    simp only
    split
    · exact h
    cases find_log_entry_by_path im.mem (separate_path_and_file path).parent_path with
    | none => exact h
    | some q =>
      simp only
      have hdel := delete_head im.mem (inode_number im.mem e)
      set m₁ := (delete_log_entries im.mem (inode_number im.mem e)).1
      have h₁ : sizeof_sb ≤ head m₁ := hdel ▸ h.1
      have hnum : num_entries m₁ q ≤ 2 ^ 32 / 40 := Nat.div_le_div_right (u32_lt _ _).le
      split
      · exact ⟨h₁, hdel.le.trans h.2⟩
      · rename_i hroom
        have hhead := appendUnlinked_head q (inode_number m₁ e) env (inode_number m₁ q)
          (unlinkSize (num_entries m₁ q) % 2 ^ 32) h₁
        rw [Nat.mod_mod] at hhead
        obtain ⟨hlow, hhigh⟩ := unlink_head (head_lt m₁) hnum hds (not_lt.mp hroom)
        exact ⟨(h₁.trans hlow.le).trans hhead.ge, le_max_of_le_right (hhead.le.trans hhigh)⟩

/-- **The head stays inside the disk** along every run whose writes are small. -/
theorem headInside_of_reach (h : Reach Fresh CallStep SmallWrites im) : HeadInside im := by
  refine h.invariant ?_ ?_
  · rintro _ ⟨env, disk, rfl⟩
    have hsound := sound_mkfs env disk
    exact ⟨hsound.wf.sb_le, hsound.head_le⟩
  · rintro im c _ h hc rfl
    cases c with
    | mknod env p => exact headInside_createEntry h (by decide) env p.str
    | mkdir env p => exact headInside_createEntry h (by decide) env p.str
    | write env p buffer offset => exact headInside_write h env hc
    | unlink env p => exact headInside_unlink h env p.str

/-! ### Failing calls -/

theorem createEntry_error (h : HeadInside im) {type : ℕ} {env : Env} {p : Path} {err : Errno}
    (hroom : RoomForAll im (.mknod env p)) (herr : (createEntry type env im p.str).1 = .error err) :
    (createEntry type env im p.str).2 = im := by
  have hds := im.disk_size_lt
  unfold createEntry at herr ⊢
  cases hfind : find_log_entry_by_path im.mem p.str with
  | some e => rfl
  | none =>
    simp only [hfind] at herr ⊢
    cases hpar : find_log_entry_by_path im.mem (separate_path_and_file p.str).parent_path with
    | none => rfl
    | some q =>
      simp only [hpar] at herr ⊢
      split
      · rfl
      · rename_i hfits
        rw [if_neg hfits] at herr
        have hall := hroom q hfind hpar (not_lt.mp hfits)
        have hhead := appendParent_head q (separate_path_and_file p.str).filename
          (newInodeNumber im.mem) h.1 (by omega)
        rw [if_neg (by rw [hhead]; omega)] at herr
        cases herr

theorem wfs_write_error {env : Env} {path : Str} {buffer : List UInt8} {offset : ℕ} {err : Errno}
    (herr : (wfs_write env im path buffer offset).1 = .error err) :
    (wfs_write env im path buffer offset).2 = im := by
  unfold wfs_write at herr ⊢
  cases hfind : find_log_entry_by_path im.mem path with
  | none => rfl
  | some e =>
    simp only [hfind] at herr ⊢
    split
    · rfl
    · rename_i hfits
      rw [if_neg hfits] at herr
      cases herr

theorem wfs_unlink_error {env : Env} {p : Path} {err : Errno} (hroom : RoomForAll im (.unlink env p))
    (herr : (wfs_unlink env im p.str).1 = .error err) : (wfs_unlink env im p.str).2 = im := by
  unfold wfs_unlink at herr ⊢
  cases hfind : find_log_entry_by_path im.mem p.str with
  | none => rfl
  | some e =>
    simp only [hfind] at herr ⊢
    split
    · rfl
    · rename_i hfile
      rw [if_neg hfile] at herr
      cases hpar : find_log_entry_by_path im.mem (separate_path_and_file p.str).parent_path with
      | none => rfl
      | some q =>
        simp only [hpar] at herr
        have hfits := hroom e q hfind hfile hpar
        have hnum : num_entries (delete_log_entries im.mem (inode_number im.mem e)).1 q =
            num_entries im.mem q := by
          rw [num_entries, num_entries, delete_size hpar]
        rw [delete_head, hnum, if_neg (not_lt.mpr hfits), delete_found hfind] at herr
        cases herr

/-- **A failing call changes nothing**: in every state reached by small writes, a call that fails outside
the two windows leaves the bytes of the disk as they were. -/
theorem failed_call_changes_nothing (h : Reach Fresh CallStep SmallWrites im) {c : Call} {err : Errno}
    (hc : RoomForAll im c) (herr : (c.run im).1 = .error err) :
    ∀ x, x < im.disk_size → (c.run im).2.mem.byte x = im.mem.byte x := by
  have hin := headInside_of_reach h
  have hsame : (c.run im).2 = im := by
    cases c with
    | mknod env p => exact createEntry_error hin hc herr
    | mkdir env p => exact createEntry_error hin hc herr
    | write env p buffer offset => exact wfs_write_error herr
    | unlink env p => exact wfs_unlink_error hc herr
  intro x _
  rw [hsame]

/-- A disk of 130 bytes has no room for a new version of the root. -/
theorem roomForAll_full : RoomForAll (freshDisk 130 (by decide)) (.mkdir env₀ pathA) := by
  intro q _ hq hle
  have hq' : find_log_entry_by_path (freshDisk 130 (by decide)).mem
      (separate_path_and_file pathA.str).parent_path = some 8 := by decide +kernel
  rw [hq'] at hq
  cases hq
  exact absurd hle (by decide +kernel)

/-- Creating `/a/x` twice, writing 700 bytes to it on a disk of 1000, and creating `/a` on a disk of 130 all
fail, and leave the low byte of the head as it was. -/
theorem failed_call_changes_nothing_full :
    ((Call.mknod env₀ pathAX).run diskAX).2.mem.byte 4 = diskAX.mem.byte 4 ∧
      ((Call.write env₀ pathAX (List.replicate 700 7) 0).run diskAX).2.mem.byte 4 = diskAX.mem.byte 4 ∧
      ((Call.mkdir env₀ pathA).run (freshDisk 130 (by decide))).2.mem.byte 4 =
        (freshDisk 130 (by decide)).mem.byte 4 := by
  have hreach : Reach Fresh CallStep SmallWrites diskAX :=
    .next (a := .mknod env₀ pathAX) (.next (a := .mkdir env₀ pathA) (.start (fresh_freshDisk _ _))
      trivial rfl) trivial rfl
  refine ⟨?_, ?_, ?_⟩
  · exact failed_call_changes_nothing hreach
      (show RoomForAll diskAX (.mknod env₀ pathAX) from fun q hnone => absurd hnone (by decide +kernel))
      (show ((Call.mknod env₀ pathAX).run diskAX).1 = .error .EEXIST by decide +kernel) 4 (by decide)
  · exact failed_call_changes_nothing hreach
      (show RoomForAll diskAX (.write env₀ pathAX (List.replicate 700 7) 0) from trivial)
      (show ((Call.write env₀ pathAX (List.replicate 700 7) 0).run diskAX).1 = .error .ENOSPC by
        decide +kernel) 4 (by decide)
  · exact failed_call_changes_nothing (.start (fresh_freshDisk _ _)) roomForAll_full
      (show ((Call.mkdir env₀ pathA).run (freshDisk 130 (by decide))).1 = .error .ENOSPC by
        decide +kernel) 4 (by decide)

/-- **A failed creation moves the head**: on a disk of 150 bytes the new version of the root fits and the
entry of the directory does not. -/
theorem failed_creation_moves_head : ¬∀ im, Reach Fresh CallStep (fun _ _ => True) im →
    ∀ (c : Call) (err : Errno), (c.run im).1 = .error err →
      ∀ x, x < im.disk_size → (c.run im).2.mem.byte x = im.mem.byte x := by
  intro h
  have hbyte := h (freshDisk 150 (by decide)) (.start (fresh_freshDisk _ _)) (.mkdir env₀ pathA) .ENOSPC
    (by decide +kernel) 4 (by decide)
  exact absurd hbyte (by decide +kernel)

end OperatingSystems.Wfs
