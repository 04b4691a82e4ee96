import OperatingSystems.Wfs.Resolution

/-!
# The log tiles the used part of the disk

Every reader of an image trusts that the entries follow each other exactly up to the head.
`TilesDisk im` says so, and `Complete im im'` that a call has moved the head forward only and has stored
all bytes of what it appended and none beyond.

* **`log_tiles`** — along every run of calls that meet `Tidy`, both hold: an unlink finds its file listed
  once by the parent (or has no room), and a write starts inside the old data (or has no room).
* `unlink_breaks_tiling` — an unlink through an empty directory appends an entry whose size is `-40`.
-/

namespace OperatingSystems.Wfs

open OperatingSystems.ByteMemory OperatingSystems.ByteMemory.Mem OperatingSystems.BoundedLoop
open OperatingSystems.VersionLog OperatingSystems.GuardedRuns

/-- The entries lie one after the other from the superblock to the head, which is on the disk, and
directories hold whole dentries. -/
def TilesDisk (im : Image) : Prop :=
  ∃ offs, Tiles im.mem offs ∧ (∀ o ∈ offs, S_ISDIR (mode im.mem o) → sizeof_dentry ∣ size im.mem o) ∧
    head im.mem ≤ im.disk_size

/-- The head has not moved back, everything between the heads has been stored and nothing beyond. -/
def Complete (im im' : Image) : Prop := head im.mem ≤ head im'.mem ∧ Filled im.mem im'.mem

/-- An image as `mkfs` leaves it on a disk that is large enough for it. -/
def FreshRoom (im : Image) : Prop :=
  ∃ env disk, sizeof_sb + sizeof_log_entry ≤ disk.disk_size ∧ im = mkfs env disk

/-- The parent path of `p` does not resolve to a regular file. -/
def ParentNotFile (im : Image) (p : Path) : Prop :=
  ∀ q, find_log_entry_by_path im.mem (separate_path_and_file p.str).parent_path = some q →
    ¬S_ISREG (mode im.mem q)

/-- The calls a run may make: parents are not regular files, and writes go to regular files and end on the
disk. -/
def OnTree (im : Image) : Call → Prop
  | .mknod _ p | .mkdir _ p | .unlink _ p => ParentNotFile im p
  | .write _ p buffer offset => offset + buffer.length ≤ im.disk_size ∧
      ∃ e, find_log_entry_by_path im.mem p.str = some e ∧ S_ISREG (mode im.mem e)

/-- The condition under which the log keeps tiling: the file to write to has no gap before the buffer and
the parent of the file to unlink lists it once, unless there is no room for the new entry. -/
def Tidy (im : Image) : Call → Prop
  | .mknod _ _ | .mkdir _ _ => True
  | .write _ p buffer offset => ∀ e, find_log_entry_by_path im.mem p.str = some e →
      offset ≤ size im.mem e ∨
        im.disk_size < head im.mem + sizeof_log_entry + max (size im.mem e) (offset + buffer.length)
  | .unlink _ p => ∀ e q, find_log_entry_by_path im.mem p.str = some e → ¬S_ISDIR (mode im.mem e) →
      find_log_entry_by_path im.mem (separate_path_and_file p.str).parent_path = some q →
      ListsOnce im.mem q (inode_number im.mem e) ∨
        im.disk_size < (head im.mem + sizeof_log_entry + unlinkSize (num_entries im.mem q)) % 2 ^ 64

/-- The invariant of such runs. -/
structure Tiled (im : Image) (offs : List ℕ) : Prop where
  wf : WellFormed im.mem offs
  nonempty : offs ≠ []
  head_le : head im.mem ≤ im.disk_size
  numbers : ∀ r ∈ log im.mem, r.ino < offs.length
  modes : ∀ r ∈ log im.mem, S_ISDIR r.val.1.mode ∨ S_ISREG r.val.1.mode

variable {im : Image} {offs : List ℕ} {m m' : Mem} {p : Path}

theorem Tiled.tilesDisk (h : Tiled im offs) : TilesDisk im :=
  ⟨offs, h.wf.tiles, fun o ho hd => (h.wf.dirs o ho hd).whole, h.head_le⟩

theorem tiled_mkfs {env : Env} {disk : Image} (hroom : sizeof_sb + sizeof_log_entry ≤ disk.disk_size) :
    Tiled (mkfs env disk) [sizeof_sb] := by
  have hsound := sound_mkfs env disk
  obtain ⟨hwf, hhead, hlog, -, -, hnode⟩ := mkfs_spec env disk
  refine ⟨hwf, by simp, by rw [hhead]; exact hroom, hsound.numbers, fun r hr => ?_⟩
  rw [hlog, List.mem_singleton] at hr
  rw [hr]
  exact .inl (version_node_dir.mp hnode).1

/-- A call that changes nothing. -/
theorem complete_refl (im : Image) : Complete im im :=
  ⟨le_rfl, [], Writes.refl _, fun x hx₁ hx₂ => absurd hx₂ (not_lt.mpr hx₁), by simp⟩

/-! ### Each call -/

theorem Tiled.createEntry (h : Tiled im offs) {type : ℕ} (htype : type < 2 ^ 32)
    (hplain : S_ISDIR type ∨ S_ISREG type) (env : Env) (hpar : ParentNotFile im p) :
    (∃ offs', Tiled (createEntry type env im p.str).2 offs') ∧
      Complete im (createEntry type env im p.str).2 := by
  have hds := im.disk_size_lt
  have hhead := h.head_le
  have hlen := h.wf.length_le
  have hmax := find_max_of_all (P := (· < offs.length)) h.wf.tiles
    (List.length_pos_of_ne_nil h.nonempty) h.numbers
  have hk : newInodeNumber im.mem = find_max_inode_number im.mem + 1 := Nat.mod_eq_of_lt (by omega)
  rcases createEntry_effect h.wf (by omega) htype env p with
    ⟨err, heq⟩ | ⟨q, m₁, P', hnone, hq, hroom, hP', hrest⟩
  · rw [heq]
    exact ⟨⟨offs, h⟩, complete_refl im⟩
  obtain ⟨-, -, hlast⟩ := find_path_some h.wf (no_nul_parent p) hq
  have hmem := (mem_of_latest hlast).1
  have hdir : S_ISDIR (mode im.mem q) := (h.modes _ hmem).resolve_right (hpar q hq)
  have hnum₁ := numbers_append h.numbers hP'.appends (hP'.ino ▸ (h.numbers _ hmem).le)
  have hmodes₁ := hP'.appends.forall_log h.modes (by rw [hP'.mode]; exact .inl hdir)
  have hhead₁ : head m₁ ≤ im.disk_size := by
    rw [hP'.appends.head_eq, hP'.size]
    omega
  have hfill₁ := hP'.filled hdir
  have hle₁ := hP'.appends.head_le
  rcases hrest with ⟨-, heq⟩ | ⟨m₂, N, hroom₁, hN, heq⟩
  · rw [heq]
    exact ⟨⟨_, hP'.appends.wf, by simp, hhead₁, hnum₁, hmodes₁⟩, hle₁, hfill₁⟩
  · have hnum₂ := numbers_append hnum₁ hN.appends (by
      rw [hN.ino, hk, List.length_append, List.length_singleton]
      omega)
    have hmodes₂ := hN.appends.forall_log hmodes₁ (by rw [hN.mode]; exact hplain)
    have hhead₂ : head m₂ ≤ im.disk_size := by
      rw [hN.appends.head_eq, hN.size]
      exact hroom₁
    have hle₂ := hN.appends.head_le
    rw [heq]
    exact ⟨⟨_, hN.appends.wf, by simp, hhead₂, hnum₂, hmodes₂⟩, hle₁.trans hle₂,
      hfill₁.trans hN.filled hle₂⟩

theorem Tiled.write (h : Tiled im offs) (env : Env) {buffer : List UInt8} {offset : ℕ}
    (hend : offset + buffer.length ≤ im.disk_size)
    (hgap : ∀ e, find_log_entry_by_path im.mem p.str = some e → offset ≤ size im.mem e ∨
      im.disk_size < head im.mem + sizeof_log_entry + max (size im.mem e) (offset + buffer.length)) :
    (∃ offs', Tiled (wfs_write env im p.str buffer offset).2 offs') ∧
      Complete im (wfs_write env im p.str buffer offset).2 := by
  have hds := im.disk_size_lt
  have hsmall : ∀ o ∈ offs, size im.mem o < 2 ^ 31 := by
    intro o ho
    have hb := (h.wf.bounds ho).2
    have := h.head_le
    rw [nextEntry] at hb
    omega
  have hend' : offset + buffer.length < 2 ^ 31 := by omega
  rcases wfs_write_effect h.wf env p hend' hsmall with
    ⟨err, heq⟩ | ⟨e, m', F, hfind, hroom, hF, hfill, heq⟩
  · rw [heq]
    exact ⟨⟨offs, h⟩, complete_refl im⟩
  obtain ⟨-, -, hlast⟩ := find_path_some h.wf p.no_nul hfind
  have hmem := (mem_of_latest hlast).1
  have hoff : offset ≤ size im.mem e := (hgap e hfind).resolve_right (not_lt.mpr hroom)
  have hhead : head m' ≤ im.disk_size := by
    rw [hF.appends.head_eq, hF.size]
    exact hroom
  have hmodes := hF.appends.forall_log h.modes (by
    rcases hF.mode with hm | hm
    · exact .inr (hm ▸ by decide)
    · exact hm ▸ h.modes _ hmem)
  rw [heq]
  exact ⟨⟨_, hF.appends.wf, by simp, hhead,
    numbers_append h.numbers hF.appends (hF.ino ▸ (h.numbers _ hmem).le), hmodes⟩,
    hF.appends.head_le, hfill hoff⟩

/-- An image whose inode has been marked deleted. -/
theorem Tiled.killed (h : Tiled im offs) {m₁ : Mem} {j : ℕ} (hwf : WellFormed m₁ offs)
    (hlog : log m₁ = kill markDeleted j (log im.mem)) (hhead : head m₁ = head im.mem) :
    Tiled { im with mem := m₁ } offs := by
  refine ⟨hwf, h.nonempty, hhead ▸ h.head_le, fun r hr => ?_, fun r hr => ?_⟩
  · rw [hlog] at hr
    obtain ⟨s, hs, rfl⟩ := List.mem_map.mp hr
    rw [killRec_ino]
    exact h.numbers s hs
  · rw [hlog] at hr
    obtain ⟨s, hs, rfl⟩ := List.mem_map.mp hr
    have hmode : (killRec markDeleted j s).val.1.mode = s.val.1.mode := by
      unfold killRec
      split <;> rfl
    rw [hmode]
    exact h.modes s hs

theorem Tiled.unlink (h : Tiled im offs) (env : Env)
    (hone : ∀ e q, find_log_entry_by_path im.mem p.str = some e → ¬S_ISDIR (mode im.mem e) →
      find_log_entry_by_path im.mem (separate_path_and_file p.str).parent_path = some q →
      ListsOnce im.mem q (inode_number im.mem e) ∨
        im.disk_size < (head im.mem + sizeof_log_entry + unlinkSize (num_entries im.mem q)) % 2 ^ 64) :
    (∃ offs', Tiled (wfs_unlink env im p.str).2 offs') ∧ Complete im (wfs_unlink env im p.str).2 := by
  have hds := im.disk_size_lt
  have hheadle := h.head_le
  by_cases hlists : ∀ e q, find_log_entry_by_path im.mem p.str = some e → ¬S_ISDIR (mode im.mem e) →
      find_log_entry_by_path im.mem (separate_path_and_file p.str).parent_path = some q →
      ListsOnce im.mem q (inode_number im.mem e)
  · rcases wfs_unlink_effect h.wf env p hlists (by omega) with
      ⟨err, heq⟩ | ⟨e, q, m₁, hfind, hfile, hq, -, hwf, hlog, hhead, ⟨ws, hws, hle⟩, hrest⟩
    · rw [heq]
      exact ⟨⟨offs, h⟩, complete_refl im⟩
    have hkilled := h.killed hwf hlog hhead
    rcases hrest with ⟨-, heq⟩ | ⟨m₂, P', hroom, hP', heq⟩
    · rw [heq]
      refine ⟨⟨offs, hkilled⟩, hhead.ge, ws, hws, fun x hx₁ hx₂ => ?_, fun w hw => ?_⟩
      · exact absurd hx₂ (not_lt.mpr (hhead.le.trans hx₁))
      · exact (hle w hw).trans hhead.ge
    · obtain ⟨-, -, hlastq⟩ := find_path_some h.wf (no_nul_parent p) hq
      have hhead₂ : head m₂ ≤ im.disk_size := by
        have hsize := hP'.size
        rw [hP'.appends.head_eq, hhead]
        simp only [sizeof_log_entry, sizeof_dentry] at hroom hsize ⊢
        omega
      have hnum₂ := numbers_append hkilled.numbers hP'.appends
        (hP'.ino ▸ (h.numbers _ (mem_of_latest hlastq).1).le)
      have hmodes₂ := hP'.appends.forall_log hkilled.modes (by rw [hP'.mode]; exact .inl (by decide))
      rw [heq]
      exact ⟨⟨_, hP'.appends.wf, by simp, hhead₂, hnum₂, hmodes₂⟩,
        hhead ▸ hP'.appends.head_le, hP'.filled⟩
  · -- no room for the new parent: the inode is marked, nothing is appended
    push Not at hlists
    obtain ⟨e, q, hfind, hfile, hq, hnot⟩ := hlists
    have hroom := (hone e q hfind hfile hq).resolve_left hnot
    obtain ⟨hwf, hlog, hhead, -, -, ws, hws, hle⟩ :=
      delete_log_entries_spec h.wf (inode_number im.mem e)
    rw [wfs_unlink_noRoom h.wf env p hfind hfile hq hroom]
    refine ⟨⟨offs, h.killed hwf hlog hhead⟩, hhead.ge, ws, hws, fun x hx₁ hx₂ => ?_, fun w hw => ?_⟩
    · exact absurd hx₂ (not_lt.mpr (hhead.le.trans hx₁))
    · exact (hle w hw).trans hhead.ge

/-- **Each tidy call keeps the log tiling** and stores all of what it appends. -/
theorem Tiled.step (h : Tiled im offs) {c : Call} (hd : OnTree im c) (hc : Tidy im c) :
    (∃ offs', Tiled (c.run im).2 offs') ∧ Complete im (c.run im).2 := by
  cases c with
  | mknod env p => exact h.createEntry (by decide) (by decide) env hd
  | mkdir env p => exact h.createEntry (by decide) (by decide) env hd
  | write env p buffer offset => exact h.write env hd.1 hc
  | unlink env p => exact h.unlink env hc

/-- **The log always tiles the used part of the disk**, and each call appends complete entries, along every
run of tidy calls. -/
theorem log_tiles (h : Reach FreshRoom CallStep (fun im c => OnTree im c ∧ Tidy im c) im) :
    TilesDisk im ∧ ∀ c, OnTree im c → Tidy im c → Complete im (c.run im).2 := by
  have hinv : ∃ offs, Tiled im offs := by
    refine h.invariant (I := fun im => ∃ offs, Tiled im offs) ?_ ?_
    · rintro _ ⟨env, disk, hroom, rfl⟩
      exact ⟨_, tiled_mkfs hroom⟩
    · rintro im c _ ⟨offs, h⟩ ⟨hd, hc⟩ rfl
      exact (h.step hd hc).1
  obtain ⟨offs, hinv⟩ := hinv
  exact ⟨hinv.tilesDisk, fun c hd hc => (hinv.step hd hc).2⟩

/-- A parent path that resolves to something else than a regular file. -/
theorem parentNotFile_of {q : ℕ}
    (hq : find_log_entry_by_path im.mem (separate_path_and_file p.str).parent_path = some q)
    (hmode : ¬S_ISREG (mode im.mem q)) : ParentNotFile im p := by
  intro q' hq'
  obtain rfl : q = q' := Option.some.inj (hq.symm.trans hq')
  exact hmode

/-- The disk with the file `/a/x`, after two bytes have been written to the file. -/
def diskWritten : Image :=
  ((Call.write env₀ pathAX [7, 8] 0).run diskAX).2

/-- The same disk, after the file has been removed. -/
def diskUnlinked : Image :=
  ((Call.unlink env₀ pathAX).run diskWritten).2

/-- The parent `/a` lists the file once. -/
theorem tidy_unlink_diskWritten : Tidy diskWritten (.unlink env₀ pathAX) := by
  intro e q hfind _ hq
  have hfind' : find_log_entry_by_path diskWritten.mem pathAX.str = some 308 := by decide +kernel
  have hq' : find_log_entry_by_path diskWritten.mem (separate_path_and_file pathAX.str).parent_path =
      some 180 := by decide +kernel
  rw [hfind'] at hfind
  rw [hq'] at hq
  cases hfind
  cases hq
  exact .inl ⟨by decide +kernel, by decide +kernel⟩

/-- The log tiles after the file `/a/x` has been created, written to and removed. -/
theorem log_tiles_diskUnlinked : TilesDisk diskUnlinked ∧
    ∀ c, OnTree diskUnlinked c → Tidy diskUnlinked c → Complete diskUnlinked (c.run diskUnlinked).2 :=
  log_tiles (.next (a := .unlink env₀ pathAX) (.next (a := .write env₀ pathAX [7, 8] 0)
    (.next (a := .mknod env₀ pathAX) (.next (a := .mkdir env₀ pathA)
    (.start ⟨env₀, zeroDisk 1000 (by decide), by decide, rfl⟩)
    ⟨parentNotFile_of (q := 8) (by decide +kernel) (by decide +kernel), trivial⟩ rfl)
    ⟨parentNotFile_of (q := 136) (by decide +kernel) (by decide +kernel), trivial⟩ rfl)
    ⟨⟨by decide +kernel, 264, by decide +kernel, by decide +kernel⟩, fun _ _ => .inl (Nat.zero_le _)⟩ rfl)
    ⟨parentNotFile_of (q := 180) (by decide +kernel) (by decide +kernel), tidy_unlink_diskWritten⟩ rfl)

/-- The path `/b/f`. -/
def pathBF : Path := ⟨[47, 98, 47, 102], rfl, by decide, by decide⟩

/-- The path `/a/f`. -/
def pathAF : Path := ⟨[47, 97, 47, 102], rfl, by decide, by decide⟩

/-- A disk with the empty directory `/a` and the file `/b/f`. -/
def diskABF : Image :=
  ((Call.mknod env₀ pathBF).run ((Call.mkdir env₀ pathB).run
    ((Call.mkdir env₀ pathA).run (freshDisk 1000 thousand_lt)).2).2).2

/-- **An unlink breaks the tiling**: `/a/f` is found in `/b`, and the empty parent `/a` gets an entry of size
`2 ^ 32 - 40`, which the head is moved back into. -/
theorem unlink_breaks_tiling : ¬∀ im, Reach FreshRoom CallStep OnTree im → TilesDisk im := by
  intro h
  have hrun : Reach FreshRoom CallStep OnTree ((Call.unlink env₀ pathAF).run diskABF).2 :=
    .next (a := .unlink env₀ pathAF) (.next (a := .mknod env₀ pathBF) (.next (a := .mkdir env₀ pathB)
      (.next (a := .mkdir env₀ pathA) (.start ⟨env₀, zeroDisk 1000 (by decide), by decide, rfl⟩)
      (parentNotFile_of (q := 8) (by decide +kernel) (by decide +kernel)) rfl)
      (parentNotFile_of (q := 52) (by decide +kernel) (by decide +kernel)) rfl)
      (parentNotFile_of (q := 304) (by decide +kernel) (by decide +kernel)) rfl)
      (parentNotFile_of (q := 136) (by decide +kernel) (by decide +kernel)) rfl
  obtain ⟨offs, htiles, -⟩ := h _ hrun
  have hland := Chain.lands (n := 500) (lt_nextEntry _) htiles (by decide +kernel)
  exact absurd hland (by decide +kernel)

end OperatingSystems.Wfs
