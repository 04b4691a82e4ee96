import OperatingSystems.Lib.GuardedRuns
import OperatingSystems.Wfs.Delete

/-!
# The mounted file system as a machine

`Call` is a call of one of the four changing operations and `Call.run` what it does to an image; the
states of the machine are the images reached from a fresh one (`Fresh`).

For each operation an inversion lemma says what it can do to a well-formed image: **`createEntry_effect`**,
**`wfs_write_effect`** and **`wfs_unlink_effect`**.  All facts about runs are derived from these.
-/

namespace OperatingSystems.Wfs

open OperatingSystems.ByteMemory OperatingSystems.ByteMemory.Mem OperatingSystems.BoundedLoop
open OperatingSystems.VersionLog OperatingSystems.GuardedRuns

/-- A call of an operation that may change the image. -/
inductive Call
  | mknod (env : Env) (p : Path)
  | mkdir (env : Env) (p : Path)
  | write (env : Env) (p : Path) (buffer : List UInt8) (offset : ℕ)
  | unlink (env : Env) (p : Path)

/-- The result of a call and the image after it. -/
def Call.run (im : Image) : Call → Except Errno ℤ × Image
  | .mknod env p => wfs_mknod env im p.str
  | .mkdir env p => wfs_mkdir env im p.str
  | .write env p buffer offset => wfs_write env im p.str buffer offset
  | .unlink env p => wfs_unlink env im p.str

/-- An image as `mkfs` leaves it. -/
def Fresh (im : Image) : Prop := ∃ env disk, im = mkfs env disk

/-- One call of the mounted file system. -/
def CallStep (im : Image) (c : Call) (im' : Image) : Prop := im' = (c.run im).2

variable {im : Image} {m : Mem} {offs : List ℕ} {e : ℕ} {path : Str}

/-! ### Lookups -/

/-- What a lookup returns is the last live entry of its inode. -/
theorem Readable.found (h : Readable m offs) (hp : 0 ∉ path)
    (hf : find_log_entry_by_path m path = some e) : e ∈ offs ∧
      lookup (log m) (inode_number m sizeof_sb) (tokens path) = some (version m e) ∧
      latest (log m) (inode_number m e) = some (version m e) := by
  rw [find_path_readable h hp] at hf
  obtain ⟨r, hr, rfl⟩ := Option.map_eq_some_iff.mp hf
  have hlast := latest_of_lookup hr
  obtain ⟨hmem, hver⟩ := (mem_log h.tiles).mp (mem_of_latest hlast).1
  have hino : inode_number m r.pos = r.ino := congrArg Rec.ino hver
  rw [hver, hino]
  exact ⟨hmem, hr, hlast⟩

theorem find_path_some (h : WellFormed m offs) (hp : 0 ∉ path)
    (hf : find_log_entry_by_path m path = some e) : e ∈ offs ∧
      lookup (log m) (inode_number m sizeof_sb) (tokens path) = some (version m e) ∧
      latest (log m) (inode_number m e) = some (version m e) :=
  h.readable.found hp hf

theorem find_path_none (h : WellFormed m offs) (hp : 0 ∉ path) :
    find_log_entry_by_path m path = none ↔
      lookup (log m) (inode_number m sizeof_sb) (tokens path) = none := by
  rw [find_path_eq h hp, Option.map_eq_none_iff]

/-- The found entry is not deleted. -/
theorem deleted_of_latest (h : latest (log m) (inode_number m e) = some (version m e)) :
    deleted m e = 0 := by
  have := (mem_of_latest h).2.1
  simpa [version] using this

theorem head_lt (m : Mem) : head m < 2 ^ 32 := u32_lt _ _

/-! ### What each operation can do -/

/-- The node of an entry that a creation makes. -/
def newNode (type : ℕ) : Namespace.Node Str ℕ := if S_ISDIR type then .dir [] else .file

theorem newNode_cases (type : ℕ) : newNode type = .file ∨ newNode type = .dir [] := by
  rw [newNode]
  split
  · exact .inr rfl
  · exact .inl rfl

/-- The parent at `q` has been given one more name: the version `P'` follows the log. -/
structure ParentAppended (m m₁ : Mem) (offs : List ℕ) (q : ℕ) (f : Str) (k : ℕ) (P' : Version) :
    Prop where
  appends : Appends m m₁ offs P'
  ino : P'.ino = inode_number m q
  live : P'.live
  size : P'.val.1.size = size m q + sizeof_dentry
  mode : P'.val.1.mode = mode m q
  node : P'.node = (if S_ISDIR (Wfs.mode m q) then .dir (dents m q ++ [(f, k)]) else .file)
  filled : S_ISDIR (Wfs.mode m q) → Filled m m₁

/-- An entry without data has been appended for a new inode. -/
structure NodeAppended (m₁ m₂ : Mem) (offs : List ℕ) (k type : ℕ) (N : Version) : Prop where
  appends : Appends m₁ m₂ offs N
  ino : N.ino = k
  live : N.live
  size : N.val.1.size = 0
  mode : N.val.1.mode = type
  node : N.node = newNode type
  filled : Filled m₁ m₂

/-- **What a creation can do**: nothing; append the new parent only; or append the parent and the node. -/
theorem createEntry_effect (h : WellFormed im.mem offs) (hk : newInodeNumber im.mem < 2 ^ 31) {type : ℕ}
    (htype : type < 2 ^ 32) (env : Env) (p : Path) :
    (∃ err, createEntry type env im p.str = (.error err, im)) ∨
    ∃ q m₁ P', find_log_entry_by_path im.mem p.str = none ∧
      find_log_entry_by_path im.mem (separate_path_and_file p.str).parent_path = some q ∧
      head im.mem + sizeof_log_entry + size im.mem q + sizeof_dentry ≤ im.disk_size ∧
      ParentAppended im.mem m₁ offs q ((lastComponent p.str).take (MAX_FILE_NAME_LEN - 1))
        (newInodeNumber im.mem) P' ∧
      ((im.disk_size < head m₁ + sizeof_log_entry ∧
          createEntry type env im p.str = (.error .ENOSPC, { im with mem := m₁ })) ∨
        ∃ m₂ N, head m₁ + sizeof_log_entry ≤ im.disk_size ∧
          NodeAppended m₁ m₂ (offs ++ [head im.mem]) (newInodeNumber im.mem) type N ∧
          createEntry type env im p.str = (.ok 0, { im with mem := m₂ })) := by
  have hds := im.disk_size_lt
  obtain ⟨-, hname, -⟩ := separate_spec p
  unfold createEntry
  cases hfind : find_log_entry_by_path im.mem p.str with
  | some e => exact .inl ⟨_, rfl⟩
  | none =>
    simp only
    cases hpar : find_log_entry_by_path im.mem (separate_path_and_file p.str).parent_path with
    | none => exact .inl ⟨_, rfl⟩
    | some q =>
      simp only
      by_cases hroom : im.disk_size < head im.mem + sizeof_log_entry + size im.mem q + sizeof_dentry
      · rw [if_pos hroom]
        exact .inl ⟨_, rfl⟩
      · rw [if_neg hroom]
        right
        obtain ⟨hq, -, hlast⟩ := find_path_some h (no_nul_parent p) hpar
        have hf0 : 0 ∉ (lastComponent p.str).take (MAX_FILE_NAME_LEN - 1) :=
          fun h0 => no_nul_last p (List.mem_of_mem_take h0)
        have hflen : ((lastComponent p.str).take (MAX_FILE_NAME_LEN - 1)).length < MAX_FILE_NAME_LEN := by
          rw [List.length_take, MAX_FILE_NAME_LEN]
          omega
        have hlt : head im.mem + sizeof_log_entry + (size im.mem q + sizeof_dentry) < 2 ^ 32 := by omega
        obtain ⟨happ, hino, hlive, hsize, hmode, hnode⟩ := appendParent_appends h hq hf0 hflen hk hlt
        rw [hname]
        set m₁ := appendParent im.mem q ((lastComponent p.str).take (MAX_FILE_NAME_LEN - 1))
          (newInodeNumber im.mem)
        have hP' : ParentAppended im.mem m₁ offs q
            ((lastComponent p.str).take (MAX_FILE_NAME_LEN - 1)) (newInodeNumber im.mem)
            (version m₁ (head im.mem)) := by
          refine ⟨happ, hino, ?_, hsize, hmode, hnode, fun hd => ?_⟩
          · rw [hlive, deleted_of_latest hlast]
            rfl
          · exact appendParent_filled h.sb_le (h.dirs q hq hd).whole hlt
        refine ⟨q, m₁, _, trivial, rfl, not_lt.mp hroom, hP', ?_⟩
        by_cases hroom' : im.disk_size < head m₁ + sizeof_log_entry
        · exact .inl ⟨hroom', by rw [if_pos hroom']⟩
        · right
          have hlt₁ : head m₁ + sizeof_log_entry < 2 ^ 32 := by omega
          obtain ⟨happ₂, hino₂, hlive₂, hsize₂, hmode₂, hnode₂⟩ :=
            appendEmpty_appends happ.wf env (k := newInodeNumber im.mem) (by omega) htype hlt₁
          exact ⟨_, _, not_lt.mp hroom', ⟨happ₂, hino₂, hlive₂, hsize₂, hmode₂, hnode₂,
            appendEmpty_filled happ.wf.sb_le (by omega) htype hlt₁⟩, by rw [if_neg hroom']⟩

/-- Without overflow the new size is the larger of the old one and the end of the buffer. -/
theorem newSize_eq {count offset : ℕ} (ho : offset + count < 2 ^ 31) :
    newSize m e count offset = max (size m e) (offset + count) := by
  rw [newSize, Nat.mod_eq_of_lt (by omega), Nat.mod_eq_of_lt (by omega), max_def]
  split <;> split <;> omega

/-- A new version of the file at `e` has been appended. -/
structure FileAppended (m m' : Mem) (offs : List ℕ) (e sz : ℕ) (F : Version) : Prop where
  appends : Appends m m' offs F
  ino : F.ino = inode_number m e
  live : F.live
  size : F.val.1.size = sz
  mode : F.val.1.mode = S_IFREG ∨ F.val.1.mode = mode m e
  node : F.node = .file

/-- A parent that is not a directory is rewritten like a file. -/
theorem ParentAppended.fileAppended {m₁ : Mem} {q k : ℕ} {f : Str} {P' : Version}
    (h : ParentAppended m m₁ offs q f k P') (hdir : ¬S_ISDIR (Wfs.mode m q)) :
    FileAppended m m₁ offs q (Wfs.size m q + sizeof_dentry) P' :=
  ⟨h.appends, h.ino, h.live, h.size, .inr h.mode, by rw [h.node, if_neg hdir]⟩

/-- **What a write that does not overflow an `int` can do**: nothing, or append the new version. -/
theorem wfs_write_effect (h : WellFormed im.mem offs) (env : Env) (p : Path) {buffer : List UInt8}
    {offset : ℕ} (hoff : offset + buffer.length < 2 ^ 31) (hsmall : ∀ o ∈ offs, size im.mem o < 2 ^ 31) :
    (∃ err, wfs_write env im p.str buffer offset = (.error err, im)) ∨
    ∃ e m' F, find_log_entry_by_path im.mem p.str = some e ∧
      head im.mem + sizeof_log_entry + max (size im.mem e) (offset + buffer.length) ≤ im.disk_size ∧
      FileAppended im.mem m' offs e (max (size im.mem e) (offset + buffer.length)) F ∧
      (offset ≤ size im.mem e → Filled im.mem m') ∧
      wfs_write env im p.str buffer offset =
        (.ok (toInt buffer.length), { im with mem := m' }) := by
  have hds := im.disk_size_lt
  unfold wfs_write
  cases hfind : find_log_entry_by_path im.mem p.str with
  | none => exact .inl ⟨_, rfl⟩
  | some e =>
    obtain ⟨he, -, -⟩ := find_path_some h p.no_nul hfind
    have hse := hsmall e he
    set sz := max (size im.mem e) (offset + buffer.length) with hsz
    have hnew : newSize im.mem e buffer.length offset = sz := newSize_eq hoff
    have hszlt : sz < 2 ^ 31 := max_lt hse hoff
    have hhead := head_lt im.mem
    simp only [hnew, intToSize_of_lt hszlt]
    rw [Nat.mod_eq_of_lt (show head im.mem + sizeof_log_entry + sz < 2 ^ 64 by
      rw [sizeof_log_entry]; omega)]
    by_cases hroom : im.disk_size < head im.mem + sizeof_log_entry + sz
    · rw [if_pos hroom]
      exact .inl ⟨_, rfl⟩
    · rw [if_neg hroom]
      right
      have hino : inode_number im.mem e < 2 ^ 32 := u32_lt _ _
      obtain ⟨happ, hk, hlive, hsize, hmode, hnode⟩ := appendFile_appends h env e offset
        buffer hino (by omega : head im.mem + sizeof_log_entry + sz < 2 ^ 32)
      exact ⟨e, _, _, rfl, not_lt.mp hroom, ⟨happ, hk, hlive, hsize, .inl hmode, hnode⟩,
        fun ho => appendFile_filled h.sb_le hino (by omega) (h.bounds he).2 ho hsz, rfl⟩

/-- The directory at `q` lists the number `j` exactly once. -/
def ListsOnce (m : Mem) (q j : ℕ) : Prop :=
  S_ISDIR (mode m q) ∧ ((dents m q).filter fun d => d.2 = j).length = 1

theorem ListsOnce.mem {q j : ℕ} (h : ListsOnce m q j) : ∃ d ∈ dents m q, d.2 = j := by
  obtain ⟨d, hd⟩ := List.exists_mem_of_length_pos (by rw [h.2]; exact Nat.one_pos)
  obtain ⟨hd, hj⟩ := List.mem_filter.mp hd
  exact ⟨d, hd, by simpa using hj⟩

/-- The parent at `q` has been given a version without the number `j`. -/
structure NameRemoved (m₁ m₂ : Mem) (offs : List ℕ) (m : Mem) (q j : ℕ) (P' : Version) : Prop where
  appends : Appends m₁ m₂ offs P'
  ino : P'.ino = inode_number m q
  live : P'.live
  size : P'.val.1.size + sizeof_dentry = size m q
  mode : P'.val.1.mode = S_IFDIR
  node : P'.node = .dir ((dents m q).filter fun d => d.2 ≠ j)
  filled : Filled m m₂

/-- Dropping the only entry of a number makes a list one shorter. -/
theorem length_filter_ne {ds : List (Str × ℕ)} {j : ℕ}
    (h : (ds.filter fun d => d.2 = j).length = 1) :
    (ds.filter fun d => d.2 ≠ j).length + 1 = ds.length := by
  have := List.length_eq_length_filter_add (l := ds) fun d => decide (d.2 = j)
  simp only [decide_not, ne_eq] at this h ⊢
  omega

theorem ListsOnce.unlinkSize {q j : ℕ} (hone : ListsOnce m q j) (hd : DirOk m q)
    (hsmall : size m q < 2 ^ 31) :
    unlinkSize (num_entries m q) = sizeof_dentry * ((dents m q).filter fun d => d.2 ≠ j).length ∧
      Wfs.unlinkSize (num_entries m q) + sizeof_dentry = size m q := by
  have hlen : (dents m q).length = num_entries m q := by
    rw [dents, List.length_map, List.length_range]
  have hdrop := length_filter_ne hone.2
  have hwhole : sizeof_dentry * num_entries m q = size m q := Nat.mul_div_cancel' hd.whole
  rw [sizeof_dentry] at hwhole
  rw [Wfs.unlinkSize, sizeof_dentry]
  omega

/-- Entries with the same version have the same fields. -/
theorem fields_of_version {m₁ : Mem} {q : ℕ} (h : version m₁ q = version m q) :
    mode m₁ q = mode m q ∧ inode_number m₁ q = inode_number m q ∧ size m₁ q = size m q ∧
      num_entries m₁ q = num_entries m q ∧ (S_ISDIR (mode m q) → dents m₁ q = dents m q) := by
  have hmode : mode m₁ q = mode m q := congrArg (fun r : Version => r.val.1.mode) h
  have hsize : size m₁ q = size m q := congrArg (fun r : Version => r.val.1.size) h
  refine ⟨hmode, congrArg Rec.ino h, hsize, by rw [num_entries, num_entries, hsize], fun hd => ?_⟩
  have hnode := congrArg Rec.node h
  simpa [version, hmode, hd] using hnode

/-- A directory is another inode than a file, so deleting the file leaves its version alone. -/
theorem version_delete {q : ℕ} (h : WellFormed m offs) (hq : q ∈ offs) (hqdir : S_ISDIR (mode m q))
    (hdir : ¬S_ISDIR (mode m e)) (hlaste : latest (log m) (inode_number m e) = some (version m e))
    (hlastq : latest (log m) (inode_number m q) = some (version m q)) :
    version (delete_log_entries m (inode_number m e)).1 q = version m q := by
  obtain ⟨-, -, -, -, hver, -⟩ := delete_log_entries_spec h (inode_number m e)
  rw [(hver q hq).1, killRec_of_ne]
  intro heq
  rw [show inode_number m q = inode_number m e from heq, hlaste] at hlastq
  have hmode : mode m e = mode m q :=
    congrArg (fun r : Version => r.val.1.mode) (Option.some.inj hlastq)
  exact hdir (hmode ▸ hqdir)

/-- The last step of an unlink: the parent gets a version without the number. -/
theorem nameRemoved {m₁ : Mem} {q j : ℕ} {ws : List (ℕ × ℕ)} (hwf : WellFormed m₁ offs) (hq : q ∈ offs)
    (hver : version m₁ q = version m q) (hone : ListsOnce m q j) (hd : DirOk m q)
    (hsmall : size m q < 2 ^ 31) (hhead : head m₁ = head m) (hws : Writes m m₁ ws)
    (hle : ∀ w ∈ ws, w.1 + w.2 ≤ head m)
    (hlt : head m + sizeof_log_entry + unlinkSize (num_entries m q) < 2 ^ 32) (env : Env) :
    let m₂ := appendUnlinked m₁ q j
      (env.inode (inode_number m q) S_IFDIR (unlinkSize (num_entries m q)))
    NameRemoved m₁ m₂ offs m q j (version m₂ (head m₁)) := by
  obtain ⟨hmode, -, -, -, hdents⟩ := fields_of_version hver
  obtain ⟨hlen, hsize⟩ := hone.unlinkSize hd hsmall
  have hdir₁ : S_ISDIR (mode m₁ q) := hmode ▸ hone.1
  rw [← hdents hone.1] at hlen
  rw [← hhead] at hlt
  have hk : inode_number m q < 2 ^ 32 := u32_lt _ _
  obtain ⟨happ, hino, hlive, hP'size, hP'mode, hnode⟩ :=
    appendUnlinked_appends hwf hq hdir₁ env hk hlt hlen
  have hfill := appendUnlinked_filled hwf hq hdir₁ env hk hlt hlen
  rw [hdents hone.1] at hnode
  exact ⟨happ, hino, hlive, by rw [hP'size, hsize], hP'mode, hnode,
    hfill.after hws hle hhead (hhead ▸ happ.head_le)⟩

/-- An unlink without room for the new parent marks the inode and fails. -/
theorem wfs_unlink_noRoom (h : WellFormed im.mem offs) (env : Env) (p : Path) {q : ℕ}
    (hfind : find_log_entry_by_path im.mem p.str = some e) (hdir : ¬S_ISDIR (mode im.mem e))
    (hpar : find_log_entry_by_path im.mem (separate_path_and_file p.str).parent_path = some q)
    (hroom : im.disk_size <
      (head im.mem + sizeof_log_entry + unlinkSize (num_entries im.mem q)) % 2 ^ 64) :
    wfs_unlink env im p.str = (.error .ENOSPC,
      { im with mem := (delete_log_entries im.mem (inode_number im.mem e)).1 }) := by
  obtain ⟨hq, -, -⟩ := find_path_some h (no_nul_parent p) hpar
  obtain ⟨-, -, hhead, -, hver, -⟩ := delete_log_entries_spec h (inode_number im.mem e)
  have hnum : num_entries (delete_log_entries im.mem (inode_number im.mem e)).1 q =
      num_entries im.mem q := by
    rw [num_entries, num_entries, (hver q hq).2]
  simp only [wfs_unlink, hfind, hpar, if_neg hdir, hhead, hnum, if_pos hroom]

/-- **What an unlink whose parent lists the file once can do**: nothing; mark the inode deleted only; or
mark it and append the new parent. -/
theorem wfs_unlink_effect (h : WellFormed im.mem offs) (env : Env) (p : Path)
    (honce : ∀ e q, find_log_entry_by_path im.mem p.str = some e → ¬S_ISDIR (mode im.mem e) →
      find_log_entry_by_path im.mem (separate_path_and_file p.str).parent_path = some q →
      ListsOnce im.mem q (inode_number im.mem e)) (hhead : head im.mem < 2 ^ 31) :
    (∃ err, wfs_unlink env im p.str = (.error err, im)) ∨
    ∃ e q m₁, find_log_entry_by_path im.mem p.str = some e ∧ ¬S_ISDIR (mode im.mem e) ∧
      find_log_entry_by_path im.mem (separate_path_and_file p.str).parent_path = some q ∧
      ListsOnce im.mem q (inode_number im.mem e) ∧ WellFormed m₁ offs ∧
      log m₁ = kill markDeleted (inode_number im.mem e) (log im.mem) ∧ head m₁ = head im.mem ∧
      (∃ ws, Writes im.mem m₁ ws ∧ ∀ w ∈ ws, w.1 + w.2 ≤ head im.mem) ∧
      ((im.disk_size < head im.mem + (sizeof_log_entry - sizeof_dentry) + size im.mem q ∧
          wfs_unlink env im p.str = (.error .ENOSPC, { im with mem := m₁ })) ∨
        ∃ m₂ P', head im.mem + (sizeof_log_entry - sizeof_dentry) + size im.mem q ≤ im.disk_size ∧
          NameRemoved m₁ m₂ offs im.mem q (inode_number im.mem e) P' ∧
          wfs_unlink env im p.str = (.ok 0, { im with mem := m₂ })) := by
  unfold wfs_unlink
  cases hfind : find_log_entry_by_path im.mem p.str with
  | none => exact .inl ⟨_, rfl⟩
  | some e =>
    simp only
    by_cases hdir : S_ISDIR (mode im.mem e)
    · rw [if_pos hdir]
      exact .inl ⟨_, rfl⟩
    rw [if_neg hdir]
    cases hpar : find_log_entry_by_path im.mem (separate_path_and_file p.str).parent_path with
    | none => exact .inl ⟨_, rfl⟩
    | some q =>
      simp only
      right
      have hone := honce e q hfind hdir hpar
      obtain ⟨he, -, hlaste⟩ := find_path_some h p.no_nul hfind
      obtain ⟨hq, -, hlastq⟩ := find_path_some h (no_nul_parent p) hpar
      obtain ⟨hwf, hlog, hhead₁, hflag, hver, ws, hws, hle⟩ :=
        delete_log_entries_spec h (inode_number im.mem e)
      obtain ⟨hmode, hinoq, -, hnum, hdents⟩ :=
        fields_of_version (version_delete h hq hone.1 hdir hlaste hlastq)
      have hinoe : inode_number (delete_log_entries im.mem (inode_number im.mem e)).1 e =
          inode_number im.mem e := (congrArg Rec.ino (hver e he).1).trans killRec_ino
      have hbound := (h.bounds hq).2
      rw [nextEntry, sizeof_log_entry] at hbound
      have hsmall : size im.mem q < 2 ^ 31 := by omega
      have hd := h.dirs q hq hone.1
      obtain ⟨hlen, hsize⟩ := hone.unlinkSize hd hsmall
      have hremoved := fun hlt => nameRemoved hwf hq (version_delete h hq hone.1 hdir hlaste hlastq)
        hone hd hsmall hhead₁ hws hle hlt env
      rw [hlaste] at hflag
      rw [hnum, hhead₁, hinoe, hinoq, hflag]
      generalize (delete_log_entries im.mem (inode_number im.mem e)).1 = m₁ at *
      generalize unlinkSize (num_entries im.mem q) = sz at *
      have hds := im.disk_size_lt
      rw [sizeof_dentry] at hsize
      rw [Nat.mod_eq_of_lt (show sz < 2 ^ 32 by omega),
        Nat.mod_eq_of_lt (show head im.mem + sizeof_log_entry + sz < 2 ^ 64 by
          rw [sizeof_log_entry]; omega)]
      have hroom_iff : im.disk_size < head im.mem + sizeof_log_entry + sz ↔
          im.disk_size < head im.mem + (sizeof_log_entry - sizeof_dentry) + size im.mem q := by
        rw [← hsize]
        simp only [sizeof_log_entry, sizeof_dentry]
        omega
      refine ⟨e, q, m₁, rfl, hdir, rfl, hone, hwf, hlog, hhead₁, ⟨ws, hws, hle⟩, ?_⟩
      by_cases hroom : im.disk_size < head im.mem + sizeof_log_entry + sz
      · exact .inl ⟨hroom_iff.mp hroom, by rw [if_pos hroom]⟩
      · refine .inr ⟨_, _, not_lt.mp fun hr => hroom (hroom_iff.mpr hr), hremoved (by omega), ?_⟩
        rw [if_neg hroom]
        rfl

end OperatingSystems.Wfs
