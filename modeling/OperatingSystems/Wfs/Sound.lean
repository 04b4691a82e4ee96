import OperatingSystems.Lib.VersionCompaction
import OperatingSystems.Wfs.Steps

/-!
# The invariant of the mounted file system

`Sound im offs` is what every image met along a run of the mounted file system has, as long as each call
meets `Regular`: the log tiles, and the version log it holds is `VersionLog.Good` for root inode `0`.  Two
states of the disk excuse a dead name: the disk is `Full` when not even an empty entry fits, and a
directory is `Stuck` when not even a version with one name less fits.

`sound_mkfs` starts a run; `created_good`, `fileAppended_good` and `nameRemoved_good` say what the three
kinds of change do to the version log.
-/

namespace OperatingSystems.Wfs

open OperatingSystems.ByteMemory OperatingSystems.ByteMemory.Mem OperatingSystems.BoundedLoop
open OperatingSystems.VersionLog OperatingSystems.Namespace OperatingSystems.GuardedRuns

/-- Not even an entry without data fits. -/
def Full (im : Image) : Prop := im.disk_size < head im.mem + sizeof_log_entry

/-- No version of directory `i` with one name less fits. -/
def Stuck (im : Image) (i : ℕ) : Prop :=
  ∃ r, latest (log im.mem) i = some r ∧
    im.disk_size < head im.mem + (sizeof_log_entry - sizeof_dentry) + r.val.1.size

/-- The invariant; `offs` are the offsets of the entries. -/
structure Sound (im : Image) (offs : List ℕ) : Prop where
  wf : WellFormed im.mem offs
  head_le : head im.mem ≤ max (sizeof_sb + sizeof_log_entry) im.disk_size
  numbers : ∀ r ∈ log im.mem, r.ino < offs.length
  good : Good (log im.mem) 0 (Full im) (Stuck im)

/-- The calls that keep the invariant: created names fit their field, files are written without
overflowing an `int`, and an unlinked file is listed once by the directory its path names. -/
def Regular (im : Image) : Call → Prop
  | .mknod _ p | .mkdir _ p => (lastComponent p.str).length < MAX_FILE_NAME_LEN
  | .write _ p buffer offset => offset + buffer.length < 2 ^ 31 ∧
      ∃ e, find_log_entry_by_path im.mem p.str = some e ∧ S_ISREG (mode im.mem e)
  | .unlink _ p => ∀ e q, find_log_entry_by_path im.mem p.str = some e → ¬S_ISDIR (mode im.mem e) →
      find_log_entry_by_path im.mem (separate_path_and_file p.str).parent_path = some q →
      ListsOnce im.mem q (inode_number im.mem e)

variable {im : Image} {offs : List ℕ} {m : Mem} {e : ℕ}

/-! ### A fresh image -/

/-- **`mkfs`** leaves one entry, an empty directory with number `0`. -/
theorem mkfs_spec (env : Env) (disk : Image) :
    let m := (mkfs env disk).mem
    WellFormed m [sizeof_sb] ∧ head m = sizeof_sb + sizeof_log_entry ∧
      log m = [version m sizeof_sb] ∧ inode_number m sizeof_sb = 0 ∧ deleted m sizeof_sb = 0 ∧
      (version m sizeof_sb).node = .dir [] := by
  intro m
  set m₁ := putInode (putHead (disk.mem.put32 0 WFS_MAGIC) 0) sizeof_sb (env.inode 0 S_IFDIR 0)
  obtain ⟨hino, hdel, hmode, hsize⟩ := putInode_fields (putHead (disk.mem.put32 0 WFS_MAGIC) 0) sizeof_sb
    (env.inode 0 S_IFDIR 0)
  have hfield : ∀ k, sizeof_sb ≤ k → m.u32 k = m₁.u32 k := by
    intro k hk
    rw [sizeof_sb] at hk
    exact (u32_put32_out _ _ (by omega)).trans (u32_put32_out _ _ (by omega))
  have hhead₁ : head m₁ = 0 := (putInode_head le_rfl).trans (u32_put32 _ _ _)
  have hhead : head m = sizeof_sb + sizeof_log_entry := by
    have hsnd : head (putHead m₁ (head m₁ + sizeof_log_entry)) = sizeof_log_entry := by
      rw [hhead₁]
      exact u32_put32 _ _ _
    refine (u32_put32 _ _ _).trans ?_
    rw [hsnd]
    rfl
  have hino' : inode_number m sizeof_sb = 0 := (hfield _ le_rfl).trans hino
  have hdel' : deleted m sizeof_sb = 0 := (hfield _ (by omega)).trans hdel
  have hmode' : mode m sizeof_sb = S_IFDIR := (hfield _ (by omega)).trans hmode
  have hsize' : size m sizeof_sb = 0 := (hfield _ (by omega)).trans hsize
  have htiles : Tiles m [sizeof_sb] := by
    have hnext : nextEntry m sizeof_sb = head m := by rw [nextEntry, hsize', hhead, Nat.add_zero]
    exact Chain.cons (hnext ▸ Chain.nil _)
  have hnum : num_entries m sizeof_sb = 0 := by rw [num_entries, hsize']; rfl
  refine ⟨⟨htiles, fun o ho _ => ?_⟩, hhead, by rw [log_eq htiles, List.map_singleton], hino', hdel', ?_⟩
  · rw [List.mem_singleton.mp ho]
    refine ⟨by rw [hsize']; exact dvd_zero _, ?_, ?_⟩ <;>
    · intro i hi
      rw [hnum] at hi
      omega
  · show (if S_ISDIR (mode m sizeof_sb) then _ else _) = _
    rw [hmode', if_pos (by decide), dents, hnum]
    rfl

/-- The log of a fresh image satisfies the invariant of logs. -/
theorem good_single {r : Version} {full : Prop} {stuck : ℕ → Prop} (hino : r.ino = 0) (hlive : r.live)
    (hnode : r.node = .dir []) : Good [r] 0 full stuck := by
  have hlast : latest [r] 0 = some r := by rw [latest_singleton, hlive, hino]; rfl
  have hnodes : ∀ i ds, IsDir (nodes [r]) i ds → ds = [] := by
    intro i ds hi
    rw [IsDir, nodes, latest_singleton, hlive, hino] at hi
    by_cases h : 0 = i
    · simpa [h, hnode] using hi.symm
    · simp [h] at hi
  have hlists : ∀ p i, ¬Lists (nodes [r]) p i := by
    rintro p i ⟨ds, hp, d, hd, -⟩
    rw [hnodes p ds hp] at hd
    cases hd
  refine ⟨List.pairwise_singleton _ _, ⟨⟨[], ?_⟩, fun p => hlists p 0, ?_, ?_, ?_, ?_⟩, ?_, ?_,
    rootFirst_of_head hlast, r, [], rfl, hino⟩
  · rw [IsDir, nodes_of_latest hlast, hnode]
  · intro p ds hp
    rw [hnodes p ds hp]
    simp
  · intro p ds hp
    rw [hnodes p ds hp]
    simp
  · exact fun p q i hp => absurd hp (hlists p i)
  · exact fun p i hp => absurd hp (hlists p i)
  · exact Listed.single (.inr hnode)
  · exact Listed.single (.inr hnode)

theorem sound_mkfs (env : Env) (disk : Image) : Sound (mkfs env disk) [sizeof_sb] := by
  obtain ⟨hwf, hhead, hlog, hino, hdel, hnode⟩ := mkfs_spec env disk
  refine ⟨hwf, by rw [hhead]; exact le_max_left _ _, ?_, ?_⟩
  · intro r hr
    rw [hlog, List.mem_singleton] at hr
    rw [hr]
    show inode_number _ _ < 1
    rw [hino]
    decide
  · rw [hlog]
    refine good_single hino ?_ hnode
    show (deleted _ _ == 0) = true
    rw [hdel]
    rfl

/-! ### What the invariant gives -/

/-- The first entry has the number of the first version. -/
theorem first_number (h : Tiles m offs) {r : Version} {rest : List Version} (hlog : log m = r :: rest)
    {root : ℕ} (hr : r.ino = root) : inode_number m sizeof_sb = root := by
  rw [log_eq h] at hlog
  rw [Tiles] at h
  generalize sizeof_sb = a at h ⊢
  cases h with
  | nil => simp at hlog
  | cons _ =>
    rw [List.map_cons, List.cons.injEq] at hlog
    rw [← hr, ← hlog.1]
    rfl

/-- The first entry belongs to the root. -/
theorem root_number {full : Prop} {stuck : ℕ → Prop} {root : ℕ} (h : Tiles m offs)
    (hg : Good (log m) root full stuck) : inode_number m sizeof_sb = root := by
  obtain ⟨r, rest, hlog, hr⟩ := hg.first
  exact first_number h hlog hr

theorem Image.head_lt (im : Image) (h : head im.mem ≤ max (sizeof_sb + sizeof_log_entry) im.disk_size) :
    head im.mem < 2 ^ 31 := by
  have hdisk := im.disk_size_lt
  simp only [sizeof_sb, sizeof_log_entry] at h
  omega

/-- Entries are smaller than the head. -/
theorem WellFormed.size_lt_head (h : WellFormed m offs) {o : ℕ} (ho : o ∈ offs) : size m o < head m := by
  have hb := (h.bounds ho).2
  rw [nextEntry, sizeof_log_entry] at hb
  omega

theorem Sound.head_lt (h : Sound im offs) : head im.mem < 2 ^ 31 :=
  im.head_lt h.head_le

theorem WellFormed.length_le (h : WellFormed m offs) : offs.length ≤ head m := by
  have := h.tiles.length_le (lt_nextEntry m)
  omega

/-- The next inode number is new and does not overflow. -/
theorem Sound.newInodeNumber (h : Sound im offs) : newInodeNumber im.mem ≤ offs.length ∧
    newInodeNumber im.mem < 2 ^ 31 ∧ ∀ r ∈ log im.mem, r.ino ≠ newInodeNumber im.mem := by
  have hmax := (find_max_spec h.wf.tiles).1
  have hlen := h.wf.length_le
  have hhead := h.head_lt
  have hne : offs ≠ [] := by
    obtain ⟨r, rest, hlog, -⟩ := h.good.first
    rintro rfl
    rw [log_eq h.wf.tiles] at hlog
    simp at hlog
  have hlt : find_max_inode_number im.mem < offs.length :=
    find_max_of_all (P := (· < offs.length)) h.wf.tiles (List.length_pos_of_ne_nil hne) h.numbers
  have heq : Wfs.newInodeNumber im.mem = find_max_inode_number im.mem + 1 :=
    Nat.mod_eq_of_lt (by omega)
  rw [heq]
  refine ⟨hlt, by omega, fun r hr => ?_⟩
  have := hmax r hr
  omega

theorem Sound.size_lt (h : Sound im offs) : ∀ o ∈ offs, size im.mem o < 2 ^ 31 :=
  fun _ ho => (h.wf.size_lt_head ho).trans h.head_lt

/-! ### The log under each operation -/

section Operations

variable {full : Prop} {stuck : ℕ → Prop} {q : ℕ} {p : Path}

theorem pos_lt_head (h : WellFormed m offs) {r : Version} (hr : r ∈ log m) : r.pos < head m := by
  have hb := (h.bounds ((mem_log h.tiles).mp hr).1).2
  have := lt_nextEntry m r.pos
  omega

/-- The node of a found entry. -/
theorem nodes_found (hl : latest (log m) (inode_number m e) = some (version m e)) :
    nodes (log m) (inode_number m e) = some (if S_ISDIR (mode m e) then .dir (dents m e) else .file) :=
  nodes_of_latest hl

/-- **A name that a lookup does not find below a parent is new there.** -/
theorem fresh_name (h : WellFormed m offs) (hg : Good (log m) 0 full stuck)
    (hnone : find_log_entry_by_path m p.str = none)
    (hq : find_log_entry_by_path m (separate_path_and_file p.str).parent_path = some q)
    (hstuck : ¬stuck (inode_number m q)) :
    (S_ISDIR (mode m q) → ∀ d ∈ dents m q, d.1 ≠ lastComponent p.str) ∧
      (inode_number m q = 0 → scan (log m) (lastComponent p.str) (log m) = none) := by
  obtain ⟨-, -, htok⟩ := separate_spec p
  obtain ⟨-, hlook, hlast⟩ := find_path_some h (no_nul_parent p) hq
  rw [find_path_none h p.no_nul, root_number h.tiles hg, htok] at hnone
  rw [root_number h.tiles hg] at hlook
  have hne : lastComponent p.str ≠ [] := by
    intro hnil
    rw [if_pos hnil, List.append_nil, hlook] at hnone
    cases hnone
  rw [if_neg hne] at hnone
  obtain ⟨hhit, hscan⟩ := lookup_snoc_none hg.sorted hg.rootless hlook hnone
  refine ⟨fun hdir d hd hname => ?_, hscan⟩
  have hnode : (version m q).node = .dir (dents m q) := if_pos hdir
  have hlive : (latest (log m) d.2).isSome := by
    rw [← nodes_isSome]
    refine (hg.tree.live (inode_number m q) d.2 ⟨dents m q, ?_, d, hd, rfl⟩).resolve_right hstuck
    rw [IsDir, nodes_found hlast, if_pos hdir]
  have : (hit (log m) (lastComponent p.str) (version m q)).isSome :=
    hit_isSome.mpr ⟨_, hnode, d, hd, hname, hlive⟩
  rw [hhit] at this
  cases this

/-- A file's new version. -/
theorem fileAppended_good (h : WellFormed m offs) (hg : Good (log m) 0 full stuck) {m' : Mem} {sz : ℕ}
    {F : Version} (hF : FileAppended m m' offs e sz F) (hnode : ¬S_ISDIR (mode m e))
    (hlast : latest (log m) (inode_number m e) = some (version m e)) :
    Good (log m') 0 full stuck ∧ nodes (log m') = nodes (log m) := by
  rw [hF.appends.log_eq]
  refine hg.rewriteFile hF.live hF.node ?_ fun s hs => hF.appends.pos ▸ pos_lt_head h hs
  rw [hF.ino, nodes_found hlast, if_neg hnode]

/-- The parent and the node of a creation in a directory. -/
theorem created_good (h : WellFormed m offs) (hg : Good (log m) 0 full stuck) (hfull : ¬full)
    (hstuck : ¬stuck (inode_number m q)) (hnone : find_log_entry_by_path m p.str = none)
    (hq : find_log_entry_by_path m (separate_path_and_file p.str).parent_path = some q)
    (hdir : S_ISDIR (mode m q)) {m₁ m₂ : Mem} {k type : ℕ} {P' N : Version}
    (hnew : ∀ r ∈ log m, r.ino ≠ k)
    (hP' : ParentAppended m m₁ offs q (lastComponent p.str) k P')
    (hN : NodeAppended m₁ m₂ (offs ++ [head m]) k type N) :
    Good (log m₂) 0 full stuck ∧ nodes (log m₂) = Function.update (Function.update (nodes (log m))
      (inode_number m q) (some (.dir (dents m q ++ [(lastComponent p.str, k)])))) k
        (some (newNode type)) := by
  obtain ⟨hn, hroot⟩ := fresh_name h hg hnone hq hstuck
  obtain ⟨-, -, hlast⟩ := find_path_some h (no_nul_parent p) hq
  have hlog : log m₂ = log m ++ [P', N] := by
    rw [hN.appends.log_eq, hP'.appends.log_eq, List.append_assoc]
    rfl
  have hnode := hP'.node
  rw [if_pos hdir] at hnode
  obtain rfl := hN.ino
  rw [hlog, ← hN.node]
  refine hg.create hfull hlast (if_pos hdir) hP'.live hP'.ino hnode hN.live ?_ hnew (hn hdir) hroot
    (fun s hs => hP'.appends.pos ▸ pos_lt_head h hs) ?_
  · exact hN.node ▸ newNode_cases type
  · rw [hN.appends.pos]
    exact pos_lt_head hP'.appends.wf (by rw [hP'.appends.log_eq]; simp)

/-- The parent of a removed file. -/
theorem nameRemoved_good (h : WellFormed m offs) (hg : Good (log m) 0 full stuck) {m₁ m₂ : Mem}
    (hfile : ¬S_ISDIR (mode m e)) (hlaste : latest (log m) (inode_number m e) = some (version m e))
    (hlastq : latest (log m) (inode_number m q) = some (version m q))
    (hone : ListsOnce m q (inode_number m e))
    (hlog : log m₁ = kill markDeleted (inode_number m e) (log m)) (hhead : head m₁ = head m)
    {P' : Version} (hP' : NameRemoved m₁ m₂ offs m q (inode_number m e) P') :
    Good (log m₂) 0 full stuck ∧ nodes (log m₂) = Function.update (Function.update (nodes (log m))
      (inode_number m q) (some (.dir ((dents m q).filter fun d => d.2 ≠ inode_number m e))))
        (inode_number m e) none := by
  rw [hP'.appends.log_eq, hlog]
  refine hg.remove hlastq (if_pos hone.1) ?_ hone.mem hP'.live hP'.ino hP'.node fun s hs => ?_
  · rw [nodes_found hlaste, if_neg hfile]
  · rw [hP'.appends.pos, hhead]
    exact pos_lt_head h hs

end Operations

/-! ### Changes of the disk -/

variable {m' : Mem}

theorem Full.after (h : Full im) (hh : head im.mem ≤ head m') : Full { im with mem := m' } := by
  rw [Full] at h ⊢
  exact h.trans_le (Nat.add_le_add_right hh _)

/-- A directory whose last version stays the last one stays stuck. -/
theorem Stuck.after {i : ℕ} (h : Stuck im i) (hh : head im.mem ≤ head m')
    (hl : latest (log m') i = latest (log im.mem) i) : Stuck { im with mem := m' } i := by
  obtain ⟨r, hr, hroom⟩ := h
  exact ⟨r, hl.trans hr, hroom.trans_le (by simp only; omega)⟩

/-- An appended version of another number leaves the last versions of directories alone. -/
theorem latest_appended {r : Version} {i : ℕ} (h : Appends m m' offs r) (hlive : r.live)
    (hne : r.ino ≠ i) : latest (log m') i = latest (log m) i := by
  rw [h.log_eq, latest_snoc hlive, if_neg hne]

end OperatingSystems.Wfs
