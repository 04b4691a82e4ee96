import OperatingSystems.Wfs.Fsck

/-!
# The namespace across mounts and compactions

The machine here also runs `fsck.wfs` between calls.  `NamespaceTree` says of an image that its directories
form a tree without dangling or aliased names.

* **`namespace_tree`** — it holds in every state of a run whose steps meet `KeepsTree`: creations that go
  through have room for both entries, a short name and a directory as parent, files only are written, and a
  file that is unlinked is listed once by a parent with room for its new version.
* `namespace_dangles` — a creation that runs out of room half way leaves a name without an inode.
-/

namespace OperatingSystems.Wfs

open OperatingSystems.ByteMemory OperatingSystems.VersionLog OperatingSystems.Namespace
open OperatingSystems.GuardedRuns

/-- What changes an image: a call of the mounted file system, or `fsck.wfs` between two mounts. -/
inductive Op
  | call (c : Call)
  | fsck

def Op.run (im : Image) : Op → Image
  | .call c => (c.run im).2
  | .fsck => Wfs.fsck im

def OpStep (im : Image) (op : Op) (im' : Image) : Prop := im' = op.run im

/-- The entry at `e` is the latest one of a directory. -/
def LatestDir (m : Mem) (e : ℕ) : Prop :=
  find_latest_log_entry m (inode_number m e) = some e ∧ S_ISDIR (mode m e)

/-- The names of a directory are distinct, every name has a live inode, and every live inode but the root
is named by exactly one dentry of exactly one directory. -/
structure NamespaceTree (m : Mem) : Prop where
  distinct : ∀ e, LatestDir m e → ((dents m e).map Prod.fst).Nodup
  live : ∀ e, LatestDir m e → ∀ d ∈ dents m e, (find_latest_log_entry m d.2).isSome
  one_name : ∀ i, i ≠ inode_number m sizeof_sb → (find_latest_log_entry m i).isSome →
    ∃! x : ℕ × ℕ, LatestDir m x.1 ∧ ∃ n, (dents m x.1)[x.2]? = some (n, i)

instance (m : Mem) (q j : ℕ) : Decidable (ListsOnce m q j) := inferInstanceAs (Decidable (_ ∧ _))

/-- A creation that gets past its first check has a name that fits its field, a directory as parent, an
inode number below `INT_MAX` and room for both entries. -/
def CreatesBoth (im : Image) (p : Path) : Prop :=
  find_log_entry_by_path im.mem p.str = none →
    ∀ q ∈ find_log_entry_by_path im.mem (separate_path_and_file p.str).parent_path,
      head im.mem + sizeof_log_entry + size im.mem q + sizeof_dentry ≤ im.disk_size →
        (lastComponent p.str).length < MAX_FILE_NAME_LEN ∧ S_ISDIR (mode im.mem q) ∧
          newInodeNumber im.mem < 2 ^ 31 - 1 ∧
          head im.mem + sizeof_log_entry + size im.mem q + sizeof_dentry + sizeof_log_entry ≤ im.disk_size

/-- The parent of a file to unlink lists it once and has room for its new version. -/
def UnlinksOne (im : Image) (p : Path) : Prop :=
  ∀ e ∈ find_log_entry_by_path im.mem p.str, ¬S_ISDIR (mode im.mem e) →
    ∀ q ∈ find_log_entry_by_path im.mem (separate_path_and_file p.str).parent_path,
      ListsOnce im.mem q (inode_number im.mem e) ∧
        head im.mem + (sizeof_log_entry - sizeof_dentry) + size im.mem q ≤ im.disk_size

instance (im : Image) (p : Path) : Decidable (CreatesBoth im p) := by
  unfold CreatesBoth
  infer_instance

instance (im : Image) (p : Path) : Decidable (UnlinksOne im p) := by
  unfold UnlinksOne
  infer_instance

/-- The steps that keep the namespace a tree. -/
def KeepsTree (im : Image) : Op → Prop
  | .call (.mknod _ p) | .call (.mkdir _ p) => CreatesBoth im p
  | .call (.write _ p buffer offset) => offset + buffer.length < 2 ^ 31 ∧
      ∀ e ∈ find_log_entry_by_path im.mem p.str, S_ISREG (mode im.mem e)
  | .call (.unlink _ p) => UnlinksOne im p
  | .fsck => True

/-- The invariant of such runs: nothing is dead or unlisted. -/
structure Consistent (im : Image) (offs : List ℕ) : Prop where
  wf : WellFormed im.mem offs
  head_le : head im.mem ≤ max (sizeof_sb + sizeof_log_entry) im.disk_size
  numbers : ∀ r ∈ log im.mem, r.ino < 2 ^ 31 - 1
  good : Good (log im.mem) 0 False fun _ => False
  listed : AllListed (nodes (log im.mem)) 0

variable {im : Image} {offs : List ℕ} {m m' : Mem} {p : Path} {e i : ℕ}

/-! ### What the invariant says of the bytes -/

theorem LatestDir.latest (h : WellFormed m offs) (hd : LatestDir m e) :
    latest (log m) (inode_number m e) = some (version m e) ∧
      IsDir (nodes (log m)) (inode_number m e) (dents m e) := by
  obtain ⟨-, -, -, hlast⟩ := found_spec h hd.1
  refine ⟨hlast, ?_⟩
  rw [IsDir, nodes_found hlast, if_pos hd.2]

/-- A directory of the namespace has a latest entry. -/
theorem latestDir_of_isDir (h : WellFormed m offs) {ds : List (Str × ℕ)} (hd : IsDir (nodes (log m)) i ds) :
    ∃ e, LatestDir m e ∧ inode_number m e = i ∧ dents m e = ds := by
  obtain ⟨r, hr, hnode⟩ := Option.map_eq_some_iff.mp (show (latest (log m) i).map Rec.node = _ from hd)
  obtain ⟨-, hver⟩ := (mem_log h.tiles).mp (mem_of_latest hr).1
  rw [← hver] at hnode
  obtain ⟨hdir, hds⟩ := version_node_dir.mp hnode
  have hino : inode_number m r.pos = i := (congrArg Rec.ino hver).trans (mem_of_latest hr).2.2
  refine ⟨r.pos, ⟨?_, hdir⟩, hino, hds⟩
  rw [hino, find_latest_eq h.tiles, hr, Option.map_some]

theorem find_latest_isSome (h : WellFormed m offs) :
    (find_latest_log_entry m i).isSome = (nodes (log m) i).isSome := by
  rw [find_latest_eq h.tiles, Option.isSome_map, nodes_isSome]

/-- **The invariant gives the tree.** -/
theorem Consistent.namespaceTree (h : Consistent im offs) : NamespaceTree im.mem := by
  have htree := h.good.tree
  refine ⟨fun e he => ?_, fun e he d hd => ?_, fun i hi hlive => ?_⟩
  · exact htree.names _ _ (he.latest h.wf).2
  · rw [find_latest_isSome h.wf]
    exact (htree.live _ _ ⟨_, (he.latest h.wf).2, d, hd, rfl⟩).resolve_right id
  · rw [root_number h.wf.tiles h.good] at hi
    rw [find_latest_isSome h.wf] at hlive
    obtain ⟨q, ds, hq, d, hd, rfl⟩ := h.listed i hi hlive
    obtain ⟨e, he, rfl, rfl⟩ := latestDir_of_isDir h.wf hq
    obtain ⟨k, hk⟩ := List.mem_iff_getElem?.mp hd
    refine ⟨(e, k), ⟨he, d.1, hk⟩, ?_⟩
    rintro ⟨e', k'⟩ ⟨he', n, hk'⟩
    have hd' := List.mem_of_getElem? hk'
    have hino : inode_number im.mem e' = inode_number im.mem e :=
      htree.one_parent _ _ d.2 ⟨_, (he'.latest h.wf).2, _, hd', rfl⟩ ⟨_, hq, d, hd, rfl⟩
    obtain rfl : e' = e := Option.some.inj (he'.1.symm.trans (hino ▸ he.1))
    -- one directory lists the number, and once
    have hnum := htree.numbers _ _ hq
    have hlt : k' < ((dents im.mem e').map Prod.snd).length := by
      rw [List.length_map]
      exact (List.getElem?_eq_some_iff.mp hk').1
    have hsnd : ((dents im.mem e').map Prod.snd)[k']? = ((dents im.mem e').map Prod.snd)[k]? := by
      rw [List.getElem?_map, List.getElem?_map, hk, hk']
      rfl
    rw [(List.getElem?_inj hlt hnum).mp hsnd]

/-! ### The steps -/

theorem consistent_mkfs (env : Env) (disk : Image) : Consistent (mkfs env disk) [sizeof_sb] := by
  obtain ⟨hwf, hhead, hlog, hino, hdel, hnode⟩ := mkfs_spec env disk
  have hlive : (version (mkfs env disk).mem sizeof_sb).live := by
    show (deleted _ _ == 0) = true
    rw [hdel]
    rfl
  refine ⟨hwf, by rw [hhead]; exact le_max_left _ _, fun r hr => ?_, ?_, fun i hi hsome => ?_⟩
  · rw [hlog, List.mem_singleton] at hr
    rw [hr, show (version _ sizeof_sb).ino = 0 from hino]
    decide
  · rw [hlog]
    exact good_single hino hlive hnode
  · rw [hlog, nodes_isSome, latest_singleton, show (version _ sizeof_sb).ino = 0 from hino] at hsome
    simp [Ne.symm hi] at hsome

theorem Consistent.newInodeNumber (h : Consistent im offs) :
    newInodeNumber im.mem < 2 ^ 31 ∧ ∀ r ∈ log im.mem, r.ino ≠ newInodeNumber im.mem := by
  have hmax := (find_max_spec h.wf.tiles).1
  have hlt : find_max_inode_number im.mem < 2 ^ 31 - 1 :=
    find_max_of_all (P := (· < 2 ^ 31 - 1)) h.wf.tiles (by decide) h.numbers
  have heq : Wfs.newInodeNumber im.mem = find_max_inode_number im.mem + 1 :=
    Nat.mod_eq_of_lt (by omega)
  rw [heq]
  refine ⟨by omega, fun r hr => ?_⟩
  have := hmax r hr
  omega

theorem Consistent.head_lt (h : Consistent im offs) : head im.mem < 2 ^ 31 :=
  im.head_lt h.head_le

theorem Consistent.size_lt (h : Consistent im offs) : ∀ o ∈ offs, size im.mem o < 2 ^ 31 :=
  fun _ ho => (h.wf.size_lt_head ho).trans h.head_lt

/-- **A creation** that goes through lists the new inode. -/
theorem Consistent.createEntry (h : Consistent im offs) {type : ℕ} (htype : type < 2 ^ 32) (env : Env)
    (hc : CreatesBoth im p) : ∃ offs', Consistent (createEntry type env im p.str).2 offs' := by
  obtain ⟨hk31, hnew⟩ := h.newInodeNumber
  rcases createEntry_effect h.wf hk31 htype env p with
    ⟨err, heq⟩ | ⟨q, m₁, P', hnone, hq, hroom, hP', hrest⟩
  · exact ⟨offs, by rw [heq]; exact h⟩
  obtain ⟨hname, hdir, hk, hroom₁⟩ := hc hnone q hq hroom
  have htake : (lastComponent p.str).take (MAX_FILE_NAME_LEN - 1) = lastComponent p.str :=
    List.take_of_length_le (by omega)
  rw [htake] at hP'
  have hhead₁ : head m₁ = head im.mem + sizeof_log_entry + (size im.mem q + sizeof_dentry) := by
    rw [hP'.appends.head_eq, hP'.size]
  rcases hrest with ⟨hfull, -⟩ | ⟨m₂, N, -, hN, heq⟩
  · rw [hhead₁] at hfull
    omega
  obtain ⟨-, -, hlast⟩ := find_path_some h.wf (no_nul_parent p) hq
  obtain ⟨hgood, hnodes⟩ := created_good h.wf h.good id id hnone hq hdir hnew hP' hN
  have hle : head m₂ ≤ max (sizeof_sb + sizeof_log_entry) im.disk_size := by
    rw [hN.appends.head_eq, hN.size, hhead₁]
    exact (by omega : _ ≤ im.disk_size).trans (le_max_right _ _)
  have hnum₁ := hP'.appends.forall_log h.numbers
    (hP'.ino ▸ h.numbers _ (mem_of_latest hlast).1)
  have hnum := hN.appends.forall_log hnum₁ (hN.ino ▸ hk)
  have hlisted : AllListed (nodes (log m₂)) 0 := by
    rw [hnodes]
    refine h.listed.create ?_ (nodes_none_of_new hnew)
    rw [IsDir, nodes_found hlast, if_pos hdir]
  exact ⟨_, by rw [heq]; exact ⟨hN.appends.wf, hle, hnum, hgood, hlisted⟩⟩

/-- **A write** to a file leaves the namespace alone. -/
theorem Consistent.write (h : Consistent im offs) (env : Env) {buffer : List UInt8} {offset : ℕ}
    (hoff : offset + buffer.length < 2 ^ 31)
    (hreg : ∀ e ∈ find_log_entry_by_path im.mem p.str, S_ISREG (mode im.mem e)) :
    ∃ offs', Consistent (wfs_write env im p.str buffer offset).2 offs' := by
  rcases wfs_write_effect h.wf env p hoff h.size_lt with
    ⟨err, heq⟩ | ⟨e, m', F, hfind, hroom, hF, -, heq⟩
  · exact ⟨offs, by rw [heq]; exact h⟩
  obtain ⟨-, -, hlast⟩ := find_path_some h.wf p.no_nul hfind
  have hfile : ¬S_ISDIR (mode im.mem e) := not_isDir_of_isReg (hreg e hfind)
  obtain ⟨hgood, hnodes⟩ := fileAppended_good h.wf h.good hF hfile hlast
  have hle : head m' ≤ max (sizeof_sb + sizeof_log_entry) im.disk_size := by
    rw [hF.appends.head_eq, hF.size]
    exact hroom.trans (le_max_right _ _)
  have hnum := hF.appends.forall_log h.numbers (hF.ino ▸ h.numbers _ (mem_of_latest hlast).1)
  exact ⟨_, by rw [heq]; exact ⟨hF.appends.wf, hle, hnum, hgood, hnodes ▸ h.listed⟩⟩

/-- **An unlink** takes the inode and its only name away. -/
theorem Consistent.unlink (h : Consistent im offs) (env : Env) (hc : UnlinksOne im p) :
    ∃ offs', Consistent (wfs_unlink env im p.str).2 offs' := by
  rcases wfs_unlink_effect h.wf env p (fun e q he hd hq => (hc e he hd q hq).1) h.head_lt with
    ⟨err, heq⟩ | ⟨e, q, m₁, hfind, hfile, hq, hone, hwf, hlog, hhead, -, hrest⟩
  · exact ⟨offs, by rw [heq]; exact h⟩
  have hroom := (hc e hfind hfile q hq).2
  rcases hrest with ⟨hfull, -⟩ | ⟨m₂, P', -, hP', heq⟩
  · omega
  obtain ⟨-, -, hlaste⟩ := find_path_some h.wf p.no_nul hfind
  obtain ⟨-, -, hlastq⟩ := find_path_some h.wf (no_nul_parent p) hq
  obtain ⟨hgood, hnodes⟩ := nameRemoved_good h.wf h.good hfile hlaste hlastq hone hlog hhead hP'
  have hle : head m₂ ≤ max (sizeof_sb + sizeof_log_entry) im.disk_size := by
    have hsize := hP'.size
    rw [hP'.appends.head_eq, hhead]
    simp only [sizeof_log_entry, sizeof_dentry] at hroom hsize ⊢
    exact (by omega : _ ≤ im.disk_size).trans (le_max_right _ _)
  have hnum₁ : ∀ r ∈ log m₁, r.ino < 2 ^ 31 - 1 := by
    intro r hr
    rw [hlog] at hr
    obtain ⟨s, hs, rfl⟩ := List.mem_map.mp hr
    rw [killRec_ino]
    exact h.numbers s hs
  have hnum := hP'.appends.forall_log hnum₁ (hP'.ino ▸ h.numbers _ (mem_of_latest hlastq).1)
  have hlisted : AllListed (nodes (log m₂)) 0 := by
    rw [hnodes]
    refine h.listed.remove ?_ ?_
    · rw [IsDir, nodes_found hlastq, if_pos hone.1]
    · rw [nodes_found hlaste, if_neg hfile]
  exact ⟨_, by rw [heq]; exact ⟨hP'.appends.wf, hle, hnum, hgood, hlisted⟩⟩

/-- **Compaction** keeps the namespace. -/
theorem Consistent.fsck (h : Consistent im offs) : ∃ offs', Consistent (fsck im) offs' := by
  have hmax : find_max_inode_number im.mem < 2 ^ 31 :=
    find_max_of_all (P := (· < 2 ^ 31)) h.wf.tiles (by decide) fun r hr =>
      (h.numbers r hr).trans_le (Nat.sub_le _ _)
  obtain ⟨offs', hwf, hhead, hsame⟩ := fsck_spec h.wf h.good.root_live h.head_le hmax
  have hnd : (fsckNumbers im.mem).Nodup := List.nodup_range
  have hall := mem_fsckNumbers h.wf.tiles
  have hnodes := hsame.nodes_compacted hnd hall
  have hnum : ∀ r ∈ log (Wfs.fsck im).mem, r.ino < 2 ^ 31 - 1 := by
    intro r hr
    obtain ⟨t, ht, htr⟩ := hsame.mem hr
    rw [show r.ino = t.ino from (congrArg Rec.ino htr).symm]
    exact h.numbers t (mem_of_latest ht).1
  obtain ⟨is, his⟩ := fsckNumbers_eq im.mem
  rw [his] at hsame hnd hall
  have hgood := h.good.compact (log_sorted hwf.tiles) hsame hnd hall
  exact ⟨offs', hwf, hhead.trans h.head_le, hnum, hgood, hnodes ▸ h.listed⟩

theorem Consistent.step (h : Consistent im offs) {op : Op} (hop : KeepsTree im op) :
    ∃ offs', Consistent (op.run im) offs' := by
  rcases op with c | _
  · cases c with
    | mknod env p => exact h.createEntry (by decide) env hop
    | mkdir env p => exact h.createEntry (by decide) env hop
    | write env p buffer offset => exact h.write env hop.1 hop.2
    | unlink env p => exact h.unlink env hop
  · exact h.fsck

/-- **The namespace stays a tree** in every state of a run of calls and compactions that all meet
`KeepsTree`. -/
theorem namespace_tree (h : Reach Fresh OpStep KeepsTree im) : NamespaceTree im.mem := by
  have hinv : ∃ offs, Consistent im offs := by
    refine h.invariant (I := fun im => ∃ offs, Consistent im offs) ?_ ?_
    · rintro _ ⟨env, disk, rfl⟩
      exact ⟨_, consistent_mkfs env disk⟩
    · rintro im op _ ⟨offs, h⟩ hop rfl
      exact h.step hop
  obtain ⟨offs, hinv⟩ := hinv
  exact hinv.namespaceTree

/-- The disk with the file `/a/x` after a compaction. -/
theorem namespace_tree_compacted : NamespaceTree (fsck diskAX).mem :=
  namespace_tree
    (.next (a := .fsck)
      (.next (a := .call (.mknod env₀ pathAX))
        (.next (a := .call (.mkdir env₀ pathA)) (.start (fresh_freshDisk 1000 (by decide)))
          (show CreatesBoth _ pathA by decide +kernel) rfl)
        (show CreatesBoth _ pathAX by decide +kernel) rfl) trivial rfl)

/-- **A name dangles**: on a disk of 150 bytes the root gets to list `/a`, but the entry of the directory
does not fit. -/
theorem namespace_dangles :
    ¬∀ im, Reach Fresh OpStep (fun _ _ => True) im → NamespaceTree im.mem := by
  intro h
  have htree := h _ (.next (a := .call (.mkdir env₀ pathA))
    (.start (fresh_freshDisk 150 (by decide))) trivial rfl)
  have hlive := htree.live 52 ⟨by decide +kernel, by decide +kernel⟩ ([97], 1) (by decide +kernel)
  exact absurd hlive (by decide +kernel)

end OperatingSystems.Wfs
