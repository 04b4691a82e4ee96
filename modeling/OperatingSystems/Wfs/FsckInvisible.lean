import OperatingSystems.Wfs.Fsck
import OperatingSystems.Wfs.Resolution

/-!
# Compaction seen through the mount

What the mounted file system shows of a path is a function of the entry that its lookup finds, so it is the
same before and after `fsck.wfs` when the lookup finds the same version.

* **`fsck_invisible`** — so `wfs_getattr`, `wfs_readdir` and `wfs_read` answer alike for every path that the
  tree resolves, and for every other path whose scans meet no stray match, neither in the old log nor in
  the order of the new one.
* `fsck_uncovers_stray` — a file of `/b` that appears as `/a/y` after a compaction only.
-/

namespace OperatingSystems.Wfs

open OperatingSystems.ByteMemory OperatingSystems.ByteMemory.Mem OperatingSystems.VersionLog
open OperatingSystems.Namespace OperatingSystems.GuardedRuns

/-- At the component where the walk stops, no latest directory entry of an inode number from the current
one on lists that name with a live inode: these are the entries a scan meets after `fsck.wfs`. -/
def NoStrayFsck (m : Mem) (path : Str) : Prop :=
  NoStrayCompacted (log m) (fsckNumbers m) (inode_number m sizeof_sb) (tokens path)

instance (m : Mem) (path : Str) : Decidable (NoStrayFsck m path) :=
  inferInstanceAs (Decidable (NoStrayCompacted _ _ _ _))

/-- The entries at `e` and `e'` have the same inode and the same data. -/
def SameEntry (m m' : Mem) (e e' : ℕ) : Prop :=
  getInode m' e' = getInode m e ∧ m'.bytes (data e') (size m' e') = m.bytes (data e) (size m e)

/-- A path finds nothing in both images, or the same entry. -/
def SameLookup (im im' : Image) (path : Str) : Prop :=
  (find_log_entry_by_path im.mem path = none ∧ find_log_entry_by_path im'.mem path = none) ∨
    ∃ e e', find_log_entry_by_path im.mem path = some e ∧
      find_log_entry_by_path im'.mem path = some e' ∧ SameEntry im.mem im'.mem e e'

variable {im im' : Image} {offs : List ℕ} {m m' : Mem} {e e' : ℕ} {path : Str}

/-! ### What the calls show -/

theorem SameEntry.byte (h : SameEntry m m' e e') {k : ℕ} (hk : k < size m e) :
    m'.byte (data e' + k) = m.byte (data e + k) := by
  obtain ⟨hi, hb⟩ := h
  have hsize : size m' e' = size m e := congrArg Inode.size hi
  rw [hsize] at hb
  rw [← getElem_bytes m (data e) (size m e) k (by rwa [bytes_length]),
    ← getElem_bytes m' (data e') (size m e) k (by rwa [bytes_length])]
  exact List.getElem_of_eq hb _

theorem SameLookup.getattr (h : SameLookup im im' path) : wfs_getattr im' path = wfs_getattr im path := by
  unfold wfs_getattr
  rcases h with ⟨h, h'⟩ | ⟨e, e', h, h', hi, -⟩
  · rw [h, h']
  · rw [h, h']
    simp only [Except.ok.injEq, Stat.mk.injEq]
    exact ⟨congrArg Inode.inode_number hi, congrArg Inode.mode hi, congrArg Inode.links hi,
      congrArg Inode.uid hi, congrArg Inode.gid hi, congrArg Inode.size hi, congrArg Inode.mtime hi⟩

theorem SameLookup.readdir (h : SameLookup im im' path) : wfs_readdir im' path = wfs_readdir im path := by
  unfold wfs_readdir
  rcases h with ⟨h, h'⟩ | ⟨e, e', h, h', hsame⟩
  · rw [h, h']
  · rw [h, h']
    have hmode : mode im'.mem e' = mode im.mem e := congrArg Inode.mode hsame.1
    have hnum : num_entries im'.mem e' = num_entries im.mem e :=
      congrArg (fun i => Inode.size i / sizeof_dentry) hsame.1
    simp only [hmode, hnum]
    split
    · rfl
    · congr 3
      refine List.map_congr_left fun i hi => ?_
      rw [List.mem_range] at hi
      rw [dentryName, dentryName]
      congr 1
      refine bytes_congr fun k hk => ?_
      -- the name of dentry `i` lies inside the data
      have hmul := num_entries_le im.mem e
      have hle : sizeof_dentry * (i + 1) ≤ sizeof_dentry * num_entries im.mem e := Nat.mul_le_mul_left _ hi
      simp only [sizeof_dentry, MAX_FILE_NAME_LEN] at hk hmul hle
      rw [dentryAt, dentryAt, Nat.add_assoc, Nat.add_assoc]
      exact hsame.byte (by simp only [sizeof_dentry]; omega)

theorem SameLookup.read (h : SameLookup im im' path) (bufsize offset : ℕ) :
    wfs_read im' path bufsize offset = wfs_read im path bufsize offset := by
  unfold wfs_read
  rcases h with ⟨h, h'⟩ | ⟨e, e', h, h', hsame⟩
  · rw [h, h']
  · rw [h, h']
    have hsize : size im'.mem e' = size im.mem e := congrArg Inode.size hsame.1
    simp only [hsize]
    split
    · rfl
    · rename_i hoff
      congr 2
      refine bytes_congr fun k hk => ?_
      rw [Nat.add_assoc, Nat.add_assoc]
      refine hsame.byte ?_
      split at hk <;> omega

/-! ### The lookups -/

theorem Sound.find_max_lt (h : Sound im offs) : find_max_inode_number im.mem < 2 ^ 31 := by
  have hlen := h.wf.length_le
  have hhead := h.head_lt
  refine find_max_of_all (P := (· < 2 ^ 31)) h.wf.tiles (by decide) fun r hr => ?_
  have := h.numbers r hr
  omega

/-- **A lookup finds the same version in the compacted image.** -/
theorem Sound.sameLookup (h : Sound im offs) (hp : 0 ∉ path) (hs : NoStrayPath im.mem path)
    (hs' : NoStrayFsck im.mem path) : SameLookup im (fsck im) path := by
  have hlive := h.good.root_live
  obtain ⟨offs', hwf, -, hsame⟩ := fsck_spec h.wf hlive h.head_le h.find_max_lt
  have hord : (fsckNumbers im.mem).Pairwise (· < ·) := List.pairwise_lt_range
  have hall := mem_fsckNumbers h.wf.tiles
  have hroot := root_number h.wf.tiles h.good
  rw [NoStrayPath, hroot] at hs
  rw [NoStrayFsck, hroot] at hs'
  obtain ⟨is, his⟩ := fsckNumbers_eq im.mem
  rw [his] at hsame hord hall hs'
  have hlook := hsame.lookup hord hall h.good.sorted (log_sorted hwf.tiles) h.good.rootFirst hlive hs hs'
  obtain ⟨r, rest, hlog, hr, -⟩ := hsame.first (hord.imp fun hlt => hlt.ne) hlive
  have hroot' : inode_number (fsck im).mem sizeof_sb = 0 := first_number hwf.tiles hlog hr
  rw [SameLookup, find_path_eq h.wf hp, find_path_eq hwf hp, hroot, hroot']
  cases hold : lookup (log im.mem) 0 (tokens path) with
  | none =>
    rw [hold, Option.map_none, Option.map_eq_none_iff] at hlook
    exact .inl ⟨rfl, by rw [hlook]; rfl⟩
  | some v =>
    rw [hold, Option.map_some, Option.map_eq_some_iff] at hlook
    obtain ⟨v', hv', hvv'⟩ := hlook
    refine .inr ⟨v.pos, v'.pos, rfl, by rw [hv']; rfl, ?_⟩
    have hver := ((mem_log h.wf.tiles).mp (mem_of_latest (latest_of_lookup hold)).1).2
    have hver' := ((mem_log hwf.tiles).mp (mem_of_latest (latest_of_lookup hv')).1).2
    have hval : v'.val = v.val := (congrArg Rec.val hvv' : (v'.moved 0).val = (v.moved 0).val)
    rw [← hver, ← hver'] at hval
    exact ⟨congrArg Prod.fst hval, congrArg Prod.snd hval⟩

/-- **Compaction is invisible through the mount** in every state of a run of regular calls, for each path
whose scans meet no stray match. -/
theorem fsck_invisible (h : Reach Fresh CallStep Regular im) (p : Path)
    (hs : NoStrayPath im.mem p.str) (hs' : NoStrayFsck im.mem p.str) :
    wfs_getattr (fsck im) p.str = wfs_getattr im p.str ∧
      wfs_readdir (fsck im) p.str = wfs_readdir im p.str ∧
      ∀ bufsize offset, wfs_read (fsck im) p.str bufsize offset = wfs_read im p.str bufsize offset := by
  obtain ⟨offs, hsound⟩ := sound_of_reach h
  have hsame := hsound.sameLookup p.no_nul hs hs'
  exact ⟨hsame.getattr, hsame.readdir, hsame.read⟩

/-- The file `/a/x` looks the same after a compaction. -/
theorem fsck_invisible_file :
    wfs_getattr (fsck diskAX) pathAX.str = wfs_getattr diskAX pathAX.str ∧
      wfs_readdir (fsck diskAX) pathAX.str = wfs_readdir diskAX pathAX.str ∧
      ∀ bufsize offset,
        wfs_read (fsck diskAX) pathAX.str bufsize offset = wfs_read diskAX pathAX.str bufsize offset :=
  fsck_invisible reach_diskAX pathAX (by decide +kernel) (by decide +kernel)

/-- The path `/b/y`. -/
def pathBY : Path := ⟨[47, 98, 47, 121], rfl, by decide, by decide⟩

/-- The path `/a/y`. -/
def pathAY : Path := ⟨[47, 97, 47, 121], rfl, by decide, by decide⟩

/-- **A compaction uncovers a stray match**: `/b/y` is listed before the last version of `/a`, and after
the compaction behind it, so `/a/y` comes into being. -/
theorem fsck_uncovers_stray : ¬∀ im, Reach Fresh CallStep WritesFiles im → ∀ p : Path,
    wfs_getattr (fsck im) p.str = wfs_getattr im p.str := by
  intro h
  have hrun : Reach Fresh CallStep WritesFiles ((Call.mknod env₀ pathAX).run
      ((Call.mknod env₀ pathBY).run ((Call.mkdir env₀ pathB).run
        ((Call.mkdir env₀ pathA).run (freshDisk 2000 (by decide))).2).2).2).2 :=
    .next (a := .mknod env₀ pathAX)
      (.next (a := .mknod env₀ pathBY)
        (.next (a := .mkdir env₀ pathB)
          (.next (a := .mkdir env₀ pathA) (.start (fresh_freshDisk _ _)) trivial rfl) trivial rfl)
        trivial rfl)
      trivial rfl
  have hsame := congrArg Except.isOk (h _ hrun pathAY)
  exact absurd hsame (by decide +kernel)

end OperatingSystems.Wfs
