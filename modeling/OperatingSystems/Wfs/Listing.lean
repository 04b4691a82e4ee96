import OperatingSystems.Wfs.Resolution

/-!
# Listing and lookup

`wfs_readdir` reads the dentries of one directory version, `wfs_getattr` goes through the scanning lookup.
`ListingAgrees` says that they agree on a name.

* **`listing_agrees_iff`** — in every state of a run of regular calls they agree on the name `n` in the
  directory at `e` exactly when `e` lists `n` if and only if the scan for `n` meets a directory version that
  lists it with a live inode.
* `listing_misses_stray` — a lookup that succeeds for a name the root does not list.
-/

namespace OperatingSystems.Wfs

open OperatingSystems.ByteMemory OperatingSystems.VersionLog OperatingSystems.Namespace
open OperatingSystems.GuardedRuns

/-- A name that a directory entry can hold: 1 to 31 characters without `/`, other than `.` and `..`. -/
structure FileName where
  str : Str
  nonempty : str ≠ []
  short : str.length < MAX_FILE_NAME_LEN
  no_slash : slash ∉ str
  no_nul : 0 ∉ str
  not_dot : str ≠ [46]
  not_dotdot : str ≠ [46, 46]

/-- `wfs_readdir(d)` passes `n` to the filler if and only if `wfs_getattr(p)` succeeds, and at most once. -/
def ListingAgrees (im : Image) (d p : Path) (n : FileName) : Prop :=
  ∃ names, wfs_readdir im d.str = .ok names ∧
    (n.str ∈ names ↔ ∃ st, wfs_getattr im p.str = .ok st) ∧ names.count n.str ≤ 1

/-- The entries that the scan for a name in directory `d`, found at `e`, goes through: those from `e` on, and
the whole log below the root. -/
def scanned (m : Mem) (d : Path) (e : ℕ) : List Version :=
  if tokens d.str = [] then log m else after (log m) e

/-- The directory at `e` lists `n` if and only if some scanned directory version lists it with a live
inode. -/
def ListedWhereScanned (m : Mem) (d : Path) (e : ℕ) (n : FileName) : Prop :=
  n.str ∈ (dents m e).map Prod.fst ↔ Stray (log m) n.str (scanned m d e)

instance (m : Mem) (d : Path) (e : ℕ) (n : FileName) : Decidable (ListedWhereScanned m d e n) := by
  unfold ListedWhereScanned scanned
  infer_instance

variable {im : Image} {offs : List ℕ} {m : Mem} {d p : Path} {n : FileName} {e : ℕ}

/-- The path `d/n` has the components of `d` and `n`. -/
theorem tokens_child (hp : p.str = d.str ++ slash :: n.str) :
    tokens p.str = tokens d.str ++ [n.str] := by
  rw [hp, tokens_slash, tokens_noSlash n.no_slash, if_neg n.nonempty]

theorem getattr_ok_iff :
    (∃ st, wfs_getattr im p.str = .ok st) ↔ (find_log_entry_by_path im.mem p.str).isSome := by
  unfold wfs_getattr
  cases find_log_entry_by_path im.mem p.str with
  | none => simp
  | some e => simp

/-- A lookup below a directory succeeds when the scan meets a match. -/
theorem getattr_child_iff (h : WellFormed im.mem offs)
    (hd : find_log_entry_by_path im.mem d.str = some e) (hp : tokens p.str = tokens d.str ++ [n.str]) :
    (∃ st, wfs_getattr im p.str = .ok st) ↔ Stray (log im.mem) n.str (scanned im.mem d e) := by
  obtain ⟨-, hlook, -⟩ := find_path_some h d.no_nul hd
  rw [getattr_ok_iff, find_path_eq h p.no_nul, Option.isSome_map, hp]
  exact lookup_snoc_isSome hlook

/-- The names that are listed, apart from `.` and `..`. -/
theorem readdir_eq {path : Str} (hd : find_log_entry_by_path im.mem path = some e)
    (hdir : S_ISDIR (mode im.mem e)) :
    wfs_readdir im path = .ok ([46] :: [46, 46] :: (dents im.mem e).map Prod.fst) := by
  have hreg : ¬S_ISREG (mode im.mem e) := fun h => not_isDir_of_isReg h hdir
  simp only [wfs_readdir, hd, if_neg hreg, dents, List.map_map]
  rfl

/-- Listing and lookup agree on a name exactly when it is listed where it is scanned. -/
theorem Sound.agrees_iff (h : Sound im offs)
    (hd : find_log_entry_by_path im.mem d.str = some e) (hdir : S_ISDIR (mode im.mem e))
    (hp : tokens p.str = tokens d.str ++ [n.str]) :
    ListingAgrees im d p n ↔ ListedWhereScanned im.mem d e n := by
  obtain ⟨-, -, hlast⟩ := find_path_some h.wf d.no_nul hd
  have hnodup : ((dents im.mem e).map Prod.fst).Nodup := by
    refine h.good.tree.names (inode_number im.mem e) _ ?_
    rw [IsDir, nodes_found hlast, if_pos hdir]
  have hmem : n.str ∈ [46] :: [46, 46] :: (dents im.mem e).map Prod.fst ↔
      n.str ∈ (dents im.mem e).map Prod.fst := by
    rw [List.mem_cons, List.mem_cons, or_iff_right n.not_dot, or_iff_right n.not_dotdot]
  have hcount : ([46] :: [46, 46] :: (dents im.mem e).map Prod.fst).count n.str ≤ 1 := by
    rw [List.count_cons_of_ne n.not_dot.symm, List.count_cons_of_ne n.not_dotdot.symm]
    exact List.nodup_iff_count_le_one.mp hnodup n.str
  rw [ListedWhereScanned, ← getattr_child_iff h.wf hd hp, ← hmem]
  constructor
  · rintro ⟨names, hread, hiff, -⟩
    rw [readdir_eq hd hdir] at hread
    exact Except.ok.inj hread ▸ hiff
  · intro hiff
    exact ⟨_, readdir_eq hd hdir, hiff, hcount⟩

/-- **Listing and lookup agree** in every state of a run of regular calls on exactly the names that are
listed where they are scanned. -/
theorem listing_agrees_iff (h : Reach Fresh CallStep Regular im)
    (hd : find_log_entry_by_path im.mem d.str = some e) (hdir : S_ISDIR (mode im.mem e))
    (hp : tokens p.str = tokens d.str ++ [n.str]) :
    ListingAgrees im d p n ↔ ListedWhereScanned im.mem d e n := by
  obtain ⟨offs, hsound⟩ := sound_of_reach h
  exact hsound.agrees_iff hd hdir hp

/-- The name `x`. -/
def nameX : FileName := ⟨[120], by decide, by decide, by decide, by decide, by decide, by decide⟩

/-- The directory `/a` lists `x`, and `/a/x` is found. -/
theorem listing_agrees_file : ListingAgrees diskAX pathA pathAX nameX :=
  (listing_agrees_iff (e := 180) reach_diskAX (by decide +kernel) (by decide +kernel)
    (by decide)).mpr (by decide +kernel)

/-- The path `/`. -/
def pathRoot : Path := ⟨[47], rfl, by decide, by decide⟩

/-- **The lookup finds more than is listed**: with `/a/x` in place `/x` is found, which the root does not
list. -/
theorem listing_misses_stray : ¬∀ im, Reach Fresh CallStep WritesFiles im → ∀ (d p : Path) (n : FileName) e,
    find_log_entry_by_path im.mem d.str = some e → S_ISDIR (mode im.mem e) →
      p.str = d.str ++ slash :: n.str → ListingAgrees im d p n := by
  intro h
  have hrun := reach_diskAX.mono fun _ _ => Regular.writesFiles
  have hagree := h _ hrun pathRoot ⟨[47, 47, 120], rfl, by decide, by decide⟩ nameX 52
    (by decide +kernel) (by decide +kernel) rfl
  obtain ⟨offs, hsound⟩ := sound_of_reach reach_diskAX
  rw [hsound.agrees_iff (e := 52) (by decide +kernel) (by decide +kernel) (tokens_child rfl)] at hagree
  exact absurd hagree (by decide +kernel)

end OperatingSystems.Wfs
