import OperatingSystems.Wfs.Runs

/-!
# Path resolution and the hierarchical walk

`hierarchicalWalk` is what the resolution of a path means: from the latest entry of the root, component by
component, to the latest entry of the inode that the current directory lists under that name.
`find_log_entry_by_path` scans the log instead, and on a name that the current directory does not list it
goes on into the entries of other directories.

* **`find_path_eq_walk`** — along every run of regular calls the two agree on each path for which the scan
  meets no stray match (`NoStrayPath`).
* `find_path_leaves_tree` — a run of three creations after which the scan finds `/x` in `/a`.
-/

namespace OperatingSystems.Wfs

open OperatingSystems.ByteMemory OperatingSystems.VersionLog OperatingSystems.Namespace
open OperatingSystems.GuardedRuns

/-- One component: the entry at `e` must be a directory that lists `t`; go to the latest entry of the inode
it is listed with. -/
def walkStep (m : Mem) (e : ℕ) (t : Str) : Option ℕ :=
  if S_ISDIR (mode m e) then
    ((List.range (num_entries m e)).find? fun i => streq m (dentryAt (data e) i) t).bind fun i =>
      find_latest_log_entry m (dentryIno m (dentryAt (data e) i) % 2 ^ 32)
  else none

/-- The entry that the directory tree gives for a path. -/
def hierarchicalWalk (m : Mem) (path : Str) : Option ℕ :=
  (find_latest_log_entry m (inode_number m sizeof_sb)).bind fun e => (tokens path).foldlM (walkStep m) e

/-- At the component where the walk stops, no directory version at or after the current entry (for the
first component: in the whole log) lists that name with a live inode. -/
def NoStrayPath (m : Mem) (path : Str) : Prop :=
  NoStray (log m) (log m) (inode_number m sizeof_sb) (tokens path)

instance (m : Mem) (path : Str) : Decidable (NoStrayPath m path) :=
  inferInstanceAs (Decidable (NoStray _ _ _ _))

variable {im : Image} {m : Mem} {offs : List ℕ} {e i : ℕ} {t : Str}

/-! ### The walk on the version log -/

/-- One component of the walk is one child of the namespace. -/
theorem walkStep_eq (h : WellFormed m offs) (ht : 0 ∉ t) (hl : latest (log m) i = some (version m e)) :
    walkStep m e t = (child (nodes (log m)) i t).bind fun j => (latest (log m) j).map Rec.pos := by
  have he : e ∈ offs := ((mem_log h.tiles).mp (mem_of_latest hl).1).1
  have hnode : nodes (log m) i = some (if S_ISDIR (mode m e) then .dir (dents m e) else .file) :=
    nodes_of_latest hl
  unfold walkStep child
  by_cases hdir : S_ISDIR (mode m e)
  · have hname : ∀ j ∈ List.range (num_entries m e), streq m (dentryAt (data e) j) t =
        decide (dentryName m (dentryAt (data e) j) = t) := by
      intro j hj
      exact streq_eq m MAX_FILE_NAME_LEN _ t ht
        ⟨31, by decide, (h.dirs e he hdir).ended j (List.mem_range.mp hj)⟩
    rw [if_pos hdir, hnode, if_pos hdir]
    simp only [dents, List.find?_map, Function.comp_def]
    rw [List.find?_congr hname]
    cases (List.range (num_entries m e)).find? _ with
    | none => rfl
    | some j =>
      simp only [Option.bind_some, Option.map_some]
      rw [find_latest_eq h.tiles, nodes_isSome]
      cases hlast : latest (log m) (dentryIno m (dentryAt (data e) j) % 2 ^ 32) with
      | none => rfl
      | some r => rw [if_pos (by rfl), Option.bind_some, hlast]
  · rw [if_neg hdir, hnode, if_neg hdir]
    rfl

/-- From a latest entry on, the walk is the walk through the namespace. -/
theorem foldlM_walkStep (h : WellFormed m offs) : ∀ (ts : List Str), (∀ t ∈ ts, 0 ∉ t) → ∀ {i e : ℕ},
    latest (log m) i = some (version m e) → ts.foldlM (walkStep m) e =
      ((walk (nodes (log m)) ts i).bind (latest (log m))).map Rec.pos := by
  intro ts
  induction ts with
  | nil =>
    intro _ i e hl
    rw [walk, Option.bind_some, hl]
    rfl
  | cons t ts ih =>
    intro hts i e hl
    rw [List.foldlM_cons, walk, walkStep_eq h (hts t List.mem_cons_self) hl]
    cases hc : child (nodes (log m)) i t with
    | none => rfl
    | some j =>
      obtain ⟨-, -, -, hj⟩ := child_eq_some hc
      rw [nodes_isSome] at hj
      obtain ⟨r, hr⟩ := Option.isSome_iff_exists.mp hj
      have hver := ((mem_log h.tiles).mp (mem_of_latest hr).1).2
      rw [Option.bind_some, Option.bind_some, hr, Option.map_some, ← hver]
      exact ih (fun s hs => hts s (List.mem_cons_of_mem _ hs)) (hver.symm ▸ hr)

theorem hierarchicalWalk_eq (h : WellFormed m offs) {root : ℕ} (hroot : inode_number m sizeof_sb = root)
    {path : Str} (hp : 0 ∉ path) :
    hierarchicalWalk m path = if (latest (log m) root).isSome then
      ((walk (nodes (log m)) (tokens path) root).bind (latest (log m))).map Rec.pos else none := by
  rw [hierarchicalWalk, hroot, find_latest_eq h.tiles]
  cases hr : latest (log m) root with
  | none => rfl
  | some r =>
    have hver := ((mem_log h.tiles).mp (mem_of_latest hr).1).2
    rw [Option.map_some, Option.bind_some, if_pos (by rfl)]
    exact foldlM_walkStep h _ (no_nul_tokens hp) (hver.symm ▸ hr)

/-- **Without a stray match the lookup is the walk.** -/
theorem Sound.find_path (h : Sound im offs) {path : Str} (hp : 0 ∉ path)
    (hs : NoStrayPath im.mem path) :
    find_log_entry_by_path im.mem path = hierarchicalWalk im.mem path := by
  have hroot := root_number h.wf.tiles h.good
  rw [NoStrayPath, hroot] at hs
  rw [hierarchicalWalk_eq h.wf hroot hp, if_pos h.good.root_live, find_path_eq h.wf hp, hroot,
    lookup_eq_walk h.good.sorted h.good.rootFirst hs]

/-- **Path resolution follows the directory tree** along every run of regular calls, for each path whose
scan meets no stray match. -/
theorem find_path_eq_walk (h : Reach Fresh CallStep Regular im) (p : Path)
    (hs : NoStrayPath im.mem p.str) :
    find_log_entry_by_path im.mem p.str = hierarchicalWalk im.mem p.str := by
  obtain ⟨offs, hsound⟩ := sound_of_reach h
  exact hsound.find_path p.no_nul hs

/-- The file `/a/x` is found where the walk finds it. -/
theorem find_path_eq_walk_file :
    find_log_entry_by_path diskAX.mem pathAX.str = hierarchicalWalk diskAX.mem pathAX.str :=
  find_path_eq_walk reach_diskAX pathAX (by decide +kernel)

/-- Writes go to paths that resolve to regular files. -/
def WritesFiles (im : Image) : Call → Prop
  | .write _ p _ _ => ∃ e, find_log_entry_by_path im.mem p.str = some e ∧ S_ISREG (mode im.mem e)
  | _ => True

theorem Regular.writesFiles {c : Call} (h : Regular im c) : WritesFiles im c := by
  cases c with
  | write => exact h.2
  | _ => trivial

/-- **The lookup leaves the tree**: with `/a/x` in place it finds `/x`, which the root does not list. -/
theorem find_path_leaves_tree : ¬∀ im, Reach Fresh CallStep WritesFiles im → ∀ p : Path,
    find_log_entry_by_path im.mem p.str = hierarchicalWalk im.mem p.str := by
  intro h
  have hrun := reach_diskAX.mono fun _ _ => Regular.writesFiles
  exact absurd (h _ hrun pathX) (by decide +kernel)

end OperatingSystems.Wfs
