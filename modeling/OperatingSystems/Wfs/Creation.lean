import OperatingSystems.Lib.VersionRewrite
import OperatingSystems.Wfs.History
import OperatingSystems.Wfs.Listing
import OperatingSystems.Wfs.Overlay

/-!
# Creating an entry and looking it up

A creation appends a version of the parent that lists the new name and an entry for the new inode.
`FoundAgain` says what the calls after it should see: the path leads to the new entry, cannot be created
again, and the parent lists its last component behind its old names.

* **`found_again_iff`** — in every state of a run of regular calls this holds of a creation exactly when the
  name fits its field and the lookup of the parent path, each time it passes the parent on its way, finds the
  next name in the parent itself.
* `long_name_is_lost` — a name of 32 characters is stored as another one.
-/

namespace OperatingSystems.Wfs

open OperatingSystems.ByteMemory OperatingSystems.VersionLog OperatingSystems.Namespace
open OperatingSystems.GuardedRuns

/-- What the calls after the creation of `p`, whose parent is at `q`, see; `kind` is the test that the mode
of the new entry must pass. -/
structure FoundAgain (kind : ℕ → Bool) (im im' : Image) (p : Path) (q : ℕ) : Prop where
  getattr : ∃ st, wfs_getattr im' p.str = .ok st ∧ kind st.st_mode ∧ st.st_size = 0 ∧
    (∀ r ∈ log im.mem, r.ino ≠ st.st_ino) ∧ Listed (· ≠ st.st_ino) (log im.mem) ∧
    ∀ j, j ≠ inode_number im.mem q → j ≠ st.st_ino → SameLatest im.mem im'.mem j
  again : ∀ env, (wfs_mknod env im' p.str).1 = .error .EEXIST ∧ (wfs_mkdir env im' p.str).1 = .error .EEXIST
  listing : ∃ names, wfs_readdir im (separate_path_and_file p.str).parent_path = .ok names ∧
    wfs_readdir im' (separate_path_and_file p.str).parent_path = .ok (names ++ [lastComponent p.str])

/-- The lookup of the parent path does not leave the parent, which is at `q`, by a name that the parent
does not list. -/
def ParentPasses (im : Image) (p : Path) (q : ℕ) : Prop :=
  Passes (log im.mem) 0 (inode_number im.mem q) (tokens (separate_path_and_file p.str).parent_path)

variable {im : Image} {offs : List ℕ} {p : Path} {q type k : ℕ} {env : Env} {m₁ m₂ : Mem} {P' N : Version}
  {f : Str}

/-- The two versions that a successful creation appends, to a log that does not know the new number. -/
structure Creates (im im' : Image) (offs : List ℕ) (p : Path) (q k type : ℕ) (m₁ : Mem) (P' N : Version) :
    Prop where
  missing : find_log_entry_by_path im.mem p.str = none
  parent : ParentAppended im.mem m₁ offs q ((lastComponent p.str).take (MAX_FILE_NAME_LEN - 1)) k P'
  node : NodeAppended m₁ im'.mem (offs ++ [head im.mem]) k type N
  created : Created (log im.mem) (log im'.mem) (inode_number im.mem q) (version im.mem q) P' N
    (dents im.mem q) ((lastComponent p.str).take (MAX_FILE_NAME_LEN - 1))

/-- **What a successful creation does** in a state of a run. -/
theorem Sound.creates (h : Sound im offs) (htype : type < 2 ^ 32)
    (hq : find_log_entry_by_path im.mem (separate_path_and_file p.str).parent_path = some q)
    (hdir : S_ISDIR (mode im.mem q)) (hok : (Wfs.createEntry type env im p.str).1 = .ok 0) :
    ∃ m₁ P' N, Creates im (Wfs.createEntry type env im p.str).2 offs p q (Wfs.newInodeNumber im.mem) type m₁ P' N := by
  obtain ⟨-, hk31, hnew⟩ := h.newInodeNumber
  rcases createEntry_effect h.wf hk31 htype env p with
    ⟨err, heq⟩ | ⟨q', m₁, P', hnone, hq', hroom, hP', ⟨-, heq⟩ | ⟨m₂, N, -, hN, heq⟩⟩
  · rw [heq] at hok
    cases hok
  · rw [heq] at hok
    cases hok
  obtain rfl : q = q' := Option.some.inj (hq.symm.trans hq')
  obtain ⟨-, -, hlast⟩ := find_path_some h.wf (no_nul_parent p) hq
  obtain ⟨hfull, -⟩ := not_stuck_of_room hlast hroom
  have hlog : log m₂ = log im.mem ++ [P', N] := by
    rw [hN.appends.log_eq, hP'.appends.log_eq, List.append_assoc]
    rfl
  have hnode := hP'.node
  rw [if_pos hdir] at hnode
  rw [heq]
  refine ⟨m₁, P', N, hnone, hP', hN, ?_⟩
  obtain hNk := hN.ino
  refine ⟨hlog, log_sorted hN.appends.wf.tiles, hlast, if_pos hdir, hP'.live, hP'.ino, hNk ▸ hnode,
    hN.live, hN.node ▸ newNode_cases type, hNk ▸ hnew, fun r hr ds hds d hd => ?_⟩
  exact hNk ▸ h.good.unknown hfull hnew hr hds d hd

variable {im' : Image}

/-- The log afterwards is well formed and has the same first entry. -/
theorem Creates.wf (h : Creates im im' offs p q k type m₁ P' N) :
    WellFormed im'.mem (offs ++ [head im.mem] ++ [head m₁]) :=
  h.node.appends.wf

theorem Creates.root (h : Creates im im' offs p q k type m₁ P' N) (hs : Sound im offs) :
    inode_number im'.mem sizeof_sb = 0 := by
  obtain ⟨r, rest, hlog, hr⟩ := hs.good.first
  have hlog' : log im'.mem = r :: (rest ++ [P', N]) := by
    rw [h.created.log, hlog]
    rfl
  exact first_number h.wf.tiles hlog' hr

/-- The lookup of the parent before the creation. -/
theorem Creates.lookup_parent (hs : Sound im offs)
    (hq : find_log_entry_by_path im.mem (separate_path_and_file p.str).parent_path = some q) :
    lookup (log im.mem) 0 (tokens (separate_path_and_file p.str).parent_path) = some (version im.mem q) := by
  obtain ⟨-, hlook, -⟩ := find_path_some hs.wf (no_nul_parent p) hq
  rwa [root_number hs.wf.tiles hs.good] at hlook

/-- The created path has one component more than its parent path, and was not found before. -/
theorem Creates.lookup_missing (h : Creates im im' offs p q k type m₁ P' N) (hs : Sound im offs)
    (hq : find_log_entry_by_path im.mem (separate_path_and_file p.str).parent_path = some q) :
    tokens p.str = tokens (separate_path_and_file p.str).parent_path ++ [lastComponent p.str] ∧
      lookup (log im.mem) 0
        (tokens (separate_path_and_file p.str).parent_path ++ [lastComponent p.str]) = none := by
  obtain ⟨-, -, htok⟩ := separate_spec p
  have hnone := (find_path_none hs.wf p.no_nul).mp h.missing
  rw [root_number hs.wf.tiles hs.good] at hnone
  have hne : lastComponent p.str ≠ [] := by
    intro hnil
    rw [if_pos hnil, List.append_nil] at htok
    rw [htok, Creates.lookup_parent hs hq] at hnone
    cases hnone
  rw [if_neg hne] at htok
  exact ⟨htok, htok ▸ hnone⟩

/-- What a record of the log says, from the bytes. -/
theorem fields_of_mem_log {m : Mem} (h : WellFormed m offs) {r : Version} (hr : r ∈ log m) :
    inode_number m r.pos = r.ino ∧ mode m r.pos = r.val.1.mode ∧ size m r.pos = r.val.1.size ∧
      ∀ ds, r.node = .dir ds → S_ISDIR (mode m r.pos) ∧ dents m r.pos = ds := by
  obtain ⟨-, hver⟩ := (mem_log h.tiles).mp hr
  refine ⟨congrArg Rec.ino hver, congrArg (fun r : Version => r.val.1.mode) hver,
    congrArg (fun r : Version => r.val.1.size) hver, fun ds hds => ?_⟩
  rw [← hver] at hds
  exact version_node_dir.mp hds

/-- **Where the lookups lead after a creation** whose parent path passes. -/
theorem Creates.found (h : Creates im im' offs p q k type m₁ P' N) (hs : Sound im offs)
    (hq : find_log_entry_by_path im.mem (separate_path_and_file p.str).parent_path = some q)
    (hpass : ParentPasses im p q) :
    find_log_entry_by_path im'.mem (separate_path_and_file p.str).parent_path = some P'.pos ∧
      find_log_entry_by_path im'.mem p.str =
        if (lastComponent p.str).take (MAX_FILE_NAME_LEN - 1) = lastComponent p.str then some N.pos
        else none := by
  obtain ⟨htok, hnone⟩ := h.lookup_missing hs hq
  have hlook := Creates.lookup_parent hs hq
  rw [find_path_eq h.wf (no_nul_parent p), find_path_eq h.wf p.no_nul, h.root hs, htok,
    h.created.lookup_dir hlook hpass, h.created.lookup_child hlook hnone hpass]
  refine ⟨rfl, ?_⟩
  split <;> rfl

/-- The path is lost when the lookup of the parent path leaves the parent. -/
theorem Creates.lost (h : Creates im im' offs p q k type m₁ P' N) (hs : Sound im offs)
    (hq : find_log_entry_by_path im.mem (separate_path_and_file p.str).parent_path = some q)
    (hpass : ¬ParentPasses im p q) : find_log_entry_by_path im'.mem p.str = none := by
  obtain ⟨htok, -⟩ := h.lookup_missing hs hq
  rw [find_path_eq h.wf p.no_nul, h.root hs, htok, h.created.lookup_lost hpass]
  rfl

/-- A node that no new entry belongs to keeps its last live entry. -/
theorem HistoryKept.sameLatest {m m' : Mem} {offs news : List ℕ} {removed : ℕ → Prop} {j : ℕ}
    (h : HistoryKept m m' offs removed) (hwf : WellFormed m' (offs ++ news)) (hj : ¬removed j)
    (hne : ∀ o ∈ news, inode_number m' o ≠ j) : SameLatest m m' j := by
  obtain ⟨new, hvisits, -, hsame⟩ := h.latest
  have hnew : new = news := List.append_cancel_left (hvisits.unique hwf.tiles.visits)
  exact hsame j hj fun o ho => hne o (hnew ▸ ho)

/-- The entries of all other inodes. -/
theorem Creates.sameLatest (h : Creates im im' offs p q k type m₁ P' N)
    (hkept : HistoryKept im.mem im'.mem offs fun _ => False) {j : ℕ} (hj : j ≠ inode_number im.mem q)
    (hjk : j ≠ k) : SameLatest im.mem im'.mem j := by
  have hwf := h.wf
  rw [List.append_assoc] at hwf
  have hP' := (fields_of_mem_log h.wf (r := P') (by rw [h.created.log]; simp)).1
  have hN := (fields_of_mem_log h.wf (r := N) (by rw [h.created.log]; simp)).1
  rw [h.parent.appends.pos, h.parent.ino] at hP'
  rw [h.node.appends.pos, h.node.ino] at hN
  refine hkept.sameLatest hwf id fun o ho => ?_
  rcases List.mem_pair.mp ho with rfl | rfl
  · rw [hP']
    exact hj.symm
  · rw [hN]
    exact hjk.symm

/-- **A creation is found again** exactly when its name fits and its parent path passes. -/
theorem Sound.creation_iff (h : Sound im offs) {kind : ℕ → Bool} (hkind : kind type) (htype : type < 2 ^ 32)
    (hq : find_log_entry_by_path im.mem (separate_path_and_file p.str).parent_path = some q)
    (hdir : S_ISDIR (mode im.mem q)) (hok : (Wfs.createEntry type env im p.str).1 = .ok 0) :
    FoundAgain kind im (Wfs.createEntry type env im p.str).2 p q ↔
      (lastComponent p.str).length < MAX_FILE_NAME_LEN ∧ ParentPasses im p q := by
  obtain ⟨m₁, P', N, hc⟩ := h.creates htype hq hdir hok
  have hkept := createEntry_history h.wf.tiles htype env p.str
  generalize (Wfs.createEntry type env im p.str).2 = im' at hc hkept
  have htake : (lastComponent p.str).take (MAX_FILE_NAME_LEN - 1) = lastComponent p.str ↔
      (lastComponent p.str).length < MAX_FILE_NAME_LEN := by
    rw [List.take_eq_self_iff, MAX_FILE_NAME_LEN]
    omega
  constructor
  · rintro ⟨⟨st, hst, -⟩, -, -⟩
    have hsome : (find_log_entry_by_path im'.mem p.str).isSome := getattr_ok_iff.mp ⟨st, hst⟩
    have hpass : ParentPasses im p q := by
      by_contra hno
      rw [hc.lost h hq hno] at hsome
      cases hsome
    refine ⟨htake.mp ?_, hpass⟩
    by_contra hno
    rw [(hc.found h hq hpass).2, if_neg hno] at hsome
    cases hsome
  · rintro ⟨hlen, hpass⟩
    obtain ⟨hparent, hfind⟩ := hc.found h hq hpass
    rw [if_pos (htake.mpr hlen)] at hfind
    obtain ⟨hino, hmode, hsize, -⟩ := fields_of_mem_log hc.wf (r := N) (by rw [hc.created.log]; simp)
    obtain ⟨-, -, -, hds⟩ := fields_of_mem_log hc.wf (r := P') (by rw [hc.created.log]; simp)
    obtain ⟨hdir', hdents⟩ := hds _ hc.created.dir'
    refine ⟨?_, fun env' => ?_, _, readdir_eq hq hdir, ?_⟩
    · refine ⟨_, by rw [wfs_getattr, hfind], ?_, ?_, ?_, ?_, fun j hj hjk => ?_⟩
      · rw [hmode, hc.node.mode]
        exact hkind
      · rw [hsize, hc.node.size]
      · rw [hino]
        exact hc.created.unused
      · rw [hino]
        exact hc.created.unlisted
      · rw [hino, hc.node.ino] at hjk
        exact hc.sameLatest hkept hj hjk
    · simp only [wfs_mknod, wfs_mkdir, Wfs.createEntry, hfind, and_self]
    · rw [readdir_eq hparent hdir', hdents, List.map_append, List.map_singleton, htake.mpr hlen]
      rfl

/-- **Create, then look up**: in every state of a run of regular calls, what `wfs_mknod` and `wfs_mkdir`
create is found again exactly when the name has at most 31 characters and the lookup of the parent path does
not leave the parent by a name that the parent does not list. -/
theorem found_again_iff (h : Reach Fresh CallStep Regular im)
    (hq : find_log_entry_by_path im.mem (separate_path_and_file p.str).parent_path = some q)
    (hdir : S_ISDIR (mode im.mem q)) :
    ((wfs_mknod env im p.str).1 = .ok 0 → (FoundAgain S_ISREG im (wfs_mknod env im p.str).2 p q ↔
      (lastComponent p.str).length < MAX_FILE_NAME_LEN ∧ ParentPasses im p q)) ∧
    ((wfs_mkdir env im p.str).1 = .ok 0 → (FoundAgain S_ISDIR im (wfs_mkdir env im p.str).2 p q ↔
      (lastComponent p.str).length < MAX_FILE_NAME_LEN ∧ ParentPasses im p q)) := by
  obtain ⟨offs, hsound⟩ := sound_of_reach h
  exact ⟨hsound.creation_iff (by decide) (by decide) hq hdir,
    hsound.creation_iff (by decide) (by decide) hq hdir⟩

/-- The file `/a/x`, created in the directory `/a`. -/
theorem found_again_diskAX :
    FoundAgain S_ISREG ((Call.mkdir env₀ pathA).run (freshDisk 1000 (by decide))).2 diskAX pathAX 136 := by
  have hreach : Reach Fresh CallStep Regular
      ((Call.mkdir env₀ pathA).run (freshDisk 1000 (by decide))).2 :=
    .next (a := .mkdir env₀ pathA) (.start (fresh_freshDisk _ _))
      (show (lastComponent pathA.str).length < MAX_FILE_NAME_LEN by decide) rfl
  have hok : (wfs_mknod env₀ ((Call.mkdir env₀ pathA).run (freshDisk 1000 (by decide))).2 pathAX.str).1 =
      .ok 0 := by decide +kernel
  refine ((found_again_iff (q := 136) hreach (by decide +kernel) (by decide +kernel)).1 hok).mpr
    ⟨by decide, ?_⟩
  intro xs y ys d hxs hne
  have hlen := congrArg List.length (hxs.symm.trans
    (by decide : tokens (separate_path_and_file pathAX.str).parent_path = [[97]]))
  rw [List.length_append, List.length_cons, List.length_singleton] at hlen
  exact absurd (List.length_eq_zero_iff.mp (by omega)) hne

/-- The path of a file in the root whose name has 32 characters. -/
def pathLong : Path := ⟨slash :: List.replicate 32 97, rfl, by decide, by decide⟩

/-- **A name of 32 characters is lost**: it is stored without its last character. -/
theorem long_name_is_lost : ¬∀ im, Reach Fresh CallStep (fun _ _ => True) im → ∀ (env : Env) (p : Path)
    (q : ℕ), find_log_entry_by_path im.mem (separate_path_and_file p.str).parent_path = some q →
      S_ISDIR (mode im.mem q) → PrefixesAreDirs im.mem p.str → (wfs_mknod env im p.str).1 = .ok 0 →
      FoundAgain S_ISREG im (wfs_mknod env im p.str).2 p q := by
  intro h
  obtain ⟨⟨st, hst, -⟩, -, -⟩ := h (freshDisk 1000 (by decide)) (.start (fresh_freshDisk _ _)) env₀ pathLong 8
    (by decide +kernel) (by decide +kernel) (prefixesAreDirs_of_inits (by decide +kernel)) (by decide +kernel)
  have hlost : wfs_getattr (wfs_mknod env₀ (freshDisk 1000 (by decide)) pathLong.str).2 pathLong.str =
      .error .ENOENT := by decide +kernel
  exact nomatch hst.symm.trans hlost

end OperatingSystems.Wfs
