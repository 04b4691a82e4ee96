import OperatingSystems.Wfs.Creation
import OperatingSystems.Wfs.Tiling

/-!
# Removing an entry and looking it up

`wfs_unlink` finds the file by one lookup and the directory to rewrite by another.  `RemovedOne` says what
the calls after it should see: the path leads nowhere, the parent lists its other names as before, and of all
other entries only the parent's is new.

* **`removed_one_iff`** — in every state of a run of regular calls whose lookup of the parent path does not
  go through the removed file, this holds exactly when the parent lists the last component of the path, the
  lookup of the parent path does not leave the parent by a name that the parent does not list, and, for a
  file in the root, no other directory version lists the name with a live inode.
* `unlink_hits_another` — a file of the same name in another directory is removed instead.
-/

namespace OperatingSystems.Wfs

open OperatingSystems.ByteMemory OperatingSystems.VersionLog OperatingSystems.Namespace
open OperatingSystems.GuardedRuns

/-- What the calls after an unlink of `p` see; `q` is the entry of its parent and `e` that of the file. -/
structure RemovedOne (im im' : Image) (p : Path) (q e : ℕ) : Prop where
  gone : find_log_entry_by_path im'.mem p.str = none
  listing : ∃ xs ys, wfs_readdir im (separate_path_and_file p.str).parent_path =
      .ok ([46] :: [46, 46] :: (xs ++ lastComponent p.str :: ys)) ∧
    wfs_readdir im' (separate_path_and_file p.str).parent_path = .ok ([46] :: [46, 46] :: (xs ++ ys))
  dead : ∀ r ∈ log im'.mem, r.ino = inode_number im.mem e → ¬r.live
  others : ∀ j, j ≠ inode_number im.mem q → j ≠ inode_number im.mem e → SameLatest im.mem im'.mem j

/-- The lookup of the parent path does not go through the file at `e`. -/
def AvoidsFile (im : Image) (p : Path) (e : ℕ) : Prop :=
  Within (log im.mem) 0 (· ≠ inode_number im.mem e) (tokens (separate_path_and_file p.str).parent_path)

/-- The condition for an unlink of `p` to remove one name and one file. -/
structure Removable (im : Image) (p : Path) (q e : ℕ) : Prop where
  listed : ∃ d ∈ dents im.mem q, d.1 = lastComponent p.str
  passes : ParentPasses im p q
  alone : tokens (separate_path_and_file p.str).parent_path = [] → ∀ r ∈ log im.mem, ∀ ds,
    r.node = .dir ds → ∀ d ∈ ds, d.1 = lastComponent p.str → d.2 ≠ inode_number im.mem e →
      latest (log im.mem) d.2 = none

variable {im : Image} {offs : List ℕ} {p : Path} {q e : ℕ} {env : Env} {P' : Version}

/-! ### The file that is removed -/

/-- A successful unlink has found no directory. -/
theorem not_isDir_of_unlink (hfind : find_log_entry_by_path im.mem p.str = some e)
    (hok : (wfs_unlink env im p.str).1 = .ok 0) : ¬S_ISDIR (mode im.mem e) := by
  intro hdir
  rw [wfs_unlink, hfind] at hok
  simp only [if_pos hdir] at hok
  cases hok

/-- The path of a file below a directory has one component more than the path of the directory. -/
theorem tokens_of_file (hfind : find_log_entry_by_path im.mem p.str = some e)
    (hfile : ¬S_ISDIR (mode im.mem e))
    (hq : find_log_entry_by_path im.mem (separate_path_and_file p.str).parent_path = some q)
    (hdir : S_ISDIR (mode im.mem q)) :
    tokens p.str = tokens (separate_path_and_file p.str).parent_path ++ [lastComponent p.str] := by
  obtain ⟨-, -, htok⟩ := separate_spec p
  rw [htok, if_neg]
  intro hnil
  -- without a last component the file would be the directory
  rw [if_pos hnil, List.append_nil] at htok
  have hsame : find_log_entry_by_path im.mem p.str =
      find_log_entry_by_path im.mem (separate_path_and_file p.str).parent_path := by
    unfold find_log_entry_by_path
    rw [htok]
  obtain rfl : e = q := Option.some.inj (hfind.symm.trans (hsame.trans hq))
  exact hfile hdir

/-- A parent that lists something and gets a new version is not stuck. -/
theorem not_stuck_of_unlink (h : WellFormed im.mem offs) (hsmall : head im.mem < 2 ^ 31)
    (hfind : find_log_entry_by_path im.mem p.str = some e) (hfile : ¬S_ISDIR (mode im.mem e))
    (hq : find_log_entry_by_path im.mem (separate_path_and_file p.str).parent_path = some q)
    (hdir : S_ISDIR (mode im.mem q)) (hne : dents im.mem q ≠ [])
    (hok : (wfs_unlink env im p.str).1 = .ok 0) : ¬Stuck im (inode_number im.mem q) := by
  rintro ⟨r, hr, hroom⟩
  obtain ⟨hqoffs, -, hlast⟩ := find_path_some h (no_nul_parent p) hq
  obtain rfl : version im.mem q = r := Option.some.inj (hlast.symm.trans hr)
  have hbound := (h.bounds hqoffs).2
  have hwhole : sizeof_dentry * num_entries im.mem q = size im.mem q :=
    Nat.mul_div_cancel' (h.dirs q hqoffs hdir).whole
  have hpos : num_entries im.mem q ≠ 0 := by
    intro h0
    exact hne (by rw [dents, h0]; rfl)
  rw [show (version im.mem q).val.1.size = size im.mem q from rfl] at hroom
  have hcut : (head im.mem + sizeof_log_entry + unlinkSize (num_entries im.mem q)) % 2 ^ 64 =
      head im.mem + (sizeof_log_entry - sizeof_dentry) + size im.mem q := by
    rw [nextEntry] at hbound
    simp only [unlinkSize, sizeof_log_entry, sizeof_dentry] at hwhole hbound ⊢
    omega
  rw [wfs_unlink_noRoom h env p hfind hfile hq (by rw [hcut]; exact hroom)] at hok
  cases hok

/-- **The file that is removed is the one that the parent lists** under the last component. -/
theorem Sound.victim_listed (h : Sound im offs)
    (hfind : find_log_entry_by_path im.mem p.str = some e) (hfile : ¬S_ISDIR (mode im.mem e))
    (hq : find_log_entry_by_path im.mem (separate_path_and_file p.str).parent_path = some q)
    (hdir : S_ISDIR (mode im.mem q)) (hok : (wfs_unlink env im p.str).1 = .ok 0) {d : Str × ℕ}
    (hd : d ∈ dents im.mem q) (hname : d.1 = lastComponent p.str) : d.2 = inode_number im.mem e := by
  obtain ⟨-, hlook, hlast⟩ := find_path_some h.wf (no_nul_parent p) hq
  obtain ⟨-, hlooke, -⟩ := find_path_some h.wf p.no_nul hfind
  rw [root_number h.wf.tiles h.good] at hlook hlooke
  rw [tokens_of_file hfind hfile hq hdir] at hlooke
  have hnode : IsDir (nodes (log im.mem)) (inode_number im.mem q) (dents im.mem q) := by
    rw [IsDir, nodes_found hlast, if_pos hdir]
  have hlive : (nodes (log im.mem) d.2).isSome :=
    (h.good.tree.live (inode_number im.mem q) d.2 ⟨dents im.mem q, hnode, d, hd, rfl⟩).resolve_right
      (not_stuck_of_unlink h.wf h.head_lt hfind hfile hq hdir (List.ne_nil_of_mem hd) hok)
  have hchild : child (nodes (log im.mem)) (inode_number im.mem q) (lastComponent p.str) = some d.2 :=
    child_of_mem hnode (h.good.tree.names _ _ hnode) (hname ▸ hd) hlive
  -- so the lookup of the path ends at the number that the parent lists
  have hend : (latest (log im.mem) d.2) = some (version im.mem e) := by
    by_cases hnil : tokens (separate_path_and_file p.str).parent_path = []
    · rw [hnil] at hlook hlooke
      have hroot : inode_number im.mem q = 0 :=
        (mem_of_latest (show latest (log im.mem) 0 = some (version im.mem q) from hlook)).2.2
      rw [hroot] at hchild
      rwa [List.nil_append, lookup_one, h.good.rootFirst _ _ hchild, Option.bind_some] at hlooke
    · rwa [lookup_append hnil, hlook, Option.bind_some, lookupFrom_one,
        scan_after_of_hit h.good.sorted (mem_of_latest hlast).1 (hit_of_child hlast hchild),
        Option.bind_some] at hlooke
  exact (mem_of_latest hend).2.2.symm

/-! ### What a successful unlink does -/

/-- Leaving out the one entry of a number. -/
theorem filter_ne_of_nodup {ds : List (Str × ℕ)} (hnodup : (ds.map Prod.snd).Nodup) {d : Str × ℕ}
    (hd : d ∈ ds) : ∃ xs ys, ds = xs ++ d :: ys ∧ (ds.filter fun c => c.2 ≠ d.2) = xs ++ ys ∧
      (ds.filter fun c => c.2 = d.2).length = 1 := by
  obtain ⟨xs, ys, rfl⟩ := List.append_of_mem hd
  rw [List.map_append, List.map_cons, List.nodup_middle, List.nodup_cons, ← List.map_append] at hnodup
  have hother : ∀ c ∈ xs ++ ys, c.2 ≠ d.2 := fun c hc heq =>
    hnodup.1 (List.mem_map.mpr ⟨c, hc, heq⟩)
  have hxs : ∀ c ∈ xs, c.2 ≠ d.2 := fun c hc => hother c (List.mem_append_left _ hc)
  have hys : ∀ c ∈ ys, c.2 ≠ d.2 := fun c hc => hother c (List.mem_append_right _ hc)
  refine ⟨xs, ys, rfl, ?_, ?_⟩
  · rw [List.filter_append, List.filter_cons_of_neg (by simp), List.filter_eq_self.mpr (by simpa using hxs),
      List.filter_eq_self.mpr (by simpa using hys)]
  · rw [List.filter_append, List.filter_cons_of_pos (by simp), List.filter_eq_nil_iff.mpr (by simpa using hxs),
      List.filter_eq_nil_iff.mpr (by simpa using hys)]
    rfl

/-- The log after an unlink whose parent lists the file. -/
structure Removes (im im' : Image) (offs : List ℕ) (p : Path) (q e : ℕ) (P' : Version) : Prop where
  wf : WellFormed im'.mem (offs ++ [head im.mem])
  pos : P'.pos = head im.mem
  removed : Removed markDeleted (log im.mem) (log im'.mem) (inode_number im.mem q)
    (inode_number im.mem e) (version im.mem q) P' (dents im.mem q) (lastComponent p.str)

/-- **What a successful unlink does** in a state of a run, when the parent lists the last component. -/
theorem Sound.removes (h : Sound im offs) (hfind : find_log_entry_by_path im.mem p.str = some e)
    (hq : find_log_entry_by_path im.mem (separate_path_and_file p.str).parent_path = some q)
    (hdir : S_ISDIR (mode im.mem q)) (hlisted : ∃ d ∈ dents im.mem q, d.1 = lastComponent p.str)
    (hok : (wfs_unlink env im p.str).1 = .ok 0) :
    ∃ P', Removes im (wfs_unlink env im p.str).2 offs p q e P' := by
  have hfile := not_isDir_of_unlink hfind hok
  obtain ⟨-, -, hlast⟩ := find_path_some h.wf (no_nul_parent p) hq
  have hvictim := fun d hd hname =>
    h.victim_listed hfind hfile hq hdir hok (d := d) hd hname
  have hnode : IsDir (nodes (log im.mem)) (inode_number im.mem q) (dents im.mem q) := by
    rw [IsDir, nodes_found hlast, if_pos hdir]
  have hone : ListsOnce im.mem q (inode_number im.mem e) := by
    obtain ⟨d, hd, hname⟩ := hlisted
    obtain ⟨-, -, -, -, hlen⟩ := filter_ne_of_nodup (h.good.tree.numbers _ _ hnode) hd
    exact ⟨hdir, hvictim d hd hname ▸ hlen⟩
  have hne : inode_number im.mem q ≠ inode_number im.mem e := by
    intro heq
    obtain ⟨-, -, hlaste⟩ := find_path_some h.wf p.no_nul hfind
    rw [heq, IsDir, nodes_found hlaste, if_neg hfile] at hnode
    cases hnode
  have honce : ∀ e' q', find_log_entry_by_path im.mem p.str = some e' → ¬S_ISDIR (mode im.mem e') →
      find_log_entry_by_path im.mem (separate_path_and_file p.str).parent_path = some q' →
      ListsOnce im.mem q' (inode_number im.mem e') := by
    intro e' q' he' _ hq'
    obtain rfl : e = e' := Option.some.inj (hfind.symm.trans he')
    obtain rfl : q = q' := Option.some.inj (hq.symm.trans hq')
    exact hone
  rcases wfs_unlink_effect h.wf env p honce h.head_lt with
    ⟨err, heq⟩ | ⟨e', q', m₁, he', -, hq', -, -, hlog, hhead, -, ⟨-, heq⟩ | ⟨m₂, P', -, hP', heq⟩⟩
  · rw [heq] at hok
    cases hok
  · rw [heq] at hok
    cases hok
  obtain rfl : e = e' := Option.some.inj (hfind.symm.trans he')
  obtain rfl : q = q' := Option.some.inj (hq.symm.trans hq')
  have hpos : P'.pos = head im.mem := hP'.appends.pos.trans hhead
  rw [heq]
  refine ⟨P', hhead ▸ hP'.appends.wf, hpos, ?_, h.good.sorted, fun r hr => ?_, hlast, if_pos hdir,
    hP'.live, hP'.ino, hP'.node, hne, hvictim⟩
  · rw [hP'.appends.log_eq, hlog]
  · exact hpos ▸ pos_lt_head h.wf hr

variable {im' : Image}

theorem Removes.root (h : Removes im im' offs p q e P') (hs : Sound im offs) :
    inode_number im'.mem sizeof_sb = 0 := by
  obtain ⟨r, rest, hlog, hr⟩ := hs.good.first
  have hlog' : log im'.mem = killRec markDeleted (inode_number im.mem e) r ::
      (kill markDeleted (inode_number im.mem e) rest ++ [P']) := by
    rw [h.removed.log, hlog]
    rfl
  exact first_number h.wf.tiles hlog' (killRec_ino.trans hr)

/-- The entries of all other inodes. -/
theorem Removes.sameLatest (h : Removes im im' offs p q e P') {removed : ℕ → Prop}
    (hkept : HistoryKept im.mem im'.mem offs removed) {j : ℕ} (hj : j ≠ inode_number im.mem q)
    (hr : ¬removed j) : SameLatest im.mem im'.mem j := by
  have hP' := (fields_of_mem_log h.wf (r := P') (by rw [h.removed.log]; simp)).1
  rw [h.pos, h.removed.ino] at hP'
  refine hkept.sameLatest h.wf hr fun o ho => ?_
  rw [List.mem_singleton.mp ho, hP']
  exact hj.symm

/-- **An unlink removes one name and one file** exactly when the parent lists the name, its path passes, and
no other directory lists the name of a file of the root. -/
theorem Sound.removal_iff (h : Sound im offs) (hfind : find_log_entry_by_path im.mem p.str = some e)
    (hq : find_log_entry_by_path im.mem (separate_path_and_file p.str).parent_path = some q)
    (hdir : S_ISDIR (mode im.mem q)) (hok : (wfs_unlink env im p.str).1 = .ok 0)
    (havoid : AvoidsFile im p e) :
    RemovedOne im (wfs_unlink env im p.str).2 p q e ↔ Removable im p q e := by
  have hfile := not_isDir_of_unlink hfind hok
  have htok := tokens_of_file hfind hfile hq hdir
  obtain ⟨-, hlook, hlast⟩ := find_path_some h.wf (no_nul_parent p) hq
  rw [root_number h.wf.tiles h.good] at hlook
  by_cases hlisted : ∃ d ∈ dents im.mem q, d.1 = lastComponent p.str
  swap
  · -- the parent has no such name that could be removed
    refine ⟨fun hrem => absurd ?_ hlisted, fun hrem => absurd hrem.listed hlisted⟩
    obtain ⟨xs, ys, hxs, -⟩ := hrem.listing
    simp only [readdir_eq hq hdir, Except.ok.injEq, List.cons.injEq, true_and] at hxs
    have hmem : lastComponent p.str ∈ (dents im.mem q).map Prod.fst := by
      rw [hxs]
      simp
    obtain ⟨d, hd, hname⟩ := List.mem_map.mp hmem
    exact ⟨d, hd, hname⟩
  obtain ⟨P', hR⟩ := h.removes hfind hq hdir hlisted hok
  have hkept := wfs_unlink_history h.wf.tiles env p.str
  generalize (wfs_unlink env im p.str).2 = im' at hR hkept
  have hparent : find_log_entry_by_path im'.mem (separate_path_and_file p.str).parent_path =
      (lookup (log im'.mem) 0 (tokens (separate_path_and_file p.str).parent_path)).map Rec.pos := by
    rw [find_path_eq hR.wf (no_nul_parent p), hR.root h]
  have hgone : find_log_entry_by_path im'.mem p.str = none ↔ lookup (log im'.mem) 0
      (tokens (separate_path_and_file p.str).parent_path ++ [lastComponent p.str]) = none := by
    rw [find_path_none hR.wf p.no_nul, hR.root h, htok]
  constructor
  · intro hrem
    refine ⟨hlisted, ?_, fun hnil => ?_⟩
    · by_contra hno
      obtain ⟨xs, ys, -, hys⟩ := hrem.listing
      rw [hR.removed.lookup_lost havoid hno] at hparent
      rw [wfs_readdir, hparent] at hys
      cases hys
    · have hnone := hgone.mp hrem.gone
      rw [hnil, List.nil_append] at hnone
      exact hR.removed.lookup_root.mp hnone
  · intro hrem
    refine ⟨hgone.mpr ?_, ?_, fun r hr hino hlive => ?_, fun j hj hje => ?_⟩
    · by_cases hnil : tokens (separate_path_and_file p.str).parent_path = []
      · rw [hnil, List.nil_append]
        exact hR.removed.lookup_root.mpr (hrem.alone hnil)
      · exact hR.removed.lookup_child hnil hlook havoid
    · rw [hR.removed.rewrite.lookup_node h.good.sorted havoid hrem.passes hlook] at hparent
      obtain ⟨-, -, -, hds⟩ := fields_of_mem_log hR.wf (r := P') (by rw [hR.removed.log]; simp)
      obtain ⟨hdir', hdents⟩ := hds _ hR.removed.dir'
      obtain ⟨d, hd, hname⟩ := hlisted
      have hnode : IsDir (nodes (log im.mem)) (inode_number im.mem q) (dents im.mem q) := by
        rw [IsDir, nodes_found hlast, if_pos hdir]
      obtain ⟨xs, ys, hxs, hys, -⟩ := filter_ne_of_nodup (h.good.tree.numbers _ _ hnode) hd
      rw [hR.removed.name d hd hname] at hys
      refine ⟨xs.map Prod.fst, ys.map Prod.fst, ?_, ?_⟩
      · rw [readdir_eq hq hdir, hxs, List.map_append, List.map_cons, hname]
      · rw [readdir_eq hparent hdir', hdents, hys, List.map_append]
    · have hnone : latest (log im'.mem) (inode_number im.mem e) = none := by
        rw [hR.removed.latest, if_neg hR.removed.ne, if_pos rfl]
      rw [← Option.not_isSome_iff_eq_none, latest_isSome] at hnone
      exact hnone ⟨r, hr, hlive, hino⟩
    · refine hR.sameLatest hkept hj ?_
      rintro ⟨e', q', he', -, -, rfl⟩
      exact hje (congrArg _ (Option.some.inj (he'.symm.trans hfind)))

/-- **Unlink removes exactly one name and one file**: in every state of a run of regular calls a successful
unlink that meets `Removable`, and whose parent path does not lead through the file, does so; and one that
does so meets `Removable`, unless its parent path leads through the file. -/
theorem removed_one_iff (h : Reach Fresh CallStep Regular im)
    (hfind : find_log_entry_by_path im.mem p.str = some e)
    (hq : find_log_entry_by_path im.mem (separate_path_and_file p.str).parent_path = some q)
    (hdir : S_ISDIR (mode im.mem q)) (hok : (wfs_unlink env im p.str).1 = .ok 0) :
    (AvoidsFile im p e ∧ Removable im p q e → RemovedOne im (wfs_unlink env im p.str).2 p q e) ∧
      (RemovedOne im (wfs_unlink env im p.str).2 p q e → AvoidsFile im p e → Removable im p q e) := by
  obtain ⟨offs, hsound⟩ := sound_of_reach h
  exact ⟨fun ⟨havoid, hrem⟩ => (hsound.removal_iff hfind hq hdir hok havoid).mpr hrem,
    fun hrem havoid => (hsound.removal_iff hfind hq hdir hok havoid).mp hrem⟩

/-- The file `/a/x` is removed from `/a`. -/
theorem removed_one_diskAX : RemovedOne diskAX (wfs_unlink env₀ diskAX pathAX.str).2 pathAX 180 264 := by
  have htokens : tokens (separate_path_and_file pathAX.str).parent_path = [[97]] := by decide
  have hino : (lookup (log diskAX.mem) 0 [[97]]).map Rec.ino = some 1 := by decide +kernel
  have hxs : ∀ xs ys : List Str, tokens (separate_path_and_file pathAX.str).parent_path = xs ++ ys →
      xs ≠ [] → xs = [[97]] ∧ ys = [] := by
    intro xs ys heq hne
    rw [htokens, eq_comm, List.append_eq_singleton_iff] at heq
    exact (heq.resolve_left fun h => hne h.1)
  refine (removed_one_iff (q := 180) (e := 264) reach_diskAX (by decide +kernel) (by decide +kernel)
    (by decide +kernel) (by decide +kernel)).1 ⟨fun xs ys d heq hne hd => ?_, by decide +kernel,
      fun xs y ys d heq hne => ?_, fun hnil => ?_⟩
  · obtain ⟨rfl, -⟩ := hxs xs ys heq hne
    rw [hd] at hino
    rw [Option.some.inj hino]
    decide +kernel
  · exact absurd (hxs xs (y :: ys) heq hne).2 (List.cons_ne_nil y ys)
  · exact absurd hnil (by decide)

/-- **An unlink removes a file of another directory**: `/a/f` is found in `/b`, and the empty directory `/a`
has no name to lose. -/
theorem unlink_hits_another : ¬∀ im, Reach Fresh CallStep (fun _ _ => True) im → ∀ (env : Env) (p : Path)
    (q e : ℕ), find_log_entry_by_path im.mem p.str = some e →
      find_log_entry_by_path im.mem (separate_path_and_file p.str).parent_path = some q →
      S_ISDIR (mode im.mem q) → (wfs_unlink env im p.str).1 = .ok 0 →
      RemovedOne im (wfs_unlink env im p.str).2 p q e := by
  intro h
  have hreach : Reach Fresh CallStep (fun _ _ => True) diskABF :=
    .next (a := .mknod env₀ pathBF) (.next (a := .mkdir env₀ pathB) (.next (a := .mkdir env₀ pathA)
      (.start (fresh_freshDisk _ _)) trivial rfl) trivial rfl) trivial rfl
  have hq : find_log_entry_by_path diskABF.mem (separate_path_and_file pathAF.str).parent_path = some 136 := by
    decide +kernel
  have hdir : S_ISDIR (mode diskABF.mem 136) := by decide +kernel
  obtain ⟨xs, ys, hxs, -⟩ := (h diskABF hreach env₀ pathAF 136 432 (by decide +kernel) hq hdir
    (by decide +kernel)).listing
  have hempty : dents diskABF.mem 136 = [] := by decide +kernel
  simp only [readdir_eq hq hdir, hempty, Except.ok.injEq, List.cons.injEq, true_and] at hxs
  simp at hxs

end OperatingSystems.Wfs
