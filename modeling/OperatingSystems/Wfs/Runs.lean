import OperatingSystems.Wfs.Sound

/-!
# Runs of regular calls

* **`Sound.step`** — each call that is `Regular` keeps the invariant, also when it fails half way.
* **`sound_of_reach`** — so the invariant holds in every state of a run of regular calls.
-/

namespace OperatingSystems.Wfs

open OperatingSystems.ByteMemory OperatingSystems.VersionLog OperatingSystems.Namespace
open OperatingSystems.GuardedRuns

variable {im : Image} {offs : List ℕ} {p : Path}

/-- Numbers stay below the number of entries when one entry of an old number is added. -/
theorem numbers_append {m m' : Mem} {r : Version} (h : ∀ s ∈ log m, s.ino < offs.length)
    (happ : Appends m m' offs r) (hr : r.ino ≤ offs.length) :
    ∀ s ∈ log m', s.ino < (offs ++ [head m]).length := by
  rw [List.length_append, List.length_singleton]
  exact happ.forall_log (fun s hs => Nat.lt_succ_of_lt (h s hs)) (Nat.lt_succ_of_le hr)

section Creation

variable {q k : ℕ} {f : Str} {m₁ : Mem} {P' : Version}

/-- A parent that has room for one more name is not stuck, and the disk is not full. -/
theorem not_stuck_of_room (hlast : latest (log im.mem) (inode_number im.mem q) = some (version im.mem q))
    (hroom : head im.mem + sizeof_log_entry + size im.mem q + sizeof_dentry ≤ im.disk_size) :
    ¬Full im ∧ ¬Stuck im (inode_number im.mem q) := by
  refine ⟨by rw [Full]; omega, ?_⟩
  rintro ⟨r, hr, hroom'⟩
  obtain rfl : version im.mem q = r := Option.some.inj (hlast.symm.trans hr)
  rw [show (version im.mem q).val.1.size = size im.mem q from rfl] at hroom'
  simp only [sizeof_log_entry, sizeof_dentry] at hroom hroom'
  omega

/-- **The parent only** has been appended: its new name stays dead, and nothing fits any more. -/
theorem Sound.parentOnly (h : Sound im offs)
    (hnone : find_log_entry_by_path im.mem p.str = none)
    (hq : find_log_entry_by_path im.mem (separate_path_and_file p.str).parent_path = some q)
    (hroom : head im.mem + sizeof_log_entry + size im.mem q + sizeof_dentry ≤ im.disk_size)
    (hnew : ∀ r ∈ log im.mem, r.ino ≠ k)
    (hP' : ParentAppended im.mem m₁ offs q (lastComponent p.str) k P')
    (hroom₁ : im.disk_size < head m₁ + sizeof_log_entry) :
    Good (log m₁) 0 (Full { im with mem := m₁ }) (Stuck { im with mem := m₁ }) := by
  obtain ⟨-, -, hlast⟩ := find_path_some h.wf (no_nul_parent p) hq
  obtain ⟨hfull, hstuck⟩ := not_stuck_of_room hlast hroom
  have hlatest₁ : ∀ i, i ≠ inode_number im.mem q → latest (log m₁) i = latest (log im.mem) i :=
    fun i hi => latest_appended hP'.appends hP'.live (hP'.ino ▸ hi.symm)
  by_cases hdir : S_ISDIR (mode im.mem q)
  · have hnode := hP'.node
    rw [if_pos hdir] at hnode
    have hdead := h.good.addDead hfull hlast (if_pos hdir) hP'.live hP'.ino hnode hnew
      ((fresh_name h.wf h.good hnone hq hstuck).1 hdir)
      (fun s hs => hP'.appends.pos ▸ pos_lt_head h.wf hs) True.intro
    rw [← hP'.appends.log_eq] at hdead
    refine hdead.mono (fun _ => hroom₁) fun i _ _ hi => ?_
    by_cases hiq : i = inode_number im.mem q
    · refine ⟨P', ?_, ?_⟩
      · show latest (log m₁) i = some P'
        rw [hP'.appends.log_eq, latest_snoc hP'.live, if_pos (hP'.ino.trans hiq.symm)]
      · show im.disk_size < head m₁ + (sizeof_log_entry - sizeof_dentry) + P'.val.1.size
        rw [hP'.size]
        simp only [sizeof_log_entry, sizeof_dentry] at hroom₁ ⊢
        omega
    · exact (hi.resolve_right hiq).after hP'.appends.head_le (hlatest₁ i hiq)
  · obtain ⟨hgood, -⟩ := fileAppended_good h.wf h.good (hP'.fileAppended hdir) hdir hlast
    refine hgood.mono (fun hf => absurd hf hfull) fun i _ hl hi => ?_
    refine hi.after hP'.appends.head_le (hlatest₁ i ?_)
    rintro rfl
    exact hstuck hi

/-- **The parent and the node** have been appended. -/
theorem Sound.created (h : Sound im offs) (hnone : find_log_entry_by_path im.mem p.str = none)
    (hq : find_log_entry_by_path im.mem (separate_path_and_file p.str).parent_path = some q)
    (hroom : head im.mem + sizeof_log_entry + size im.mem q + sizeof_dentry ≤ im.disk_size)
    (hnew : ∀ r ∈ log im.mem, r.ino ≠ k)
    (hP' : ParentAppended im.mem m₁ offs q (lastComponent p.str) k P') {m₂ : Mem} {type : ℕ} {N : Version}
    (hN : NodeAppended m₁ m₂ (offs ++ [head im.mem]) k type N) :
    Good (log m₂) 0 (Full { im with mem := m₂ }) (Stuck { im with mem := m₂ }) := by
  obtain ⟨-, -, hlast⟩ := find_path_some h.wf (no_nul_parent p) hq
  obtain ⟨hfull, hstuck⟩ := not_stuck_of_room hlast hroom
  have hgood : Good (log m₂) 0 (Full im) (Stuck im) := by
    by_cases hdir : S_ISDIR (mode im.mem q)
    · exact (created_good h.wf h.good hfull hstuck hnone hq hdir hnew hP' hN).1
    · obtain ⟨hgood, -⟩ := fileAppended_good h.wf h.good (hP'.fileAppended hdir) hdir hlast
      rw [hN.appends.log_eq]
      refine hgood.addFresh hfull hN.live (hN.node ▸ newNode_cases type) ?_ fun s hs =>
        hN.appends.pos ▸ pos_lt_head hP'.appends.wf hs
      intro s hs
      rw [hP'.appends.log_eq] at hs
      rw [hN.ino]
      rcases List.mem_append.mp hs with hs | hs
      · exact hnew s hs
      · rw [List.mem_singleton.mp hs, hP'.ino]
        exact hnew _ (mem_of_latest hlast).1
  refine hgood.mono (fun hf => absurd hf hfull) fun i _ _ hi => ?_
  have hiq : P'.ino ≠ i := by
    rintro rfl
    exact hstuck (hP'.ino ▸ hi)
  have hik : N.ino ≠ i := by
    rintro rfl
    obtain ⟨r, hr, -⟩ := hi
    rw [hN.ino, latest_none_of_new hnew] at hr
    cases hr
  exact hi.after (hP'.appends.head_le.trans hN.appends.head_le)
    ((latest_appended hN.appends hN.live hik).trans (latest_appended hP'.appends hP'.live hiq))

/-- **A regular creation keeps the invariant.** -/
theorem Sound.createEntry (h : Sound im offs) {type : ℕ} (htype : type < 2 ^ 32) (env : Env)
    (hname : (lastComponent p.str).length < MAX_FILE_NAME_LEN) :
    ∃ offs', Sound (createEntry type env im p.str).2 offs' := by
  obtain ⟨hkle, hk31, hnew⟩ := h.newInodeNumber
  have htake : (lastComponent p.str).take (MAX_FILE_NAME_LEN - 1) = lastComponent p.str :=
    List.take_of_length_le (by omega)
  rcases createEntry_effect h.wf hk31 htype env p with
    ⟨err, heq⟩ | ⟨q, m₁, P', hnone, hq, hroom, hP', hrest⟩
  · exact ⟨offs, by rw [heq]; exact h⟩
  rw [htake] at hP'
  obtain ⟨-, -, hlast⟩ := find_path_some h.wf (no_nul_parent p) hq
  have hhead₁ : head m₁ = head im.mem + sizeof_log_entry + (size im.mem q + sizeof_dentry) := by
    rw [hP'.appends.head_eq, hP'.size]
  have hnum₁ := numbers_append h.numbers hP'.appends
    (hP'.ino ▸ (h.numbers _ (mem_of_latest hlast).1).le)
  rcases hrest with ⟨hroom₁, heq⟩ | ⟨m₂, N, hroom₁, hN, heq⟩
  · have hle₁ : head m₁ ≤ max (sizeof_sb + sizeof_log_entry) im.disk_size :=
      (by omega : head m₁ ≤ im.disk_size).trans (le_max_right _ _)
    have hgood := h.parentOnly hnone hq hroom hnew hP' hroom₁
    exact ⟨_, by rw [heq]; exact ⟨hP'.appends.wf, hle₁, hnum₁, hgood⟩⟩
  · have hle₂ : head m₂ ≤ max (sizeof_sb + sizeof_log_entry) im.disk_size := by
      rw [hN.appends.head_eq, hN.size]
      exact hroom₁.trans (le_max_right _ _)
    have hnum₂ := numbers_append hnum₁ hN.appends (by
      rw [hN.ino, List.length_append, List.length_singleton]
      omega)
    exact ⟨_, by rw [heq]; exact ⟨hN.appends.wf, hle₂, hnum₂, h.created hnone hq hroom hnew hP' hN⟩⟩

end Creation

/-- **A regular write keeps the invariant.** -/
theorem Sound.write (h : Sound im offs) (env : Env) {buffer : List UInt8} {offset : ℕ}
    (hoff : offset + buffer.length < 2 ^ 31)
    (hreg : ∃ e, find_log_entry_by_path im.mem p.str = some e ∧ S_ISREG (mode im.mem e)) :
    ∃ offs', Sound (wfs_write env im p.str buffer offset).2 offs' := by
  rcases wfs_write_effect h.wf env p hoff h.size_lt with
    ⟨err, heq⟩ | ⟨e, m', F, hfind, hroom, hF, -, heq⟩
  · exact ⟨offs, by rw [heq]; exact h⟩
  obtain ⟨e', hfind', hreg⟩ := hreg
  obtain rfl : e = e' := Option.some.inj (hfind.symm.trans hfind')
  obtain ⟨-, -, hlast⟩ := find_path_some h.wf p.no_nul hfind
  have hfile : ¬S_ISDIR (mode im.mem e) := not_isDir_of_isReg hreg
  obtain ⟨hgood, hnodes⟩ := fileAppended_good h.wf h.good hF hfile hlast
  have hle : head m' ≤ max (sizeof_sb + sizeof_log_entry) im.disk_size := by
    rw [hF.appends.head_eq, hF.size]
    exact hroom.trans (le_max_right _ _)
  have hnum := numbers_append h.numbers hF.appends
    (hF.ino ▸ (h.numbers _ (mem_of_latest hlast).1).le)
  suffices hgood' : Good (log m') 0 (Full { im with mem := m' }) (Stuck { im with mem := m' }) from
    ⟨_, by rw [heq]; exact ⟨hF.appends.wf, hle, hnum, hgood'⟩⟩
  refine hgood.mono (·.after hF.appends.head_le) fun i j hl hi => ?_
  refine hi.after hF.appends.head_le (latest_appended hF.appends hF.live ?_)
  rintro rfl
  obtain ⟨ds, hds, -⟩ := hl
  rw [IsDir, hnodes, hF.ino, nodes_found hlast, if_neg hfile] at hds
  cases hds

/-- **A regular unlink keeps the invariant.** -/
theorem Sound.unlink (h : Sound im offs) (env : Env)
    (honce : ∀ e q, find_log_entry_by_path im.mem p.str = some e → ¬S_ISDIR (mode im.mem e) →
      find_log_entry_by_path im.mem (separate_path_and_file p.str).parent_path = some q →
      ListsOnce im.mem q (inode_number im.mem e)) :
    ∃ offs', Sound (wfs_unlink env im p.str).2 offs' := by
  rcases wfs_unlink_effect h.wf env p honce h.head_lt with
    ⟨err, heq⟩ | ⟨e, q, m₁, hfind, hfile, hq, hone, hwf, hlog, hhead, -, hrest⟩
  · exact ⟨offs, by rw [heq]; exact h⟩
  obtain ⟨-, -, hlaste⟩ := find_path_some h.wf p.no_nul hfind
  obtain ⟨-, -, hlastq⟩ := find_path_some h.wf (no_nul_parent p) hq
  have hqe : inode_number im.mem q ≠ inode_number im.mem e := by
    intro heq
    have hnode := nodes_found hlastq
    rw [heq, nodes_found hlaste, if_neg hfile, if_pos hone.1] at hnode
    cases hnode
  have hnum₁ : ∀ r ∈ log m₁, r.ino < offs.length := by
    intro r hr
    rw [hlog] at hr
    obtain ⟨s, hs, rfl⟩ := List.mem_map.mp hr
    rw [killRec_ino]
    exact h.numbers s hs
  have hlatest₁ : ∀ i, i ≠ inode_number im.mem e → latest (log m₁) i = latest (log im.mem) i := by
    intro i hi
    rw [hlog, latest_kill, if_neg hi]
  rcases hrest with ⟨hroom, heq⟩ | ⟨m₂, P', hroom, hP', heq⟩
  · -- the inode only: the name in the parent stays dead, and the parent cannot be rewritten any more
    suffices hgood : Good (log m₁) 0 (Full { im with mem := m₁ }) (Stuck { im with mem := m₁ }) from
      ⟨offs, by rw [heq]; exact ⟨hwf, hhead ▸ h.head_le, hnum₁, hgood⟩⟩
    have hkill := h.good.kill (g := markDeleted) (j := inode_number im.mem e)
      (p := inode_number im.mem q) (by rw [nodes_found hlaste, if_neg hfile])
      ⟨dents im.mem q, by rw [IsDir, nodes_found hlastq, if_pos hone.1], hone.mem⟩
    rw [← hlog] at hkill
    refine hkill.mono (·.after hhead.ge) fun i j hl hi => ?_
    have hie : i ≠ inode_number im.mem e := by
      rintro rfl
      obtain ⟨ds, hds, -⟩ := hl
      rw [IsDir, hlog, nodes_kill, Function.update_self] at hds
      cases hds
    refine (hi.elim id ?_ : Stuck im i).after hhead.ge (hlatest₁ i hie)
    rintro rfl
    exact ⟨_, hlastq, hroom⟩
  · -- the inode and the name
    have hle₂ : head m₂ ≤ max (sizeof_sb + sizeof_log_entry) im.disk_size := by
      have hsize := hP'.size
      rw [hP'.appends.head_eq, hhead]
      simp only [sizeof_log_entry, sizeof_dentry] at hroom hsize ⊢
      exact (by omega : _ ≤ im.disk_size).trans (le_max_right _ _)
    have hnum₂ := numbers_append hnum₁ hP'.appends
      (hP'.ino ▸ (h.numbers _ (mem_of_latest hlastq).1).le)
    suffices hgood : Good (log m₂) 0 (Full { im with mem := m₂ }) (Stuck { im with mem := m₂ }) from
      ⟨_, by rw [heq]; exact ⟨hP'.appends.wf, hle₂, hnum₂, hgood⟩⟩
    obtain ⟨hgood, hnodes⟩ := nameRemoved_good h.wf h.good hfile hlaste hlastq hone hlog hhead hP'
    have hmono : head im.mem ≤ head m₂ := hhead ▸ hP'.appends.head_le
    refine hgood.mono (·.after hmono) fun i j hl hi => ?_
    have hie : i ≠ inode_number im.mem e := by
      rintro rfl
      obtain ⟨ds, hds, -⟩ := hl
      rw [IsDir, hnodes, Function.update_self] at hds
      cases hds
    have hiq : P'.ino ≠ i := by
      rintro rfl
      -- a stuck parent would not have been rewritten
      obtain ⟨r, hr, hroom'⟩ := hi
      rw [hP'.ino, hlastq] at hr
      rw [← Option.some.inj hr] at hroom'
      exact absurd hroom' (not_lt.mpr hroom)
    exact hi.after hmono ((latest_appended hP'.appends hP'.live hiq).trans (hlatest₁ i hie))

/-- **Each regular call keeps the invariant.** -/
theorem Sound.step (h : Sound im offs) {c : Call} (hc : Regular im c) :
    ∃ offs', Sound (c.run im).2 offs' := by
  cases c with
  | mknod env p => exact h.createEntry (by decide) env hc
  | mkdir env p => exact h.createEntry (by decide) env hc
  | write env p buffer offset => exact h.write env hc.1 hc.2
  | unlink env p => exact h.unlink env hc

/-- **The invariant holds along every run of regular calls.** -/
theorem sound_of_reach (h : Reach Fresh CallStep Regular im) : ∃ offs, Sound im offs := by
  refine h.invariant (I := fun im => ∃ offs, Sound im offs) ?_ ?_
  · rintro _ ⟨env, disk, rfl⟩
    exact ⟨_, sound_mkfs env disk⟩
  · rintro im c _ ⟨offs, h⟩ hc rfl
    exact h.step hc

/-! ### Small runs -/

/-- A disk of zeros. -/
def zeroDisk (n : ℕ) (h : n < 2 ^ 31) : Image := ⟨⟨fun _ => 0, []⟩, n, h⟩

/-- The super user at the beginning of time. -/
def env₀ : Env := ⟨0, 0, 0, 0, 0⟩

/-- A fresh file system on a disk of zeros. -/
def freshDisk (n : ℕ) (h : n < 2 ^ 31) : Image := mkfs env₀ (zeroDisk n h)

theorem fresh_freshDisk (n : ℕ) (h : n < 2 ^ 31) : Fresh (freshDisk n h) := ⟨env₀, zeroDisk n h, rfl⟩

theorem thousand_lt : 1000 < 2 ^ 31 := by decide

/-- The path `/a`. -/
def pathA : Path := ⟨[47, 97], rfl, by decide, by decide⟩

/-- The path `/a/x`. -/
def pathAX : Path := ⟨[47, 97, 47, 120], rfl, by decide, by decide⟩

/-- The path `/b`. -/
def pathB : Path := ⟨[47, 98], rfl, by decide, by decide⟩

/-- The path `/x`. -/
def pathX : Path := ⟨[47, 120], rfl, by decide, by decide⟩

/-- A disk of 1000 bytes with the file `/a/x`. -/
def diskAX : Image :=
  ((Call.mknod env₀ pathAX).run ((Call.mkdir env₀ pathA).run (freshDisk 1000 (by decide))).2).2

theorem reach_diskAX : Reach Fresh CallStep Regular diskAX :=
  .next (a := .mknod env₀ pathAX)
    (.next (a := .mkdir env₀ pathA) (.start (fresh_freshDisk _ _))
      (show (lastComponent pathA.str).length < MAX_FILE_NAME_LEN by decide) rfl)
    (show (lastComponent pathAX.str).length < MAX_FILE_NAME_LEN by decide) rfl

/-- Its five entries. -/
theorem tiles_diskAX : Tiles diskAX.mem [8, 52, 136, 180, 264] := by
  have hhead : head diskAX.mem = 308 := by decide +kernel
  rw [Tiles, hhead]
  refine .step (c := 52) ?_ (.step (c := 136) ?_ (.step (c := 180) ?_ (.step (c := 264) ?_
    (.step (c := 308) ?_ (.nil 308))))) <;> decide +kernel

end OperatingSystems.Wfs
